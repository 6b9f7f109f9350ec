/-
  Sleeping processes.

  `Sys.Asleep` holds of a process from the point in `sleep` at which it has given up its lock until
  it is woken.  The scan of `wakeup` sees every such process, because it holds `p->lock` until it is
  SLEEPING (`not_asleep_of_wake`), and a process falls asleep only by releasing its lock in `sleep`
  (`StepEff.asleep`).
-/
import Xv6.Sched.Family

namespace Xv6.Sched

variable {κ Lk Ch D X L : Type}
variable {n : Nat} {c : κ} {p : Nat} {a : Act Ch X L}
variable {m m' : Mem κ Lk Ch D L} {pc pc' : Pc Lk Ch L} {s t : Sys κ Lk Ch D L}

/-! ## Processes in the table -/

/-- Every process that has been executed is one that the loops over the table reach. -/
structure Range (n : Nat) (s : Sys κ Lk Ch D L) : Prop where
  code : ∀ e q pc, (s.cpu e).code = .thread q pc → q < n
  context : ∀ q pc, (s.mem.proc q).context = some pc → q < n ∨ pc = .forkret

variable [DecidableEq Lk] {K : Client Lk Ch D X L}

theorem StepEff.cpu_ne [DecidableEq κ] [DecidableEq Ch] (heff : StepEff K n s c t) {e : κ} (he : e ≠ c) : t.cpu e = s.cpu e := by
  cases heff with
  | device | wake => rfl
  | _ => exact Function.update_of_ne he _ _

theorem Range.step [DecidableEq κ] [DecidableEq Ch] (h : Range n s) (hI : Inv K s) (heff : StepEff K n s c t) : Range n t := by
  refine ⟨?_, ?_⟩
  · intro e q pc hcode
    by_cases he : e = c
    · subst he
      cases heff with
      | scan | back => simp at hcode
      | pick i pc' hs hi =>
        simp only [Function.update_self, Code.thread.injEq] at hcode
        exact hcode.1 ▸ hi
      | go _ pc₀ _ _ _ hs | timer _ pc₀ hs =>
        rw [Sys.code_go, if_pos rfl] at hcode
        cases hcode
        exact h.code e q pc₀ hs
      | swtch p pc₀ saved hs => simp [Sys.swtch] at hcode
      | device | wake => exact h.code e q pc hcode
    · rw [heff.cpu_ne he] at hcode
      exact h.code e q pc hcode
  · intro q pc hctx
    cases heff.move hI (Or.inr hctx) with
    | stay hat =>
      rcases hat with ⟨e, he⟩ | hctx
      · exact Or.inl (h.code e q pc he)
      · exact h.context q pc hctx
    | fresh hx => exact Or.inr hx
    | swtch pc₀ hcode | timer pc₀ hcode | go pc₀ _ _ hcode => exact Or.inl (h.code c q pc₀ hcode)

omit [DecidableEq Lk] in
theorem Range.init (d : D) : Range n (Sys.init d : Sys κ Lk Ch D L) := by
  refine ⟨nofun, ?_⟩
  intro q pc hctx
  have hat : (Sys.init d : Sys κ Lk Ch D L).At q pc := Or.inr hctx
  rw [Sys.at_init] at hat
  exact Or.inr hat.2

/-! ## Locks -/

theorem Pc.Saved.locks_eq {x : ProcState} (h : pc.Saved x) (hwf : pc.Wf K p) : pc.locks K = [] := by
  cases pc with
  | forkret => rfl
  | sleep pt | exit pt =>
    cases pt with
    | back => rfl
    | _ => exact h.elim
  | yield pt k => exact hwf.2.2
  | _ => exact h.elim

variable {q : Nat} {ch : Chan Ch}

/-- Two processes do not hold one lock. -/
theorem Inv.locks_disjoint (h : Inv K s) (hcode : (s.cpu c).code = .thread p pc) {x : Pc Lk Ch L}
    (hat : s.At q x) (hne : q ≠ p) (k : Lock Lk) (hk : k ∈ pc.locks K) : k ∉ x.locks K := by
  intro hx
  rcases hat with ⟨e, he⟩ | hctx
  · have h1 := h.lock_of hcode hk
    have h2 := h.lock_of he hx
    rw [h1] at h2
    cases h2
    rw [hcode] at he
    cases he
    exact hne rfl
  · rw [(h.saved q x hctx).locks_eq (h.wf q x (Or.inr hctx))] at hx
    cases hx

/-! ## Sleep -/

/-- Process `q` is SLEEPING on the channel. -/
def Sys.SleepsOn (s : Sys κ Lk Ch D L) (q : Nat) (ch : Chan Ch) : Prop :=
  (s.mem.proc q).state = .sleeping ∧ (s.mem.proc q).chan = some ch

/-- A sleeping process is in `sleep`. -/
theorem Inv.of_sleepsOn (h : Inv K s) (hq : s.SleepsOn q ch) :
    ∃ w, w.chan q = ch ∧ (s.At q (.sleep .sched w) ∨ s.At q (.sleep .back w)) := by
  obtain ⟨hs, hchan⟩ := hq
  obtain ⟨pc, hat⟩ := h.exists_at (Or.inr (Or.inr (Or.inl hs)))
  have hpc := h.chan q pc hat
  rw [hchan] at hpc
  rcases hat with ⟨c, hcode⟩ | hctx
  · obtain ⟨w, rfl⟩ := Pc.eq_sched ((h.run c q pc hcode).1.symm.trans hs)
    cases hpc
    exact ⟨w, rfl, Or.inl (Or.inl ⟨c, hcode⟩)⟩
  · obtain ⟨w, rfl⟩ := (h.saved q pc hctx).sleep_back (hpc ▸ Option.some_ne_none ch)
    cases hpc
    exact ⟨w, rfl, Or.inr (Or.inr hctx)⟩

/-- A process `q` in state `x` at the point sleeps on the channel, or is about to and has given up
    the lock. -/
def Pc.Sleeps (q : Nat) (x : ProcState) (ch : Chan Ch) : Pc Lk Ch L → Prop
  | .sleep .set w => w.chan q = ch
  | .sleep .sched w => w.chan q = ch
  | .sleep .back w => w.chan q = ch ∧ x = .sleeping
  | _ => False

def Sys.Asleep (s : Sys κ Lk Ch D L) (q : Nat) (ch : Chan Ch) : Prop :=
  ∃ pc, s.At q pc ∧ pc.Sleeps q (s.mem.proc q).state ch

theorem Inv.asleep_of_sleepsOn (h : Inv K s) (hq : s.SleepsOn q ch) : s.Asleep q ch := by
  obtain ⟨w, hw, hat⟩ := h.of_sleepsOn hq
  rcases hat with hat | hat
  · exact ⟨_, hat, hw⟩
  · exact ⟨_, hat, hw, hq.1⟩

omit [DecidableEq Lk] in
theorem Pc.Sleeps.eq_sleep {x : ProcState} (h : pc.Sleeps q x ch) :
    ∃ pt w, pc = .sleep pt w ∧ w.chan q = ch ∧
      (pt = .set ∨ pt = .sched ∨ pt = .back ∧ x = .sleeping) := by
  cases pc with
  | sleep pt w =>
    cases pt with
    | set => exact ⟨_, w, rfl, h, Or.inl rfl⟩
    | sched => exact ⟨_, w, rfl, h, Or.inr (Or.inl rfl)⟩
    | back => exact ⟨_, w, rfl, h.1, Or.inr (Or.inr ⟨rfl, h.2⟩)⟩
    | _ => exact h.elim
  | _ => exact h.elim

omit [DecidableEq Lk] in
theorem Range.of_asleep (h : Range n s) (hq : s.Asleep q ch) : q < n := by
  obtain ⟨pc, hat, hs⟩ := hq
  obtain ⟨pt, w, rfl, _⟩ := hs.eq_sleep
  rcases hat with ⟨e, he⟩ | hctx
  · exact h.code e q _ he
  · rcases h.context q _ hctx with hlt | hx
    · exact hlt
    · cases hx

variable [DecidableEq Ch]

/-- A process that the scan of `wakeup` has just looked at does not sleep on the channel. -/
theorem not_asleep_of_wake (hI : Inv K s) (hfree : (s.mem.proc q).lock = none)
    (ht : t.mem = s.mem.wake ch q) (hat : ∀ pt w, t.At q (.sleep pt w) → s.At q (.sleep pt w)) :
    ¬ t.Asleep q ch := by
  rintro ⟨x, hx, hsl⟩
  obtain ⟨pt, w, rfl, hw, hpt⟩ := hsl.eq_sleep
  have hat := hat _ _ hx
  -- before it is asleep it holds its own lock
  have hback : pt = .back ∧ (t.mem.proc q).state = .sleeping := by
    rcases hat with ⟨e, he⟩ | hctx
    · rcases hpt with rfl | rfl | hpt
      · have hlock := hI.plock_of he List.mem_cons_self
        rw [hfree] at hlock
        cases hlock
      · have hlock := hI.plock_of he List.mem_cons_self
        rw [hfree] at hlock
        cases hlock
      · exact hpt
    · rcases hpt with rfl | rfl | hpt
      · exact (hI.saved q _ hctx).elim
      · exact (hI.saved q _ hctx).elim
      · exact hpt
  obtain ⟨rfl, hs⟩ := hback
  have hchan : (s.mem.proc q).chan = some (w.chan q) := hI.chan q _ hat
  rw [hw] at hchan
  rw [ht, s.mem.proc_wake, if_pos rfl] at hs
  by_cases hsl : (s.mem.proc q).state = .sleeping
  · rw [if_pos ⟨hsl, hchan⟩] at hs
    cases hs
  · rw [if_neg (fun h => hsl h.1)] at hs
    exact hsl hs

variable [DecidableEq κ]

/-- A process that sleeps after a step sleeps before it, or has just released its lock. -/
theorem StepEff.asleep (hI : Inv K s) (heff : StepEff K n s c t) (hq : t.Asleep q ch) :
    s.Asleep q ch ∨ ∃ w, (s.cpu c).code = .thread q (.sleep .release w) ∧ w.chan q = ch := by
  obtain ⟨x, hx, hsl⟩ := hq
  obtain ⟨pt, w, rfl, hw, hpt⟩ := hsl.eq_sleep
  cases heff.move hI hx with
  | stay hat =>
    refine Or.inl ⟨_, hat, ?_⟩
    rcases hpt with rfl | rfl | ⟨rfl, hs⟩
    · exact hw
    · exact hw
    · refine ⟨hw, ?_⟩
      rcases heff.sleeping hI hs with hsleep | ⟨w', hcode⟩
      · exact hsleep
      · cases hI.at_unique hat (Or.inl ⟨c, hcode⟩)
  | fresh hx | timer _ _ _ hx => cases hx
  | swtch pc hcode heff ht =>
    cases heff
    exact Or.inl ⟨_, Or.inl ⟨c, hcode⟩, hw⟩
  | go pc a m hcode hstep ht =>
    have hat : s.At q pc := Or.inl ⟨c, hcode⟩
    rcases threadStep_sleep (hI.wf q pc hat) hstep with h | h | ⟨h, _⟩ | ⟨_, rfl⟩ | ⟨_, rfl⟩
    · simp [h] at hpt
    · simp [h] at hpt
    · simp [h] at hpt
    · exact Or.inr ⟨w, hcode, hw⟩
    · exact Or.inl ⟨_, hat, hw⟩

theorem not_asleep_of_at (hI : Inv K s) (heff : StepEff K n s c t) {x : Pc Lk Ch L} (hx : t.At q x)
    (hne : ∀ pt w, x ≠ .sleep pt w) : ¬ t.Asleep q ch := by
  rintro ⟨y, hy, hsl⟩
  obtain ⟨pt, w, rfl, _⟩ := hsl.eq_sleep
  exact hne pt w ((hI.step heff).at_unique hx hy)

/-- Only the process that CPU `c` executes moves, and a child that is being set up. -/
theorem StepEff.at_other (hI : Inv K s) (heff : StepEff K n s c t)
    (hcode : (s.cpu c).code = .thread p pc) {x : Pc Lk Ch L} (hx : t.At q x) (hne : q ≠ p) :
    s.At q x ∨ x = .forkret := by
  cases heff.move hI hx with
  | stay hat => exact Or.inl hat
  | fresh hx => exact Or.inr hx
  | swtch _ hcode' | timer _ hcode' | go _ _ _ hcode' =>
    rw [hcode] at hcode'
    cases hcode'
    exact absurd rfl hne

end Xv6.Sched
