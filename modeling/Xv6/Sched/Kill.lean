/-
  Kills.

  `kkill` marks a process under `p->lock` only, and wakes it if it sleeps.  A process that has found
  itself unmarked stays so as long as nobody marks it: a `Guard` names the points between such a test
  and the sleep or the wakeup that relies on it.

  `guard_of_run` is what holds in every run that marks no process at such a point: a process there is
  not marked, and neither is one that sleeps after it.
-/
import Xv6.Sched.Asleep

namespace Xv6.Sched

variable {κ Lk Ch D X L : Type}
variable {n : Nat} {c : κ} {p : Nat} {a : Act Ch X L}
variable {m m' : Mem κ Lk Ch D L} {pc pc' : Pc Lk Ch L} {s t : Sys κ Lk Ch D L}

/-! ## Steps that mark a process -/

variable {q : Nat} {acts : List (κ × Act Ch X L)}

variable [DecidableEq Lk] {K : Client Lk Ch D X L}
variable [DecidableEq κ]

/-- A step that marks a process leaves it awake. -/
theorem StepEff.killed [DecidableEq Ch] (hI : Inv K s) (heff : StepEff K n s c t)
    (h : (t.mem.proc q).killed = true) :
    (s.mem.proc q).killed = true ∨ (t.mem.proc q).state ≠ .sleeping := by
  rcases heff.changed hI with hkin | ⟨i, x, hproc, hx⟩
  · exact (hkin q).killed h
  · cases hx <;> grind

/-- The step marks process `q`. -/
def Sys.Marks (s t : Sys κ Lk Ch D L) (q : Nat) : Prop :=
  (s.mem.proc q).killed = false ∧ (t.mem.proc q).killed = true

/-! ## Guards -/

/-- The instruction at point `l` leads to a guarded point only from one, unless it tests for a kill,
    and enters a killable sleep only there. -/
def GuardKeeps (guarded : L → Prop) (killable : Wait Lk Ch L → Prop) (l : L) :
    Instr Lk Ch D X L → Prop
  | .acquire _ next => guarded next → guarded l
  | .release _ next => guarded next → guarded l
  | .sleep ch k next => (killable (.client ch k next) → guarded l) ∧ ¬ guarded next
  | .wakeup _ next => guarded next → guarded l
  | .killed next => ¬ guarded (next true)
  | .access f => ∀ me x d d' next, f me x d = some (d', next) → guarded next → guarded l
  | .ret => True

/-- Points of the client at which a process has found itself unmarked, and sleeps that it enters only
    from such points. -/
structure Guard (K : Client Lk Ch D X L) where
  guarded : L → Prop
  killable : Wait Lk Ch L → Prop
  entry : ∀ l, K.entry l = true → ¬ guarded l
  keeps : ∀ l, GuardKeeps guarded killable l (K.code l)

def Pc.Guarded (G : Guard K) : Pc Lk Ch L → Prop
  | .client l => G.guarded l
  | .sleep .back _ => False
  | .sleep .reacquire _ => False
  | .sleep _ w => G.killable w
  | .wakeup _ _ (.client next) => G.guarded next
  | .yield _ k => k.Guarded G
  | _ => False

omit [DecidableEq Lk] in
theorem guardKeeps_none (l : L) (i : Instr Lk Ch D X L) :
    GuardKeeps (fun _ => False) (fun _ => False) l i := by
  cases i with
  | acquire | release | wakeup | killed => exact id
  | sleep ch k next => exact ⟨id, id⟩
  | access f => exact fun _ _ _ _ _ _ => id
  | ret => trivial

/-- No point is guarded. -/
def Guard.none (K : Client Lk Ch D X L) : Guard K where
  guarded := fun _ => False
  killable := fun _ => False
  entry := fun _ _ => id
  keeps := fun l => guardKeeps_none l (K.code l)

variable [DecidableEq Ch]

omit [DecidableEq Ch] in
theorem Pc.not_guarded_none (pc : Pc Lk Ch L) : ¬ pc.Guarded (Guard.none K) := by
  induction pc with
  | sleep pt w => cases pt <;> exact id
  | wakeup ch i k => cases k <;> exact id
  | yield pt k ih => exact ih
  | _ => exact id

/-- The step marks no process at a guarded point. -/
def Guard.Spares (G : Guard K) (s t : Sys κ Lk Ch D L) : Prop :=
  ∀ q pc, s.Marks t q → s.At q pc → ¬ pc.Guarded G

structure GuardInv (G : Guard K) (s : Sys κ Lk Ch D L) : Prop where
  guard : ∀ q pc, s.At q pc → pc.Guarded G → (s.mem.proc q).killed = false
  asleep : ∀ q w, s.At q (.sleep .back w) → G.killable w →
    (s.mem.proc q).state = .sleeping → (s.mem.proc q).killed = false

/-- A step to a guarded point comes from one, or tests for a kill. -/
theorem threadStep_guarded (G : Guard K) (hwf : pc.Wf K p)
    (h : threadStep K n c p a m pc = some (m', .go pc')) (hg : pc'.Guarded G) :
    pc.Guarded G ∨ (m'.proc p).killed = false := by
  cases threadStep_eff h with
  | user heff =>
    cases heff with
    | enter l hl => exact absurd hg (G.entry l hl)
    | _ => exact absurd hg id
  | client l heff =>
    have hkeeps := G.keeps l
    cases heff with
    | acquire _ _ hcode | release _ _ hcode | wakeup _ _ hcode =>
      rw [hcode] at hkeeps
      exact Or.inl (hkeeps hg)
    | sleep ch k next hcode =>
      rw [hcode] at hkeeps
      exact Or.inl (hkeeps.1 hg)
    | killed next hcode =>
      rw [hcode] at hkeeps
      cases hk : (m.proc p).killed with
      | false => exact Or.inr rfl
      | true =>
        rw [hk] at hg
        exact absurd hg hkeeps
    | access f x d next hcode hf =>
      rw [hcode] at hkeeps
      exact Or.inl (hkeeps p x m.data d next hf hg)
    | ret => exact absurd hg id
  | forkret hlock => exact absurd hg id
  | sleep pt w heff =>
    cases heff with
    | back hlock => exact absurd hg id
    | reacquire hfree =>
      cases w with
      | client ch k next =>
        obtain ⟨l, hcode⟩ := hwf
        have hkeeps := G.keeps l
        rw [hcode] at hkeeps
        exact absurd hg hkeeps.2
      | kwait addr => exact absurd hg id
    | _ => exact Or.inl hg
  | wakeup ch i k heff => cases heff <;> cases k <;> exact Or.inl hg
  | yield pt k heff => cases heff <;> exact Or.inl hg
  | kill _ _ heff | fork _ heff | exit _ heff => cases heff <;> exact absurd hg id
  | wait pt heff =>
    cases heff with
    | sleep addr hfree hk => exact Or.inr hk
    | _ => exact absurd hg id

theorem GuardInv.step {G : Guard K} (h : GuardInv G s) (hI : Inv K s) (heff : StepEff K n s c t)
    (hspares : G.Spares s t) : GuardInv G t := by
  -- a guarded process that is marked after the step has been marked by it
  have hmark : ∀ q pc, s.At q pc → pc.Guarded G → (t.mem.proc q).killed = false := by
    intro q pc hat hg
    cases hk : (t.mem.proc q).killed with
    | false => rfl
    | true => exact absurd hg (hspares q pc ⟨h.guard q pc hat hg, hk⟩ hat)
  refine ⟨?_, ?_⟩
  · intro q x hx hg
    cases heff.move hI hx with
    | stay hat => exact hmark q x hat hg
    | fresh hx hs =>
      rw [hx] at hg
      exact absurd hg id
    | swtch pc hcode heff ht =>
      refine hmark q pc (Or.inl ⟨c, hcode⟩) ?_
      cases heff with
      | sleep | exit => exact absurd hg id
      | yield k => exact hg
    | timer pc hcode hnoff hx ht =>
      rw [hx] at hg
      exact hmark q pc (Or.inl ⟨c, hcode⟩) hg
    | go pc a m hcode hstep ht =>
      have hat : s.At q pc := Or.inl ⟨c, hcode⟩
      rcases threadStep_guarded G (hI.wf q pc hat) hstep hg with hg | hk
      · exact hmark q pc hat hg
      · rw [ht]
        exact hk
  · intro q w hat hw hs
    cases heff.move hI hat with
    | stay hat =>
      have hsleep : (s.mem.proc q).state = .sleeping := by
        rcases heff.sleeping hI hs with hsleep | ⟨w', hcode⟩
        · exact hsleep
        · cases hI.at_unique hat (Or.inl ⟨c, hcode⟩)
      have hold := h.asleep q w hat hw hsleep
      cases hk : (t.mem.proc q).killed with
      | false => rfl
      | true =>
        rcases heff.killed hI hk with hk | hne
        · rw [hold] at hk
          cases hk
        · exact absurd hs hne
    | fresh hx | timer _ _ _ hx => cases hx
    | swtch pc hcode heff ht =>
      cases heff
      exact hmark q _ (Or.inl ⟨c, hcode⟩) hw
    | go pc a m hcode hstep ht =>
      -- a thread that is executed at this point is running
      have hrun := ((hI.step heff).run c q (.sleep .back w) (by rw [ht, Sys.code_go, if_pos rfl])).1
      rw [hs] at hrun
      cases hrun

/-! ## Runs -/

/-- Every step of the run is as the condition says. -/
def Meets (K : Client Lk Ch D X L) (n : Nat) (C : Sys κ Lk Ch D L → Sys κ Lk Ch D L → Prop) :
    Sys κ Lk Ch D L → List (κ × Act Ch X L) → Prop
  | _, [] => True
  | s, (c, a) :: acts => ∀ t, step K n s c a = some t → C s t ∧ Meets K n C t acts

theorem meets_induction {C : Sys κ Lk Ch D L → Sys κ Lk Ch D L → Prop} {P : Sys κ Lk Ch D L → Prop}
    (hstep : ∀ s c t, P s → StepEff K n s c t → C s t → P t) (hs : P s) (hC : Meets K n C s acts)
    (h : run K n s acts = some t) : P t := by
  induction acts generalizing s with
  | nil =>
    cases h
    exact hs
  | cons ca acts ih =>
    obtain ⟨c, a⟩ := ca
    simp only [run] at h
    split at h
    · rename_i u hu
      obtain ⟨hc, hC⟩ := hC u hu
      exact ih (hstep s c u hs (step_eff hu) hc) hC h
    · cases h

theorem meets_none (acts : List (κ × Act Ch X L)) (s : Sys κ Lk Ch D L) :
    Meets K n (Guard.none K).Spares s acts := by
  induction acts generalizing s with
  | nil => trivial
  | cons ca acts ih => exact fun t _ => ⟨fun _ pc _ _ => pc.not_guarded_none, ih t⟩

/-- No step of the run marks a process of the table. -/
def unmarked (K : Client Lk Ch D X L) (n : Nat) :
    Sys κ Lk Ch D L → List (κ × Act Ch X L) → Bool
  | _, [] => true
  | s, (c, a) :: acts =>
    match step K n s c a with
    | some t =>
      decide (∀ q < n, (t.mem.proc q).killed = true → (s.mem.proc q).killed = true) &&
        unmarked K n t acts
    | none => true

/-- Such a run spares the processes at the points of any guard. -/
theorem meets_of_unmarked (G : Guard K) (hI : Inv K s) (hR : Range n s)
    (h : unmarked K n s acts = true) : Meets K n G.Spares s acts := by
  induction acts generalizing s with
  | nil => trivial
  | cons ca acts ih =>
    intro t ht
    simp only [unmarked, ht, Bool.and_eq_true, decide_eq_true_eq] at h
    have heff := step_eff ht
    refine ⟨?_, ih (hI.step heff) (hR.step hI heff) h.2⟩
    intro q pc hmark hat
    have hout : n ≤ q := by
      by_contra hlt
      have hk := h.1 q (Nat.lt_of_not_le hlt) hmark.2
      rw [hmark.1] at hk
      cases hk
    -- a process outside of the table is at no point but the start
    rcases hat with ⟨e, he⟩ | hctx
    · exact absurd (hR.code e q pc he) (Nat.not_lt.mpr hout)
    · rcases hR.context q pc hctx with hlt | rfl
      · exact absurd hlt (Nat.not_lt.mpr hout)
      · exact id

omit [DecidableEq κ] [DecidableEq Ch] in
theorem GuardInv.init (G : Guard K) (d : D) : GuardInv G (Sys.init d : Sys κ Lk Ch D L) :=
  ⟨fun _ _ _ _ => rfl, fun _ _ _ _ _ => rfl⟩

theorem guard_of_run (G : Guard K) {d : D} (hG : Meets K n G.Spares (Sys.init d) acts)
    (hrun : run K n (Sys.init d) acts = some s) : GuardInv G s := by
  refine (meets_induction (P := fun s => Inv K s ∧ GuardInv G s) ?_
    ⟨Inv.init d, GuardInv.init G d⟩ hG hrun).2
  intro s c t h heff hspares
  exact ⟨h.1.step heff, h.2.step h.1 heff hspares⟩

end Xv6.Sched
