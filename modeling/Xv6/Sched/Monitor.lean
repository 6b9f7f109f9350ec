/-
  Monitors: no lost wakeups.

  A channel is guarded by a spin lock, and nobody should sleep on it while its condition holds.  A
  `Monitor` says for each point of the client what it knows about the data (`pre`) and which wakeups
  it still owes.  Its obligations are about single instructions: an access that makes a condition
  true owes a wakeup afterwards, a sleep is entered only while the condition is false, and an access
  keeps what is known at points that hold none of its locks.

  `no_sleeper` is the result: in every state of every run in which the lock of a channel is free, no
  process sleeps on the channel while its condition holds.  The scan of `wakeup` sees every sleeper,
  because a process that has given up the lock holds `p->lock` until it is asleep.
-/
import Xv6.Sched.Kill

namespace Xv6.Sched

open List

variable {κ Lk Ch D X L : Type}
variable {n : Nat} {c : κ} {p : Nat} {a : Act Ch X L}
variable {m m' : Mem κ Lk Ch D L} {pc pc' : Pc Lk Ch L} {s t : Sys κ Lk Ch D L}

/-! ## Obligations -/

variable [DecidableEq Lk] {K : Client Lk Ch D X L}

/-- What the proof of a client knows. -/
structure Annotation (K : Client Lk Ch D X L) where
  /-- Holds at all times. -/
  inv : D → Prop
  /-- Nobody should sleep on the channel. -/
  cond : Ch → D → Prop
  lock : Ch → Lk
  /-- Holds while a process is at the point. -/
  pre : L → D → Prop
  /-- A process at the point will wake the channel before it gives up its lock. -/
  owes : L → Ch → Prop
  guard : Guard K

/-- An access at point `l` that goes on at point `next` keeps the annotation. -/
structure Annotation.Access (N : Annotation K) (l : L) (d d' : D) (next : L) : Prop where
  inv : N.inv d'
  pre : N.pre next d'
  cond : ∀ ch, N.cond ch d' → N.owes next ch ∨ N.cond ch d ∧ ¬ N.owes l ch
  frame : ∀ l', (∀ k ∈ K.held l, k ∉ K.held l') → N.pre l' d → N.pre l' d'

/-- The instruction at point `l` keeps the annotation. -/
def Annotation.Keeps (N : Annotation K) (l : L) : Instr Lk Ch D X L → Prop
  | .acquire _ next =>
    (∀ d, N.inv d → N.pre l d → N.pre next d) ∧ ∀ ch, N.owes l ch → N.owes next ch
  | .release _ next =>
    (∀ d, N.inv d → N.pre l d → N.pre next d) ∧ ∀ ch, N.owes l ch → N.owes next ch
  | .sleep ch k next =>
    k = N.lock ch ∧ (∀ d, N.inv d → N.pre l d → ¬ N.cond ch d) ∧ (∀ d, N.inv d → N.pre next d) ∧
      ∀ ch', ¬ N.owes l ch'
  | .wakeup ch next =>
    (∀ d, N.inv d → N.pre l d → N.pre next d) ∧ ∀ ch', ch' ≠ ch → N.owes l ch' → N.owes next ch'
  | .killed next =>
    (∀ b d, N.inv d → N.pre l d → N.pre (next b) d) ∧
      ∀ ch, N.owes l ch → N.owes (next false) ch ∧ (N.owes (next true) ch ∨ N.guard.guarded l)
  | .access f =>
    ∀ me x d d' next, f me x d = some (d', next) → N.inv d → N.pre l d → N.Access l d d' next
  | .ret => True

/-- The annotation says nothing about the point. -/
def Annotation.Quiet (N : Annotation K) (l : L) : Prop :=
  (∀ d, N.pre l d) ∧ ∀ ch, ¬ N.owes l ch

/-- The annotation does not see the change of the data. -/
structure Annotation.Unseen (N : Annotation K) (d d' : D) : Prop where
  inv : N.inv d → N.inv d'
  cond : ∀ ch, N.cond ch d' → N.cond ch d
  pre : ∀ l, N.pre l d → N.pre l d'

/-- An instruction that the annotation has nothing to do with. -/
def Annotation.Ignores (N : Annotation K) : Instr Lk Ch D X L → Prop
  | .acquire _ next => N.Quiet next
  | .release _ next => N.Quiet next
  | .sleep ch k next => k = N.lock ch ∧ (∀ d, ¬ N.cond ch d) ∧ N.Quiet next
  | .wakeup _ next => N.Quiet next
  | .killed next => ∀ b, N.Quiet (next b)
  | .access f => ∀ me x d d' next, f me x d = some (d', next) → N.Quiet next ∧ N.Unseen d d'
  | .ret => True

variable {l : L} {ch : Ch} {q : Nat} {f : Nat → X → D → Option (D × L)} {d : D}
variable {acts : List (κ × Act Ch X L)}

theorem Annotation.Ignores.keeps {N : Annotation K} {i : Instr Lk Ch D X L} (h : N.Ignores i)
    (hl : N.Quiet l) : N.Keeps l i := by
  have howes : ∀ {P : Prop} ch, N.owes l ch → P := fun ch ho => absurd ho (hl.2 ch)
  cases i with
  | acquire | release => exact ⟨fun d _ _ => h.1 d, fun ch => howes ch⟩
  | sleep ch k next => exact ⟨h.1, fun d _ _ => h.2.1 d, fun d _ => h.2.2.1 d, hl.2⟩
  | wakeup ch next => exact ⟨fun d _ _ => h.1 d, fun ch' _ => howes ch'⟩
  | killed next => exact ⟨fun b d _ _ => (h b).1 d, fun ch => howes ch⟩
  | access f =>
    intro me x d d' next hf hd _
    obtain ⟨hq, hu⟩ := h me x d d' next hf
    exact ⟨hu.inv hd, hq.1 d', fun ch hc => Or.inr ⟨hu.cond ch hc, hl.2 ch⟩, fun l' _ => hu.pre l'⟩
  | ret => trivial

/-- A proof that the client loses no wakeup. -/
structure Monitor (K : Client Lk Ch D X L) extends Annotation K where
  owes_held : ∀ l ch, owes l ch → lock ch ∈ K.held l
  entry : ∀ l d, K.entry l = true → inv d → pre l d
  keeps : ∀ l, toAnnotation.Keeps l (K.code l)
  device : ∀ x d, inv d → inv (K.device x d) ∧ (∀ ch, cond ch (K.device x d) → cond ch d) ∧
    ∀ l, K.deviceLock x ∉ K.held l → pre l d → pre l (K.device x d)

/-! ## The invariant -/

/-- What is known while a process is at a point. -/
def Pc.Pre (M : Monitor K) (d : D) : Pc Lk Ch L → Prop
  | .client l => M.pre l d
  | .sleep .acquire (.client ch _ _) => ¬ M.cond ch d
  | .sleep .release (.client ch _ _) => ¬ M.cond ch d
  | .wakeup _ _ (.client next) => M.pre next d
  | .yield _ k => k.Pre M d
  | _ => True

/-- A process at the point will wake process `q` if that sleeps on the channel. -/
def Pc.Owes (M : Monitor K) (ch : Ch) (q : Nat) : Pc Lk Ch L → Prop
  | .client l => M.owes l ch
  | .wakeup (.client ch') i (.client next) =>
    (ch' = ch ∧ i ≤ q ∧ M.lock ch ∈ K.held next) ∨ M.owes next ch
  | _ => False

structure MonInv (M : Monitor K) (s : Sys κ Lk Ch D L) : Prop where
  inv : M.inv s.mem.data
  pre : ∀ q pc, s.At q pc → pc.Pre M s.mem.data
  awake : ∀ q ch, s.Asleep q (.client ch) → M.cond ch s.mem.data →
    ∃ e r pc, (s.cpu e).code = .thread r pc ∧ pc.Owes M ch q

/-- A process that owes a wakeup holds the lock of the channel. -/
theorem Pc.Owes.lock_mem {M : Monitor K} (h : pc.Owes M ch q) :
    .client (M.lock ch) ∈ pc.locks K := by
  cases pc with
  | client l => exact mem_map_of_mem (M.owes_held l ch h)
  | wakeup ch' i k =>
    cases ch' with
    | client ch' =>
      cases k with
      | client next =>
        rcases h with ⟨_, _, hk⟩ | hk
        · exact mem_map_of_mem hk
        · exact mem_map_of_mem (M.owes_held next ch hk)
      | _ => exact h.elim
    | proc r => exact h.elim
  | _ => exact h.elim

/-! ### Steps of a thread -/

variable [DecidableEq Ch]

omit [DecidableEq Lk] in
theorem Mem.data_wake (m : Mem κ Lk Ch D L) (ch : Chan Ch) (q : Nat) :
    (m.wake ch q).data = m.data := by
  unfold Mem.wake
  split <;> rfl

variable [DecidableEq κ]

/-- Only an access changes the data. -/
theorem threadStep_data (h : threadStep K n c p a m pc = some (m', .go pc')) :
    (m'.data = m.data ∧ ∀ l f, pc = .client l → K.code l ≠ .access f) ∨ ∃ l f x d next, pc = .client l ∧ K.code l = .access f ∧
      f p x m.data = some (d, next) ∧ m' = { m with data := d } ∧ pc' = .client next := by
  cases threadStep_eff h with
  | user heff | sleep _ _ heff | yield _ _ heff | kill _ _ heff | fork _ heff | exit _ heff
  | wait _ heff => cases heff <;> exact Or.inl ⟨rfl, nofun⟩
  | client l heff =>
    cases heff with
    | access f x d next hcode hf => exact Or.inr ⟨l, f, x, d, next, rfl, hcode, hf, rfl, rfl⟩
    | _ => exact Or.inl ⟨rfl, by rintro _ _ ⟨⟩; simp_all⟩
  | forkret hlock => exact Or.inl ⟨rfl, nofun⟩
  | wakeup ch i k heff =>
    cases heff with
    | wake hi hfree => exact Or.inl ⟨m.data_wake ch i, nofun⟩
    | _ => exact Or.inl ⟨rfl, nofun⟩

/-- A step is an interrupt handler, or a step of the thread that the CPU executes, or changes no
    data. -/
theorem step_data (h : step K n s c a = some t) :
    (∃ x, a = .device x ∧ t.mem.data = K.device x s.mem.data) ∨
    (∃ p pc m pc', (s.cpu c).code = .thread p pc ∧
      threadStep K n c p a s.mem pc = some (m, .go pc') ∧ t = s.go c p pc' m) ∨
    t.mem.data = s.mem.data := by
  cases a with
  | device x =>
    obtain ⟨_, ⟨⟩⟩ := Option.ite_none_right_eq_some.mp h
    exact Or.inl ⟨x, rfl, rfl⟩
  | deviceWakeup ch q =>
    obtain ⟨_, ⟨⟩⟩ := Option.ite_none_right_eq_some.mp h
    exact Or.inr (Or.inr (s.mem.data_wake _ q))
  | timer =>
    simp only [step] at h
    split at h
    · split at h
      · cases h
        exact Or.inr (Or.inr rfl)
      · cases h
    · cases h
  | _ =>
    simp only [step] at h
    split at h
    · unfold schedulerScan at h
      grind [Mem.setProc, Mem.lockProc]
    · unfold schedulerBack at h
      grind [Mem.setProc, Mem.unlockProc]
    · rename_i p pc hc
      split at h
      · rename_i m pc' hstep
        exact Or.inr (Or.inl ⟨p, pc, m, pc', hc, hstep, (Option.some.inj h).symm⟩)
      · rename_i m saved hstep
        refine Or.inr (Or.inr ?_)
        rw [← Option.some.inj h, (threadStep_swtch hstep).1]
        rfl
      · cases h

/-- A thread at an access makes it with its input. -/
theorem access_step {x : X} (hcode : (s.cpu c).code = .thread p (.client l))
    (hl : K.code l = .access f) (h : step K n s c (.input x) = some t) :
    ∃ d next, f p x s.mem.data = some (d, next) ∧
      t = s.go c p (.client next) { s.mem with data := d } := by
  simp only [step, hcode, threadStep, clientStep, hl] at h
  cases hf : f p x s.mem.data with
  | none =>
    rw [hf] at h
    cases h
  | some r =>
    rw [hf] at h
    exact ⟨r.1, r.2, rfl, (Option.some.inj h).symm⟩

section thread

variable (M : Monitor K)

/-- What is known at the next point. -/
theorem threadStep_pre (hwf : pc.Wf K p) (hd : M.inv d) (hpre : pc.Pre M d) (hdata : m.data = d)
    (hdata' : m'.data = d) (h : threadStep K n c p a m pc = some (m', .go pc')) : pc'.Pre M d := by
  cases threadStep_eff h with
  | user heff =>
    cases heff with
    | enter l hl => exact M.entry l d hl hd
    | _ => trivial
  | client l heff =>
    have hk := M.keeps l
    cases heff with
    | acquire _ _ hcode | release _ _ hcode | wakeup _ _ hcode =>
      rw [hcode] at hk
      exact hk.1 d hd hpre
    | sleep ch k next hcode =>
      rw [hcode] at hk
      exact hk.2.1 d hd hpre
    | killed next hcode =>
      rw [hcode] at hk
      exact hk.1 _ d hd hpre
    | access f x d' next hcode hf =>
      rw [hcode] at hk
      cases hdata'
      rw [hdata] at hf
      exact (hk p x _ _ next hf hd hpre).pre
    | ret => trivial
  | forkret hlock => trivial
  | sleep pt w heff =>
    cases heff with
    | acquire hfree => cases w <;> exact hpre
    | reacquire hfree =>
      cases w with
      | client ch k next =>
        obtain ⟨l, hcode⟩ := hwf
        have hk := M.keeps l
        rw [hcode] at hk
        exact hk.2.2.1 d hd
      | kwait addr => trivial
    | _ => trivial
  | wakeup ch i k heff => cases heff <;> cases k <;> exact hpre
  | yield pt k heff => cases heff <;> exact hpre
  | kill _ _ heff | fork _ heff | exit _ heff | wait _ heff => cases heff <;> trivial

/-- A wakeup that is owed to a process that still sleeps after the step is owed after it. -/
theorem threadStep_owes (hI : Inv K s) (hR : Range n t) (hG : GuardInv M.guard s)
    (hcode : (s.cpu c).code = .thread p pc) (h : threadStep K n c p a s.mem pc = some (m', .go pc'))
    (ht : t.mem = m') (hmv : s.Moved t p pc pc')
    (hacc : ∀ l f, pc = .client l → K.code l ≠ .access f) (howes : pc.Owes M ch q)
    (hq : t.Asleep q (.client ch)) : pc'.Owes M ch q := by
  cases threadStep_eff h with
  | client l heff =>
    have hk := M.keeps l
    have hok := K.ok l
    cases heff with
    | acquire _ _ hl | release _ _ hl =>
      rw [hl] at hk
      exact hk.2 ch howes
    | sleep ch' k next hl =>
      rw [hl] at hk
      exact absurd howes (hk.2.2.2 ch)
    | wakeup ch' next hl =>
      rw [hl] at hk hok
      by_cases hch : ch = ch'
      · subst hch
        refine Or.inl ⟨rfl, Nat.zero_le q, ?_⟩
        rw [show K.held next = K.held l from hok]
        exact M.owes_held l ch howes
      · exact Or.inr (hk.2 ch hch howes)
    | killed next hl =>
      rw [hl] at hk
      cases hkd : (s.mem.proc p).killed with
      | false => exact (hk.2 ch howes).1
      | true =>
        rcases (hk.2 ch howes).2 with ho | hg
        · exact ho
        · have hfalse := hG.guard p _ (Or.inl ⟨c, hcode⟩) hg
          rw [hkd] at hfalse
          cases hfalse
    | access f x d next hl hf => exact absurd hl (hacc l f rfl)
    | ret hl =>
      have hheld := M.owes_held l ch howes
      rw [hl] at hok
      rw [show K.held l = [] from hok] at hheld
      cases hheld
  | wakeup ch' i k heff =>
    cases ch' with
    | proc r => exact howes.elim
    | client ch' =>
      cases k with
      | client next =>
        rcases howes with ⟨rfl, hi, hk⟩ | ho
        · -- the scan is at process `i`, and `q` is not behind it
          cases heff with
          | done hn =>
            have hlt := hR.of_asleep hq
            omega
          | self hp =>
            by_cases hqi : q = i
            · obtain ⟨x, hx, hsl⟩ := hq
              rw [hmv.self x (hp ▸ hqi ▸ hx)] at hsl
              exact hsl.elim
            · exact Or.inl ⟨rfl, by omega, hk⟩
          | wake hne hfree =>
            by_cases hqi : q = i
            · subst hqi
              refine absurd hq (not_asleep_of_wake hI hfree ht ?_)
              intro pt w hx
              rcases hmv.other q _ hne hx with hx | ⟨hx, _⟩
              · exact hx
              · cases hx
            · exact Or.inl ⟨rfl, by omega, hk⟩
        · cases heff with
          | done hn => exact ho
          | self | wake => exact Or.inr ho
      | _ => exact howes.elim
  | _ => exact howes.elim

/-- A process that sleeps after a step sleeps before it, or the condition is false. -/
theorem asleep_of_step (hI : Inv K s) (hM : MonInv M s) (heff : StepEff K n s c t)
    (hq : t.Asleep q (.client ch)) : s.Asleep q (.client ch) ∨ ¬ M.cond ch s.mem.data := by
  rcases heff.asleep hI hq with hs | ⟨w, hcode, hw⟩
  · exact Or.inl hs
  · cases w with
    | client ch' k next =>
      cases hw
      exact Or.inr (hM.pre q _ (Or.inl ⟨c, hcode⟩))
    | kwait addr => cases hw

end thread

/-! ### Steps of the system -/

section step

variable {M : Monitor K} (hM : MonInv M s) (hI : Inv K s) (heff : StepEff K n s c t)

include hM hI heff

theorem MonInv.pre_step (hdata : t.mem.data = s.mem.data) {x : Pc Lk Ch L} (hx : t.At q x) :
    x.Pre M t.mem.data := by
  rw [hdata]
  cases heff.move hI hx with
  | stay hat => exact hM.pre q x hat
  | fresh hx hs =>
    rw [hx]
    trivial
  | swtch pc hcode heff ht =>
    have hpre := hM.pre q pc (Or.inl ⟨c, hcode⟩)
    cases heff with
    | sleep | exit => trivial
    | yield k => exact hpre
  | timer pc hcode hnoff hx ht =>
    rw [hx]
    exact hM.pre q pc (Or.inl ⟨c, hcode⟩)
  | go pc a m hcode hstep ht =>
    have hat : s.At q pc := Or.inl ⟨c, hcode⟩
    refine threadStep_pre M (hI.wf q pc hat) hM.inv (hM.pre q pc hat) rfl ?_ hstep
    rw [← hdata, ht]
    rfl

/-- A step that changes no data and after which the wakeups that CPU `c` owed are still owed. -/
theorem MonInv.of_owes (hdata : t.mem.data = s.mem.data)
    (howes : ∀ r pc ch q, (s.cpu c).code = .thread r pc → pc.Owes M ch q → t.Asleep q (.client ch) →
      ∃ r pc, (t.cpu c).code = .thread r pc ∧ pc.Owes M ch q) : MonInv M t := by
  refine ⟨hdata ▸ hM.inv, fun q x => hM.pre_step hI heff hdata, ?_⟩
  intro q ch hq hcond
  rw [hdata] at hcond
  rcases asleep_of_step M hI hM heff hq with hs | hno
  · obtain ⟨e, r, pc, hcode, ho⟩ := hM.awake q ch hs hcond
    by_cases he : e = c
    · subst he
      exact ⟨e, howes r pc ch q hcode ho hq⟩
    · exact ⟨e, r, pc, heff.cpu_ne he ▸ hcode, ho⟩
  · exact absurd hcond hno

end step

variable {M : Monitor K}

omit [DecidableEq Ch] in
theorem Pc.Pre.of_data {d' : D} {x : Pc Lk Ch L} (hwf : x.Wf K p) (hx : x.Pre M d)
    (hcond : ∀ ch, .client (M.lock ch) ∈ x.locks K → M.cond ch d' → M.cond ch d)
    (hpre : ∀ l, (∀ k ∈ K.held l, .client k ∈ x.locks K) → M.pre l d → M.pre l d') :
    x.Pre M d' := by
  cases x with
  | client l => exact hpre l (fun k hk => mem_map_of_mem hk) hx
  | sleep pt w =>
    cases w with
    | client ch k next =>
      obtain ⟨l, hcode⟩ := hwf
      have hk := M.keeps l
      rw [hcode] at hk
      cases pt with
      | acquire | release => exact fun hc => hx (hcond ch (by rw [← hk.1]; exact mem_cons_self) hc)
      | _ => trivial
    | kwait addr => cases pt <;> trivial
  | wakeup ch i k =>
    cases k with
    | client next => exact hpre next (fun k hk => mem_map_of_mem hk) hx
    | _ => trivial
  | yield pt k =>
    -- the interrupted point holds no lock
    obtain ⟨_, hp, hl⟩ := hwf
    cases k with
    | client l =>
      refine hpre l ?_ hx
      intro k hk
      exact mem_map_of_mem hk
    | sleep pt w =>
      cases w with
      | client | kwait => cases pt <;> trivial
    | wakeup ch i k =>
      cases k with
      | client next => exact hpre next (fun k hk => mem_map_of_mem hk) hx
      | _ => trivial
    | yield pt k => cases hp
    | _ => trivial
  | _ => trivial

omit [DecidableEq Ch] in
/-- An access moves the thread that makes it. -/
theorem Inv.at_access (hI : Inv K s) (hcode : (s.cpu c).code = .thread p pc) {next : L}
    {x : Pc Lk Ch L} (hx : (s.go c p (.client next) { s.mem with data := d }).At q x) :
    q = p ∧ x = .client next ∨ q ≠ p ∧ s.At q x := by
  have hx := (hI.at_go hcode (.client next) p (fun _ _ _ => rfl) (fun _ _ => rfl)
    (hI.run c p _ hcode).2 q x).mp hx
  by_cases hq : q = p
  · rw [if_pos hq] at hx
    exact Or.inl ⟨hq, hx⟩
  · rw [if_neg hq, if_neg hq] at hx
    exact Or.inr ⟨hq, hx⟩

omit [DecidableEq Ch] in
theorem MonInv.access (hM : MonInv M s) (hI : Inv K s) {x : X} {next : L}
    (hcode : (s.cpu c).code = .thread p (.client l)) (hl : K.code l = .access f)
    (hf : f p x s.mem.data = some (d, next)) :
    MonInv M (s.go c p (.client next) { s.mem with data := d }) := by
  have hk := M.keeps l
  have hok := K.ok l
  rw [hl] at hk hok
  have hP : s.At p (.client l) := Or.inl ⟨c, hcode⟩
  obtain ⟨hinv, hnext, hcond, hframe⟩ := hk p x s.mem.data d next hf hM.inv (hM.pre p _ hP)
  have hheld : K.held next = K.held l := hok p x s.mem.data d next hf
  refine ⟨hinv, ?_, ?_⟩
  · intro q y hy
    rcases hI.at_access hcode hy with ⟨_, rfl⟩ | ⟨hne, hy⟩
    · exact hnext
    · have hdisj := hI.locks_disjoint hcode hy hne
      refine (hM.pre q y hy).of_data (hI.wf q y hy) ?_ ?_
      · intro ch hch hc
        rcases hcond ch hc with ho | ⟨hc, _⟩
        · have hheld' := M.owes_held next ch ho
          rw [hheld] at hheld'
          exact absurd hch (hdisj _ (mem_map_of_mem hheld'))
        · exact hc
      · intro l' hl' hpre
        refine hframe l' ?_ hpre
        intro k hk hk'
        exact hdisj _ (mem_map_of_mem hk) (hl' k hk')
  · intro q ch hq hc
    rcases hcond ch hc with ho | ⟨hc, hno⟩
    · exact ⟨c, p, .client next, by rw [Sys.code_go, if_pos rfl], ho⟩
    · obtain ⟨y, hy, hsl⟩ := hq
      rcases hI.at_access hcode hy with ⟨_, rfl⟩ | ⟨hne, hy⟩
      · exact hsl.elim
      · obtain ⟨e, r, pc, he, ho⟩ := hM.awake q ch ⟨y, hy, hsl⟩ hc
        refine ⟨e, r, pc, ?_, ho⟩
        rw [Sys.code_go, if_neg]
        · exact he
        · rintro rfl
          rw [hcode] at he
          cases he
          exact hno ho

omit [DecidableEq κ] [DecidableEq Ch] in
theorem MonInv.device (hM : MonInv M s) (hI : Inv K s) {x : X}
    (hfree : s.mem.lock (.client (K.deviceLock x)) = none) :
    MonInv M { s with mem := { s.mem with data := K.device x s.mem.data } } := by
  obtain ⟨hinv, hcond, hpre⟩ := M.device x s.mem.data hM.inv
  refine ⟨hinv, ?_, ?_⟩
  · intro q y hy
    refine (hM.pre q y hy).of_data (hI.wf q y hy) (fun ch _ => hcond ch) ?_
    intro l hl
    refine hpre l ?_
    intro hk
    -- the lock of the handler is free, so nobody is at a point that holds it
    rcases hy with ⟨e, he⟩ | hctx
    · have hlock := hI.lock_of he (hl _ hk)
      rw [hfree] at hlock
      cases hlock
    · have hk := hl _ hk
      rw [(hI.saved q y hctx).locks_eq (hI.wf q y (Or.inr hctx))] at hk
      cases hk
  · intro q ch hq hc
    exact hM.awake q ch hq (hcond ch hc)

theorem MonInv.step (hM : MonInv M s) (hI : Inv K s) (hR : Range n t)
    (hG : GuardInv M.guard s) (heff : StepEff K n s c t) : MonInv M t := by
  have heff' := heff
  cases heff with
  | scan _ _ hcode | pick _ pc hcode | back _ hcode =>
    refine hM.of_owes hI heff' rfl ?_
    intro r pc ch q hr
    rw [hcode] at hr
    cases hr
  | go p pc pc' a m hcode hstep =>
    rcases threadStep_data hstep with ⟨hdata, hacc⟩ | ⟨l, f, x, d, next, rfl, hl, hf, rfl, rfl⟩
    · have hmv := hI.moved hcode (hI.stateEff hcode hstep)
      refine hM.of_owes hI heff' hdata ?_
      intro r pc₀ ch q hr ho hq
      rw [hcode] at hr
      cases hr
      refine ⟨p, pc', by rw [Sys.code_go, if_pos rfl], ?_⟩
      exact threadStep_owes M hI hR hG hcode hstep rfl hmv hacc ho hq
    · exact hM.access hI hcode hl hf
  | swtch p pc saved hcode hnoff hsw =>
    refine hM.of_owes hI heff' rfl ?_
    intro r pc ch q hr ho
    rw [hcode] at hr
    cases hr
    cases hsw <;> exact ho.elim
  | timer p pc hcode hnoff =>
    refine hM.of_owes hI heff' rfl ?_
    intro r pc ch q hr ho
    rw [hcode] at hr
    cases hr
    -- interrupts are off while a lock is held
    have hlen := hI.locks.noff c
    rw [hcode] at hlen
    have hpos := length_pos_of_mem ho.lock_mem
    simp only [Code.locks] at hlen
    omega
  | device x hfree => exact hM.device hI hfree
  | wake ch q hfree =>
    refine hM.of_owes hI heff' (s.mem.data_wake _ q) ?_
    intro r pc ch q hr ho _
    exact ⟨r, pc, hr, ho⟩

omit [DecidableEq κ] [DecidableEq Ch] in
theorem MonInv.init (hd : M.inv d) : MonInv M (Sys.init d : Sys κ Lk Ch D L) := by
  refine ⟨hd, ?_, ?_⟩
  · intro q pc hat
    rw [(Sys.at_init d q pc).mp hat |>.2]
    trivial
  · rintro q ch ⟨pc, hat, hs⟩
    rw [(Sys.at_init d q pc).mp hat |>.2] at hs
    exact hs.elim

/-! ## Result -/

/-- The invariant together with what it rests on. -/
structure Monitored (M : Monitor K) (n : Nat) (s : Sys κ Lk Ch D L) : Prop where
  inv : Inv K s
  range : Range n s
  guard : GuardInv M.guard s
  mon : MonInv M s

omit [DecidableEq κ] [DecidableEq Ch] in
theorem Monitored.init (M : Monitor K) (n : Nat) (hd : M.inv d) :
    Monitored M n (Sys.init d : Sys κ Lk Ch D L) :=
  ⟨Inv.init d, Range.init d, GuardInv.init M.guard d, MonInv.init hd⟩

theorem Monitored.step (h : Monitored M n s) (heff : StepEff K n s c t)
    (hspares : M.guard.Spares s t) : Monitored M n t := by
  have hR := h.range.step h.inv heff
  exact ⟨h.inv.step heff, hR, h.guard.step h.inv heff hspares, h.mon.step h.inv hR h.guard heff⟩

theorem monInv_of_run (M : Monitor K) (hd : M.inv d)
    (hG : Meets K n M.guard.Spares (Sys.init d) acts) (hrun : run K n (Sys.init d) acts = some s) :
    Inv K s ∧ MonInv M s := by
  have h := meets_induction
    (fun s c t h heff hspares => h.step heff hspares) (Monitored.init M n hd) hG hrun
  exact ⟨h.inv, h.mon⟩

/-- No process sleeps on a channel whose condition holds while its lock is free. -/
theorem no_sleeper (M : Monitor K) (hd : M.inv d) (hG : Meets K n M.guard.Spares (Sys.init d) acts)
    (hrun : run K n (Sys.init d) acts = some s) (hfree : s.mem.lock (.client (M.lock ch)) = none)
    (hq : s.SleepsOn q (.client ch)) : ¬ M.cond ch s.mem.data := by
  intro hcond
  obtain ⟨hI, hM⟩ := monInv_of_run M hd hG hrun
  obtain ⟨e, r, pc, hcode, ho⟩ := hM.awake q ch (hI.asleep_of_sleepsOn hq) hcond
  have hlock := hI.lock_of hcode ho.lock_mem
  rw [hfree] at hlock
  cases hlock

end Xv6.Sched
