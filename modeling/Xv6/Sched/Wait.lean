/-
  No lost wakeups in `kwait`.

  A process sleeps in `kwait` on its own address.  `kexit` wakes the parent before the process is a
  ZOMBIE, and `reparent` wakes `initproc` after it has given it a child that may be one; both are done
  under `wait_lock`, which `kwait` holds from its scan of the table until it is about to sleep.

  `WaitInv` is the invariant.  `WaitInv.free` is the result: where `wait_lock` is free, a process that
  sleeps in `kwait` has a child and none of its children is a ZOMBIE.
-/
import Xv6.Sched.Asleep

namespace Xv6.Sched

open List

variable {κ Lk Ch D X L : Type}
variable {n : Nat} {c : κ} {p : Nat} {a : Act Ch X L}
variable {m m' : Mem κ Lk Ch D L} {pc pc' : Pc Lk Ch L} {s t : Sys κ Lk Ch D L}

/-! ## The invariant -/

/-- `kwait` has found a child. -/
def Pc.HasKids : Pc Lk Ch L → Prop
  | .wait (.scan _ _ havekids) => havekids = true
  | .wait (.test _ havekids) => havekids = true
  | .sleep .reacquire _ => False
  | .sleep _ (.kwait _) => True
  | _ => False

/-- `kwait` has found that process `q` is not a ZOMBIE child, and still holds `wait_lock`. -/
def Pc.Seen (q : Nat) : Pc Lk Ch L → Prop
  | .wait (.scan _ i _) => q < i
  | .wait (.child _ i) => q < i
  | .wait (.test _ _) => True
  | .sleep .acquire (.kwait _) => True
  | .sleep .release (.kwait _) => True
  | _ => False

/-- `kexit` has woken process `r`, if that is the parent. -/
def Pc.Told (r : Nat) : Pc Lk Ch L → Prop
  | .wakeup _ i (.zombie _) => r < i
  | .exit (.zombie _) => True
  | _ => False

structure WaitInv (s : Sys κ Lk Ch D L) : Prop where
  fresh : ∀ p pc np, s.At p pc → pc.child = some np → pc.linked = none →
    (s.mem.proc np).parent = none
  kids : ∀ p pc, s.At p pc → pc.HasKids → ∃ q, (s.mem.proc q).parent = some p
  seen : ∀ p pc q, s.At p pc → pc.Seen q → (s.mem.proc q).parent = some p →
    (s.mem.proc q).state ≠ .zombie
  target : ∀ p r i status, s.At p (.wakeup (.proc r) i (.zombie status)) →
    (s.mem.proc p).parent = some r
  told : ∀ p pc r, s.At p pc → pc.Told r → (s.mem.proc p).parent = some r → ¬ s.Asleep r (.proc r)
  owed : ∀ p q, s.Asleep p (.proc p) → (s.mem.proc q).parent = some p →
    (s.mem.proc q).state = .zombie →
    ∃ e r i status j, (s.cpu e).code = .thread r (.wakeup (.proc p) i (.reparent status j)) ∧ i ≤ p

/-! ## Steps that change a family -/

/-- What a step does to the parents. -/
inductive LinkEff (p : Nat) (m : Mem κ Lk Ch D L) (pc : Pc Lk Ch L) (m' : Mem κ Lk Ch D L)
    (pc' : Pc Lk Ch L) : Prop
  | same (h : ∀ q, (m'.proc q).parent = (m.proc q).parent)
  | undo (i : Nat) (hpc : pc = .fork (.init i))
      (h : ∀ q, (m'.proc q).parent = if q = i then none else (m.proc q).parent)
  | reap (addr i : Nat) (hpc : pc = .wait (.child addr i)) (hpc' : pc' = .wait .done)
      (h : ∀ q, (m'.proc q).parent = if q = i then none else (m.proc q).parent)
  | link (i : Nat) (hpc : pc = .fork (.parent i))
      (h : ∀ q, (m'.proc q).parent = if q = i then some p else (m.proc q).parent)
  | give (status : Int) (i : Nat) (hr : (m.proc i).parent = some p)
      (hpc : pc = .exit (.reparent status i))
      (hpc' : pc' = .wakeup (.proc initproc) 0 (.reparent status (i + 1)))
      (h : ∀ q, (m'.proc q).parent = if q = i then some initproc else (m.proc q).parent)

variable {i q r : Nat} {status : Int}

theorem Mem.parent_of_update {x : Proc κ Lk Ch L}
    (h : ∀ q, m'.proc q = if q = i then x else m.proc q) (q : Nat) :
    (m'.proc q).parent = if q = i then x.parent else (m.proc q).parent := by
  rw [h q]
  split <;> rfl

variable [DecidableEq κ]

theorem KinEff.link (h : KinEff n c p m pc m' pc') : LinkEff p m pc m' pc' := by
  cases h with
  | quiet hkin => exact .same fun q => (hkin q).parent
  | exit => exact .same fun _ => rfl
  | alloc i =>
    have hproc : ∀ r, (m.allocproc c i).proc r = _ := (Mem.proc_setProc_lockProc m c i · _)
    exact .same (Mem.field_of_update Proc.parent hproc rfl)
  | undo np => exact .undo np rfl (Mem.parent_of_update (Mem.proc_setProc_unlockProc m c np · _))
  | parent np => exact .link np rfl (Mem.parent_of_update (Mem.proc_setProc m np · _))
  | run np =>
    have hproc := (Mem.proc_setProc m np · { m.proc np with state := .runnable })
    exact .same (Mem.field_of_update Proc.parent hproc rfl)
  | reparent status i hr =>
    exact .give status i hr rfl rfl (Mem.parent_of_update (Mem.proc_setProc m i · _))
  | zombie status =>
    have hproc := (Mem.proc_setProc_lockProc m c p ·
      { m.proc p with xstate := status, state := .zombie })
    exact .same (Mem.field_of_update Proc.parent hproc rfl)
  | reap addr i =>
    have hproc : ∀ r, ((m.freeproc i).unlockProc c i).proc r = _ :=
      (Mem.proc_setProc_unlockProc m c i · _)
    exact .reap addr i rfl rfl (Mem.parent_of_update hproc)

variable [DecidableEq Lk] {K : Client Lk Ch D X L}

/-- The parents stay, or one changes by a step of a thread. -/
theorem StepEff.link [DecidableEq Ch] (hI : Inv K s) (heff : StepEff K n s c t) :
    (∀ q, (t.mem.proc q).parent = (s.mem.proc q).parent) ∨
    ∃ p pc pc', (s.cpu c).code = .thread p pc ∧ (t.cpu c).code = .thread p pc' ∧
      LinkEff p s.mem pc t.mem pc' := by
  rcases heff.kin hI with hq | ⟨p, pc, pc', m, rfl, hcode, hmv, hkin⟩
  · exact Or.inl fun q => (hq.kin q).parent
  · exact Or.inr ⟨p, pc, pc', hcode, by rw [Sys.code_go, if_pos rfl], hkin.link⟩

/-- A child is new if `kfork` links it or `reparent` gives it to `initproc`. -/
theorem StepEff.child_of [DecidableEq Ch] (hI : Inv K s) (heff : StepEff K n s c t)
    (h : (t.mem.proc q).parent = some r) :
    (s.mem.proc q).parent = some r ∨ (s.cpu c).code = .thread r (.fork (.parent q)) ∨
      r = initproc ∧ ∃ e status, (s.cpu c).code = .thread e (.exit (.reparent status q)) ∧
        (t.cpu c).code = .thread e (.wakeup (.proc initproc) 0 (.reparent status (q + 1))) := by
  rcases heff.link hI with hsame | ⟨p, pc, pc', hcode, hcode', hlink⟩
  · exact Or.inl (hsame q ▸ h)
  cases hlink with
  | same hsame => exact Or.inl (hsame q ▸ h)
  | undo i hpc hp | reap addr i hpc hpc' hp | link i hpc hp | give status i hr hpc hpc' hp => grind

/-- A child is lost if its parent gives it away or reaps it. -/
theorem StepEff.child_keep [DecidableEq Ch] (hI : Inv K s) (hF : Family n s) (hW : WaitInv s)
    (heff : StepEff K n s c t) (h : (s.mem.proc q).parent = some r) :
    (t.mem.proc q).parent = some r ∨
      (∃ status, (s.cpu c).code = .thread r (.exit (.reparent status q))) ∨
      ∃ addr, (s.cpu c).code = .thread r (.wait (.child addr q)) ∧
        (t.cpu c).code = .thread r (.wait .done) := by
  rcases heff.link hI with hsame | ⟨p, pc, pc', hcode, hcode', hlink⟩
  · exact Or.inl (hsame q ▸ h)
  have hat : s.At p pc := Or.inl ⟨c, hcode⟩
  cases hlink with
  | same hsame => exact Or.inl (hsame q ▸ h)
  | undo i hpc hp | link i hpc hp =>
    subst hpc
    have hnone := hW.fresh p _ i hat rfl rfl
    grind
  | reap addr i hpc hpc' hp =>
    subst hpc
    have hr := hF.reaping p _ i hat rfl
    grind
  | give status i hr hpc hpc' hp => grind

omit [DecidableEq κ] [DecidableEq Lk] in
theorem Mem.Kin.zombie (h : m.Kin m' q) (hq : (m'.proc q).state = .zombie) :
    (m.proc q).state = .zombie := by
  rcases h.state with hs | ⟨hlive, _⟩
  · exact hs ▸ hq
  · rw [hq] at hlive
    cases hlive

theorem StepEff.zombie_of [DecidableEq Ch] (hI : Inv K s) (heff : StepEff K n s c t)
    (h : (t.mem.proc q).state = .zombie) :
    (s.mem.proc q).state = .zombie ∨
      ∃ status, (s.cpu c).code = .thread q (.exit (.zombie status)) := by
  rcases heff.changed hI with hkin | ⟨i, x, hproc, hx⟩
  · exact Or.inl ((hkin q).zombie h)
  · cases hx <;> grind

/-- A process has a new ZOMBIE child only by a step that holds `wait_lock`. -/
theorem StepEff.zombie_child [DecidableEq Ch] (hI : Inv K s) (heff : StepEff K n s c t)
    (hr : (t.mem.proc q).parent = some r) (hz : (t.mem.proc q).state = .zombie) :
    (s.mem.proc q).parent = some r ∧ (s.mem.proc q).state = .zombie ∨
      (s.mem.proc q).parent = some r ∧
        (∃ status, (s.cpu c).code = .thread q (.exit (.zombie status))) ∨
      r = initproc ∧ ∃ e status, (s.cpu c).code = .thread e (.exit (.reparent status q)) ∧
        (t.cpu c).code = .thread e (.wakeup (.proc initproc) 0 (.reparent status (q + 1))) := by
  rcases heff.child_of hI hr with hr | hcode | hgive
  · rcases heff.zombie_of hI hz with hz | hcode
    · exact Or.inl ⟨hr, hz⟩
    · exact Or.inr (Or.inl ⟨hr, hcode⟩)
  · -- the child that `kfork` links is being set up
    have hused := hI.child r _ q (Or.inl ⟨c, hcode⟩) rfl
    rcases heff.zombie_of hI hz with hz | ⟨status, hcode'⟩
    · rw [hused] at hz
      cases hz
    · rw [hcode] at hcode'
      cases hcode'
  · exact Or.inr (Or.inr hgive)

/-! ## Steps to the points of `kwait` and `kexit` -/

/-- A point that the invariant says nothing about. -/
structure Pc.Plain (pc : Pc Lk Ch L) : Prop where
  kids : ¬ pc.HasKids
  seen : ∀ q, ¬ pc.Seen q
  told : ∀ r, ¬ pc.Told r
  target : ∀ ch i status, pc ≠ .wakeup ch i (.zombie status)

theorem Pc.Seen.lock_mem (h : pc.Seen q) : .wait ∈ pc.locks K := by
  cases pc with
  | wait pt =>
    cases pt with
    | acquire addr => exact h.elim
    | _ => exact mem_cons_self
  | sleep pt w =>
    cases w with
    | client ch k next => cases pt <;> exact h.elim
    | kwait addr =>
      cases pt with
      | acquire | release => exact mem_cons_self
      | _ => exact h.elim
  | _ => exact h.elim

theorem Pc.Told.lock_mem (h : pc.Told r) : .wait ∈ pc.locks K := by
  cases pc with
  | wakeup ch i k =>
    cases k with
    | zombie status => exact mem_cons_self
    | _ => exact h.elim
  | exit pt =>
    cases pt with
    | zombie status => exact mem_cons_self
    | _ => exact h.elim
  | _ => exact h.elim

theorem Pc.plain_of_locks (h : pc.locks K = []) (hp : pc.plocks p = []) : pc.Plain := by
  refine ⟨?_, ?_, ?_, ?_⟩
  · intro hk
    cases pc with
    | wait pt => cases pt <;> first | exact hk.elim | cases h
    | sleep pt w =>
      cases pt with
      | acquire => cases h
      | reacquire => exact hk.elim
      | _ => cases hp
    | _ => exact hk.elim
  · intro q hs
    have hm := hs.lock_mem (K := K)
    rw [h] at hm
    cases hm
  · intro r ht
    have hm := ht.lock_mem (K := K)
    rw [h] at hm
    cases hm
  · rintro ch i status rfl
    cases h

variable [DecidableEq Ch]

/-- Where a point of `kwait`, of its `sleep` or of `kexit` is reached from. -/
theorem threadStep_plain (hwf : pc.Wf K p) (h : threadStep K n c p a m pc = some (m', .go pc')) :
    pc'.Plain ∨
    (∃ pt pt' w, pc = .sleep pt w ∧ pc' = .sleep pt' w ∧
      (pt = .acquire ∧ pt' = .release ∨ pt = .release ∧ pt' = .set ∨ pt = .set ∧ pt' = .sched)) ∨
    (∃ pt, pc = .wait pt ∧ WaitEff n c p m pt m' pc') ∨
    (∃ ch i status, pc = .wakeup ch i (.zombie status) ∧
      WakeupEff n p ch i (.zombie status) m m' pc') ∨
    ∃ pt, pc = .exit pt ∧ ExitEff n c p m pt m' pc' := by
  cases threadStep_eff h with
  | user heff | client _ heff | kill _ _ heff | fork _ heff =>
    cases heff <;> exact Or.inl ⟨nofun, nofun, nofun, nofun⟩
  | forkret hlock => exact Or.inl ⟨nofun, nofun, nofun, nofun⟩
  | sleep pt w heff =>
    cases heff with
    | acquire hfree => exact Or.inr (Or.inl ⟨_, _, w, rfl, rfl, Or.inl ⟨rfl, rfl⟩⟩)
    | release => exact Or.inr (Or.inl ⟨_, _, w, rfl, rfl, Or.inr (Or.inl ⟨rfl, rfl⟩)⟩)
    | set => exact Or.inr (Or.inl ⟨_, _, w, rfl, rfl, Or.inr (Or.inr ⟨rfl, rfl⟩)⟩)
    | back hlock =>
      refine Or.inl ⟨nofun, ?_, nofun, nofun⟩
      cases w <;> exact nofun
    | reacquire hfree =>
      cases w with
      | client ch k next => exact Or.inl ⟨nofun, nofun, nofun, nofun⟩
      | kwait addr =>
        refine Or.inl ⟨nofun, ?_, nofun, nofun⟩
        intro q hq
        exact Nat.not_lt_zero q hq
  | wakeup ch i k heff =>
    cases k with
    | zombie status => exact Or.inr (Or.inr (Or.inr (Or.inl ⟨ch, i, status, rfl, heff⟩)))
    | _ => cases heff <;> exact Or.inl ⟨nofun, nofun, nofun, nofun⟩
  | yield pt k heff =>
    cases heff with
    | set => exact Or.inl ⟨nofun, nofun, nofun, nofun⟩
    | back hlock => exact Or.inl (Pc.plain_of_locks hwf.2.2 hwf.2.1)
  | exit pt heff => exact Or.inr (Or.inr (Or.inr (Or.inr ⟨pt, rfl, heff⟩)))
  | wait pt heff => exact Or.inr (Or.inr (Or.inl ⟨pt, rfl, heff⟩))

theorem threadStep_kids (hwf : pc.Wf K p) (h : threadStep K n c p a m pc = some (m', .go pc'))
    (hk : pc'.HasKids) :
    pc.HasKids ∨ ∃ addr i, pc = .wait (.child addr i) ∧ pc' = .wait (.scan addr (i + 1) true) := by
  rcases threadStep_plain hwf h with hplain | ⟨pt, pt', w, rfl, rfl, hpt⟩ | ⟨pt, rfl, heff⟩ |
      ⟨ch, i, status, rfl, heff⟩ | ⟨pt, rfl, heff⟩
  · exact absurd hk hplain.kids
  · left
    cases w with
    | client ch k next => rcases hpt with ⟨rfl, rfl⟩ | ⟨rfl, rfl⟩ | ⟨rfl, rfl⟩ <;> exact hk.elim
    | kwait addr => rcases hpt with ⟨rfl, rfl⟩ | ⟨rfl, rfl⟩ | ⟨rfl, rfl⟩ <;> trivial
  · cases heff with
    | acquire addr => cases hk
    | scanned | skip => exact Or.inl hk
    | unlock addr i => exact Or.inr ⟨addr, i, rfl, rfl⟩
    | sleep addr => exact Or.inl rfl
    | _ => exact hk.elim
  · cases heff <;> exact hk.elim
  · cases heff <;> exact hk.elim

theorem threadStep_seen (hwf : pc.Wf K p) (h : threadStep K n c p a m pc = some (m', .go pc'))
    (hq : pc'.Seen q) :
    pc.Seen q ∨ (m.proc q).parent ≠ some p ∨ (m.proc q).state ≠ .zombie ∨ n ≤ q := by
  rcases threadStep_plain hwf h with hplain | ⟨pt, pt', w, rfl, rfl, hpt⟩ | ⟨pt, rfl, heff⟩ |
      ⟨ch, i, status, rfl, heff⟩ | ⟨pt, rfl, heff⟩
  · exact absurd hq (hplain.seen q)
  · left
    cases w with
    | client ch k next => rcases hpt with ⟨rfl, rfl⟩ | ⟨rfl, rfl⟩ | ⟨rfl, rfl⟩ <;> exact hq.elim
    | kwait addr =>
      rcases hpt with ⟨rfl, rfl⟩ | ⟨rfl, rfl⟩ | ⟨rfl, rfl⟩
      · trivial
      · exact hq.elim
      · exact hq.elim
  · cases heff with
    | acquire addr => exact absurd hq (Nat.not_lt_zero q)
    | scanned addr i havekids hi =>
      rcases Nat.lt_or_ge q i with hlt | hge
      · exact Or.inl hlt
      · exact Or.inr (Or.inr (Or.inr (Nat.le_trans hi hge)))
    | lock addr i => exact Or.inl hq
    | skip addr i havekids hi hr =>
      rcases Nat.lt_succ_iff_lt_or_eq.mp hq with hlt | rfl
      · exact Or.inl hlt
      · exact Or.inr (Or.inl hr)
    | unlock addr i hlock hz =>
      rcases Nat.lt_succ_iff_lt_or_eq.mp hq with hlt | rfl
      · exact Or.inl hlt
      · exact Or.inr (Or.inr (Or.inl hz))
    | sleep addr => exact Or.inl trivial
    | _ => exact hq.elim
  · cases heff <;> exact hq.elim
  · cases heff <;> exact hq.elim

theorem threadStep_target (hwf : pc.Wf K p)
    (h : threadStep K n c p a m pc = some (m', .go (.wakeup (.proc r) i (.zombie status)))) :
    (∃ j, pc = .wakeup (.proc r) j (.zombie status)) ∨
      ∃ status j, pc = .exit (.reparent status j) ∧ (m.proc p).parent = some r ∧ m' = m := by
  rcases threadStep_plain hwf h with hplain | ⟨pt, pt', w, _, hpc, _⟩ | ⟨pt, rfl, heff⟩ |
      ⟨ch, j, status, rfl, heff⟩ | ⟨pt, rfl, heff⟩
  · exact absurd rfl (hplain.target _ _ _)
  · cases hpc
  · cases heff
  · cases heff with
    | _ => exact Or.inl ⟨j, rfl⟩
  · cases heff with
    | wakeParent _ j _ hi hr => exact Or.inr ⟨status, j, rfl, hr, rfl⟩

/-! ## The step lemma -/

section step

variable (hW : WaitInv s) (hI : Inv K s) (hF : Family n s) (heff : StepEff K n s c t)

include hI

variable {x : Pc Lk Ch L}

omit [DecidableEq κ] [DecidableEq Ch] in
/-- `wait_lock` has one holder. -/
theorem Inv.wait_holder (hat : s.At p pc) (hpc : .wait ∈ pc.locks K)
    (hcode : (s.cpu c).code = .thread q x) (hx : .wait ∈ x.locks K) : p = q ∧ pc = x := by
  by_cases hq : p = q
  · subst hq
    exact ⟨rfl, hI.at_unique hat (Or.inl ⟨c, hcode⟩)⟩
  · exact absurd hpc (hI.locks_disjoint hcode hat hq .wait hx)

include hW hF heff

/-- A child is kept while its parent is elsewhere. -/
theorem WaitInv.child_keep (hq : (s.mem.proc q).parent = some p) (hat : s.At p pc)
    (h1 : ∀ status, pc ≠ .exit (.reparent status q)) (h2 : ∀ addr, pc ≠ .wait (.child addr q)) :
    (t.mem.proc q).parent = some p := by
  rcases heff.child_keep hI hF hW hq with hq | ⟨status, hcode⟩ | ⟨addr, hcode, _⟩
  · exact hq
  · exact absurd (hI.at_unique hat (Or.inl ⟨c, hcode⟩)) (h1 status)
  · exact absurd (hI.at_unique hat (Or.inl ⟨c, hcode⟩)) (h2 addr)

theorem WaitInv.kids_step (hx : t.At q x) (hk : x.HasKids) :
    ∃ r, (t.mem.proc r).parent = some q := by
  have hold : ∀ pc, s.At q pc → pc.HasKids → ∃ r, (t.mem.proc r).parent = some q := by
    intro pc hat hpc
    obtain ⟨r, hr⟩ := hW.kids q pc hat hpc
    refine ⟨r, hW.child_keep hI hF heff hr hat ?_ ?_⟩
    · rintro status rfl
      exact hpc
    · rintro addr rfl
      exact hpc
  cases heff.move hI hx with
  | stay hat => exact hold x hat hk
  | fresh hx | timer _ _ _ hx =>
    subst hx
    exact hk.elim
  | swtch pc hcode heff ht =>
    refine hold pc (Or.inl ⟨c, hcode⟩) ?_
    cases heff with
    | sleep w => cases w <;> exact hk
    | yield | exit => exact hk.elim
  | go pc a m hcode hstep ht =>
    have hat : s.At q pc := Or.inl ⟨c, hcode⟩
    rcases threadStep_kids (hI.wf q pc hat) hstep hk with hpc | ⟨addr, i, rfl, rfl⟩
    · exact hold pc hat hpc
    · -- the child that it has just looked at
      have hi := hF.reaping q _ i hat rfl
      rcases heff.child_keep hI hF hW hi with hi | ⟨status, hcode'⟩ | ⟨addr', _, hcode'⟩
      · exact ⟨i, hi⟩
      · rw [hcode] at hcode'
        cases hcode'
      · rw [ht, Sys.code_go, if_pos rfl] at hcode'
        cases hcode'

theorem WaitInv.seen_step (hx : t.At q x) (hs : x.Seen r) (hr : (t.mem.proc r).parent = some q) :
    (t.mem.proc r).state ≠ .zombie := by
  intro hz
  cases heff.move hI hx with
  | stay hat =>
    rcases heff.zombie_child hI hr hz with ⟨hr, hz⟩ | ⟨_, status, hcode⟩ | ⟨_, e, status, hcode, _⟩
    · exact hW.seen q x r hat hs hr hz
    · obtain ⟨_, rfl⟩ := hI.wait_holder hat hs.lock_mem hcode mem_cons_self
      exact hs
    · obtain ⟨_, rfl⟩ := hI.wait_holder hat hs.lock_mem hcode mem_cons_self
      exact hs
  | fresh hx | timer _ _ _ hx =>
    subst hx
    exact hs
  | swtch pc hcode heff ht =>
    cases heff with
    | sleep w => cases w <;> exact hs
    | yield | exit => exact hs
  | go pc a m hcode hstep ht =>
    have hat : s.At q pc := Or.inl ⟨c, hcode⟩
    rcases heff.zombie_child hI hr hz with ⟨hr, hz⟩ | ⟨hr, status, hcode'⟩ |
        ⟨_, e, status, _, hcode'⟩
    · rcases threadStep_seen (hI.wf q pc hat) hstep hs with hpc | hne | hne | hn
      · exact hW.seen q pc r hat hpc hr hz
      · exact hne hr
      · exact hne hz
      · rw [hF.range r hn] at hr
        cases hr
    · -- `reparent` has left no children
      rw [hcode] at hcode'
      cases hcode'
      exact hF.past q _ q hat trivial hr
    · rw [ht, Sys.code_go, if_pos rfl] at hcode'
      cases hcode'
      exact hs

theorem WaitInv.fresh_step {np : Nat} (hx : t.At q x) (hc : x.child = some np)
    (hl : x.linked = none) : (t.mem.proc np).parent = none := by
  rcases heff.kin hI with hq | ⟨p, pc, pc', m, rfl, hcode, hmv, hkin⟩
  · rw [(hq.kin np).parent]
    rcases hq.at_ q x hx with ⟨y, hy, hakin⟩ | ⟨rfl, _⟩
    · exact hW.fresh q y np hy (hakin.child ▸ hc) (hakin.linked ▸ hl)
    · cases hc
  rw [Sys.mem_go]
  by_cases hqp : q = p
  · subst hqp
    rw [hmv.self x hx] at hc hl
    cases hkin with
    | quiet hkin htrace hborn hakin =>
      rw [(hkin np).parent]
      exact hW.fresh q pc np hmv.before (hakin.child ▸ hc) (hakin.linked ▸ hl)
    | alloc i hi hu =>
      cases hc
      have hproc : ∀ r, (s.mem.allocproc c np).proc r = _ :=
        (Mem.proc_setProc_lockProc s.mem c np · _)
      rw [Mem.field_of_update Proc.parent hproc rfl]
      exact hF.unused np hu
    | parent i => cases hl
    | _ => cases hc
  · rcases hmv.other q x hqp hx with hat | ⟨rfl, _⟩
    · have hnone := hW.fresh q x np hat hc hl
      cases hkin.link with
      | same h => exact (h np).trans hnone
      | undo i hpc h | reap addr i hpc hpc' h | give status i hr hpc hpc' h => grind
      | link i hpc h =>
        have huniq := fun hi => hI.childUniq q p x _ np hat hmv.before hc hi
        grind [Pc.child]
    · cases hc

theorem WaitInv.target_step (hx : t.At q (.wakeup (.proc r) i (.zombie status))) :
    (t.mem.proc q).parent = some r := by
  have hold : ∀ j, s.At q (.wakeup (.proc r) j (.zombie status)) →
      (t.mem.proc q).parent = some r := by
    intro j hat
    -- nobody else holds `wait_lock`
    rcases heff.child_keep hI hF hW (hW.target q r j status hat) with hr | ⟨status, hcode⟩ |
        ⟨addr, hcode, _⟩
    · exact hr
    · cases (hI.wait_holder hat mem_cons_self hcode mem_cons_self).2
    · cases (hI.wait_holder hat mem_cons_self hcode mem_cons_self).2
  cases heff.move hI hx with
  | stay hat => exact hold i hat
  | fresh hx | timer _ _ _ hx => cases hx
  | swtch pc hcode heff ht => cases heff
  | go pc a m hcode hstep ht =>
    have hat : s.At q pc := Or.inl ⟨c, hcode⟩
    rcases threadStep_target (hI.wf q pc hat) hstep with ⟨j, rfl⟩ | ⟨status, j, rfl, hr, hm⟩
    · exact hold j hat
    · rw [ht, hm]
      exact hr

omit hF in
/-- A process at a point that `kexit` has told its parent from has told it before, unless it has
    done so by this step. -/
theorem WaitInv.told_go (hR : Range n t) (hcode : (s.cpu c).code = .thread q pc)
    (hstep : threadStep K n c q a s.mem pc = some (m, .go x)) (ht : t = s.go c q x m)
    (hx : x.Told r) (hr : (s.mem.proc q).parent = some r) (hsl : t.Asleep r (.proc r)) :
    pc.Told r := by
  have hat : s.At q pc := Or.inl ⟨c, hcode⟩
  have hxt : t.At q x := Or.inl ⟨c, by rw [ht, Sys.code_go, if_pos rfl]⟩
  rcases threadStep_plain (hI.wf q pc hat) hstep with hplain | ⟨pt, pt', w, rfl, rfl, hpt⟩ |
      ⟨pt, rfl, heff⟩ | ⟨ch, i, status, rfl, hwake⟩ | ⟨pt, rfl, heff⟩
  · exact absurd hx (hplain.told r)
  · exact hx.elim
  · cases heff <;> exact hx.elim
  · obtain ⟨r', rfl⟩ := hI.wf q _ hat
    have htarget := hW.target q r' i status hat
    rw [hr] at htarget
    cases htarget
    cases hwake with
    | done hn => exact Nat.lt_of_lt_of_le (hR.of_asleep hsl) hn
    | self hp =>
      subst hp
      rcases Nat.lt_succ_iff_lt_or_eq.mp hx with hlt | rfl
      · exact hlt
      · exact absurd hsl (not_asleep_of_at hI heff hxt nofun)
    | wake hne hfree =>
      rcases Nat.lt_succ_iff_lt_or_eq.mp hx with hlt | rfl
      · exact hlt
      · refine absurd hsl (not_asleep_of_wake hI hfree (by rw [ht]; rfl) ?_)
        intro pt w hw
        exact (heff.at_other hI hcode hw hne).resolve_right nofun
  · cases heff with
    | wakeParent status i r' => exact absurd hx (Nat.not_lt_zero r)
    | orphan status i hi hnone =>
      rw [hnone] at hr
      cases hr
    | _ => exact hx.elim

omit hF in
theorem WaitInv.told_step (hR : Range n t) (hx : t.At q x) (ht : x.Told r)
    (hr : (t.mem.proc q).parent = some r) : ¬ t.Asleep r (.proc r) := by
  intro hsl
  -- before the step `r` was the parent and slept
  have hold : ∀ y, s.At q y → y.Told r → (s.mem.proc q).parent = some r → False := by
    intro y hat hy hr
    rcases heff.asleep hI hsl with hsl | ⟨w, hcode, hw⟩
    · exact hW.told q y r hat hy hr hsl
    · cases w with
      | client ch k next => cases hw
      | kwait addr =>
        obtain ⟨_, rfl⟩ := hI.wait_holder hat hy.lock_mem hcode mem_cons_self
        exact hy
  have hfork : (s.cpu c).code ≠ .thread r (.fork (.parent q)) := by
    intro hcode
    rcases heff.asleep hI hsl with ⟨y, hy, hys⟩ | ⟨w, hcode', _⟩
    · rw [hI.at_unique hy (Or.inl ⟨c, hcode⟩)] at hys
      exact hys
    · rw [hcode] at hcode'
      cases hcode'
  cases heff.move hI hx with
  | stay hat =>
    rcases heff.child_of hI hr with hr | hcode | ⟨_, e, status, hcode, _⟩
    · exact hold x hat ht hr
    · exact hfork hcode
    · obtain ⟨_, rfl⟩ := hI.wait_holder hat ht.lock_mem hcode mem_cons_self
      exact ht
  | fresh hx | timer _ _ _ hx =>
    subst hx
    exact ht
  | swtch pc hcode heff _ => cases heff <;> exact ht
  | go pc a m hcode hstep hgo =>
    rcases heff.child_of hI hr with hr | hcode' | ⟨_, e, status, _, hcode'⟩
    · exact hold pc (Or.inl ⟨c, hcode⟩) (hW.told_go hI heff hR hcode hstep hgo ht hr hsl) hr
    · exact hfork hcode'
    · rw [hgo, Sys.code_go, if_pos rfl] at hcode'
      cases hcode'
      exact ht

omit hW hF in
/-- A wakeup that `reparent` owes to `initproc` is owed after the step. -/
theorem WaitInv.owed_go (hR : Range n t) {u j : Nat}
    (hcode : (s.cpu c).code = .thread u (.wakeup (.proc q) i (.reparent status j))) (hi : i ≤ q)
    (hq : t.Asleep q (.proc q)) :
    ∃ i, (t.cpu c).code = .thread u (.wakeup (.proc q) i (.reparent status j)) ∧ i ≤ q := by
  have heff' := heff
  cases heff with
  | scan _ _ hcode' | pick _ _ hcode' | back _ hcode' =>
    rw [hcode] at hcode'
    cases hcode'
  | go p pc pc' a m hcode' hstep =>
    rw [hcode] at hcode'
    cases hcode'
    have hc : ((s.go c u pc' m).cpu c).code = .thread u pc' := by rw [Sys.code_go, if_pos rfl]
    cases threadStep_eff hstep
    rename_i hwake
    cases hwake with
    | done hn =>
      have hlt := hR.of_asleep hq
      omega
    | self hp =>
      subst hp
      refine ⟨i + 1, hc, Nat.lt_of_le_of_ne hi ?_⟩
      rintro rfl
      exact not_asleep_of_at hI heff' (Or.inl ⟨c, hc⟩) nofun hq
    | wake hne hfree =>
      refine ⟨i + 1, hc, Nat.lt_of_le_of_ne hi ?_⟩
      rintro rfl
      refine not_asleep_of_wake hI hfree rfl ?_ hq
      intro pt w hw
      exact (heff'.at_other hI hcode hw hne).resolve_right nofun
  | swtch p pc saved hcode' hnoff heff =>
    rw [hcode] at hcode'
    cases hcode'
    cases heff
  | timer p pc hcode' hnoff =>
    -- interrupts are off while `wait_lock` is held
    have hlen := hI.locks.noff c
    rw [hnoff, hcode] at hlen
    simp [Code.locks, Pc.locks, After.locks] at hlen
  | device | wake => exact ⟨i, hcode, hi⟩

omit hF in
theorem WaitInv.owed_step (hR : Range n t) (hq : t.Asleep q (.proc q))
    (hr : (t.mem.proc r).parent = some q) (hz : (t.mem.proc r).state = .zombie) :
    ∃ e u i status j, (t.cpu e).code = .thread u (.wakeup (.proc q) i (.reparent status j)) ∧
      i ≤ q := by
  rcases heff.zombie_child hI hr hz with ⟨hr, hz⟩ | ⟨hr, status, hcode⟩ | ⟨rfl, e, status, _, hcode⟩
  · rcases heff.asleep hI hq with hsl | ⟨w, hcode, hw⟩
    · obtain ⟨e, u, i, status, j, hcode, hi⟩ := hW.owed q r hsl hr hz
      by_cases he : e = c
      · subst he
        obtain ⟨i, hcode, hi⟩ := WaitInv.owed_go hI heff hR hcode hi hq
        exact ⟨e, u, i, status, j, hcode, hi⟩
      · exact ⟨e, u, i, status, j, heff.cpu_ne he ▸ hcode, hi⟩
    · -- it has just given up `wait_lock`
      cases w with
      | client ch k next => cases hw
      | kwait addr => exact absurd hz (hW.seen q _ r (Or.inl ⟨c, hcode⟩) trivial hr)
  · -- the parent was told before
    have hat : s.At r (.exit (.zombie status)) := Or.inl ⟨c, hcode⟩
    rcases heff.asleep hI hq with hsl | ⟨w, hcode', _⟩
    · exact absurd hsl (hW.told r _ q hat trivial hr)
    · rw [hcode] at hcode'
      cases hcode'
  · exact ⟨c, e, 0, status, r + 1, hcode, Nat.zero_le _⟩

theorem WaitInv.step (hR : Range n t) : WaitInv t where
  fresh := fun _ _ _ => hW.fresh_step hI hF heff
  kids := fun _ _ => hW.kids_step hI hF heff
  seen := fun _ _ _ => hW.seen_step hI hF heff
  target := fun _ _ _ _ => hW.target_step hI hF heff
  told := fun _ _ _ => hW.told_step hI heff hR
  owed := fun _ _ => hW.owed_step hI heff hR

end step

omit [DecidableEq κ] [DecidableEq Lk] [DecidableEq Ch] in
theorem WaitInv.init (d : D) : WaitInv (Sys.init d : Sys κ Lk Ch D L) := by
  have hpc : ∀ q x, (Sys.init d : Sys κ Lk Ch D L).At q x → x = .forkret :=
    fun q x hx => ((Sys.at_init d q x).mp hx).2
  refine ⟨?_, ?_, ?_, ?_, ?_, ?_⟩
  · intro p pc np hat hc
    rw [hpc p pc hat] at hc
    cases hc
  · intro p pc hat hk
    rw [hpc p pc hat] at hk
    exact hk.elim
  · intro p pc q hat hs
    rw [hpc p pc hat] at hs
    exact hs.elim
  · intro p r i status hat
    cases hpc p _ hat
  · intro p pc r hat ht
    rw [hpc p pc hat] at ht
    exact ht.elim
  · rintro p q ⟨pc, hat, hs⟩
    rw [hpc p pc hat] at hs
    exact hs.elim

/-! ## Result -/

theorem waitInv_of_run {d : D} {acts : List (κ × Act Ch X L)}
    (hrun : run K n (Sys.init d) acts = some s) : Inv K s ∧ WaitInv s := by
  have h := run_induction (P := fun s => Inv K s ∧ Range n s ∧ Family n s ∧ WaitInv s) ?_
    ⟨Inv.init d, Range.init d, Family.init d, WaitInv.init d⟩ hrun
  · exact ⟨h.1, h.2.2.2⟩
  · rintro s c t ⟨hI, hR, hF, hW⟩ heff
    have hR' := hR.step hI heff
    exact ⟨hI.step heff, hR', hF.step hI heff, hW.step hI hF heff hR'⟩

omit [DecidableEq κ] [DecidableEq Ch] in
/-- Where `wait_lock` is free, a process that sleeps in `kwait` has a child, and none of its children
    is a ZOMBIE. -/
theorem WaitInv.free (hW : WaitInv s) (hI : Inv K s) (hfree : s.mem.lock .wait = none)
    (hq : s.SleepsOn q (.proc q)) :
    (∃ r, (s.mem.proc r).parent = some q) ∧
      ∀ r, (s.mem.proc r).parent = some q → (s.mem.proc r).state ≠ .zombie := by
  refine ⟨?_, ?_⟩
  · obtain ⟨w, hw, hat⟩ := hI.of_sleepsOn hq
    cases w with
    | client ch k next => cases hw
    | kwait addr =>
      rcases hat with hat | hat
      · exact hW.kids q _ hat trivial
      · exact hW.kids q _ hat trivial
  · intro r hr hz
    obtain ⟨e, u, i, status, j, hcode, _⟩ := hW.owed q r (hI.asleep_of_sleepsOn hq) hr hz
    have hlock := hI.lock_of hcode mem_cons_self
    rw [hfree] at hlock
    cases hlock

end Xv6.Sched
