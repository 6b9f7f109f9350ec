/-
  Parents.

  `Family` is the invariant of `p->parent`: a parent pointer designates a process that is running,
  runnable or asleep, at every point of `kfork`, `kexit` and `kwait`.  A process in `kexit` has no
  children below the index that `reparent` has reached.

  `KinEff` is what a step of a thread does to the family: nothing (`Quiet`, for all steps of the
  system), or one of the eight steps that change a parent, a state or the events.
-/
import Xv6.Sched.Move

namespace Xv6.Sched

variable {κ Lk Ch D X L : Type}
variable {n : Nat} {c : κ} {p : Nat} {a : Act Ch X L}
variable {m m' : Mem κ Lk Ch D L} {pc pc' : Pc Lk Ch L} {s t : Sys κ Lk Ch D L}

/-! ## Where a process is in `kfork`, `kexit` and `kwait` -/

/-- The status of a process that has called `kexit`, given its `xstate`. -/
def Pc.exiting (x : Int) : Pc Lk Ch L → Option Int
  | .wakeup _ _ (.reparent status _) => some status
  | .wakeup _ _ (.zombie status) => some status
  | .yield _ k => k.exiting x
  | .exit (.acquire status) => some status
  | .exit (.reparent status _) => some status
  | .exit (.zombie status) => some status
  | .exit _ => some x
  | _ => none

/-- `reparent` is done with process `q`. -/
@[grind] def Pc.Past (q : Nat) : Pc Lk Ch L → Prop
  | .wakeup _ _ (.reparent _ i) => q < i
  | .wakeup _ _ (.zombie _) => True
  | .yield _ k => k.Past q
  | .exit (.acquire _) => False
  | .exit (.reparent _ i) => q < i
  | .exit _ => True
  | _ => False

/-- The child whose lock `kwait` holds. -/
@[grind] def Pc.reaping : Pc Lk Ch L → Option Nat
  | .yield _ k => k.reaping
  | .wait (.child _ i) => some i
  | _ => none

/-- The child whose parent `kfork` has set and which is not yet runnable. -/
@[grind] def Pc.linked : Pc Lk Ch L → Option Nat
  | .yield _ k => k.linked
  | .fork (.run np) => some np
  | _ => none

/-- The point has moved, and nothing that the invariants look at has happened. -/
structure Pc.Akin (n p : Nat) (m : Mem κ Lk Ch D L) (pc pc' : Pc Lk Ch L) : Prop where
  exiting : ∀ x, pc'.exiting x = pc.exiting x
  past : ∀ q, pc'.Past q → pc.Past q ∨ (m.proc q).parent ≠ some p ∨ n ≤ q
  reaping : ∀ q, pc'.reaping = some q → pc.reaping = some q ∨ (m.proc q).parent = some p
  linked : pc'.linked = pc.linked
  child : pc'.child = pc.child

def ProcState.live : ProcState → Bool
  | .sleeping => true
  | .runnable => true
  | .running => true
  | _ => false

@[grind →] theorem ProcState.ne_of_live {x : ProcState} (h : x.live = true) :
    x ≠ .unused ∧ x ≠ .used ∧ x ≠ .zombie := by
  cases x <;> simp_all [live]

/-- The same, for the fields of process `q`. -/
structure Mem.Kin (m m' : Mem κ Lk Ch D L) (q : Nat) : Prop where
  parent : (m'.proc q).parent = (m.proc q).parent
  birth : (m'.proc q).birth = (m.proc q).birth
  pid : (m'.proc q).pid = (m.proc q).pid
  xstate : (m'.proc q).xstate = (m.proc q).xstate
  state : (m'.proc q).state = (m.proc q).state ∨
    (m'.proc q).state.live = true ∧ (m.proc q).state.live = true
  killed : (m'.proc q).killed = true → (m.proc q).killed = true ∨ (m'.proc q).state ≠ .sleeping

/-- A step that is none of: the call of `kexit`, the steps of `kfork`, `kexit` and `kwait` that
    change the state of a process or its parent. -/
structure Quiet (n : Nat) (s t : Sys κ Lk Ch D L) : Prop where
  at_ : ∀ q x, t.At q x → (∃ y, s.At q y ∧ y.Akin n q s.mem x) ∨
    x = .forkret ∧ (s.mem.proc q).state = .used
  kin : ∀ q, s.mem.Kin t.mem q
  trace : t.mem.trace = s.mem.trace
  born : t.mem.born = s.mem.born

/-- What a step of process `p` does to the family. -/
inductive KinEff [DecidableEq κ] (n : Nat) (c : κ) (p : Nat) (m : Mem κ Lk Ch D L) :
    Pc Lk Ch L → Mem κ Lk Ch D L → Pc Lk Ch L → Prop
  | quiet {pc pc' : Pc Lk Ch L} {m' : Mem κ Lk Ch D L} (hkin : ∀ q, m.Kin m' q)
      (htrace : m'.trace = m.trace) (hborn : m'.born = m.born) (hpc : pc.Akin n p m pc') :
      KinEff n c p m pc m' pc'
  | exit (status : Int) (hp : p ≠ initproc) :
      KinEff n c p m .user { m with trace := .exit (m.proc p).birth status :: m.trace }
        (.exit (.acquire status))
  | alloc (i : Nat) (hi : i < n) (hu : (m.proc i).state = .unused) :
      KinEff n c p m (.fork (.scan i)) (m.allocproc c i) (.fork (.init i))
  | undo (np : Nat) :
      KinEff n c p m (.fork (.init np)) ((m.freeproc np).unlockProc c np) .user
  | parent (np : Nat) (hfree : m.lock .wait = .none) :
      KinEff n c p m (.fork (.parent np)) (m.setProc np { m.proc np with parent := some p })
        (.fork (.run np))
  | run (np : Nat) :
      KinEff n c p m (.fork (.run np))
        { m.setState np .runnable with
          trace := .fork (m.proc np).birth (m.proc np).pid (m.proc p).birth :: m.trace }
        .user
  | reparent (status : Int) (i : Nat) (hr : (m.proc i).parent = some p) :
      KinEff n c p m (.exit (.reparent status i))
        (m.setProc i { m.proc i with parent := some initproc })
        (.wakeup (.proc initproc) 0 (.reparent status (i + 1)))
  | zombie (status : Int) :
      KinEff n c p m (.exit (.zombie status))
        ((m.setProc p { m.proc p with xstate := status, state := .zombie }).lockProc c p)
        (.exit .release)
  | reap (addr i : Nat) (hz : (m.proc i).state = .zombie) :
      KinEff n c p m (.wait (.child addr i))
        { (m.freeproc i).unlockProc c i with
          trace := .reap (m.proc p).birth (m.proc i).birth (m.proc i).pid addr
            (if addr = 0 then none else some (m.proc i).xstate) :: m.trace }
        (.wait .done)

variable {q i : Nat}

theorem Mem.Kin.of_eq (h : m'.proc q = m.proc q) : m.Kin m' q := by
  constructor <;> rw [h]
  · exact Or.inl rfl
  · exact Or.inl

theorem Mem.Kin.of_proc_eq (h : m'.proc = m.proc) (q : Nat) : m.Kin m' q :=
  .of_eq (congrFun h q)

theorem Mem.Kin.of_update {x : Proc κ Lk Ch L} (h : ∀ r, m'.proc r = if r = q then x else m.proc r)
    (h1 : x.parent = (m.proc q).parent) (h2 : x.birth = (m.proc q).birth)
    (h3 : x.pid = (m.proc q).pid) (h4 : x.xstate = (m.proc q).xstate)
    (h5 : x.state = (m.proc q).state ∨ x.state.live = true ∧ (m.proc q).state.live = true)
    (h6 : x.killed = true → (m.proc q).killed = true ∨ x.state ≠ .sleeping) (r : Nat) :
    m.Kin m' r := by
  by_cases hr : r = q
  · subst hr
    have hx := h r
    rw [if_pos rfl] at hx
    rw [← hx] at h1 h2 h3 h4 h5 h6
    exact ⟨h1, h2, h3, h4, h5, h6⟩
  · exact .of_eq ((h r).trans (if_neg hr))

/-- What the invariants see of a point. -/
def Pc.seen (pc : Pc Lk Ch L) :
    (Int → Option Int) × (Nat → Prop) × Option Nat × Option Nat × Option Nat :=
  (fun x => pc.exiting x, fun q => pc.Past q, pc.reaping, pc.linked, pc.child)

theorem Pc.Akin.of_eq (h : pc'.seen = pc.seen) : pc.Akin n p m pc' := by
  simp only [seen, Prod.mk.injEq, funext_iff] at h
  obtain ⟨h1, h2, h3, h4, h5⟩ := h
  exact ⟨h1, fun q hq => Or.inl (h2 q ▸ hq), fun _ hq => Or.inl (h3 ▸ hq), h4, h5⟩

/-- Neither point is one that the invariants look at. -/
theorem Pc.Akin.of_none (h1 : ∀ x, pc.exiting x = none) (h2 : ∀ x, pc'.exiting x = none)
    (h3 : ∀ q, ¬ pc'.Past q) (h4 : pc'.reaping = none) (h5 : pc'.linked = pc.linked)
    (h6 : pc'.child = pc.child) : pc.Akin n p m pc' :=
  ⟨fun x => (h2 x).trans (h1 x).symm, fun q hq => absurd hq (h3 q), by simp [h4], h5, h6⟩

theorem KinEff.same [DecidableEq κ] (h : m'.proc = m.proc) (htrace : m'.trace = m.trace) (hborn : m'.born = m.born)
    (hpc : pc.Akin n p m pc') : KinEff n c p m pc m' pc' :=
  .quiet (Mem.Kin.of_proc_eq h) htrace hborn hpc

theorem Mem.wake_kin [DecidableEq Ch] (m : Mem κ Lk Ch D L) (ch : Chan Ch) (q : Nat) :
    (∀ r, m.Kin (m.wake ch q) r) ∧ (m.wake ch q).trace = m.trace ∧ (m.wake ch q).born = m.born := by
  refine ⟨Mem.Kin.of_update (m.proc_wake ch q) rfl rfl rfl rfl ?_ Or.inl, ?_, ?_⟩
  · by_cases hs : (m.proc q).state = .sleeping ∧ (m.proc q).chan = some ch
    · simp [hs, ProcState.live]
    · simp [hs]
  · unfold Mem.wake
    split <;> rfl
  · unfold Mem.wake
    split <;> rfl

variable [DecidableEq Lk] {K : Client Lk Ch D X L}

theorem UserEff.kinEff [DecidableEq κ] (hrun : (m.proc p).state = .running) (h : UserEff K p m m' pc') :
    KinEff n c p m .user m' pc' := by
  cases h with
  | exit status hp => exact .exit status hp
  | fault hfree =>
    refine .quiet (Mem.Kin.of_update (Mem.proc_setProc m p · _) rfl rfl rfl rfl (Or.inl rfl) ?_) rfl
      rfl (.of_eq rfl)
    intro _
    exact Or.inr (by simp [hrun])
  | _ => exact .same rfl rfl rfl (.of_eq rfl)

theorem ClientEff.kinEff [DecidableEq κ] {l : L} (h : ClientEff K c p l m m' pc') :
    KinEff n c p m (.client l) m' pc' := by
  cases h with
  | _ => exact .same rfl rfl rfl (.of_eq rfl)

theorem SleepEff.kinEff [DecidableEq κ] {pt : SleepPt} {w : Wait Lk Ch L}
    (hrun : (m.proc p).state = (Pc.sleep pt w).state) (h : SleepEff c p w m pt m' pc') :
    KinEff n c p m (.sleep pt w) m' pc' := by
  have hnone : ∀ pt', (Pc.sleep pt w).Akin n p m (.sleep pt' w) :=
    fun _ => .of_eq rfl
  cases h with
  | acquire hfree =>
    exact .quiet (Mem.Kin.of_update (Mem.proc_lockProc m c p) rfl rfl rfl rfl (Or.inl rfl) Or.inl) rfl rfl
      (hnone _)
  | release => exact .same rfl rfl rfl (hnone _)
  | set =>
    refine .quiet (Mem.Kin.of_update (Mem.proc_setProc m p · _) rfl rfl rfl rfl ?_ Or.inl) rfl rfl (hnone _)
    rw [hrun]
    exact Or.inr ⟨rfl, rfl⟩
  | back hlock =>
    exact .quiet (Mem.Kin.of_update (Mem.proc_setProc_unlockProc m c p · _) rfl rfl rfl rfl
      (Or.inl rfl) Or.inl) rfl rfl (hnone _)
  | reacquire hfree =>
    refine .same rfl rfl rfl ?_
    cases w <;> exact .of_eq rfl

omit [DecidableEq Lk] in
theorem WakeupEff.kinEff [DecidableEq κ] [DecidableEq Ch] {ch : Chan Ch} {k : After L} (h : WakeupEff n p ch i k m m' pc') :
    KinEff n c p m (.wakeup ch i k) m' pc' := by
  have hnext : (Pc.wakeup ch i k : Pc Lk Ch L).Akin n p m (.wakeup ch (i + 1) k) := by
    cases k <;> exact .of_eq rfl
  cases h with
  | done hi =>
    refine .same rfl rfl rfl ?_
    cases k <;> exact .of_eq rfl
  | self hi => exact .same rfl rfl rfl hnext
  | wake hi hfree =>
    obtain ⟨hkin, htrace, hborn⟩ := m.wake_kin ch i
    exact .quiet hkin htrace hborn hnext

omit [DecidableEq Lk] in
theorem YieldEff.kinEff [DecidableEq κ] {pt : YieldPt} {k : Pc Lk Ch L}
    (hrun : (m.proc p).state = (Pc.yield pt k).state) (h : YieldEff c p k m pt m' pc') :
    KinEff n c p m (.yield pt k) m' pc' := by
  cases h with
  | set =>
    refine .quiet (Mem.Kin.of_update (Mem.proc_setProc m p · _) rfl rfl rfl rfl ?_ Or.inl) rfl rfl
      (.of_eq rfl)
    rw [hrun]
    exact Or.inr ⟨rfl, rfl⟩
  | back hlock =>
    exact .quiet (Mem.Kin.of_update (Mem.proc_unlockProc m c p) rfl rfl rfl rfl (Or.inl rfl) Or.inl) rfl
      rfl (.of_eq rfl)

omit [DecidableEq Lk] in
theorem KillEff.kinEff [DecidableEq κ] {pid : BitVec 32} (h : KillEff pid i m m' pc') :
    KinEff n c p m (.kill pid i) m' pc' := by
  cases h with
  | kill hfree =>
    refine .quiet (Mem.Kin.of_update (Mem.proc_setProc m i · _) rfl rfl rfl rfl ?_ ?_) rfl rfl
      (.of_eq rfl)
    · by_cases hs : (m.proc i).state = .sleeping
      · simp [hs, ProcState.live]
      · simp [hs]
    · intro _
      refine Or.inr ?_
      by_cases hs : (m.proc i).state = .sleeping
      · simp [hs]
      · simp [hs]
  | _ => exact .same rfl rfl rfl (.of_eq rfl)

omit [DecidableEq Lk] in
theorem ForkEff.kinEff [DecidableEq κ] {pt : ForkPt} (h : ForkEff n c p m pt m' pc') :
    KinEff n c p m (.fork pt) m' pc' := by
  cases h with
  | none | skip => exact .same rfl rfl rfl (.of_eq rfl)
  | alloc i hi hfree hu => exact .alloc i hi hu
  | init np hlock =>
    exact .quiet (Mem.Kin.of_update (Mem.proc_setProc_unlockProc m c np · _) rfl rfl rfl rfl
      (Or.inl rfl) Or.inl) rfl rfl
      (.of_eq rfl)
  | undo np hlock => exact .undo np
  | parent np hfree => exact .parent np hfree
  | run np hfree => exact .run np

theorem ExitEff.kinEff [DecidableEq κ] {pt : ExitPt} (h : ExitEff n c p m pt m' pc') :
    KinEff n c p m (.exit pt) m' pc' := by
  cases h with
  | acquire status hfree =>
    exact .same rfl rfl rfl ⟨fun _ => rfl, fun _ hq => absurd hq (Nat.not_lt_zero _), nofun, rfl, rfl⟩
  | wakeParent _ i _ hi | orphan _ i hi =>
    refine .same rfl rfl rfl ⟨fun _ => rfl, ?_, nofun, rfl, rfl⟩
    intro q _
    rcases Nat.lt_or_ge q i with hq | hq
    · exact Or.inl hq
    · exact Or.inr (Or.inr (Nat.le_trans hi hq))
  | reparent status i hi hr => exact .reparent status i hr
  | skip status i hi hr =>
    refine .same rfl rfl rfl ⟨fun _ => rfl, ?_, nofun, rfl, rfl⟩
    intro q hq
    rcases Nat.lt_succ_iff_lt_or_eq.mp hq with hlt | heq
    · exact Or.inl hlt
    · exact Or.inr (Or.inl (heq ▸ hr))
  | zombie status hfree => exact .zombie status
  | release => exact .same rfl rfl rfl (.of_eq rfl)

theorem WaitEff.kinEff [DecidableEq κ] {pt : WaitPt} (h : WaitEff n c p m pt m' pc') :
    KinEff n c p m (.wait pt) m' pc' := by
  cases h with
  | lock addr i havekids hi hr hfree =>
    refine .quiet (Mem.Kin.of_update (Mem.proc_lockProc m c i) rfl rfl rfl rfl (Or.inl rfl) Or.inl) rfl rfl
      ⟨fun _ => rfl, nofun, ?_, rfl, rfl⟩
    intro q hq
    cases hq
    exact Or.inr hr
  | fail _ i | unlock _ i =>
    exact .quiet (Mem.Kin.of_update (Mem.proc_unlockProc m c i) rfl rfl rfl rfl (Or.inl rfl) Or.inl) rfl rfl
      (.of_none (fun _ => rfl) (fun _ => rfl) nofun rfl rfl rfl)
  | reap addr i hlock hz => exact .reap addr i hz
  | _ => exact .same rfl rfl rfl (.of_eq rfl)

theorem threadStep_kinEff [DecidableEq κ] [DecidableEq Ch] (hrun : (m.proc p).state = pc.state)
    (h : threadStep K n c p a m pc = some (m', .go pc')) : KinEff n c p m pc m' pc' := by
  cases threadStep_eff h with
  | user heff | sleep _ _ heff | yield _ _ heff => exact heff.kinEff hrun
  | client _ heff | wakeup _ _ _ heff | kill _ _ heff | fork _ heff | exit _ heff | wait _ heff =>
    exact heff.kinEff
  | forkret hlock =>
    exact .quiet (Mem.Kin.of_update (Mem.proc_unlockProc m c p) rfl rfl rfl rfl (Or.inl rfl) Or.inl) rfl
      rfl (.of_eq rfl)

/-! ## Steps of the system -/

omit [DecidableEq Lk] in
theorem SwtchEff.akin {saved : Pc Lk Ch L} (h : SwtchEff pc saved) : pc.Akin n p m saved := by
  cases h <;> exact .of_eq rfl

omit [DecidableEq Lk] in
theorem Quiet.of_same (hat : ∀ q x, t.At q x → s.At q x) (hkin : ∀ q, s.mem.Kin t.mem q)
    (htrace : t.mem.trace = s.mem.trace) (hborn : t.mem.born = s.mem.born) : Quiet n s t :=
  ⟨fun q x hx => Or.inl ⟨x, hat q x hx, .of_eq rfl⟩, hkin,
    htrace, hborn⟩

omit [DecidableEq Lk] in
/-- A step in which only process `p` moves. -/
theorem Quiet.of_akin (hp : s.At p pc) (hpc : pc.Akin n p s.mem pc')
    (hat : ∀ q x, t.At q x → if q = p then x = pc' else s.At q x) (hkin : ∀ q, s.mem.Kin t.mem q)
    (htrace : t.mem.trace = s.mem.trace) (hborn : t.mem.born = s.mem.born) : Quiet n s t := by
  refine ⟨?_, hkin, htrace, hborn⟩
  intro q x hx
  have hx := hat q x hx
  by_cases hq : q = p
  · subst hq
    rw [if_pos rfl] at hx
    subst hx
    exact Or.inl ⟨pc, hp, hpc⟩
  · rw [if_neg hq] at hx
    exact Or.inl ⟨x, hx, .of_eq rfl⟩

/-- A step is quiet, or one of the steps of a thread that the invariants are about. -/
theorem StepEff.kin [DecidableEq κ] [DecidableEq Ch] (h : Inv K s) (heff : StepEff K n s c t) :
    Quiet n s t ∨ ∃ p pc pc' m, t = s.go c p pc' m ∧ (s.cpu c).code = .thread p pc ∧
      s.Moved t p pc pc' ∧ KinEff n c p s.mem pc m pc' := by
  cases heff with
  | scan i j hcode =>
    refine Or.inl (.of_same ?_ (Mem.Kin.of_proc_eq rfl) rfl rfl)
    intro q x hx
    exact Sys.at_of_update (y := s.mem.proc 0) (by simp) rfl (fun r => by grind) rfl hx
  | pick i pc hcode hi hfree hs hx =>
    refine Or.inl (.of_same (fun _ _ => Sys.at_of_pick hx) ?_ rfl rfl)
    refine Mem.Kin.of_update (Mem.proc_setProc_lockProc s.mem c i · _) rfl rfl rfl rfl ?_ Or.inl
    rw [hs]
    exact Or.inr ⟨rfl, rfl⟩
  | back i hcode hlock =>
    have hproc := Mem.proc_unlockProc s.mem c i
    refine Or.inl (.of_same ?_ (Mem.Kin.of_update hproc rfl rfl rfl rfl (Or.inl rfl) Or.inl) rfl rfl)
    intro q x hx
    refine Sys.at_of_update (by simp) rfl hproc ?_ hx
    rfl
  | go p pc pc' a m hcode hstep =>
    exact Or.inr ⟨p, pc, pc', m, rfl, hcode, h.moved hcode (h.stateEff hcode hstep),
      threadStep_kinEff (h.run c p pc hcode).1 hstep⟩
  | swtch p pc saved hcode hnoff heff =>
    refine Or.inl (.of_akin (Or.inl ⟨c, hcode⟩) heff.akin (fun _ _ => h.at_of_swtch hcode) ?_ rfl
      rfl)
    exact Mem.Kin.of_update (Mem.proc_setProc s.mem p · _) rfl rfl rfl rfl (Or.inl rfl) Or.inl
  | timer p pc hcode hnoff hfree =>
    have hakin : pc.Akin n p s.mem (.yield .set pc) :=
      .of_eq rfl
    refine Or.inl (.of_akin (Or.inl ⟨c, hcode⟩) hakin (fun q x => (h.at_timer hcode q x).mp) ?_ rfl
      rfl)
    exact Mem.Kin.of_update (Mem.proc_lockProc s.mem c p) rfl rfl rfl rfl (Or.inl rfl) Or.inl
  | device x hfree => exact Or.inl (.of_same (fun _ _ => id) (Mem.Kin.of_proc_eq rfl) rfl rfl)
  | wake ch q hfree =>
    obtain ⟨hkin, htrace, hborn⟩ := s.mem.wake_kin (.client ch) q
    exact Or.inl (.of_same (fun _ _ => Sys.at_of_wake) hkin htrace hborn)

/-- What a step that is not quiet makes of the one process it changes: a new one, none, or the same
    in another place. -/
inductive Changed (s t : Sys κ Lk Ch D L) (c : κ) (i : Nat) (x : Proc κ Lk Ch L) : Prop
  | alloc (hu : (s.mem.proc i).state = .unused) (hs : x.state = .used)
      (hk : x.killed = (s.mem.proc i).killed)
  | free (hs : x.state = .unused) (hk : x.killed = false)
      (hold : (s.mem.proc i).state = .used ∨ ∃ caller addr,
        t.mem.trace = .reap (s.mem.proc caller).birth (s.mem.proc i).birth (s.mem.proc i).pid addr
          (if addr = 0 then none else some (s.mem.proc i).xstate) :: s.mem.trace)
  | keep (hk : x.killed = (s.mem.proc i).killed) (hb : x.birth = (s.mem.proc i).birth)
      (hs : x.state = (s.mem.proc i).state ∨ x.state = .runnable ∨ x.state = .zombie ∧
        ∃ status, (s.cpu c).code = .thread i (.exit (.zombie status)))

theorem StepEff.changed [DecidableEq κ] [DecidableEq Ch] (hI : Inv K s) (heff : StepEff K n s c t) : (∀ q, s.mem.Kin t.mem q) ∨
    ∃ i x, (∀ q, t.mem.proc q = if q = i then x else s.mem.proc q) ∧ Changed s t c i x := by
  rcases heff.kin hI with hq | ⟨p, pc, pc', m, rfl, hcode, hmv, hkin⟩
  · exact Or.inl hq.kin
  cases hkin with
  | quiet hkin => exact Or.inl hkin
  | exit => exact Or.inl (Mem.Kin.of_proc_eq rfl)
  | alloc i hi hu =>
    exact Or.inr ⟨i, _, (Mem.proc_setProc_lockProc s.mem c i · _), .alloc hu rfl rfl⟩
  | undo np =>
    exact Or.inr ⟨np, _, (Mem.proc_setProc_unlockProc s.mem c np · _),
      .free rfl rfl (Or.inl (hI.child p _ np hmv.before rfl))⟩
  | parent np =>
    exact Or.inr ⟨np, _, (Mem.proc_setProc s.mem np · _), .keep rfl rfl (Or.inl rfl)⟩
  | run np =>
    exact Or.inr ⟨np, _, (Mem.proc_setProc s.mem np · _), .keep rfl rfl (Or.inr (Or.inl rfl))⟩
  | reparent status i =>
    exact Or.inr ⟨i, _, (Mem.proc_setProc s.mem i · _), .keep rfl rfl (Or.inl rfl)⟩
  | zombie status =>
    exact Or.inr ⟨p, _, (Mem.proc_setProc_lockProc s.mem c p · _),
      .keep rfl rfl (Or.inr (Or.inr ⟨rfl, status, hcode⟩))⟩
  | reap addr i hz =>
    exact Or.inr ⟨i, _, (Mem.proc_setProc_unlockProc s.mem c i · _),
      .free rfl rfl (Or.inr ⟨p, addr, rfl⟩)⟩

omit [DecidableEq Lk] in
theorem Sys.Moved.quiet (hmv : s.Moved t p pc pc') (hpc : pc.Akin n p s.mem pc')
    (hkin : ∀ q, s.mem.Kin t.mem q) (htrace : t.mem.trace = s.mem.trace)
    (hborn : t.mem.born = s.mem.born) : Quiet n s t := by
  refine ⟨?_, hkin, htrace, hborn⟩
  intro q x hx
  by_cases hq : q = p
  · subst hq
    rw [hmv.self x hx]
    exact Or.inl ⟨pc, hmv.before, hpc⟩
  · rcases hmv.other q x hq hx with hx | hx
    · exact Or.inl ⟨x, hx, .of_eq rfl⟩
    · exact Or.inr hx

/-! ## The family -/

/-- The invariant of `p->parent`. -/
structure Family (n : Nat) (s : Sys κ Lk Ch D L) : Prop where
  live : ∀ q r, (s.mem.proc q).parent = some r → (s.mem.proc r).state.live = true
  parent : ∀ q, q ≠ initproc → (s.mem.proc q).state ≠ .unused → (s.mem.proc q).state ≠ .used →
    (s.mem.proc q).parent ≠ none
  unused : ∀ q, (s.mem.proc q).state = .unused → (s.mem.proc q).parent = none
  range : ∀ q, n ≤ q → (s.mem.proc q).parent = none
  childRange : ∀ p pc q, s.At p pc → pc.child = some q → q < n
  initLive : (s.mem.proc initproc).state.live = true
  initExit : ∀ pc x, s.At initproc pc → pc.exiting x = none
  past : ∀ p pc q, s.At p pc → pc.Past q → (s.mem.proc q).parent ≠ some p
  reaping : ∀ p pc q, s.At p pc → pc.reaping = some q → (s.mem.proc q).parent = some p
  linked : ∀ p pc q, s.At p pc → pc.linked = some q → (s.mem.proc q).parent = some p

omit [DecidableEq Lk] in
theorem Family.quiet (h : Family n s) (hq : Quiet n s t) : Family n t := by
  have hparent : ∀ q, (t.mem.proc q).parent = (s.mem.proc q).parent := fun q => (hq.kin q).parent
  have hstate : ∀ q, (t.mem.proc q).state = (s.mem.proc q).state ∨
    (t.mem.proc q).state.live = true ∧ (s.mem.proc q).state.live = true := fun q => (hq.kin q).state
  have hat := hq.at_
  obtain ⟨h1, h2, h0, h3, h4, h5, h6, h7, h8, h9⟩ := h
  constructor <;> grind [Pc.Akin, Pc.child, Pc.exiting]

/-! A process that `kwait` looks at is protected by two locks, and one that `kfork` sets up is known
to its parent only. -/

omit [DecidableEq Lk] in
theorem Pc.child_of_linked (h : pc.linked = some q) : pc.child = some q := by
  induction pc with
  | fork pt => cases pt <;> simp_all [linked, child]
  | yield pt k ih => exact ih h
  | _ => cases h

theorem Pc.reaping_locks (hwf : pc.Wf K p) (h : pc.reaping = some q) :
    ∃ addr, pc = .wait (.child addr q) := by
  cases pc with
  | wait pt =>
    cases pt with
    | child addr i =>
      cases h
      exact ⟨addr, rfl⟩
    | _ => cases h
  | yield pt k =>
    -- an interrupt finds no lock held
    have hk : k.locks K = [] := hwf.2.2
    have hr : k.reaping = some q := h
    cases k with
    | wait pt =>
      cases pt with
      | child addr i => cases hk
      | _ => cases hr
    | yield pt k => cases hwf.2.1
    | _ => cases hr
  | _ => cases h

theorem Inv.reaping_locks (h : Inv K s) (hat : s.At p pc) (hr : pc.reaping = some q) :
    ∃ d addr, (s.cpu d).code = .thread p (.wait (.child addr q)) ∧ (s.mem.proc q).lock = some d ∧
      s.mem.lock .wait = some d := by
  obtain ⟨addr, rfl⟩ := Pc.reaping_locks (h.wf p pc hat) hr
  rcases hat with ⟨d, hd⟩ | hctx
  · refine ⟨d, addr, hd, ?_, ?_⟩
    · exact h.plock_of hd (List.mem_singleton_self q)
    · exact h.lock_of hd (List.mem_singleton_self _)
  · exact absurd (h.saved p _ hctx) id

theorem Inv.linked_self (h : Inv K s) (hat : s.At p pc) (hpc : pc.child = some q) (r : Nat)
    (x : Pc Lk Ch L) (hr : s.At r x) (hx : x.linked = some q) : r = p :=
  h.childUniq r p x pc q hr hat (Pc.child_of_linked hx) hpc

omit [DecidableEq Lk] in
theorem Pc.exiting_of_past (h : pc.Past q) (x : Int) : pc.exiting x ≠ none := by
  induction pc with
  | wakeup ch i k => cases k <;> first | exact absurd h id | exact nofun
  | yield pt k ih => exact ih h
  | exit pt => cases pt <;> exact nofun
  | _ => exact absurd h id

section step

variable (h : Family n s) (hI : Inv K s)

include h hI

variable {status : Int} {y : Proc κ Lk Ch L}

omit [DecidableEq Lk] hI in
theorem Family.exit (hmv : s.Moved t p .user (.exit (.acquire status)))
    (hproc : t.mem.proc = s.mem.proc) (hp : p ≠ initproc) : Family n t := by
  obtain ⟨_, hself, hother⟩ := hmv
  obtain ⟨h1, h2, h0, h3, h4, h5, h6, h7, h8, h9⟩ := h
  rw [← hproc] at h1 h2 h0 h3 h5 h7 h8 h9
  constructor <;> grind [Pc.child, Pc.exiting]

variable (hproc : ∀ r, t.mem.proc r = if r = i then y else s.mem.proc r)

include hproc

omit [DecidableEq Lk] hI in
theorem Family.alloc (hmv : s.Moved t p (.fork (.scan i)) (.fork (.init i))) (hi : i < n)
    (hu : (s.mem.proc i).state = .unused) (hs : y.state = .used)
    (hy : y.parent = (s.mem.proc i).parent) : Family n t := by
  obtain ⟨_, hself, hother⟩ := hmv
  obtain ⟨h1, h2, h0, h3, h4, h5, h6, h7, h8, h9⟩ := h
  constructor <;> grind [Pc.child, Pc.exiting]

theorem Family.undo (hmv : s.Moved t p (.fork (.init i)) .user)
    (hcode : (s.cpu c).code = .thread p (.fork (.init i))) (hlock : (s.mem.proc i).lock = some c)
    (hs : y.state = .unused) (hy : y.parent = none) : Family n t := by
  obtain ⟨hat, hself, hother⟩ := hmv
  have hused := hI.child p _ i hat rfl
  have hlinked := hI.linked_self hat rfl
  have hreaping : ∀ r x, s.At r x → x.reaping = some i → r = p := by
    intro r x hr hx
    obtain ⟨d, addr, hd, hlock', _⟩ := hI.reaping_locks hr hx
    rw [hlock] at hlock'
    cases hlock'
    rw [hcode] at hd
    cases hd
  obtain ⟨h1, h2, h0, h3, h4, h5, h6, h7, h8, h9⟩ := h
  constructor <;> grind [Pc.child, Pc.exiting]

theorem Family.setParent (hmv : s.Moved t p (.fork (.parent i)) (.fork (.run i)))
    (hcode : (s.cpu c).code = .thread p (.fork (.parent i))) (hfree : s.mem.lock .wait = none)
    (hs : y.state = (s.mem.proc i).state) (hy : y.parent = some p) : Family n t := by
  obtain ⟨hat, hself, hother⟩ := hmv
  have hlive : (s.mem.proc p).state.live = true := by
    rw [(hI.run c p _ hcode).1]
    rfl
  have hused := hI.child p _ i hat rfl
  have hlinked := hI.linked_self hat rfl
  have hreaping : ∀ r x, s.At r x → x.reaping = none := by
    intro r x hr
    cases hx : x.reaping with
    | none => rfl
    | some q =>
      obtain ⟨d, addr, _, _, hlock⟩ := hI.reaping_locks hr hx
      rw [hfree] at hlock
      cases hlock
  obtain ⟨h1, h2, h0, h3, h4, h5, h6, h7, h8, h9⟩ := h
  constructor <;> grind [Pc.child, Pc.exiting]

theorem Family.run (hmv : s.Moved t p (.fork (.run i)) .user) (hs : y.state = .runnable)
    (hy : y.parent = (s.mem.proc i).parent) : Family n t := by
  obtain ⟨hat, hself, hother⟩ := hmv
  have hused := hI.child p _ i hat rfl
  obtain ⟨h1, h2, h0, h3, h4, h5, h6, h7, h8, h9⟩ := h
  constructor <;> grind [Pc.child, Pc.exiting]

omit [DecidableEq Lk] hI in
theorem Family.reparent (hmv : s.Moved t p (.exit (.reparent status i))
      (.wakeup (.proc initproc) 0 (.reparent status (i + 1))))
    (hs : y.state = (s.mem.proc i).state) (hr : (s.mem.proc i).parent = some p)
    (hy : y.parent = some initproc) : Family n t := by
  obtain ⟨hat, hself, hother⟩ := hmv
  have hp : p ≠ initproc := by
    intro hp
    cases h.initExit _ 0 (hp ▸ hat)
  have hpast : ∀ x q, s.At initproc x → ¬ x.Past q := by
    intro x q hx hq
    exact Pc.exiting_of_past hq 0 (h.initExit x 0 hx)
  have hbelow : ∀ q, q < i → (s.mem.proc q).parent ≠ some p := fun q hq => h.past p _ q hat hq
  obtain ⟨h1, h2, h0, h3, h4, h5, h6, h7, h8, h9⟩ := h
  constructor <;> grind [Pc.child, Pc.exiting]

theorem Family.zombie (hmv : s.Moved t i (.exit (.zombie status)) (.exit .release))
    (hcode : (s.cpu c).code = .thread i (.exit (.zombie status))) (hs : y.state = .zombie)
    (hy : y.parent = (s.mem.proc i).parent) : Family n t := by
  obtain ⟨hat, hself, hother⟩ := hmv
  have hrun : (s.mem.proc i).state = .running := (hI.run c i _ hcode).1
  have hp : i ≠ initproc := by
    intro hp
    cases h.initExit _ 0 (hp ▸ hat)
  -- `reparent` has left no children
  have hnone : ∀ q, (s.mem.proc q).parent ≠ some i := fun q => h.past i _ q hat trivial
  obtain ⟨h1, h2, h0, h3, h4, h5, h6, h7, h8, h9⟩ := h
  constructor <;> grind [Pc.child, Pc.exiting]

omit [DecidableEq Lk] hI in
theorem Family.reap {addr : Nat} (hmv : s.Moved t p (.wait (.child addr i)) (.wait .done))
    (hz : (s.mem.proc i).state = .zombie) (hs : y.state = .unused) (hy : y.parent = none) :
    Family n t := by
  obtain ⟨hat, hself, hother⟩ := hmv
  obtain ⟨h1, h2, h0, h3, h4, h5, h6, h7, h8, h9⟩ := h
  constructor <;> grind [Pc.child, Pc.exiting]

omit hproc in
theorem Family.go [DecidableEq κ] (hcode : (s.cpu c).code = .thread p pc) (heff : KinEff n c p s.mem pc m pc')
    (hmv : s.Moved (s.go c p pc' m) p pc pc') : Family n (s.go c p pc' m) := by
  cases heff with
  | quiet hkin htrace hborn hpc => exact h.quiet (hmv.quiet hpc hkin htrace hborn)
  | exit status hp => exact h.exit hmv rfl hp
  | alloc i hi hu => exact h.alloc (Mem.proc_setProc_lockProc s.mem c i · _) hmv hi hu rfl rfl
  | undo np =>
    exact h.undo hI (Mem.proc_setProc_unlockProc s.mem c np · _) hmv hcode
      (hI.plock_of hcode List.mem_cons_self) rfl rfl
  | parent np hfree => exact h.setParent hI (Mem.proc_setProc s.mem np · _) hmv hcode hfree rfl rfl
  | run np => exact h.run hI (Mem.proc_setProc s.mem np · _) hmv rfl rfl
  | reparent status i hr =>
    exact h.reparent (Mem.proc_setProc s.mem i · _) hmv rfl hr rfl
  | zombie status =>
    exact h.zombie hI (Mem.proc_setProc_lockProc s.mem c p · _) hmv hcode rfl rfl
  | reap addr i hz =>
    exact h.reap (Mem.proc_setProc_unlockProc s.mem c i · _) hmv hz rfl rfl

omit hproc in
theorem Family.step [DecidableEq κ] [DecidableEq Ch] (heff : StepEff K n s c t) : Family n t := by
  rcases heff.kin hI with hq | ⟨p, pc, pc', m, rfl, hcode, hmv, hkin⟩
  · exact h.quiet hq
  · exact h.go hI hcode hkin hmv

end step

omit [DecidableEq Lk] in
theorem Sys.at_init (d : D) (q : Nat) (x : Pc Lk Ch L) :
    (Sys.init d : Sys κ Lk Ch D L).At q x ↔ q = initproc ∧ x = .forkret := by
  rw [Sys.at_iff]
  simp only [Sys.init]
  grind

omit [DecidableEq Lk] in
theorem Family.init (d : D) : Family n (Sys.init d : Sys κ Lk Ch D L) := by
  constructor <;> try simp only [Sys.at_init]
  all_goals grind [Sys.init, Pc.child, Pc.exiting, ProcState.live]

end Xv6.Sched
