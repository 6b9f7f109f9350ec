/-
  What a step of a thread can do to the states, contexts and channels of the processes.

  `StateEff` has three cases: nothing, a change of the process itself, or a change of one other
  process, which is one of the six of `OtherEff`.  `threadStep_stateEff` says that every step of a
  thread is of that kind, and `transition` which changes of a state those are.
-/
import Xv6.Sched.Points

namespace Xv6.Sched

variable {κ Lk Ch D X L : Type}
variable {n : Nat} {c : κ} {p : Nat} {a : Act Ch X L}
variable {m m' : Mem κ Lk Ch D L} {pc pc' : Pc Lk Ch L}

/-- The two points agree on the process that is there. -/
structure Pc.Like (p : Nat) (pc pc' : Pc Lk Ch L) : Prop where
  state : pc'.state = pc.state
  chan : pc'.chan p = pc.chan p

/-- The points of `kfork` agree too. -/
structure Pc.Alike (p : Nat) (pc pc' : Pc Lk Ch L) : Prop extends pc.Like p pc' where
  child : pc'.child = pc.child
  ready : pc'.ready = pc.ready

/-- What process `p` does to another process `q`, which is `x` before the step and `y` after it. -/
inductive OtherEff (c : κ) (p q : Nat) (x y : Proc κ Lk Ch L) : Pc Lk Ch L → Pc Lk Ch L → Prop
  | wake {pc pc' : Pc Lk Ch L} (hfree : x.lock = none) (hs : x.state = .sleeping)
      (hs' : y.state = .runnable) (hx : y.context = x.context) (hc : y.chan = x.chan)
      (hpc : pc.Alike p pc') : OtherEff c p q x y pc pc'
  | alloc (i : Nat) (hfree : x.lock = none) (hs : x.state = .unused) (hs' : y.state = .used)
      (hx : y.context = x.context) (hc : y.chan = x.chan) :
      OtherEff c p q x y (.fork (.scan i)) (.fork (.init q))
  | init (hs : y.state = x.state) (hx : y.context = some .forkret) (hc : y.chan = x.chan) :
      OtherEff c p q x y (.fork (.init q)) (.fork (.parent q))
  | undo (hs : y.state = .unused) (hx : y.context = none) (hc : y.chan = none) :
      OtherEff c p q x y (.fork (.init q)) .user
  | launch (hfree : x.lock = none) (hs : y.state = .runnable) (hx : y.context = x.context)
      (hc : y.chan = x.chan) : OtherEff c p q x y (.fork (.run q)) .user
  | reap (addr : Nat) (hlock : x.lock = some c) (hz : x.state = .zombie) (hs : y.state = .unused)
      (hx : y.context = none) (hc : y.chan = none) :
      OtherEff c p q x y (.wait (.child addr q)) (.wait .done)

inductive StateEff (c : κ) (p : Nat) (m m' : Mem κ Lk Ch D L) : Pc Lk Ch L → Pc Lk Ch L → Prop
  | quiet {pc pc' : Pc Lk Ch L} (h : ∀ q, m.Same m' q) (hpc : pc.Alike p pc') :
      StateEff c p m m' pc pc'
  /-- The process changes its own state or channel. -/
  | own {pc pc' : Pc Lk Ch L} (h : ∀ q, q ≠ p → m.Same m' q)
      (hx : (m'.proc p).context = (m.proc p).context) (hs : (m'.proc p).state = pc'.state)
      (hc : (m'.proc p).chan = pc'.chan p) (hr : pc.state = .running)
      (hk : pc'.child = pc.child) (hd : pc'.ready = pc.ready) : StateEff c p m m' pc pc'
  | other {pc pc' : Pc Lk Ch L} (q : Nat) (h : ∀ r, r ≠ q → m.Same m' r)
      (hq : OtherEff c p q (m.proc q) (m'.proc q) pc pc') : StateEff c p m m' pc pc'

theorem StateEff.refl (hpc : pc.Alike p pc') : StateEff c p m m pc pc' :=
  .quiet (Mem.Same.of_proc_eq rfl) hpc

/-- What the point says about the process and its child. -/
def Pc.facts (p : Nat) (pc : Pc Lk Ch L) :
    ProcState × Option (Chan Ch) × Option Nat × Option Nat :=
  (pc.state, pc.chan p, pc.child, pc.ready)

theorem Pc.Alike.of_facts (h : pc'.facts p = pc.facts p) : pc.Alike p pc' := by
  simp only [facts, Prod.mk.injEq] at h
  exact ⟨⟨h.1, h.2.1⟩, h.2.2.1, h.2.2.2⟩

theorem StateEff.own_update {x : Proc κ Lk Ch L}
    (h : ∀ r, m'.proc r = if r = p then x else m.proc r) (hx : x.context = (m.proc p).context)
    (hs : x.state = pc'.state) (hc : x.chan = pc'.chan p) (hr : pc.state = .running)
    (hk : pc'.child = pc.child) (hd : pc'.ready = pc.ready) : StateEff c p m m' pc pc' := by
  have hp : m'.proc p = x := by rw [h, if_pos rfl]
  exact .own (Mem.Same.of_ne h) (by rw [hp, hx]) (by rw [hp, hs]) (by rw [hp, hc]) hr hk hd

theorem StateEff.other_update {q : Nat} {x : Proc κ Lk Ch L}
    (h : ∀ r, m'.proc r = if r = q then x else m.proc r)
    (hq : OtherEff c p q (m.proc q) x pc pc') : StateEff c p m m' pc pc' := by
  refine .other q (Mem.Same.of_ne h) ?_
  rw [h, if_pos rfl]
  exact hq

/-- Process `q` is made runnable if it sleeps on the channel. -/
theorem StateEff.of_wake [DecidableEq Ch] {ch : Chan Ch} {q : Nat} (hfree : (m.proc q).lock = none)
    (hpc : pc.Alike p pc') : StateEff c p m (m.wake ch q) pc pc' := by
  have hproc := m.proc_wake ch q
  by_cases hs : (m.proc q).state = .sleeping ∧ (m.proc q).chan = some ch
  · exact .other_update hproc (.wake hfree hs.1 (if_pos hs) rfl rfl hpc)
  · refine .quiet (Mem.Same.of_update hproc ?_ rfl rfl) hpc
    exact if_neg hs

theorem StateEff.of_kill {q : Nat} (hfree : (m.proc q).lock = none) (hpc : pc.Alike p pc') :
    StateEff c p m (m.kill q) pc pc' := by
  have hproc : ∀ r, (m.kill q).proc r = _ := (Mem.proc_setProc m q · _)
  by_cases hs : (m.proc q).state = .sleeping
  · exact .other_update hproc (.wake hfree hs (if_pos hs) rfl rfl hpc)
  · refine .quiet (Mem.Same.of_update hproc ?_ rfl rfl) hpc
    exact if_neg hs

variable [DecidableEq Lk] {K : Client Lk Ch D X L}

theorem UserEff.stateEff (h : UserEff K p m m' pc') : StateEff c p m m' .user pc' := by
  cases h with
  | exit status hp => exact .quiet (Mem.Same.of_proc_eq rfl) (.of_facts rfl)
  | fault hfree =>
    exact .quiet (Mem.Same.of_update (Mem.proc_setProc m p · _) rfl rfl rfl) (.of_facts rfl)
  | _ => exact .refl (.of_facts rfl)

variable [DecidableEq κ]

theorem ClientEff.stateEff {l : L} (h : ClientEff K c p l m m' pc') :
    StateEff c p m m' (.client l) pc' := by
  cases h with
  | _ => exact .quiet (Mem.Same.of_proc_eq rfl) (.of_facts rfl)

omit [DecidableEq Lk] in
theorem Wait.next_alike (w : Wait Lk Ch L) : (Pc.sleep .reacquire w).Alike p w.next := by
  cases w <;> exact .of_facts rfl

omit [DecidableEq Lk] in
theorem After.pc_alike (k : After L) (ch : Chan Ch) (i : Nat) :
    (Pc.wakeup ch i k : Pc Lk Ch L).Alike p k.pc := by
  cases k <;> exact .of_facts rfl

theorem SleepEff.stateEff {pt : SleepPt} {w : Wait Lk Ch L}
    (hrun : (m.proc p).state = (Pc.sleep pt w).state) (h : SleepEff c p w m pt m' pc') :
    StateEff c p m m' (.sleep pt w) pc' := by
  cases h with
  | acquire hfree =>
    exact .quiet (Mem.Same.of_update (Mem.proc_lockProc m c p) rfl rfl rfl) (.of_facts rfl)
  | release => exact .quiet (Mem.Same.of_proc_eq rfl) (.of_facts rfl)
  | set => exact .own_update (Mem.proc_setProc m p · _) rfl rfl rfl rfl rfl rfl
  | back hlock => exact .own_update (Mem.proc_setProc_unlockProc m c p · _) rfl hrun rfl rfl rfl rfl
  | reacquire hfree => exact .quiet (Mem.Same.of_proc_eq rfl) w.next_alike

omit [DecidableEq κ] [DecidableEq Lk] in
theorem WakeupEff.stateEff [DecidableEq Ch] {ch : Chan Ch} {i : Nat} {k : After L}
    (h : WakeupEff n p ch i k m m' pc') : StateEff c p m m' (.wakeup ch i k) pc' := by
  cases h with
  | done hi => exact .refl (k.pc_alike ch i)
  | self hi => exact .refl (.of_facts rfl)
  | wake hi hfree => exact .of_wake hfree (.of_facts rfl)

theorem YieldEff.stateEff {pt : YieldPt} {k : Pc Lk Ch L} (hwf : (Pc.yield pt k).Wf K p)
    (hchan : (m.proc p).chan = none) (h : YieldEff c p k m pt m' pc') :
    StateEff c p m m' (.yield pt k) pc' := by
  cases h with
  | set => exact .own_update (Mem.proc_setProc m p · _) rfl rfl hchan rfl rfl rfl
  | back hlock =>
    have hk := Pc.running_of_plocks hwf.2.1
    exact .quiet (Mem.Same.of_update (Mem.proc_unlockProc m c p) rfl rfl rfl)
      ⟨⟨hk.1, hk.2⟩, rfl, rfl⟩

omit [DecidableEq κ] [DecidableEq Lk] in
theorem KillEff.stateEff {pid : BitVec 32} {i : Nat} (h : KillEff pid i m m' pc') :
    StateEff c p m m' (.kill pid i) pc' := by
  cases h with
  | kill hfree => exact .of_kill hfree (.of_facts rfl)
  | _ => exact .refl (.of_facts rfl)

omit [DecidableEq Lk] in
theorem ForkEff.stateEff {pt : ForkPt} (h : ForkEff n c p m pt m' pc') :
    StateEff c p m m' (.fork pt) pc' := by
  cases h with
  | none | skip => exact .refl (.of_facts rfl)
  | alloc i hi hfree hu =>
    exact .other_update (Mem.proc_setProc_lockProc m c i · _) (.alloc i hfree hu rfl rfl rfl)
  | init np hlock =>
    exact .other_update (Mem.proc_setProc_unlockProc m c np · _) (.init rfl rfl rfl)
  | undo np hlock =>
    exact .other_update (Mem.proc_setProc_unlockProc m c np · _) (.undo rfl rfl rfl)
  | parent np hfree =>
    exact .quiet (Mem.Same.of_update (Mem.proc_setProc m np · _) rfl rfl rfl) (.of_facts rfl)
  | run np hfree =>
    exact .other_update (Mem.proc_setProc m np · _) (.launch hfree rfl rfl rfl)

theorem ExitEff.stateEff {pt : ExitPt} (hchan : (m.proc p).chan = none)
    (h : ExitEff n c p m pt m' pc') : StateEff c p m m' (.exit pt) pc' := by
  cases h with
  | reparent status i hi hr =>
    exact .quiet (Mem.Same.of_update (Mem.proc_setProc m i · _) rfl rfl rfl) (.of_facts rfl)
  | zombie status hfree =>
    exact .own_update (Mem.proc_setProc_lockProc m c p · _) rfl rfl hchan rfl rfl rfl
  | _ => exact .quiet (Mem.Same.of_proc_eq rfl) (.of_facts rfl)

theorem WaitEff.stateEff {pt : WaitPt} (h : WaitEff n c p m pt m' pc') :
    StateEff c p m m' (.wait pt) pc' := by
  cases h with
  | lock addr i havekids hi hr hfree =>
    exact .quiet (Mem.Same.of_update (Mem.proc_lockProc m c i) rfl rfl rfl) (.of_facts rfl)
  | fail _ i | unlock _ i =>
    exact .quiet (Mem.Same.of_update (Mem.proc_unlockProc m c i) rfl rfl rfl) (.of_facts rfl)
  | reap addr i hlock hz =>
    exact .other_update (Mem.proc_setProc_unlockProc m c i · _)
      (.reap addr hlock hz rfl rfl rfl)
  | _ => exact .quiet (Mem.Same.of_proc_eq rfl) (.of_facts rfl)

/-- What a step of a thread does to the process table. -/
theorem threadStep_stateEff [DecidableEq Ch] (hwf : pc.Wf K p) (hrun : (m.proc p).state = pc.state)
    (hchan : (m.proc p).chan = pc.chan p) (h : threadStep K n c p a m pc = some (m', .go pc')) :
    StateEff c p m m' pc pc' := by
  cases threadStep_eff h with
  | user heff | client _ heff | wakeup _ _ _ heff | kill _ _ heff | fork _ heff | wait _ heff =>
    exact heff.stateEff
  | forkret hlock =>
    exact .quiet (Mem.Same.of_update (Mem.proc_unlockProc m c p) rfl rfl rfl) (.of_facts rfl)
  | sleep pt w heff => exact heff.stateEff hrun
  | yield pt k heff => exact heff.stateEff hwf hchan
  | exit pt heff => exact heff.stateEff hchan

/-- The transitions of `p->state`. -/
inductive Transition : ProcState → ProcState → Prop
  | alloc : Transition .unused .used
  | undo : Transition .used .unused
  | launch : Transition .used .runnable
  | pick : Transition .runnable .running
  | yield : Transition .running .runnable
  | sleep : Transition .running .sleeping
  | exit : Transition .running .zombie
  | wake : Transition .sleeping .runnable
  | reap : Transition .zombie .unused

omit [DecidableEq κ] [DecidableEq Lk] in
theorem OtherEff.transition {q : Nat} {x y : Proc κ Lk Ch L} (h : OtherEff c p q x y pc pc')
    (hchild : pc.child = some q → x.state = .used) (hne : y.state ≠ x.state) :
    Transition x.state y.state := by
  cases h with
  | wake hfree hs hs' =>
    rw [hs, hs']
    exact .wake
  | alloc i hfree hs hs' =>
    rw [hs, hs']
    exact .alloc
  | init hs => exact absurd hs hne
  | undo hs =>
    rw [hchild rfl, hs]
    exact .undo
  | launch hfree hs =>
    rw [hchild rfl, hs]
    exact .launch
  | reap addr hlock hz hs =>
    rw [hz, hs]
    exact .reap

omit [DecidableEq κ] [DecidableEq Lk] in
theorem StateEff.transition (h : StateEff c p m m' pc pc') (hrun : (m.proc p).state = pc.state)
    (hchild : ∀ q, pc.child = some q → (m.proc q).state = .used) (q : Nat)
    (hne : (m'.proc q).state ≠ (m.proc q).state) :
    Transition (m.proc q).state (m'.proc q).state := by
  cases h with
  | quiet hsame => exact absurd (hsame q).1 hne
  | own hsame hx hs hc hr =>
    by_cases hq : q = p
    · subst hq
      rw [hrun, hr, hs] at hne ⊢
      have hused := pc'.state_ne_used
      -- a point has one of the states of a process that has run
      cases hpc : pc'.state with
      | unused => exact absurd hpc hused.2
      | used => exact absurd hpc hused.1
      | sleeping => exact .sleep
      | runnable => exact .yield
      | running => exact absurd hpc hne
      | zombie => exact .exit
    · exact absurd (hsame q hq).1 hne
  | other r hsame hr =>
    by_cases hq : q = r
    · subst hq
      exact hr.transition (hchild q) hne
    · exact absurd (hsame q hq).1 hne

end Xv6.Sched
