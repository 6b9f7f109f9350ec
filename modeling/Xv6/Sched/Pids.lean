/-
  Process ids.

  `allocpid` counts an `int` up and compares it with nothing: in every run the process with birth
  `b` gets the pid `b + 1`, modulo 2^32 (`Pids`).  The pids identify the processes while fewer than
  2^31 have been allocated, and no longer (`pids_identify`): a process gets there with calls of
  `kfork` that fail for lack of memory, since each of them takes a pid.
-/
import Mathlib.Algebra.Group.Nat.Defs
import Xv6.Sched.Exit

namespace Xv6.Sched

open List

variable {κ Lk Ch D X L : Type}
variable {n : Nat} {c : κ} {i p : Nat} {a : Act Ch X L}
variable {m m' : Mem κ Lk Ch D L} {pc : Pc Lk Ch L} {s t : Sys κ Lk Ch D L}

/-- Pids name processes.  What `kfork` has returned is positive, `kkill` finds the child by it and
    nobody else, and a `kwait` that returns it has waited for the child. -/
structure PidsOk (s : Sys κ Lk Ch D L) : Prop where
  uniq : ∀ q r, (s.mem.proc q).state ≠ .unused → (s.mem.proc r).state ≠ .unused →
    (s.mem.proc q).pid = (s.mem.proc r).pid → q = r
  pos : ∀ q, (s.mem.proc q).state ≠ .unused → 0 < (s.mem.proc q).pid.toInt
  fork : ∀ child pid parent, .fork child pid parent ∈ s.mem.trace → 0 < pid.toInt ∧
    (∀ q, (s.mem.proc q).pid = pid →
      (s.mem.proc q).state ≠ .unused ∧ (s.mem.proc q).birth = child) ∧
    ∀ caller who addr stored, .reap caller who pid addr stored ∈ s.mem.trace → who = child

/-! ## Pids and births -/

def pidOf (birth : Nat) : BitVec 32 := BitVec.ofNat 32 (birth + 1)

def Event.Pid : Event → Prop
  | .fork child pid _ => pid = pidOf child
  | .reap _ who pid _ _ => pid = pidOf who
  | .exit _ _ => True

/-- The next pid tells the number of births. -/
def Mem.Counts (m : Mem κ Lk Ch D L) : Prop := m.nextpid = pidOf m.born

/-- A pid tells the birth, up to the width of an `int`. -/
structure Pids (s : Sys κ Lk Ch D L) : Prop where
  next : s.mem.Counts
  used : ∀ q, (s.mem.proc q).state ≠ .unused → (s.mem.proc q).pid = pidOf (s.mem.proc q).birth
  unused : ∀ q, (s.mem.proc q).state = .unused → (s.mem.proc q).pid = 0
  events : ∀ e ∈ s.mem.trace, e.Pid

variable [DecidableEq Ch]

theorem Mem.Counts.wake (h : m.Counts) (ch : Chan Ch) (q : Nat) : (m.wake ch q).Counts := by
  unfold Mem.wake
  split <;> exact h

variable [DecidableEq Lk] {K : Client Lk Ch D X L}

theorem Mem.Counts.step [DecidableEq κ] {r : Next Lk Ch L} (h : m.Counts)
    (hstep : threadStep K n c p a m pc = some (m', r)) : m'.Counts := by
  cases threadStep_eff hstep with
  | forkret => exact h
  | swtch => exact h
  | fork pt heff =>
    cases heff with
    | alloc i =>
      show m.nextpid + 1 = pidOf (m.born + 1)
      rw [h]
      exact (BitVec.ofNat_add _ 1).symm
    | _ => exact h
  | wakeup ch i k heff =>
    cases heff with
    | wake => exact h.wake ch i
    | _ => exact h
  | _ =>
    rename_i heff
    cases heff <;> exact h

omit [DecidableEq Lk] [DecidableEq Ch] in
theorem Pids.keep (h : Pids s) {y : Proc κ Lk Ch L}
    (hproc : ∀ r, t.mem.proc r = if r = i then y else s.mem.proc r)
    (hused : y.state ≠ .unused → y.pid = pidOf y.birth) (hunused : y.state = .unused → y.pid = 0)
    (hnext : t.mem.Counts) (hevents : ∀ e ∈ t.mem.trace, e.Pid) : Pids t := by
  refine ⟨hnext, ?_, ?_, hevents⟩ <;> intro q <;> rw [hproc] <;> split
  · exact hused
  · exact h.used q
  · exact hunused
  · exact h.unused q

theorem Pids.step [DecidableEq κ] (h : Pids s) (hI : Inv K s) (heff : StepEff K n s c t) : Pids t := by
  have hnext : t.mem.Counts := by
    cases heff with
    | go p pc pc' a m hcode hstep => exact h.next.step hstep
    | wake ch q => exact h.next.wake (.client ch) q
    | _ => exact h.next
  have hquiet : (∀ q, s.mem.Kin t.mem q) → t.mem.trace = s.mem.trace → Pids t := by
    intro hkin htrace
    refine ⟨hnext, ?_, ?_, htrace ▸ h.events⟩ <;> intro q hs <;>
      have hk := hkin q <;> have hstate := hk.state <;> rw [hk.pid]
    · rw [hk.birth]
      exact h.used q (by grind)
    · exact h.unused q (by grind)
  rcases heff.kin hI with hq | ⟨p, pc, pc', m, rfl, hcode, hmv, hkin⟩
  · exact hquiet hq.kin hq.trace
  · cases hkin with
    | quiet hkin htrace => exact hquiet hkin htrace
    | exit status => exact ⟨hnext, h.used, h.unused, forall_mem_cons.mpr ⟨trivial, h.events⟩⟩
    | alloc i =>
      exact h.keep (Mem.proc_setProc_lockProc s.mem c i · _) (fun _ => h.next) (by simp) hnext
        h.events
    | undo np =>
      exact h.keep (Mem.proc_setProc_unlockProc s.mem c np · _) (fun hne => absurd rfl hne)
        (fun _ => rfl) hnext h.events
    | parent np =>
      exact h.keep (Mem.proc_setProc s.mem np · _) (h.used np) (h.unused np) hnext h.events
    | run np =>
      have hpid := h.used np (by simp [hI.child p _ np hmv.before rfl])
      exact h.keep (Mem.proc_setProc s.mem np · _) (fun _ => hpid) (by simp) hnext
        (forall_mem_cons.mpr ⟨hpid, h.events⟩)
    | reparent status i =>
      exact h.keep (Mem.proc_setProc s.mem i · _) (h.used i) (h.unused i) hnext h.events
    | zombie status =>
      have hpid := h.used p (hI.ne_unused_of_at hmv.before)
      exact h.keep (Mem.proc_setProc_lockProc s.mem c p · _) (fun _ => hpid) (by simp) hnext
        h.events
    | reap addr i hz =>
      refine h.keep (Mem.proc_setProc_unlockProc s.mem c i · _) (fun hne => absurd rfl hne)
        (fun _ => rfl) hnext (forall_mem_cons.mpr ⟨h.used i ?_, h.events⟩)
      simp [hz]

omit [DecidableEq Lk] [DecidableEq Ch] in
theorem Pids.init (d : D) : Pids (Sys.init d : Sys κ Lk Ch D L) := by
  refine ⟨rfl, ?_, ?_, fun _ he => absurd he not_mem_nil⟩
  · intro q hq
    by_cases h0 : q = initproc
    · exact if_pos h0
    · exact absurd (if_neg h0) hq
  · intro q hq
    refine if_neg fun h0 => ?_
    simp [Sys.init, h0] at hq

theorem pids_of_run [DecidableEq κ] {d : D} {acts : List (κ × Act Ch X L)}
    (hrun : run K n (Sys.init d) acts = some s) : Pids s :=
  (run_induction (P := fun s => Pids s ∧ Inv K s)
    (fun _ _ _ h heff => ⟨h.1.step h.2 heff, h.2.step heff⟩) ⟨Pids.init d, Inv.init d⟩ hrun).1

omit [DecidableEq Lk] [DecidableEq Ch] in
/-- Fewer than 2^31 births leave the pids positive and distinct. -/
theorem Pids.ok (h : Pids s) (hH : History s) (hb : s.mem.born < 2 ^ 31) : PidsOk s := by
  have hpos : ∀ {b}, b < s.mem.born → 0 < (pidOf b).toInt := by
    intro b hlt
    rw [pidOf, BitVec.toInt_ofNat', Int.bmod_eq_of_le] <;> omega
  have hinj : ∀ {b b'}, b < s.mem.born → b' < s.mem.born → pidOf b = pidOf b' → b = b' := by
    intro b b' hlt hlt' heq
    have heq := congrArg BitVec.toNat heq
    simp only [pidOf, BitVec.toNat_ofNat] at heq
    omega
  refine ⟨?_, ?_, ?_⟩
  · intro q r hq hr heq
    rw [h.used q hq, h.used r hr] at heq
    exact hH.birthUniq q r hq hr (hinj (hH.birth q) (hH.birth r) heq)
  · intro q hq
    rw [h.used q hq]
    exact hpos (hH.birth q)
  · intro child pid parent hfork
    obtain rfl : pid = pidOf child := h.events _ hfork
    have hlt := (hH.before _ hfork).1
    refine ⟨hpos hlt, ?_, ?_⟩
    · intro q hq
      have hs : (s.mem.proc q).state ≠ .unused := by
        intro hs
        have hzero := hpos hlt
        rw [← hq, h.unused q hs] at hzero
        cases hzero
      rw [h.used q hs] at hq
      exact ⟨hs, hinj (hH.birth q) hlt hq⟩
    · intro caller who addr stored hreap
      exact hinj (hH.before _ hreap).2 hlt (h.events _ hreap).symm

/-! ## A process that forks without memory -/

/-- `init` runs in user space on CPU `c`, and the next slot is unused. -/
structure Looping (c : κ) (s : Sys κ Lk Ch D L) : Prop where
  code : (s.cpu c).code = .thread 0 .user
  lock : (s.mem.proc 0).lock = none
  state : (s.mem.proc 0).state = .running
  free : (s.mem.proc 1).lock = none
  unused : (s.mem.proc 1).state = .unused

variable [DecidableEq κ]

theorem Looping.boot (K : Client Lk Ch D X L) (d : D) (c : κ) :
    ∃ s, (∀ acts, run K NPROC (Sys.init d) ((c, .run) :: (c, .run) :: acts) = run K NPROC s acts) ∧
      Looping c s ∧ s.mem.born = 1 := by
  have hlt : ¬ NPROC ≤ 0 := by decide
  simp only [run, step, schedulerScan, threadStep, Sys.init, initproc, hlt, Mem.lockProc,
    Mem.setProc, Function.update_self, if_true, if_false]
  refine ⟨_, fun _ => rfl, ?_, rfl⟩
  constructor <;> simp [Sys.go, Mem.unlockProc, Mem.setProc]

/-- `kfork` as far as `allocproc`, and its failure. -/
theorem Looping.fork (h : Looping c s) :
    ∃ t, (∀ acts, run K NPROC s ((c, .fork) :: (c, .run) :: (c, .run) :: acts) =
        run K NPROC t acts) ∧
      t.mem = s.mem.allocproc c 1 ∧ ∃ u, step K NPROC t c (.outcome false) = some u ∧
        Looping c u ∧ u.mem.born = s.mem.born + 1 := by
  have hlt : ¬ NPROC ≤ 0 ∧ ¬ NPROC ≤ 1 := by decide
  refine ⟨s.go c 0 (.fork (.init 1)) (s.mem.allocproc c 1), ?_, rfl,
    s.go c 0 .user (((s.mem.allocproc c 1).freeproc 1).unlockProc c 1), ?_, ?_, rfl⟩
  · intro acts
    simp [run, step, threadStep, userStep, forkStep, Sys.go, h.code, h.lock, h.state, h.free,
      h.unused, hlt]
  · simp [step, threadStep, forkStep, Act.ok, Sys.go, Mem.allocproc, Mem.lockProc, Mem.setProc]
  · constructor <;> simp [Sys.go, Mem.allocproc, Mem.freeproc, Mem.lockProc, Mem.unlockProc,
      Mem.setProc, h.lock, h.state]

theorem Looping.forks (h : Looping c s) (k : Nat) :
    ∃ acts t, (∀ rest, run K NPROC s (acts ++ rest) = run K NPROC t rest) ∧ Looping c t ∧
      t.mem.born = s.mem.born + k := by
  induction k generalizing s with
  | zero => exact ⟨[], s, fun _ => rfl, h, rfl⟩
  | succ k ih =>
    obtain ⟨t, ht, -, u, hstep, hu, hborn⟩ := h.fork
    obtain ⟨acts, v, hv, hloop, hk⟩ := ih hu
    refine ⟨(c, .fork) :: (c, .run) :: (c, .run) :: (c, .outcome false) :: acts, v, ?_, hloop,
      by omega⟩
    intro rest
    rw [← hv rest]
    refine (ht _).trans ?_
    show run K NPROC t ((c, .outcome false) :: (acts ++ rest)) = _
    simp only [run, hstep]

/-- The process with the last of 2^31 births has a negative pid. -/
theorem exists_negative (K : Client Lk Ch D X L) (d : D) (c : κ) :
    ∃ acts, ∃ s : Sys κ Lk Ch D L, run K NPROC (Sys.init d) acts = some s ∧
      s.mem.born = 2 ^ 31 ∧ ¬ PidsOk s := by
  obtain ⟨s, hs, hloop, hborn⟩ := Looping.boot K d c
  obtain ⟨acts, t, ht, hloop, hk⟩ := hloop.forks (2 ^ 31 - 2)
  obtain ⟨u, hu, hm, -⟩ := hloop.fork
  refine ⟨_, u, (hs _).trans ((ht _).trans (hu [])), ?_, ?_⟩
  · rw [hm]
    show t.mem.born + 1 = _
    omega
  · intro hok
    have hnext := (pids_of_run ((hs _).trans (ht []))).next
    have hpos := hok.pos 1
    rw [hm] at hpos
    have hpos : 0 < t.mem.nextpid.toInt := hpos nofun
    rw [hnext, hk, hborn] at hpos
    exact absurd hpos (by decide)

/-- The pids identify the processes in all runs with at most `N` births if and only if these are
    fewer than 2^31. -/
theorem pids_identify (K : Client Lk Ch D X L) (d : D) (c : κ) (N : Nat) :
    (∀ acts, ∀ s : Sys κ Lk Ch D L, run K NPROC (Sys.init d) acts = some s → s.mem.born ≤ N →
      PidsOk s) ↔ N < 2 ^ 31 := by
  refine ⟨?_, ?_⟩
  · intro hok
    by_contra hN
    obtain ⟨acts, s, hrun, hborn, hbad⟩ := exists_negative K d c
    exact hbad (hok acts s hrun (by omega))
  · intro hN acts s hrun hborn
    exact (pids_of_run hrun).ok (familyInv_of_run hrun).history (by omega)

/-- A machine with one CPU, on which only `init` runs. -/
theorem pids_wrap : ∃ acts, ∃ s : Sys (Fin 1) Empty Empty Unit Empty,
    run Client.bare NPROC (Sys.init ()) acts = some s ∧ ¬ PidsOk s := by
  obtain ⟨acts, s, hrun, _, hbad⟩ := exists_negative Client.bare () (0 : Fin 1)
  exact ⟨acts, s, hrun, hbad⟩

end Xv6.Sched
