/-
  What `Xv6.Vm.Proc` leaves out of the kernel, beside it.

  `Rest` holds the other fields of the process table, the reference counts of the inode table, and
  what the running process holds: spinlocks, sleep-locks of inodes and file-system operations.
  `kforkSys` is `kfork` on both parts of the state; `Extends` says that it does to the kernel of
  `Xv6.Vm.Proc` what the shorter `kfork` does.
-/
import Xv6.Lib.Extend
import Xv6.Vm.Proc

namespace Xv6

open Lib Lib.Prog

/-! ## State -/

/-- The other fields of a `struct proc`. `name` is the string in the array, `ra` and `sp` are the
    saved context. -/
structure ProcRest where
  pid : Nat
  chan : Nat
  killed : Nat
  xstate : Int
  name : List Nat
  cwd : Option Nat
  ra : Nat
  sp : Nat

inductive SpinLock where
  | proc (p : Nat)
  | pid
  | wait
  deriving DecidableEq, Repr

/-- `iref` are the counts of the inode table. `spin` and `sleep` are the locks that the process
    holds, `ops` counts the calls of `begin_op` without their `end_op`; `forkret` is the address of
    that function. -/
structure Rest where
  nextpid : Nat
  proc : Nat → ProcRest
  iref : Nat → Nat
  spin : List SpinLock
  sleep : List Nat
  ops : Nat
  forkret : Nat

/-- Nothing is held, and nothing is referenced. -/
def smallRest : Rest where
  nextpid := 1
  proc := fun _ => ⟨0, 0, 0, 0, [], none, 0, 0⟩
  iref := fun _ => 0
  spin := []
  sleep := []
  ops := 0
  forkret := 0

abbrev SysM := Prog VmPanic (Kernel × Rest)

def acquire (l : SpinLock) : SysM Unit := side fun x => { x with spin := l :: x.spin }

def release (l : SpinLock) : SysM Unit := side fun x => { x with spin := x.spin.erase l }

def Rest.setProc (x : Rest) (p : Nat) (pr : ProcRest) : Rest :=
  { x with proc := Function.update x.proc p pr }

def modifyRest (p : Nat) (f : ProcRest → ProcRest) : SysM Unit :=
  side fun x => x.setProc p (f (x.proc p))

def Rest.setRef (x : Rest) (ip n : Nat) : Rest := { x with iref := Function.update x.iref ip n }

/-! ## `fork` -/

def allocpid : SysM Nat := do
  acquire .pid
  let pid ← sideLook Rest.nextpid
  side fun x => { x with nextpid := pid + 1 }
  release .pid
  pure pid

/-- The loop of `allocproc` over the remaining `n` slots from `p` on: the unused slot, with its
    lock held. -/
def findUnused : Nat → Nat → SysM (Option Nat)
  | 0, _ => pure none
  | n + 1, p => do
    acquire (.proc p)
    let pr ← base (getProc p)
    if pr.state = .unused then pure (some p)
    else do
      release (.proc p)
      findUnused n (p + 1)

/-- What `freeproc` does to the other fields. -/
def ProcRest.freed (pr : ProcRest) : ProcRest :=
  { pr with pid := 0, name := [], chan := 0, killed := 0, xstate := 0 }

def freeprocSys (p : Nat) : SysM Unit := do
  base (freeproc p)
  modifyRest p ProcRest.freed

def allocprocSys : SysM (Option Nat) := do
  match ← findUnused NPROC 0 with
  | none => pure none
  | some p => do
    let pid ← allocpid
    modifyRest p fun pr => { pr with pid := pid }
    base (modifyProc p fun pr => { pr with state := .used })
    let tf ← base (onMach kalloc)
    base (modifyProc p fun pr => { pr with trapframe := tf })
    match tf with
    | none => do
      freeprocSys p
      release (.proc p)
      pure none
    | some tf => do
      let pagetable ← base (onMach (procPagetable tf))
      base (modifyProc p fun pr => { pr with pagetable := pagetable })
      match pagetable with
      | none => do
        freeprocSys p
        release (.proc p)
        pure none
      | some _ => do
        let forkret ← sideLook Rest.forkret
        let kstack ← base (look fun k => k.kstack p)
        modifyRest p fun pr => { pr with ra := forkret, sp := kstack + PGSIZE }
        pure (some p)

/-- `np->cwd = idup(p->cwd)`. -/
def idupCwd (p np : Nat) : SysM Unit := side fun x =>
  let cwd := (x.proc p).cwd
  let x := match cwd with
    | none => x
    | some ip => x.setRef ip (x.iref ip + 1)
  x.setProc np { x.proc np with cwd := cwd }

/-- The child stands for its pid. -/
def kforkSys (p : Nat) : SysM (Option Nat) := do
  match ← allocprocSys with
  | none => pure none
  | some np => do
    let pr ← base (getProc p)
    let npr ← base (getProc np)
    match pr.pagetable, npr.pagetable, pr.trapframe, npr.trapframe with
    | some old, some new, some tf, some ntf =>
      if ← base (onMach (uvmcopy old new pr.sz)) then do
        base (modifyProc np fun q => { q with sz := pr.sz, guard := pr.guard })
        base (onMach (copyTrapframe ntf tf))
        base (upto NOFILE (dupOfile p np))
        idupCwd p np
        let name ← sideLook fun x => (x.proc p).name
        modifyRest np fun q => { q with name := name }
        release (.proc np)
        acquire .wait
        base (modifyProc np fun q => { q with parent := some p })
        release .wait
        acquire (.proc np)
        base (modifyProc np fun q => { q with state := .runnable })
        release (.proc np)
        pure (some np)
      else do
        freeprocSys np
        release (.proc np)
        pure none
    | _, _, _, _ => base (panic .nullPte)

/-! ## The kernel's part -/

theorem find_range' {p : Nat → Bool} : ∀ (n a : Nat), (List.range' a (n + 1)).find? p =
    if p a then some a else (List.range' (a + 1) n).find? p := by
  intro n a
  rw [List.range'_succ, List.find?_cons]
  cases p a with
  | true => rfl
  | false => rfl

/-- The search ends at the first unused slot and leaves only its lock held. -/
theorem wp_findUnused {k : Kernel} : ∀ (n : Nat) {p : Nat} {x : Rest} {Q : Option Nat → Kernel × Rest → Prop},
    (∀ o, o = (List.range' p n).find? (fun q => decide ((k.proc q).state = .unused)) →
      Q o (k, { x with spin := o.toList.map SpinLock.proc ++ x.spin })) →
    wp Crit.total Q (findUnused n p) (k, x)
  | 0, p, x, Q, hQ => hQ none rfl
  | n + 1, p, x, Q, hQ => by
    rw [find_range'] at hQ
    unfold findUnused
    refine (wp_bind _ _).mpr ⟨trivial, (wp_bind _ _).mpr (wp_base_total.mpr ⟨trivial, ?_⟩)⟩
    rw [wp_ret]
    by_cases h : (k.proc p).state = .unused
    · rw [if_pos h]
      rw [if_pos (decide_eq_true h)] at hQ
      exact hQ (some p) rfl
    · rw [if_neg h]
      rw [if_neg (by rw [decide_eq_true_iff]; exact h)] at hQ
      refine (wp_bind _ _).mpr ⟨trivial, ?_⟩
      refine wp_findUnused n ?_
      intro o ho
      have hQ' := hQ o ho
      show Q o (k, { x with spin := _ ++ (SpinLock.proc p :: x.spin).erase (SpinLock.proc p) })
      rw [List.erase_cons_head]
      exact hQ'

theorem extends_findUnused : Extends (findUnused NPROC 0)
    (look fun k => (List.range NPROC).find? fun p => (k.proc p).state = .unused) := by
  intro Q k x hw
  refine wp_findUnused NPROC ?_
  rintro o rfl
  exact hw.2

theorem extends_freeproc (p : Nat) : Extends (freeprocSys p) (freeproc p) := by
  intro Q k x hw
  refine wp_seq (Extends.base _ _ k x hw) ?_
  rintro _ ⟨k', x'⟩ hQ
  exact ⟨trivial, hQ⟩

/-- The end of an error path of `allocproc` and `kfork`. -/
theorem extends_giveUp (p : Nat) :
    Extends (do freeprocSys p; release (.proc p); pure (none : Option Nat))
      (do freeproc p; pure none) :=
  (extends_freeproc p).bind fun _ => Extends.side (Extends.pure none)

theorem extends_allocproc : Extends allocprocSys allocproc := by
  unfold allocprocSys allocproc
  refine extends_findUnused.bind fun found => ?_
  cases found with
  | none => exact Extends.pure none
  | some p =>
    have hpid : ∀ {α : Type} {g : Nat → SysM α} {q : KernelM α}, (∀ pid, Extends (g pid) q) →
        Extends (allocpid >>= g) q := by
      intro α g q hg Q k x hw
      exact (wp_bind _ _).mpr ⟨trivial, trivial, trivial, trivial, hg _ Q k _ hw⟩
    refine hpid fun pid => Extends.side ((Extends.base _).bind fun _ => ?_)
    refine (Extends.base _).bind fun tf => (Extends.base _).bind fun _ => ?_
    cases tf with
    | none => exact extends_giveUp p
    | some tf =>
      refine (Extends.base _).bind fun r => (Extends.base _).bind fun _ => ?_
      cases r with
      | none => exact extends_giveUp p
      | some r =>
        refine Extends.sideLook fun _ => ?_
        intro Q k x hw
        refine (wp_bind _ _).mpr (wp_base_total.mpr ⟨trivial, ?_⟩)
        exact (wp_bind _ _).mpr ⟨trivial, hw⟩

theorem extends_kfork (p : Nat) : Extends (kforkSys p) (kfork p) := by
  unfold kforkSys kfork
  refine extends_allocproc.bind fun o => ?_
  cases o with
  | none => exact Extends.pure none
  | some np =>
    refine (Extends.base _).bind fun pr => (Extends.base _).bind fun npr => ?_
    generalize pr.pagetable = old, npr.pagetable = new, pr.trapframe = tf, npr.trapframe = ntf
    rcases old with _ | old <;> rcases new with _ | new <;> rcases tf with _ | tf <;>
      rcases ntf with _ | ntf <;> try exact Extends.base _
    refine (Extends.base _).bind fun b => ?_
    cases b with
    | true =>
      refine (Extends.base _).bind fun _ => (Extends.base _).bind fun _ =>
        (Extends.base _).bind fun _ => ?_
      refine Extends.side (Extends.sideLook fun _ => Extends.side (Extends.side (Extends.side ?_)))
      refine (Extends.base _).bind fun _ => Extends.side (Extends.side ?_)
      exact (Extends.base _).bind fun _ => Extends.side (Extends.pure _)
    | false => exact extends_giveUp np

end Xv6
