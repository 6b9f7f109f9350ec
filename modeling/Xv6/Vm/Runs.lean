/-
  Runs of the kernel.

  A run starts from a state at boot (`Boot`) with `userinit` and goes on with operations of any
  processes that can run (`Reach`); the first process loads `/init` before it returns to user space.
  Which calls of `kalloc` fail is part of the state at boot, so what holds of all runs holds for
  failures at any calls.  `Reach.inv`: the invariant of the system holds in every state of a run.
-/
import Xv6.Vm.Calls

namespace Xv6

open Lib.Prog Finset

/-! ## Runs -/

/-- The state before `userinit`: no process, no file, and every frame free but for the kernel's own
    stacks and page table. -/
structure Boot (c : Kernel) : Prop where
  procs : ∀ p, c.proc p = Proc.free fun _ => none
  files : ∀ f, c.file f = { ref := 0, type := .none }
  frames : c.bootFrames + ↑c.mach.freelist = allFrames c.mach.kend

/-- The states between operations.  After `init` the first process runs the program it loaded in
    `forkret`. -/
inductive Reach (c : Kernel) : Kernel → Prop
  | boot {k : Kernel} : userinit.run c = .done () k → Reach c k
  | init {k k' : Kernel} (img : Image) (data : Nat → (Nat → Nat) → Nat → Nat) :
      userinit.run c = .done () k → (forkret k.initproc img data).run k = .done () k' → Reach c k'
  | step {k k' : Kernel} {p : Nat} (op : Op) : Reach c k → k.CanRun p →
      (op.prog p).run k = .done () k' → Reach c k'

section runs

variable {c k k' : Kernel}

theorem Boot.sys (h : Boot c) : Sys c c (refCount c.proc) 0 := by
  have hrefs : ∀ f, refCount c.proc f = 0 := by
    intro f
    refine sum_eq_zero fun p _ => sum_eq_zero fun fd _ => ?_
    rw [h.procs p]
    exact if_neg (by simp [Proc.free])
  have hpipes : pipeSet c.file = ∅ := by
    rw [eq_empty_iff_forall_notMem]
    intro pg hpg
    obtain ⟨f, w, _, ht⟩ := mem_pipeSet.mp hpg
    rw [h.files f] at ht
    cases ht
  have hprocs : ∑ p ∈ procSlots, procFrames c.mach.mem (c.proc p) = 0 := by
    refine sum_eq_zero fun p _ => ?_
    rw [h.procs p]
    rfl
  refine ⟨?_, fun p _ => .free (h.procs p), ⟨?_, ?_, ?_, ?_⟩, rfl, rfl, rfl, rfl⟩
  · unfold Kernel.owned
    rw [hprocs, hpipes, ← h.frames]
    simp
  · intro f _
    rw [h.files f, hrefs f]
  · intro f _ _
    rw [h.files f]
  · intro f g pg w _ _ ht
    rw [h.files f] at ht
    cases ht
  · intro pg hpg
    rw [hpipes] at hpg
    exact absurd hpg (notMem_empty pg)

/-- `userinit` can only fail to find memory, and then stops. -/
theorem wp_userinit (h : Boot c) :
    wp (Crit.only .nullPte) (fun _ k => KInv c k ∧ k.CanRun k.initproc) userinit c := by
  have hsys := h.sys
  unfold userinit
  rw [wp_bind]
  refine wp_of_total ?_ fun _ => trivial
  refine wp_allocproc hsys ?_ ?_
  · intro t _
    exact rfl
  intro np tf r t T hnp hfree m hrep hsp _
  have hboot : KInv c c := by
    refine ⟨hsys, ?_, ?_, ?_⟩
    · intro q fd f _ hf
      rw [h.procs q] at hf
      cases hf
    · intro q _ _
      rw [h.procs q]
      rfl
    · intro q _
      rw [h.procs q]
      exact ProcState.noConfusion
  have hnew : KInv c (c.put np t { freshProc tf r with state := .runnable }) := by
    refine hboot.of_update rfl ?_ nofun nofun ProcState.noConfusion
    show Sys c _ (refCount (Function.update c.proc np _)) 0
    rw [refCount_update]
    · refine hsys.step hnp ?_ (.live ProcState.noConfusion rfl rfl hrep (m.trampoline ▸ hsp))
      rw [hfree, procFrames_live rfl rfl hrep]
      exact m
    · rw [hfree]
      rfl
  -- what is left writes `initproc` and the state of the process
  have hlast : ({ c.put np t (freshProc tf r) with initproc := np } : Kernel).setProc np
      { (c.put np t (freshProc tf r)).proc np with state := .runnable } =
      { c.put np t { freshProc tf r with state := .runnable } with initproc := np } := by
    unfold Kernel.put Kernel.setProc
    dsimp only
    rw [Function.update_self, Function.update_idem]
  refine ⟨trivial, trivial, ?_⟩
  refine Eq.mpr (congrArg (fun k => KInv c k ∧ k.CanRun k.initproc) hlast) ⟨?_, hnp, ?_⟩
  · exact ⟨⟨hnew.sys.frames, hnew.sys.procs, hnew.sys.files, hnew.sys.kend, hnew.sys.trampoline,
      hnew.sys.kstack, hnew.sys.kpages⟩, hnew.ofile, hnew.zombie, hnew.ready⟩
  · show (Function.update c.proc np _ np).state = .runnable
    rw [Function.update_self]

/-- The invariant holds in every state of a run. -/
theorem Reach.inv (hb : Boot c) (hr : Reach c k) : KInv c k := by
  induction hr with
  | boot hrun =>
    have h := wp_run_done (wp_userinit hb) hrun
    exact h.1
  | init img data hboot hrun =>
    obtain ⟨h, hp⟩ := wp_run_done (wp_userinit hb) hboot
    have h' := wp_run_done (wp_forkret h hp) hrun
    exact h'
  | step op _ hp hrun ih =>
    have h := wp_run_done (wp_prog op ih hp) hrun
    exact h

/-! ## Runs that are computed -/

/-- The state after a program that returns. -/
def Kernel.after (k : Kernel) (prog : KernelM Unit) : Option Kernel :=
  (prog.result k).map Prod.snd

theorem run_of_after {prog : KernelM Unit} (h : k.after prog = some k') :
    prog.run k = .done () k' := by
  obtain ⟨⟨_, t⟩, hres, rfl⟩ := Option.map_eq_some_iff.mp h
  exact run_of_result hres

/-- Boot, up to where the first process returns to user space. -/
def Kernel.init (c : Kernel) (img : Image) : Option Kernel :=
  (c.after userinit).bind fun k => k.after (forkret k.initproc img fun _ page => page)

theorem reach_init {img : Image} (h : c.init img = some k) : Reach c k := by
  obtain ⟨k0, h0, h⟩ := Option.bind_eq_some_iff.mp h
  exact .init img _ (run_of_after h0) (run_of_after h)

/-- An operation of the first process. -/
def Kernel.does (k : Kernel) (op : Op) : Option Kernel :=
  if k.CanRun 0 then k.after (op.prog 0) else none

theorem run_of_does {op : Op} (h : k.does op = some k') :
    k.CanRun 0 ∧ (op.prog 0).run k = .done () k' := by
  unfold Kernel.does at h
  split at h
  · rename_i hp
    exact ⟨hp, run_of_after h⟩
  · cases h

theorem Reach.does {op : Op} (hr : Reach c k) (h : k.does op = some k') : Reach c k' := by
  obtain ⟨hp, hrun⟩ := run_of_does h
  exact hr.step op hp hrun

end runs

/-! ## A small machine -/

/-- A machine with 96 page frames after the kernel: 64 stacks and 32 free frames. -/
def smallBoot : Kernel where
  mach := { kend := PHYSTOP - 96 * PGSIZE, trampoline := KERNBASE + PGSIZE, mem := fun _ _ => 0,
            freelist := (List.range 32).map fun i => PHYSTOP - 96 * PGSIZE + i * PGSIZE, fails := [] }
  proc := fun _ => Proc.free fun _ => none
  file := fun _ => { ref := 0, type := .none }
  pipe := fun _ => { readopen := false, writeopen := false }
  kstack := fun p => PHYSTOP - 64 * PGSIZE + p * PGSIZE
  kpages := []
  initproc := 0

theorem smallBoot_boot : Boot smallBoot := by
  refine ⟨fun _ => rfl, fun _ => rfl, ?_⟩
  decide +kernel

/-- A program of one page at address 0, with the number of each word in it. -/
def smallImage : Image where
  found := true
  headerOk := true
  entry := 0
  phdrs := [{ readOk := true, isLoad := true, flags := 5, vaddr := 0, filesz := 4096, memsz := 4096,
              pageOk := fun _ => true, page := fun _ _ i => i }]

/-- The first process has its program, a guard page and a stack. -/
theorem smallInit_spec : ∃ k, smallBoot.init smallImage = some k ∧ Reach smallBoot k ∧
    k.CanRun 0 ∧ (k.proc 0).sz = 12288 := by
  have hrun : (smallBoot.init smallImage).any
      (fun k => decide (k.CanRun 0 ∧ (k.proc 0).sz = 12288)) = true := by decide +kernel
  obtain ⟨k, hk, hspec⟩ := (Option.any_eq_true _ _).mp hrun
  exact ⟨k, hk, reach_init hk, of_decide_eq_true hspec⟩

/-- The first process after it has grown by a page that it has not touched. -/
def smallLazy : Option Kernel :=
  (smallBoot.init smallImage).bind fun k => k.does (.sbrk 4096 false)

theorem smallLazy_spec : ∃ k k1, smallBoot.init smallImage = some k ∧
    k.does (.sbrk 4096 false) = some k1 ∧ smallLazy = some k1 ∧ Reach smallBoot k1 ∧
    k1.CanRun 0 ∧ (k1.proc 0).sz = 16384 := by
  have hrun : smallLazy.any (fun k => decide (k.CanRun 0 ∧ (k.proc 0).sz = 16384)) = true := by
    decide +kernel
  obtain ⟨k1, hk1, hspec⟩ := (Option.any_eq_true _ _).mp hrun
  obtain ⟨k, hk, hdoes⟩ := Option.bind_eq_some_iff.mp hk1
  exact ⟨k, k1, hk, hdoes, hk1, (reach_init hk).does hdoes, of_decide_eq_true hspec⟩

end Xv6
