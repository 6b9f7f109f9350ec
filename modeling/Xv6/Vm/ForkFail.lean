/-
  A `fork` that fails (`kernel/proc.c`).

  `kforkSys` runs on the kernel with the rest of the process table, the inode references and the
  locks (`Xv6.Vm.Rest`).  `fork_failure`: without an unused slot, or with a `kalloc` that fails on
  the way, it returns -1, and then the kernel, the free pages, the references and the locks are
  what they were; only a pid has been used up (`ForkFailed`).
-/
import Xv6.Vm.Rest
import Xv6.Vm.Grants
import Xv6.Vm.Runs

namespace Xv6

open Function
open Lib.Prog hiding update

/-! ## The rest of the state -/

/-- Only the fields of the slot that was tried have changed, and perhaps `nextpid`. -/
structure Untouched (k : Kernel) (x x' : Rest) : Prop where
  same : x' = { x with nextpid := x'.nextpid, proc := x'.proc }
  others : ∀ q, k.unusedSlot ≠ some q → x'.proc q = x.proc q
  cleared : ∀ q, k.unusedSlot = some q → x'.proc q = (x'.proc q).freed
  cwd : ∀ q, (x'.proc q).cwd = (x.proc q).cwd
  nextpid : x'.nextpid = x.nextpid ∨ x'.nextpid = x.nextpid + 1

/-- While a child is made in slot `np`: its lock is held, and its fields are `pr`. -/
def Rest.trying (x : Rest) (np : Nat) (pr : ProcRest) : Rest :=
  { x with
    nextpid := x.nextpid + 1
    proc := update x.proc np pr
    spin := .proc np :: x.spin }

section rest

variable {k k₀ : Kernel} {x : Rest} {p np : Nat} {pr : ProcRest}

theorem Untouched.refl (h : k.unusedSlot = none) : Untouched k x x where
  same := rfl
  others _ _ := rfl
  cleared q hq := by
    rw [h] at hq
    cases hq
  cwd _ := rfl
  nextpid := Or.inl rfl

theorem trying_setProc (f : ProcRest → ProcRest) :
    (x.trying np pr).setProc np (f ((x.trying np pr).proc np)) = x.trying np (f pr) := by
  unfold Rest.trying Rest.setProc
  simp only [update_self, update_idem]

/-- The end of an error path. -/
theorem untouched_giveUp (hnp : k₀.unusedSlot = some np) (hcwd : pr.cwd = (x.proc np).cwd) :
    wp Crit.partialC (fun o y => o = none ∧ Untouched k₀ x y.2)
      (do freeprocSys np; release (.proc np); pure (none : Option Nat)) (k, x.trying np pr) := by
  rw [wp_bind]
  refine wp_rest _ fun _ k' => ⟨trivial, trivial, rfl, ?_⟩
  show Untouched k₀ x { (x.trying np pr).setProc np ((x.trying np pr).proc np).freed with
    spin := (SpinLock.proc np :: x.spin).erase (SpinLock.proc np) }
  rw [trying_setProc, List.erase_cons_head]
  have hother : ∀ q, k₀.unusedSlot ≠ some q → q ≠ np := fun q hq heq => hq (heq ▸ hnp)
  refine ⟨rfl, fun q hq => update_of_ne (hother q hq) _ _, ?_, ?_, Or.inr rfl⟩
  · intro q hq
    cases hnp.symm.trans hq
    show update x.proc np pr.freed np = (update x.proc np pr.freed np).freed
    rw [update_self]
    rfl
  · intro q
    show (update x.proc np pr.freed q).cwd = _
    rcases eq_or_ne q np with rfl | hne
    · rw [update_self]
      exact hcwd
    · rw [update_of_ne hne]

theorem rest_allocproc : wp Crit.partialC (fun o y => match o with
    | none => Untouched k x y.2
    | some np => k.unusedSlot = some np ∧ ∃ pr, pr.cwd = (x.proc np).cwd ∧ y.2 = x.trying np pr)
    allocprocSys (k, x) := by
  have hfind : wp Crit.partialC (fun o y => o = k.unusedSlot ∧
      y = (k, { x with spin := o.toList.map SpinLock.proc ++ x.spin })) (findUnused NPROC 0) (k, x) := by
    refine wp_of_total (wp_findUnused NPROC ?_) fun _ => trivial
    rintro o rfl
    exact ⟨rfl, rfl⟩
  refine wp_seq hfind ?_
  rintro found _ ⟨hfound, rfl⟩
  cases found with
  | none => exact Untouched.refl hfound.symm
  | some np =>
    -- `allocpid`, and the pid of the slot
    refine (wp_bind _ _).mpr ⟨trivial, trivial, trivial, trivial, (wp_bind _ _).mpr ⟨trivial, ?_⟩⟩
    show wp _ _ _ (k, x.trying np { x.proc np with pid := x.nextpid })
    have hcwd : { x.proc np with pid := x.nextpid }.cwd = (x.proc np).cwd := rfl
    generalize { x.proc np with pid := x.nextpid } = pr at hcwd
    refine wp_rest _ fun _ k1 => wp_rest _ fun tf k2 => wp_rest _ fun _ k3 => ?_
    cases tf with
    | none =>
      refine wp_mono (untouched_giveUp hfound.symm hcwd) ?_
      rintro _ y ⟨rfl, hu⟩
      exact hu
    | some tf =>
      refine wp_rest _ fun r k4 => wp_rest _ fun _ k5 => ?_
      cases r with
      | none =>
        refine wp_mono (untouched_giveUp hfound.symm hcwd) ?_
        rintro _ y ⟨rfl, hu⟩
        exact hu
      | some r =>
        refine (wp_bind _ _).mpr ⟨trivial, wp_rest _ fun kstack k6 => (wp_bind _ _).mpr ⟨trivial, ?_⟩⟩
        exact ⟨hfound.symm, { pr with ra := x.forkret, sp := kstack + PGSIZE }, hcwd,
          trying_setProc fun pr => { pr with ra := x.forkret, sp := kstack + PGSIZE }⟩

/-- In every run of `kfork` that fails. -/
theorem rest_kfork (p : Nat) :
    wp Crit.partialC (fun o y => o = none → Untouched k x y.2) (kforkSys p) (k, x) := by
  refine wp_seq rest_allocproc ?_
  rintro o ⟨k', x'⟩ hy
  cases o with
  | none => exact fun _ => hy
  | some np =>
    obtain ⟨hnp, pr, hcwd, rfl⟩ := hy
    refine wp_rest _ fun q k1 => wp_rest _ fun nq k2 => ?_
    split
    · refine wp_rest _ fun b k3 => ?_
      cases b with
      | true =>
        refine wp_rest _ fun _ _ => wp_rest _ fun _ _ => wp_rest _ fun _ _ => ?_
        refine ⟨trivial, trivial, trivial, trivial, trivial, wp_rest _ fun _ _ => ?_⟩
        refine ⟨trivial, trivial, wp_rest _ fun _ _ => ⟨trivial, fun hnone => ?_⟩⟩
        cases hnone
      | false => exact wp_mono (untouched_giveUp hnp hcwd) fun _ _ hu _ => hu.2
    · trivial

end rest

/-! ## Failure -/

structure ForkFailed (k : Kernel) (x : Rest) (k' : Kernel) (x' : Rest) : Prop where
  /-- Nothing but memory, and so no slot and no file, differs. -/
  kernel : k' = { k with mach := k'.mach }
  slot : ∀ q, k.unusedSlot = some q → k'.proc q = Proc.free fun _ => none
  free : (k'.mach.freelist : Multiset Nat) = k.mach.freelist
  frames : ∀ f, f ∉ k.mach.freelist → k'.mach.mem f = k.mach.mem f
  rest : Untouched k x x'

/-- Without an unused slot, or with a `kalloc` that fails, `kfork` returns -1; and when it returns -1,
    the system is as it was. -/
theorem fork_failure {c k : Kernel} {p : Nat} (h : KInv c k) (hp : k.CanRun p) (x : Rest) :
    ∃ o k' x', (kforkSys p).run (k, x) = .done o (k', x') ∧ (kfork p).run k = .done o k' ∧
      (k.unusedSlot = none → o = none) ∧ (¬ Always GrantedK (kfork p) k → o = none) ∧
      (o = none → ForkFailed k x k' x') := by
  obtain ⟨r, tf, T, hpt, htf, hrep, hsp, -⟩ := h.live hp
  have hslot : ∀ q, k.unusedSlot = some q → k.proc q = Proc.free fun _ => none := by
    intro q hq
    have hlt : q < NPROC := List.mem_range.mp (List.mem_of_find?_eq_some hq)
    have hunused : (k.proc q).state = .unused := by simpa using List.find?_some hq
    cases h.sys.procs q hlt with
    | free hfree => exact hfree
    | live state _ _ _ _ => exact absurd hunused state
  have hk : wp Crit.total (fun o k' => (k.unusedSlot = none → o = none) ∧
      (o = none → k' = { k with mach := k'.mach } ∧ Moves k.mach 0 k'.mach 0)) (kfork p) k := by
    refine wp_kfork_seen h hp hpt htf hrep hsp ?_ ?_
    · intro t m _
      exact ⟨fun _ => rfl, fun _ => ⟨rfl, m⟩⟩
    · intro np nr ntf k' T' pr hnp _ _ _ _ _ _ _ _
      refine ⟨fun hnone => ?_, fun hnone => ?_⟩
      · rw [hnp] at hnone
        cases hnone
      · cases hnone
  obtain ⟨o, k', hkfork, hnone, hfail⟩ := wp_run_total hk
  have hsame : wp Crit.total (fun a t => a = o ∧ t = k') (kfork p) k := wp_of_run hkfork ⟨rfl, rfl⟩
  obtain ⟨o', ⟨k1, x'⟩, hrun, ⟨ho', hk1⟩, hrest⟩ :=
    wp_run_total (wp_total_and (extends_kfork p _ k x hsame) (rest_kfork p))
  rw [ho'] at hrun hrest
  rw [show k1 = k' from hk1] at hrun
  refine ⟨o, k', x', hrun, hkfork, hnone, ?_, ?_⟩
  · exact fun hG => by_contra fun ho => hG (grants_kfork p _ _ hkfork ho)
  · intro ho
    obtain ⟨hkernel, hm⟩ := hfail ho
    refine ⟨hkernel, ?_, ?_, ?_, hrest ho⟩
    · intro q hq
      rw [hkernel]
      exact hslot q hq
    · simpa using hm.frames
    · intro f hf
      exact hm.mem f (by simpa using hf)

/-- The small machine, where the third `kalloc` after boot fails. -/
def failingBoot : Kernel :=
  { smallBoot with mach := { smallBoot.mach with fails := List.replicate 14 false ++ [true] } }

theorem failingBoot_boot : Boot failingBoot :=
  ⟨smallBoot_boot.procs, smallBoot_boot.files, smallBoot_boot.frames⟩

/-- There is memory for a trapframe and a page table of one page, and no more. -/
theorem fork_failure_small : ∃ k, KInv failingBoot k ∧ k.CanRun 0 ∧ (k.proc 0).sz = 12288 ∧
    k.unusedSlot ≠ none ∧ ∃ k' x', (kforkSys 0).run (k, smallRest) = .done none (k', x') ∧
      ForkFailed k smallRest k' x' := by
  have hrun : (failingBoot.init smallImage).any (fun k =>
      decide (k.CanRun 0 ∧ (k.proc 0).sz = 12288 ∧ k.unusedSlot ≠ none) &&
        ((kfork 0).result k).any fun res => decide (res.1 = none)) = true := by decide +kernel
  obtain ⟨k, hk, hspec⟩ := (Option.any_eq_true _ _).mp hrun
  obtain ⟨hspec, hres⟩ := Bool.and_eq_true_iff.mp hspec
  obtain ⟨hc, hsz, hslot⟩ := of_decide_eq_true hspec
  obtain ⟨⟨o, t⟩, hres, ho⟩ := (Option.any_eq_true _ _).mp hres
  have hinv := (reach_init hk).inv failingBoot_boot
  obtain ⟨o', k', x', hdone, hkfork, -, -, hfail⟩ := fork_failure hinv hc smallRest
  have hsame := (run_of_result hres).symm.trans hkfork
  cases of_decide_eq_true ho
  cases hsame
  exact ⟨k, hinv, hc, hsz, hslot, t, x', hdone, hfail rfl⟩

end Xv6
