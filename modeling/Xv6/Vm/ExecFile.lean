/-
  `exec` of a file (`kernel/exec.c` and `sys_exec`).

  A file is its bytes, whatever they are; `ExecFile.image` is what `kexec` reads of it as an ELF
  file.  `kexecSys` and `sysExecSys` run on the kernel with the rest of the state (`Xv6.Vm.Rest`):
  the name of the process, the reference to the inode, its lock and the file-system operation.

  `exec_returns`: no file makes `exec` panic or loop.  `exec_failure`: when it fails, the rest of
  the state is what it was, and so is the kernel but for pages that were faulted in.
-/
import Xv6.Bio.Model
import Xv6.Vm.Access
import Xv6.Vm.Runs
import Xv6.Vm.Rest

namespace Xv6

open Lib Lib.Prog

/-! ## Files -/

abbrev ELF_MAGIC : Nat := 0x464C457F

/-- The bytes of a file. `missing` are the blocks for which `bmap` finds none: holes, when the disk
    is full. -/
structure ExecFile where
  bytes : List UInt8
  missing : Nat → Bool

/-- The number in `n` bytes from `i` on, the lowest first. -/
def field (bytes : List UInt8) (i n : Nat) : Nat :=
  ((bytes.drop i).take n).foldr (fun b v => b.toNat + 256 * v) 0

namespace ExecFile

/-- `readi` to kernel memory: what is read. `off` and `n` are of type `uint`. -/
def readi (f : ExecFile) (off n : Nat) : List UInt8 :=
  if f.bytes.length < off ∨ (off + n) % 2 ^ 32 < off then []
  else
    let bytes := (f.bytes.drop off).take n
    match (List.range bytes.length).find? fun i => f.missing ((off + i) / BSIZE) with
    | none => bytes
    | some i => bytes.take i

/-- The program header at `off`, and its segment. -/
def phdr (f : ExecFile) (off : Nat) : Phdr :=
  let ph := f.readi off 56
  let n := fun i => min PGSIZE (field ph 32 8 % 2 ^ 32 - i * PGSIZE)
  let page := fun i => f.readi ((field ph 8 8 + i * PGSIZE) % 2 ^ 32) (n i)
  { readOk := ph.length = 56
    isLoad := field ph 0 4 = 1
    flags := field ph 4 4
    vaddr := BitVec.ofNat 64 (field ph 16 8)
    filesz := BitVec.ofNat 64 (field ph 32 8)
    memsz := BitVec.ofNat 64 (field ph 40 8)
    pageOk := fun i => (page i).length = n i
    page := fun i old => setBytes old 0 ((page i).map UInt8.toNat) }

/-- The ELF header, and the program headers. The offset of a header is an `int`. -/
def image (f : ExecFile) : Image :=
  let elf := f.readi 0 64
  { found := true
    headerOk := elf.length = 64 ∧ field elf 0 4 = ELF_MAGIC
    entry := field elf 24 8
    phdrs := (List.range (field elf 56 2)).map fun i =>
      f.phdr ((field elf 32 8 + 56 * i) % 2 ^ 32) }

end ExecFile

/-- What `namei` finds for `kexec`: an inode and its file. -/
def imageOf : Option (Nat × ExecFile) → Image
  | none => ⟨false, false, 0, []⟩
  | some (_, f) => f.image

/-! ## `kexec` with the rest of the state -/

namespace Rest

def beginOp (x : Rest) : Rest := { x with ops := x.ops + 1 }

def endOp (x : Rest) : Rest := { x with ops := x.ops - 1 }

/-- A new reference to an inode, as `namei` returns it. -/
def idup (ip : Nat) (x : Rest) : Rest := x.setRef ip (x.iref ip + 1)

def ilock (ip : Nat) (x : Rest) : Rest := { x with sleep := ip :: x.sleep }

def iunlockput (ip : Nat) (x : Rest) : Rest :=
  { x with sleep := x.sleep.erase ip }.setRef ip (x.iref ip - 1)

end Rest

/-- `p->name`: the last element of the path, in 16 bytes with the final zero. -/
def execName (path : List Nat) : List Nat := (path.reverse.takeWhile (· ≠ 47)).reverse.take 15

def kexecSys (p : Nat) (path : List Nat) (target : Option (Nat × ExecFile))
    (data : Nat → (Nat → Nat) → Nat → Nat) (argv : List Nat) : SysM (Option Nat) := do
  side Rest.beginOp
  match target with
  | none => do
    side Rest.endOp
    pure none
  | some (ip, f) => do
    side (Rest.idup ip)
    side (Rest.ilock ip)
    let pr ← base (getProc p)
    match pr.pagetable, pr.trapframe with
    | some oldpagetable, some tf => do
      let loaded ← base (onMach (loadImage tf f.image))
      side (Rest.iunlockput ip)
      side Rest.endOp
      match loaded with
      | none => pure none
      | some (pagetable, sz) => do
        match ← base (onMach (finishImage oldpagetable pr.sz pagetable sz data argv)) with
        | none => pure none
        | some (pagetable, sz, sp) => do
          base (onMach (store ⟨tf, 15⟩ sp))
          modifyRest p fun q => { q with name := execName path }
          base (modifyProc p fun q => q.withImage pagetable sz)
          base (onMach (store ⟨tf, 3⟩ f.image.entry))
          base (onMach (store ⟨tf, 6⟩ sp))
          base (onMach (procFreepagetable oldpagetable pr.sz))
          pure (some argv.length)
    | _, _ => base (panic .nullPte)

/-- `path` is `none` where `argstr` cannot read it; `argstr` does not fault pages in. -/
def sysExecSys (p uargv : Nat) (path : Option (List Nat)) (user : Nat → UserArg)
    (target : Option (Nat × ExecFile)) (data : Nat → (Nat → Nat) → Nat → Nat) :
    SysM (Option Nat) :=
  match path with
  | none => pure none
  | some path => do
    let pr ← base (getProc p)
    match pr.pagetable with
    | none => base (panic .nullPte)
    | some pagetable => do
      let (pages, lens) ← base (onMach (fetchArgs pagetable pr.sz uargv user MAXARG 0 [] []))
      match lens with
      | none => do
        base (onMach (each pages kfree))
        pure none
      | some argv => do
        let ret ← kexecSys p path target data argv
        base (onMach (each pages kfree))
        pure ret

/-! ## The kernel's part -/

section execs

variable {p uargv : Nat} {path : List Nat} {user : Nat → UserArg}
  {target : Option (Nat × ExecFile)} {data : Nat → (Nat → Nat) → Nat → Nat} {argv : List Nat}

theorem onMach_bind {α β : Type} (q : MachM α) (g : α → MachM β) :
    onMach (q >>= g) = onMach q >>= fun a => onMach (g a) := by
  induction q with
  | ret a => rfl
  | act f k ih => exact congrArg (Prog.act _) (funext ih)

theorem extends_kexec :
    Extends (kexecSys p path target data argv) (kexec p (imageOf target) data argv) := by
  refine Extends.side ?_
  cases target with
  | none =>
    intro Q k x hw
    refine (wp_bind _ _).mpr ⟨trivial, ?_⟩
    obtain ⟨-, hw⟩ := (wp_bind _ _).mp hw
    revert hw
    rw [wp_ret]
    split
    · intro hw
      exact hw
    · exact fun hw => hw.elim
  | some t =>
    obtain ⟨ip, f⟩ := t
    refine Extends.side (Extends.side ((Extends.base _).bind fun pr => ?_))
    generalize pr.pagetable = old, pr.trapframe = tf
    rcases old with _ | old <;> rcases tf with _ | tf <;> try exact Extends.base _
    show Extends _ (onMach (loadImage tf f.image >>= _) >>= _)
    rw [onMach_bind]
    show Extends _ (((onMach (loadImage tf f.image)).bind _).bind _)
    rw [Prog.bind_assoc]
    refine (Extends.base _).bind fun loaded => Extends.side (Extends.side ?_)
    rcases loaded with _ | ⟨pagetable, sz⟩
    · exact Extends.pure none
    · refine (Extends.base _).bind fun o => ?_
      rcases o with _ | ⟨pagetable, sz, sp⟩
      · exact Extends.pure none
      · refine (Extends.base _).bind fun _ => Extends.side ((Extends.base _).bind fun _ => ?_)
        exact (Extends.base _).bind fun _ => (Extends.base _).bind fun _ =>
          (Extends.base _).bind fun _ => Extends.pure _

theorem extends_sysExec : Extends (sysExecSys p uargv (some path) user target data)
    (sysExec p uargv user (imageOf target) data) := by
  refine (Extends.base _).bind fun pr => ?_
  cases pr.pagetable with
  | none => exact Extends.base _
  | some pagetable =>
    refine (Extends.base _).bind fun res => ?_
    obtain ⟨pages, lens⟩ := res
    cases lens with
    | none => exact (Extends.base _).bind fun _ => Extends.pure _
    | some argv =>
      exact extends_kexec.bind fun ret => (Extends.base _).bind fun _ => Extends.pure _

/-! ## The rest -/

variable {k : Kernel} {x : Rest}

theorem Rest.closed (ip : Nat) (x : Rest) :
    (((x.beginOp.idup ip).ilock ip).iunlockput ip).endOp = x := by
  unfold Rest.beginOp Rest.idup Rest.ilock Rest.iunlockput Rest.endOp Rest.setRef
  simp only [Function.update_self, Function.update_idem, Nat.add_sub_cancel,
    Function.update_eq_self, List.erase_cons_head]

theorem rest_kexec :
    wp Crit.partialC (fun o y => o = none → y.2 = x) (kexecSys p path target data argv) (k, x) := by
  refine ⟨trivial, ?_⟩
  cases target with
  | none => exact ⟨trivial, fun _ => rfl⟩
  | some t =>
    obtain ⟨ip, f⟩ := t
    refine ⟨trivial, trivial, wp_rest _ fun pr k1 => ?_⟩
    split
    · refine wp_rest _ fun loaded k2 => ⟨trivial, trivial, ?_⟩
      show wp _ _ _ (k2, (((x.beginOp.idup ip).ilock ip).iunlockput ip).endOp)
      rw [Rest.closed]
      rcases loaded with _ | ⟨pagetable, sz⟩
      · exact fun _ => rfl
      · refine wp_rest _ fun o k3 => ?_
        rcases o with _ | ⟨pagetable, sz, sp⟩
        · exact fun _ => rfl
        · refine wp_rest _ fun _ _ => ⟨trivial, wp_rest _ fun _ _ => wp_rest _ fun _ _ => ?_⟩
          refine wp_rest _ fun _ _ => wp_rest _ fun _ _ hnone => ?_
          cases hnone
    · trivial

theorem rest_sysExec (path : Option (List Nat)) :
    wp Crit.partialC (fun o y => o = none → y.2 = x)
      (sysExecSys p uargv path user target data) (k, x) := by
  cases path with
  | none => exact fun _ => rfl
  | some path =>
    refine wp_rest _ fun pr k1 => ?_
    split
    · trivial
    · refine wp_rest _ fun res k2 => ?_
      obtain ⟨pages, lens⟩ := res
      cases lens with
      | none => exact wp_rest _ fun _ _ _ => rfl
      | some argv =>
        refine wp_seq rest_kexec ?_
        rintro ret ⟨k3, x'⟩ hx
        exact wp_rest _ fun _ _ => hx

end execs

/-! ## Every file -/

section runs

variable {c k : Kernel} {p : Nat}

/-- Neither `kexec` nor `sys_exec` panics or loops, for any file and any arguments. -/
theorem exec_returns (h : KInv c k) (hp : k.CanRun p) (x : Rest)
    (target : Option (Nat × ExecFile)) (data : Nat → (Nat → Nat) → Nat → Nat) :
    (∀ path argv, argv.length < MAXARG → (∀ l ∈ argv, l < PGSIZE) →
      ∃ o y, (kexecSys p path target data argv).run (k, x) = .done o y) ∧
    ∀ uargv path user, ∃ o y, (sysExecSys p uargv path user target data).run (k, x) = .done o y := by
  refine ⟨?_, ?_⟩
  · intro path argv _ hlen
    obtain ⟨o, y, hrun, -⟩ := wp_run_total (extends_kexec _ k x (wp_kexec h.sys hp hlen))
    exact ⟨o, y, hrun⟩
  · intro uargv path user
    cases path with
    | none => exact ⟨none, (k, x), rfl⟩
    | some path =>
      obtain ⟨r, tf, T, hpt, htf, hrep, hsp, hh⟩ := h.live hp
      obtain ⟨o, y, hrun, -⟩ := wp_run_total (extends_sysExec _ k x
        (wp_sysExec h hp hpt htf hrep hsp hh))
      exact ⟨o, y, hrun⟩

/-- An ELF file with one segment: eight bytes to be loaded at address 0, and `memsz` in memory. -/
def smallElf (memsz : UInt8) : ExecFile where
  bytes := [127, 69, 76, 70] ++ List.replicate 28 0 ++ [64] ++ List.replicate 23 0 ++ [1] ++
    List.replicate 7 0 ++ [1, 0, 0, 0, 5, 0, 0, 0, 120] ++ List.replicate 23 0 ++ [8] ++
    List.replicate 7 0 ++ [memsz] ++ List.replicate 15 0 ++ [1, 2, 3, 4, 5, 6, 7, 8]
  missing := fun _ => false

/-- `exec` of such a file with one argument. -/
def smallExec (memsz : UInt8) : SysM (Option Nat) :=
  sysExecSys 0 0 (some [105]) (fun i => if i = 0 then .str 3 fun _ => 0 else .null)
    (some (1, smallElf memsz)) fun _ old => old

theorem exec_returns_small : ∃ k, KInv smallBoot k ∧ k.CanRun 0 ∧ (k.proc 0).sz = 12288 ∧
    (∃ o y, (kexecSys 0 [105] (some (1, smallElf 8)) (fun _ old => old) [3]).run (k, smallRest) =
      .done o y) ∧
    ∃ y, (smallExec 8).run (k, smallRest) = .done (some 1) y := by
  obtain ⟨k, hk, hreach, hc, hsz⟩ := smallInit_spec
  have hrun : (smallBoot.init smallImage).any (fun k =>
      ((smallExec 8).result (k, smallRest)).any fun res => decide (res.1 = some 1)) = true := by
    decide +kernel
  rw [hk, Option.any_some] at hrun
  obtain ⟨⟨o, y⟩, hres, ho⟩ := (Option.any_eq_true _ _).mp hrun
  have hinv := hreach.inv smallBoot_boot
  obtain ⟨hkexec, -⟩ := exec_returns hinv hc smallRest (some (1, smallElf 8)) fun _ old => old
  cases of_decide_eq_true ho
  exact ⟨k, hinv, hc, hsz, hkexec [105] [3] (by decide) (by decide), y, run_of_result hres⟩

/-- A failed `exec` is not seen. -/
theorem exec_failure {r tf : Nat} {T : Tree} (h : KInv c k) (hp : k.CanRun p)
    (hpt : (k.proc p).pagetable = some r) (htf : (k.proc p).trapframe = some tf)
    (hrep : Rep k.mach.mem r T) (x : Rest) (uargv : Nat) (path : Option (List Nat))
    (user : Nat → UserArg) (target : Option (Nat × ExecFile))
    (data : Nat → (Nat → Nat) → Nat → Nat) :
    ∃ o k' x', (sysExecSys p uargv path user target data).run (k, x) = .done o (k', x') ∧
      (o = none → x' = x ∧ ∃ T', ExecFailed k p r tf T k' T') := by
  obtain ⟨r', tf', U, hpt', htf', hrep', hsp, hh⟩ := h.live hp
  cases hpt'.symm.trans hpt
  cases htf'.symm.trans htf
  have hU : U = T := hrep'.treeOf_eq.symm.trans hrep.treeOf_eq
  rw [hU] at hsp hh
  cases path with
  | none =>
    exact ⟨none, k, x, rfl, fun _ => ⟨rfl, T, rfl, Goes.refl hh, Unseen.refl _ _ _ _⟩⟩
  | some path =>
    have hk : wp Crit.total _ (sysExecSys p uargv (some path) user target data) (k, x) :=
      extends_sysExec _ k x (wp_sysExec h hp hpt htf hrep hsp hh)
    obtain ⟨o, ⟨k', x'⟩, hrun, ⟨-, hfail⟩, hrest⟩ :=
      wp_run_total (wp_total_and hk (rest_sysExec (some path)))
    exact ⟨o, k', x', hrun, fun hnone => ⟨hrest hnone, hfail hnone⟩⟩

/-- A segment that is larger in the file than in memory. -/
theorem exec_failure_small : ∃ k r tf T, KInv smallBoot k ∧ Rep k.mach.mem r T ∧
    (k.proc 0).pagetable = some r ∧ (k.proc 0).trapframe = some tf ∧ (k.proc 0).sz = 12288 ∧
    ∃ k' x', (smallExec 4).run (k, smallRest) = .done none (k', x') ∧
      x' = smallRest ∧ ∃ T', ExecFailed k 0 r tf T k' T' := by
  obtain ⟨k, hk, hreach, hc, hsz⟩ := smallInit_spec
  have hrun : (smallBoot.init smallImage).any (fun k =>
      ((smallExec 4).result (k, smallRest)).any fun res => decide (res.1 = none)) = true := by
    decide +kernel
  rw [hk, Option.any_some] at hrun
  obtain ⟨⟨o, y⟩, hres, ho⟩ := (Option.any_eq_true _ _).mp hrun
  have hinv := hreach.inv smallBoot_boot
  obtain ⟨r, tf, T, hpt, htf, hrep, -, -⟩ := hinv.live hc
  obtain ⟨o', k', x', hrun', hfail⟩ := exec_failure hinv hc hpt htf hrep smallRest 0 (some [105])
    (fun i => if i = 0 then .str 3 fun _ => 0 else .null) (some (1, smallElf 4)) fun _ old => old
  have hsame := (run_of_result hres).symm.trans hrun'
  cases of_decide_eq_true ho
  cases hsame
  obtain ⟨hx, hfail⟩ := hfail rfl
  exact ⟨k, r, tf, T, hinv, hrep, hpt, htf, hsz, k', x', run_of_result hres, hx, hfail⟩

end runs

end Xv6
