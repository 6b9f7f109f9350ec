/-
  Processes, their memory and their pipes (`kernel/proc.c`, `kernel/exec.c`, `kernel/sysproc.c`,
  `kernel/file.c`, `kernel/pipe.c` and the calls of `kernel/sysfile.c` that allocate pages).

  The process table and the file table are functions of the index.  A `struct file` is here only
  what decides about pages: its reference count, and for a pipe the page and the end.  The two
  open flags of a pipe are kept beside memory, under the address of its page.  What the kernel
  reads from user memory or from a file is an input of the operation: it can be anything.

  `Op` are the operations of a run; each is run by one process from start to end.
-/
import Xv6.Vm.Model

namespace Xv6

open Lib Lib.Prog

abbrev MAXARG : Nat := 32

abbrev USERSTACK : Nat := 1

/-! ## State -/

/-- `runnable` stands for `RUNNABLE`, `RUNNING` and `SLEEPING`. -/
inductive ProcState where
  | unused
  | used
  | runnable
  | zombie
  deriving DecidableEq, Repr

/-- `guard` is not in the source: it records the page that the last `exec` of the process or of
    the ancestor it was forked from made inaccessible. -/
structure Proc where
  state : ProcState
  sz : Nat
  pagetable : Option Nat
  trapframe : Option Nat
  parent : Option Nat
  ofile : Nat → Option Nat
  guard : Option Nat

/-- The slot of the process table that was never used or has been freed. -/
def Proc.free (ofile : Nat → Option Nat) : Proc :=
  { state := .unused, sz := 0, pagetable := none, trapframe := none, parent := none,
    ofile := ofile, guard := none }

/-- `FD_NONE`, `FD_PIPE` with its page and end, and the files that have an inode. -/
inductive FileType where
  | none
  | pipe (page : Nat) (writable : Bool)
  | inode
  deriving DecidableEq, Repr

structure File where
  ref : Nat
  type : FileType

structure Pipe where
  readopen : Bool
  writeopen : Bool

/-- `kstack` and `kpages` are the pages the kernel allocated at boot: one stack for each process,
    and its own page table. -/
structure Kernel where
  mach : Mach
  proc : Nat → Proc
  file : Nat → File
  pipe : Nat → Pipe
  kstack : Nat → Nat
  kpages : List Nat
  initproc : Nat

abbrev KernelM := Prog VmPanic Kernel

/-- A program on memory, run by the kernel. -/
def onMach {α : Type} (p : MachM α) : KernelM α := p.zoom Kernel.mach fun m k => { k with mach := m }

def Kernel.setProc (k : Kernel) (p : Nat) (pr : Proc) : Kernel :=
  { k with proc := Function.update k.proc p pr }

def modifyProc (p : Nat) (f : Proc → Proc) : KernelM Unit :=
  update fun k => k.setProc p (f (k.proc p))

def getProc (p : Nat) : KernelM Proc := look fun k => k.proc p

/-! ## `proc.c`: page tables and the process table -/

def procPagetable (trapframe : Nat) : MachM (Option Nat) := do
  match ← uvmcreate with
  | none => pure none
  | some pagetable => do
    let trampoline ← look Mach.trampoline
    if ← mappages pagetable TRAMPOLINE PGSIZE trampoline (PTE_R ||| PTE_X) then
      if ← mappages pagetable TRAPFRAME PGSIZE trapframe (PTE_R ||| PTE_W) then
        pure (some pagetable)
      else do
        uvmunmap pagetable TRAMPOLINE 1 false
        uvmfree pagetable 0
        pure none
    else do
      uvmfree pagetable 0
      pure none

def procFreepagetable (pagetable sz : Nat) : MachM Unit := do
  uvmunmap pagetable TRAMPOLINE 1 false
  uvmunmap pagetable TRAPFRAME 1 false
  uvmfree pagetable sz

/-- The memory that `freeproc` gives back. -/
def freeprocMem (pr : Proc) : MachM Unit := do
  match pr.trapframe with
  | none => pure ()
  | some tf => kfree tf
  match pr.pagetable with
  | none => pure ()
  | some pagetable => procFreepagetable pagetable pr.sz

def freeproc (p : Nat) : KernelM Unit := do
  let pr ← getProc p
  onMach (freeprocMem pr)
  modifyProc p fun pr => Proc.free pr.ofile

/-- The first unused slot of the process table, as `allocproc` looks for it. -/
def Kernel.unusedSlot (k : Kernel) : Option Nat :=
  (List.range NPROC).find? fun p => (k.proc p).state = .unused

def allocproc : KernelM (Option Nat) := do
  match ← look Kernel.unusedSlot with
  | none => pure none
  | some p => do
    modifyProc p fun pr => { pr with state := .used }
    let tf ← onMach kalloc
    modifyProc p fun pr => { pr with trapframe := tf }
    match tf with
    | none => do
      freeproc p
      pure none
    | some tf => do
      let pagetable ← onMach (procPagetable tf)
      modifyProc p fun pr => { pr with pagetable := pagetable }
      match pagetable with
      | none => do
        freeproc p
        pure none
      | some _ => pure (some p)

def userinit : KernelM Unit := do
  match ← allocproc with
  | none => panic .nullPte
  | some p => do
    update fun k => { k with initproc := p }
    modifyProc p fun pr => { pr with state := .runnable }

/-- `sz + n` as a `uint64`, for an `int` `n`. -/
def add64 (sz : Nat) (n : Int) : Nat := ((sz + n) % 2 ^ 64).toNat

/-- `growproc` of a process with size `sz`: the new size, or `none` where it returns -1. -/
def growproc (pagetable sz : Nat) (n : Int) : MachM (Option Nat) := do
  if n > 0 then
    if add64 sz n > TRAPFRAME then pure none
    else do
      let sz ← uvmalloc pagetable sz (add64 sz n) PTE_W
      if sz = 0 then pure none else pure (some sz)
  else if n < 0 then do
    let sz ← uvmdealloc pagetable sz (add64 sz n)
    pure (some sz)
  else pure (some sz)

/-- `sys_sbrk`; `eager` is `t == SBRK_EAGER`. -/
def sysSbrk (p : Nat) (n : Int) (eager : Bool) : KernelM (Option Nat) := do
  let pr ← getProc p
  if eager ∨ n < 0 then
    match pr.pagetable with
    | none => panic .nullPte
    | some pagetable =>
      match ← onMach (growproc pagetable pr.sz n) with
      | none => pure none
      | some sz => do
        modifyProc p fun pr => { pr with sz := sz }
        pure (some pr.sz)
  else if add64 pr.sz n < pr.sz then pure none
  else if add64 pr.sz n > TRAPFRAME then pure none
  else do
    modifyProc p fun q => { q with sz := add64 pr.sz n }
    pure (some pr.sz)

/-! ## `file.c` and `pipe.c` -/

def Kernel.setFile (k : Kernel) (f : Nat) (x : File) : Kernel :=
  { k with file := Function.update k.file f x }

def Kernel.setPipe (k : Kernel) (pg : Nat) (x : Pipe) : Kernel :=
  { k with pipe := Function.update k.pipe pg x }

def filealloc : KernelM (Option Nat) := do
  let found ← look fun k => (List.range NFILE).find? fun f => (k.file f).ref = 0
  match found with
  | none => pure none
  | some f => do
    update fun k => k.setFile f { k.file f with ref := 1 }
    pure (some f)

def filedup (f : Nat) : KernelM Unit := do
  let x ← look fun k => k.file f
  if x.ref < 1 then panic .filedup
  else update fun k => k.setFile f { x with ref := x.ref + 1 }

def pipeclose (pg : Nat) (writable : Bool) : KernelM Unit := do
  update fun k => k.setPipe pg
    (if writable then { k.pipe pg with writeopen := false }
      else { k.pipe pg with readopen := false })
  let pi ← look fun k => k.pipe pg
  if pi.readopen = false ∧ pi.writeopen = false then onMach (kfree pg) else pure ()

def fileclose (f : Nat) : KernelM Unit := do
  let x ← look fun k => k.file f
  if x.ref < 1 then panic .fileclose
  else if x.ref - 1 > 0 then update fun k => k.setFile f { x with ref := x.ref - 1 }
  else do
    update fun k => k.setFile f { ref := 0, type := .none }
    match x.type with
    | .pipe pg writable => pipeclose pg writable
    | _ => pure ()

def pipealloc : KernelM (Option (Nat × Nat)) := do
  match ← filealloc with
  | none => pure none
  | some f0 =>
    match ← filealloc with
    | none => do
      fileclose f0
      pure none
    | some f1 =>
      match ← onMach kalloc with
      | none => do
        fileclose f0
        fileclose f1
        pure none
      | some pi => do
        update fun k => k.setPipe pi ⟨true, true⟩
        update fun k => k.setFile f0 { k.file f0 with type := .pipe pi false }
        update fun k => k.setFile f1 { k.file f1 with type := .pipe pi true }
        pure (some (f0, f1))

/-- The lowest free descriptor. -/
def Proc.fdalloc (pr : Proc) : Option Nat :=
  (List.range NOFILE).find? fun fd => (pr.ofile fd).isNone

def setOfile (p fd : Nat) (o : Option Nat) : KernelM Unit :=
  modifyProc p fun pr => { pr with ofile := Function.update pr.ofile fd o }

def fdalloc (p f : Nat) : KernelM (Option Nat) := do
  let pr ← getProc p
  match pr.fdalloc with
  | none => pure none
  | some fd => do
    setOfile p fd (some f)
    pure (some fd)

/-! ## `fork`, `exit`, `wait` -/

/-- `*(np->trapframe) = *(p->trapframe); np->trapframe->a0 = 0`. -/
def copyTrapframe (dst src : Nat) : MachM Unit := update fun s =>
  s.setPage dst fun i => if i = 14 then 0 else if i < 36 then s.mem src i else s.mem dst i

/-- One round of the loop of `kfork` over the open files. -/
def dupOfile (p np fd : Nat) : KernelM Unit := do
  let pr ← getProc p
  match pr.ofile fd with
  | none => pure ()
  | some f => do
    filedup f
    setOfile np fd (some f)

def kfork (p : Nat) : KernelM (Option Nat) := do
  match ← allocproc with
  | none => pure none
  | some np => do
    let pr ← getProc p
    let npr ← getProc np
    match pr.pagetable, npr.pagetable, pr.trapframe, npr.trapframe with
    | some old, some new, some tf, some ntf =>
      if ← onMach (uvmcopy old new pr.sz) then do
        modifyProc np fun q => { q with sz := pr.sz, guard := pr.guard }
        onMach (copyTrapframe ntf tf)
        upto NOFILE (dupOfile p np)
        modifyProc np fun q => { q with parent := some p }
        modifyProc np fun q => { q with state := .runnable }
        pure (some np)
      else do
        freeproc np
        pure none
    | _, _, _, _ => panic .nullPte

/-- One round of the loop of `kexit` over the open files. -/
def closeOfile (p fd : Nat) : KernelM Unit := do
  let pr ← getProc p
  match pr.ofile fd with
  | none => pure ()
  | some f => do
    fileclose f
    setOfile p fd none

/-- Only slots of the table are changed, as the loop does. -/
def Kernel.reparent (k : Kernel) (p : Nat) : Kernel :=
  { k with proc := fun q => if q < NPROC ∧ (k.proc q).parent = some p then
      { k.proc q with parent := some k.initproc } else k.proc q }

def reparent (p : Nat) : KernelM Unit := update fun k => k.reparent p

def kexit (p : Nat) : KernelM Unit := do
  let init ← look Kernel.initproc
  if p = init then panic .initExiting
  else do
    upto NOFILE (closeOfile p)
    reparent p
    modifyProc p fun pr => { pr with state := .zombie }

/-- `kwait`: the child that was freed. Where the source sleeps, nothing has changed. `data` is what
    the exit status makes of the user page. -/
def kwait (p addr : Nat) (data : Nat → (Nat → Nat) → Nat → Nat) : KernelM (Option Nat) := do
  let found ← look fun k => (List.range NPROC).find? fun q =>
    (k.proc q).parent = some p ∧ (k.proc q).state = .zombie
  match found with
  | none => pure none
  | some q => do
    let pr ← getProc p
    match pr.pagetable with
    | none => panic .nullPte
    | some pagetable => do
      let ok ← if addr = 0 then pure true
        else onMach (copyout pagetable pr.sz pagetable addr 4 data)
      if ok then do
        freeproc q
        pure (some q)
      else pure none

/-! ## `exec` -/

/-- A program header and what reading its segment gives: `readOk` for the header, `pageOk i` and
    `page i` for the `i`-th page of the segment. -/
structure Phdr where
  readOk : Bool
  isLoad : Bool
  flags : Nat
  vaddr : BitVec 64
  filesz : BitVec 64
  memsz : BitVec 64
  pageOk : Nat → Bool
  page : Nat → (Nat → Nat) → Nat → Nat

/-- What `exec` finds at its path. `headerOk`: the header could be read and has the magic number. -/
structure Image where
  found : Bool
  headerOk : Bool
  entry : Nat
  phdrs : List Phdr

def flags2perm (flags : Nat) : Nat :=
  (if flags.testBit 0 then PTE_X else 0) ||| if flags.testBit 1 then PTE_W else 0

/-- `loadseg` over the remaining `n` pages. -/
def loadsegLoop (pagetable va : Nat) (ph : Phdr) : Nat → Nat → MachM Bool
  | 0, _ => pure true
  | n + 1, i => do
    match ← walkaddr pagetable (va + i * PGSIZE) with
    | none => panic .loadseg
    | some pa => do
      update fun s => s.setPage pa (ph.page i (s.mem pa))
      if ph.pageOk i then loadsegLoop pagetable va ph n (i + 1) else pure false

/-- A loop that does not end. -/
def hang {α : Type} : MachM α := atomic fun _ => .block

/-- The `uint` argument cuts the size to 32 bits. The index is a `uint` too: with a page that ends
    at or above 2^32 it wraps to 0, and the loop goes over the same pages again, for ever. -/
def loadseg (pagetable va : Nat) (ph : Phdr) (sz : Nat) : MachM Bool := do
  let ok ← loadsegLoop pagetable va ph ((sz % 2 ^ 32 + PGSIZE - 1) / PGSIZE) 0
  if ok ∧ 2 ^ 32 - PGSIZE < sz % 2 ^ 32 then hang else pure ok

/-- The loop of `kexec` over the program headers: success, and the size so far. -/
def loadSegments (pagetable : Nat) : List Phdr → Nat → MachM (Bool × Nat)
  | [], sz => pure (true, sz)
  | ph :: rest, sz =>
    if ph.readOk = false then pure (false, sz)
    else if ph.isLoad = false then loadSegments pagetable rest sz
    else if ph.memsz < ph.filesz then pure (false, sz)
    else if ph.vaddr + ph.memsz < ph.vaddr then pure (false, sz)
    else if ph.vaddr.toNat % PGSIZE ≠ 0 then pure (false, sz)
    else do
      let sz1 ← uvmalloc pagetable sz (ph.vaddr + ph.memsz).toNat (flags2perm ph.flags)
      if sz1 = 0 then pure (false, sz)
      else if ← loadseg pagetable ph.vaddr.toNat ph ph.filesz.toNat then
        loadSegments pagetable rest sz1
      else pure (false, sz1)

/-- `a - b` as a `uint64`. -/
def sub64 (a b : Nat) : Nat := (a + 2 ^ 64 - b) % 2 ^ 64

/-- `sp -= n; sp -= sp % 16`. -/
def pushed (sp n : Nat) : Nat := sub64 sp n - sub64 sp n % 16

/-- The loop of `kexec` over the argument strings, given by their lengths: the stack pointer, or
    `none` where the source jumps to `bad`. -/
def pushArgs (own ownsz pagetable stackbase : Nat) (data : Nat → (Nat → Nat) → Nat → Nat) :
    List Nat → Nat → Nat → MachM (Option Nat)
  | [], _, sp => pure (some sp)
  | len :: rest, argc, sp =>
    if argc ≥ MAXARG then pure none
    else if pushed sp (len + 1) < stackbase then pure none
    else do
      if ← copyout own ownsz pagetable (pushed sp (len + 1)) (len + 1) data then
        pushArgs own ownsz pagetable stackbase data rest (argc + 1) (pushed sp (len + 1))
      else pure none

/-- The user stack of the new image: the stack pointer, or `none` where the source jumps to
    `bad`. -/
def pushStack (own ownsz pagetable sz : Nat) (data : Nat → (Nat → Nat) → Nat → Nat)
    (argv : List Nat) : MachM (Option Nat) := do
  match ← pushArgs own ownsz pagetable (sz - USERSTACK * PGSIZE) data argv 0 sz with
  | none => pure none
  | some sp =>
    if pushed sp ((argv.length + 1) * 8) < sz - USERSTACK * PGSIZE then pure none
    else do
      if ← copyout own ownsz pagetable (pushed sp ((argv.length + 1) * 8))
          ((argv.length + 1) * 8) data then
        pure (some (pushed sp ((argv.length + 1) * 8)))
      else pure none

/-- The part of `kexec` with the file: the page table and its size. On error everything
    is freed again. -/
def loadImage (trapframe : Nat) (img : Image) : MachM (Option (Nat × Nat)) := do
  if img.headerOk = false then pure none
  else
    match ← procPagetable trapframe with
    | none => pure none
    | some pagetable => do
      let (ok, sz) ← loadSegments pagetable img.phdrs 0
      if ok = false then do
        procFreepagetable pagetable sz
        pure none
      else pure (some (pagetable, sz))

/-- The part of `kexec` after it, up to the commit: page table, size and stack pointer. `own` and
    `ownsz` are the calling process's. -/
def finishImage (own ownsz pagetable sz : Nat) (data : Nat → (Nat → Nat) → Nat → Nat)
    (argv : List Nat) : MachM (Option (Nat × Nat × Nat)) := do
  let sz1 ← uvmalloc pagetable (PGROUNDUP sz) (PGROUNDUP sz + (USERSTACK + 1) * PGSIZE) PTE_W
  if sz1 = 0 then do
    procFreepagetable pagetable (PGROUNDUP sz)
    pure none
  else do
    uvmclear pagetable (sz1 - (USERSTACK + 1) * PGSIZE)
    match ← pushStack own ownsz pagetable sz1 data argv with
    | none => do
      procFreepagetable pagetable sz1
      pure none
    | some sp => pure (some (pagetable, sz1, sp))

/-- The new image, which is freed again on error. -/
def execImage (own ownsz trapframe : Nat) (img : Image)
    (data : Nat → (Nat → Nat) → Nat → Nat) (argv : List Nat) :
    MachM (Option (Nat × Nat × Nat)) := do
  if img.found = false then pure none
  else
    match ← loadImage trapframe img with
    | none => pure none
    | some (pagetable, sz) => finishImage own ownsz pagetable sz data argv

/-- Commit to the user image. -/
def Proc.withImage (pr : Proc) (pagetable sz : Nat) : Proc :=
  { pr with pagetable := some pagetable, sz := sz, guard := some (sz / PGSIZE - (USERSTACK + 1)) }

/-- `kexec`; `argv` are the lengths of the argument strings. -/
def kexec (p : Nat) (img : Image) (data : Nat → (Nat → Nat) → Nat → Nat) (argv : List Nat) :
    KernelM (Option Nat) := do
  let pr ← getProc p
  match pr.pagetable, pr.trapframe with
  | some oldpagetable, some tf =>
    match ← onMach (execImage oldpagetable pr.sz tf img data argv) with
    | none => pure none
    | some (pagetable, sz, sp) => do
      onMach (store ⟨tf, 15⟩ sp)
      modifyProc p fun q => q.withImage pagetable sz
      onMach (store ⟨tf, 3⟩ img.entry)
      onMach (store ⟨tf, 6⟩ sp)
      onMach (procFreepagetable oldpagetable pr.sz)
      pure (some argv.length)
  | _, _ => panic .nullPte

/-- The part of `forkret` that the first process runs, once: it loads `/init`, with its path of five
    letters as the only argument. -/
def forkret (p : Nat) (img : Image) (data : Nat → (Nat → Nat) → Nat → Nat) : KernelM Unit := do
  let ret ← kexec p img data [5]
  let pr ← getProc p
  match pr.trapframe with
  | none => panic .nullPte
  | some tf => do
    onMach (store ⟨tf, 14⟩ (ret.getD (2 ^ 64 - 1)))
    if ret = none then panic .exec else pure ()

/-- What `sys_exec` finds at a place of the user's argument vector: the null pointer, a string it
    cannot read, or a string of some length that fits in a page. `text` is what the page allocated
    for it holds afterwards. -/
inductive UserArg where
  | null
  | bad (text : Nat → Nat)
  | str (len : Fin PGSIZE) (text : Nat → Nat)

/-- The contents of an allocated page after `fetchstr`. -/
def setPage (pg : Nat) (text : Nat → Nat) : MachM Unit := update fun s => s.setPage pg text

/-- The loop of `sys_exec` over the argument vector, for the remaining `n` of `MAXARG` places: the
    pages allocated so far, and the lengths of the strings unless it fails. -/
def fetchArgs (pagetable sz uargv : Nat) (user : Nat → UserArg) :
    Nat → Nat → List Nat → List Nat → MachM (List Nat × Option (List Nat))
  | 0, _, pages, _ => pure (pages, none)
  | n + 1, i, pages, lens => do
    let addr := (uargv + 8 * i) % 2 ^ 64
    if addr ≥ sz ∨ (addr + 8) % 2 ^ 64 > sz then pure (pages, none)
    else if ← copyin pagetable sz pagetable addr 8 then
      match user i with
      | .null => pure (pages, some lens)
      | .bad text =>
        match ← kalloc with
        | none => pure (pages, none)
        | some pg => do
          setPage pg text
          pure (pages ++ [pg], none)
      | .str len text =>
        match ← kalloc with
        | none => pure (pages, none)
        | some pg => do
          setPage pg text
          fetchArgs pagetable sz uargv user n (i + 1) (pages ++ [pg]) (lens ++ [len.val])
    else pure (pages, none)

def sysExec (p uargv : Nat) (user : Nat → UserArg) (img : Image)
    (data : Nat → (Nat → Nat) → Nat → Nat) : KernelM (Option Nat) := do
  let pr ← getProc p
  match pr.pagetable with
  | none => panic .nullPte
  | some pagetable => do
    let (pages, lens) ← onMach (fetchArgs pagetable pr.sz uargv user MAXARG 0 [] [])
    match lens with
    | none => do
      onMach (each pages kfree)
      pure none
    | some argv => do
      let ret ← kexec p img data argv
      onMach (each pages kfree)
      pure ret

/-! ## Descriptors -/

/-- `sys_pipe`. -/
def sysPipe (p fdarray : Nat) (data : Nat → (Nat → Nat) → Nat → Nat) : KernelM Bool := do
  match ← pipealloc with
  | none => pure false
  | some (rf, wf) =>
    match ← fdalloc p rf with
    | none => do
      fileclose rf
      fileclose wf
      pure false
    | some fd0 =>
      match ← fdalloc p wf with
      | none => do
        setOfile p fd0 none
        fileclose rf
        fileclose wf
        pure false
      | some fd1 => do
        let pr ← getProc p
        match pr.pagetable with
        | none => panic .nullPte
        | some pagetable => do
          let ok0 ← onMach (copyout pagetable pr.sz pagetable fdarray 4 data)
          let ok ← if ok0 then
              onMach (copyout pagetable pr.sz pagetable ((fdarray + 4) % 2 ^ 64) 4 data)
            else pure false
          if ok then pure true
          else do
            setOfile p fd0 none
            setOfile p fd1 none
            fileclose rf
            fileclose wf
            pure false

/-- The part of `sys_open` that takes a file and a descriptor. -/
def sysOpen (p : Nat) : KernelM Bool := do
  match ← filealloc with
  | none => pure false
  | some f =>
    match ← fdalloc p f with
    | none => do
      fileclose f
      pure false
    | some _ => do
      update fun k => k.setFile f { k.file f with type := .inode }
      pure true

/-- `argfd`: the open file behind a descriptor. -/
def argfd (p fd : Nat) : KernelM (Option Nat) :=
  look fun k => if fd < NOFILE then (k.proc p).ofile fd else none

def sysClose (p fd : Nat) : KernelM Bool := do
  match ← argfd p fd with
  | none => pure false
  | some f => do
    setOfile p fd none
    fileclose f
    pure true

def sysDup (p fd : Nat) : KernelM Bool := do
  match ← argfd p fd with
  | none => pure false
  | some f =>
    match ← fdalloc p f with
    | none => pure false
    | some _ => do
      filedup f
      pure true

/-! ## Runs -/

/-- The part of `usertrap` that handles a page fault. -/
def usertrapFault (p va : Nat) : KernelM Unit := do
  let pr ← getProc p
  match pr.pagetable with
  | none => panic .nullPte
  | some pagetable =>
    match ← onMach (vmfault pagetable pr.sz pagetable va) with
    | some _ => pure ()
    | none => kexit p

def userCopyin (p va len : Nat) : KernelM Unit := do
  let pr ← getProc p
  match pr.pagetable with
  | none => panic .nullPte
  | some pagetable => do
    let _ ← onMach (copyin pagetable pr.sz pagetable va len)

def userCopyout (p va len : Nat) (data : Nat → (Nat → Nat) → Nat → Nat) : KernelM Unit := do
  let pr ← getProc p
  match pr.pagetable with
  | none => panic .nullPte
  | some pagetable => do
    let _ ← onMach (copyout pagetable pr.sz pagetable va len data)

/-- The operations of a run. -/
inductive Op where
  | fork
  | exec (uargv : Nat) (user : Nat → UserArg) (img : Image)
      (data : Nat → (Nat → Nat) → Nat → Nat)
  | sbrk (n : BitVec 32) (eager : Bool)
  | fault (va : Nat)
  | copyin (va len : Nat)
  | copyout (va len : Nat) (data : Nat → (Nat → Nat) → Nat → Nat)
  | pipe (fdarray : Nat) (data : Nat → (Nat → Nat) → Nat → Nat)
  | openFile
  | dup (fd : Nat)
  | close (fd : Nat)
  | exit
  | wait (addr : Nat) (data : Nat → (Nat → Nat) → Nat → Nat)

def Op.prog (p : Nat) : Op → KernelM Unit
  | .fork => do let _ ← kfork p
  | .exec uargv user img data => do let _ ← sysExec p uargv user img data
  | .sbrk n eager => do let _ ← sysSbrk p n.toInt eager
  | .fault va => usertrapFault p va
  | .copyin va len => userCopyin p va len
  | .copyout va len data => userCopyout p va len data
  | .pipe fdarray data => do let _ ← sysPipe p fdarray data
  | .openFile => do let _ ← sysOpen p
  | .dup fd => do let _ ← sysDup p fd
  | .close fd => do let _ ← sysClose p fd
  | .exit => kexit p
  | .wait addr data => do let _ ← kwait p addr data

/-- An operation can be run by the processes that are not zombies. -/
def Kernel.CanRun (k : Kernel) (p : Nat) : Prop := p < NPROC ∧ (k.proc p).state = .runnable

instance (k : Kernel) (p : Nat) : Decidable (k.CanRun p) := inferInstanceAs (Decidable (_ ∧ _))

end Xv6
