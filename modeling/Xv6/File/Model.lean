/-
  Open files, pipes and descriptors under concurrent calls (`kernel/file.c`, `kernel/pipe.c`, and the
  parts of `kernel/sysfile.c`, `kernel/proc.c` and `kernel/exec.c` that make and drop references).

  An action is a section under one lock, or an access to what only the caller can reach: its own
  `struct proc`, a `struct file` that it has just allocated, a child before it runs.

  The inode table is a count of references for each inode, and looking up or creating a file is an
  input: it gives an inode with a new reference, or fails.  So are the page that `kalloc` returns, the
  slot that `allocproc` or `wait` finds, and whether user memory can be copied.  An input that the state
  does not allow blocks.
-/
import Xv6.Param
import Xv6.Lib.Threads
import Mathlib.Data.List.FinRange

namespace Xv6.Ftable

open Lib Lib.Prog

/-! ## State -/

inductive FdType where
  | none
  | pipe
  | inode
  | device
  deriving DecidableEq

structure File where
  type : FdType
  ref : Nat
  readable : Bool
  writable : Bool
  /-- The page of the pipe. -/
  pipe : Nat
  ip : Nat
  off : Nat
  major : Int

structure Pipe where
  readopen : Bool
  writeopen : Bool
  deriving DecidableEq

inductive ProcState where
  | unused
  | used
  | runnable
  | zombie
  deriving DecidableEq

structure Proc where
  state : ProcState
  ofile : Fin NOFILE → Option (Fin NFILE)
  cwd : Option Nat

structure Sys where
  file : Fin NFILE → File
  /-- The pages that hold a pipe. -/
  pipe : Nat → Option Pipe
  /-- `ref` of the inodes. -/
  iref : Nat → Nat
  proc : Fin NPROC → Proc
  initproc : Fin NPROC

inductive Panic where
  | filedup
  | fileclose
  | initExiting
  /-- Not a panic of the source: a null pointer, or a page that is no longer a pipe, is used. -/
  | dangling
  deriving DecidableEq

namespace Sys

def setFile (s : Sys) (f : Fin NFILE) (x : File) : Sys := { s with file := Function.update s.file f x }

def setPipe (s : Sys) (pg : Nat) (x : Option Pipe) : Sys :=
  { s with pipe := Function.update s.pipe pg x }

def setIref (s : Sys) (ip n : Nat) : Sys := { s with iref := Function.update s.iref ip n }

def setProc (s : Sys) (p : Fin NPROC) (x : Proc) : Sys := { s with proc := Function.update s.proc p x }

end Sys

abbrev FtM := Prog Panic Sys

/-! ## Inodes -/

/-- A new reference: `iget` in a look-up, or `idup`. -/
def iget (ip : Nat) : FtM Unit := update fun s => s.setIref ip (s.iref ip + 1)

def iput (ip : Nat) : FtM Unit := update fun s => s.setIref ip (s.iref ip - 1)

/-! ## `pipe.c` and `file.c` -/

/-- The flag of one end is cleared. -/
def Pipe.shut (pi : Pipe) (writable : Bool) : Pipe :=
  if writable then { pi with writeopen := false } else { pi with readopen := false }

/-- The part of `pipeclose` under `pi->lock`: are both ends closed? -/
def shutPipe (pg : Nat) (writable : Bool) (s : Sys) : Outcome Panic Sys Bool :=
  match s.pipe pg with
  | none => .panic .dangling
  | some pi =>
    let pi := pi.shut writable
    .ok (decide (pi.readopen = false ∧ pi.writeopen = false)) (s.setPipe pg (some pi))

def freePipe (pg : Nat) (s : Sys) : Outcome Panic Sys Unit :=
  match s.pipe pg with
  | none => .panic .dangling
  | some _ => .ok () (s.setPipe pg none)

def pipeclose (pg : Nat) (writable : Bool) : FtM Unit := do
  if ← atomic (shutPipe pg writable) then atomic (freePipe pg) else pure ()

def allocFile (s : Sys) : Outcome Panic Sys (Option (Fin NFILE)) :=
  match (List.finRange NFILE).find? fun f => decide ((s.file f).ref = 0) with
  | some f => .ok (some f) (s.setFile f { s.file f with ref := 1 })
  | none => .ok none s

def filealloc : FtM (Option (Fin NFILE)) := atomic allocFile

def dupFile (f : Fin NFILE) (s : Sys) : Outcome Panic Sys Unit :=
  if (s.file f).ref < 1 then .panic .filedup
  else .ok () (s.setFile f { s.file f with ref := (s.file f).ref + 1 })

def filedup (f : Fin NFILE) : FtM Unit := atomic (dupFile f)

/-- The part of `fileclose` under `ftable.lock`: the file as it was, if that was the last
    reference. -/
def dropFile (f : Fin NFILE) (s : Sys) : Outcome Panic Sys (Option File) :=
  if (s.file f).ref < 1 then .panic .fileclose
  else if (s.file f).ref - 1 > 0 then
    .ok none (s.setFile f { s.file f with ref := (s.file f).ref - 1 })
  else .ok (some (s.file f)) (s.setFile f { s.file f with ref := 0, type := .none })

def fileclose (f : Fin NFILE) : FtM Unit := do
  match ← atomic (dropFile f) with
  | none => pure ()
  | some ff =>
    if ff.type = .pipe then pipeclose ff.pipe ff.writable
    else if ff.type = .inode ∨ ff.type = .device then iput ff.ip
    else pure ()

/-- A file becomes an end of the pipe. -/
def File.pipeEnd (x : File) (pg : Nat) (writable : Bool) : File :=
  { x with type := .pipe, readable := !writable, writable := writable, pipe := pg }

/-- The page and both files are set up. -/
def initPipe (pg : Nat) (f0 f1 : Fin NFILE) (s : Sys) : Outcome Panic Sys Unit :=
  if s.pipe pg = none then
    .ok () (((s.setPipe pg (some ⟨true, true⟩)).setFile f0 ((s.file f0).pipeEnd pg false)).setFile f1
      ((s.file f1).pipeEnd pg true))
  else .block

/-- `page` is what `kalloc` returns. -/
def pipealloc (page : Option Nat) : FtM (Option (Fin NFILE × Fin NFILE)) := do
  match ← filealloc with
  | none => pure none
  | some f0 =>
    match ← filealloc with
    | none => do
      fileclose f0
      pure none
    | some f1 =>
      match page with
      | none => do
        fileclose f0
        fileclose f1
        pure none
      | some pg => do
        atomic (initPipe pg f0 f1)
        pure (some (f0, f1))

/-! ## `sysfile.c` -/

def setOfile (p : Fin NPROC) (fd : Fin NOFILE) (f : Option (Fin NFILE)) : FtM Unit :=
  update fun s => s.setProc p { s.proc p with ofile := Function.update (s.proc p).ofile fd f }

def argfd (p : Fin NPROC) (fd : Int) : FtM (Option (Fin NOFILE × Fin NFILE)) := look fun s =>
  if h : 0 ≤ fd ∧ fd < NOFILE then
    let fd : Fin NOFILE := ⟨fd.toNat, (Int.toNat_lt h.1).mpr h.2⟩
    ((s.proc p).ofile fd).map fun f => (fd, f)
  else none

def allocFd (p : Fin NPROC) (f : Fin NFILE) (s : Sys) : Outcome Panic Sys (Option (Fin NOFILE)) :=
  match (List.finRange NOFILE).find? fun fd => decide ((s.proc p).ofile fd = none) with
  | some fd => .ok (some fd)
      (s.setProc p { s.proc p with ofile := Function.update (s.proc p).ofile fd (some f) })
  | none => .ok none s

def fdalloc (p : Fin NPROC) (f : Fin NFILE) : FtM (Option (Fin NOFILE)) := atomic (allocFd p f)

def sysDup (p : Fin NPROC) (fd : Int) : FtM Int := do
  match ← argfd p fd with
  | none => pure (-1)
  | some (_, f) =>
    match ← fdalloc p f with
    | none => pure (-1)
    | some fd => do
      filedup f
      pure fd

def sysClose (p : Fin NPROC) (fd : Int) : FtM Int := do
  match ← argfd p fd with
  | none => pure (-1)
  | some (fd, f) => do
    setOfile p fd none
    fileclose f
    pure 0

abbrev O_RDONLY : Nat := 0x000
abbrev O_WRONLY : Nat := 0x001
abbrev O_RDWR : Nat := 0x002
abbrev O_CREATE : Nat := 0x200

inductive InodeType where
  | dir
  | file
  | device
  deriving DecidableEq

/-- What `create` or `namei` finds, with what `open` reads of the locked inode. -/
structure Found where
  ip : Nat
  type : InodeType
  major : Int

/-- `open` makes the new file an open file of the inode. -/
def fillFile (f : Fin NFILE) (x : Found) (omode : Nat) (s : Sys) : Sys :=
  let y := s.file f
  let y := if x.type = .device then { y with type := .device, major := x.major }
    else { y with type := .inode, off := 0 }
  s.setFile f { y with
    ip := x.ip
    readable := omode &&& O_WRONLY = 0
    writable := omode &&& O_WRONLY ≠ 0 ∨ omode &&& O_RDWR ≠ 0 }

/-- `found` is none if the path cannot be read or the file not found or created. -/
def sysOpen (p : Fin NPROC) (omode : Nat) (found : Option Found) : FtM Int :=
  match found with
  | none => pure (-1)
  | some x => do
    iget x.ip
    if omode &&& O_CREATE = 0 ∧ x.type = .dir ∧ omode ≠ O_RDONLY ∨
        x.type = .device ∧ (x.major < 0 ∨ x.major ≥ NDEV) then do
      iput x.ip
      pure (-1)
    else
      match ← filealloc with
      | none => do
        iput x.ip
        pure (-1)
      | some f =>
        match ← fdalloc p f with
        | none => do
          fileclose f
          iput x.ip
          pure (-1)
        | some fd => do
          update (fillFile f x omode)
          pure fd

/-- `copied` says whether both `copyout` succeed. -/
def sysPipe (p : Fin NPROC) (page : Option Nat) (copied : Bool) : FtM Int := do
  match ← pipealloc page with
  | none => pure (-1)
  | some (rf, wf) =>
    match ← fdalloc p rf with
    | none => do
      fileclose rf
      fileclose wf
      pure (-1)
    | some fd0 =>
      match ← fdalloc p wf with
      | none => do
        setOfile p fd0 none
        fileclose rf
        fileclose wf
        pure (-1)
      | some fd1 =>
        if copied then pure 0
        else do
          setOfile p fd0 none
          setOfile p fd1 none
          fileclose rf
          fileclose wf
          pure (-1)

/-! ## `proc.c` and `exec.c` -/

def setState (p : Fin NPROC) (state : ProcState) : FtM Unit :=
  update fun s => s.setProc p { s.proc p with state := state }

/-- Slot `p` goes from one state to another. -/
def claim (p : Fin NPROC) (old new : ProcState) (s : Sys) : Outcome Panic Sys Unit :=
  if (s.proc p).state = old then .ok () (s.setProc p { s.proc p with state := new }) else .block

def cwd (p : Fin NPROC) : FtM Nat := atomic fun s =>
  match (s.proc p).cwd with
  | some ip => .ok ip s
  | none => .panic .dangling

def setCwd (p : Fin NPROC) (ip : Option Nat) : FtM Unit :=
  update fun s => s.setProc p { s.proc p with cwd := ip }

def dupOfile (p np : Fin NPROC) (fd : Fin NOFILE) : FtM Unit := do
  match ← look fun s => (s.proc p).ofile fd with
  | none => pure ()
  | some f => do
    filedup f
    setOfile np fd (some f)

/-- `child` is the slot that `allocproc` finds, `copied` whether `uvmcopy` succeeds. -/
def kfork (p : Fin NPROC) (child : Option (Fin NPROC)) (copied : Bool) (pid : Nat) : FtM Int :=
  match child with
  | none => pure (-1)
  | some np => do
    atomic (claim np .unused .used)
    if copied then do
      each (List.finRange NOFILE) (dupOfile p np)
      let ip ← cwd p
      iget ip
      setCwd np (some ip)
      setState np .runnable
      pure pid
    else do
      -- freeproc
      setState np .unused
      pure (-1)

def closeOfile (p : Fin NPROC) (fd : Fin NOFILE) : FtM Unit := do
  match ← look fun s => (s.proc p).ofile fd with
  | none => pure ()
  | some f => do
    fileclose f
    setOfile p fd none

/-- `exit` of a process that may. -/
def exitProc (p : Fin NPROC) : FtM Int := do
  each (List.finRange NOFILE) (closeOfile p)
  let ip ← cwd p
  iput ip
  setCwd p none
  setState p .zombie
  pure 0

/-- Does not return in the source; the process makes no more calls. -/
def kexit (p : Fin NPROC) : FtM Int := do
  if ← look fun s => decide (p = s.initproc) then panic .initExiting else exitProc p

/-- `zombie` is the slot that `kwait` finds. -/
def kwait (zombie : Option (Fin NPROC)) : FtM Int :=
  match zombie with
  | none => pure (-1)
  | some np => do
    -- freeproc
    atomic (claim np .zombie .unused)
    pure 0

/-- The executable is looked up, read and put back; whether `exec` succeeds is an input. -/
def kexec (found : Option Nat) (ok : Bool) : FtM Int :=
  match found with
  | none => pure (-1)
  | some ip => do
    iget ip
    iput ip
    pure (if ok then 0 else -1)

/-! ## The machine -/

inductive Call where
  | open (omode : Nat) (found : Option Found)
  | dup (fd : Int)
  | pipe (page : Option Nat) (copied : Bool)
  | fork (child : Option (Fin NPROC)) (copied : Bool) (pid : Nat)
  | close (fd : Int)
  | exit
  | exec (found : Option Nat) (ok : Bool)
  | wait (zombie : Option (Fin NPROC))

def Call.prog (p : Fin NPROC) : Call → FtM Int
  | .open omode found => sysOpen p omode found
  | .dup fd => sysDup p fd
  | .pipe page copied => sysPipe p page copied
  | .fork child copied pid => kfork p child copied pid
  | .close fd => sysClose p fd
  | .exit => kexit p
  | .exec found ok => kexec found ok
  | .wait zombie => kwait zombie

def machine : Machine (Fin NPROC) Panic Sys Call Int where
  code := Call.prog
  ready := fun p _ s => (s.proc p).state = .runnable

/-- After `userinit`, with the inode of the root directory. -/
def boot (root : Nat) : Conf (Fin NPROC) Panic Sys Int where
  shared := {
    file := fun _ => ⟨.none, 0, false, false, 0, 0, 0, 0⟩
    pipe := fun _ => none
    iref := Function.update (fun _ => 0) root 1
    proc := Function.update (fun _ => ⟨.unused, fun _ => none, none⟩) 0
      ⟨.runnable, fun _ => none, some root⟩
    initproc := 0 }
  todo := fun _ => .ret 0

end Xv6.Ftable
