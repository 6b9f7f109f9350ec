/-
  The file system (`kernel/fs.c`).

  The code is a program over commands (`Cmd`): `bread`, `log_write` and `brelse` with the contents
  of a locked buffer, and actions on the kernel's own tables, which are `Mem`.  `Cmd.run` runs the
  commands on the buffer cache and the log; a section under a spin lock is one action.

  A `struct buf *` is an index into the cache and a `struct inode *` an index into `itable`.  There
  is one device, so device numbers are left out.  The caller holds the lock of the inode.  Fields of
  an on-disk structure are read and written at their byte offsets.
-/
import Xv6.Lib.Free
import Xv6.Log.Model
import Xv6.Param
import Mathlib.Logic.Function.Basic

namespace Xv6.Fs

open Lib

/-! ## Constants of `fs.h` and `stat.h` -/

abbrev NDIRECT : Nat := 12

abbrev NINDIRECT : Nat := 256

abbrev MAXFILE : Nat := NDIRECT + NINDIRECT

/-- Inodes per block. -/
abbrev IPB : Nat := 16

/-- Bitmap bits per block. -/
abbrev BPB : Nat := 8192

/-- `struct superblock`, with the fields that the functions below read. -/
structure Superblock where
  size : Nat
  ninodes : Nat
  inodestart : Nat
  bmapstart : Nat

/-- Block containing inode `i`. -/
def IBLOCK (i : Nat) (sb : Superblock) : Nat := i / IPB + sb.inodestart

/-- Block of the free map containing the bit for block `b`. -/
def BBLOCK (b : Nat) (sb : Superblock) : Nat := b / BPB + sb.bmapstart

/-- `struct dinode` but for the block addresses. -/
@[ext] structure Attr where
  type : BitVec 16
  major : BitVec 16
  minor : BitVec 16
  nlink : BitVec 16
  size : Nat
  deriving DecidableEq

/-- `struct dinode`. -/
@[ext] structure Dinode extends Attr where
  addrs : Nat → Nat

/-- `(struct dinode*)data + k`. -/
def getDinode (d : Block) (k : Nat) : Dinode where
  type := BitVec.ofNat 16 (d.getLE (64 * k) 2)
  major := BitVec.ofNat 16 (d.getLE (64 * k + 2) 2)
  minor := BitVec.ofNat 16 (d.getLE (64 * k + 4) 2)
  nlink := BitVec.ofNat 16 (d.getLE (64 * k + 6) 2)
  size := d.getLE (64 * k + 8) 4
  addrs := fun j => if j ≤ NDIRECT then d.getLE (64 * k + 12 + 4 * j) 4 else 0

def putDinode (d : Block) (k : Nat) (x : Dinode) : Block :=
  let d := d.putLE (64 * k) 2 x.type.toNat
  let d := d.putLE (64 * k + 2) 2 x.major.toNat
  let d := d.putLE (64 * k + 4) 2 x.minor.toNat
  let d := d.putLE (64 * k + 6) 2 x.nlink.toNat
  let d := d.putLE (64 * k + 8) 4 x.size
  putBlocks d (64 * k + 12) ((List.range (NDIRECT + 1)).map x.addrs)

/-- `((uint*)data)[k]`. -/
def getUint (d : Block) (k : Nat) : Nat := d.getLE (4 * k) 4

/-- `data[k/8] & (1 << (k % 8))`. -/
def getBit (d : Block) (k : Nat) : Bool := (d.byte (k / 8)).getLsbD (k % 8)

def setBit (d : Block) (k : Nat) : Block :=
  d.store (k / 8) 1 fun _ => d.byte (k / 8) ||| ((1 : Byte) <<< (k % 8))

def clearBit (d : Block) (k : Nat) : Block :=
  d.store (k / 8) 1 fun _ => d.byte (k / 8) &&& ~~~((1 : Byte) <<< (k % 8))

/-! ## The kernel's tables -/

/-- `struct inode`; `copy` is the copy of the disk inode. -/
structure Inode where
  inum : Nat
  ref : Nat
  valid : Bool
  copy : Dinode

structure Mem where
  sb : Superblock
  itable : Nat → Inode

def Mem.setInode (m : Mem) (ip : Nat) (x : Inode) : Mem :=
  { m with itable := Function.update m.itable ip x }

/-! ## Commands -/

inductive Cmd : Type → Type 1 where
  | bread (blockno : Nat) : Cmd (Fin NBUF)
  /-- Read `bp->data`. -/
  | data (bp : Fin NBUF) : Cmd Block
  /-- Change `bp->data`. -/
  | modify (bp : Fin NBUF) (f : Block → Block) : Cmd Unit
  | logWrite (bp : Fin NBUF) : Cmd Unit
  | brelse (bp : Fin NBUF) : Cmd Unit
  /-- An action on the kernel's tables. -/
  | act {β : Type} (f : Mem → Outcome Panic Mem β) : Cmd β

abbrev FsM := Free Cmd

/-- The kernel below the system calls: device, buffer cache, log, and the tables. -/
structure Sys where
  io : Io
  mem : Mem

/-- Run a command as process `me`. -/
def Cmd.run (me : Nat) {α : Type} (c : Cmd α) : Prog Panic Sys α :=
  let io {β : Type} (p : IoM β) : Prog Panic Sys β := p.zoom Sys.io fun io s => { s with io := io }
  match c with
  | .bread b => io (Xv6.bread me ROOTDEV b)
  | .data bp => io (bufData bp)
  | .modify bp f => io (modifyData bp f)
  | .logWrite bp => io (Xv6.logWrite bp)
  | .brelse bp => io (Xv6.brelse me bp)
  | .act f => Prog.atomic fun s =>
    match f s.mem with
    | .ok b m => .ok b { s with mem := m }
    | .panic m => .panic m
    | .block => .block

/-- Run a program as process `me`. -/
def exec (me : Nat) {α : Type} (p : FsM α) : Prog Panic Sys α := p.interp (Cmd.run me)

def bread (blockno : Nat) : FsM (Fin NBUF) := .cmd (.bread blockno)

def data (bp : Fin NBUF) : FsM Block := .cmd (.data bp)

def modify (bp : Fin NBUF) (f : Block → Block) : FsM Unit := .cmd (.modify bp f)

def logWrite (bp : Fin NBUF) : FsM Unit := .cmd (.logWrite bp)

def brelse (bp : Fin NBUF) : FsM Unit := .cmd (.brelse bp)

def act {α : Type} (f : Mem → Outcome Panic Mem α) : FsM α := .cmd (.act f)

def look {α : Type} (f : Mem → α) : FsM α := act fun m => .ok (f m) m

def update (f : Mem → Mem) : FsM Unit := act fun m => .ok () (f m)

def panic {α : Type} (m : Panic) : FsM α := act fun _ => .panic m

def getInode (ip : Nat) : FsM Inode := look fun m => m.itable ip

def modifyInode (ip : Nat) (f : Inode → Inode) : FsM Unit :=
  update fun m => m.setInode ip (f (m.itable ip))

/-- Change the copy of the disk inode. -/
def modifyCopy (ip : Nat) (f : Dinode → Dinode) : FsM Unit :=
  modifyInode ip fun x => { x with copy := f x.copy }

/-! ## Blocks -/

def bzero (bno : Nat) : FsM Unit := do
  let bp ← bread bno
  modify bp fun _ => Bytes.zero
  logWrite bp
  brelse bp

/-- The first free block of the `n` blocks that a bitmap block tells about. -/
def findFree (d : Block) (n : Nat) : Option Nat := (List.range n).find? fun bi => !getBit d bi

/-- `balloc`: 0 if there is no free block. -/
def balloc : FsM Nat := do
  let sb ← look Mem.sb
  let found ← Free.search ((sb.size + BPB - 1) / BPB) fun k => do
    let b := k * BPB
    let bp ← bread (BBLOCK b sb)
    let d ← data bp
    match findFree d (min BPB (sb.size - b)) with
    | some bi => do
      modify bp fun d => setBit d bi
      logWrite bp
      brelse bp
      bzero (b + bi)
      pure (some (b + bi))
    | none => do
      brelse bp
      pure none
  pure (found.getD 0)

def bfree (b : Nat) : FsM Unit := do
  let sb ← look Mem.sb
  let bp ← bread (BBLOCK b sb)
  let d ← data bp
  if getBit d (b % BPB) = false then panic .freeingFreeBlock
  else do
    modify bp fun d => clearBit d (b % BPB)
    logWrite bp
    brelse bp

/-! ## Inodes -/

/-- The inode that `ialloc` writes: all zero but for the type. -/
def Dinode.fresh (type : BitVec 16) : Dinode :=
  { type := type, major := 0, minor := 0, nlink := 0, size := 0, addrs := fun _ => 0 }

def iupdate (ip : Nat) : FsM Unit := do
  let sb ← look Mem.sb
  let x ← getInode ip
  let bp ← bread (IBLOCK x.inum sb)
  modify bp fun d => putDinode d (x.inum % IPB) x.copy
  logWrite bp
  brelse bp

/-! ## Inode content -/

/-- `ip->addrs[k] = b`. -/
def setAddr (ip k b : Nat) : FsM Unit :=
  modifyCopy ip fun x => { x with addrs := Function.update x.addrs k b }

/-- `ip->addrs[k]`, allocated if it is zero; 0 if out of disk space. -/
def addrsBlock (ip k : Nat) : FsM Nat := do
  let x ← getInode ip
  if x.copy.addrs k = 0 then do
    let addr ← balloc
    if addr = 0 then pure 0
    else do
      setAddr ip k addr
      pure addr
  else pure (x.copy.addrs k)

/-- The entry `a[k]` of the indirect block `ind`, allocated if it is zero. -/
def indirectBlock (ind k : Nat) : FsM Nat := do
  let bp ← bread ind
  let d ← data bp
  if getUint d k = 0 then do
    let addr ← balloc
    if addr = 0 then do
      brelse bp
      pure 0
    else do
      modify bp fun d => d.putLE (4 * k) 4 addr
      logWrite bp
      brelse bp
      pure addr
  else do
    brelse bp
    pure (getUint d k)

/-- `bmap`: 0 if out of disk space. -/
def bmap (ip bn : Nat) : FsM Nat :=
  if bn < NDIRECT then addrsBlock ip bn
  else if bn - NDIRECT < NINDIRECT then do
    let ind ← addrsBlock ip NDIRECT
    if ind = 0 then pure 0 else indirectBlock ind (bn - NDIRECT)
  else panic .bmapOutOfRange

def itrunc (ip : Nat) : FsM Unit := do
  Free.upto NDIRECT fun i => do
    let x ← getInode ip
    if x.copy.addrs i ≠ 0 then do
      bfree (x.copy.addrs i)
      setAddr ip i 0
    else pure ()
  let x ← getInode ip
  if x.copy.addrs NDIRECT ≠ 0 then do
    let bp ← bread (x.copy.addrs NDIRECT)
    let d ← data bp
    Free.upto NINDIRECT fun j => if getUint d j ≠ 0 then bfree (getUint d j) else pure ()
    brelse bp
    bfree (x.copy.addrs NDIRECT)
    setAddr ip NDIRECT 0
  else pure ()
  modifyCopy ip fun x => { x with size := 0 }
  iupdate ip

/-! ## User memory -/

/-- The memory of the calling process as a call finds it: the pages that `walkaddr` or `vmfault`
    gives, and those of them that can be written. -/
structure UserMem where
  page : Nat → Option (Nat → Byte)
  writable : Nat → Bool

/-- How many of the `len` bytes from `va` on are moved, page by page, before a page is refused. -/
def copyCount (ok : Nat → Bool) : Nat → Nat → Nat → Nat
  | 0, _, _ => 0
  | fuel + 1, va, len =>
    if len = 0 then 0
    else if ok (va / PGSIZE) then
      let n := min (PGSIZE - va % PGSIZE) len
      n + copyCount ok fuel (va + n) (len - n)
    else 0

/-- How many bytes `copyin` moves before it succeeds or fails. -/
def copyin (um : UserMem) (va len : Nat) : Nat :=
  copyCount (fun pg => (um.page pg).isSome) len va len

/-- How many bytes `copyout` moves before it succeeds or fails. -/
def copyout (um : UserMem) (va len : Nat) : Nat :=
  copyCount (fun pg => (um.page pg).isSome && um.writable pg) len va len

/-- The byte at a user address. -/
def UserMem.byte (um : UserMem) (va : Nat) : Byte :=
  match um.page (va / PGSIZE) with
  | some b => b (va % PGSIZE)
  | none => 0

/-- Where `writei` takes its data from: kernel memory, or user memory from an address on. -/
inductive Src where
  | kernel (b : Nat → Byte)
  | user (um : UserMem) (va : Nat)

/-- Where `readi` puts its data. -/
inductive Dst where
  | kernel
  | user (um : UserMem) (va : Nat)

def Src.byte : Src → Nat → Byte
  | .kernel b, j => b j
  | .user um va, j => um.byte (va + j)

/-- How many of `m` bytes from position `tot` on are copied. -/
def Src.count : Src → Nat → Nat → Nat
  | .kernel _, _, m => m
  | .user um va, tot, m => copyin um (va + tot) m

def Dst.count : Dst → Nat → Nat → Nat
  | .kernel, _, m => m
  | .user um va, tot, m => copyout um (va + tot) m

/-- `either_copyin` of `m` bytes from position `tot` of the source to offset `o` of the buffer.
    What is moved before a failure stays. -/
def eitherCopyin (bp : Fin NBUF) (o : Nat) (src : Src) (tot m : Nat) : FsM Bool := do
  modify bp fun d => d.store o (src.count tot m) fun j => src.byte (tot + j)
  pure (src.count tot m == m)

/-- What a destination has got: the bytes that were put there, by position. -/
abbrev Stored := Nat → Option Byte

/-- `either_copyout` of `m` bytes from offset `o` of the buffer to position `tot` of the
    destination. What is moved before a failure stays. -/
def eitherCopyout (bp : Fin NBUF) (o : Nat) (dst : Dst) (acc : Stored) (tot m : Nat) :
    FsM (Bool × Stored) := do
  let d ← data bp
  let c := dst.count tot m
  pure (c == m, fun j => if tot ≤ j ∧ j < tot + c then some (d.byte (o + (j - tot))) else acc j)

/-! ## Reading and writing -/

/-- The loop of `readi`. `fuel` bounds the rounds; `n` is enough, as each moves a byte at least. -/
def readiLoop (ip : Nat) (dst : Dst) : Nat → Nat → Nat → Nat → Stored → FsM (Int × Stored)
  | 0, tot, _, _, acc => pure (tot, acc)
  | fuel + 1, tot, off, n, acc =>
    if tot < n then do
      let addr ← bmap ip (off / BSIZE)
      if addr = 0 then pure (tot, acc)
      else do
        let bp ← bread addr
        let m := min (n - tot) (BSIZE - off % BSIZE)
        let (copied, acc) ← eitherCopyout bp (off % BSIZE) dst acc tot m
        if copied = false then do
          brelse bp
          pure (-1, acc)
        else do
          brelse bp
          readiLoop ip dst fuel (tot + m) (off + m) n acc
    else pure (tot, acc)

/-- `readi`: the number of bytes or -1, and what the destination got. -/
def readi (ip : Nat) (dst : Dst) (off n : Nat) : FsM (Int × Stored) := do
  let x ← getInode ip
  if off > x.copy.size ∨ (off + n) % 2 ^ 32 < off then pure (0, fun _ => none)
  else
    let n := if off + n > x.copy.size then x.copy.size - off else n
    readiLoop ip dst n 0 off n fun _ => none

/-- The loop of `writei`: the bytes written and the offset reached. -/
def writeiLoop (ip : Nat) (src : Src) : Nat → Nat → Nat → Nat → FsM (Nat × Nat)
  | 0, tot, off, _ => pure (tot, off)
  | fuel + 1, tot, off, n =>
    if tot < n then do
      let addr ← bmap ip (off / BSIZE)
      if addr = 0 then pure (tot, off)
      else do
        let bp ← bread addr
        let m := min (n - tot) (BSIZE - off % BSIZE)
        if ← eitherCopyin bp (off % BSIZE) src tot m then do
          logWrite bp
          brelse bp
          writeiLoop ip src fuel (tot + m) (off + m) n
        else do
          brelse bp
          pure (tot, off)
    else pure (tot, off)

def writei (ip : Nat) (src : Src) (off n : Nat) : FsM Int := do
  let x ← getInode ip
  if off > x.copy.size ∨ (off + n) % 2 ^ 32 < off then pure (-1)
  else if (off + n) % 2 ^ 32 > MAXFILE * BSIZE then pure (-1)
  else do
    let (tot, off) ← writeiLoop ip src n 0 off n
    modifyCopy ip fun x => if off > x.size then { x with size := off } else x
    iupdate ip
    pure tot

end Xv6.Fs
