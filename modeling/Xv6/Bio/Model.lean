/-
  The buffer cache (`kernel/bio.c`) over an ideal block device.

  A `struct buf *` is an index into `bcache.buf`; the doubly linked list through `bcache.head` is
  the list of these indices, most recently used first. That the list visits every buffer exactly
  once is a field of `Bcache`, so every operation that splices the list proves it again.

  The device is durable, writes whole blocks atomically and in the order they are issued, which is
  what `bwrite` relies on. `issued` keeps the block numbers of the writes, the newest first.

  A section protected by a spin lock is one atomic action; a sleep lock that is held blocks.
-/
import Xv6.Lib.Prog
import Xv6.Lib.Bytes
import Xv6.Param
import Mathlib.Data.List.FinRange

namespace Xv6

open Lib Lib.Prog

/-! ## Constants of `param.h` and `fs.h` -/

/-- Block size in bytes. -/
abbrev BSIZE : Nat := 1024

/-- Maximum number of blocks any file-system operation writes. -/
abbrev MAXOPBLOCKS : Nat := 10

/-- Maximum number of data blocks in the on-disk log. -/
abbrev LOGBLOCKS : Nat := 30

/-- Size of the buffer cache. -/
abbrev NBUF : Nat := 30

/-- Device number of the file-system root disk. -/
abbrev ROOTDEV : Nat := 1

/-- The panics of the file system, one for each message of the source. -/
inductive Panic where
  | bgetNoBuffers
  | bwrite
  | brelse
  | tooBigATransaction
  | logWriteOutsideOfTrans
  | logCommitting
  | freeingFreeBlock
  | bmapOutOfRange
  deriving DecidableEq, Repr

/-- The contents of a disk block. -/
abbrev Block := Bytes BSIZE

/-! ## State -/

/-- The block device: its contents, and the block numbers written so far, the newest first. -/
structure Disk where
  data : Nat → Block
  issued : List Nat

def Disk.write (d : Disk) (b : Nat) (v : Block) : Disk :=
  ⟨fun c => if c = b then v else d.data c, b :: d.issued⟩

/-- `struct buf`. The sleep lock holds the pid of its holder. -/
structure Buf where
  valid : Bool
  dev : Nat
  blockno : Nat
  refcnt : BitVec 32
  lock : Option Nat
  data : Block

/-- Does the buffer hold block `b` of device `dev`? -/
def Buf.Is (x : Buf) (dev b : Nat) : Prop := x.dev = dev ∧ x.blockno = b

instance (x : Buf) (dev b : Nat) : Decidable (x.Is dev b) :=
  inferInstanceAs (Decidable (_ ∧ _))

/-- `bcache`: the buffers and the list through `head`, from `head.next` on. -/
structure Bcache where
  buf : Fin NBUF → Buf
  lru : List (Fin NBUF)
  lru_perm : lru.Perm (List.finRange NBUF)

def Bcache.set (c : Bcache) (i : Fin NBUF) (x : Buf) : Bcache :=
  { c with buf := fun j => if j = i then x else c.buf j }

/-- Unlink buffer `i` and insert it after `head`. -/
def Bcache.moveFront (c : Bcache) (i : Fin NBUF) : Bcache where
  buf := c.buf
  lru := i :: c.lru.erase i
  lru_perm := by
    have hi : i ∈ c.lru := c.lru_perm.mem_iff.mpr (List.mem_finRange i)
    exact (List.perm_cons_erase hi).symm.trans c.lru_perm

/-- `struct log`; `block` is `lh.block[0..lh.n)`. -/
structure Log where
  start : Nat
  outstanding : Int
  committing : Bool
  block : List Nat

/-- The part of the kernel state below the file system: device, buffer cache and log. -/
structure Io where
  disk : Disk
  bcache : Bcache
  log : Log

namespace Io

/-- The buffer with index `i`. -/
def buf (s : Io) (i : Fin NBUF) : Buf := s.bcache.buf i

def setBuf (s : Io) (i : Fin NBUF) (x : Buf) : Io := { s with bcache := s.bcache.set i x }

def setData (s : Io) (i : Fin NBUF) (d : Block) : Io := s.setBuf i { s.buf i with data := d }

end Io

/-- A kernel memory just booted on the device `d`: the buffers are zeroed and in the order that
    `binit` leaves them, the log is zeroed but for its start. -/
def Io.boot (start : Nat) (d : Nat → Block) : Io where
  disk := ⟨d, []⟩
  bcache :=
    { buf := fun _ => ⟨false, 0, 0, 0, none, Bytes.zero⟩
      lru := (List.finRange NBUF).reverse
      lru_perm := List.reverse_perm _ }
  log := ⟨start, 0, false, []⟩

abbrev IoM := Prog Panic Io

/-! ## Sleep locks of buffers -/

def acquiresleep (me : Nat) (i : Fin NBUF) : IoM Unit := atomic fun s =>
  match (s.buf i).lock with
  | some _ => .block
  | none => .ok () (s.setBuf i { s.buf i with lock := some me })

def holdingsleep (me : Nat) (i : Fin NBUF) : IoM Bool :=
  look fun s => (s.buf i).lock == some me

def releasesleep (i : Fin NBUF) : IoM Unit :=
  update fun s => s.setBuf i { s.buf i with lock := none }

/-! ## `bio.c` -/

/-- The scan of `bget` under `bcache.lock`: forwards for a cached block, else backwards for the
    least recently used buffer that nobody references. -/
def bgetScan (dev blockno : Nat) (s : Io) : Outcome Panic Io (Fin NBUF) :=
  match s.bcache.lru.find? fun i => decide ((s.buf i).Is dev blockno) with
  | some i => .ok i (s.setBuf i { s.buf i with refcnt := (s.buf i).refcnt + 1 })
  | none =>
    match s.bcache.lru.reverse.find? fun i => decide ((s.buf i).refcnt = 0) with
    | some i =>
      .ok i (s.setBuf i
        { s.buf i with dev := dev, blockno := blockno, valid := false, refcnt := 1 })
    | none => .panic .bgetNoBuffers

def bget (me dev blockno : Nat) : IoM (Fin NBUF) := do
  let i ← atomic (bgetScan dev blockno)
  acquiresleep me i
  pure i

def bread (me dev blockno : Nat) : IoM (Fin NBUF) := do
  let i ← bget me dev blockno
  -- virtio_disk_rw(b, 0); b->valid = 1
  update fun s =>
    if (s.buf i).valid then s
    else s.setBuf i { s.buf i with data := s.disk.data (s.buf i).blockno, valid := true }
  pure i

def bwrite (me : Nat) (i : Fin NBUF) : IoM Unit := do
  if ← holdingsleep me i then
    -- virtio_disk_rw(b, 1)
    update fun s => { s with disk := s.disk.write (s.buf i).blockno (s.buf i).data }
  else panic .bwrite

/-- The second half of `brelse`, under `bcache.lock`. -/
def dropRef (i : Fin NBUF) (s : Io) : Io :=
  let t := s.setBuf i { s.buf i with refcnt := (s.buf i).refcnt - 1 }
  if (t.buf i).refcnt = 0 then { t with bcache := t.bcache.moveFront i } else t

def brelse (me : Nat) (i : Fin NBUF) : IoM Unit := do
  if ← holdingsleep me i then
    releasesleep i
    update (dropRef i)
  else panic .brelse

def bpin (i : Fin NBUF) (s : Io) : Io :=
  s.setBuf i { s.buf i with refcnt := (s.buf i).refcnt + 1 }

def bunpin (i : Fin NBUF) (s : Io) : Io :=
  s.setBuf i { s.buf i with refcnt := (s.buf i).refcnt - 1 }

/-- Read `b->data`. -/
def bufData (i : Fin NBUF) : IoM Block := look fun s => (s.buf i).data

/-- Change `b->data` in place. -/
def modifyData (i : Fin NBUF) (f : Block → Block) : IoM Unit :=
  update fun s => s.setData i (f (s.buf i).data)

end Xv6
