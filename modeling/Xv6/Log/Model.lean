/-
  The redo log (`kernel/log.c`).

  The sections of `begin_op`, `end_op` and `log_write` that run under `log.lock` are functions on
  `struct log`; the programs below call them as single atomic actions. `lh.block[0..lh.n)` is a
  list, so `lh.n` is its length. On disk the header block holds `n` and then the block numbers as
  32-bit little-endian integers; `write_head` leaves whatever stood behind the `n`-th number.
-/
import Xv6.Bio.Spec

namespace Xv6

open Lib.Prog

/-! ## The sections under `log.lock` -/

/-- `begin_op` goes on: no commit is running and the log has room for one more operation. -/
def Log.admits (l : Log) : Prop :=
  l.committing = false ∧
    ¬ ((l.block.length : Int) + (l.outstanding + 1) * MAXOPBLOCKS > LOGBLOCKS)

instance (l : Log) : Decidable l.admits := inferInstanceAs (Decidable (_ ∧ _))

def Log.beginOp (l : Log) : Log := { l with outstanding := l.outstanding + 1 }

/-- `end_op` up to the release of `log.lock`. The flag is `do_commit`. -/
def Log.endOp (l : Log) : Except Panic (Log × Bool) :=
  let l := { l with outstanding := l.outstanding - 1 }
  if l.committing then .error .logCommitting
  else if l.outstanding = 0 then .ok ({ l with committing := true }, true)
  else .ok (l, false)

/-- `log_write` of block `b`. The flag says that the block is new in the log: its buffer is
    pinned. -/
def Log.write (l : Log) (b : Nat) : Except Panic (Log × Bool) :=
  if l.block.length ≥ LOGBLOCKS then .error .tooBigATransaction
  else if l.outstanding < 1 then .error .logWriteOutsideOfTrans
  else if b ∈ l.block then .ok (l, false)
  else .ok ({ l with block := l.block ++ [b] }, true)

theorem Log.endOp_cases {l l' : Log} {doCommit : Bool} (h : l.endOp = .ok (l', doCommit)) :
    l.outstanding = 1 ∧ doCommit = true ∧ l' = { l with outstanding := 0, committing := true } ∨
      l.outstanding ≠ 1 ∧ doCommit = false ∧
        l' = { l with outstanding := l.outstanding - 1 } := by
  unfold Log.endOp at h
  dsimp only at h
  split at h
  · cases h
  split at h
  · rename_i ho
    cases h
    refine Or.inl ⟨by omega, rfl, ?_⟩
    rw [ho]
  · cases h
    exact Or.inr ⟨by omega, rfl, rfl⟩

theorem Log.write_cases {l l' : Log} {b : Nat} {new : Bool} (h : l.write b = .ok (l', new)) :
    l.block.length < LOGBLOCKS ∧
      (b ∈ l.block ∧ l' = l ∧ new = false ∨
        b ∉ l.block ∧ l' = { l with block := l.block ++ [b] } ∧ new = true) := by
  unfold Log.write at h
  split at h
  · cases h
  refine ⟨by omega, ?_⟩
  split at h
  · cases h
  split at h
  · rename_i hb
    cases h
    exact Or.inl ⟨hb, rfl, rfl⟩
  · rename_i hb
    cases h
    exact Or.inr ⟨hb, rfl, rfl⟩

/-! ## The header block -/

/-- The `n` of the header, as a signed 32-bit integer cut at zero: the loops over the header run
    that many times. -/
def headN (d : Block) : Nat :=
  let n := d.getLE 0 4
  if n < 2 ^ 31 then n else 0

def headBlock (d : Block) (i : Nat) : Nat := d.getLE (4 + 4 * i) 4

/-- `read_head`: the list of block numbers in a header. -/
def decodeHead (d : Block) : List Nat := (List.range (headN d)).map (headBlock d)

/-- Consecutive 32-bit integers from offset `o` on. -/
def putBlocks (d : Block) (o : Nat) : List Nat → Block
  | [] => d
  | b :: bs => putBlocks (d.putLE o 4 b) (o + 4) bs

/-- `write_head`: the header block `d` with `n` and `block[0..n)` replaced. -/
def encodeHead (d : Block) (bs : List Nat) : Block := putBlocks (d.putLE 0 4 bs.length) 4 bs

/-! ## `log.c` -/

def readHead (me : Nat) : IoM Unit := do
  let start ← look fun s => s.log.start
  let i ← bread me ROOTDEV start
  let d ← bufData i
  update fun s => { s with log := { s.log with block := decodeHead d } }
  brelse me i

def writeHead (me : Nat) : IoM Unit := do
  let l ← look fun s => s.log
  let i ← bread me ROOTDEV l.start
  modifyData i fun d => encodeHead d l.block
  bwrite me i
  brelse me i

def installTrans (me : Nat) (recovering : Bool) : IoM Unit := do
  let l ← look fun s => s.log
  upto l.block.length fun tail => do
    let lbuf ← bread me ROOTDEV (l.start + tail + 1)
    let dbuf ← bread me ROOTDEV (l.block.getD tail 0)
    let d ← bufData lbuf
    modifyData dbuf fun _ => d
    bwrite me dbuf
    if recovering then pure () else update (bunpin dbuf)
    brelse me lbuf
    brelse me dbuf

/-- `log.lh.n = 0`. -/
def clearLog : IoM Unit := update fun s => { s with log := { s.log with block := [] } }

def recoverFromLog (me : Nat) : IoM Unit := do
  readHead me
  installTrans me true
  clearLog
  writeHead me

def writeLog (me : Nat) : IoM Unit := do
  let l ← look fun s => s.log
  upto l.block.length fun tail => do
    let dst ← bread me ROOTDEV (l.start + tail + 1)
    let src ← bread me ROOTDEV (l.block.getD tail 0)
    let d ← bufData src
    modifyData dst fun _ => d
    bwrite me dst
    brelse me src
    brelse me dst

def commit (me : Nat) : IoM Unit := do
  let l ← look fun s => s.log
  if l.block.length > 0 then
    writeLog me
    writeHead me
    installTrans me false
    clearLog
    writeHead me
  else pure ()

/-- `begin_op`: waits until the log admits the operation. -/
def beginOp : IoM Unit := atomic fun s =>
  if s.log.admits then .ok () { s with log := s.log.beginOp } else .block

def endOp (me : Nat) : IoM Unit := do
  let doCommit ← atomic fun s =>
    match s.log.endOp with
    | .ok (l, c) => .ok c { s with log := l }
    | .error m => .panic m
  if doCommit then
    commit me
    update fun s => { s with log := { s.log with committing := false } }
  else pure ()

def logWrite (i : Fin NBUF) : IoM Unit := atomic fun s =>
  match s.log.write (s.buf i).blockno with
  | .ok (l, new) =>
    let t := { s with log := l }
    .ok () (if new then bpin i t else t)
  | .error m => .panic m

end Xv6
