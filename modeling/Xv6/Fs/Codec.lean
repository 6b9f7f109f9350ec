/-
  The on-disk structures: what is written to one of them is read back, and the others in the same
  block stay as they are.

  `getDinode_putDinode` and `getDinode_putDinode_ne` for the inodes of a block, `getBit_setBit` and
  `getBit_clearBit` for the bitmap, `getUint_putLE` for an indirect block.
-/
import Xv6.Fs.Model
import Xv6.Log.Head

namespace Xv6.Fs

open Lib

/-! ## Inodes -/

/-- The fields have the widths they have on disk. -/
structure Dinode.Fits (x : Dinode) : Prop where
  size : x.size < 2 ^ 32
  addrs : ∀ j, x.addrs j < 2 ^ 32
  out : ∀ j, NDIRECT < j → x.addrs j = 0

variable {j k : Nat}

theorem byte_putBlocks_outside (bs : List Nat) (d : Block) {o : Nat}
    (h : j < o ∨ o + 4 * bs.length ≤ j) : (putBlocks d o bs).byte j = d.byte j := by
  induction bs generalizing d o with
  | nil => rfl
  | cons b bs ih =>
    rw [List.length_cons] at h
    rw [putBlocks, ih (d.putLE o 4 b) (by omega)]
    exact Bytes.byte_putLE_outside d (by omega)

theorem byte_putDinode_outside (d : Block) (x : Dinode) (h : j < 64 * k ∨ 64 * k + 64 ≤ j) :
    (putDinode d k x).byte j = d.byte j := by
  unfold putDinode
  rw [byte_putBlocks_outside _ _ (by simp only [List.length_map, List.length_range, NDIRECT]; omega),
    Bytes.byte_putLE_outside _ (by omega), Bytes.byte_putLE_outside _ (by omega),
    Bytes.byte_putLE_outside _ (by omega), Bytes.byte_putLE_outside _ (by omega),
    Bytes.byte_putLE_outside _ (by omega)]

theorem getDinode_congr {d e : Block}
    (h : ∀ j, 64 * k ≤ j → j < 64 * k + 64 → d.byte j = e.byte j) : getDinode d k = getDinode e k := by
  have hget : ∀ o n, 64 * k ≤ o → o + n ≤ 64 * k + 64 → d.getLE o n = e.getLE o n := by
    intro o n h1 h2
    apply Bytes.getLE_congr
    intro j hj
    exact h (o + j) (by omega) (by omega)
  unfold getDinode
  rw [hget (64 * k) 2 (by omega) (by omega), hget (64 * k + 2) 2 (by omega) (by omega),
    hget (64 * k + 4) 2 (by omega) (by omega), hget (64 * k + 6) 2 (by omega) (by omega),
    hget (64 * k + 8) 4 (by omega) (by omega)]
  congr 1
  funext j
  split
  · rename_i hj
    simp only [NDIRECT] at hj
    exact hget _ 4 (by omega) (by omega)
  · rfl

theorem getDinode_putDinode_ne (d : Block) (x : Dinode) (h : j ≠ k) :
    getDinode (putDinode d k x) j = getDinode d j := by
  apply getDinode_congr
  intro i h1 h2
  exact byte_putDinode_outside d x (by omega)

theorem ofNat_mod_toNat (v : BitVec 16) : BitVec.ofNat 16 (v.toNat % 256 ^ 2) = v := by
  rw [Nat.mod_eq_of_lt (by exact v.isLt)]
  exact BitVec.ofNat_toNat 16 v |>.trans (BitVec.setWidth_eq v)

theorem getDinode_putDinode (d : Block) {x : Dinode} (hk : k < IPB) (hx : x.Fits) :
    getDinode (putDinode d k x) k = x := by
  have hin : 64 * k + 64 ≤ BSIZE := by
    simp only [IPB, BSIZE] at hk ⊢
    omega
  have hlen : ((List.range (NDIRECT + 1)).map x.addrs).length = NDIRECT + 1 := by simp
  -- the words of `addrs` do not meet the fields before them
  have hhead : ∀ (e : Block) (o n : Nat), o + n ≤ 64 * k + 12 →
      (putBlocks e (64 * k + 12) ((List.range (NDIRECT + 1)).map x.addrs)).getLE o n =
        e.getLE o n := by
    intro e o n h
    apply Bytes.getLE_congr
    intro j hj
    exact byte_putBlocks_outside _ _ (by omega)
  have haddrs : ∀ j, j ≤ NDIRECT →
      (putDinode d k x).getLE (64 * k + 12 + 4 * j) 4 = x.addrs j := by
    intro j hj
    unfold putDinode
    rw [getLE_putBlocks _ _ (by rw [hlen]; omega) (by rw [hlen]; simp only [NDIRECT]; omega)]
    have hget : ((List.range (NDIRECT + 1)).map x.addrs).getD j 0 = x.addrs j := by
      rw [List.getD_eq_getElem?_getD, List.getElem?_map, List.getElem?_range (by omega)]
      rfl
    rw [hget]
    exact Nat.mod_eq_of_lt (hx.addrs j)
  apply Dinode.ext
  · show BitVec.ofNat 16 ((putDinode d k x).getLE (64 * k) 2) = x.type
    simp (disch := omega) only [putDinode, hhead, Bytes.getLE_putLE_disjoint, Bytes.getLE_putLE,
      ofNat_mod_toNat]
  · show BitVec.ofNat 16 ((putDinode d k x).getLE (64 * k + 2) 2) = x.major
    simp (disch := omega) only [putDinode, hhead, Bytes.getLE_putLE_disjoint, Bytes.getLE_putLE,
      ofNat_mod_toNat]
  · show BitVec.ofNat 16 ((putDinode d k x).getLE (64 * k + 4) 2) = x.minor
    simp (disch := omega) only [putDinode, hhead, Bytes.getLE_putLE_disjoint, Bytes.getLE_putLE,
      ofNat_mod_toNat]
  · show BitVec.ofNat 16 ((putDinode d k x).getLE (64 * k + 6) 2) = x.nlink
    simp (disch := omega) only [putDinode, hhead, Bytes.getLE_putLE_disjoint, Bytes.getLE_putLE,
      ofNat_mod_toNat]
  · show (putDinode d k x).getLE (64 * k + 8) 4 = x.size
    unfold putDinode
    rw [hhead _ _ _ (by omega), Bytes.getLE_putLE _ (by omega)]
    exact Nat.mod_eq_of_lt hx.size
  · funext j
    show (if j ≤ NDIRECT then _ else 0) = x.addrs j
    split
    · rename_i hj
      exact haddrs j hj
    · exact (hx.out j (by omega)).symm

theorem getLsbD_mask : ∀ a, a < 8 → ∀ b, b < 8 →
    ((1 : Byte) <<< a).getLsbD b = decide (b = a) := by decide

/-- The byte of bit `k` is written: what becomes of bit `j`. -/
theorem getBit_store (d : Block) (b : Byte) (hj : j < BPB) :
    getBit (d.store (k / 8) 1 fun _ => b) j =
      if j / 8 = k / 8 then b.getLsbD (j % 8) else getBit d j := by
  unfold getBit
  simp only [BPB] at hj
  rw [Bytes.byte_store _ _ _ _ (by simp only [BSIZE]; omega)]
  split
  · rw [if_pos (by omega)]
  · rw [if_neg (by omega)]

theorem getLsbD_bit (hidx : j / 8 = k / 8) :
    ((1 : Byte) <<< (k % 8)).getLsbD (j % 8) = decide (j = k) := by
  rw [getLsbD_mask _ (by omega) _ (by omega), decide_eq_decide]
  omega

theorem getBit_setBit (d : Block) (hj : j < BPB) :
    getBit (setBit d k) j = (decide (j = k) || getBit d j) := by
  unfold setBit
  rw [getBit_store _ _ hj]
  split
  · rename_i hidx
    rw [BitVec.getLsbD_or, ← hidx, Bool.or_comm, getLsbD_bit hidx, getBit]
  · have hjk : j ≠ k := by omega
    rw [decide_eq_false hjk, Bool.false_or]

theorem getBit_clearBit (d : Block) (hj : j < BPB) :
    getBit (clearBit d k) j = (!decide (j = k) && getBit d j) := by
  unfold clearBit
  rw [getBit_store _ _ hj]
  split
  · rename_i hidx
    rw [BitVec.getLsbD_and, ← hidx, Bool.and_comm, BitVec.getLsbD_not, getLsbD_bit hidx,
      decide_eq_true (by omega : j % 8 < 8), Bool.true_and, getBit]
  · have hjk : j ≠ k := by omega
    rw [decide_eq_false hjk, Bool.not_false, Bool.true_and]

/-! ## Indirect blocks -/

theorem getUint_zero (k : Nat) : getUint Bytes.zero k = 0 := Bytes.getLE_zero _ _

theorem getUint_putLE (d : Block) {v : Nat} (hk : k < NINDIRECT) (hv : v < 2 ^ 32) :
    getUint (d.putLE (4 * k) 4 v) j = if j = k then v else getUint d j := by
  unfold getUint
  simp only [NINDIRECT] at hk
  split
  · rename_i hjk
    rw [hjk, Bytes.getLE_putLE _ (by simp only [BSIZE]; omega)]
    exact Nat.mod_eq_of_lt hv
  · exact Bytes.getLE_putLE_disjoint _ (by omega)

end Xv6.Fs
