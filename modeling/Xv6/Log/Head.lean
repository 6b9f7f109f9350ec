/-
  The header block of the log: what `write_head` stores is what `read_head` loads.

  `decodeHead_encodeHead` holds whatever the header block contained before, so stale numbers of
  longer transactions behind the `n`-th entry do no harm.
-/
import Xv6.Log.Model

namespace Xv6

open Lib

theorem getLE_putBlocks_before (bs : List Nat) (d : Block) {o o' : Nat} (h : o' + 4 ≤ o) :
    (putBlocks d o bs).getLE o' 4 = d.getLE o' 4 := by
  induction bs generalizing d o with
  | nil => rfl
  | cons b bs ih =>
    rw [putBlocks, ih (d.putLE o 4 b) (by omega)]
    exact Bytes.getLE_putLE_disjoint d (Or.inl h)

theorem getLE_putBlocks (bs : List Nat) (d : Block) {o i : Nat} (hi : i < bs.length)
    (ho : o + 4 * bs.length ≤ BSIZE) :
    (putBlocks d o bs).getLE (o + 4 * i) 4 = bs.getD i 0 % 256 ^ 4 := by
  induction bs generalizing d o i with
  | nil => simp at hi
  | cons b bs ih =>
    simp only [List.length_cons] at hi ho
    cases i with
    | zero =>
      rw [putBlocks, show o + 4 * 0 = o by omega, getLE_putBlocks_before _ _ (Nat.le_refl _)]
      exact Bytes.getLE_putLE d (by omega)
    | succ i =>
      have := ih (d.putLE o 4 b) (o := o + 4) (i := i) (by omega) (by omega)
      rw [putBlocks, show o + 4 * (i + 1) = o + 4 + 4 * i by omega, this]
      rfl

theorem headN_encodeHead (d : Block) (bs : List Nat) (hlen : bs.length ≤ LOGBLOCKS) :
    headN (encodeHead d bs) = bs.length := by
  unfold LOGBLOCKS at hlen
  have hn : (encodeHead d bs).getLE 0 4 = bs.length := by
    rw [encodeHead, getLE_putBlocks_before _ _ (by omega),
      Bytes.getLE_putLE d (by unfold BSIZE; omega)]
    exact Nat.mod_eq_of_lt (by omega)
  unfold headN
  rw [hn]
  exact if_pos (by omega)

theorem decodeHead_encodeHead (d : Block) (bs : List Nat) (hlen : bs.length ≤ LOGBLOCKS)
    (hbs : ∀ b ∈ bs, b < 2 ^ 32) : decodeHead (encodeHead d bs) = bs := by
  unfold decodeHead
  rw [headN_encodeHead d bs hlen]
  apply List.ext_getElem
  · simp
  · intro i h1 h2
    have hb := hbs _ (List.getElem_mem h2)
    rw [List.getElem_map, List.getElem_range, headBlock, encodeHead,
      getLE_putBlocks bs _ h2 (by unfold LOGBLOCKS at hlen; unfold BSIZE; omega),
      List.getD_eq_getElem?_getD, List.getElem?_eq_getElem h2, Option.getD_some]
    exact Nat.mod_eq_of_lt (by omega)

theorem decodeHead_length (d : Block) : (decodeHead d).length = headN d := by
  simp [decodeHead]

end Xv6
