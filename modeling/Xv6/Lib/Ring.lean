/-
  Ring buffers with free-running counters.

  The cells of a ring of size `N` are indexed by two counters of `w` bits that only go up, modulo `N`:
  `r` is what has been read, `t` what has been written.  The counters wrap around, which the index
  does not notice as `N` divides `2 ^ w`.
-/
import Mathlib.Data.BitVec

namespace Xv6.Lib.Ring

open List

variable {α : Type} {w N : Nat} [NeZero N]

/-- The cell that a counter designates. -/
def slot (N : Nat) [NeZero N] (x : BitVec w) : Fin N := Fin.ofNat N x.toNat

/-- How many cells are in use. -/
def count (r t : BitVec w) : Nat := (t - r).toNat

/-- The cells in use, oldest first. -/
def contents (data : Fin N → α) (r t : BitVec w) : List α :=
  (range (count r t)).map fun j => data (slot N (r + BitVec.ofNat w j))

theorem count_lt (r t : BitVec w) : count r t < 2 ^ w := (t - r).isLt

theorem add_count (r t : BitVec w) : r + BitVec.ofNat w (count r t) = t := by
  rw [count, BitVec.ofNat_toNat, BitVec.setWidth_eq, add_sub_cancel]

variable {n : Nat} {r t : BitVec w}

theorem count_add (r : BitVec w) (hn : n < 2 ^ w) : count r (r + BitVec.ofNat w n) = n := by
  rw [count, add_sub_cancel_left, BitVec.toNat_ofNat, Nat.mod_eq_of_lt hn]

theorem count_eq_iff (hn : n < 2 ^ w) : count r t = n ↔ t = r + BitVec.ofNat w n := by
  constructor
  · rintro rfl
    exact (add_count r t).symm
  · rintro rfl
    exact count_add r hn

theorem count_eq_zero : count r t = 0 ↔ r = t := by
  rw [count_eq_iff (Nat.two_pow_pos w)]
  simp [eq_comm]

theorem count_put (h : count r t + 1 < 2 ^ w) : count r (t + 1) = count r t + 1 := by
  rw [count_eq_iff h, BitVec.ofNat_add, ← add_assoc, add_count]
  rfl

/-- A counter `t` between `r` and `u` splits the cells in use. -/
theorem count_split {u : BitVec w} (h : count r t ≤ count r u) :
    count r u = count r t + count t u := by
  have hlt := count_lt r u
  have hrest : count t u = count r u - count r t := by
    rw [count_eq_iff (by omega)]
    calc u = r + BitVec.ofNat w (count r u) := (add_count r u).symm
      _ = r + BitVec.ofNat w (count r t + (count r u - count r t)) := by rw [Nat.add_sub_cancel' h]
      _ = r + BitVec.ofNat w (count r t) + BitVec.ofNat w (count r u - count r t) := by
        rw [BitVec.ofNat_add, ← add_assoc]
      _ = t + BitVec.ofNat w (count r u - count r t) := by rw [add_count]
  omega

theorem count_take (h : r ≠ t) : count r t = count (r + 1) t + 1 := by
  have hpos : 0 < count r t := Nat.pos_of_ne_zero fun h0 => h (count_eq_zero.mp h0)
  have hlt := count_lt r t
  have hone : count r (r + 1) = 1 := count_add (n := 1) r (by omega)
  rw [count_split (by omega : count r (r + 1) ≤ count r t), hone, Nat.add_comm]

/-- The last cell in use is given back. -/
theorem count_drop (h : r ≠ t) : count r t = count r (t - 1) + 1 := by
  have hsame : count r (t - 1) = count (r + 1) t := by
    rw [count, count, sub_sub, add_comm 1 r]
  rw [hsame, count_take h]

theorem slot_val (hdvd : N ∣ 2 ^ w) (r : BitVec w) (j : Nat) :
    (slot N (r + BitVec.ofNat w j)).val = (r.toNat + j) % N := by
  simp only [slot, Fin.val_ofNat, BitVec.toNat_add, BitVec.toNat_ofNat]
  rw [Nat.mod_mod_of_dvd _ hdvd, Nat.add_mod, Nat.mod_mod_of_dvd _ hdvd, ← Nat.add_mod]

/-- The cell behind those in use is not one of them, unless the ring is full. -/
theorem slot_ne (hdvd : N ∣ 2 ^ w) (r : BitVec w) {j : Nat} (hj : j < n) (hn : n < N) :
    slot N (r + BitVec.ofNat w j) ≠ slot N (r + BitVec.ofNat w n) := by
  intro h
  have hval := congrArg Fin.val h
  rw [slot_val hdvd, slot_val hdvd] at hval
  have hmod : (n - j) % N = 0 := by
    have hsub := Nat.sub_mod_eq_zero_of_mod_eq hval.symm
    rwa [Nat.add_sub_add_left] at hsub
  rw [Nat.mod_eq_of_lt (by omega)] at hmod
  omega

theorem contents_put (hdvd : N ∣ 2 ^ w) (hN : N < 2 ^ w) (data : Fin N → α) (h : count r t < N)
    (a : α) :
    contents (Function.update data (slot N t) a) r (t + 1) = contents data r t ++ [a] := by
  rw [contents, count_put (by omega), range_succ, map_append, map_singleton,
    add_count, Function.update_self]
  congr 1
  refine map_congr_left ?_
  intro j hj
  refine Function.update_of_ne ?_ a data
  have hne := slot_ne hdvd r (mem_range.mp hj) h
  rwa [add_count] at hne

theorem contents_take (data : Fin N → α) (h : r ≠ t) :
    contents data r t = data (slot N r) :: contents data (r + 1) t := by
  rw [contents, count_take h, range_succ_eq_map, map_cons, map_map]
  congr 1
  · simp
  · refine map_congr_left ?_
    intro j _
    simp only [Function.comp_apply, Nat.succ_eq_add_one]
    rw [Nat.add_comm, BitVec.ofNat_add, ← add_assoc]
    rfl

end Xv6.Lib.Ring
