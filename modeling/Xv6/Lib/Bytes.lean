/-
  Fixed-size byte arrays and little-endian fields in them.

  `Bytes n` is an array of `n` bytes. `store` overwrites a range (what `memmove` into the array
  does), `getLE`/`putLE` read and write an unsigned little-endian number of `k` bytes. The laws
  are those of independent fields: a field read back is what was put there modulo `256^k`
  (`getLE_putLE`), and a range that does not meet the field leaves it as it was
  (`getLE_store_disjoint`, `getLE_putLE_disjoint`).
-/
import Mathlib.Algebra.Order.Ring.Nat
import Mathlib.Tactic.Ring

namespace Xv6.Lib

abbrev Byte := BitVec 8

/-- An array of `n` bytes. -/
abbrev Bytes (n : Nat) := Fin n → Byte

namespace Bytes

variable {n : Nat}

/-- The byte at offset `o`, zero outside the array. -/
def byte (b : Bytes n) (o : Nat) : Byte := if h : o < n then b ⟨o, h⟩ else 0

/-- The array of zero bytes. -/
def zero : Bytes n := fun _ => 0

/-- Overwrite the `len` bytes from offset `o` with `src 0, src 1, …`. -/
def store (b : Bytes n) (o len : Nat) (src : Nat → Byte) : Bytes n :=
  fun i => if o ≤ i.val ∧ i.val < o + len then src (i.val - o) else b i

/-- The unsigned little-endian number in the `k` bytes from offset `o`. -/
def getLE (b : Bytes n) (o : Nat) : Nat → Nat
  | 0 => 0
  | k + 1 => (b.byte o).toNat + 256 * getLE b (o + 1) k

/-- Write `v` as a little-endian number of `k` bytes at offset `o`. -/
def putLE (b : Bytes n) (o k v : Nat) : Bytes n :=
  b.store o k fun j => BitVec.ofNat 8 (v / 256 ^ j)

variable {b : Bytes n} {o j k v : Nat}

theorem ext_byte {c : Bytes n} (h : ∀ o, o < n → b.byte o = c.byte o) : b = c := by
  funext i
  have := h i.val i.isLt
  simpa [byte] using this

theorem byte_of_lt (b : Bytes n) (h : o < n) : b.byte o = b ⟨o, h⟩ := by
  simp [byte, h]

@[simp] theorem byte_zero (o : Nat) : (zero : Bytes n).byte o = 0 := by
  simp [byte, zero]

theorem byte_store (b : Bytes n) (o len : Nat) (src : Nat → Byte) (hj : j < n) :
    (b.store o len src).byte j = if o ≤ j ∧ j < o + len then src (j - o) else b.byte j := by
  simp [byte, store, hj]

theorem byte_store_outside (b : Bytes n) (o len : Nat) (src : Nat → Byte)
    (hj : j < o ∨ o + len ≤ j) : (b.store o len src).byte j = b.byte j := by
  by_cases hn : j < n
  · rw [byte_store _ _ _ _ hn, if_neg (by omega)]
  · simp [byte, hn]

theorem byte_store_inside (b : Bytes n) (o len : Nat) (src : Nat → Byte) (hj : j < len)
    (hn : o + len ≤ n) : (b.store o len src).byte (o + j) = src j := by
  rw [byte_store _ _ _ _ (by omega), if_pos (by omega), Nat.add_sub_cancel_left]

/-! ## Little-endian fields -/

theorem getLE_congr {c : Bytes n} (h : ∀ j, j < k → b.byte (o + j) = c.byte (o + j)) :
    b.getLE o k = c.getLE o k := by
  induction k generalizing o with
  | zero => rfl
  | succ k ih =>
    rw [getLE, getLE, ih fun j hj => by
      have := h (j + 1) (by omega)
      rwa [show o + (j + 1) = o + 1 + j by omega] at this]
    have := h 0 (by omega)
    rw [Nat.add_zero] at this
    rw [this]

@[simp] theorem getLE_zero (o k : Nat) : (zero : Bytes n).getLE o k = 0 := by
  induction k generalizing o with
  | zero => rfl
  | succ k ih => rw [getLE, ih, byte_zero]; rfl

theorem getLE_store_disjoint (b : Bytes n) (o len : Nat) (src : Nat → Byte) {o' : Nat}
    (h : o' + k ≤ o ∨ o + len ≤ o') : (b.store o len src).getLE o' k = b.getLE o' k :=
  getLE_congr fun j hj => byte_store_outside b o len src (by omega)

/-- The field read in an array whose bytes there are those of `v`. -/
theorem getLE_of_bytes (h : ∀ j, j < k → b.byte (o + j) = BitVec.ofNat 8 (v / 256 ^ j)) :
    b.getLE o k = v % 256 ^ k := by
  induction k generalizing o v with
  | zero => simp [getLE, Nat.mod_one]
  | succ k ih =>
    have h0 := h 0 (by omega)
    have hrest : b.getLE (o + 1) k = v / 256 % 256 ^ k := by
      apply ih
      intro j hj
      have := h (j + 1) (by omega)
      rw [show o + (j + 1) = o + 1 + j by omega] at this
      rw [this, Nat.div_div_eq_div_mul, ← pow_succ']
    rw [Nat.add_zero, pow_zero, Nat.div_one] at h0
    have hp : (256 : Nat) ^ (k + 1) = 256 * 256 ^ k := pow_succ' 256 k
    rw [getLE, hrest, h0, BitVec.toNat_ofNat, hp, Nat.mod_mul]

theorem getLE_putLE (b : Bytes n) (h : o + k ≤ n) : (b.putLE o k v).getLE o k = v % 256 ^ k :=
  getLE_of_bytes fun _ hj => byte_store_inside b o k _ hj h

theorem getLE_putLE_disjoint (b : Bytes n) {o' k' : Nat} (h : o' + k' ≤ o ∨ o + k ≤ o') :
    (b.putLE o k v).getLE o' k' = b.getLE o' k' :=
  getLE_store_disjoint b o k _ h

theorem byte_putLE_outside (b : Bytes n) (h : j < o ∨ o + k ≤ j) :
    (b.putLE o k v).byte j = b.byte j :=
  byte_store_outside b o k _ h

end Bytes

end Xv6.Lib
