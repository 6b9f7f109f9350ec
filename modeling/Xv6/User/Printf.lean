/-
  Number printing (`printint` of `kernel/printf.c` and of `user/printf.c`) and `atoi`.

  The two copies of `printint` differ in their tables of digits.  Storing a character behind the end of
  the buffer is the result `none`.  `-xx` is taken to wrap around, as the machine's negation does.

  `printint_numeral`: what is printed is the numeral of the value, and it always fits.
-/
import Mathlib.Data.Nat.Digits.Lemmas

namespace Xv6.Printf

open List

/-! ## The source -/

/-- Whose `printint`. -/
inductive Copy where
  | kernel
  | user

def Copy.digits : Copy → List Char
  | .kernel => "0123456789abcdef".toList
  | .user => "0123456789ABCDEF".toList

/-- The `do` loop, with `room` characters left in the buffer: what it stores. -/
def digitLoop (digits : List Char) (base : Nat) : Nat → Nat → Option (List Char)
  | 0, _ => none
  | room + 1, x =>
    let c := digits.getD (x % base) '\x00'
    if x / base ≠ 0 then (digitLoop digits base room (x / base)).map (c :: ·) else some [c]

/-- What is printed. -/
def printint (copy : Copy) (xx : BitVec 64) (base : Nat) (sign : Bool) : Option (List Char) :=
  let neg := sign && xx.slt 0
  let x := if neg then (-xx).toNat else xx.toNat
  match digitLoop copy.digits base 20 x with
  | none => none
  | some buf =>
    if neg then
      if buf.length < 20 then some (buf ++ ['-']).reverse else none
    else some buf.reverse

def atoiLoop (n : BitVec 32) : List Char → BitVec 32
  | [] => n
  | c :: s => if '0' ≤ c ∧ c ≤ '9' then atoiLoop (n * 10 + BitVec.ofNat 32 (c.toNat - '0'.toNat)) s else n

def atoi (s : List Char) : BitVec 32 := atoiLoop 0 s

/-! ## Numerals -/

/-- The number that digits of a table stand for. -/
def readNat (digits : List Char) (base : Nat) (s : List Char) : Nat :=
  s.foldl (fun n c => n * base + digits.idxOf c) 0

def readInt (digits : List Char) (base : Nat) : List Char → Int
  | '-' :: s => -readNat digits base s
  | s => readNat digits base s

/-- `s` are the digits of `x`, without zeros in front. -/
structure Digits (digits : List Char) (base x : Nat) (s : List Char) : Prop where
  nonempty : s ≠ []
  digit : ∀ c ∈ s, digits.idxOf c < base
  value : readNat digits base s = x
  leading : ∀ s', s = '0' :: s' → s' = []

/-- `out` is the numeral of `v`: its digits, behind a sign if `v` is negative. -/
def Numeral (digits : List Char) (base : Nat) (v : Int) (out : List Char) : Prop :=
  ∃ s, out = (if v < 0 then ['-'] else []) ++ s ∧ Digits digits base v.natAbs s ∧
    readInt digits base out = v

/-- The digits of a number, the last one first; 0 has one, too. -/
def numeral (base x : Nat) : List Nat := if x = 0 then [0] else base.digits x

section numeral

variable {base x : Nat}

theorem numeral_eq (hbase : 1 < base) :
    numeral base x = x % base :: if x / base ≠ 0 then numeral base (x / base) else [] := by
  unfold numeral
  by_cases hx : x = 0
  · simp [hx]
  · rw [if_neg hx, Nat.digits_def' hbase (Nat.pos_of_ne_zero hx)]
    by_cases hq : x / base = 0
    · simp [hq]
    · simp [hq]

theorem numeral_lt (hbase : 1 < base) : ∀ d ∈ numeral base x, d < base := by
  unfold numeral
  split
  · simpa using by omega
  · exact fun d => Nat.digits_lt_base hbase

theorem numeral_length {k : Nat} (hbase : 1 < base) (hk : k ≠ 0) (hx : x < base ^ k) :
    (numeral base x).length ≤ k := by
  unfold numeral
  split
  · simpa using Nat.one_le_iff_ne_zero.mpr hk
  · exact (Nat.digits_length_le_iff hbase x).mpr hx

theorem ofDigits_numeral : Nat.ofDigits base (numeral base x) = x := by
  unfold numeral
  split
  · simp [*]
  · exact Nat.ofDigits_digits base x

/-- No zeros in front. -/
theorem numeral_leading {ds : List Nat} (h : numeral base x = ds ++ [0]) : ds = [] := by
  unfold numeral at h
  split at h
  · simpa using h
  · rename_i hx
    have hlast := Nat.getLast_digit_ne_zero base hx
    simp [h] at hlast

theorem digitLoop_eq (digits : List Char) (hbase : 1 < base) {room : Nat}
    (h : (numeral base x).length ≤ room) :
    digitLoop digits base room x = some ((numeral base x).map (digits.getD · '\x00')) := by
  induction room generalizing x with
  | zero =>
    rw [numeral_eq hbase] at h
    simp at h
  | succ room ih =>
    rw [numeral_eq hbase] at h ⊢
    unfold digitLoop
    split
    · rename_i hq
      rw [if_pos hq] at h
      simp [ih (Nat.le_of_succ_le_succ h)]
    · simp

end numeral

/-! ## Reading back -/

section reading

variable (copy : Copy)

/-- The character of a digit. -/
def Copy.char (d : Nat) : Char := copy.digits.getD d '\x00'

theorem Copy.char_spec : ∀ d : Fin 16, copy.digits.idxOf (copy.char d) = d ∧ copy.char d ≠ '-' ∧
    (copy.char d = '0' → d = 0) ∧
    (d < 10 → ('0' ≤ copy.char d ∧ copy.char d ≤ '9') ∧ (copy.char d).toNat - '0'.toNat = d) := by
  cases copy <;> decide

variable {copy} {base : Nat} {ds : List Nat}

theorem foldl_reverse_digits : ds.reverse.foldl (fun n d => n * base + d) 0 = Nat.ofDigits base ds := by
  rw [Nat.ofDigits_eq_foldr]
  simp [Nat.add_comm, Nat.mul_comm]

theorem readNat_map (h : ∀ d ∈ ds, d < 16) :
    readNat copy.digits base (ds.map copy.char).reverse = Nat.ofDigits base ds := by
  unfold readNat
  rw [← foldl_reverse_digits, ← map_reverse, foldl_map]
  refine foldl_ext _ _ 0 ?_
  intro n d hd
  rw [(copy.char_spec ⟨d, h d (mem_reverse.mp hd)⟩).1]

theorem head_map_ne (h : ∀ d ∈ ds, d < 16) : (ds.map copy.char).head? ≠ some '-' := by
  cases ds with
  | nil => nofun
  | cons d ds => simpa using (copy.char_spec ⟨d, h d mem_cons_self⟩).2.1

theorem readInt_of_head {s : List Char} (digits : List Char) (h : s.head? ≠ some '-') :
    readInt digits base s = readNat digits base s := by
  unfold readInt
  split
  · simp at h
  · rfl

theorem atoiLoop_map (h : ∀ d ∈ ds, d < 10) (n : Nat) :
    atoiLoop (BitVec.ofNat 32 n) (ds.map copy.char) =
      BitVec.ofNat 32 (ds.foldl (fun n d => n * 10 + d) n) := by
  induction ds generalizing n with
  | nil => rfl
  | cons d ds ih =>
    rw [forall_mem_cons] at h
    obtain ⟨hrange, hval⟩ := (copy.char_spec ⟨d, by omega⟩).2.2.2 h.1
    rw [map_cons, foldl_cons, atoiLoop, if_pos hrange, hval, ← ih h.2]
    congr 1
    simp [BitVec.ofNat_add, BitVec.ofNat_mul]

theorem digits_numeral (hbase : 1 < base) (h16 : base ≤ 16) (x : Nat) :
    Digits copy.digits base x ((numeral base x).map copy.char).reverse := by
  have hlt : ∀ d ∈ numeral base x, d < 16 := fun d hd => lt_of_lt_of_le (numeral_lt hbase d hd) h16
  refine ⟨?_, ?_, (readNat_map hlt).trans ofDigits_numeral, ?_⟩
  · rw [numeral_eq hbase]
    simp
  · intro c hc
    obtain ⟨d, hd, rfl⟩ := mem_map.mp (mem_reverse.mp hc)
    rw [(copy.char_spec ⟨d, hlt d hd⟩).1]
    exact numeral_lt hbase d hd
  · intro s hs
    rw [← map_reverse, map_eq_cons_iff] at hs
    obtain ⟨d, ds, hds, hd, rfl⟩ := hs
    rw [reverse_eq_cons_iff] at hds
    have hmem : d ∈ numeral base x := by simp [hds]
    obtain rfl : d = 0 := congrArg Fin.val ((copy.char_spec ⟨d, hlt d hmem⟩).2.2.1 hd)
    simpa using numeral_leading hds

theorem numeral_correct (hbase : 1 < base) (h16 : base ≤ 16) (v : Int) :
    Numeral copy.digits base v
      ((if v < 0 then ['-'] else []) ++ ((numeral base v.natAbs).map copy.char).reverse) := by
  have hs : Digits copy.digits base _ _ := digits_numeral hbase h16 v.natAbs
  refine ⟨_, rfl, hs, ?_⟩
  split
  · rw [singleton_append, readInt, hs.value]
    omega
  · rw [nil_append, readInt_of_head, hs.value]
    · omega
    · rw [← map_reverse]
      refine head_map_ne fun d hd => ?_
      exact lt_of_lt_of_le (numeral_lt hbase d (mem_reverse.mp hd)) h16

end reading

/-! ## What is printed -/

/-- What the bits stand for. -/
def value (xx : BitVec 64) (sign : Bool) : Int := if sign then xx.toInt else xx.toNat

section printing

variable (copy : Copy) (xx : BitVec 64) (sign : Bool)

theorem neg_iff : (sign && xx.slt 0) = true ↔ value xx sign < 0 := by
  unfold value
  cases sign
  · simp
  · simp [BitVec.slt_iff_toInt_lt]

/-- The negation wraps for the most negative number only, and is right for it as an unsigned one. -/
theorem magnitude : (if sign && xx.slt 0 then (-xx).toNat else xx.toNat) = (value xx sign).natAbs ∧
    (value xx sign).natAbs ≤ if sign && xx.slt 0 then 2 ^ 63 else 2 ^ 64 - 1 := by
  have hneg := neg_iff xx sign
  unfold value at *
  cases sign with
  | false =>
    simp
    omega
  | true =>
    simp only [if_true, BitVec.toInt_eq_toNat_cond] at hneg ⊢
    split
    · rename_i h
      have hv := hneg.mp h
      rw [BitVec.toNat_neg]
      split at hv <;> omega
    · rename_i h
      have hv := mt hneg.mpr h
      split at hv <;> omega

theorem printint_eq {base : Nat} (hbase : base = 10 ∨ base = 16) :
    printint copy xx base sign = some ((if value xx sign < 0 then ['-'] else []) ++
      ((numeral base (value xx sign).natAbs).map copy.char).reverse) := by
  obtain ⟨hmag, hle⟩ := magnitude xx sign
  have hone : 1 < base := by omega
  have hfits : ∀ k, (value xx sign).natAbs < 10 ^ (k + 1) →
      (numeral base (value xx sign).natAbs).length ≤ k + 1 := by
    intro k hk
    refine numeral_length hone (Nat.succ_ne_zero k) (lt_of_lt_of_le hk (Nat.pow_le_pow_left ?_ _))
    omega
  unfold printint
  simp only [hmag]
  rw [digitLoop_eq copy.digits hone (hfits 19 (lt_of_le_of_lt hle (by split <;> decide)))]
  simp only [← neg_iff]
  split
  · rename_i hneg
    rw [if_pos hneg] at hle
    have hlen := hfits 18 (lt_of_le_of_lt hle (by decide))
    rw [if_pos (by rw [length_map]; omega), reverse_append]
    rfl
  · rfl

end printing

/-- For both copies: the buffer is large enough, what is printed is the numeral of the value, and `atoi`
    reads decimal numbers of 31 bits back. -/
theorem printint_numeral (copy : Copy) (xx : BitVec 64) (base : Nat) (hbase : base = 10 ∨ base = 16)
    (sign : Bool) : ∃ out, printint copy xx base sign = some out ∧
      Numeral copy.digits base (value xx sign) out ∧
      (base = 10 → xx.toNat < 2 ^ 31 → (atoi out).toInt = xx.toNat) := by
  refine ⟨_, printint_eq copy xx sign hbase, numeral_correct (by omega) (by omega) _, ?_⟩
  rintro rfl hsmall
  have hv : value xx sign = xx.toNat := by
    unfold value
    rw [BitVec.toInt_eq_toNat_of_lt (by omega), ite_self]
  rw [hv, if_neg (by omega), nil_append, ← map_reverse, Int.natAbs_natCast]
  have hten : ∀ d ∈ (numeral 10 xx.toNat).reverse, d < 10 := fun d hd =>
    numeral_lt (by decide) d (mem_reverse.mp hd)
  have hmod : (BitVec.ofNat 32 xx.toNat).toNat = xx.toNat := Nat.mod_eq_of_lt (by omega)
  have hatoi : atoi ((numeral 10 xx.toNat).reverse.map copy.char) = BitVec.ofNat 32 xx.toNat := by
    rw [show atoi = atoiLoop (BitVec.ofNat 32 0) from rfl, atoiLoop_map hten, foldl_reverse_digits,
      ofDigits_numeral]
  rw [hatoi, BitVec.toInt_eq_toNat_of_lt (by omega), hmod]

/-- The most negative number fills the buffer. -/
theorem printint_most_negative : ∃ out, printint .kernel (BitVec.intMin 64) 10 true = some out ∧
    Numeral Copy.kernel.digits 10 (value (BitVec.intMin 64) true) out ∧
    (10 = 10 → (BitVec.intMin 64).toNat < 2 ^ 31 → (atoi out).toInt = (BitVec.intMin 64).toNat) :=
  printint_numeral .kernel (BitVec.intMin 64) 10 (Or.inl rfl) true

end Xv6.Printf
