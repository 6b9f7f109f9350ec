/-
  The two `memmove`s: kernel/string.c's and user/ulib.c's.

  They test for an overlap differently: the kernel copies downwards only when the source begins
  below the destination and reaches into it, the user library whenever the source does not begin
  above it. Each loop is a sequence of `moves` in which no byte is read after it was written
  (`copyUp_moved`, `copyDown_moved`), so both have the same effect (`memmove_moved`), up to the
  largest `int` (`memmove_two_gib`).
-/
import Mathlib.Algebra.Group.Nat.Defs
import Mathlib.Data.List.Basic
import Xv6.Lib.Moves

namespace Xv6.Move

open Lib List

abbrev Addr := BitVec 64

abbrev Memory := Addr → BitVec 8

/-- `while(n-- > 0) *d++ = *s++;` -/
def copyUp : Nat → Memory → Addr → Addr → Memory
  | 0, m, _, _ => m
  | n + 1, m, d, s => copyUp n (Function.update m d (m s)) (d + 1) (s + 1)

/-- `while(n-- > 0) *--d = *--s;` -/
def copyDown : Nat → Memory → Addr → Addr → Memory
  | 0, m, _, _ => m
  | n + 1, m, d, s => copyDown n (Function.update m (d - 1) (m (s - 1))) (d - 1) (s - 1)

/-- The kernel's `memmove`, whose length is a `uint`: the memory it leaves and what it returns. -/
def Kernel.memmove (m : Memory) (dst src : Addr) (n : BitVec 32) : Memory × Addr :=
  (if n = 0 then m
  else if src < dst ∧ src + n.setWidth 64 > dst then
    copyDown n.toNat m (dst + n.setWidth 64) (src + n.setWidth 64)
  else copyUp n.toNat m dst src, dst)

/-- The user library's `memmove`, whose length is an `int`: a negative one copies nothing. -/
def Ulib.memmove (m : Memory) (vdst vsrc : Addr) (n : BitVec 32) : Memory × Addr :=
  (if vsrc > vdst then copyUp n.toInt.toNat m vdst vsrc
  else copyDown n.toInt.toNat m (vdst + n.signExtend 64) (vsrc + n.signExtend 64), vdst)

/-- `m'` is `m` with the `len` bytes from `src` moved to `dst`. -/
structure Moved (m : Memory) (dst src : Addr) (len : Nat) (m' : Memory) : Prop where
  inside : ∀ i < len, m' (dst + BitVec.ofNat 64 i) = m (src + BitVec.ofNat 64 i)
  outside : ∀ a, a.toNat < dst.toNat ∨ dst.toNat + len ≤ a.toNat → m' a = m a

theorem Moved.unique {m m₁ m₂ : Memory} {dst src : Addr} {len : Nat}
    (h₁ : Moved m dst src len m₁) (h₂ : Moved m dst src len m₂) : m₁ = m₂ := by
  funext a
  by_cases ha : a.toNat < dst.toNat ∨ dst.toNat + len ≤ a.toNat
  · rw [h₁.outside a ha, h₂.outside a ha]
  · have he : a = dst + BitVec.ofNat 64 (a.toNat - dst.toNat) := by bv_omega
    rw [he, h₁.inside _ (by omega), h₂.inside _ (by omega)]

/-! ## The loops -/

/-- The moves of a copy, from the lowest address up. -/
def pairs (d s : Addr) (n : Nat) : List (Addr × Addr) :=
  (range n).map fun i => (d + BitVec.ofNat 64 i, s + BitVec.ofNat 64 i)

theorem copyUp_eq (n : Nat) (m : Memory) (d s : Addr) :
    copyUp n m d s = moves m (pairs d s n) := by
  induction n generalizing m d s with
  | zero => rfl
  | succ n ih =>
    have hp : pairs d s (n + 1) = (d, s) :: pairs (d + 1) (s + 1) n := by
      simp [pairs, range_succ_eq_map, BitVec.ofNat_add, BitVec.add_assoc, BitVec.add_comm 1#64]
    rw [copyUp, ih, hp]
    rfl

theorem copyDown_eq (n : Nat) (m : Memory) (d s : Addr) :
    copyDown n m (d + BitVec.ofNat 64 n) (s + BitVec.ofNat 64 n) =
      moves m (pairs d s n).reverse := by
  induction n generalizing m with
  | zero => rfl
  | succ n ih =>
    have hstep (a : Addr) : a + BitVec.ofNat 64 (n + 1) - 1 = a + BitVec.ofNat 64 n := by bv_omega
    rw [copyDown, hstep, hstep, ih, pairs, pairs, range_succ, map_append,
      reverse_append]
    rfl

section

variable {d s : Addr} {n : Nat} (hd : d.toNat + n ≤ 2 ^ 64) (hs : s.toNat + n ≤ 2 ^ 64)
include hd hs

/-- Moves of the right pairs, in any order that reads no byte already written. -/
theorem moved_of_pairwise {ps : List (Addr × Addr)} (m : Memory)
    (hps : ∀ p, p ∈ ps ↔ p ∈ pairs d s n)
    (h : ps.Pairwise fun p q => p.1 ≠ q.1 ∧ q.2 ≠ p.1) : Moved m d s n (moves m ps) := by
  refine ⟨fun i hi => ?_, fun a ha => moves_of_notMem m fun p hp => ?_⟩
  · exact moves_of_mem m h ((hps (_, _)).2 (mem_map_of_mem (mem_range.2 hi)))
  · obtain ⟨i, hi, rfl⟩ := mem_map.1 ((hps p).1 hp)
    have := mem_range.1 hi
    bv_omega

theorem copyUp_moved (m : Memory) (h : d.toNat ≤ s.toNat ∨ s.toNat + n ≤ d.toNat) :
    Moved m d s n (copyUp n m d s) := by
  rw [copyUp_eq]
  refine moved_of_pairwise hd hs m (fun _ => Iff.rfl) (pairwise_map.2 ?_)
  refine pairwise_lt_range.imp_of_mem fun {i j} _ hj hij => ?_
  have := mem_range.1 hj
  constructor <;> bv_omega

theorem copyDown_moved (m : Memory) (h : s.toNat ≤ d.toNat) :
    Moved m d s n (copyDown n m (d + BitVec.ofNat 64 n) (s + BitVec.ofNat 64 n)) := by
  rw [copyDown_eq]
  refine moved_of_pairwise hd hs m (fun _ => mem_reverse)
    (pairwise_reverse.2 (pairwise_map.2 ?_))
  refine pairwise_lt_range.imp_of_mem fun {i j} _ hj hij => ?_
  have := mem_range.1 hj
  constructor <;> bv_omega

end

/-! ## The two functions -/

theorem Kernel.memmove_spec (m : Memory) {dst src : Addr} {n : BitVec 32}
    (hd : dst.toNat + n.toNat ≤ 2 ^ 64) (hs : src.toNat + n.toNat ≤ 2 ^ 64) :
    Moved m dst src n.toNat (Kernel.memmove m dst src n).1 := by
  unfold Kernel.memmove
  rw [← BitVec.ofNat_toNat]
  split
  next h0 => exact ⟨by simp [h0], fun _ _ => rfl⟩
  next h0 =>
    split
    next h => exact copyDown_moved hd hs m (by bv_omega)
    next h => exact copyUp_moved hd hs m (by bv_omega)

theorem toInt_toNat_of_lt {n : BitVec 32} (h : n.toNat < 2 ^ 31) : n.toInt.toNat = n.toNat := by
  rw [BitVec.toInt_eq_toNat_of_lt (by omega), Int.toNat_natCast]

theorem Ulib.memmove_spec (m : Memory) {dst src : Addr} {n : BitVec 32} (hn : n.toNat < 2 ^ 31)
    (hd : dst.toNat + n.toNat ≤ 2 ^ 64) (hs : src.toNat + n.toNat ≤ 2 ^ 64) :
    Moved m dst src n.toNat (Ulib.memmove m dst src n).1 := by
  unfold Ulib.memmove
  rw [toInt_toNat_of_lt hn]
  split
  next h => exact copyUp_moved hd hs m (by bv_omega)
  next h =>
    have hmsb : n.msb = false := BitVec.msb_eq_false_iff_two_mul_lt.mpr (by omega)
    rw [BitVec.signExtend_eq_setWidth_of_msb_false hmsb, ← BitVec.ofNat_toNat]
    exact copyDown_moved hd hs m (by bv_omega)

/-- The loop of the user library does not run for a length that is negative as an `int`. -/
theorem Ulib.memmove_negative (m : Memory) (dst src : Addr) {n : BitVec 32} (hn : 2 ^ 31 ≤ n.toNat) :
    Ulib.memmove m dst src n = (m, dst) := by
  have hlen : n.toInt.toNat = 0 := by
    rw [BitVec.toInt_eq_toNat_cond]
    omega
  unfold Ulib.memmove
  rw [hlen]
  split <;> rfl

/-- Both functions move the bytes as they were before the call, however the ranges overlap, and
leave the others alone, and so agree, for every length that the user library's `int` can hold. -/
theorem memmove_moved (m : Memory) (dst src : Addr) (n : BitVec 32)
    (hdst : dst.toNat + n.toNat ≤ 2 ^ 64) (hsrc : src.toNat + n.toNat ≤ 2 ^ 64) :
    Moved m dst src n.toNat (Kernel.memmove m dst src n).1 ∧
      (n.toNat < 2 ^ 31 → Moved m dst src n.toNat (Ulib.memmove m dst src n).1 ∧
        Kernel.memmove m dst src n = Ulib.memmove m dst src n) := by
  have hkernel := Kernel.memmove_spec m hdst hsrc
  refine ⟨hkernel, fun hn => ?_⟩
  have huser := Ulib.memmove_spec m hn hdst hsrc
  exact ⟨huser, Prod.ext (hkernel.unique huser) rfl⟩

theorem memmove_moved_overlap :
    Moved (BitVec.setWidth 8) 5 4 3 (Kernel.memmove (BitVec.setWidth 8) 5 4 3).1 ∧
      Kernel.memmove (BitVec.setWidth 8) 5 4 3 = Ulib.memmove (BitVec.setWidth 8) 5 4 3 :=
  have h := memmove_moved (BitVec.setWidth 8) 5 4 3 (by decide) (by decide)
  ⟨h.1, (h.2 (by decide)).2⟩

/-- 2 GiB, as the user library's `memcpy` passes them on: the kernel's function moves them, the
user library's nothing. -/
theorem memmove_two_gib :
    Moved (BitVec.setWidth 8) 0 1 (2 ^ 31) (Kernel.memmove (BitVec.setWidth 8) 0 1 0x80000000).1 ∧
      Ulib.memmove (BitVec.setWidth 8) 0 1 0x80000000 = (BitVec.setWidth 8, 0) ∧
      ¬ Moved (BitVec.setWidth 8) 0 1 (2 ^ 31) (Ulib.memmove (BitVec.setWidth 8) 0 1 0x80000000).1 := by
  have huser := Ulib.memmove_negative (BitVec.setWidth 8) 0 1 (n := 0x80000000) (by decide)
  refine ⟨Kernel.memmove_spec (n := 0x80000000) _ (by decide) (by decide), huser, fun h => ?_⟩
  exact absurd (h.inside 0 (by decide)) (by decide)

end Xv6.Move
