/-
  Sums over a finite family in which one member changes, and multisets assembled from pieces.

  `sum_update_add` says how a sum changes when one member does, `sum_change` when several do.  For
  pieces that are multisets, an element that occurs in two different pieces occurs twice in the sum
  (`nodup_sum_inj`), which is how disjointness of the pieces follows from the sum having no
  duplicates.
-/
import Mathlib.Algebra.BigOperators.Group.Finset.Basic
import Mathlib.Algebra.Order.Group.Multiset
import Mathlib.Data.Multiset.AddSub

namespace Xv6.Lib

open Finset Function

variable {ι β M : Type} [DecidableEq ι]

/-- One member of a family changes: the sum changes by that member's share. -/
theorem sum_update_add [AddCommMonoid M] {s : Finset ι} {j : ι} (hj : j ∈ s) (g : ι → β → M)
    (f : ι → β) (x : β) :
    ∑ i ∈ s, g i (update f j x i) + g j (f j) = ∑ i ∈ s, g i (f i) + g j x := by
  have hne : ∀ i ∈ s.erase j, g i (update f j x i) = g i (f i) := by
    intro i hi
    rw [update_of_ne (ne_of_mem_erase hi)]
  rw [← add_sum_erase s _ hj, ← add_sum_erase s (fun i => g i (f i)) hj, sum_congr rfl hne,
    update_self]
  rw [add_assoc, add_comm (∑ i ∈ s.erase j, g i (f i)), add_comm (g j x)]

/-- The members in `t` change: the sum changes by their share. -/
theorem sum_change [Fintype ι] (t : Finset ι) (f g : ι → Nat) (h : ∀ i, i ∉ t → g i = f i) :
    ∑ i, g i + ∑ i ∈ t, f i = ∑ i, f i + ∑ i ∈ t, g i := by
  have hrest : ∑ i ∈ tᶜ, g i = ∑ i ∈ tᶜ, f i := sum_congr rfl fun i hi => h i (mem_compl.mp hi)
  rw [← sum_add_sum_compl t f, ← sum_add_sum_compl t g]
  omega

/-- The pieces of a multiset without duplicates are disjoint. -/
theorem nodup_sum_inj {s : Finset ι} {g : ι → Multiset β} (h : (∑ i ∈ s, g i).Nodup) {i j : ι}
    (hi : i ∈ s) (hj : j ∈ s) {a : β} (hai : a ∈ g i) (haj : a ∈ g j) : i = j := by
  by_contra hij
  have hj' : j ∈ s.erase i := mem_erase.mpr ⟨Ne.symm hij, hj⟩
  rw [← add_sum_erase s g hi, ← add_sum_erase (s.erase i) g hj'] at h
  have hdis := (Multiset.nodup_add.mp h).2.2
  exact Multiset.disjoint_left.mp hdis hai (Multiset.mem_add.mpr (Or.inl haj))

theorem nodup_of_nodup_sum {s : Finset ι} {g : ι → Multiset β} (h : (∑ i ∈ s, g i).Nodup) {i : ι}
    (hi : i ∈ s) : (g i).Nodup := by
  rw [← add_sum_erase s g hi] at h
  exact (Multiset.nodup_add.mp h).1

end Xv6.Lib
