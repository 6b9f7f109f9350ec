/-
  Paths along a pointer.

  `Path next xs z` says that from each element of `xs` the pointer leads to the one after it, and from
  the last to `z`.  A singly linked circular list is a path to its own first element; `Path.rotate`
  reads it from any other element on.
-/
import Mathlib.Data.List.Basic

namespace Xv6.Lib

variable {α : Type} {next next' : α → α} {xs ys : List α} {x y z : α}

def Path (next : α → α) : List α → α → Prop
  | [], _ => True
  | x :: xs, z => next x = xs.headD z ∧ Path next xs z

theorem headD_append (xs ys : List α) (z : α) : (xs ++ ys).headD z = xs.headD (ys.headD z) := by
  cases xs with
  | nil => rfl
  | cons x xs => rfl

namespace Path

theorem append_iff : Path next (xs ++ ys) z ↔ Path next xs (ys.headD z) ∧ Path next ys z := by
  induction xs with
  | nil => exact (and_iff_right trivial).symm
  | cons x xs ih =>
    simp only [List.cons_append, Path, ih, headD_append]
    exact and_assoc.symm

/-- The pointers of other elements do not matter. -/
theorem frame (h : Path next xs z) (heq : ∀ x ∈ xs, next' x = next x) : Path next' xs z := by
  induction xs with
  | nil => trivial
  | cons x xs ih =>
    refine ⟨(heq x List.mem_cons_self).trans h.1, ih h.2 fun y hy => ?_⟩
    exact heq y (List.mem_cons_of_mem x hy)

theorem next_eq (h : Path next (xs ++ x :: ys) z) : next x = ys.headD z := (append_iff.mp h).2.1

/-- Read a circular list from another element on. -/
theorem rotate (h : Path next (xs ++ y :: ys) z) (hz : (xs ++ y :: ys).head? = some z) :
    Path next (y :: ys ++ xs) y := by
  obtain ⟨hxs, hys⟩ := append_iff.mp h
  refine append_iff.mpr ⟨?_, hxs⟩
  have hhead : xs.headD y = z := by
    cases xs with
    | nil | cons => exact Option.some.inj hz
  rw [hhead]
  exact hys

end Path

end Xv6.Lib
