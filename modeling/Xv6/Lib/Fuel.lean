/-
  Loops that are given fuel.

  A loop of the source whose termination is to be proved is a function of a number of steps that gives
  nothing if they do not suffice.  `Returns` says that from some number of steps on it gives one and
  the same result.
-/
import Mathlib.Order.Lattice
import Mathlib.Order.Nat

namespace Xv6.Lib

variable {α β : Type} {f g : Nat → Option α} {a b : α}

/-- With enough fuel, `f` gives `a`. -/
def Returns (f : Nat → Option α) (a : α) : Prop := ∃ k, ∀ fuel, k ≤ fuel → f fuel = some a

/-- More fuel does not change a result. -/
def Fueled (f : Nat → Option α) : Prop := ∀ fuel a, f fuel = some a → f (fuel + 1) = some a

theorem Returns.const (a : α) : Returns (fun _ => some a) a := ⟨0, fun _ _ => rfl⟩

/-- The first iteration. -/
theorem Returns.succ (h : Returns (fun fuel => f (fuel + 1)) a) : Returns f a := by
  obtain ⟨k, hk⟩ := h
  refine ⟨k + 1, fun fuel hfuel => ?_⟩
  obtain ⟨j, rfl⟩ : ∃ j, fuel = j + 1 := ⟨fuel - 1, by omega⟩
  exact hk j (by omega)

theorem Returns.congr (h : Returns f a) (hfg : ∀ fuel, g fuel = f fuel) : Returns g a := by
  obtain ⟨k, hk⟩ := h
  exact ⟨k, fun fuel hfuel => (hfg fuel).trans (hk fuel hfuel)⟩

theorem Returns.bind {f : Nat → Option β} {g : Nat → β → Option α} {b : β} (hf : Returns f b)
    (hg : Returns (fun fuel => g fuel b) a) : Returns (fun fuel => (f fuel).bind (g fuel)) a := by
  obtain ⟨k, hk⟩ := hf
  obtain ⟨j, hj⟩ := hg
  refine ⟨max k j, fun fuel hfuel => ?_⟩
  show (f fuel).bind (g fuel) = some a
  rw [hk fuel (le_trans (le_max_left k j) hfuel)]
  exact hj fuel (le_trans (le_max_right k j) hfuel)

theorem Returns.unique (ha : Returns f a) (hb : Returns f b) : a = b := by
  obtain ⟨k, hk⟩ := ha
  obtain ⟨j, hj⟩ := hb
  have hmax := hk (max k j) (le_max_left k j)
  rw [hj (max k j) (le_max_right k j)] at hmax
  exact (Option.some.inj hmax).symm

theorem Fueled.const (a : α) : Fueled fun _ => some a := fun _ _ h => h

theorem Fueled.bind {f : Nat → Option β} {g : Nat → β → Option α} (hf : Fueled f)
    (hg : ∀ b, Fueled fun fuel => g fuel b) : Fueled fun fuel => (f fuel).bind (g fuel) := by
  intro fuel a ha
  obtain ⟨b, hb, ha⟩ := Option.bind_eq_some_iff.mp ha
  exact Option.bind_eq_some_iff.mpr ⟨b, hf fuel b hb, hg b fuel a ha⟩

theorem Returns.eq (h : Returns f a) (hf : Fueled f) {fuel : Nat} (hb : f fuel = some b) : a = b := by
  obtain ⟨k, hk⟩ := h
  have hmono : ∀ j, f (fuel + j) = some b := by
    intro j
    induction j with
    | zero => exact hb
    | succ j ih => exact hf _ _ ih
  exact Option.some.inj ((hk (fuel + k) (by omega)).symm.trans (hmono k))

end Xv6.Lib
