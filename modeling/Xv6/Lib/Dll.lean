/-
  Circular doubly linked lists with a head.

  The nodes are the elements of a type and a head that is not one of them: `none`.  `Rep` says that the
  links through the head spell a list, in both directions.  It is kept by `insert`, which links a node
  in after the head, and by `unlink`; `Rep.forward` and `Rep.backward` are what a loop over the links
  visits.
-/
import Mathlib.Data.List.Nodup
import Mathlib.Logic.Function.Basic

namespace Xv6.Lib.Dll

open Function List

variable {α : Type}

structure Links (α : Type) where
  next : Option α → Option α
  prev : Option α → Option α

namespace Links

/-- The head, linked to itself. -/
def empty : Links α := ⟨fun _ => none, fun _ => none⟩

section update

variable [DecidableEq α]

def setNext (L : Links α) (a b : Option α) : Links α := { L with next := update L.next a b }

def setPrev (L : Links α) (a b : Option α) : Links α := { L with prev := update L.prev a b }

/-- Link node `b` in after the head. -/
def insert (L : Links α) (b : α) : Links α :=
  let L := L.setNext (some b) (L.next none)
  let L := L.setPrev (some b) none
  let L := L.setPrev (L.next none) (some b)
  L.setNext none (some b)

def unlink (L : Links α) (b : α) : Links α :=
  let L := L.setPrev (L.next (some b)) (L.prev (some b))
  L.setNext (L.prev (some b)) (L.next (some b))

end update

/-- The nodes that a loop visits from node `a` on, until it is at the head. -/
def walk (f : Option α → Option α) : Nat → Option α → List α
  | 0, _ => []
  | _ + 1, none => []
  | fuel + 1, some a => a :: walk f fuel (f (some a))

def forward (L : Links α) (fuel : Nat) : List α := walk L.next fuel (L.next none)

def backward (L : Links α) (fuel : Nat) : List α := walk L.prev fuel (L.prev none)

end Links

/-- The links lead from node `a` through `xs` to node `z`, and back. -/
def Seg (L : Links α) : Option α → List α → Option α → Prop
  | a, [], z => L.next a = z ∧ L.prev z = a
  | a, x :: xs, z => (L.next a = some x ∧ L.prev (some x) = a) ∧ Seg L (some x) xs z

structure Rep (L : Links α) (xs : List α) : Prop where
  nodup : xs.Nodup
  seg : Seg L none xs none

/-! ## Segments -/

variable {L L' : Links α}
variable {xs ys : List α} {a z : Option α} {b : α} {fuel : Nat}

theorem Seg.append_iff {y : α} :
    Seg L a (xs ++ y :: ys) z ↔ Seg L a xs (some y) ∧ Seg L (some y) ys z := by
  induction xs generalizing a with
  | nil => rfl
  | cons x xs ih =>
    simp only [cons_append, Seg, ih]
    exact and_assoc.symm

/-- The links outside of a segment do not matter for it. -/
theorem Seg.frame (h : Seg L a xs z) (ha : L'.next a = L.next a) (hz : L'.prev z = L.prev z)
    (hnext : ∀ x ∈ xs, L'.next (some x) = L.next (some x))
    (hprev : ∀ x ∈ xs, L'.prev (some x) = L.prev (some x)) : Seg L' a xs z := by
  induction xs generalizing a with
  | nil => exact ⟨ha.trans h.1, hz.trans h.2⟩
  | cons x xs ih =>
    obtain ⟨⟨h1, h2⟩, h⟩ := h
    refine ⟨⟨ha.trans h1, (hprev x mem_cons_self).trans h2⟩, ih h ?_ ?_ ?_⟩
    · exact hnext x mem_cons_self
    · exact fun y hy => hnext y (mem_cons_of_mem x hy)
    · exact fun y hy => hprev y (mem_cons_of_mem x hy)

theorem Seg.next_mem (h : Seg L a xs z) : L.next a = z ∨ ∃ x ∈ xs, L.next a = some x := by
  cases xs with
  | nil => exact Or.inl h.1
  | cons x xs => exact Or.inr ⟨x, mem_cons_self, h.1.1⟩

theorem Seg.prev_mem (h : Seg L a xs z) : L.prev z = a ∨ ∃ x ∈ xs, L.prev z = some x := by
  induction xs generalizing a with
  | nil => exact Or.inl h.2
  | cons x xs ih =>
    rcases ih h.2 with hx | ⟨y, hy, hx⟩
    · exact Or.inr ⟨x, mem_cons_self, hx⟩
    · exact Or.inr ⟨y, mem_cons_of_mem x hy, hx⟩

theorem Rep.empty : Rep (Links.empty : Links α) [] := ⟨nodup_nil, rfl, rfl⟩

/-! ## Loops -/

theorem Seg.walk_next (h : Seg L a xs none) (hfuel : xs.length ≤ fuel) :
    Links.walk L.next fuel (L.next a) = xs := by
  induction xs generalizing a fuel with
  | nil =>
    rw [h.1]
    cases fuel <;> rfl
  | cons x xs ih =>
    obtain ⟨⟨hnext, _⟩, h⟩ := h
    rw [hnext]
    cases fuel with
    | zero => cases hfuel
    | succ fuel => exact congrArg (x :: ·) (ih h (Nat.le_of_succ_le_succ hfuel))

/-- The links the other way round. -/
def Links.flip (L : Links α) : Links α := ⟨L.prev, L.next⟩

theorem Seg.flip (h : Seg L a xs z) : Seg L.flip z xs.reverse a := by
  induction xs generalizing a with
  | nil => exact ⟨h.2, h.1⟩
  | cons x xs ih =>
    rw [reverse_cons, Seg.append_iff]
    exact ⟨ih h.2, h.1.2, h.1.1⟩

theorem Rep.forward (h : Rep L xs) (hfuel : xs.length ≤ fuel) : L.forward fuel = xs :=
  h.seg.walk_next hfuel

theorem Rep.backward (h : Rep L xs) (hfuel : xs.length ≤ fuel) : L.backward fuel = xs.reverse := by
  refine h.seg.flip.walk_next ?_
  rw [length_reverse]
  exact hfuel

/-! ## Insertion -/

variable [DecidableEq α]

theorem Links.next_insert (L : Links α) (b : α) (a : Option α) :
    (L.insert b).next a = if a = none then some b else if a = some b then L.next none else L.next a := by
  simp [insert, setNext, setPrev, update_apply]

theorem Links.prev_insert (L : Links α) (b : α) (a : Option α) :
    (L.insert b).prev a = if a = L.next none then some b else if a = some b then none else L.prev a := by
  simp [insert, setNext, setPrev, update_apply]

theorem Rep.insert (h : Rep L xs) (hb : b ∉ xs) : Rep (L.insert b) (b :: xs) := by
  refine ⟨nodup_cons.mpr ⟨hb, h.nodup⟩, ⟨?_, ?_⟩, ?_⟩
  · rw [Links.next_insert, if_pos rfl]
  · have hne : some b ≠ L.next none := by
      cases xs with
      | nil =>
        rw [h.seg.1]
        exact Option.some_ne_none b
      | cons x xs =>
        rw [h.seg.1.1]
        rintro ⟨⟩
        exact hb mem_cons_self
    rw [Links.prev_insert, if_neg hne, if_pos rfl]
  · cases xs with
    | nil =>
      have hnext := h.seg.1
      refine ⟨?_, ?_⟩
      · rw [Links.next_insert, if_pos rfl]
        exact hnext
      · rw [Links.prev_insert, if_pos hnext.symm]
    | cons x xs =>
      obtain ⟨⟨hnext, _⟩, hseg⟩ := h.seg
      have hx := (nodup_cons.mp h.nodup).1
      refine ⟨⟨?_, ?_⟩, hseg.frame ?_ ?_ ?_ ?_⟩
      · rw [Links.next_insert, if_pos rfl]
        exact hnext
      · rw [Links.prev_insert, if_pos hnext.symm]
      · rw [Links.next_insert, if_neg (Option.some_ne_none x), if_neg]
        rintro ⟨⟩
        exact hb mem_cons_self
      · rw [Links.prev_insert, hnext, if_neg (Option.some_ne_none x).symm,
          if_neg (Option.some_ne_none b).symm]
      · intro y hy
        rw [Links.next_insert, if_neg (Option.some_ne_none y), if_neg]
        rintro ⟨⟩
        exact hb (mem_cons_of_mem x hy)
      · intro y hy
        rw [Links.prev_insert, hnext, if_neg, if_neg]
        · rintro ⟨⟩
          exact hb (mem_cons_of_mem x hy)
        · rintro ⟨⟩
          exact hx hy

/-! ## Removal -/

theorem Links.next_unlink (L : Links α) (b : α) (a : Option α) :
    (L.unlink b).next a = if a = L.prev (some b) then L.next (some b) else L.next a := by
  simp [unlink, setNext, setPrev, update_apply]

theorem Links.prev_unlink (L : Links α) (b : α) (a : Option α) :
    (L.unlink b).prev a = if a = L.next (some b) then L.prev (some b) else L.prev a := by
  simp [unlink, setNext, setPrev, update_apply]

/-- Node `b` is taken out of a segment, whose nodes are distinct and distinct from its ends. -/
theorem Seg.unlink (h1 : Seg L a xs (some b)) (h2 : Seg L (some b) ys z)
    (hnodup : (xs ++ b :: ys).Nodup) (ha : ∀ x ∈ xs ++ b :: ys, a ≠ some x)
    (hz : ∀ x ∈ xs ++ b :: ys, z ≠ some x) : Seg (L.unlink b) a (xs ++ ys) z := by
  induction xs generalizing a with
  | nil =>
    obtain ⟨_, hprev⟩ := h1
    cases ys with
    | nil =>
      refine ⟨?_, ?_⟩
      · rw [Links.next_unlink, if_pos hprev.symm]
        exact h2.1
      · rw [Links.prev_unlink, if_pos h2.1.symm]
        exact hprev
    | cons y ys =>
      obtain ⟨⟨hnext, _⟩, hseg⟩ := h2
      have hy : y ∉ ys := (nodup_cons.mp (nodup_cons.mp hnodup).2).1
      have hmem : ∀ x ∈ y :: ys, x ∈ [] ++ b :: y :: ys := fun x => mem_cons_of_mem b
      refine ⟨⟨?_, ?_⟩, hseg.frame ?_ ?_ ?_ ?_⟩
      · rw [Links.next_unlink, if_pos hprev.symm]
        exact hnext
      · rw [Links.prev_unlink, if_pos hnext.symm]
        exact hprev
      · rw [Links.next_unlink, if_neg]
        rw [hprev]
        exact (ha y (hmem y mem_cons_self)).symm
      · rw [Links.prev_unlink, if_neg]
        rw [hnext]
        exact hz y (hmem y mem_cons_self)
      · intro x hx
        rw [Links.next_unlink, if_neg]
        rw [hprev]
        exact (ha x (hmem x (mem_cons_of_mem y hx))).symm
      · intro x hx
        rw [Links.prev_unlink, if_neg]
        rw [hnext]
        rintro ⟨⟩
        exact hy hx
  | cons x xs ih =>
    obtain ⟨⟨hnext, hprev⟩, h1⟩ := h1
    have hx : x ∉ xs ++ b :: ys := (nodup_cons.mp hnodup).1
    refine ⟨⟨?_, ?_⟩, ih h1 (nodup_cons.mp hnodup).2 ?_ ?_⟩
    · rw [Links.next_unlink, if_neg]
      · exact hnext
      · rcases h1.prev_mem with hp | ⟨y, hy, hp⟩
        · rw [hp]
          exact ha x mem_cons_self
        · rw [hp]
          exact ha y (mem_cons_of_mem x (mem_append_left _ hy))
    · rw [Links.prev_unlink, if_neg]
      · exact hprev
      · rcases h2.next_mem with hn | ⟨y, hy, hn⟩
        · rw [hn]
          exact (hz x mem_cons_self).symm
        · rw [hn]
          rintro ⟨⟩
          exact hx (mem_append_right xs (mem_cons_of_mem b hy))
    · rintro y hy ⟨⟩
      exact hx hy
    · exact fun y hy => hz y (mem_cons_of_mem x hy)

theorem Rep.unlink (h : Rep L (xs ++ b :: ys)) : Rep (L.unlink b) (xs ++ ys) := by
  obtain ⟨h1, h2⟩ := Seg.append_iff.mp h.seg
  refine ⟨?_, h1.unlink h2 h.nodup (fun _ _ => nofun) fun _ _ => nofun⟩
  exact h.nodup.sublist ((sublist_cons_self b ys).append_left xs)

/-- A node is moved to the front. -/
theorem Rep.move (h : Rep L xs) (hb : b ∈ xs) : Rep ((L.unlink b).insert b) (b :: xs.erase b) := by
  obtain ⟨ys, zs, hys, rfl, herase⟩ := exists_erase_eq hb
  have hnodup := h.nodup
  rw [herase]
  refine h.unlink.insert ?_
  rw [nodup_middle, nodup_cons] at hnodup
  exact hnodup.1

end Xv6.Lib.Dll
