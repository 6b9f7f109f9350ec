/-
  Programs on a state with a second part.

  A model that leaves something out can be extended by it: the state becomes a pair, the old
  programs run on its first part (`base`), and actions on the second part (`side`) stand between
  them.  `Extends p q` says that the longer program `p` does to the first part what `q` does, so
  that a total specification of `q` holds of `p`; the rules follow the structure of `p`.  What
  happens to the second part is then a matter of partial correctness (`wp_rest`), and the two are
  put together by `wp_total_and`.
-/
import Xv6.Lib.Prog

namespace Xv6.Lib.Prog

variable {P S R α β : Type}

/-- A program on the first part. -/
def base (p : Prog P S α) : Prog P (S × R) α := p.zoom Prod.fst fun s x => (s, x.2)

/-- An action on the second part. -/
def side (f : R → R) : Prog P (S × R) Unit := update fun x => (x.1, f x.2)

def sideLook (f : R → α) : Prog P (S × R) α := look fun x => f x.2

variable {p q : Prog P S α} {s : S} {r : R}

theorem wp_base {C : Crit P (S × R)} {Q : α → S × R → Prop} :
    wp C Q (base p) (s, r) ↔
      wp ⟨fun u => C.inv (u, r), C.panic, C.block⟩ (fun a u => Q a (u, r)) p s :=
  have hset : ∀ (s : S) (x : S × R), (s, x.2).1 = s := fun _ _ => rfl
  wp_zoom hset (fun _ _ _ => rfl) fun _ => rfl

theorem wp_base_total {Q : α → S × R → Prop} :
    wp Crit.total Q (base p) (s, r) ↔ wp Crit.total (fun a u => Q a (u, r)) p s := wp_base

/-- A program on the first part leaves the second as it is. -/
theorem wp_rest {Q : β → S × R → Prop} (p : Prog P S α) {g : α → Prog P (S × R) β}
    (h : ∀ a s', wp Crit.partialC Q (g a) (s', r)) : wp Crit.partialC Q (base p >>= g) (s, r) :=
  wp_seq (wp_base.mpr (wp_mono (wp_true p) fun a s' _ => h a s')) fun _ _ hg => hg

/-- Total correctness, and a postcondition that was proved for the runs that return. -/
theorem wp_total_and {Q Q' : α → S → Prop} (h : wp Crit.total Q p s)
    (h' : wp Crit.partialC Q' p s) : wp Crit.total (fun a t => Q a t ∧ Q' a t) p s := by
  induction p generalizing s with
  | ret a => exact ⟨h, h'⟩
  | act f k ih =>
    simp only [wp] at h h' ⊢
    cases hf : f s with
    | ok b s' =>
      rw [hf] at h h'
      exact ⟨trivial, ih b h.2 h'.2⟩
    | panic | block =>
      rw [hf] at h
      exact h

/-- `p` does to the first part of the state what `q` does. -/
def Extends (p : Prog P (S × R) α) (q : Prog P S α) : Prop :=
  ∀ (Q : α → S → Prop) (s : S) (r : R), wp Crit.total Q q s →
    wp Crit.total (fun a x => Q a x.1) p (s, r)

theorem Extends.base (q : Prog P S α) : Extends (R := R) (base q) q := by
  intro Q s r h
  exact wp_base_total.mpr h

theorem Extends.pure (a : α) : Extends (P := P) (S := S) (R := R) (Pure.pure a) (Pure.pure a) :=
  fun _ _ _ h => h

theorem Extends.bind {p : Prog P (S × R) α} {g : α → Prog P (S × R) β} {h : α → Prog P S β}
    (hp : Extends p q) (hg : ∀ a, Extends (g a) (h a)) : Extends (p >>= g) (q >>= h) := by
  intro Q s r hw
  refine wp_seq (hp _ s r ((wp_bind q h).mp hw)) ?_
  rintro a ⟨s', r'⟩ ha
  exact hg a Q s' r' ha

/-- An action on the second part is not seen. -/
theorem Extends.side {f : R → R} {g : Unit → Prog P (S × R) α} (hg : Extends (g ()) q) :
    Extends (side f >>= g) q := by
  intro Q s r hw
  refine (wp_bind _ _).mpr ⟨trivial, ?_⟩
  exact hg Q s (f r) hw

theorem Extends.sideLook {f : R → β} {g : β → Prog P (S × R) α} (hg : ∀ b, Extends (g b) q) :
    Extends (sideLook f >>= g) q := by
  intro Q s r hw
  refine (wp_bind _ _).mpr ⟨trivial, ?_⟩
  exact hg (f r) Q s r hw

end Xv6.Lib.Prog
