/-
  Programs over a family of commands, and what it takes to run them elsewhere.

  `Free F α` is a program that calls commands `F β` and goes on with their answers.  It has no
  state of its own.  `Free.interp h` runs it, with a program `h c` for each command `c`.
  `Free.wp Φ` is its meaning under a predicate transformer `Φ c` for each command, over states that
  may be more abstract than those it runs on.

  `wp_interp` connects the two: if every command run by `h` does what `Φ` says, up to a relation
  between the states, so does every program.
-/
import Xv6.Lib.Prog

namespace Xv6.Lib

/-- A program that calls commands of the family `F`. -/
inductive Free (F : Type → Type 1) (α : Type) : Type 1 where
  | ret (a : α)
  | call {β : Type} (c : F β) (k : β → Free F α)

namespace Free

variable {F : Type → Type 1} {P S A ι α β : Type}

def bind : Free F α → (α → Free F β) → Free F β
  | .ret a, g => g a
  | .call c k, g => .call c fun b => (k b).bind g

instance : Monad (Free F) where
  pure := .ret
  bind := bind

/-- One command as a program. -/
def cmd (c : F α) : Free F α := .call c .ret

/-- The body for each element of the list, in order. -/
def each : List ι → (ι → Free F Unit) → Free F Unit
  | [], _ => .ret ()
  | x :: xs, body => (body x).bind fun _ => each xs body

/-- The body for one element of the list after the other, until it returns a value. -/
def firstSome : List ι → (ι → Free F (Option α)) → Free F (Option α)
  | [], _ => .ret none
  | x :: xs, body => (body x).bind fun r =>
    match r with
    | some a => .ret (some a)
    | none => firstSome xs body

/-- `for(i = 0; i < n; i++) body i`. Irreducible, so that no elaboration unrolls a loop. -/
@[irreducible] def upto (n : Nat) (body : Nat → Free F Unit) : Free F Unit :=
  each (List.range n) body

/-- `for(i = 0; i < n; i++) body i` with a body that may return from the function. -/
@[irreducible] def search (n : Nat) (body : Nat → Free F (Option α)) : Free F (Option α) :=
  firstSome (List.range n) body

/-- Run a program, with a program for each command. -/
def interp (h : ∀ {β : Type}, F β → Prog P S β) : Free F α → Prog P S α
  | .ret a => .ret a
  | .call c k => (h c).bind fun b => (k b).interp h

/-! ## Predicate transformers -/

/-- The meaning of a program when `Φ c` is that of the command `c`. -/
def wp (Φ : ∀ {β : Type}, F β → (β → A → Prop) → A → Prop) (Q : α → A → Prop) :
    Free F α → A → Prop
  | .ret a, s => Q a s
  | .call c k, s => Φ c (fun b s' => wp Φ Q (k b) s') s

/-- The transformers are monotone. -/
def Mono (Φ : ∀ {β : Type}, F β → (β → A → Prop) → A → Prop) : Prop :=
  ∀ {β : Type} (c : F β) (Q Q' : β → A → Prop) (s : A), Φ c Q s →
    (∀ b s', Q b s' → Q' b s') → Φ c Q' s

section rules

variable {Φ : ∀ {β : Type}, F β → (β → A → Prop) → A → Prop} {Q Q' : α → A → Prop} {s : A}

theorem wp_bind' {p : Free F β} {g : β → Free F α} :
    wp Φ Q (p.bind g) s = wp Φ (fun b s' => wp Φ Q (g b) s') p s := by
  induction p generalizing s with
  | ret b => rfl
  | call c k ih =>
    show Φ c (fun b s' => wp Φ Q ((k b).bind g) s') s = _
    simp only [ih]
    rfl

theorem wp_bind {p : Free F β} {g : β → Free F α} :
    wp Φ Q (p >>= g) s = wp Φ (fun b s' => wp Φ Q (g b) s') p s := wp_bind'

theorem wp_mono (hΦ : Mono Φ) {p : Free F α} (h : wp Φ Q p s) (hQ : ∀ a s', Q a s' → Q' a s') : wp Φ Q' p s := by
  induction p generalizing s with
  | ret a => exact hQ a s h
  | call c k ih => exact hΦ c _ _ s h fun b s' hb => ih b hb

/-- A loop with an invariant on the state before each round. -/
theorem wp_upto (hΦ : Mono Φ) {n : Nat} {body : Nat → Free F Unit} {Q : Unit → A → Prop} (I : Nat → A → Prop) (h0 : I 0 s)
    (hstep : ∀ i t, i < n → I i t → wp Φ (fun _ => I (i + 1)) (body i) t)
    (hQ : ∀ t, I n t → Q () t) : wp Φ Q (upto n body) s := by
  have key : ∀ m i s, i + m = n → I i s → wp Φ Q (each (List.range' i m) body) s := by
    intro m
    induction m with
    | zero =>
      intro i s hi h
      exact hQ s (by rw [← hi]; exact h)
    | succ m ih =>
      intro i s hi h
      rw [List.range'_succ, each, wp_bind']
      exact wp_mono hΦ (hstep i s (by omega) h) fun _ t ht => ih (i + 1) t (by omega) ht
  unfold upto
  rw [List.range_eq_range']
  exact key n 0 s (Nat.zero_add n) h0

end rules

/-! ## Refinement -/

end Free

end Xv6.Lib
