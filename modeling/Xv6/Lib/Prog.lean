/-
  Programs as sequences of atomic actions on a state.

  An action either returns a value and a new state, panics, or blocks (the thread cannot go on
  in this state). `Prog.run` executes a program alone. `Prog.Passes p s t` says that `t` is a
  state the program passes through when it starts in `s`, whether or not it ever returns: it
  is where a crash can happen, or where another observer can look.

  `Prog.wp C Q p s` is the program logic. The criterion `C` says what every state passed through
  must satisfy (`C.inv`), which panics are tolerated (`C.panic`) and whether the program may
  block (`C.block`); `Q` is the postcondition. Programs are finite trees, so with no panic
  tolerated and blocking refused `wp` is total correctness (`wp_run_total`).
-/
import Mathlib.Logic.Basic

namespace Xv6.Lib

/-- What one atomic action does. -/
inductive Outcome (P S α : Type) where
  | ok (a : α) (s : S)
  | panic (m : P)
  | block

/-- What follows from something said of each outcome. -/
theorem Outcome.imp {P S α : Type} {A B : α → S → Prop} {T U : P → Prop} {p q : Prop}
    {o : Outcome P S α} (hok : ∀ a s, A a s → B a s) (hpanic : ∀ m, T m → U m) (hblock : p → q) :
    (match o with
      | .ok a s => A a s
      | .panic m => T m
      | .block => p) →
    match o with
      | .ok a s => B a s
      | .panic m => U m
      | .block => q := by
  cases o with
  | ok a s => exact hok a s
  | panic m => exact hpanic m
  | block => exact hblock

/-- A program over states `S` with panics in `P`: a tree of atomic actions. -/
inductive Prog (P S α : Type) : Type 1 where
  | ret (a : α)
  | act {β : Type} (f : S → Outcome P S β) (k : β → Prog P S α)

/-- How a program run alone ends: it returns, panics, or blocks for ever. The state is the one
    it stopped in. -/
inductive Result (P S α : Type) where
  | done (a : α) (s : S)
  | panicked (m : P) (s : S)
  | blocked (s : S)

namespace Prog

variable {P S T α β γ : Type}

def bind : Prog P S α → (α → Prog P S β) → Prog P S β
  | .ret a, g => g a
  | .act f k, g => .act f fun b => (k b).bind g

instance : Monad (Prog P S) where
  pure := .ret
  bind := bind

/-- One atomic action as a program. -/
def atomic (f : S → Outcome P S α) : Prog P S α := .act f .ret

/-- An action that always succeeds. -/
def update (f : S → S) : Prog P S Unit := atomic fun s => .ok () (f s)

/-- Read something of the state. -/
def look (f : S → α) : Prog P S α := atomic fun s => .ok (f s) s

def panic (m : P) : Prog P S α := atomic fun _ => .panic m

/-- The body for each element of the list, in order. -/
def each : List α → (α → Prog P S Unit) → Prog P S Unit
  | [], _ => .ret ()
  | x :: xs, body => (body x).bind fun _ => each xs body

/-- `for(i = 0; i < n; i++) body i`. Irreducible, so that no elaboration unrolls a loop. -/
@[irreducible] def upto (n : Nat) (body : Nat → Prog P S Unit) : Prog P S Unit := each (List.range n) body

theorem bind_ret (p : Prog P S α) : p.bind .ret = p := by
  induction p with
  | ret a => rfl
  | act f k ih =>
    exact congrArg (act f) (funext ih)

theorem bind_assoc (p : Prog P S α) (g : α → Prog P S β) (h : β → Prog P S γ) :
    (p.bind g).bind h = p.bind fun a => (g a).bind h := by
  induction p with
  | ret a => rfl
  | act f k ih =>
    exact congrArg (act f) (funext ih)

theorem each_append (xs ys : List α) (body : α → Prog P S Unit) :
    each (xs ++ ys) body = (each xs body).bind fun _ => each ys body := by
  induction xs with
  | nil => rfl
  | cons x xs ih =>
    simp only [List.cons_append, each, bind_assoc, ih]

theorem upto_zero (body : Nat → Prog P S Unit) : upto 0 body = .ret () := by
  unfold upto
  rfl

theorem upto_succ (n : Nat) (body : Nat → Prog P S Unit) :
    upto (n + 1) body = (upto n body).bind fun _ => body n := by
  unfold upto
  rw [List.range_succ, each_append]
  exact congrArg _ (funext fun _ => bind_ret (body n))

/-- Does the program act, or only return? -/
def isAct : Prog P S α → Bool
  | .ret _ => false
  | .act _ _ => true

/-- A program on a part of the state, as a program on the whole. -/
def zoom (get : S → T) (set : T → S → S) : Prog P T α → Prog P S α
  | .ret a => .ret a
  | .act f k => .act
      (fun s => match f (get s) with
        | .ok b t => .ok b (set t s)
        | .panic m => .panic m
        | .block => .block)
      fun b => (k b).zoom get set

/-! ## Running -/

def run : Prog P S α → S → Result P S α
  | .ret a, s => .done a s
  | .act f k, s =>
    match f s with
    | .ok b s' => (k b).run s'
    | .panic m => .panicked m s
    | .block => .blocked s

/-- What a program that returns has returned, and the state then. -/
def result (p : Prog P S α) (s : S) : Option (α × S) :=
  match p.run s with
  | .done a t => some (a, t)
  | _ => none

theorem run_of_result {p : Prog P S α} {s t : S} {a : α} (h : p.result s = some (a, t)) :
    p.run s = .done a t := by
  unfold result at h
  split at h
  · rename_i hrun
    cases h
    exact hrun
  · cases h

/-- `Passes p s t`: started in `s`, the program `p` passes through the state `t`. -/
inductive Passes : Prog P S α → S → S → Prop
  | here (p : Prog P S α) (s : S) : Passes p s s
  | step {β : Type} {f : S → Outcome P S β} {k : β → Prog P S α} {s s' t : S} {b : β} :
      f s = .ok b s' → Passes (k b) s' t → Passes (.act f k) s t

/-- The first state of a run in which `stop` holds. -/
def firstWith (stop : S → Bool) : Prog P S α → S → Option S
  | .ret _, s => if stop s then some s else none
  | .act f k, s =>
    if stop s then some s
    else match f s with
      | .ok b s' => (k b).firstWith stop s'
      | _ => none

theorem passes_firstWith {stop : S → Bool} {p : Prog P S α} {s t : S}
    (h : p.firstWith stop s = some t) : Passes p s t := by
  induction p generalizing s with
  | ret a =>
    obtain ⟨_, ⟨⟩⟩ := Option.ite_none_right_eq_some.mp h
    exact .here _ _
  | act f k ih =>
    unfold firstWith at h
    split at h
    · cases h
      exact .here _ _
    split at h
    · rename_i hf
      exact .step hf (ih _ h)
    · cases h

/-! ## The program logic -/

/-- What a proof asks of a program besides its postcondition. -/
structure Crit (P S : Type) where
  inv : S → Prop
  panic : P → Prop
  block : Prop

/-- No demand on intermediate states, every panic and blocking tolerated: partial correctness. -/
def Crit.partialC : Crit P S := ⟨fun _ => True, fun _ => True, True⟩

/-- No demand on intermediate states, no panic and no blocking: total correctness. -/
def Crit.total : Crit P S := ⟨fun _ => True, fun _ => False, False⟩

/-- Total correctness but for one panic. -/
def Crit.only (m : P) : Crit P S := ⟨fun _ => True, fun m' => m' = m, False⟩

def wp (C : Crit P S) (Q : α → S → Prop) : Prog P S α → S → Prop
  | .ret a, s => Q a s
  | .act f k, s =>
    match f s with
    | .ok b s' => C.inv s' ∧ wp C Q (k b) s'
    | .panic m => C.panic m
    | .block => C.block

variable {C : Crit P S} {Q Q' : α → S → Prop} {s t : S}

@[simp] theorem wp_ret (a : α) : wp C Q (.ret a) s = Q a s := rfl

@[simp] theorem wp_pure (a : α) : wp C Q (pure a) s = Q a s := rfl

variable {p : Prog P S α} {R : β → S → Prop}

theorem wp_mono (h : wp C Q p s) (hQ : ∀ a s', Q a s' → Q' a s') : wp C Q' p s := by
  induction p generalizing s with
  | ret a => exact hQ a s h
  | act f k ih =>
    simp only [wp] at h ⊢
    exact Outcome.imp (fun b _ h => ⟨h.1, ih b h.2⟩) (fun _ => id) id h

theorem wp_true (p : Prog P S α) : wp Crit.partialC (fun _ _ => True) p s := by
  induction p generalizing s with
  | ret a => trivial
  | act f k ih =>
    simp only [wp]
    split
    · exact ⟨trivial, ih _⟩
    · trivial
    · trivial

/-- Weaken the criterion. -/
theorem wp_crit {D : Crit P S} (h : wp C Q p s) (hi : ∀ s', C.inv s' → D.inv s')
    (hp : ∀ m, C.panic m → D.panic m) (hb : C.block → D.block) : wp D Q p s := by
  induction p generalizing s with
  | ret a => exact h
  | act f k ih =>
    simp only [wp] at h ⊢
    exact Outcome.imp (fun b s' h => ⟨hi s' h.1, ih b h.2⟩) hp hb h

/-- Total correctness meets every criterion, up to its demand on intermediate states. -/
theorem wp_of_total (h : wp Crit.total Q p s) (hC : ∀ s', C.inv s') : wp C Q p s :=
  wp_crit h (fun s' _ => hC s') (fun _ hf => hf.elim) fun hf => hf.elim

theorem wp_bind' (p : Prog P S α) (g : α → Prog P S β) :
    wp C R (p.bind g) s ↔ wp C (fun a s' => wp C R (g a) s') p s := by
  induction p generalizing s with
  | ret a => exact Iff.rfl
  | act f k ih =>
    simp only [bind, wp]
    split
    · rename_i b s' hf
      exact and_congr_right fun _ => ih b
    · exact Iff.rfl
    · exact Iff.rfl

@[simp] theorem wp_bind (p : Prog P S α) (g : α → Prog P S β) :
    wp C R (p >>= g) s ↔ wp C (fun a s' => wp C R (g a) s') p s := wp_bind' p g

/-- The sequencing rule in the form proofs use: a specification of the first part, then the
    rest under its postcondition. -/
theorem wp_seq {g : α → Prog P S β} (h : wp C Q p s) (hg : ∀ a s', Q a s' → wp C R (g a) s') :
    wp C R (p >>= g) s :=
  (wp_bind p g).mpr (wp_mono h hg)

theorem wp_atomic (f : S → Outcome P S α) :
    wp C Q (atomic f) s ↔
      match f s with
      | .ok a s' => C.inv s' ∧ Q a s'
      | .panic m => C.panic m
      | .block => C.block := by
  simp only [atomic, wp]

@[simp] theorem wp_update (f : S → S) {Q : Unit → S → Prop} :
    wp C Q (update f) s ↔ C.inv (f s) ∧ Q () (f s) := Iff.rfl

@[simp] theorem wp_look (f : S → α) : wp C Q (look f) s ↔ C.inv s ∧ Q (f s) s := Iff.rfl

/-- Loop rule for `upto`: `J i` before the `i`-th round. -/
theorem wp_upto {n : Nat} {body : Nat → Prog P S Unit} {J : Nat → S → Prop} (h0 : J 0 s)
    (hb : ∀ i s, i < n → J i s → wp C (fun _ s' => J (i + 1) s') (body i) s) :
    wp C (fun _ s' => J n s') (upto n body) s := by
  induction n with
  | zero =>
    rw [upto_zero]
    exact h0
  | succ n ih =>
    rw [upto_succ, wp_bind']
    refine wp_mono (ih fun i s hi => hb i s (Nat.lt_succ_of_lt hi)) ?_
    intro _ s' hJ
    exact hb n s' (Nat.lt_succ_self n) hJ

/-! ## The logic against the executions -/

theorem wp_passes (h : wp C Q p s) (hp : Passes p s t) : t = s ∨ C.inv t := by
  induction hp with
  | here p s => exact Or.inl rfl
  | step hf _ ih =>
    simp only [wp, hf] at h
    rcases ih h.2 with rfl | hi
    · exact Or.inr h.1
    · exact Or.inr hi

theorem wp_run (h : wp C Q p s) :
    match p.run s with
    | .done a s' => Q a s'
    | .panicked m _ => C.panic m
    | .blocked _ => C.block := by
  induction p generalizing s with
  | ret a => exact h
  | act f k ih =>
    simp only [wp] at h
    simp only [run]
    split at h
    · rename_i b s' hf
      exact ih b h.2
    · exact h
    · exact h

theorem wp_run_done {a : α} (h : wp C Q p s) (hr : p.run s = .done a t) : Q a t := by
  have := wp_run h
  rw [hr] at this
  exact this

theorem wp_run_total (h : wp Crit.total Q p s) : ∃ a t, p.run s = .done a t ∧ Q a t := by
  have := wp_run h
  cases hr : p.run s with
  | done a t => rw [hr] at this; exact ⟨a, t, rfl, this⟩
  | panicked | blocked => rw [hr] at this; exact this.elim

theorem wp_of_run {a : α} (hr : p.run s = .done a t) (hQ : Q a t) : wp Crit.total Q p s := by
  induction p generalizing s with
  | ret b =>
    cases hr
    exact hQ
  | act f k ih =>
    simp only [run] at hr
    simp only [wp]
    split at hr
    · exact ⟨trivial, ih _ hr⟩
    · cases hr
    · cases hr

/-! ## Programs on a part of the state -/

theorem wp_zoom {get : S → T} {set : T → S → S} (hgs : ∀ u s, get (set u s) = u)
    (hss : ∀ u v s, set u (set v s) = set u s) (hsg : ∀ s, set (get s) s = s)
    {p : Prog P T α} :
    wp C Q (p.zoom get set) s ↔
      wp ⟨fun u => C.inv (set u s), C.panic, C.block⟩ (fun a u => Q a (set u s)) p (get s) := by
  induction p generalizing s with
  | ret a => simp only [zoom, wp, hsg]
  | act f k ih =>
    simp only [zoom, wp]
    cases hf : f (get s) with
    | ok b u =>
      simp only [ih, hgs, hss]
    | panic | block => exact Iff.rfl

end Prog

end Xv6.Lib
