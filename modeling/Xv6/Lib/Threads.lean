/-
  Threads that share a state, and a logic of what each of them owns.

  A `Conf` is the shared state and what each thread has still to do of the call it is in.  A step is
  one atomic action of one thread, or a thread that is in no call starts one.

  In a `Logic` each thread that exists owns a resource, and `inv` relates the resources of all threads
  to the state.  `wp t Q p r` says that thread `t`, owning `r`, can run `p`: each action may rely on the
  invariant and on what the thread owns, and must restore the invariant without touching what the others
  own.  The one exception is that it may bring a thread into being, which then is between calls.

  `Safe.run` is the induction over runs.
-/
import Xv6.Lib.Prog
import Mathlib.Logic.Function.Basic

namespace Xv6.Lib

open Function

variable {τ P S C R Res α β : Type}

/-! ## The machine -/

/-- The calls that threads can make, and when. -/
structure Machine (τ P S C R : Type) where
  code : τ → C → Prog P S R
  ready : τ → C → S → Bool

/-- A thread with nothing to do but return is between calls. -/
structure Conf (τ P S R : Type) where
  shared : S
  todo : τ → Prog P S R

inductive Act (τ C : Type) where
  | call (t : τ) (c : C)
  | step (t : τ)

variable {acts : List (Act τ C)}

namespace Conf

/-- One step; none if it is not possible or panics. -/
def step [DecidableEq τ] (M : Machine τ P S C R) (c : Conf τ P S R) : Act τ C → Option (Conf τ P S R)
  | .call t x =>
    match c.todo t with
    | .ret _ =>
      if M.ready t x c.shared then some { c with todo := update c.todo t (M.code t x) }
      else none
    | .act _ _ => none
  | .step t =>
    match c.todo t with
    | .ret _ => none
    | .act f k =>
      match f c.shared with
      | .ok b s => some ⟨s, update c.todo t (k b)⟩
      | .panic _ => none
      | .block => none

def run [DecidableEq τ] (M : Machine τ P S C R) :
    Conf τ P S R → List (Act τ C) → Option (Conf τ P S R)
  | c, [] => some c
  | c, a :: acts =>
    match c.step M a with
    | some c' => run M c' acts
    | none => none

/-- The panic that the next action of the thread is. -/
def panics (c : Conf τ P S R) (t : τ) : Option P :=
  match c.todo t with
  | .ret _ => none
  | .act f _ =>
    match f c.shared with
    | .ok _ _ => none
    | .panic m => some m
    | .block => none

/-- The result of the last call, if the thread is in none. -/
def result (c : Conf τ P S R) (t : τ) : Option R :=
  match c.todo t with
  | .ret a => some a
  | .act _ _ => none

theorem todo_of_result {c : Conf τ P S R} {t : τ} {a : R} (h : c.result t = some a) :
    c.todo t = .ret a := by
  unfold result at h
  split at h
  · rename_i b hb
    cases h
    exact hb
  · cases h

/-- A thread that runs alone does what its program does. -/
theorem run_alone [DecidableEq τ] {M : Machine τ P S C R} {t : τ} {a : R} {c c' : Conf τ P S R}
    (hacts : ∀ x ∈ acts, x = .step t) (hrun : c.run M acts = some c')
    (hres : c'.result t = some a) : (c.todo t).run c.shared = .done a c'.shared := by
  induction acts generalizing c with
  | nil =>
    cases hrun
    rw [todo_of_result hres]
    rfl
  | cons x acts ih =>
    have hx := hacts x List.mem_cons_self
    simp only [run, hx, step] at hrun
    cases htodo : c.todo t with
    | ret b =>
      rw [htodo] at hrun
      cases hrun
    | act f k =>
      rw [htodo] at hrun
      dsimp only at hrun
      simp only [Prog.run]
      cases hf : f c.shared with
      | ok b s =>
        rw [hf] at hrun
        have hrest := ih (fun y hy => hacts y (List.mem_cons_of_mem x hy)) hrun
        dsimp only at hrest
        rwa [update_self] at hrest
      | panic | block =>
        rw [hf] at hrun
        cases hrun

end Conf

/-! ## The logic -/

structure Logic (τ P S Res : Type) where
  /-- What the threads own, and the state. A thread that does not exist owns nothing. -/
  inv : (τ → Option Res) → S → Prop
  /-- What a thread may own between calls. -/
  idle : Res → Prop
  /-- Panics that may happen. -/
  tolerated : P → Prop

namespace Logic

variable (L : Logic τ P S Res)

def Frame (t : τ) (O O' : τ → Option Res) : Prop :=
  ∀ u, u ≠ t → O' u = O u ∨ O u = none ∧ ∃ r, O' u = some r ∧ L.idle r

def wp (t : τ) (Q : α → Option Res → Prop) : Prog P S α → Option Res → Prop
  | .ret a, r => Q a r
  | .act _ _, none => False
  | .act f k, some r => ∀ O s, O t = some r → L.inv O s →
    match f s with
    | .ok b s' => ∃ O', L.inv O' s' ∧ L.Frame t O O' ∧ wp t Q (k b) (O' t)
    | .panic m => L.tolerated m
    | .block => True

variable {L} {t : τ} {Q Q' : α → Option Res → Prop} {r : Option Res}

@[simp] theorem wp_ret (a : α) : L.wp t Q (.ret a) r = Q a r := rfl

@[simp] theorem wp_pure (a : α) : L.wp t Q (pure a) r = Q a r := rfl

theorem wp_seq {p : Prog P S β} {g : β → Prog P S α} {R : β → Option Res → Prop}
    (h : L.wp t R p r) (hg : ∀ b r, R b r → L.wp t Q (g b) r) : L.wp t Q (p.bind g) r := by
  induction p generalizing r with
  | ret b => exact hg b r h
  | act f k ih =>
    cases r with
    | none => exact h
    | some r =>
      intro O s hO hinv
      refine Outcome.imp ?_ (fun _ => id) id (h O s hO hinv)
      rintro b s' ⟨O', hinv', hframe, hk⟩
      exact ⟨O', hinv', hframe, ih b hk⟩

theorem wp_mono {p : Prog P S α} (h : L.wp t Q p r) (hQ : ∀ a r, Q a r → Q' a r) :
    L.wp t Q' p r := by
  rw [← Prog.bind_ret p]
  exact wp_seq h hQ

theorem wp_bind' {p : Prog P S β} {g : β → Prog P S α}
    (h : L.wp t (fun b r => L.wp t Q (g b) r) p r) : L.wp t Q (p.bind g) r :=
  wp_seq h fun _ _ hb => hb

theorem wp_bind {p : Prog P S β} {g : β → Prog P S α}
    (h : L.wp t (fun b r => L.wp t Q (g b) r) p r) : L.wp t Q (p >>= g) r := wp_bind' h

variable {f : S → Outcome P S α}

/-- An action that changes what its thread owns and nothing else of what is owned. -/
theorem wp_atomic [DecidableEq τ] {r : Res} (h : ∀ O s, O t = some r → L.inv O s →
      match f s with
      | .ok a s' => ∃ r', L.inv (update O t (some r')) s' ∧ Q a (some r')
      | .panic m => L.tolerated m
      | .block => True) : L.wp t Q (Prog.atomic f) (some r) := by
  intro O s hO hinv
  refine Outcome.imp ?_ (fun _ => id) id (h O s hO hinv)
  rintro a s' ⟨r', hinv', hQ⟩
  refine ⟨_, hinv', fun u hu => Or.inl (update_of_ne hu _ _), ?_⟩
  rw [update_self]
  exact hQ

/-- An action that brings thread `u` into being. -/
theorem wp_spawn [DecidableEq τ] {r : Res} (h : ∀ O s, O t = some r → L.inv O s →
      match f s with
      | .ok a s' => ∃ u x r', u ≠ t ∧ O u = none ∧ L.idle x ∧
          L.inv (update (update O t (some r')) u (some x)) s' ∧ Q a (some r')
      | .panic m => L.tolerated m
      | .block => True) : L.wp t Q (Prog.atomic f) (some r) := by
  intro O s hO hinv
  refine Outcome.imp ?_ (fun _ => id) id (h O s hO hinv)
  rintro a s' ⟨u, x, r', hut, hu, hx, hinv', hQ⟩
  refine ⟨_, hinv', ?_, ?_⟩
  · intro v hv
    by_cases hvu : v = u
    · rw [hvu, update_self]
      exact Or.inr ⟨hu, x, rfl, hx⟩
    · rw [update_of_ne hvu, update_of_ne hv]
      exact Or.inl rfl
  · rw [update_of_ne hut.symm, update_self]
    exact hQ

/-- An action with which its thread ends. -/
theorem wp_end [DecidableEq τ] {r : Res} (h : ∀ O s, O t = some r → L.inv O s →
      match f s with
      | .ok a s' => L.inv (update O t none) s' ∧ Q a none
      | .panic m => L.tolerated m
      | .block => True) : L.wp t Q (Prog.atomic f) (some r) := by
  intro O s hO hinv
  refine Outcome.imp ?_ (fun _ => id) id (h O s hO hinv)
  rintro a s' ⟨hinv', hQ⟩
  refine ⟨_, hinv', fun u hu => Or.inl (update_of_ne hu _ _), ?_⟩
  rw [update_self]
  exact hQ

/-! ### Another view of what is owned -/

/-- Thread `t` may count what it owns as `r'` instead of `r`, with the state as it is. -/
def Shift [DecidableEq τ] (L : Logic τ P S Res) (t : τ) (r r' : Res) : Prop :=
  ∀ O s, O t = some r → L.inv O s → L.inv (update O t (some r')) s

theorem frame_update [DecidableEq τ] {O O' : τ → Option Res}
    (h : L.Frame t (update O t r) O') : L.Frame t O O' := by
  intro u hu
  have hframe := h u hu
  rwa [update_of_ne hu] at hframe

theorem wp_shift [DecidableEq τ] {p : Prog P S α} {r r' : Res} (hp : p.isAct = true)
    (hr : L.Shift t r r') (h : L.wp t Q p (some r')) : L.wp t Q p (some r) := by
  cases p with
  | ret a => cases hp
  | act f k =>
    intro O s hO hinv
    refine Outcome.imp ?_ (fun _ => id) id
      (h _ s (update_self t (some r') O) (hr O s hO hinv))
    rintro b s' ⟨O', hinv', hframe, hk⟩
    exact ⟨O', hinv', frame_update hframe, hk⟩

/-- The last action of a program can shift the view. -/
theorem wp_shift_after [DecidableEq τ] {p : Prog P S α} (hp : p.isAct = true)
    (h : L.wp t (fun a r => ∃ x y, r = some x ∧ L.Shift t x y ∧ Q a (some y)) p r) :
    L.wp t Q p r := by
  induction p generalizing r with
  | ret a => cases hp
  | act f k ih =>
    cases r with
    | none => exact h
    | some r =>
      intro O s hO hinv
      refine Outcome.imp ?_ (fun _ => id) id (h O s hO hinv)
      rintro b s' ⟨O', hinv', hframe, hk⟩
      cases hkb : k b with
      | ret a =>
        rw [hkb] at hk
        obtain ⟨x, y, hx, hshift, hQ⟩ := hk
        refine ⟨update O' t (some y), hshift O' s' hx hinv', ?_, ?_⟩
        · intro u hu
          rw [update_of_ne hu]
          exact hframe u hu
        · rw [update_self]
          exact hQ
      | act f' k' =>
        rw [← hkb]
        exact ⟨O', hinv', hframe, ih b (by rw [hkb]; rfl) hk⟩

/-- A loop, with an invariant indexed by the elements still to come. -/
theorem wp_each {body : α → Prog P S Unit} {J : List α → Option Res → Prop} :
    ∀ (xs : List α) {r : Option Res}, J xs r →
      (∀ x xs r, J (x :: xs) r → L.wp t (fun _ r => J xs r) (body x) r) →
      L.wp t (fun _ r => J [] r) (Prog.each xs body) r
  | [], _, h, _ => h
  | x :: xs, r, h, hb => by
    exact wp_bind' (wp_mono (hb x xs r h) fun _ r' h' => wp_each xs h' hb)

/-- The same with the number of rounds. -/
theorem wp_upto {n : Nat} {body : Nat → Prog P S Unit} {J : Nat → Option Res → Prop} (h0 : J 0 r)
    (hb : ∀ i r, i < n → J i r → L.wp t (fun _ r => J (i + 1) r) (body i) r) :
    L.wp t (fun _ r => J n r) (Prog.upto n body) r := by
  induction n with
  | zero =>
    rw [Prog.upto_zero]
    exact h0
  | succ n ih =>
    rw [Prog.upto_succ]
    refine wp_bind' (wp_mono (ih fun i r hi => hb i r (Nat.lt_succ_of_lt hi)) ?_)
    intro _ r' hJ
    exact hb n r' (Nat.lt_succ_self n) hJ

/-! ## Runs -/

/-- Between calls. -/
def Idle (L : Logic τ P S Res) (r : Option Res) : Prop := ∀ x, r = some x → L.idle x

/-- Every thread can go on, to the postcondition that it has. -/
def Safe (L : Logic τ P S Res) (Q : τ → R → Option Res → Prop) (c : Conf τ P S R) : Prop :=
  ∃ O, L.inv O c.shared ∧ ∀ u, L.wp u (Q u) (c.todo u) (O u)

/-- A thread that does not exist may come into being. -/
def Revives (L : Logic τ P S Res) (Q : τ → R → Option Res → Prop) : Prop :=
  ∀ u a x, Q u a none → L.idle x → Q u a (some x)

variable {M : Machine τ P S C R} {c c' : Conf τ P S R} {Q : τ → R → Option Res → Prop}

/-- Every call is safe where it is ready. -/
def Verifies (L : Logic τ P S Res) (M : Machine τ P S C R) : Prop :=
  ∀ t x O s, L.inv O s → M.ready t x s = true → L.Idle (O t) →
    L.wp t (fun _ => L.Idle) (M.code t x) (O t)

theorem Safe.panics {m : P} (h : L.Safe Q c) (hp : c.panics t = some m) : L.tolerated m := by
  obtain ⟨O, hinv, hwp⟩ := h
  have ht := hwp t
  unfold Conf.panics at hp
  split at hp
  · cases hp
  · rename_i f k hf
    rw [hf] at ht
    cases hO : O t with
    | none =>
      rw [hO] at ht
      exact ht.elim
    | some r =>
      rw [hO] at ht
      have hs := ht O c.shared hO hinv
      split at hp
      · cases hp
      · rename_i m' hm
        rw [hm] at hs
        cases hp
        exact hs
      · cases hp

variable [DecidableEq τ]

theorem Safe.step (h : L.Safe Q c) (hQ : L.Revives Q) (hstep : c.step M (.step t) = some c') :
    L.Safe Q c' := by
  obtain ⟨O, hinv, hwp⟩ := h
  have ht := hwp t
  simp only [Conf.step] at hstep
  split at hstep
  · cases hstep
  · rename_i f k hf
    rw [hf] at ht
    cases hO : O t with
    | none =>
      rw [hO] at ht
      exact ht.elim
    | some r =>
      rw [hO] at ht
      have hs := ht O c.shared hO hinv
      split at hstep
      · rename_i b s' hb
        rw [hb] at hs
        obtain ⟨O', hinv', hframe, hk⟩ := hs
        cases hstep
        refine ⟨O', hinv', ?_⟩
        intro u
        dsimp only
        by_cases hu : u = t
        · rw [hu, update_self]
          exact hk
        · rw [update_of_ne hu]
          have hold := hwp u
          rcases hframe u hu with heq | ⟨hnone, x, hx, hidle⟩
          · rw [heq]
            exact hold
          · -- a thread that does not exist has nothing to do
            rw [hnone] at hold
            rw [hx]
            cases hprog : c.todo u with
            | ret a =>
              rw [hprog] at hold
              exact hQ u a x hold hidle
            | act f k =>
              rw [hprog] at hold
              exact hold.elim
      · cases hstep
      · cases hstep

/-- A call starts, with a postcondition of its own. -/
theorem Safe.call {x : C} {Q₀ : R → Option Res → Prop} (h : L.Safe Q c)
    (hcall : ∀ a O, c.todo t = .ret a → L.inv O c.shared → M.ready t x c.shared = true →
      Q t a (O t) → L.wp t Q₀ (M.code t x) (O t))
    (hstep : c.step M (.call t x) = some c') : L.Safe (update Q t Q₀) c' := by
  obtain ⟨O, hinv, hwp⟩ := h
  simp only [Conf.step] at hstep
  split at hstep
  · rename_i a ha
    split at hstep
    · rename_i hready
      cases hstep
      refine ⟨O, hinv, ?_⟩
      intro u
      dsimp only
      by_cases hu : u = t
      · rw [hu, update_self, update_self]
        have ht := hwp t
        rw [ha] at ht
        exact hcall a O ha hinv hready ht
      · rw [update_of_ne hu, update_of_ne hu]
        exact hwp u
    · cases hstep
  · cases hstep

/-- In a run, threads that make calls have the postcondition to be between calls. -/
theorem Safe.run (hM : L.Verifies M) (hQ : L.Revives Q) (h : L.Safe Q c)
    (hcalls : ∀ t x, Act.call t x ∈ acts → Q t = fun _ => L.Idle) (hrun : c.run M acts = some c') :
    L.Safe Q c' := by
  induction acts generalizing c with
  | nil =>
    cases hrun
    exact h
  | cons a acts ih =>
    simp only [Conf.run] at hrun
    split at hrun
    · rename_i d hstep
      refine ih ?_ (fun t x hx => hcalls t x (List.mem_cons_of_mem _ hx)) hrun
      cases a with
      | step t => exact h.step hQ hstep
      | call t x =>
        have ht := hcalls t x List.mem_cons_self
        have hd : L.Safe (update Q t fun _ => L.Idle) d := by
          refine h.call ?_ hstep
          intro a O _ hinv hready hidle
          rw [ht] at hidle
          exact hM t x O c.shared hinv hready hidle
        rwa [← ht, update_eq_self] at hd
    · cases hrun

/-- Every run from a state between calls. -/
theorem safe_of_run (hM : L.Verifies M) (h : L.Safe (fun _ _ => L.Idle) c)
    (hrun : c.run M acts = some c') : L.Safe (fun _ _ => L.Idle) c' := by
  refine h.run hM ?_ (fun _ _ _ => rfl) hrun
  rintro u a x _ hidle y hy
  cases hy
  exact hidle

end Logic

end Xv6.Lib
