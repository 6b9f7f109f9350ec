/-
  The program logic under an assumption on the actions.

  `Prog.given G C Q p s` is `Prog.wp` for the runs in which every action satisfies `G` when it is
  executed; nothing is asked of the others.  `Prog.Always G p s` says that the run of `p` from `s`
  is such a run, and `given_run` brings the two together.  What holds without the assumption holds
  with it (`given_of_wp`), and the two kinds of result can be combined (`given_and_wp`), so a
  proof under the assumption only has to say what the assumption adds.  `Prog.needs G ok p s` is
  the converse: where `p` returns something `ok`, the run was such a run.
-/
import Xv6.Lib.Prog

namespace Xv6.Lib

/-- A condition on an action and the state it is executed in. -/
abbrev ActPred (P S : Type) : Type 1 := (β : Type) → (S → Outcome P S β) → S → Prop

namespace Prog

variable {P S T α β : Type}

def given (G : ActPred P S) (C : Crit P S) (Q : α → S → Prop) : Prog P S α → S → Prop
  | .ret a, s => Q a s
  | .act f k, s => G _ f s →
    match f s with
    | .ok b s' => C.inv s' ∧ given G C Q (k b) s'
    | .panic m => C.panic m
    | .block => C.block

/-- Every action of the run satisfies `G`. -/
def Always (G : ActPred P S) : Prog P S α → S → Prop
  | .ret _, _ => True
  | .act f k, s => G _ f s ∧
    match f s with
    | .ok b s' => Always G (k b) s'
    | .panic _ => True
    | .block => True

variable {G : ActPred P S} {C D : Crit P S} {Q Q' : α → S → Prop} {s : S}

variable {p : Prog P S α} {R : β → S → Prop}

theorem given_of_wp (h : wp C Q p s) : given G C Q p s := by
  induction p generalizing s with
  | ret a => exact h
  | act f k ih =>
    simp only [wp] at h
    intro _
    exact Outcome.imp (fun b _ h => ⟨h.1, ih b h.2⟩) (fun _ => id) id h

theorem given_mono (h : given G C Q p s) (hQ : ∀ a s', Q a s' → Q' a s') : given G C Q' p s := by
  induction p generalizing s with
  | ret a => exact hQ a s h
  | act f k ih =>
    intro hG
    exact Outcome.imp (fun b _ h => ⟨h.1, ih b h.2⟩) (fun _ => id) id (h hG)

/-- The criterion and one postcondition from an unconditional result. -/
theorem given_and_wp (h : given G C Q p s) (h' : wp D Q' p s) :
    given G D (fun a s' => Q a s' ∧ Q' a s') p s := by
  induction p generalizing s with
  | ret a => exact ⟨h, h'⟩
  | act f k ih =>
    simp only [wp] at h'
    intro hG
    have hf' := h hG
    cases hf : f s with
    | ok b s' =>
      rw [hf] at h' hf'
      exact ⟨h'.1, ih b hf'.2 h'.2⟩
    | panic | block =>
      rw [hf] at h'
      exact h'

theorem given_bind' (p : Prog P S α) (g : α → Prog P S β) :
    given G C R (p.bind g) s ↔ given G C (fun a s' => given G C R (g a) s') p s := by
  induction p generalizing s with
  | ret a => exact Iff.rfl
  | act f k ih =>
    refine imp_congr_right fun _ => ?_
    cases f s with
    | ok b s' => exact and_congr_right fun _ => ih b
    | panic | block => exact Iff.rfl

@[simp] theorem given_bind (p : Prog P S α) (g : α → Prog P S β) :
    given G C R (p >>= g) s ↔ given G C (fun a s' => given G C R (g a) s') p s :=
  given_bind' p g

theorem given_update {f : S → S} {Q : Unit → S → Prop} (hC : C.inv (f s)) (h : Q () (f s)) :
    given G C Q (update f) s := fun _ => ⟨hC, h⟩

theorem given_look {f : S → α} (hC : C.inv s) (h : Q (f s) s) : given G C Q (look f) s :=
  fun _ => ⟨hC, h⟩

theorem given_seq {g : α → Prog P S β} (h : given G C Q p s)
    (hg : ∀ a s', Q a s' → given G C R (g a) s') : given G C R (p >>= g) s :=
  (given_bind p g).mpr (given_mono h hg)

/-- An action on a part of the state, as an action on the whole. -/
def zoomAct (get : S → T) (set : T → S → S) (f : T → Outcome P T β) (s : S) : Outcome P S β :=
  match f (get s) with
  | .ok b t => .ok b (set t s)
  | .panic m => .panic m
  | .block => .block

theorem zoom_act (get : S → T) (set : T → S → S) (f : T → Outcome P T β) (k : β → Prog P T α) :
    (act f k).zoom get set = act (zoomAct get set f) fun b => (k b).zoom get set := by
  congr 1

/-- A program on a part of the state, under an assumption that implies the one on the part. -/
theorem given_zoom {get : S → T} {set : T → S → S} {G' : ActPred P T}
    (hG : ∀ (β : Type) (f : T → Outcome P T β) s, G β (zoomAct get set f) s → G' β f (get s))
    (hgs : ∀ u s, get (set u s) = u) (hss : ∀ u v s, set u (set v s) = set u s)
    (hsg : ∀ s, set (get s) s = s) {p : Prog P T α}
    (h : given G' ⟨fun u => C.inv (set u s), C.panic, C.block⟩ (fun a u => Q a (set u s)) p
      (get s)) :
    given G C Q (p.zoom get set) s := by
  induction p generalizing s with
  | ret a =>
    simp only [given, hsg] at h
    exact h
  | act f k ih =>
    rw [zoom_act]
    simp only [given, zoomAct] at h ⊢
    intro hg
    have h' := h (hG _ f s hg)
    cases hf : f (get s) with
    | ok b u =>
      rw [hf] at h'
      refine ⟨h'.1, ih b ?_⟩
      simp only [hgs, hss]
      exact h'.2
    | panic | block =>
      rw [hf] at h'
      exact h'

/-- `b` holds in every state in which the run executes an action. -/
def checks (b : S → Bool) : Prog P S α → S → Bool
  | .ret _, _ => true
  | .act f k, s => b s &&
    match f s with
    | .ok x s' => (k x).checks b s'
    | .panic _ => true
    | .block => true

theorem always_of_checks {b : S → Bool} (hb : ∀ (β : Type) (f : S → Outcome P S β) s,
      b s = true → G β f s) (h : p.checks b s = true) : Always G p s := by
  induction p generalizing s with
  | ret a => trivial
  | act f k ih =>
    simp only [checks, Bool.and_eq_true] at h
    obtain ⟨h1, h2⟩ := h
    simp only [Always]
    refine ⟨hb _ f s h1, ?_⟩
    cases hf : f s with
    | ok x s' =>
      rw [hf] at h2
      exact ih x h2
    | panic | block => trivial

/-- Total correctness under the assumption, for a run that meets it. -/
theorem given_run (h : given G Crit.total Q p s) (hG : Always G p s) :
    ∃ a t, p.run s = .done a t ∧ Q a t := by
  induction p generalizing s with
  | ret a => exact ⟨a, s, rfl, h⟩
  | act f k ih =>
    simp only [Always] at hG
    have h' := h hG.1
    have hk := hG.2
    simp only [run]
    cases hf : f s with
    | ok b s' =>
      rw [hf] at h' hk
      exact ih b h'.2 hk
    | panic | block =>
      rw [hf] at h'
      exact h'.elim

/-! ## What a result says about the actions -/

/-- Where `p` returns something `ok`, every action has satisfied `G`. -/
def needs (G : ActPred P S) (ok : α → Prop) (p : Prog P S α) (s : S) : Prop :=
  ∀ a t, p.run s = .done a t → ok a → Always G p s

/-- The result is not `ok`. -/
abbrev refuses (ok : α → Prop) (p : Prog P S α) (s : S) : Prop :=
  wp Crit.partialC (fun a _ => ¬ ok a) p s

theorem always_bind {g : α → Prog P S β} (h : Always G p s)
    (hg : ∀ a t, p.run s = .done a t → Always G (g a) t) : Always G (p >>= g) s := by
  induction p generalizing s with
  | ret a => exact hg a s rfl
  | act f k ih =>
    show Always G (act f fun b => (k b).bind g) s
    simp only [Always, run] at h hg ⊢
    refine ⟨h.1, ?_⟩
    cases hf : f s with
    | ok b s' =>
      rw [hf] at h hg
      exact ih b h.2 hg
    | panic | block => trivial

theorem always_upto {n : Nat} {body : Nat → Prog P S Unit} (h : ∀ i s, Always G (body i) s) :
    Always G (upto n body) s := by
  induction n with
  | zero =>
    rw [upto_zero]
    trivial
  | succ n ih =>
    rw [upto_succ]
    exact always_bind ih fun _ t _ => h n t

theorem always_zoom {get : S → T} {set : T → S → S} {G' : ActPred P T}
    (hG : ∀ (β : Type) (f : T → Outcome P T β) s, G' β f (get s) → G β (zoomAct get set f) s)
    (hgs : ∀ u s, get (set u s) = u) {p : Prog P T α} (h : Always G' p (get s)) :
    Always G (p.zoom get set) s := by
  induction p generalizing s with
  | ret a => trivial
  | act f k ih =>
    rw [zoom_act]
    simp only [Always, zoomAct] at h ⊢
    refine ⟨hG _ f s h.1, ?_⟩
    cases hf : f (get s) with
    | ok b u =>
      rw [hf] at h
      refine ih b ?_
      rw [hgs]
      exact h.2
    | panic | block => trivial

variable {ok : β → Prop}

theorem needs_pure (a : α) {ok : α → Prop} : needs G ok (pure a) s := fun _ _ _ _ => trivial

theorem needs_panic (m : P) : needs G ok (panic m) s := by
  intro a t hrun
  cases hrun

/-- Nothing is asked of the first program where the second can only fail. -/
theorem needs_seq {ok' : α → Prop} {g : α → Prog P S β} (hp : needs G ok' p s)
    (hg : ∀ a t, ok' a → needs G ok (g a) t) (hno : ∀ a t, ¬ ok' a → refuses ok (g a) t) :
    needs G ok (p >>= g) s := by
  intro b u hrun hok
  have hwp : wp Crit.total (fun x y => x = b ∧ y = u) (p >>= g) s := wp_of_run hrun ⟨rfl, rfl⟩
  obtain ⟨a, t, hp', hwp⟩ := wp_run_total ((wp_bind p g).mp hwp)
  obtain ⟨_, _, hg', rfl, rfl⟩ := wp_run_total hwp
  have ha : ok' a := Classical.by_contradiction fun ha => wp_run_done (hno a t ha) hg' hok
  refine always_bind (hp a t hp' ha) ?_
  intro a' t' hr
  rw [hp'] at hr
  cases hr
  exact hg a t ha _ _ hg' hok

/-- The code after a function that fails with `none`, with its error path. -/
theorem needs_some {p : Prog P S (Option α)} {g : Option α → Prog P S β}
    (hp : needs G (fun o => o ≠ none) p s) (hg : ∀ x t, needs G ok (g (some x)) t)
    (hno : ∀ t, refuses ok (g none) t) : needs G ok (p >>= g) s := by
  refine needs_seq hp ?_ ?_
  · intro o t ho
    cases o with
    | none => exact absurd rfl ho
    | some x => exact hg x t
  · intro o t ho
    rw [Classical.not_not.mp ho]
    exact hno t

/-- The code after a function that says whether it succeeded. -/
theorem needs_if {p : Prog P S Bool} {g g' : Prog P S β}
    (hp : needs G (fun b => b = true) p s) (hg : ∀ t, needs G ok g t)
    (hno : ∀ t, refuses ok g' t) : needs G ok (p >>= fun b => if b then g else g') s := by
  refine needs_seq hp ?_ ?_
  · intro b t hb
    rw [if_pos hb]
    exact hg t
  · intro b t hb
    rw [if_neg hb]
    exact hno t

/-- The code after a program whose actions all satisfy `G`. -/
theorem needs_after {g : α → Prog P S β} (hp : Always G p s) (hg : ∀ a t, needs G ok (g a) t) :
    needs G ok (p >>= g) s := by
  have hp' : needs G (fun _ => True) p s := fun _ _ _ _ => hp
  exact needs_seq hp' (fun a t _ => hg a t) fun _ _ hno => absurd trivial hno

theorem refuses_after (p : Prog P S α) {b : β} (hb : ¬ ok b) :
    refuses ok (p >>= fun _ => pure b) s :=
  wp_seq (wp_true p) fun _ _ _ => hb

theorem refuses_after₂ {γ : Type} (p : Prog P S α) (q : Prog P S γ) {b : β}
    (hb : ¬ ok b) : refuses ok (p >>= fun _ => q >>= fun _ => pure b) s :=
  wp_seq (wp_true p) fun _ _ _ => refuses_after q hb

end Prog

end Xv6.Lib
