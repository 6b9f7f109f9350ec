/-
  Copying the contents of places one after the other.

  `moves m ps` copies the value at `p.2` to `p.1` for each pair `p` of `ps` in turn. If no place is
  written twice or read after it was written, every destination ends up with what its source held
  at the start (`moves_of_mem`) and every other place is unchanged (`moves_of_notMem`).
-/
import Mathlib.Logic.Function.Basic

namespace Xv6.Lib

variable {α β : Type*} [DecidableEq α] {ps : List (α × α)} {q : α × α} {a : α}

def moves (m : α → β) (ps : List (α × α)) : α → β :=
  ps.foldl (fun m p => Function.update m p.1 (m p.2)) m

theorem moves_of_notMem (m : α → β) (h : ∀ p ∈ ps, a ≠ p.1) : moves m ps a = m a := by
  induction ps generalizing m with
  | nil => rfl
  | cons p ps ih =>
    obtain ⟨hp, hps⟩ := List.forall_mem_cons.1 h
    exact (ih (Function.update m p.1 (m p.2)) hps).trans (Function.update_of_ne hp _ _)

theorem moves_of_mem (m : α → β) (h : ps.Pairwise fun p q => p.1 ≠ q.1 ∧ q.2 ≠ p.1)
    (hq : q ∈ ps) : moves m ps q.1 = m q.2 := by
  induction ps generalizing m with
  | nil => cases hq
  | cons p ps ih =>
    obtain ⟨hp, hps⟩ := List.pairwise_cons.1 h
    cases hq with
    | head =>
      -- nothing after the first move writes its destination again
      exact (moves_of_notMem (Function.update m _ _) fun r hr => (hp r hr).1).trans
        (Function.update_self _ _ _)
    | tail _ hq =>
      exact (ih (Function.update m p.1 (m p.2)) hps hq).trans
        (Function.update_of_ne (hp q hq).2 _ _)

end Xv6.Lib
