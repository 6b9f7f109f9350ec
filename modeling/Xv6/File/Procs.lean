/-
  What the actions on the process table do to the tokens.

  A process sets its own descriptors and `cwd`; `fork` sets those of a child that does not run yet, and
  the tokens that it puts there are the child's from then on.  `spawn_spec` is the action with which the
  child starts, `zombie_spec` the one with which `exit` ends a process.
-/
import Xv6.File.Own
import Mathlib.Tactic.Abel

namespace Xv6.Ftable

open Lib Finset Function
open Lib.Prog hiding update

section procs

variable {O O' : Fin NPROC → Option Held} {s : Sys} {t np : Fin NPROC} {r r' : Held} {x y : Proc}

theorem proc_setProc (s : Sys) (p q : Fin NPROC) (x : Proc) :
    (s.setProc p x).proc q = if q = p then x else s.proc q := update_apply s.proc p x q

theorem supply_setProc (s : Sys) (p : Fin NPROC) (x : Proc) (k : Token) :
    (s.setProc p x).supply k = s.supply k := by
  cases k <;> rfl

/-- An action on the process table. The processes in `T` may exchange tokens. -/
theorem Table.setProc (h : Table O s) (T : Finset (Fin NPROC)) (p : Fin NPROC)
    (hT : ∀ q, q ∉ T → tokensOf O' (s.setProc p x) q = tokensOf O s q)
    (hk : ∑ q ∈ T, tokensOf O s q = ∑ q ∈ T, tokensOf O' (s.setProc p x) q)
    (hfresh : ∀ q r f, O' q = some r → f ∈ r.fresh →
      ∃ r₀, O q = some r₀ ∧ f ∈ r₀.fresh ∧ r.tokens = r₀.tokens) :
    Table O' (s.setProc p x) := by
  refine ⟨supply_change T ∅ h.supply hT (fun _ _ => rfl) ?_, h.closed, ?_⟩
  · intro k
    rw [supply_setProc, sum_empty, sum_empty, ← Multiset.count_sum', ← Multiset.count_sum', hk]
  · intro q r f hq hf
    obtain ⟨r₀, hr₀, hf₀, htokens⟩ := hfresh q r f hq hf
    obtain ⟨htype, href, hmem⟩ := h.fresh q r₀ f hr₀ hf₀
    rw [htokens]
    exact ⟨htype, href, hmem⟩

/-! ## The process itself -/

/-- The process sets a field of its own. -/
theorem Inv.setSelf (h : Inv O s) (hO : O t = some r) (hx : x.state = .runnable) :
    Inv (update O t (some { r with self := x })) (s.setProc t x) := by
  refine ⟨h.procs.self hO (proc_setProc s t · x) hx rfl rfl, h.table.setProc {t} t ?_ ?_ ?_⟩
  · intro q hq
    rw [mem_singleton] at hq
    unfold tokensOf
    rw [update_of_ne hq, proc_setProc, if_neg hq]
  · rw [sum_singleton, sum_singleton, tokensOf_some hO, tokensOf_some (update_self t _ O)]
    rfl
  · intro q rq f hq hf
    rcases update_live hq with ⟨rfl, rfl⟩ | ⟨_, hq⟩
    · exact ⟨r, hO, hf, rfl⟩
    · exact ⟨rq, hq, hf, rfl⟩

/-- What the process reads of the state. -/
theorem look_spec {α : Type} {g : Sys → α} {a : α} {Q : α → Option Held → Prop}
    (hg : ∀ O s, O t = some r → Inv O s → g s = a) (hQ : Q a (some r)) :
    logic.wp t Q (look g) (some r) := by
  refine Logic.wp_atomic fun O s hO hinv => ⟨r, hinv.same hO, ?_⟩
  rw [hg O s hO hinv]
  exact hQ

theorem Inv.proc_self (h : Inv O s) (hO : O t = some r) : s.proc t = r.self := (h.procs.live t r hO).1

theorem Inv.self_runnable (h : Inv O s) (hO : O t = some r) : r.self.state = .runnable :=
  (h.procs.live t r hO).2

def Held.setOfile (r : Held) (fd : Fin NOFILE) (f : Option (Fin NFILE)) : Held :=
  { r with self := { r.self with ofile := update r.self.ofile fd f } }

variable {Q : Unit → Option Held → Prop}

theorem setOfile_spec {fd : Fin NOFILE} {f : Option (Fin NFILE)}
    (hQ : Q () (some (r.setOfile fd f))) : logic.wp t Q (setOfile t fd f) (some r) := by
  refine Logic.wp_atomic fun O s hO hinv => ⟨r.setOfile fd f, ?_, hQ⟩
  dsimp only
  rw [hinv.proc_self hO]
  exact hinv.setSelf hO (hinv.self_runnable hO)

theorem setCwd_spec {ip : Option Nat}
    (hQ : Q () (some { r with self := { r.self with cwd := ip } })) :
    logic.wp t Q (setCwd t ip) (some r) := by
  refine Logic.wp_atomic fun O s hO hinv => ⟨_, ?_, hQ⟩
  dsimp only
  rw [hinv.proc_self hO]
  exact hinv.setSelf hO (hinv.self_runnable hO)

theorem fdalloc_spec {f : Fin NFILE} {Q : Option (Fin NOFILE) → Option Held → Prop}
    (hnone : Q none (some r))
    (hsome : ∀ fd, r.self.ofile fd = none → Q (some fd) (some (r.setOfile fd (some f)))) :
    logic.wp t Q (fdalloc t f) (some r) := by
  refine Logic.wp_atomic fun O s hO hinv => ?_
  simp only [allocFd, hinv.proc_self hO]
  cases hfind : (List.finRange NOFILE).find? fun fd => decide (r.self.ofile fd = none) with
  | none => exact ⟨r, hinv.same hO, hnone⟩
  | some fd =>
    have hdec := List.find?_some hfind
    exact ⟨r.setOfile fd (some f), hinv.setSelf hO (hinv.self_runnable hO),
      hsome fd (of_decide_eq_true hdec)⟩

/-- The process counts the same tokens in another way. -/
theorem shift_of_tokens (hself : r'.self = r.self) (hchild : r'.child = r.child)
    (hfresh : r'.fresh = r.fresh) (htokens : r'.tokens = r.tokens) : logic.Shift t r r' := by
  intro O s hO hinv
  refine Inv.keep hinv hO rfl rfl hself hchild hfresh fun k => ?_
  rw [htokens]

/-! ## The child -/

/-- A slot of the process table that is not live changes. -/
theorem Procs.setOther (h : Procs O s) (hO : O t = some r) (hnp : O np = none)
    (hothers : ∀ q rq y, q ≠ t → O q = some rq → rq.child ≠ some (np, y))
    (hx : x.state ≠ .runnable)
    (hclosed : x.state = .unused ∨ x.state = .zombie → x.ofile = (fun _ => none) ∧ x.cwd = none)
    (hself : r'.self = r.self)
    (hchild : r'.child = none ∨ r'.child = some (np, x) ∧ x.state = .used) :
    Procs (update O t (some r')) (s.setProc np x) := by
  refine h.change (t := t) (proc_setProc s np · x) ?_ ?_ ?_ (fun _ => hx) hclosed ?_
  · intro q rq _ hq
    rcases update_live hq with ⟨rfl, rfl⟩ | ⟨_, hq⟩
    · exact ⟨r, hO, hself⟩
    · exact ⟨rq, hq, rfl⟩
  · intro q _ hq
    exact update_dead hq
  · intro rp hrp
    rcases update_live hrp with ⟨rfl, _⟩ | ⟨_, hrp⟩
    · rw [hO] at hnp
      cases hnp
    · rw [hrp] at hnp
      cases hnp
  · intro q rq c y hq hc
    rcases update_live hq with ⟨rfl, rfl⟩ | ⟨hqt, hq⟩
    · rcases hchild with hnone | ⟨hsome, hused⟩
      · rw [hnone] at hc
        cases hc
      · rw [hsome] at hc
        cases hc
        exact Or.inl ⟨rfl, rfl, rfl, hused⟩
    · refine Or.inr ⟨?_, rq, hq, hc⟩
      rintro rfl
      exact hothers q rq y hqt hq hc

/-- ... and its tokens come from the process that changes it. -/
theorem Table.setOther (h : Table O s) (hO : O t = some r) (hnp : O np = none)
    (hfresh : r'.fresh = [])
    (hk : (s.proc np).tokens + r.tokens = x.tokens + r'.tokens) :
    Table (update O t (some r')) (s.setProc np x) := by
  have hne : np ≠ t := by
    rintro rfl
    rw [hO] at hnp
    cases hnp
  refine h.setProc {np, t} np ?_ ?_ ?_
  · intro q hq
    rw [mem_insert, mem_singleton, not_or] at hq
    unfold tokensOf
    rw [update_of_ne hq.2, proc_setProc, if_neg hq.1]
  · rw [sum_pair hne, sum_pair hne, tokensOf_some hO, tokensOf_some (update_self t _ O)]
    unfold tokensOf
    rw [update_of_ne hne, hnp, proc_setProc, if_pos rfl]
    exact hk
  · intro q rq f hq hf
    rcases update_live hq with ⟨rfl, rfl⟩ | ⟨_, hq⟩
    · rw [hfresh] at hf
      cases hf
    · exact ⟨rq, hq, hf, rfl⟩

/-- A slot that is neither live nor being set up is nobody's child. -/
theorem Procs.no_child (h : Procs O s) (hnp : (s.proc np).state ≠ .used) (q : Fin NPROC) (rq : Held)
    (y : Proc) (hq : O q = some rq) : rq.child ≠ some (np, y) := by
  intro hc
  obtain ⟨hproc, hused⟩ := h.child q rq np y hq hc
  rw [hproc] at hnp
  exact hnp hused

theorem Procs.not_live (h : Procs O s) (hnp : (s.proc np).state ≠ .runnable) : O np = none := by
  cases hO : O np with
  | none => rfl
  | some rq =>
    obtain ⟨hproc, hstate⟩ := h.live np rq hO
    rw [hproc] at hnp
    exact absurd hstate hnp

/-- `fork` finds a slot. -/
theorem claim_unused_spec (hfresh : r.fresh = [])
    (hQ : Q () (some { r with child := some (np, ⟨.used, fun _ => none, none⟩) })) :
    logic.wp t Q (atomic (claim np .unused .used)) (some r) := by
  refine Logic.wp_atomic fun O s hO hinv => ?_
  unfold claim
  by_cases hstate : (s.proc np).state = .unused
  · rw [if_pos hstate]
    obtain ⟨hofile, hcwd⟩ := hinv.procs.closed np (Or.inl hstate)
    have hnone : O np = none := hinv.procs.not_live (by rw [hstate]; exact nofun)
    refine ⟨_, ⟨?_, ?_⟩, hQ⟩
    · dsimp only
      rw [hofile, hcwd]
      refine hinv.procs.setOther hO hnone ?_ nofun ?_ rfl (Or.inr ⟨rfl, rfl⟩)
      · exact fun q rq y _ hq => hinv.procs.no_child (by rw [hstate]; exact nofun) q rq y hq
      · exact fun _ => ⟨rfl, rfl⟩
    · exact hinv.table.setOther hO hnone hfresh rfl
  · rw [if_neg hstate]
    trivial

/-- `wait` finds a zombie. -/
theorem claim_zombie_spec (hfresh : r.fresh = []) (hchild : r.child = none) (hQ : Q () (some r)) :
    logic.wp t Q (atomic (claim np .zombie .unused)) (some r) := by
  refine Logic.wp_atomic fun O s hO hinv => ?_
  unfold claim
  by_cases hstate : (s.proc np).state = .zombie
  · rw [if_pos hstate]
    have hnone : O np = none := hinv.procs.not_live (by rw [hstate]; exact nofun)
    refine ⟨r, ⟨?_, hinv.table.setOther hO hnone hfresh rfl⟩, hQ⟩
    refine hinv.procs.setOther hO hnone ?_ nofun ?_ rfl (Or.inl hchild)
    · exact fun q rq y _ hq => hinv.procs.no_child (by rw [hstate]; exact nofun) q rq y hq
    · exact fun _ => hinv.procs.closed np (Or.inr hstate)
  · rw [if_neg hstate]
    trivial

/-- `fork` sets a field of the child, and gives it what it has in hand for it. -/
theorem Inv.setChild (h : Inv O s) (hO : O t = some r) (hchild : r.child = some (np, y))
    (hx : x.state = .used) (hself : r'.self = r.self) (hchild' : r'.child = some (np, x))
    (hfresh : r'.fresh = []) (hk : y.tokens + r.tokens = x.tokens + r'.tokens) :
    Inv (update O t (some r')) (s.setProc np x) := by
  obtain ⟨hproc, hused⟩ := h.procs.child t r np y hO hchild
  have hnone : O np = none := h.procs.not_live (by rw [hproc, hused]; exact nofun)
  refine ⟨h.procs.setOther hO hnone ?_ (by rw [hx]; exact nofun) ?_ hself (Or.inr ⟨hchild', hx⟩), ?_⟩
  · intro q rq z hqt hq hz
    exact hqt (h.procs.child_inj q t rq r np z y hq hO hz hchild)
  · rw [hx]
    rintro (hno | hno) <;> cases hno
  · exact h.table.setOther hO hnone hfresh (by rw [hproc]; exact hk)

/-- The child takes over a reference to a file. -/
theorem setOfile_child_spec {fd : Fin NOFILE} {f : Fin NFILE} (hchild : r.child = some (np, y))
    (hused : y.state = .used) (hfresh : r.fresh = []) (hfd : y.ofile fd = none)
    (hQ : Q () (some { r with
      child := some (np, { y with ofile := update y.ofile fd (some f) }) })) :
    logic.wp t Q (setOfile np fd (some f)) (some (r.take {.file f})) := by
  refine Logic.wp_atomic fun O s hO hinv => ⟨_, ?_, hQ⟩
  dsimp only
  rw [(hinv.procs.child t _ np y hO hchild).1]
  refine hinv.setChild hO hchild hused rfl rfl hfresh ?_
  have hslot := ofileTokens_update y.ofile fd (some f)
  rw [hfd] at hslot
  have hslot : ofileTokens (update y.ofile fd (some f)) = ofileTokens y.ofile + {.file f} := by
    rw [← add_zero (ofileTokens (update y.ofile fd (some f)))]
    exact hslot
  rw [Held.tokens_take]
  unfold Proc.tokens
  rw [hslot]
  abel

theorem setCwd_child_spec {ip : Nat} (hchild : r.child = some (np, y)) (hused : y.state = .used)
    (hfresh : r.fresh = []) (hcwd : y.cwd = none)
    (hQ : Q () (some { r with child := some (np, { y with cwd := some ip }) })) :
    logic.wp t Q (setCwd np (some ip)) (some (r.take {.inode ip})) := by
  refine Logic.wp_atomic fun O s hO hinv => ⟨_, ?_, hQ⟩
  dsimp only
  rw [(hinv.procs.child t _ np y hO hchild).1]
  refine hinv.setChild hO hchild hused rfl rfl hfresh ?_
  rw [Held.tokens_take]
  unfold Proc.tokens
  rw [hcwd]
  show ofileTokens y.ofile + 0 + ({.inode ip} + r.tokens) = ofileTokens y.ofile + {.inode ip} + r.tokens
  abel

/-- `fork` gives the slot back. -/
theorem free_child_spec (hchild : r.child = some (np, y)) (hfresh : r.fresh = [])
    (hofile : y.ofile = fun _ => none) (hcwd : y.cwd = none)
    (hQ : Q () (some { r with child := none })) : logic.wp t Q (setState np .unused) (some r) := by
  refine Logic.wp_atomic fun O s hO hinv => ⟨_, ?_, hQ⟩
  obtain ⟨hproc, hused⟩ := hinv.procs.child t r np y hO hchild
  have hnone : O np = none := hinv.procs.not_live (by rw [hproc, hused]; exact nofun)
  dsimp only
  rw [hproc]
  refine ⟨hinv.procs.setOther hO hnone ?_ nofun ?_ rfl (Or.inl rfl), ?_⟩
  · intro q rq z hqt hq hz
    exact hqt (hinv.procs.child_inj q t rq r np z y hq hO hz hchild)
  · exact fun _ => ⟨hofile, hcwd⟩
  · exact hinv.table.setOther hO hnone hfresh (by rw [hproc]; rfl)

/-! ## Beginning and end -/

/-- The child starts, with what `fork` has given it. -/
theorem spawn_spec (hchild : r.child = some (np, y)) (hfresh : r.fresh = []) (hcwd : y.cwd ≠ none)
    (hQ : Q () (some { r with child := none })) :
    logic.wp t Q (setState np .runnable) (some r) := by
  refine Logic.wp_spawn fun O s hO hinv => ?_
  obtain ⟨hproc, hused⟩ := hinv.procs.child t r np y hO hchild
  have hnone : O np = none := hinv.procs.not_live (by rw [hproc, hused]; exact nofun)
  have hne : np ≠ t := by
    rintro rfl
    rw [hO] at hnone
    cases hnone
  refine ⟨np, .idle { y with state := .runnable }, { r with child := none }, hne, hnone,
    ⟨rfl, rfl, rfl, rfl, rfl, hcwd⟩, ⟨?_, ?_⟩, hQ⟩
  · dsimp only
    rw [hproc]
    refine hinv.procs.change (t := t) (proc_setProc s np · _) ?_ ?_ ?_ ?_ ?_ ?_
    · intro q rq hqn hq
      rw [update_of_ne hqn] at hq
      rcases update_live hq with ⟨rfl, rfl⟩ | ⟨_, hq⟩
      · exact ⟨r, hO, rfl⟩
      · exact ⟨rq, hq, rfl⟩
    · intro q hqn hq
      rw [update_of_ne hqn] at hq
      exact update_dead hq
    · intro rp hrp
      rw [update_self] at hrp
      cases hrp
      exact ⟨rfl, rfl⟩
    · intro hno
      rw [update_self] at hno
      cases hno
    · rintro (hno | hno) <;> cases hno
    · intro q rq c z hq hc
      rcases update_live hq with ⟨_, rfl⟩ | ⟨_, hq₁⟩
      · cases hc
      rcases update_live hq₁ with ⟨_, rfl⟩ | ⟨hqt, hq₂⟩
      · cases hc
      refine Or.inr ⟨?_, rq, hq₂, hc⟩
      rintro rfl
      exact hqt (hinv.procs.child_inj q t rq r c z y hq₂ hO hc hchild)
  · refine hinv.table.setProc {np, t} np ?_ ?_ ?_
    · intro q hq
      rw [mem_insert, mem_singleton, not_or] at hq
      unfold tokensOf
      rw [update_of_ne hq.1, update_of_ne hq.2, proc_setProc, if_neg hq.1]
    · rw [sum_pair hne, sum_pair hne, tokensOf_some hO]
      unfold tokensOf
      rw [update_self, update_of_ne hne.symm, update_self, hnone, hproc]
      have hidle : (Held.idle { y with state := .runnable }).tokens = y.tokens := add_zero _
      show y.tokens + r.tokens = (Held.idle _).tokens + r.tokens
      rw [hidle]
    · intro q rq f hq hf
      rcases update_live hq with ⟨_, rfl⟩ | ⟨_, hq⟩
      · cases hf
      · rcases update_live hq with ⟨_, rfl⟩ | ⟨_, hq⟩
        · rw [hfresh] at hf
          cases hf
        · exact ⟨rq, hq, hf, rfl⟩

/-- `exit` leaves nothing behind. -/
theorem zombie_spec (hofile : r.self.ofile = fun _ => none) (hcwd : r.self.cwd = none)
    (htokens : r.tokens = 0) (hQ : Q () none) : logic.wp t Q (setState t .zombie) (some r) := by
  refine Logic.wp_end fun O s hO hinv => ?_
  -- the others are as they were
  have hold : ∀ p q, update O t none p = some q → p ≠ t ∧ O p = some q := by
    intro p q hq
    by_cases hp : p = t
    · rw [hp, update_self] at hq
      cases hq
    · exact ⟨hp, by rwa [update_of_ne hp] at hq⟩
  refine ⟨⟨?_, ?_⟩, hQ⟩
  · dsimp only
    rw [hinv.proc_self hO]
    refine hinv.procs.change (t := t) (proc_setProc s t · _) ?_ ?_ ?_ (fun _ => nofun) ?_ ?_
    · intro q rq _ hq
      exact ⟨rq, (hold q rq hq).2, rfl⟩
    · intro q hqt hq
      rwa [update_of_ne hqt] at hq
    · intro rp hrp
      exact absurd rfl (hold t rp hrp).1
    · exact fun _ => ⟨hofile, hcwd⟩
    · intro q rq c z hq hc
      have hq := (hold q rq hq).2
      exact Or.inr ⟨hinv.procs.child_ne hO hq hc, rq, hq, hc⟩
  · refine hinv.table.setProc {t} t ?_ ?_ ?_
    · intro q hq
      rw [mem_singleton] at hq
      unfold tokensOf
      rw [update_of_ne hq, proc_setProc, if_neg hq]
    · rw [sum_singleton, sum_singleton, tokensOf_some hO, htokens]
      unfold tokensOf
      rw [update_self]
      rw [proc_setProc, if_pos rfl, hinv.proc_self hO]
      unfold Proc.tokens
      rw [hofile, hcwd]
      rfl
    · intro q rq f hq hf
      exact ⟨rq, (hold q rq hq).2, hf, rfl⟩

end procs

end Xv6.Ftable
