/-
  What a successful call says about `kalloc`.

  Under `Granted` the functions that allocate return a result (`Xv6.Vm.Served`).  Here is the
  converse: where `kfork` returns a child, no `kalloc` on the way has failed (`grants_kfork`).  All
  other actions leave the free list at least as long as it was, so none of them is a `kalloc`.
-/
import Xv6.Vm.Served

namespace Xv6

open Lib Lib.Prog

/-! ## Actions -/

section actions

variable {α β : Type}

/-- An action is known by what it does to the free list. -/
theorem act_ne {S : Type} {f : S → Outcome VmPanic S β} {g : S → Outcome VmPanic S α}
    (free : S → Nat) (hg : ∃ u b t, g u = .ok b t ∧ free t < free u)
    (hf : ∀ u b t, f u = .ok b t → free u ≤ free t) :
    (⟨β, f⟩ : (β : Type) × (S → Outcome VmPanic S β)) ≠ ⟨α, g⟩ := by
  have hall : ∀ x : (β : Type) × (S → Outcome VmPanic S β), x = ⟨α, g⟩ →
      ∃ u b t, x.2 u = .ok b t ∧ free t < free u := by
    rintro _ rfl
    exact hg
  intro heq
  obtain ⟨u, b, t, hfu, hlt⟩ := hall _ heq
  exact Nat.not_lt.mpr (hf u b t hfu) hlt

theorem Granted.of_kept {f : Mach → Outcome VmPanic Mach β} {s : Mach}
    (h : ∀ u b t, f u = .ok b t → u.freelist.length ≤ t.freelist.length) : Granted β f s := by
  intro heq
  refine absurd heq (act_ne (fun u => u.freelist.length) ?_ h)
  exact ⟨⟨0, 0, fun _ _ => 0, [0], []⟩, some 0, _, rfl, Nat.zero_lt_one⟩

variable {k : Kernel}

theorem GrantedK.of_kept {f : Kernel → Outcome VmPanic Kernel β}
    (h : ∀ u b t, f u = .ok b t → u.mach.freelist.length ≤ t.mach.freelist.length) :
    GrantedK β f k := by
  intro heq
  refine absurd heq (act_ne (fun u => u.mach.freelist.length) ?_ h)
  exact ⟨{ k with mach := ⟨0, 0, fun _ _ => 0, [0], []⟩ }, some 0, _, rfl, Nat.zero_lt_one⟩

theorem onMachAct_inj {f g : Mach → Outcome VmPanic Mach β} (k : Kernel)
    (h : onMachAct f = onMachAct g) : f = g := by
  funext m
  have hm := congrFun h { k with mach := m }
  unfold onMachAct zoomAct at hm
  cases hf : f m <;> cases hg : g m <;> rw [hf, hg] at hm <;> cases hm <;> rfl

theorem Granted.onMach {f : Mach → Outcome VmPanic Mach β} (h : Granted β f k.mach) :
    GrantedK β (onMachAct f) k := by
  intro heq
  obtain ⟨rfl, hf⟩ := Sigma.mk.inj heq
  rw [onMachAct_inj k (eq_of_heq hf)] at h
  exact h rfl

end actions

abbrev grants {α : Type} (ok : α → Prop) (p : MachM α) (s : Mach) : Prop := needs Granted ok p s

abbrev grantsK {α : Type} (ok : α → Prop) (p : KernelM α) (k : Kernel) : Prop := needs GrantedK ok p k

/-! ## `vm.c` -/

section vm

variable {s : Mach} {r va pa perm : Nat}

theorem kept_look {α : Type} (f : Mach → α) : Always Granted (look f) s := by
  refine ⟨Granted.of_kept ?_, trivial⟩
  intro u b t hf
  cases hf
  exact Nat.le_refl _

theorem kept_update {f : Mach → Mach} (hf : ∀ u, (f u).freelist = u.freelist) :
    Always Granted (update f) s := by
  refine ⟨Granted.of_kept ?_, trivial⟩
  intro u b t h
  cases h
  exact Nat.le_of_eq (congrArg List.length (hf u)).symm

theorem kept_panic {α : Type} (m : VmPanic) : Always Granted (panic m : MachM α) s := by
  refine ⟨Granted.of_kept ?_, trivial⟩
  intro u b t hf
  cases hf

theorem kept_walkLevel {level : Nat} : Always Granted (walkLevel r va level false) s := by
  refine always_bind (kept_look _) ?_
  intro pte t _
  split
  · trivial
  · trivial

theorem kept_walk : Always Granted (walk r va false) s := by
  unfold walk
  split
  · exact kept_panic _
  · refine always_bind kept_walkLevel ?_
    intro o t _
    cases o with
    | none => trivial
    | some pt1 =>
      refine always_bind kept_walkLevel ?_
      intro o' u _
      cases o' with
      | none | some => trivial

theorem grants_kalloc : grants (fun o => o ≠ none) kalloc s := by
  intro o t hrun ho
  cases hrun
  exact ⟨fun _ => ho, trivial⟩

theorem grants_walkLevel {level : Nat} :
    grants (fun o => o ≠ none) (walkLevel r va level true) s := by
  refine needs_after (kept_look _) ?_
  intro pte t
  split
  · exact needs_pure _
  · refine needs_some grants_kalloc ?_ fun t => not_not.mpr rfl
    intro x u
    refine needs_after (kept_update fun _ => rfl) fun _ w => ?_
    exact needs_after (kept_update fun _ => rfl) fun _ z => needs_pure _

theorem grants_walk : grants (fun o => o ≠ none) (walk r va true) s := by
  unfold walk
  split
  · exact needs_panic _
  · refine needs_some grants_walkLevel ?_ fun t => not_not.mpr rfl
    intro pt1 t
    exact needs_some grants_walkLevel (fun pt0 u => needs_pure _) fun u => not_not.mpr rfl

theorem grants_mapPage {a : Nat} : grants (fun b => b = true) (mapPage r a pa perm) s := by
  refine needs_some grants_walk ?_ fun t => Bool.false_ne_true
  intro p t
  refine needs_after (kept_look _) fun pte u => ?_
  split
  · exact needs_panic _
  · exact needs_after (kept_update fun _ => rfl) fun _ z => needs_pure _

theorem grants_mappagesLoop : ∀ (n : Nat) {a pa : Nat} {s : Mach},
    grants (fun b => b = true) (mappagesLoop r perm n a pa) s
  | 0, _, _, _ => grants_mapPage
  | n + 1, _, _, _ =>
    needs_if grants_mapPage (fun _ => grants_mappagesLoop n) fun _ => Bool.false_ne_true

theorem grants_mappages {size : Nat} :
    grants (fun b => b = true) (mappages r va size pa perm) s := by
  unfold mappages
  split
  · exact needs_panic _
  · split
    · exact needs_panic _
    · split
      · exact needs_panic _
      · exact grants_mappagesLoop _

theorem grants_uvmcopyLoop {old new : Nat} : ∀ (n : Nat) {i : Nat} {s : Mach},
    grants (fun b => b = true) (uvmcopyLoop old new n i) s
  | 0, _, _ => needs_pure _
  | n + 1, _, _ => by
    refine needs_after kept_walk ?_
    intro o t
    cases o with
    | none => exact grants_uvmcopyLoop n
    | some p =>
      refine needs_after (kept_look _) fun pte u => ?_
      split
      · refine needs_some grants_kalloc ?_ fun w => refuses_after _ Bool.false_ne_true
        intro x w
        refine needs_after (kept_update fun _ => rfl) fun _ y => ?_
        refine needs_if grants_mappages (fun z => grants_uvmcopyLoop n) fun z => ?_
        exact refuses_after₂ _ _ Bool.false_ne_true
      · exact grants_uvmcopyLoop n

theorem grants_uvmcreate : grants (fun o => o ≠ none) uvmcreate s := by
  refine needs_some grants_kalloc ?_ fun t => not_not.mpr rfl
  intro x t
  exact needs_after (kept_update fun _ => rfl) fun _ u => needs_pure _

theorem grants_procPagetable {tf : Nat} : grants (fun o => o ≠ none) (procPagetable tf) s := by
  refine needs_some grants_uvmcreate ?_ fun t => not_not.mpr rfl
  intro pagetable t
  refine needs_after (kept_look _) fun tramp u => ?_
  refine needs_if grants_mappages ?_ fun w => refuses_after _ (not_not.mpr rfl)
  intro w
  refine needs_if grants_mappages (fun z => needs_pure _) fun z => ?_
  exact refuses_after₂ _ _ (not_not.mpr rfl)

end vm

/-! ## `proc.c` -/

section kernel

variable {k : Kernel} {α : Type}

theorem kept_onMach {p : MachM α} (h : Always Granted p k.mach) : Always GrantedK (onMach p) k :=
  always_zoom (fun _ _ _ hG => Granted.onMach hG) (fun _ _ => rfl) h

theorem grants_onMach {ok : α → Prop} {p : MachM α} (h : grants ok p k.mach) :
    grantsK ok (onMach p) k := by
  have hset : ∀ (m : Mach) (k : Kernel), { k with mach := m }.mach = m := fun _ _ => rfl
  intro a t hrun hok
  have hwp : wp Crit.total (fun x _ => x = a) (onMach p) k := wp_of_run hrun rfl
  obtain ⟨_, m, hrun', rfl⟩ := wp_run_total ((wp_zoom hset (fun _ _ _ => rfl) fun _ => rfl).mp hwp)
  exact kept_onMach (h _ m hrun' hok)

theorem kept_lookK (f : Kernel → α) : Always GrantedK (look f) k := by
  refine ⟨GrantedK.of_kept ?_, trivial⟩
  intro u b t hf
  cases hf
  exact Nat.le_refl _

theorem kept_updateK {f : Kernel → Kernel}
    (hf : ∀ u, (f u).mach.freelist = u.mach.freelist) : Always GrantedK (update f) k := by
  refine ⟨GrantedK.of_kept ?_, trivial⟩
  intro u b t h
  cases h
  exact Nat.le_of_eq (congrArg List.length (hf u)).symm

theorem kept_modifyProc (p : Nat) (f : Proc → Proc) : Always GrantedK (modifyProc p f) k :=
  kept_updateK fun _ => rfl

theorem grants_allocproc : grantsK (fun o => o ≠ none) allocproc k := by
  refine needs_after (kept_lookK _) ?_
  intro found k1
  cases found with
  | none => exact needs_pure _
  | some p =>
    refine needs_after (kept_modifyProc _ _) fun _ k2 => ?_
    refine needs_some (grants_onMach grants_kalloc) ?_ ?_
    · intro tf k3
      refine needs_after (kept_modifyProc _ _) fun _ k4 => ?_
      refine needs_some (grants_onMach grants_procPagetable) ?_ ?_
      · intro r k5
        exact needs_after (kept_modifyProc _ _) fun _ k6 => needs_pure _
      · intro k5
        exact refuses_after₂ _ _ (not_not.mpr rfl)
    · intro k3
      exact refuses_after₂ _ _ (not_not.mpr rfl)

theorem kept_dupOfile (p np fd : Nat) : Always GrantedK (dupOfile p np fd) k := by
  refine always_bind (kept_lookK _) ?_
  intro pr k1 _
  cases pr.ofile fd with
  | none => trivial
  | some f =>
    refine always_bind ?_ fun _ _ _ => kept_modifyProc _ _
    refine always_bind (kept_lookK _) ?_
    intro x k2 _
    split
    · refine ⟨GrantedK.of_kept ?_, trivial⟩
      intro u b t hf
      cases hf
    · exact kept_updateK fun _ => rfl

/-- `kfork` makes a child only if every `kalloc` on the way was granted. -/
theorem grants_kfork (p : Nat) : grantsK (fun o => o ≠ none) (kfork p) k := by
  refine needs_some grants_allocproc ?_ fun k1 => not_not.mpr rfl
  intro np k1
  refine needs_after (kept_lookK _) fun pr k2 => ?_
  refine needs_after (kept_lookK _) fun npr k3 => ?_
  split
  · refine needs_if (grants_onMach (grants_uvmcopyLoop _)) ?_ ?_
    · intro k4
      refine needs_after (kept_modifyProc _ _) fun _ k5 => ?_
      refine needs_after (kept_onMach (kept_update fun _ => rfl)) fun _ k6 => ?_
      refine needs_after (always_upto fun fd _ => kept_dupOfile p np fd) fun _ k7 => ?_
      refine needs_after (kept_modifyProc _ _) fun _ k8 => ?_
      exact needs_after (kept_modifyProc _ _) fun _ k9 => needs_pure _
    · intro k4
      exact refuses_after _ (not_not.mpr rfl)
  · exact needs_panic _

end kernel

end Xv6
