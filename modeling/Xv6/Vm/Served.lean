/-
  The runs in which `kalloc` never fails.

  `Granted` is the condition on an action that it is not a failing `kalloc`, `GrantedK` the same
  for the kernel.  Under it the functions that allocate return a result: each lemma says so from
  the shape of the function alone, for every state.  That they do not panic and what they do to
  memory is said elsewhere, so panics are tolerated here.
-/
import Xv6.Lib.Assume
import Xv6.Vm.Proc

namespace Xv6

open Lib Lib.Prog

def kallocAct (s : Mach) : Outcome VmPanic Mach (Option Nat) := .ok s.kalloc.1 s.kalloc.2

/-- The action is not a `kalloc` that fails. -/
def Granted : ActPred VmPanic Mach := fun β f s =>
  (⟨β, f⟩ : (β : Type) × (Mach → Outcome VmPanic Mach β)) = ⟨Option Nat, kallocAct⟩ →
    s.kalloc.1 ≠ none

/-- An action on memory, done by the kernel. -/
def onMachAct {β : Type} (f : Mach → Outcome VmPanic Mach β) (k : Kernel) :
    Outcome VmPanic Kernel β :=
  zoomAct Kernel.mach (fun m k => { k with mach := m }) f k

def GrantedK : ActPred VmPanic Kernel := fun β f k =>
  (⟨β, f⟩ : (β : Type) × (Kernel → Outcome VmPanic Kernel β)) =
    ⟨Option Nat, onMachAct kallocAct⟩ → k.mach.kalloc.1 ≠ none

theorem GrantedK.granted {β : Type} {f : Mach → Outcome VmPanic Mach β} {k : Kernel}
    (h : GrantedK β (onMachAct f) k) : Granted β f k.mach := by
  intro heq
  refine h ?_
  cases heq
  rfl

/-- `Q` of the result, in the runs in which `kalloc` never fails. -/
abbrev served {α : Type} (Q : α → Mach → Prop) (p : MachM α) (s : Mach) : Prop :=
  given Granted Crit.partialC Q p s

/-- The same for functions that do not panic either. -/
abbrev granted {α : Type} (Q : α → Mach → Prop) (p : MachM α) (s : Mach) : Prop :=
  given Granted Crit.total Q p s

abbrev servedK {α : Type} (Q : α → Kernel → Prop) (p : KernelM α) (k : Kernel) : Prop :=
  given GrantedK Crit.partialC Q p k

section served

variable {s : Mach} {k : Kernel} {r va pa perm : Nat} {α β : Type}

theorem served_any (p : MachM α) : served (fun _ _ => True) p s := given_of_wp (wp_true p)

theorem servedK_any (p : KernelM α) : servedK (fun _ _ => True) p k := given_of_wp (wp_true p)

variable {Q : α → Mach → Prop} {p : MachM α}

theorem served_of_wp (h : wp Crit.total Q p s) : served Q p s :=
  given_of_wp (wp_of_total h fun _ => trivial)

/-- What comes first does not matter. -/
theorem served_after {g : α → MachM β} {Q : β → Mach → Prop}
    (h : ∀ a t, served Q (g a) t) : served Q (p >>= g) s :=
  given_seq (served_any p) fun a t _ => h a t

theorem servedK_after {p : KernelM α} {g : α → KernelM β} {Q : β → Kernel → Prop}
    (h : ∀ a t, servedK Q (g a) t) : servedK Q (p >>= g) k :=
  given_seq (servedK_any p) fun a t _ => h a t

theorem given_onMach {C : Crit VmPanic Kernel} {Q : α → Kernel → Prop}
    (h : given Granted ⟨fun t => C.inv { k with mach := t }, C.panic, C.block⟩
      (fun a t => Q a { k with mach := t }) p k.mach) : given GrantedK C Q (onMach p) k := by
  unfold onMach
  refine given_zoom (fun _ _ _ hG => GrantedK.granted hG) ?_ ?_ ?_ h
  · intro u k'
    rfl
  · intro u v k'
    rfl
  · intro k'
    rfl

theorem servedK_onMach {Q : α → Prop} (h : served (fun a _ => Q a) p k.mach) :
    servedK (fun a _ => Q a) (onMach p) k := given_onMach h

theorem served_panic (m : VmPanic) : served Q (panic m) s :=
  fun _ => trivial

theorem served_kalloc : served (fun o _ => o ≠ none) kalloc s := fun hG => ⟨trivial, hG rfl⟩

/-- The code after a `kalloc`: its error path is not taken. -/
theorem served_kalloc_seq {g : Option Nat → MachM α}
    (h : ∀ x t, served Q (g (some x)) t) : served Q (kalloc >>= g) s := by
  refine given_seq served_kalloc ?_
  intro o t ho
  cases o with
  | none => exact absurd rfl ho
  | some x => exact h x t

/-! ## `vm.c` -/

theorem served_walkLevel {level : Nat} :
    served (fun o _ => o ≠ none) (walkLevel r va level true) s := by
  unfold walkLevel
  refine served_after ?_
  intro pte t
  split
  · exact Option.some_ne_none _
  · refine served_kalloc_seq ?_
    intro x u
    exact served_after fun _ _ => served_after fun _ _ => Option.some_ne_none _

theorem served_walk : served (fun o _ => o ≠ none) (walk r va true) s := by
  unfold walk
  split
  · exact served_panic _
  · refine given_seq served_walkLevel ?_
    intro o t ho
    cases o with
    | none => exact absurd rfl ho
    | some pt1 =>
      refine given_seq served_walkLevel ?_
      intro o' u ho'
      cases o' with
      | none => exact absurd rfl ho'
      | some pt0 => exact Option.some_ne_none _

theorem served_mapPage {a : Nat} : served (fun b _ => b = true) (mapPage r a pa perm) s := by
  unfold mapPage
  refine given_seq served_walk ?_
  intro o t ho
  cases o with
  | none => exact absurd rfl ho
  | some p =>
    refine served_after ?_
    intro pte u
    split
    · exact served_panic _
    · exact served_after fun _ _ => rfl

theorem served_mappagesLoop : ∀ (n : Nat) {a pa : Nat} {s : Mach},
    served (fun b _ => b = true) (mappagesLoop r perm n a pa) s
  | 0, _, _, _ => served_mapPage
  | n + 1, _, _, _ => by
    unfold mappagesLoop
    refine given_seq served_mapPage ?_
    intro b t hb
    rw [hb]
    exact served_mappagesLoop n

theorem served_mappages {size : Nat} :
    served (fun b _ => b = true) (mappages r va size pa perm) s := by
  unfold mappages
  split
  · exact served_panic _
  · split
    · exact served_panic _
    · split
      · exact served_panic _
      · exact served_mappagesLoop _

/-- The code after a `mappages`: its error path is not taken. -/
theorem served_mappages_seq {size : Nat} {g : Bool → MachM α}
    (h : ∀ t, served Q (g true) t) : served Q (mappages r va size pa perm >>= g) s := by
  refine given_seq served_mappages ?_
  intro b t hb
  rw [hb]
  exact h t

theorem served_uvmallocLoop {oldsz xperm : Nat} : ∀ (n : Nat) {a : Nat} {s : Mach},
    served (fun b _ => b = true) (uvmallocLoop r oldsz xperm n a) s
  | 0, _, _ => rfl
  | n + 1, _, _ => by
    unfold uvmallocLoop
    refine served_kalloc_seq ?_
    intro x t
    refine served_after fun _ u => served_mappages_seq fun w => ?_
    exact served_uvmallocLoop n

theorem served_uvmalloc {oldsz newsz xperm : Nat} :
    served (fun sz _ => sz = max oldsz newsz) (uvmalloc r oldsz newsz xperm) s := by
  unfold uvmalloc
  split
  · exact (Nat.max_eq_left (by omega)).symm
  · refine given_seq (served_uvmallocLoop _) ?_
    intro b t hb
    rw [hb]
    exact (Nat.max_eq_right (by omega)).symm

theorem served_uvmcopyLoop {old new : Nat} : ∀ (n : Nat) {i : Nat} {s : Mach},
    served (fun b _ => b = true) (uvmcopyLoop old new n i) s
  | 0, _, _ => rfl
  | n + 1, _, _ => by
    unfold uvmcopyLoop
    refine served_after ?_
    intro o t
    cases o with
    | none => exact served_uvmcopyLoop n
    | some p =>
      refine served_after fun pte u => ?_
      split
      · refine served_kalloc_seq fun x w => served_after fun _ w' => served_mappages_seq fun z => ?_
        exact served_uvmcopyLoop n
      · exact served_uvmcopyLoop n

theorem served_uvmcopy {old new sz : Nat} :
    served (fun b _ => b = true) (uvmcopy old new sz) s := served_uvmcopyLoop _

/-- The part of `vmfault` that allocates. -/
theorem served_vmfault {own sz : Nat} {P : Prop}
    (hm : ¬ va ≥ sz → served (fun b _ => b = true → P) (ismapped r (PGROUNDDOWN va)) s) :
    served (fun o _ => o = none → va ≥ sz ∨ P) (vmfault own sz r va) s := by
  unfold vmfault
  split
  · rename_i hge
    exact fun _ => Or.inl hge
  · rename_i hlt
    refine given_seq (hm hlt) ?_
    intro b t hb
    cases b with
    | true =>
      exact fun _ => Or.inr (hb rfl)
    | false =>
      refine served_kalloc_seq fun x u => served_after fun _ w => served_mappages_seq fun z => ?_
      exact fun h => absurd h (Option.some_ne_none x)

theorem served_growproc {sz : Nat} {n : Int} :
    served (fun o _ => o = none → 0 < n ∧ (TRAPFRAME < add64 sz n ∨ max sz (add64 sz n) = 0))
      (growproc r sz n) s := by
  unfold growproc
  split
  · rename_i hpos
    split
    · rename_i hbig
      exact fun _ => ⟨hpos, Or.inl hbig⟩
    · refine given_seq served_uvmalloc ?_
      intro sz' t hsz'
      split
      · rename_i h0
        rw [h0] at hsz'
        exact fun _ => ⟨hpos, Or.inr hsz'.symm⟩
      · exact fun h => absurd h (Option.some_ne_none _)
  · split
    · exact served_after fun _ _ => fun h => absurd h (Option.some_ne_none _)
    · exact fun h => absurd h (Option.some_ne_none _)

/-! ## `proc.c` -/

theorem served_uvmcreate : served (fun o _ => o ≠ none) uvmcreate s := by
  unfold uvmcreate
  exact served_kalloc_seq fun x t => served_after fun _ _ => Option.some_ne_none x

theorem served_procPagetable {tf : Nat} :
    served (fun o _ => o ≠ none) (procPagetable tf) s := by
  unfold procPagetable
  refine given_seq served_uvmcreate ?_
  intro o t ho
  cases o with
  | none => exact absurd rfl ho
  | some pagetable =>
    refine served_after fun _ u => served_mappages_seq fun w => ?_
    refine served_mappages_seq fun z => ?_
    exact Option.some_ne_none _

/-- `sbrk` fails only where the new size is out of bounds. -/
theorem servedK_sysSbrk {p : Nat} {n : Int} {eager : Bool} :
    servedK (fun o _ => o = none → 0 ≤ n ∧ (TRAPFRAME < add64 (k.proc p).sz n ∨
      add64 (k.proc p).sz n < (k.proc p).sz ∨ max (k.proc p).sz (add64 (k.proc p).sz n) = 0))
      (sysSbrk p n eager) k := by
  unfold sysSbrk
  refine (given_bind _ _).mpr (given_look trivial ?_)
  split
  · split
    · exact fun _ => trivial
    · refine given_seq (servedK_onMach served_growproc) ?_
      intro o k1 ho
      cases o with
      | none =>
        intro h
        obtain ⟨hpos, hor⟩ := ho h
        exact ⟨Int.le_of_lt hpos, hor.imp id Or.inr⟩
      | some sz => exact servedK_after fun _ _ => fun h => absurd h (Option.some_ne_none _)
  · rename_i hlazy
    have hn : 0 ≤ n := by
      by_contra hneg
      exact hlazy (Or.inr (by omega))
    split
    · rename_i hlt
      exact fun _ => ⟨hn, Or.inr (Or.inl hlt)⟩
    · split
      · rename_i hbig
        exact fun _ => ⟨hn, Or.inl hbig⟩
      · exact servedK_after fun _ _ => fun h => absurd h (Option.some_ne_none _)

theorem servedK_allocproc : servedK (fun o _ => o = none → k.unusedSlot = none) allocproc k := by
  unfold allocproc
  refine (given_bind _ _).mpr (given_look trivial ?_)
  unfold Kernel.unusedSlot
  cases List.find? (fun p => decide ((k.proc p).state = .unused)) (List.range NPROC) with
  | none => exact fun _ => rfl
  | some p =>
    refine servedK_after fun _ k1 => given_seq (servedK_onMach served_kalloc) ?_
    intro tf k2 htf
    refine servedK_after fun _ k3 => ?_
    cases tf with
    | none => exact absurd rfl htf
    | some tf =>
      refine given_seq (servedK_onMach served_procPagetable) ?_
      intro r k4 hr
      refine servedK_after fun _ k5 => ?_
      cases r with
      | none => exact absurd rfl hr
      | some r => exact fun h => absurd h (Option.some_ne_none p)

theorem servedK_kfork {p : Nat} :
    servedK (fun o _ => o = none → k.unusedSlot = none) (kfork p) k := by
  unfold kfork
  refine given_seq servedK_allocproc ?_
  intro o k1 ho
  cases o with
  | none => exact ho
  | some np =>
    refine servedK_after fun pr k2 => servedK_after fun npr k3 => ?_
    split
    · refine given_seq (servedK_onMach served_uvmcopy) ?_
      intro b k4 hb
      rw [hb]
      refine servedK_after fun _ _ => servedK_after fun _ _ => servedK_after fun _ _ =>
        servedK_after fun _ _ => servedK_after fun _ _ => ?_
      exact fun h => absurd h (Option.some_ne_none np)
    · exact fun _ => trivial

end served

end Xv6
