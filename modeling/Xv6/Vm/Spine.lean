/-
  `walk` and the page-table pages of one page table.

  `Spine s r T H`: memory has the tree `T` below the root `r`, and the root, the page-table pages,
  the free list and the frames `H` are all different frames.  What the last-level entries map does
  not matter to it.  `Shift r s T H t T' H'`: from `s` to `t` the tree became `T'` and the frames
  `H` became `H'`, these frames altogether are the same ones, and no other frame was touched.

  `wp_walk_false` and `wp_walk_spine` are the two specifications of `walk`; `wp_mapPage` and
  `wp_unmapPage_spine` those of one round of `mappages` and `uvmunmap`.
-/
import Xv6.Vm.Tree
import Mathlib.Tactic.Abel

namespace Xv6

open Function
open Lib.Prog hiding update
open Multiset (add_cons cons_add mem_add mem_cons_of_mem mem_cons_self nodup_add singleton_add)

/-- A page that the allocator manages. -/
def IsFrame (s : Mach) (f : Nat) : Prop := f % PGSIZE = 0 ∧ s.kend ≤ f ∧ f < PHYSTOP

/-- The frames `F` keep their contents. -/
def Keeps (F : Multiset Nat) (s t : Mach) : Prop := ∀ f ∈ F, t.mem f = s.mem f

/-- The frames of the page-table pages and of the free list. -/
def Skeleton (r : Nat) (T : Tree) (L : List Nat) : Multiset Nat := r ::ₘ (T.nodes + ↑L)

structure Spine (s : Mach) (r : Nat) (T : Tree) (H : Multiset Nat) : Prop where
  rep : Rep s.mem r T
  nodup : (Skeleton r T s.freelist + H).Nodup
  frames : ∀ f ∈ Skeleton r T s.freelist + H, IsFrame s f

structure Shift (r : Nat) (s : Mach) (T : Tree) (H : Multiset Nat) (t : Mach) (T' : Tree)
    (H' : Multiset Nat) : Prop where
  rep : Rep t.mem r T'
  frames : Skeleton r T' t.freelist + H' = Skeleton r T s.freelist + H
  mem : ∀ f, f ∉ Skeleton r T s.freelist + H → t.mem f = s.mem f
  kend : t.kend = s.kend
  trampoline : t.trampoline = s.trampoline

variable {f x v w : Nat}

section frames

variable {r : Nat} {s t u : Mach} {T T' T'' : Tree} {H H' H'' : Multiset Nat}

theorem Spine.shift (h : Spine s r T H) (g : Shift r s T H t T' H') : Spine t r T' H' := by
  refine ⟨g.rep, ?_, ?_⟩
  · rw [g.frames]
    exact h.nodup
  · rw [g.frames]
    unfold IsFrame
    rw [g.kend]
    exact h.frames

theorem Shift.refl (h : Spine s r T H) : Shift r s T H s T H :=
  ⟨h.rep, rfl, fun _ _ => rfl, rfl, rfl⟩

theorem Shift.trans (g : Shift r s T H t T' H') (g' : Shift r t T' H' u T'' H'') :
    Shift r s T H u T'' H'' := by
  refine ⟨g'.rep, g'.frames.trans g.frames, ?_, g'.kend.trans g.kend,
    g'.trampoline.trans g.trampoline⟩
  intro f hf
  rw [g'.mem f (by rw [g.frames]; exact hf), g.mem f hf]

theorem mem_skeleton_tree {L : List Nat} (h : f ∈ r ::ₘ T.nodes) : f ∈ Skeleton r T L := by
  unfold Skeleton
  rw [← cons_add]
  exact mem_add.mpr (Or.inl h)

theorem mem_skeleton_free {L : List Nat} (h : f ∈ L) : f ∈ Skeleton r T L := by
  unfold Skeleton
  rw [← cons_add]
  exact mem_add.mpr (Or.inr h)

/-- A held frame is no page-table page. -/
theorem Spine.held_not_tree (h : Spine s r T H) (hf : f ∈ H) : f ∉ r ::ₘ T.nodes := by
  intro ht
  have hdis := (nodup_add.mp h.nodup).2.2
  exact Multiset.disjoint_left.mp hdis (mem_skeleton_tree ht) hf

theorem Spine.tree_not_held (h : Spine s r T H) (hf : f ∈ r ::ₘ T.nodes) : f ∉ H :=
  fun hH => h.held_not_tree hH hf

theorem Spine.free_not_tree (h : Spine s r T H) (hf : f ∈ s.freelist) : f ∉ r ::ₘ T.nodes := by
  intro ht
  have hnd := (nodup_add.mp h.nodup).1
  unfold Skeleton at hnd
  rw [← cons_add] at hnd
  exact Multiset.disjoint_left.mp (nodup_add.mp hnd).2.2 ht hf

/-- A frame is held once. -/
theorem Spine.held_once (h : Spine s r T (x ::ₘ H)) : x ∉ H :=
  (Multiset.nodup_cons.mp (nodup_add.mp h.nodup).2.1).1

theorem Spine.held_frame (h : Spine s r T H) (hf : f ∈ H) : IsFrame s f :=
  h.frames f (mem_add.mpr (Or.inr hf))

/-! ## Contents of frames -/

theorem setPage_self (s : Mach) (x : Nat) (d : Nat → Nat) : (s.setPage x d).mem x = d := if_pos rfl

theorem setPage_of_ne (hne : f ≠ x) (d : Nat → Nat) : (s.setPage x d).mem f = s.mem f := if_neg hne

theorem mem_of_memset {c : Nat} (hne : f ≠ x) : (s.memset x c).mem f = s.mem f :=
  setPage_of_ne hne _

theorem kfree_freelist (s : Mach) (x : Nat) : (s.kfree x).freelist = x :: s.freelist := rfl

theorem mem_of_kfree (hne : f ≠ x) : (s.kfree x).mem f = s.mem f := by
  show ((s.memset x 1).setPage x _).mem f = _
  rw [setPage_of_ne hne, mem_of_memset hne]

theorem Keeps.refl (F : Multiset Nat) (s : Mach) : Keeps F s s := fun _ _ => rfl

variable {F : Multiset Nat}

theorem Keeps.trans (h : Keeps F s t) (h' : Keeps F t u) : Keeps F s u := by
  intro f hf
  rw [h' f hf, h f hf]

theorem Keeps.mono {F' : Multiset Nat} (h : Keeps F s t) (hsub : F' ⊆ F) : Keeps F' s t :=
  fun f hf => h f (hsub hf)

/-- One frame is written. -/
theorem Keeps.write (hx : x ∉ F) (d : Nat → Nat) :
    Keeps F s (s.setPage x d) := by
  intro f hf
  exact setPage_of_ne (ne_of_mem_of_not_mem hf hx) _

theorem Keeps.kfree (hx : x ∉ F) : Keeps F s (s.kfree x) :=
  fun _ hf => mem_of_kfree (ne_of_mem_of_not_mem hf hx)

theorem Keeps.store (hx : x ∉ F) (i w : Nat) : Keeps F s (s.store ⟨x, i⟩ w) := Keeps.write hx _

/-! ## Steps that leave the tree alone -/

/-- The contents of a frame outside the tree may change. -/
theorem Shift.scribble (h : Spine s r T H) (hx : x ∉ r ::ₘ T.nodes)
    (hxF : x ∈ Skeleton r T s.freelist + H) (d : Nat → Nat) :
    Shift r s T H (s.setPage x d) T H := by
  refine ⟨h.rep.congr ?_, rfl, ?_, rfl, rfl⟩
  · intro f hf
    exact setPage_of_ne (ne_of_mem_of_not_mem hf hx) _
  · intro f hf
    exact setPage_of_ne (ne_of_mem_of_not_mem hxF hf).symm _

theorem skeleton_cons (x : Nat) (L : List Nat) : Skeleton r T (x :: L) = x ::ₘ Skeleton r T L := by
  unfold Skeleton
  rw [← Multiset.cons_coe, add_cons, Multiset.cons_swap]

/-- `kalloc` takes a page off the free list and the code holds it. -/
theorem Shift.kalloc (h : Spine s r T H) {rest : List Nat} {fails : List Bool}
    (hL : s.freelist = x :: rest) :
    Shift r s T H { s.memset x 5 with freelist := rest, fails := fails } T (x ::ₘ H) := by
  have hx : x ∈ s.freelist := by rw [hL]; exact List.mem_cons_self
  refine ⟨h.rep.congr ?_, ?_, ?_, rfl, rfl⟩
  · intro f hf
    exact mem_of_memset (ne_of_mem_of_not_mem hf (h.free_not_tree hx))
  · rw [hL, skeleton_cons, add_cons, cons_add]
  · intro f hf
    exact mem_of_memset (ne_of_mem_of_not_mem (mem_add.mpr (Or.inl (mem_skeleton_free hx))) hf).symm

/-- `kfree` of a held page. -/
theorem Shift.kfree (h : Spine s r T (x ::ₘ H)) :
    Shift r s T (x ::ₘ H) (s.kfree x) T H := by
  have hx : x ∈ x ::ₘ H := mem_cons_self x H
  refine ⟨h.rep.congr ?_, ?_, ?_, rfl, rfl⟩
  · intro f hf
    exact mem_of_kfree (ne_of_mem_of_not_mem hf (h.held_not_tree hx))
  · rw [kfree_freelist, skeleton_cons, add_cons, cons_add]
  · intro f hf
    exact mem_of_kfree (ne_of_mem_of_not_mem (mem_add.mpr (Or.inr hx)) hf).symm

/-! ## Steps that change the tree -/

/-- A held page, cleared, becomes a page-table page of the second level. -/
theorem Shift.linkMid {i : Nat} (h : Spine s r T (f ::ₘ H)) (hi : i < 512) (hn : T.mid i = none)
    (hz : ∀ j, s.mem f j = 0) :
    Shift r s T (f ::ₘ H) (s.store ⟨r, i⟩ (link (some f))) (T.setMid i f) H := by
  have hf : f ∈ f ::ₘ H := mem_cons_self f H
  refine ⟨h.rep.linkMid hi hn hz (h.held_not_tree hf) (h.held_frame hf).1, ?_, ?_, rfl, rfl⟩
  · show Skeleton r (T.setMid i f) s.freelist + H = _
    unfold Skeleton
    rw [nodes_setMid T f hi hn]
    simp only [← singleton_add]
    abel
  · intro g hg
    exact Rep.poke_page _ _
      (ne_of_mem_of_not_mem (mem_add.mpr (Or.inl (Multiset.mem_cons_self r _))) hg).symm

/-- A held page, cleared, becomes a last-level page. -/
theorem Shift.linkLow {k m : Nat} (h : Spine s r T (f ::ₘ H)) (hm : T.mid (k / 512) = some m)
    (hn : T.low k = none) (hz : ∀ j, s.mem f j = 0) :
    Shift r s T (f ::ₘ H) (s.store ⟨m, k % 512⟩ (link (some f))) (T.setLow k f) H := by
  have hf : f ∈ f ::ₘ H := mem_cons_self f H
  refine ⟨h.rep.linkLow hm hn hz (h.held_not_tree hf) (h.held_frame hf).1, ?_, ?_, rfl, rfl⟩
  · show Skeleton r (T.setLow k f) s.freelist + H = _
    unfold Skeleton
    rw [nodes_setLow T f (h.rep.mid_lt hm) hn]
    simp only [← singleton_add]
    abel
  · intro g hg
    refine Rep.poke_page _ _ ?_
    intro hgm
    rw [hgm] at hg
    refine hg (mem_add.mpr (Or.inl (mem_skeleton_tree ?_)))
    exact mem_cons_of_mem (h.rep.mid_mem hm)

/-- A last-level entry changes. -/
theorem Shift.setLeaf {g : Nat} (h : Spine s r T H) (hg : T.low (v / 512) = some g)
    (hw : w.testBit 0 = false → w = 0) :
    Shift r s T H (s.store ⟨g, v % 512⟩ w) (T.setLeaf v w) H := by
  refine ⟨h.rep.setLeaf hg hw, rfl, ?_, rfl, rfl⟩
  intro f hf
  refine Rep.poke_page _ _ ?_
  intro hfg
  rw [hfg] at hf
  refine hf (mem_add.mpr (Or.inl (mem_skeleton_tree ?_)))
  exact mem_cons_of_mem (h.rep.low_mem hg)

/-- The word written is on a page-table page, so what is held keeps its contents. -/
theorem Spine.keeps_store {g : Nat} (h : Spine s r T H) (hg : T.low (v / 512) = some g)
    (i w : Nat) : Keeps H s (s.store ⟨g, i⟩ w) :=
  Keeps.store (h.tree_not_held (mem_cons_of_mem (h.rep.low_mem hg))) i w

end frames

/-! ## `kalloc`, `kfree` and the words of a page table -/

section progs

variable {r : Nat} {s : Mach} {T : Tree} {H : Multiset Nat}

theorem wp_load {Q : Nat → Mach → Prop} (p : Ptr) (h : Q (s.mem p.page p.idx) s) :
    wp Crit.total Q (load p) s :=
  ⟨trivial, h⟩

variable {Q : Unit → Mach → Prop}

theorem wp_store (p : Ptr) (w : Nat) (h : Q () (s.store p w)) :
    wp Crit.total Q (store p w) s :=
  ⟨trivial, h⟩

theorem wp_memset (pa c : Nat) (h : Q () (s.memset pa c)) :
    wp Crit.total Q (memset pa c) s :=
  ⟨trivial, h⟩

theorem kalloc_cases (s : Mach) :
    (∃ fails, s.kalloc = (none, { s with fails := fails })) ∨
      ∃ x rest fails, s.freelist = x :: rest ∧
        s.kalloc = (some x, { s.memset x 5 with freelist := rest, fails := fails }) := by
  unfold Mach.kalloc
  split
  · exact Or.inl ⟨_, rfl⟩
  · exact Or.inl ⟨_, rfl⟩
  · rename_i x rest hL _
    exact Or.inr ⟨x, rest, _, hL, rfl⟩

/-- `kalloc` without reference to any page table. -/
theorem wp_kalloc {Q : Option Nat → Mach → Prop}
    (hn : ∀ fails, Q none { s with fails := fails })
    (hs : ∀ x rest fails, s.freelist = x :: rest →
      Q (some x) { s.memset x 5 with freelist := rest, fails := fails }) :
    wp Crit.total Q kalloc s := by
  refine ⟨trivial, ?_⟩
  rcases kalloc_cases s with ⟨fails, h⟩ | ⟨x, rest, fails, hL, h⟩
  · rw [h]
    exact hn fails
  · rw [h]
    exact hs x rest fails hL

/-- `kalloc` next to a page table: nothing happens, or one more page is held. -/
theorem wp_kalloc_spine {Q : Option Nat → Mach → Prop} (h : Spine s r T H)
    (hn : ∀ t, Shift r s T H t T H → Keeps H s t → Q none t)
    (hs : ∀ x t, Shift r s T H t T (x ::ₘ H) → Keeps H s t → Q (some x) t) :
    wp Crit.total Q kalloc s := by
  refine wp_kalloc ?_ ?_
  · intro fails
    exact hn _ ⟨h.rep, rfl, fun _ _ => rfl, rfl, rfl⟩ fun _ _ => rfl
  · intro x rest fails hL
    have g : Shift r s T H { s.memset x 5 with freelist := rest, fails := fails } T (x ::ₘ H) :=
      Shift.kalloc h hL
    exact hs x _ g (Keeps.write (h.shift g).held_once _)

theorem wp_kfree (hx : IsFrame s x) (h : Q () (s.kfree x)) : wp Crit.total Q (kfree x) s := by
  unfold kfree
  obtain ⟨h1, h2, h3⟩ := hx
  have hc : ¬ (x % PGSIZE ≠ 0 ∨ x < s.kend ∨ x ≥ PHYSTOP) := by omega
  rw [wp_atomic, if_neg hc]
  exact ⟨trivial, h⟩

/-- A held page is cleared. -/
theorem wp_memset_spine (h : Spine s r T (x ::ₘ H))
    (hQ : ∀ t, Shift r s T (x ::ₘ H) t T (x ::ₘ H) → (∀ j, t.mem x j = 0) → Keeps H s t →
      Q () t) : wp Crit.total Q (memset x 0) s := by
  have hx := mem_cons_self x H
  refine wp_memset x 0 (hQ _ ?_ ?_ (Keeps.write h.held_once _))
  · exact Shift.scribble h (h.held_not_tree hx) (mem_add.mpr (Or.inr hx)) _
  · intro j
    rw [Mach.memset, setPage_self]

/-! ## `walk` -/

theorem PX_lt (level va : Nat) : PX level va < 512 := Nat.mod_lt _ (by decide)

/-- The indices of `walk` in terms of the virtual page number. -/
theorem PX_two (hv : v * PGSIZE < MAXVA) : PX 2 (v * PGSIZE) = v / 512 / 512 := by
  unfold PX
  simp only [PGSIZE, MAXVA] at hv ⊢
  omega

theorem PX_one (v : Nat) : PX 1 (v * PGSIZE) = v / 512 % 512 := by
  unfold PX
  simp only [PGSIZE]
  omega

theorem PX_zero (v : Nat) : PX 0 (v * PGSIZE) = v % 512 := by
  unfold PX
  simp only [PGSIZE]
  omega

/-- Where the entry of virtual page `v` is, if its last-level page exists. -/
def Tree.slot (T : Tree) (v : Nat) : Option Ptr := (T.low (v / 512)).map fun g => ⟨g, v % 512⟩

theorem Tree.slot_some {p : Ptr} (hp : T.slot v = some p) :
    ∃ q, T.low (v / 512) = some q ∧ p = ⟨q, v % 512⟩ := by
  obtain ⟨q, hq, heq⟩ := Option.map_eq_some_iff.mp hp
  exact ⟨q, hq, heq.symm⟩

theorem Rep.load_slot (h : Rep s.mem r T) {p : Ptr} (hp : T.slot v = some p) :
    s.mem p.page p.idx = T.leaf v := by
  obtain ⟨g, hg, rfl⟩ := Tree.slot_some hp
  exact h.low v g hg

theorem Rep.leaf_of_slot_none (h : Rep s.mem r T) (hp : T.slot v = none) : T.leaf v = 0 := by
  exact h.leaf_none v (Option.map_eq_none_iff.mp hp)

/-- `walk` without allocation only reads. -/
theorem wp_walk_false {Q : Option Ptr → Mach → Prop} (h : Rep s.mem r T) (hv : v * PGSIZE < MAXVA)
    (hQ : Q (T.slot v) s) : wp Crit.total Q (walk r (v * PGSIZE) false) s := by
  have h2 := PX_two hv
  have hlt : v / 512 / 512 < 512 := by
    rw [← h2]; exact PX_lt 2 _
  unfold walk
  rw [if_neg (by omega)]
  unfold walkLevel
  simp only [wp_bind]
  refine wp_load _ ?_
  rw [h2, h.root _ hlt, link_valid]
  unfold Tree.slot at hQ
  cases hm : T.mid (v / 512 / 512) with
  | none =>
    rw [h.low_none _ hm] at hQ
    exact hQ
  | some m =>
    rw [Option.isSome_some, if_pos rfl, PTE2PA_link (h.aligned m (h.mid_mem hm))]
    simp only [wp_pure, wp_bind]
    refine wp_load _ ?_
    rw [PX_one, h.mid _ m hm, link_valid, PX_zero]
    cases hl : T.low (v / 512) with
    | none =>
      rw [hl] at hQ
      exact hQ
    | some g =>
      rw [PTE2PA_link (h.aligned g (h.low_mem hl))]
      rw [hl] at hQ
      exact hQ

/-- It finds the entry of a page that is mapped. -/
theorem wp_walk_valid {Q : Option Ptr → Mach → Prop} (h : Rep s.mem r T) (hv : v * PGSIZE < MAXVA)
    (hV : (T.leaf v).testBit 0) (hQ : ∀ p, T.slot v = some p → Q (some p) s) :
    wp Crit.total Q (walk r (v * PGSIZE) false) s := by
  refine wp_walk_false h hv ?_
  cases hp : T.slot v with
  | none =>
    rw [h.leaf_of_slot_none hp] at hV
    cases hV
  | some p => exact hQ p hp

/-- One level of `walk` with allocation, where the entry links to `o`. The caller says what
    linking a new page in does to the tree. -/
theorem wp_walkLevel_true {Q : Option Nat → Mach → Prop} {pt va level : Nat} {o : Option Nat}
    (h : Spine s r T H) (ho : s.mem pt (PX level va) = link o)
    (hl : ∀ f, o = some f → f % 4096 = 0 ∧ Q (some f) s)
    (hn : ∀ t, Shift r s T H t T H → Keeps H s t → Q none t)
    (hs : ∀ x t, o = none → Shift r s T H t T (x ::ₘ H) → (∀ j, t.mem x j = 0) →
      Keeps H s t → Q (some x) (t.store ⟨pt, PX level va⟩ (link (some x)))) :
    wp Crit.total Q (walkLevel pt va level true) s := by
  unfold walkLevel
  simp only [wp_bind]
  refine wp_load _ ?_
  rw [ho, link_valid]
  cases o with
  | some f =>
    obtain ⟨hf, hQ⟩ := hl f rfl
    rw [PTE2PA_link hf]
    exact hQ
  | none =>
    rw [Option.isSome_none, if_neg Bool.false_ne_true, if_pos trivial, wp_bind]
    refine wp_kalloc_spine h hn ?_
    intro x t g hk
    simp only [wp_bind]
    refine wp_memset_spine (h.shift g) ?_
    intro u g' hz hk'
    exact wp_store _ _ (hs x u rfl (g.trans g') hz (hk.trans hk'))

/-- `walk` with allocation may link in page-table pages, but changes no last-level entry and
    nothing of what is held. -/
theorem wp_walk_spine {Q : Option Ptr → Mach → Prop} (h : Spine s r T H) (hv : v * PGSIZE < MAXVA)
    (hn : ∀ t T', Shift r s T H t T' H → T'.leaf = T.leaf → Keeps H s t → Q none t)
    (hs : ∀ p t T', Shift r s T H t T' H → T'.leaf = T.leaf → T'.slot v = some p →
      Keeps H s t → Q (some p) t) : wp Crit.total Q (walk r (v * PGSIZE) true) s := by
  have h2 := PX_two hv
  have hlt : v / 512 / 512 < 512 := by
    rw [← h2]; exact PX_lt 2 _
  -- the second level and the result, from any tree that has the page of the first level
  have hrest : ∀ m t T', Shift r s T H t T' H → T'.leaf = T.leaf → Keeps H s t →
      T'.mid (v / 512 / 512) = some m →
      wp Crit.total (fun o t' => Q (o.map fun pt0 => ⟨pt0, PX 0 (v * PGSIZE)⟩) t')
        (walkLevel m (v * PGSIZE) 1 true) t := by
    intro m t T' g hleaf hk hm
    have ht := h.shift g
    have hload := ht.rep.mid _ m hm
    rw [← PX_one] at hload
    refine wp_walkLevel_true ht hload ?_ ?_ ?_
    · intro f hf
      refine ⟨ht.rep.aligned f (ht.rep.low_mem hf), hs _ t T' g hleaf ?_ hk⟩
      unfold Tree.slot
      rw [hf, PX_zero]
      rfl
    · intro u g' hk'
      exact hn u T' (g.trans g') hleaf (hk.trans hk')
    · intro x u hnone g' hz hk'
      have g'' := Shift.linkLow (ht.shift g') hm hnone hz
      rw [← PX_one] at g''
      have hk'' : Keeps H u (u.store ⟨m, PX 1 (v * PGSIZE)⟩ (link (some x))) :=
        Keeps.store (ht.tree_not_held (mem_cons_of_mem (ht.rep.mid_mem hm))) _ _
      refine hs _ _ (T'.setLow (v / 512) x) (g.trans (g'.trans g'')) hleaf ?_
        (hk.trans (hk'.trans hk''))
      show (update T'.low (v / 512) (some x) (v / 512)).map _ = _
      rw [update_self, PX_zero]
      rfl
  unfold walk
  rw [if_neg (by omega), wp_bind]
  have hload := h.rep.root _ hlt
  rw [← h2] at hload
  refine wp_walkLevel_true h hload ?_ ?_ ?_
  · intro m hm
    rw [h2] at hm
    refine ⟨h.rep.aligned m (h.rep.mid_mem hm), ?_⟩
    refine wp_seq (hrest m s T (Shift.refl h) rfl (Keeps.refl _ _) hm) ?_
    intro o t hQ
    cases o with
    | none | some => exact hQ
  · intro t g hk
    exact hn t T g rfl hk
  · intro x t hnone g hz hk
    rw [h2] at hnone ⊢
    have g' := Shift.linkMid (h.shift g) hlt hnone hz
    have hk' := Keeps.store (s := t) (h.tree_not_held (mem_cons_self r _))
      (v / 512 / 512) (link (some x))
    refine wp_seq (hrest x _ (T.setMid (v / 512 / 512) x) (g.trans g') rfl (hk.trans hk') ?_) ?_
    · exact update_self _ _ _
    · intro o t' hQ
      cases o with
      | none | some => exact hQ

/-! ## One page of `mappages` and of `uvmunmap` -/

/-- A page that is not mapped yet. -/
theorem wp_mapPage {Q : Bool → Mach → Prop} {pa perm : Nat} (h : Spine s r T H)
    (hv : v * PGSIZE < MAXVA) (hl : T.leaf v = 0)
    (hn : ∀ t T', Shift r s T H t T' H → T'.leaf = T.leaf → Keeps H s t → Q false t)
    (hs : ∀ t T', Shift r s T H t T' H →
      T'.leaf = update T.leaf v (leafPte pa perm) → Keeps H s t → Q true t) :
    wp Crit.total Q (mapPage r (v * PGSIZE) pa perm) s := by
  unfold mapPage
  rw [wp_bind]
  refine wp_walk_spine h hv hn ?_
  intro p t T' g hleaf hp hk
  have ht := h.shift g
  simp only [wp_bind]
  refine wp_load _ ?_
  rw [ht.rep.load_slot hp, hleaf, hl, Nat.zero_testBit, if_neg Bool.false_ne_true, wp_bind]
  refine wp_store _ _ ?_
  obtain ⟨q, hq, rfl⟩ := Tree.slot_some hp
  have g' : Shift r t T' H (t.store ⟨q, v % 512⟩ (leafPte pa perm))
      (T'.setLeaf v (leafPte pa perm)) H := by
    refine Shift.setLeaf ht hq ?_
    intro hc
    rw [leafPte_valid] at hc
    cases hc
  refine hs _ _ (g.trans g') ?_ (hk.trans (ht.keeps_store hq _ _))
  show update T'.leaf v _ = _
  rw [hleaf]

/-- The frame that `uvmunmap` frees with an entry. -/
def freed (doFree : Bool) (w : Nat) : Multiset Nat := if doFree then leafFrame w else 0

theorem freed_true (w : Nat) : freed true w = leafFrame w := rfl

theorem freed_false (w : Nat) : freed false w = 0 := rfl

theorem leafFrame_valid (h : w.testBit 0) : leafFrame w = {PTE2PA w} := if_pos h

theorem leafFrame_zero : leafFrame 0 = 0 := rfl

theorem mem_leafFrame : f ∈ leafFrame w ↔ w.testBit 0 = true ∧ PTE2PA w = f := by
  unfold leafFrame
  split
  · rename_i h
    rw [Multiset.mem_singleton, eq_comm]
    exact ⟨fun hf => ⟨h, hf⟩, And.right⟩
  · rename_i h
    exact ⟨fun hf => absurd hf (Multiset.notMem_zero f), fun hf => absurd hf.1 h⟩

/-- `kfree` of a mapped frame that is held, then the clearing of its entry. -/
theorem Shift.unmap {q : Nat} (h : Spine s r T (x ::ₘ H)) (hq : T.low (v / 512) = some q) :
    Shift r s T (x ::ₘ H) ((s.kfree x).store ⟨q, v % 512⟩ 0) (T.setLeaf v 0) H ∧
    Keeps H s ((s.kfree x).store ⟨q, v % 512⟩ 0) := by
  have g := Shift.kfree h
  have ht := h.shift g
  refine ⟨g.trans (Shift.setLeaf ht hq fun _ => rfl), ?_⟩
  exact (Keeps.kfree h.held_once).trans (ht.keeps_store hq _ _)

theorem wp_unmapPage_spine {doFree : Bool}
    (h : Spine s r T (freed doFree (T.leaf v) + H)) (hv : v * PGSIZE < MAXVA)
    (hQ : ∀ t T', Shift r s T (freed doFree (T.leaf v) + H) t T' H →
      T'.leaf = update T.leaf v 0 → T'.nodes = T.nodes → Keeps H s t → Q () t) :
    wp Crit.total Q (unmapPage r (v * PGSIZE) doFree) s := by
  unfold unmapPage
  rw [wp_bind]
  refine wp_walk_false h.rep hv ?_
  -- an entry that is not valid is zero already
  have hkeep : T.leaf v = 0 → Q () s := by
    intro h0
    have hf : freed doFree (T.leaf v) + H = H := by
      rw [h0, show freed doFree 0 = 0 by cases doFree <;> rfl, zero_add]
    rw [hf] at h hQ
    refine hQ s T (Shift.refl h) ?_ rfl (Keeps.refl _ _)
    rw [← h0, update_eq_self]
  cases hp : T.slot v with
  | none => exact hkeep (h.rep.leaf_of_slot_none hp)
  | some p =>
    simp only [wp_bind]
    refine wp_load _ ?_
    rw [h.rep.load_slot hp]
    obtain ⟨q, hq, rfl⟩ := Tree.slot_some hp
    cases hV : (T.leaf v).testBit 0 with
    | false =>
      exact hkeep (h.rep.leaf_zero v hV)
    | true =>
      cases doFree with
      | true =>
        rw [freed_true, leafFrame_valid hV] at h hQ
        obtain ⟨g, hk⟩ := Shift.unmap h hq
        show wp Crit.total Q (kfree (PTE2PA (T.leaf v)) >>= fun _ => store ⟨q, v % 512⟩ 0) s
        rw [wp_bind]
        exact wp_kfree (h.held_frame (mem_cons_self _ _))
          (wp_store _ _ (hQ _ _ g rfl rfl hk))
      | false =>
        rw [freed_false, zero_add] at h hQ
        exact wp_store _ _ (hQ _ _ (Shift.setLeaf h hq fun _ => rfl) rfl rfl
          (h.keeps_store hq _ _))

end progs

end Xv6
