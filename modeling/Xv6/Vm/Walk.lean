/-
  The frames of one page table.

  `Holds s r T H`: memory has the tree `T` below the root `r`; the root, the pages of the tree,
  its user pages, the free list and the pages `H` that the running code holds are all different
  frames: a spine next to the user pages and what is held (`Holds.spine`).  `Goes r s T H t T' H'`: from `s` to `t` the tree became `T'` and the held pages `H'`,
  these frames altogether are the same ones, and no other frame was touched.  A specification
  says how the tree changes; what else it has to say is in `Goes`.
-/
import Xv6.Vm.Spine

namespace Xv6

open Lib.Prog Multiset

/-- The frames of a page table with root `r` and of the free list. -/
def Foot (r : Nat) (T : Tree) (L : List Nat) : Multiset Nat := r ::ₘ (T.nodes + T.pages + ↑L)

structure Holds (s : Mach) (r : Nat) (T : Tree) (H : Multiset Nat) : Prop where
  rep : Rep s.mem r T
  nodup : (Foot r T s.freelist + H).Nodup
  frames : ∀ f ∈ Foot r T s.freelist + H, IsFrame s f

structure Goes (r : Nat) (s : Mach) (T : Tree) (H : Multiset Nat) (t : Mach) (T' : Tree)
    (H' : Multiset Nat) : Prop where
  rep : Rep t.mem r T'
  foot : Foot r T' t.freelist + H' = Foot r T s.freelist + H
  mem : ∀ f, f ∉ Foot r T s.freelist + H → t.mem f = s.mem f
  kend : t.kend = s.kend
  trampoline : t.trampoline = s.trampoline

/-- The frames of a page table. -/
def Own (r : Nat) (T : Tree) : Multiset Nat := r ::ₘ (T.nodes + T.pages)

/-- `Moves s F t F'`: from `s` to `t` the frames `F` became the frames `F'`, by way of the free
    list only, and no other frame was touched. -/
structure Moves (s : Mach) (F : Multiset Nat) (t : Mach) (F' : Multiset Nat) : Prop where
  frames : F' + ↑t.freelist = F + ↑s.freelist
  mem : ∀ f, f ∉ F + ↑s.freelist → t.mem f = s.mem f
  kend : t.kend = s.kend
  trampoline : t.trampoline = s.trampoline

variable {x : Nat}

section moves

variable {r : Nat} {s t u : Mach} {T T' T'' : Tree} {H H' H'' : Multiset Nat}

theorem foot_eq_own (L : List Nat) : Foot r T L = Own r T + ↑L := by
  unfold Foot Own
  rw [cons_add]

theorem foot_add (L : List Nat) : Foot r T L + H = Own r T + H + ↑L := by
  rw [foot_eq_own, add_right_comm]

variable {f : Nat}

theorem tree_mem_own (h : f ∈ r ::ₘ T.nodes) : f ∈ Own r T := by
  rcases Multiset.mem_cons.mp h with heq | hn
  · exact Multiset.mem_cons.mpr (Or.inl heq)
  · exact mem_cons_of_mem (mem_add.mpr (Or.inl hn))

theorem Moves.refl (s : Mach) (F : Multiset Nat) : Moves s F s F :=
  ⟨rfl, fun _ _ => rfl, rfl, rfl⟩

theorem Moves.trans {F F' F'' : Multiset Nat} (m : Moves s F t F') (m' : Moves t F' u F'') :
    Moves s F u F'' := by
  refine ⟨m'.frames.trans m.frames, ?_, m'.kend.trans m.kend, m'.trampoline.trans m.trampoline⟩
  intro f hf
  rw [m'.mem f (by rw [m.frames]; exact hf), m.mem f hf]

/-- Frames that are not involved may be added on both sides. -/
theorem Moves.frame {F F' : Multiset Nat} (m : Moves s F t F') (G : Multiset Nat) :
    Moves s (F + G) t (F' + G) := by
  refine ⟨?_, ?_, m.kend, m.trampoline⟩
  · rw [add_right_comm, m.frames, add_right_comm]
  · intro f hf
    refine m.mem f fun h => hf ?_
    rw [add_right_comm]
    exact mem_add.mpr (Or.inl h)

theorem Goes.moves (g : Goes r s T H t T' H') : Moves s (Own r T + H) t (Own r T' + H') := by
  refine ⟨?_, ?_, g.kend, g.trampoline⟩
  · rw [← foot_add, ← foot_add]
    exact g.foot
  · rw [← foot_add]
    exact g.mem

theorem Holds.goes (h : Holds s r T H) (g : Goes r s T H t T' H') : Holds t r T' H' := by
  refine ⟨g.rep, ?_, ?_⟩
  · rw [g.foot]
    exact h.nodup
  · rw [g.foot]
    unfold IsFrame
    rw [g.kend]
    exact h.frames

theorem Goes.refl (h : Holds s r T H) : Goes r s T H s T H :=
  ⟨h.rep, rfl, fun _ _ => rfl, rfl, rfl⟩

theorem Goes.trans (g : Goes r s T H t T' H') (g' : Goes r t T' H' u T'' H'') :
    Goes r s T H u T'' H'' := by
  refine ⟨g'.rep, g'.foot.trans g.foot, ?_, g'.kend.trans g.kend,
    g'.trampoline.trans g.trampoline⟩
  intro f hf
  rw [g'.mem f (by rw [g.foot]; exact hf), g.mem f hf]

/-- The pages of the tree are in the footprint. -/
theorem mem_foot_tree {L : List Nat} (h : f ∈ r ::ₘ T.nodes) : f ∈ Foot r T L := by
  unfold Foot
  rw [Multiset.mem_cons] at h ⊢
  refine h.imp id fun h => ?_
  exact mem_add.mpr (Or.inl (mem_add.mpr (Or.inl h)))

theorem mem_foot_page {L : List Nat} (h : f ∈ T.pages) : f ∈ Foot r T L := by
  refine mem_cons_of_mem (mem_add.mpr (Or.inl (mem_add.mpr (Or.inr h))))

theorem foot_eq_skeleton (L : List Nat) : Foot r T L + H = Skeleton r T L + (T.pages + H) := by
  unfold Foot Skeleton
  simp only [cons_add]
  congr 1
  abel

theorem Holds.spine (h : Holds s r T H) : Spine s r T (T.pages + H) := by
  refine ⟨h.rep, ?_, ?_⟩
  · rw [← foot_eq_skeleton]
    exact h.nodup
  · rw [← foot_eq_skeleton]
    exact h.frames

theorem Shift.goes (g : Shift r s T (T.pages + H) t T' (T'.pages + H')) :
    Goes r s T H t T' H' := by
  refine ⟨g.rep, ?_, ?_, g.kend, g.trampoline⟩
  · rw [foot_eq_skeleton, foot_eq_skeleton]
    exact g.frames
  · rw [foot_eq_skeleton]
    exact g.mem

/-- A held page is none of the tree's. -/
theorem Holds.held_not_tree (h : Holds s r T H) (hf : f ∈ H) : f ∉ r ::ₘ T.nodes :=
  h.spine.held_not_tree (mem_add.mpr (Or.inr hf))

theorem Holds.page_not_tree (h : Holds s r T H) (hf : f ∈ T.pages) : f ∉ r ::ₘ T.nodes :=
  h.spine.held_not_tree (mem_add.mpr (Or.inl hf))

/-- A held page is no user page, and held once. -/
theorem Holds.held_not_kept (h : Holds s r T (x ::ₘ H)) : x ∉ T.pages + H := by
  have hs := h.spine
  rw [add_cons] at hs
  exact hs.held_once

theorem Holds.held_frame (h : Holds s r T H) (hf : f ∈ H) : IsFrame s f :=
  h.frames f (mem_add.mpr (Or.inr hf))

theorem Holds.page_frame (h : Holds s r T H) (hf : f ∈ T.pages) : IsFrame s f :=
  h.frames f (mem_add.mpr (Or.inl (mem_foot_page hf)))

/-! ## Steps that leave the tree alone -/

/-- The contents of a frame outside the tree may change. -/
theorem Goes.scribble (h : Holds s r T H) (hx : x ∉ r ::ₘ T.nodes)
    (hxF : x ∈ Foot r T s.freelist + H) (d : Nat → Nat) :
    Goes r s T H (s.setPage x d) T H := by
  rw [foot_eq_skeleton] at hxF
  exact (Shift.scribble h.spine hx hxF d).goes

/-- The frame that the entry of virtual page `v` accounts for: entries above the user pages do not
    own what they map. -/
def ownFrame (v w : Nat) : Multiset Nat := if v < UPAGES then leafFrame w else 0

theorem pages_update (T : Tree) (v w : Nat) :
    (T.setLeaf v w).pages + ownFrame v (T.leaf v) = T.pages + ownFrame v w := by
  unfold ownFrame
  rcases Nat.lt_or_ge v UPAGES with hv | hv
  · rw [if_pos hv, if_pos hv]
    exact pages_setLeaf T w hv
  · rw [if_neg (by omega), if_neg (by omega), pages_setLeaf_high T w hv]

/-- When an entry changes, the frame of the new entry is taken from the held pages, and that of
    the old one becomes a held page. -/
theorem pages_held {v w : Nat} (hleaf : T'.leaf = Function.update T.leaf v w)
    (hH : H' + ownFrame v w = H + ownFrame v (T.leaf v)) : T'.pages + H' = T.pages + H := by
  rw [show T'.pages = (T.setLeaf v w).pages from Tree.pages_congr hleaf]
  refine add_right_cancel (b := ownFrame v w + ownFrame v (T.leaf v)) ?_
  calc (T.setLeaf v w).pages + H' + (ownFrame v w + ownFrame v (T.leaf v))
      = ((T.setLeaf v w).pages + ownFrame v (T.leaf v)) + (H' + ownFrame v w) := by abel
    _ = (T.pages + ownFrame v w) + (H + ownFrame v (T.leaf v)) := by rw [pages_update, hH]
    _ = T.pages + H + (ownFrame v w + ownFrame v (T.leaf v)) := by abel

theorem Goes.setLeaf {v g w : Nat} (h : Holds s r T H) (hg : T.low (v / 512) = some g)
    (hw : w.testBit 0 = false → w = 0) (hH : H' + ownFrame v w = H + ownFrame v (T.leaf v)) :
    Goes r s T H (s.store ⟨g, v % 512⟩ w) (T.setLeaf v w) H' := by
  refine Shift.goes ?_
  rw [pages_held rfl hH]
  exact Shift.setLeaf h.spine hg hw

end moves

/-! ## `kalloc` and `kfree` with a page table held -/

section progs

variable {r : Nat} {s : Mach} {T : Tree} {H : Multiset Nat}

/-- `kalloc` while a page table is held: nothing happens, or one more page is held. -/
theorem wp_kalloc_held {Q : Option Nat → Mach → Prop} (h : Holds s r T H)
    (hn : ∀ t, Goes r s T H t T H → Keeps (T.pages + H) s t → Q none t)
    (hs : ∀ x t, Goes r s T H t T (x ::ₘ H) → Keeps (T.pages + H) s t → Q (some x) t) :
    wp Crit.total Q kalloc s := by
  refine wp_kalloc_spine h.spine (fun t g hk => hn t g.goes hk) ?_
  intro x t g hk
  rw [← add_cons] at g
  exact hs x t g.goes hk

theorem wp_kfree_held {Q : Unit → Mach → Prop} (h : Holds s r T (x ::ₘ H))
    (hQ : ∀ t, Goes r s T (x ::ₘ H) t T H → Keeps (T.pages + H) s t → Q () t) :
    wp Crit.total Q (kfree x) s := by
  have hs := h.spine
  rw [add_cons] at hs
  have g := Shift.kfree hs
  rw [← add_cons] at g
  exact wp_kfree (h.held_frame (mem_cons_self x H)) (hQ _ g.goes
    (Keeps.kfree h.held_not_kept))

/-- A held page is cleared. -/
theorem wp_memset_held {Q : Unit → Mach → Prop} (h : Holds s r T (x ::ₘ H))
    (hQ : ∀ t, Goes r s T (x ::ₘ H) t T (x ::ₘ H) → (∀ j, t.mem x j = 0) →
      Keeps (T.pages + H) s t → Q () t) : wp Crit.total Q (memset x 0) s := by
  have hs := h.spine
  rw [add_cons] at hs
  refine wp_memset_spine hs ?_
  intro t g hz hk
  rw [← add_cons] at g
  exact hQ t g.goes hz hk

end progs

end Xv6
