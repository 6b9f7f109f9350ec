/-
  User page tables as trees.

  `Tree` is the abstract page table: which page-table pages exist at the two lower levels, and the
  last-level entry of every virtual page.  `treeOf mem r` reads it out of memory from the root page
  `r`.  `Rep mem r T` says that memory holds the tree `T` below `r`, on pages that are all
  different; writing an entry or linking in a cleared page changes the tree as expected
  (`Rep.setLeaf`, `Rep.linkMid`, `Rep.linkLow`), and nothing outside the pages of the tree matters
  to it (`Rep.congr`).

  `Tree.nodes` and `Tree.pages` are the frames the tree occupies, as multisets: the page-table
  pages below the root and the frames of the user pages.
-/
import Xv6.Vm.Model
import Xv6.Lib.Sum
import Mathlib.Data.Nat.Bitwise

namespace Xv6

open Lib Finset Function

/-! ## Page-table entries -/

/-- An entry that points to a page-table page. -/
def link : Option Nat → Nat
  | none => 0
  | some f => PA2PTE f ||| PTE_V

/-- A leaf entry, as `mappages` writes it. -/
def leafPte (pa perm : Nat) : Nat := PA2PTE pa ||| perm ||| PTE_V

variable {f perm i v k j g : Nat}

theorem PA2PTE_lor (pa : Nat) (hf : f < 1024) : PA2PTE pa ||| f = 2 ^ 10 * (pa / 4096) + f := by
  have h := Nat.two_pow_add_eq_or_of_lt (i := 10) hf (pa / 4096)
  rw [h]
  unfold PA2PTE
  rw [Nat.mul_comm (pa / 4096)]

theorem lor_PTE_V_lt (hp : perm < 1024) : perm ||| PTE_V < 1024 :=
  Nat.or_lt_two_pow (n := 10) hp (by decide)

theorem leafPte_eq (pa : Nat) (hp : perm < 1024) :
    leafPte pa perm = 2 ^ 10 * (pa / 4096) + (perm ||| PTE_V) := by
  unfold leafPte
  rw [Nat.lor_assoc, PA2PTE_lor pa (lor_PTE_V_lt hp)]

theorem testBit_leafPte (pa : Nat) (hp : perm < 1024) (hi : i < 10) :
    (leafPte pa perm).testBit i = (perm ||| PTE_V).testBit i := by
  rw [leafPte_eq pa hp, Nat.testBit_two_pow_mul_add _ (lor_PTE_V_lt hp), if_pos hi]

@[simp] theorem leafPte_valid (pa perm : Nat) : (leafPte pa perm).testBit 0 = true := by
  unfold leafPte
  simp

theorem PTE2PA_leafPte {pa : Nat} (hpa : pa % 4096 = 0) (hp : perm < 1024) :
    PTE2PA (leafPte pa perm) = pa := by
  have hlt := lor_PTE_V_lt hp
  rw [leafPte_eq pa hp]
  unfold PTE2PA
  omega

theorem link_eq (f : Nat) : link (some f) = 2 ^ 10 * (f / 4096) + 1 :=
  PA2PTE_lor f (by decide)

theorem link_valid (o : Option Nat) : (link o).testBit 0 = o.isSome := by
  cases o with
  | none => rfl
  | some f =>
    rw [link_eq, Nat.testBit_two_pow_mul_add _ (by decide)]
    rfl

/-- A link has none of the bits that make an entry a leaf. -/
theorem link_not_leaf (o : Option Nat) (h0 : i ≠ 0) (hi : i < 10) : (link o).testBit i = false := by
  cases o with
  | none => exact Nat.zero_testBit i
  | some f =>
    rw [link_eq, Nat.testBit_two_pow_mul_add _ (by decide), if_pos hi]
    obtain ⟨j, rfl⟩ := Nat.exists_eq_succ_of_ne_zero h0
    rw [Nat.testBit_succ]
    exact Nat.zero_testBit j

theorem PTE2PA_link (hf : f % 4096 = 0) : PTE2PA (link (some f)) = f := by
  rw [link_eq]
  unfold PTE2PA
  omega

/-! ## Trees -/

/-- A page table below its root page. `mid i` is the page-table page for the top index `i`, `low k`
    the last-level page for the two upper indices together, `leaf v` the entry of virtual page
    `v`, or 0. -/
@[ext] structure Tree where
  mid : Nat → Option Nat
  low : Nat → Option Nat
  leaf : Nat → Nat

/-- The virtual pages below the trapframe page. -/
abbrev UPAGES : Nat := TRAPFRAME / PGSIZE

/-- The indices of a page-table page. Irreducible, as nobody should compute sums over it. -/
@[irreducible] def entries : Finset Nat := range 512

@[irreducible] def userPages : Finset Nat := range UPAGES

@[simp] theorem mem_entries : i ∈ entries ↔ i < 512 := by
  unfold entries
  exact mem_range

@[simp] theorem mem_userPages : v ∈ userPages ↔ v < UPAGES := by
  unfold userPages
  exact mem_range

def optFrame : Option Nat → Multiset Nat
  | none => 0
  | some f => {f}

/-- The frame a last-level entry maps, if it is valid. -/
def leafFrame (w : Nat) : Multiset Nat := if w.testBit 0 then {PTE2PA w} else 0

namespace Tree

/-- The page-table pages of the subtree below the top index `i`. -/
def piece (T : Tree) (i : Nat) : Multiset Nat :=
  optFrame (T.mid i) + ∑ j ∈ entries, optFrame (T.low (i * 512 + j))

/-- The page-table pages below the root. -/
def nodes (T : Tree) : Multiset Nat := ∑ i ∈ entries, T.piece i

/-- The frames of the user pages. -/
def pages (T : Tree) : Multiset Nat := ∑ v ∈ userPages, leafFrame (T.leaf v)

theorem piece_eq (T : Tree) (i : Nat) :
    T.piece i = optFrame (T.mid i) + ∑ j ∈ entries, optFrame (T.low (i * 512 + j)) := rfl

theorem nodes_eq (T : Tree) : T.nodes = ∑ i ∈ entries, T.piece i := rfl

theorem pages_eq (T : Tree) : T.pages = ∑ v ∈ userPages, leafFrame (T.leaf v) := rfl

theorem pages_congr {T T' : Tree} (h : T'.leaf = T.leaf) : T'.pages = T.pages := by
  rw [pages_eq, pages_eq, h]

def empty : Tree := ⟨fun _ => none, fun _ => none, fun _ => 0⟩

def setLeaf (T : Tree) (v w : Nat) : Tree := { T with leaf := update T.leaf v w }

def setMid (T : Tree) (i f : Nat) : Tree := { T with mid := update T.mid i (some f) }

def setLow (T : Tree) (k f : Nat) : Tree := { T with low := update T.low k (some f) }

end Tree

/-- The tree that memory holds below the page `r`. -/
def treeOf (mem : Nat → Nat → Nat) (r : Nat) : Tree :=
  let entry (f i : Nat) : Option Nat :=
    if (mem f i).testBit 0 then some (PTE2PA (mem f i)) else none
  let mid (i : Nat) : Option Nat := if i < 512 then entry r i else none
  let low (k : Nat) : Option Nat := (mid (k / 512)).bind fun f => entry f (k % 512)
  ⟨mid, low, fun v => ((low (v / 512)).map fun g => mem g (v % 512)).getD 0⟩

structure Rep (mem : Nat → Nat → Nat) (r : Nat) (T : Tree) : Prop where
  root : ∀ i, i < 512 → mem r i = link (T.mid i)
  mid : ∀ k f, T.mid (k / 512) = some f → mem f (k % 512) = link (T.low k)
  low : ∀ v g, T.low (v / 512) = some g → mem g (v % 512) = T.leaf v
  mid_out : ∀ i, 512 ≤ i → T.mid i = none
  low_none : ∀ k, T.mid (k / 512) = none → T.low k = none
  leaf_none : ∀ v, T.low (v / 512) = none → T.leaf v = 0
  /-- An entry that is not valid is zero. -/
  leaf_zero : ∀ v, (T.leaf v).testBit 0 = false → T.leaf v = 0
  aligned : ∀ f ∈ T.nodes, f % 4096 = 0
  distinct : (r ::ₘ T.nodes).Nodup

/-! ## The pages of a tree -/

@[simp] theorem mem_optFrame {o : Option Nat} : f ∈ optFrame o ↔ o = some f := by
  cases o with
  | none => simp [optFrame]
  | some g => simp [optFrame, eq_comm]

theorem mem_piece_mid {T : Tree} (h : T.mid i = some f) : f ∈ T.piece i := by
  rw [T.piece_eq, Multiset.mem_add, mem_optFrame]
  exact Or.inl h

theorem mem_lows {T : Tree} (h : T.low k = some f) :
    f ∈ ∑ j ∈ entries, optFrame (T.low (k / 512 * 512 + j)) := by
  rw [Multiset.mem_sum]
  refine ⟨k % 512, mem_entries.mpr (Nat.mod_lt k (by decide)), ?_⟩
  rw [mem_optFrame, show k / 512 * 512 + k % 512 = k by omega]
  exact h

theorem mem_piece_low {T : Tree} (h : T.low k = some f) : f ∈ T.piece (k / 512) := by
  rw [T.piece_eq, Multiset.mem_add]
  exact Or.inr (mem_lows h)

theorem mem_nodes_of_piece {T : Tree} (hi : i < 512) (h : f ∈ T.piece i) : f ∈ T.nodes := by
  rw [T.nodes_eq, Multiset.mem_sum]
  exact ⟨i, mem_entries.mpr hi, h⟩

namespace Rep

variable {mem : Nat → Nat → Nat} {r : Nat} {T : Tree}

theorem mid_lt (h : Rep mem r T) (hi : T.mid i = some f) : i < 512 := by
  by_contra hlt
  rw [h.mid_out i (by omega)] at hi
  cases hi

theorem low_lt (h : Rep mem r T) (hk : T.low k = some f) : k / 512 < 512 := by
  cases hm : T.mid (k / 512) with
  | none =>
    rw [h.low_none k hm] at hk
    cases hk
  | some m => exact h.mid_lt hm

theorem mid_mem (h : Rep mem r T) (hi : T.mid i = some f) : f ∈ T.nodes :=
  mem_nodes_of_piece (h.mid_lt hi) (mem_piece_mid hi)

theorem low_mem (h : Rep mem r T) (hk : T.low k = some f) : f ∈ T.nodes :=
  mem_nodes_of_piece (h.low_lt hk) (mem_piece_low hk)

theorem ne_root (h : Rep mem r T) (hf : f ∈ T.nodes) : f ≠ r :=
  ne_of_mem_of_not_mem hf (Multiset.nodup_cons.mp h.distinct).1

theorem nodes_nodup (h : Rep mem r T) : T.nodes.Nodup := (Multiset.nodup_cons.mp h.distinct).2

theorem piece_inj (h : Rep mem r T) (hi : i < 512) (hj : j < 512) (hfi : f ∈ T.piece i)
    (hfj : f ∈ T.piece j) : i = j := by
  have hnd := h.nodes_nodup
  exact nodup_sum_inj hnd (mem_entries.mpr hi) (mem_entries.mpr hj) hfi hfj

theorem piece_nodup (h : Rep mem r T) (hi : i < 512) :
    (optFrame (T.mid i) + ∑ j ∈ entries, optFrame (T.low (i * 512 + j))).Nodup := by
  have hnd := h.nodes_nodup
  exact nodup_of_nodup_sum hnd (mem_entries.mpr hi)

theorem mid_inj (h : Rep mem r T) (hi : T.mid i = some f) (hj : T.mid j = some f) : i = j :=
  h.piece_inj (h.mid_lt hi) (h.mid_lt hj) (mem_piece_mid hi) (mem_piece_mid hj)

theorem low_inj (h : Rep mem r T) {l : Nat} (hk : T.low k = some f) (hl : T.low l = some f) :
    k = l := by
  have htop : k / 512 = l / 512 :=
    h.piece_inj (h.low_lt hk) (h.low_lt hl) (mem_piece_low hk) (mem_piece_low hl)
  have hin := (Multiset.nodup_add.mp (h.piece_nodup (h.low_lt hk))).2.1
  have hidx : k % 512 = l % 512 := by
    refine nodup_sum_inj hin (mem_entries.mpr (Nat.mod_lt k (by decide)))
      (mem_entries.mpr (Nat.mod_lt l (by decide))) (a := f) ?_ ?_
    · rw [mem_optFrame, show k / 512 * 512 + k % 512 = k by omega]
      exact hk
    · rw [mem_optFrame, htop, show l / 512 * 512 + l % 512 = l by omega]
      exact hl
  omega

theorem mid_ne_low (h : Rep mem r T) (hi : T.mid i = some f) (hk : T.low k = some g) : f ≠ g := by
  intro hfg
  rw [← hfg] at hk
  have htop : i = k / 512 :=
    h.piece_inj (h.mid_lt hi) (h.low_lt hk) (mem_piece_mid hi) (mem_piece_low hk)
  have hdis := (Multiset.nodup_add.mp (h.piece_nodup (h.mid_lt hi))).2.2
  refine Multiset.disjoint_left.mp hdis (mem_optFrame.mpr hi) ?_
  rw [htop]
  exact mem_lows hk

/-- Memory outside the pages of the tree does not matter. -/
theorem congr (h : Rep mem r T) {mem' : Nat → Nat → Nat}
    (hm : ∀ f ∈ r ::ₘ T.nodes, mem' f = mem f) : Rep mem' r T := by
  refine ⟨?_, ?_, ?_, h.mid_out, h.low_none, h.leaf_none, h.leaf_zero, h.aligned, h.distinct⟩
  · intro i hi
    rw [hm r (Multiset.mem_cons_self r _)]
    exact h.root i hi
  · intro k f hf
    rw [hm f (Multiset.mem_cons_of_mem (h.mid_mem hf))]
    exact h.mid k f hf
  · intro v g hg
    rw [hm g (Multiset.mem_cons_of_mem (h.low_mem hg))]
    exact h.low v g hg

/-- The tree is the one that can be read out of memory. -/
theorem treeOf_eq (h : Rep mem r T) : treeOf mem r = T := by
  have hmid : (treeOf mem r).mid = T.mid := by
    funext i
    show (if i < 512 then if (mem r i).testBit 0 then some (PTE2PA (mem r i)) else none else none)
      = T.mid i
    rcases Nat.lt_or_ge i 512 with hi | hi
    · rw [if_pos hi, h.root i hi, link_valid]
      cases hm : T.mid i with
      | none => rfl
      | some f => rw [PTE2PA_link (h.aligned f (h.mid_mem hm))]; rfl
    · rw [if_neg (by omega), h.mid_out i hi]
  have hlow : (treeOf mem r).low = T.low := by
    funext k
    show ((treeOf mem r).mid (k / 512)).bind (fun f =>
      if (mem f (k % 512)).testBit 0 then some (PTE2PA (mem f (k % 512))) else none) = T.low k
    rw [hmid]
    cases hm : T.mid (k / 512) with
    | none => rw [h.low_none k hm]; rfl
    | some f =>
      rw [Option.bind_some, h.mid k f hm, link_valid]
      cases hl : T.low k with
      | none => rfl
      | some g => rw [PTE2PA_link (h.aligned g (h.low_mem hl))]; rfl
  have hleaf : (treeOf mem r).leaf = T.leaf := by
    funext v
    show (((treeOf mem r).low (v / 512)).map fun g => mem g (v % 512)).getD 0 = T.leaf v
    rw [hlow]
    cases hl : T.low (v / 512) with
    | none => rw [h.leaf_none v hl]; rfl
    | some g => rw [Option.map_some, Option.getD_some, h.low v g hl]
  exact Tree.ext hmid hlow hleaf

end Rep

/-! ## Changes of a tree -/

theorem pages_setLeaf (T : Tree) (w : Nat) (hv : v < UPAGES) :
    (T.setLeaf v w).pages + leafFrame (T.leaf v) = T.pages + leafFrame w :=
  sum_update_add (mem_userPages.mpr hv) (fun _ => leafFrame) T.leaf w

theorem pages_setLeaf_high (T : Tree) (w : Nat) (hv : UPAGES ≤ v) :
    (T.setLeaf v w).pages = T.pages := by
  refine sum_congr rfl fun u hu => ?_
  have hne : u ≠ v := by
    have := mem_userPages.mp hu
    omega
  show leafFrame (update T.leaf v w u) = _
  rw [update_of_ne hne]

theorem nodes_setMid (T : Tree) (f : Nat) (hi : i < 512) (hn : T.mid i = none) :
    (T.setMid i f).nodes = f ::ₘ T.nodes := by
  have h := sum_update_add (mem_entries.mpr hi)
    (fun j o => optFrame o + ∑ l ∈ entries, optFrame (T.low (j * 512 + l))) T.mid (some f)
  rw [hn] at h
  -- both sides count the lower pages of `i`
  replace h : (T.setMid i f).nodes + (0 + _) = T.nodes + ({f} + _) := h
  rw [zero_add, ← add_assoc] at h
  rw [add_right_cancel h, add_comm, Multiset.singleton_add]

theorem piece_setLow (T : Tree) (f : Nat) (hn : T.low k = none) :
    (T.setLow k f).piece (k / 512) = f ::ₘ T.piece (k / 512) := by
  have h := sum_update_add (f := fun l => T.low (k / 512 * 512 + l))
    (mem_entries.mpr (Nat.mod_lt k (by decide))) (fun _ => optFrame) (some f)
  have hk : k / 512 * 512 + k % 512 = k := by omega
  have hfun : ∀ l, (T.setLow k f).low (k / 512 * 512 + l) =
      update (fun l => T.low (k / 512 * 512 + l)) (k % 512) (some f) l := by
    intro l
    show update T.low k (some f) _ = _
    rcases eq_or_ne l (k % 512) with hl | hl
    · rw [hl, hk, update_self, update_self]
    · rw [update_of_ne hl, update_of_ne (by omega)]
  simp only [hk, hn] at h
  replace h : _ + (0 : Multiset Nat) = _ + ({f} : Multiset Nat) := h
  rw [add_zero] at h
  rw [Tree.piece_eq]
  simp only [hfun]
  rw [h, ← add_assoc, add_comm _ ({f} : Multiset Nat)]
  rfl

theorem piece_setLow_ne (T : Tree) (f : Nat) (hi : i ≠ k / 512) :
    (T.setLow k f).piece i = T.piece i := by
  rw [Tree.piece_eq]
  congr 1
  refine sum_congr rfl fun l hl => ?_
  have hl := mem_entries.mp hl
  show optFrame (update T.low k (some f) _) = _
  rw [update_of_ne (by omega)]

theorem nodes_setLow (T : Tree) (f : Nat) (hk : k / 512 < 512) (hn : T.low k = none) :
    (T.setLow k f).nodes = f ::ₘ T.nodes := by
  rw [Tree.nodes_eq, Tree.nodes_eq, ← add_sum_erase entries _ (mem_entries.mpr hk),
    ← add_sum_erase entries T.piece (mem_entries.mpr hk), piece_setLow T f hn,
    Multiset.cons_add]
  congr 2
  refine sum_congr rfl fun i hi => ?_
  exact piece_setLow_ne T f (ne_of_mem_erase hi)

namespace Rep

variable {mem : Nat → Nat → Nat} {r : Nat} {T : Tree}

/-- Memory with one word replaced. -/
def poke (mem : Nat → Nat → Nat) (f i w : Nat) : Nat → Nat → Nat :=
  fun g => if g = f then fun j => if j = i then w else mem f j else mem g

theorem poke_self (f i w : Nat) : poke mem f i w f i = w := by
  unfold poke
  rw [if_pos rfl, if_pos rfl]

theorem poke_idx (w : Nat) (h : j ≠ i) : poke mem f i w f j = mem f j := by
  unfold poke
  rw [if_pos rfl, if_neg h]

theorem poke_page (i w : Nat) (h : g ≠ f) : poke mem f i w g = mem g := if_neg h

theorem setLeaf (h : Rep mem r T) {w : Nat} (hg : T.low (v / 512) = some g)
    (hw : w.testBit 0 = false → w = 0) : Rep (poke mem g (v % 512) w) r (T.setLeaf v w) := by
  constructor
  · intro i hi
    rw [poke_page _ _ (h.ne_root (h.low_mem hg)).symm]
    exact h.root i hi
  · intro k f hf
    rw [poke_page _ _ (h.mid_ne_low hf hg)]
    exact h.mid k f hf
  · intro u g' hg'
    show _ = update T.leaf v w u
    replace hg' : T.low (u / 512) = some g' := hg'
    rcases eq_or_ne g' g with hgg | hgg
    · rw [hgg] at hg' ⊢
      have htop := h.low_inj hg' hg
      rcases eq_or_ne u v with huv | huv
      · rw [huv, poke_self, update_self]
      · rw [poke_idx _ (by omega), update_of_ne huv]
        exact h.low u g hg'
    · have huv : u ≠ v := by
        intro huv
        rw [huv, hg] at hg'
        exact hgg (Option.some.inj hg').symm
      rw [poke_page _ _ hgg, update_of_ne huv]
      exact h.low u g' hg'
  · exact h.mid_out
  · exact h.low_none
  · intro u hu
    have huv : u ≠ v := by
      intro huv
      rw [huv] at hu
      exact absurd (hg.symm.trans hu) (by simp)
    show update T.leaf v w u = 0
    rw [update_of_ne huv]
    exact h.leaf_none u hu
  · intro u hu
    replace hu : (update T.leaf v w u).testBit 0 = false := hu
    show update T.leaf v w u = 0
    rcases eq_or_ne u v with huv | huv
    · rw [huv, update_self] at hu ⊢
      exact hw hu
    · rw [update_of_ne huv] at hu ⊢
      exact h.leaf_zero u hu
  · exact h.aligned
  · exact h.distinct

/-- A cleared page is linked in below the root. -/
theorem linkMid (h : Rep mem r T) (hi : i < 512) (hn : T.mid i = none) (hz : ∀ j, mem f j = 0)
    (hf : f ∉ r ::ₘ T.nodes) (ha : f % 4096 = 0) :
    Rep (poke mem r i (link (some f))) r (T.setMid i f) := by
  have hfr : f ≠ r := fun hfr => hf (by rw [hfr]; exact Multiset.mem_cons_self r _)
  have hnodes := nodes_setMid T f hi hn
  constructor
  · intro j hj
    show _ = link (update T.mid i (some f) j)
    rcases eq_or_ne j i with hji | hji
    · rw [hji, poke_self, update_self]
    · rw [poke_idx _ hji, update_of_ne hji]
      exact h.root j hj
  · intro k g hg
    replace hg : update T.mid i (some f) (k / 512) = some g := hg
    show _ = link (T.low k)
    rcases eq_or_ne (k / 512) i with hki | hki
    · rw [hki, update_self] at hg
      rw [← Option.some.inj hg, poke_page _ _ hfr, hz, h.low_none k (by rw [hki]; exact hn)]
      rfl
    · rw [update_of_ne hki] at hg
      rw [poke_page _ _ (h.ne_root (h.mid_mem hg))]
      exact h.mid k g hg
  · intro v g hg
    rw [poke_page _ _ (h.ne_root (h.low_mem hg))]
    exact h.low v g hg
  · intro j hj
    show update T.mid i (some f) j = none
    rw [update_of_ne (by omega)]
    exact h.mid_out j hj
  · intro k hk
    replace hk : update T.mid i (some f) (k / 512) = none := hk
    rcases eq_or_ne (k / 512) i with hki | hki
    · rw [hki, update_self] at hk
      cases hk
    · rw [update_of_ne hki] at hk
      exact h.low_none k hk
  · exact h.leaf_none
  · exact h.leaf_zero
  · intro g hg
    rw [hnodes, Multiset.mem_cons] at hg
    rcases hg with hg | hg
    · rw [hg]; exact ha
    · exact h.aligned g hg
  · rw [hnodes, Multiset.cons_swap, Multiset.nodup_cons]
    exact ⟨hf, h.distinct⟩

/-- A cleared page is linked in as a last-level page. -/
theorem linkLow (h : Rep mem r T) {m : Nat} (hm : T.mid (k / 512) = some m) (hn : T.low k = none)
    (hz : ∀ j, mem f j = 0) (hf : f ∉ r ::ₘ T.nodes) (ha : f % 4096 = 0) :
    Rep (poke mem m (k % 512) (link (some f))) r (T.setLow k f) := by
  have hfm : f ≠ m := fun hfm => hf (by rw [hfm]; exact Multiset.mem_cons_of_mem (h.mid_mem hm))
  have hmr := h.ne_root (h.mid_mem hm)
  have hnodes := nodes_setLow T f (h.mid_lt hm) hn
  constructor
  · intro j hj
    rw [poke_page _ _ hmr.symm]
    exact h.root j hj
  · intro l g hg
    replace hg : T.mid (l / 512) = some g := hg
    show _ = link (update T.low k (some f) l)
    rcases eq_or_ne g m with hgm | hgm
    · rw [hgm] at hg ⊢
      have htop := h.mid_inj hg hm
      rcases eq_or_ne l k with hlk | hlk
      · rw [hlk, poke_self, update_self]
      · rw [poke_idx _ (by omega), update_of_ne hlk]
        exact h.mid l m hg
    · have hlk : l ≠ k := by
        intro hlk
        rw [hlk, hm] at hg
        exact hgm (Option.some.inj hg).symm
      rw [poke_page _ _ hgm, update_of_ne hlk]
      exact h.mid l g hg
  · intro v g hg
    replace hg : update T.low k (some f) (v / 512) = some g := hg
    show _ = T.leaf v
    rcases eq_or_ne (v / 512) k with hvk | hvk
    · rw [hvk, update_self] at hg
      rw [← Option.some.inj hg, poke_page _ _ hfm, hz, h.leaf_none v (by rw [hvk]; exact hn)]
    · rw [update_of_ne hvk] at hg
      rw [poke_page _ _ (h.mid_ne_low hm hg).symm]
      exact h.low v g hg
  · exact h.mid_out
  · intro l hl
    replace hl : T.mid (l / 512) = none := hl
    have hlk : l ≠ k := by
      intro hlk
      rw [hlk, hm] at hl
      cases hl
    show update T.low k (some f) l = none
    rw [update_of_ne hlk]
    exact h.low_none l hl
  · intro v hv
    replace hv : update T.low k (some f) (v / 512) = none := hv
    have hvk : v / 512 ≠ k := by
      intro hvk
      rw [hvk, update_self] at hv
      cases hv
    rw [update_of_ne hvk] at hv
    exact h.leaf_none v hv
  · exact h.leaf_zero
  · intro g hg
    rw [hnodes, Multiset.mem_cons] at hg
    rcases hg with hg | hg
    · rw [hg]; exact ha
    · exact h.aligned g hg
  · rw [hnodes, Multiset.cons_swap, Multiset.nodup_cons]
    exact ⟨hf, h.distinct⟩

/-- A cleared page is the root of the empty tree. -/
theorem empty (hz : ∀ j, mem r j = 0) : Rep mem r Tree.empty := by
  have hnodes : Tree.empty.nodes = 0 := by
    refine sum_eq_zero fun i _ => ?_
    show 0 + ∑ j ∈ entries, (0 : Multiset Nat) = 0
    rw [sum_const_zero, add_zero]
  constructor
  · intro i _
    exact hz i
  · intro k f hf
    cases hf
  · intro v g hg
    cases hg
  · intro i _
    rfl
  · intro k _
    rfl
  · intro v _
    rfl
  · intro v _
    rfl
  · rw [hnodes]
    intro f hf
    exact absurd hf (Multiset.notMem_zero f)
  · rw [hnodes]
    exact Multiset.nodup_singleton r

end Rep

end Xv6
