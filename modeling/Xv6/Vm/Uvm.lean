/-
  The user memory functions of `vm.c` on one page table.

  Each function has one specification in the form of `Xv6.Vm.Walk`: from a state that `Holds` a
  tree it reaches, without panic, a state where the tree has changed in the way stated, and
  `Goes` says where the frames went.  `uvmalloc` may be asked for more than the address space
  holds; that it then runs out of memory and does not panic in `walk` is a counting argument,
  `Holds.dense_lt`: pages mapped without a gap from address 0 on need as many frames.
-/
import Xv6.Vm.Walk
import Mathlib.Algebra.Order.BigOperators.Group.Finset

namespace Xv6

open Finset Function
open Lib.Prog hiding update

section uvm

variable {r : Nat} {s : Mach} {T : Tree} {H H' : Multiset Nat}

/-! ## Entries -/

variable {perm v a : Nat} {doFree : Bool}

theorem leafFrame_leafPte {pa : Nat} (hpa : pa % 4096 = 0) (hp : perm < 1024) :
    leafFrame (leafPte pa perm) = {pa} := by
  unfold leafFrame
  rw [leafPte_valid, if_pos rfl, PTE2PA_leafPte hpa hp]

theorem ownFrame_zero (v : Nat) : ownFrame v 0 = 0 := by
  unfold ownFrame
  rw [leafFrame_zero, ite_self]

theorem ownFrame_user (hv : v < UPAGES) (w : Nat) : ownFrame v w = leafFrame w :=
  if_pos hv

theorem ownFrame_high (hv : UPAGES ≤ v) (w : Nat) : ownFrame v w = 0 :=
  if_neg (Nat.not_lt.mpr hv)

/-- The user pages of a tree are the frames of its valid entries. -/
theorem mem_pages_iff {f : Nat} :
    f ∈ T.pages ↔ ∃ v, v < UPAGES ∧ (T.leaf v).testBit 0 ∧ f = PTE2PA (T.leaf v) := by
  rw [T.pages_eq, Multiset.mem_sum]
  simp only [mem_userPages, leafFrame]
  constructor
  · rintro ⟨v, hv, hf⟩
    cases hV : (T.leaf v).testBit 0 with
    | false => simp [hV] at hf
    | true =>
      rw [hV, if_pos rfl, Multiset.mem_singleton] at hf
      exact ⟨v, hv, hV, hf⟩
  · rintro ⟨v, hv, hV, hf⟩
    refine ⟨v, hv, ?_⟩
    rw [if_pos hV, hf]
    exact Multiset.mem_singleton_self _

theorem mem_pages (hv : v < UPAGES) (hV : (T.leaf v).testBit 0) :
    PTE2PA (T.leaf v) ∈ T.pages := mem_pages_iff.mpr ⟨v, hv, hV, rfl⟩

theorem pages_le_foot : T.pages ≤ Foot r T s.freelist + H := by
  unfold Foot
  rw [Multiset.cons_add]
  refine le_trans ?_ (Multiset.le_cons_self _ _)
  rw [add_comm T.nodes, add_assoc, add_assoc]
  exact Multiset.le_add_right _ _

/-- Different user pages are on different frames. -/
theorem Holds.pages_inj {w : Nat} (h : Holds s r T H) (hv : v < UPAGES) (hw : w < UPAGES)
    (hV : (T.leaf v).testBit 0) (hW : (T.leaf w).testBit 0) (hne : v ≠ w) :
    PTE2PA (T.leaf v) ≠ PTE2PA (T.leaf w) := by
  intro heq
  have hnd := Multiset.nodup_of_le pages_le_foot h.nodup
  rw [T.pages_eq, ← add_sum_erase _ _ (mem_userPages.mpr hw)] at hnd
  have hmem : PTE2PA (T.leaf w) ∈ leafFrame (T.leaf w) := by
    unfold leafFrame
    rw [if_pos hW]
    exact Multiset.mem_singleton_self _
  refine Multiset.disjoint_left.mp (Multiset.nodup_add.mp hnd).2.2 hmem ?_
  refine Multiset.mem_sum.mpr ⟨v, mem_erase.mpr ⟨hne, mem_userPages.mpr hv⟩, ?_⟩
  unfold leafFrame
  rw [if_pos hV, heq]
  exact Multiset.mem_singleton_self _

/-- Entries were taken out. -/
theorem pages_subset {T' : Tree} (h : ∀ v, T'.leaf v = 0 ∨ T'.leaf v = T.leaf v) :
    T'.pages ⊆ T.pages := by
  intro f hf
  obtain ⟨v, hv, hV, rfl⟩ := mem_pages_iff.mp hf
  rcases h v with h0 | heq
  · rw [h0] at hV
    cases hV
  · rw [heq] at hV ⊢
    exact mem_pages hv hV

theorem user_lt_MAXVA (hv : v < UPAGES) : v * PGSIZE < MAXVA := by
  unfold UPAGES at hv
  simp only [TRAPFRAME, TRAMPOLINE, PGSIZE] at hv ⊢
  omega

theorem user_le_MAXVA (hv : v ≤ UPAGES) : v * PGSIZE ≤ MAXVA := by
  unfold UPAGES at hv
  simp only [TRAPFRAME, TRAMPOLINE, PGSIZE] at hv ⊢
  omega

/-! ## `mappages` -/

/-- `mappages` of one page that is not mapped yet. The frame comes out of the held pages, unless
    the entry is above the user pages. -/
theorem wp_mappages {Q : Bool → Mach → Prop} {pa : Nat} {G : Multiset Nat} (h : Holds s r T H)
    (hv : v * PGSIZE < MAXVA) (hl : T.leaf v = 0) (hH : G + ownFrame v (leafPte pa perm) = H)
    (hn : ∀ t T', Goes r s T H t T' H → T'.leaf = T.leaf → Keeps (T.pages + H) s t → Q false t)
    (hs : ∀ t T', Goes r s T H t T' G →
      T'.leaf = update T.leaf v (leafPte pa perm) → Keeps (T.pages + H) s t → Q true t) :
    wp Crit.total Q (mappages r (v * PGSIZE) PGSIZE pa perm) s := by
  unfold mappages
  rw [if_neg (by simp)]
  refine wp_mapPage h.spine hv hl ?_ ?_
  · intro t T' g hleaf hk
    refine hn t T' (Shift.goes ?_) hleaf hk
    rw [Tree.pages_congr hleaf]
    exact g
  · intro t T' g hleaf hk
    have hheld : T'.pages + G = T.pages + H := by
      refine pages_held hleaf ?_
      rw [hH, hl, ownFrame_zero, add_zero]
    exact hs t T' (Shift.goes (by rw [hheld]; exact g)) hleaf hk

/-- A new page is filled and mapped, as in `uvmalloc`, `uvmcopy` and `vmfault`. -/
theorem wp_mapNew {α : Type} {Q : α → Mach → Prop} {fill : Nat → MachM Unit} {go : Nat → MachM α}
    {fail : MachM α} {F : (Nat → Nat) → Prop} (h : Holds s r T H) (hv : v < UPAGES)
    (h0 : T.leaf v = 0) (hperm : perm < 1024)
    (hfill : ∀ x t, Goes r s T H t T (x ::ₘ H) → Holds t r T (x ::ₘ H) → ∀ Q' : Unit → Mach → Prop,
      (∀ u, Goes r t T (x ::ₘ H) u T (x ::ₘ H) → F (u.mem x) → Keeps (T.pages + H) t u → Q' () u) →
      wp Crit.total Q' (fill x) t)
    (hn : ∀ t T', Goes r s T H t T' H → T'.leaf = T.leaf → Keeps (T.pages + H) s t →
      wp Crit.total Q fail t) (hs : ∀ x t T', x % 4096 = 0 → Goes r s T H t T' H →
      T'.leaf = update T.leaf v (leafPte x perm) → Keeps (T.pages + H) s t → F (t.mem x) →
      wp Crit.total Q (go x) t) :
    wp Crit.total Q (do
      match ← kalloc with
      | none => fail
      | some mem => do
        fill mem
        if ← mappages r (v * PGSIZE) PGSIZE mem perm then go mem
        else do
          kfree mem
          fail) s := by
  rw [wp_bind]
  refine wp_kalloc_held h (fun t g hk => hn t T g rfl hk) ?_
  intro x t g hk
  have ht := h.goes g
  have hsub : T.pages + H ⊆ T.pages + (x ::ₘ H) := by
    rw [Multiset.add_cons]
    exact Multiset.subset_cons _ _
  simp only [wp_bind]
  refine hfill x t g ht _ ?_
  intro u g' hF hk'
  have hu := ht.goes g'
  have hxal := (hu.held_frame (Multiset.mem_cons_self x H)).1
  refine wp_mappages (G := H) hu (user_lt_MAXVA hv) h0 ?_ ?_ ?_
  · rw [ownFrame_user hv, leafFrame_leafPte hxal hperm, add_comm, Multiset.singleton_add]
  · intro w T' g'' hleaf hk''
    rw [if_neg Bool.false_ne_true, wp_bind]
    refine wp_kfree_held (hu.goes g'') ?_
    intro z g3 hk3
    rw [Tree.pages_congr hleaf] at hk3
    exact hn z T' (g.trans (g'.trans (g''.trans g3))) hleaf
      ((hk.trans hk').trans ((hk''.mono hsub).trans hk3))
  · intro w T' g'' hleaf hk''
    refine hs x w T' hxal (g.trans (g'.trans g'')) hleaf ((hk.trans hk').trans (hk''.mono hsub)) ?_
    rw [hk'' x (Multiset.mem_add.mpr (Or.inr (Multiset.mem_cons_self x H)))]
    exact hF

/-! ## `uvmunmap` and `uvmdealloc` -/

/-- The entries of `n` pages from page `a` on are taken out. -/
def clearRange (leaf : Nat → Nat) (a n v : Nat) : Nat := if a ≤ v ∧ v < a + n then 0 else leaf v

theorem clearRange_zero (leaf : Nat → Nat) (a : Nat) : clearRange leaf a 0 = leaf := by
  funext v
  exact if_neg (by omega)

theorem clearRange_succ (leaf : Nat → Nat) (a n : Nat) :
    update (clearRange leaf a n) (a + n) 0 = clearRange leaf a (n + 1) := by
  funext v
  unfold clearRange
  rcases eq_or_ne v (a + n) with hv | hv
  · rw [hv, update_self, if_pos (by omega)]
  · have hiff : (a ≤ v ∧ v < a + n) ↔ (a ≤ v ∧ v < a + (n + 1)) := by omega
    rw [update_of_ne hv]
    simp only [hiff]

theorem clearRange_restores {leaf leaf' : Nat → Nat} {n : Nat}
    (h0 : ∀ v, a ≤ v → v < a + n → leaf v = 0)
    (hold : ∀ v, v < a ∨ a + n ≤ v → leaf' v = leaf v) : clearRange leaf' a n = leaf := by
  funext v
  unfold clearRange
  split
  · rw [h0 v (by omega) (by omega)]
  · exact hold v (by omega)

/-- Frames are freed exactly where the entries own them. -/
def FreesOwned (doFree : Bool) (v : Nat) : Prop :=
  if doFree then v < UPAGES else UPAGES ≤ v

/-- What is freed with the entry of page `v` is what that entry owned. -/
theorem freed_pages (hf : FreesOwned doFree v) :
    freed doFree (T.leaf v) + (T.setLeaf v 0).pages = T.pages := by
  have hp := pages_update T v 0
  rw [ownFrame_zero, add_zero] at hp
  cases doFree with
  | true =>
    rw [ownFrame_user hf] at hp
    rw [← hp, add_comm]
    rfl
  | false =>
    rw [ownFrame_high hf, add_zero] at hp
    rw [hp, freed_false, zero_add]

theorem wp_unmapPage {Q : Unit → Mach → Prop} (h : Holds s r T H) (hv : v * PGSIZE < MAXVA)
    (hf : FreesOwned doFree v)
    (hQ : ∀ t T', Goes r s T H t T' H → T'.leaf = update T.leaf v 0 →
      T'.nodes = T.nodes → Keeps T'.pages s t → Q () t) :
    wp Crit.total Q (unmapPage r (v * PGSIZE) doFree) s := by
  have hheld : freed doFree (T.leaf v) + ((T.setLeaf v 0).pages + H) = T.pages + H := by
    rw [← add_assoc, freed_pages hf]
  refine wp_unmapPage_spine (by rw [hheld]; exact h.spine) hv ?_
  intro t T' g hleaf hnodes hk
  have hpages : T'.pages = (T.setLeaf v 0).pages := Tree.pages_congr hleaf
  rw [hheld, ← hpages] at g
  rw [← hpages] at hk
  exact hQ t T' g.goes hleaf hnodes (hk.mono (Multiset.subset_of_le (Multiset.le_add_right _ _)))

theorem wp_uvmunmap {Q : Unit → Mach → Prop} {n : Nat} (h : Holds s r T H)
    (hv : (a + n) * PGSIZE ≤ MAXVA) (hf : ∀ v, a ≤ v → v < a + n → FreesOwned doFree v)
    (hQ : ∀ t T', Goes r s T H t T' H → T'.leaf = clearRange T.leaf a n →
      T'.nodes = T.nodes → Keeps T'.pages s t → Q () t) :
    wp Crit.total Q (uvmunmap r (a * PGSIZE) n doFree) s := by
  unfold uvmunmap
  rw [if_neg (by simp)]
  refine wp_mono (wp_upto (J := fun k t => ∃ T', Goes r s T H t T' H ∧
    T'.leaf = clearRange T.leaf a k ∧ T'.nodes = T.nodes ∧ Keeps T'.pages s t) ?_ ?_) ?_
  · exact ⟨T, Goes.refl h, (clearRange_zero _ _).symm, rfl, Keeps.refl _ _⟩
  · intro k t hk hJ
    obtain ⟨T', g, hleaf, hnodes, hkeeps⟩ := hJ
    rw [← Nat.add_mul]
    refine wp_unmapPage (h.goes g) ?_ (hf _ (by omega) (by omega)) ?_
    · refine Nat.lt_of_lt_of_le ?_ hv
      exact Nat.mul_lt_mul_of_pos_right (by omega) (by decide)
    · intro u T'' g' hleaf' hnodes' hkeeps'
      refine ⟨T'', g.trans g', ?_, hnodes'.trans hnodes, (hkeeps.mono ?_).trans hkeeps'⟩
      · rw [hleaf', hleaf, clearRange_succ]
      · refine pages_subset fun v => ?_
        rw [hleaf', update_apply]
        split
        · exact Or.inl rfl
        · exact Or.inr rfl
  · intro _ t hJ
    obtain ⟨T', g, hleaf, hnodes, hkeeps⟩ := hJ
    exact hQ t T' g hleaf hnodes hkeeps

/-- The number of pages that `sz` bytes need. -/
def npages (sz : Nat) : Nat := (sz + PGSIZE - 1) / PGSIZE

theorem PGROUNDUP_eq (sz : Nat) : PGROUNDUP sz = npages sz * PGSIZE := rfl

theorem npages_mul (n : Nat) : npages (n * PGSIZE) = n := by
  unfold npages
  simp only [PGSIZE]
  omega

theorem npages_mono {b : Nat} (h : a ≤ b) : npages a ≤ npages b := by
  unfold npages
  simp only [PGSIZE]
  omega

theorem npages_le {sz : Nat} (h : sz ≤ TRAPFRAME) : npages sz ≤ UPAGES := by
  have h' := npages_mono h
  rwa [show npages TRAPFRAME = UPAGES by decide] at h'

theorem le_npages_mul (sz : Nat) : sz ≤ npages sz * PGSIZE := by
  unfold npages
  simp only [PGSIZE]
  omega

theorem lt_npages {va sz : Nat} (h : va < sz) : va / PGSIZE < npages sz := by
  unfold npages
  simp only [PGSIZE]
  omega

/-- Addresses below `TRAPFRAME` are far enough from `MAXVA`. -/
theorem wp_uvmdealloc {Q : Nat → Mach → Prop} {oldsz newsz : Nat} (h : Holds s r T H)
    (hold : npages oldsz ≤ UPAGES)
    (hQ : ∀ t T', Goes r s T H t T' H →
      T'.leaf = clearRange T.leaf (npages newsz) (npages oldsz - npages newsz) →
      T'.nodes = T.nodes → Keeps T'.pages s t → Q (min oldsz newsz) t) :
    wp Crit.total Q (uvmdealloc r oldsz newsz) s := by
  unfold uvmdealloc
  rcases Nat.lt_or_ge newsz oldsz with hlt | hge
  · rw [if_neg (by omega), PGROUNDUP_eq, PGROUNDUP_eq]
    rw [Nat.min_eq_right (by omega)] at hQ
    have hmono := npages_mono (Nat.le_of_lt hlt)
    rcases Nat.lt_or_ge (npages newsz) (npages oldsz) with hp | hp
    · rw [if_pos (Nat.mul_lt_mul_of_pos_right hp (by decide)), ← Nat.sub_mul,
        Nat.mul_div_cancel _ (by decide), wp_bind]
      refine wp_uvmunmap h ?_ ?_ hQ
      · rw [Nat.add_sub_cancel' hmono]
        exact user_le_MAXVA hold
      · intro v h1 h2
        show v < UPAGES
        omega
    · rw [if_neg (by simp only [PGSIZE]; omega)]
      refine hQ s T (Goes.refl h) ?_ rfl (Keeps.refl _ _)
      rw [Nat.sub_eq_zero_of_le hp, clearRange_zero]
  · rw [if_pos hge]
    rw [Nat.min_eq_left hge] at hQ
    refine hQ s T (Goes.refl h) ?_ rfl (Keeps.refl _ _)
    rw [Nat.sub_eq_zero_of_le (npages_mono hge), clearRange_zero]

/-! ## `uvmalloc` -/

/-- There are at most this many page frames. -/
abbrev NFRAMES : Nat := PHYSTOP / PGSIZE

theorem card_frames_le {F : Multiset Nat} (hnd : F.Nodup) (hF : ∀ f ∈ F, IsFrame s f) :
    F.card ≤ NFRAMES := by
  have hsub : F.toFinset ⊆ (range NFRAMES).image (· * PGSIZE) := by
    intro f hf
    obtain ⟨hal, -, hlt⟩ := hF f (Multiset.mem_toFinset.mp hf)
    refine mem_image.mpr ⟨f / PGSIZE, mem_range.mpr ?_, ?_⟩
    · exact Nat.div_lt_of_lt_mul (Nat.lt_of_lt_of_le hlt (by decide))
    · exact Nat.div_mul_cancel (Nat.dvd_of_mod_eq_zero hal)
  calc F.card = F.toFinset.card := (Multiset.toFinset_card_of_nodup hnd).symm
    _ ≤ ((range NFRAMES).image (· * PGSIZE)).card := card_le_card hsub
    _ ≤ (range NFRAMES).card := card_image_le
    _ = NFRAMES := card_range _

/-- All pages below page `a` are mapped. -/
def Dense (leaf : Nat → Nat) (a : Nat) : Prop := ∀ v, v < a → (leaf v).testBit 0

/-- Pages without a gap need as many frames. -/
theorem Holds.dense_le (h : Holds s r T H) (hd : Dense T.leaf a) (ha : a ≤ UPAGES) :
    a ≤ NFRAMES := by
  have hcard : T.pages.card ≤ NFRAMES := by
    refine card_frames_le (s := s) (Multiset.nodup_of_le pages_le_foot h.nodup) ?_
    intro f hf
    exact h.page_frame hf
  have hcount : a ≤ T.pages.card := by
    rw [T.pages_eq, Multiset.card_sum]
    calc a = ∑ v ∈ range a, 1 := by rw [← card_eq_sum_ones, card_range]
      _ ≤ ∑ v ∈ range a, (leafFrame (T.leaf v)).card := by
        refine sum_le_sum fun v hv => ?_
        unfold leafFrame
        rw [if_pos (hd v (mem_range.mp hv)), Multiset.card_singleton]
      _ ≤ ∑ v ∈ userPages, (leafFrame (T.leaf v)).card := by
        refine sum_le_sum_of_subset fun v hv => mem_userPages.mpr ?_
        exact Nat.lt_of_lt_of_le (mem_range.mp hv) ha
  exact Nat.le_trans hcount hcard

/-- Memory runs out long before the address space does. -/
theorem Holds.dense_lt (h : Holds s r T H) (hd : Dense T.leaf a) : a < UPAGES := by
  by_contra hge
  have hall : Dense T.leaf UPAGES := by
    intro v hv
    exact hd v (by omega)
  exact absurd (h.dense_le hall (le_refl _)) (by decide)

/-- The pages from `a` on that `n` rounds of `uvmalloc` map. -/
structure Grown (leaf leaf' : Nat → Nat) (a n perm : Nat) : Prop where
  new : ∀ v, a ≤ v → v < a + n → ∃ pa, pa % 4096 = 0 ∧ leaf' v = leafPte pa perm
  old : ∀ v, v < a ∨ a + n ≤ v → leaf' v = leaf v

/-- The pages mapped there are zeroed. -/
def Zeroed (s : Mach) (leaf : Nat → Nat) (a n : Nat) : Prop :=
  ∀ v, a ≤ v → v < a + n → ∀ j, s.mem (PTE2PA (leaf v)) j = 0

theorem Grown.valid {leaf leaf' : Nat → Nat} {n : Nat} (h : Grown leaf leaf' a n perm) (h1 : a ≤ v)
    (h2 : v < a + n) : (leaf' v).testBit 0 := by
  obtain ⟨pa, -, hl⟩ := h.new v h1 h2
  rw [hl]
  exact leafPte_valid _ _

/-- What the first `n` rounds of `uvmalloc` from page `a` on have done. -/
structure Allocated (r : Nat) (s : Mach) (T : Tree) (H : Multiset Nat) (a n perm : Nat) (t : Mach)
    (T' : Tree) : Prop where
  goes : Goes r s T H t T' H
  grown : Grown T.leaf T'.leaf a n perm
  keeps : Keeps T.pages s t
  zeroed : Zeroed t T'.leaf a n

section rounds

variable {t u : Mach} {T' T'' : Tree} {n : Nat}

theorem Allocated.refl (h : Holds s r T H) : Allocated r s T H a 0 perm s T := by
  refine ⟨Goes.refl h, ⟨?_, fun _ _ => rfl⟩, Keeps.refl _ _, ?_⟩
  · intro v h1 h2
    omega
  · intro v h1 h2
    omega

theorem Allocated.subset (f : Allocated r s T H a n perm t T')
    (hzero : ∀ v, a ≤ v → v < a + n → T.leaf v = 0) : T.pages ⊆ T'.pages := by
  refine pages_subset fun v => ?_
  by_cases hv : a ≤ v ∧ v < a + n
  · exact Or.inl (hzero v hv.1 hv.2)
  · exact Or.inr (f.grown.old v (by omega)).symm

theorem Allocated.round {x : Nat} (f : Allocated r s T H a n perm t T')
    (hzero : ∀ v, a ≤ v → v < a + n → T.leaf v = 0) (hn : a + n < UPAGES) (hperm : perm < 1024)
    (hx : x % 4096 = 0) (g : Goes r t T' H u T'' H)
    (hleaf : T''.leaf = update T'.leaf (a + n) (leafPte x perm)) (hk : Keeps T'.pages t u)
    (hz : ∀ j, u.mem x j = 0) : Allocated r s T H a (n + 1) perm u T'' := by
  refine ⟨f.goes.trans g, ⟨?_, ?_⟩, f.keeps.trans (hk.mono (f.subset hzero)), ?_⟩
  · intro v h1 h2
    rw [hleaf]
    rcases eq_or_ne v (a + n) with heq | hne
    · rw [heq, update_self]
      exact ⟨x, hx, rfl⟩
    · rw [update_of_ne hne]
      exact f.grown.new v h1 (by omega)
  · intro v hv
    rw [hleaf, update_of_ne (by omega)]
    exact f.grown.old v (by omega)
  · intro v h1 h2 j
    rw [hleaf]
    rcases eq_or_ne v (a + n) with heq | hne
    · rw [heq, update_self, PTE2PA_leafPte hx hperm]
      exact hz j
    · rw [update_of_ne hne, hk _ (mem_pages (by omega) (f.grown.valid h1 (by omega)))]
      exact f.zeroed v h1 (by omega) j

end rounds

theorem wp_uvmallocLoop {Q : Bool → Mach → Prop} {xperm N : Nat}
    (hx : PTE_R ||| PTE_U ||| xperm < 1024) (h : Holds s r T H)
    (hroom : a + N ≤ UPAGES ∨ Dense T.leaf a)
    (hzero : ∀ v, a ≤ v → v < a + N → v < UPAGES → T.leaf v = 0)
    (hn : ∀ t T', Goes r s T H t T' H → T'.leaf = T.leaf → Keeps T.pages s t → Q false t)
    (hs : ∀ t T', Allocated r s T H a N (PTE_R ||| PTE_U ||| xperm) t T' → Q true t) :
    ∀ (n : Nat) {k : Nat} {t : Mach} {T' : Tree}, k + n = N →
      Allocated r s T H a k (PTE_R ||| PTE_U ||| xperm) t T' →
      wp Crit.total Q (uvmallocLoop r (a * PGSIZE) xperm n ((a + k) * PGSIZE)) t
  | 0, k, t, T', hN, f => by
    obtain rfl : k = N := hN
    exact hs t T' f
  | n + 1, k, t, T', hN, f => by
    have ht := h.goes f.goes
    have hlt : a + k < UPAGES := by
      rcases hroom with hle | hd
      · omega
      · refine ht.dense_lt fun v hv => ?_
        rcases Nat.lt_or_ge v a with hva | hva
        · rw [f.grown.old v (Or.inl hva)]
          exact hd v hva
        · exact f.grown.valid hva hv
    have hzero' : ∀ v, a ≤ v → v < a + k → T.leaf v = 0 := by
      intro v h1 h2
      exact hzero v h1 (by omega) (by omega)
    have hfree : T'.leaf (a + k) = 0 := by
      rw [f.grown.old _ (Or.inr (le_refl _))]
      exact hzero _ (by omega) (by omega) hlt
    have hpages : T'.pages ⊆ T'.pages + H := Multiset.subset_of_le (Multiset.le_add_right _ _)
    unfold uvmallocLoop
    refine wp_mapNew (F := fun m => ∀ j, m j = 0) ht hlt hfree hx
      (fun x t _ ht _ => wp_memset_held ht) ?_ ?_
    · -- the cleanup of both error paths
      intro u T₁ g hleaf hk
      rw [wp_bind]
      refine wp_uvmdealloc (ht.goes g) (by rw [npages_mul]; omega) ?_
      intro w T₂ g' hleaf' _ hk'
      have hback : T₂.leaf = T.leaf := by
        rw [hleaf', hleaf, npages_mul, npages_mul, Nat.add_sub_cancel_left]
        exact clearRange_restores hzero' f.grown.old
      rw [Tree.pages_congr hback] at hk'
      exact hn w T₂ (f.goes.trans (g.trans g')) hback
        (f.keeps.trans (((hk.mono hpages).mono (f.subset hzero')).trans hk'))
    · intro x u T₁ hxal g hleaf hk hz
      have hnext : (a + k) * PGSIZE + PGSIZE = (a + (k + 1)) * PGSIZE := (Nat.succ_mul _ _).symm
      rw [hnext]
      exact wp_uvmallocLoop hx h hroom hzero hn hs n (by omega)
        (f.round hzero' hlt hx hxal g hleaf (hk.mono hpages) hz)

/-- `uvmalloc` where nothing is mapped between the two sizes: it maps all pages between them, or
    none and returns 0. A request beyond the address space is fine if the pages below are all
    mapped. -/
theorem wp_uvmalloc {Q : Nat → Mach → Prop} {oldsz newsz xperm : Nat} (h : Holds s r T H)
    (hx : PTE_R ||| PTE_U ||| xperm < 1024)
    (hroom : npages newsz ≤ UPAGES ∨ Dense T.leaf (npages oldsz))
    (hzero : ∀ v, npages oldsz ≤ v → v < npages newsz → v < UPAGES → T.leaf v = 0)
    (hlt : newsz < oldsz → Q oldsz s)
    (hn : ∀ t T', oldsz ≤ newsz → Goes r s T H t T' H → T'.leaf = T.leaf → Keeps T.pages s t →
      Q 0 t)
    (hs : ∀ t T', oldsz ≤ newsz → Allocated r s T H (npages oldsz) (npages newsz - npages oldsz)
      (PTE_R ||| PTE_U ||| xperm) t T' → Q newsz t) :
    wp Crit.total Q (uvmalloc r oldsz newsz xperm) s := by
  unfold uvmalloc
  rcases Nat.lt_or_ge newsz oldsz with hl | hge
  · rw [if_pos hl]
    exact hlt hl
  · have hmono := npages_mono hge
    have hcount : (newsz - PGROUNDUP oldsz + PGSIZE - 1) / PGSIZE =
        npages newsz - npages oldsz := by
      rw [PGROUNDUP_eq]
      unfold npages
      simp only [PGSIZE]
      omega
    rw [if_neg (by omega)]
    simp only [wp_bind]
    rw [hcount, PGROUNDUP_eq, ← Nat.add_zero (npages oldsz)]
    have hz : ∀ v, npages oldsz ≤ v → v < npages oldsz + (npages newsz - npages oldsz) →
        v < UPAGES → T.leaf v = 0 := by
      intro v h1 h2
      exact hzero v h1 (by omega)
    refine wp_uvmallocLoop hx h ?_ hz ?_ ?_ _ (Nat.zero_add _) (Allocated.refl h)
    · refine hroom.imp ?_ id
      intro hle
      omega
    · intro t T' g hleaf hk
      exact hn t T' hge g hleaf hk
    · intro t T' f
      exact hs t T' hge f

end uvm

end Xv6
