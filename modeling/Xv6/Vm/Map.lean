/-
  A page table as a finite map.

  `pageMap mem r` is what the valid last-level entries below the root `r` say: a partial map from
  page-aligned virtual addresses below `MAXVA` to a physical page and flags.  `Built r s` are the
  states that `uvmcreate` and any sequence of `mappages`, `uvmunmap` and `uvmclear` on its page table
  lead to, with the rest of the kernel at work in between on frames that are not its page-table
  pages.  In each of them `mappages` extends the map by the pages of its range, or by the first few
  when it runs out of memory; `uvmunmap` removes those of its range; `walkaddr` is a look-up; and no
  two interior entries lead to the same page (`page_table_map`).

  With `do_free` set, `uvmunmap` gives the mapped pages to `kfree`, which fills them with junk.  The
  map survives that when these are pages that were allocated and serve nothing else (`Freeable`);
  `unmap_own_table` is what happens when the mapped page is a page-table page itself.
-/
import Xv6.Vm.Image
import Mathlib.Algebra.BigOperators.Intervals

namespace Xv6

open Finset Function Multiset
open Lib.Prog hiding update

/-! ## The map -/

/-- What a last-level entry says. -/
def entryOf (pte : Nat) : Option (Nat × Nat) :=
  if pte.testBit 0 then some (PTE2PA pte, PTE_FLAGS pte) else none

def Tree.map (T : Tree) (va : Nat) : Option (Nat × Nat) :=
  if va % PGSIZE = 0 ∧ va < MAXVA then entryOf (T.leaf (va / PGSIZE)) else none

/-- The map that memory holds below the page `r`. -/
def pageMap (mem : Nat → Nat → Nat) (r : Nat) : Nat → Option (Nat × Nat) := (treeOf mem r).map

/-- The page that an interior entry leads to: `inl i` is entry `i` of the root page, `inr k` the
    entry for the two upper indices `k` together. -/
def interior (mem : Nat → Nat → Nat) (r : Nat) : Nat ⊕ Nat → Option Nat
  | .inl i => (treeOf mem r).mid i
  | .inr k => (treeOf mem r).low k

/-- The map with `n` pages from `va` on mapped to the pages from `pa` on. -/
def extendMap (M : Nat → Option (Nat × Nat)) (va n pa perm a : Nat) : Option (Nat × Nat) :=
  if va ≤ a ∧ a < va + n * PGSIZE ∧ a % PGSIZE = 0 then some (pa + (a - va), perm ||| PTE_V)
  else M a

/-- The map without the `n` pages from `va` on. -/
def removeMap (M : Nat → Option (Nat × Nat)) (va n a : Nat) : Option (Nat × Nat) :=
  if va ≤ a ∧ a < va + n * PGSIZE then none else M a

theorem entryOf_zero : entryOf 0 = none := rfl

variable {pa perm v f n : Nat} {mem : Nat → Nat → Nat} {doFree : Bool} {leaf : Nat → Nat}

theorem entryOf_leafPte (hpa : pa % 4096 = 0) (hp : perm < 1024) :
    entryOf (leafPte pa perm) = some (pa, perm ||| PTE_V) := by
  unfold entryOf
  rw [if_pos (leafPte_valid pa perm), PTE2PA_leafPte hpa hp, PTE_FLAGS_leafPte pa hp]

theorem Tree.map_page (T : Tree) (hv : v * PGSIZE < MAXVA) :
    T.map (v * PGSIZE) = entryOf (T.leaf v) := by
  unfold Tree.map
  rw [if_pos ⟨Nat.mul_mod_left v PGSIZE, hv⟩, Nat.mul_div_cancel v (by decide)]

theorem Rep.pageMap_eq {r : Nat} {T : Tree} (h : Rep mem r T) : pageMap mem r = T.map := by
  unfold pageMap
  rw [h.treeOf_eq]

theorem Rep.mem_interior {r : Nat} {T : Tree} (h : Rep mem r T) (hf : f ∈ T.nodes) :
    ∃ e, interior mem r e = some f := by
  rw [T.nodes_eq, mem_sum] at hf
  obtain ⟨i, -, hi⟩ := hf
  rw [T.piece_eq, mem_add, mem_optFrame, mem_sum] at hi
  rcases hi with hmid | ⟨j, -, hlow⟩
  · exact ⟨.inl i, by simpa only [interior, h.treeOf_eq] using hmid⟩
  · exact ⟨.inr (i * 512 + j), by simpa only [interior, h.treeOf_eq] using mem_optFrame.mp hlow⟩

theorem Rep.interior_inj {r : Nat} {T : Tree} {e e' : Nat ⊕ Nat} (h : Rep mem r T)
    (he : interior mem r e = some f) (he' : interior mem r e' = some f) : e = e' := by
  cases e with
  | inl i =>
    cases e' with
    | inl j =>
      simp only [interior, h.treeOf_eq] at he he'
      rw [h.mid_inj he he']
    | inr k =>
      simp only [interior, h.treeOf_eq] at he he'
      exact absurd rfl (h.mid_ne_low he he')
  | inr k =>
    cases e' with
    | inl j =>
      simp only [interior, h.treeOf_eq] at he he'
      exact absurd rfl (h.mid_ne_low he' he)
    | inr l =>
      simp only [interior, h.treeOf_eq] at he he'
      rw [h.low_inj he he']

/-! ## Ranges of last-level entries -/

/-- The entries of `n` pages from page `v` on are mapped to the pages from `pa` on. -/
def mapRange (leaf : Nat → Nat) (v n pa perm u : Nat) : Nat :=
  if v ≤ u ∧ u < v + n then leafPte (pa + (u - v) * PGSIZE) perm else leaf u

theorem mapRange_zero (leaf : Nat → Nat) (v pa perm : Nat) : mapRange leaf v 0 pa perm = leaf := by
  funext u
  exact if_neg (by omega)

/-- The first page of a range, then the rest of it. -/
theorem mapRange_succ (leaf : Nat → Nat) (v n pa perm : Nat) :
    mapRange (update leaf v (leafPte pa perm)) (v + 1) n (pa + PGSIZE) perm =
      mapRange leaf v (n + 1) pa perm := by
  funext u
  unfold mapRange
  rcases eq_or_ne u v with huv | huv
  · rw [if_neg (by omega), if_pos (by omega), huv, update_self, Nat.sub_self,
      Nat.zero_mul, Nat.add_zero]
  · rw [update_of_ne huv]
    rcases Nat.lt_or_ge u v with hlt | hge
    · rw [if_neg (by omega), if_neg (by omega)]
    · rcases Nat.lt_or_ge u (v + (n + 1)) with hlt | hge'
      · have hpa : pa + PGSIZE + (u - (v + 1)) * PGSIZE = pa + (u - v) * PGSIZE := by
          simp only [PGSIZE]
          omega
        rw [if_pos (by omega), if_pos (by omega), hpa]
      · rw [if_neg (by omega), if_neg (by omega)]

theorem map_mapRange {T T' : Tree} (hv : (v + n) * PGSIZE ≤ MAXVA) (hpa : pa % 4096 = 0)
    (hp : perm < 1024) (hleaf : T'.leaf = mapRange T.leaf v n pa perm) :
    T'.map = extendMap T.map (v * PGSIZE) n pa perm := by
  funext a
  unfold Tree.map extendMap mapRange at *
  rw [hleaf]
  simp only [PGSIZE, MAXVA] at hv ⊢
  by_cases ha : a % 4096 = 0 ∧ a < 2 ^ 38
  · rw [if_pos ha]
    by_cases hr : v ≤ a / 4096 ∧ a / 4096 < v + n
    · have hoff : pa + (a / 4096 - v) * 4096 = pa + (a - v * 4096) := by omega
      rw [if_pos hr, if_pos (by omega), entryOf_leafPte (by omega) hp, hoff]
    · rw [if_neg hr, if_neg (by omega), if_pos ha]
  · rw [if_neg ha, if_neg (by omega), if_neg ha]

theorem map_clearRange {T T' : Tree} (hleaf : T'.leaf = clearRange T.leaf v n) :
    T'.map = removeMap T.map (v * PGSIZE) n := by
  funext a
  unfold Tree.map removeMap clearRange at *
  rw [hleaf]
  simp only [PGSIZE]
  by_cases ha : a % 4096 = 0 ∧ a < 2 ^ 38
  · rw [if_pos ha]
    by_cases hr : v ≤ a / 4096 ∧ a / 4096 < v + n
    · rw [if_pos hr, if_pos (by omega), entryOf_zero]
    · rw [if_neg hr, if_neg (by omega), if_pos ha]
  · rw [if_neg ha]
    split
    · rfl
    · rfl

/-! ## The operations -/

section ops

variable {r : Nat} {s t : Mach} {T : Tree} {H : Multiset Nat} {C : Crit VmPanic Mach}

/-- One round of `mappages`, where a page that is mapped already makes it panic. -/
theorem wp_mapPage_any {Q : Bool → Mach → Prop} (hC : ∀ s, C.inv s) (h : Spine s r T H)
    (hv : v * PGSIZE < MAXVA) (hp : T.leaf v ≠ 0 → C.panic .mappagesRemap)
    (hn : ∀ t T', Shift r s T H t T' H → T'.leaf = T.leaf → Q false t)
    (hs : ∀ t T', Shift r s T H t T' H → T.leaf v = 0 →
      T'.leaf = update T.leaf v (leafPte pa perm) → Q true t) :
    wp C Q (mapPage r (v * PGSIZE) pa perm) s := by
  rcases eq_or_ne (T.leaf v) 0 with h0 | h0
  · have hw : wp Crit.total Q (mapPage r (v * PGSIZE) pa perm) s := by
      refine wp_mapPage h hv h0 (fun t T' g hleaf _ => hn t T' g hleaf) ?_
      intro t T' g hleaf _
      exact hs t T' g h0 hleaf
    exact wp_of_total hw hC
  · have hV : (T.leaf v).testBit 0 = true := by
      by_contra hc
      exact h0 (h.rep.leaf_zero v (Bool.not_eq_true _ ▸ hc))
    have hw : wp Crit.total (fun o t => o.elim (Q false t) fun p =>
        (t.mem p.page p.idx).testBit 0 = true) (walk r (v * PGSIZE) true) s := by
      refine wp_walk_spine h hv (fun t T' g hleaf _ => hn t T' g hleaf) ?_
      intro p t T' g hleaf hslot _
      show (t.mem p.page p.idx).testBit 0 = true
      rw [g.rep.load_slot hslot, hleaf, hV]
    refine wp_seq (wp_of_total hw hC) ?_
    intro o t ho
    cases o with
    | none => exact ho
    | some p =>
      refine (wp_bind _ _).mpr ⟨hC t, ?_⟩
      have hbit : (t.mem p.page p.idx).testBit 0 = true := ho
      show wp C Q (if (t.mem p.page p.idx).testBit 0 then panic .mappagesRemap else _) t
      rw [if_pos hbit]
      exact hp h0

/-- The pages mapped so far are the first `k` of the range. -/
def MappedTo (r : Nat) (s : Mach) (T : Tree) (H : Multiset Nat) (v n pa perm : Nat) (ok : Bool)
    (t : Mach) : Prop :=
  ∃ k T', Shift r s T H t T' H ∧ T'.leaf = mapRange T.leaf v k pa perm ∧
    (if ok then k = n else k < n)

theorem wp_mappagesLoop (hC : ∀ s, C.inv s) (n : Nat) :
    ∀ {v pa : Nat} {s : Mach} {T : Tree}, Spine s r T H → (v + (n + 1)) * PGSIZE ≤ MAXVA →
      ((∃ u, v ≤ u ∧ u < v + (n + 1) ∧ T.leaf u ≠ 0) → C.panic .mappagesRemap) →
      wp C (MappedTo r s T H v (n + 1) pa perm) (mappagesLoop r perm n (v * PGSIZE) pa) s := by
  induction n with
  | zero =>
    intro v pa s T h hv hp
    refine wp_mapPage_any hC h ?_ (fun h0 => hp ⟨v, by omega, by omega, h0⟩) ?_ ?_
    · simp only [PGSIZE] at hv ⊢
      omega
    · intro t T' g hleaf
      exact ⟨0, T', g, by rw [hleaf, mapRange_zero], Nat.one_pos⟩
    · intro t T' g _ hleaf
      refine ⟨1, T', g, ?_, rfl⟩
      rw [← mapRange_succ, mapRange_zero, hleaf]
  | succ n ih =>
    intro v pa s T h hv hp
    unfold mappagesLoop
    rw [wp_bind]
    refine wp_mapPage_any hC h ?_ (fun h0 => hp ⟨v, by omega, by omega, h0⟩) ?_ ?_
    · simp only [PGSIZE] at hv ⊢
      omega
    · intro t T' g hleaf
      exact ⟨0, T', g, by rw [hleaf, mapRange_zero], Nat.succ_pos _⟩
    · intro t T' g h0 hleaf
      rw [show v * PGSIZE + PGSIZE = (v + 1) * PGSIZE from (Nat.succ_mul v PGSIZE).symm]
      refine wp_mono (ih (h.shift g) (by rw [Nat.add_right_comm, Nat.add_assoc]; exact hv) ?_) ?_
      · rintro ⟨u, hu, hun, hu0⟩
        rw [hleaf, update_of_ne (by omega)] at hu0
        exact hp ⟨u, by omega, by omega, hu0⟩
      · rintro ok t' ⟨k, T'', g', hleaf', hk⟩
        refine ⟨k + 1, T'', g.trans g', by rw [hleaf', hleaf, mapRange_succ], ?_⟩
        cases ok with
        | true => exact congrArg Nat.succ hk
        | false => exact Nat.succ_lt_succ hk

/-- Arguments that `mappages` is called with. -/
structure MapArgs (va size pa perm : Nat) : Prop where
  va_aligned : va % PGSIZE = 0
  size_aligned : size % PGSIZE = 0
  size_pos : 0 < size
  va_top : va + size ≤ MAXVA
  pa_aligned : pa % PGSIZE = 0
  pa_top : pa + size ≤ 2 ^ 56
  perm_lt : perm < 1024

theorem wp_mappages_range {va size : Nat} (hC : ∀ s, C.inv s) (h : Spine s r T H)
    (ha : MapArgs va size pa perm)
    (hp : (∃ a, va ≤ a ∧ a < va + size ∧ T.map a ≠ none) → C.panic .mappagesRemap) :
    wp C (MappedTo r s T H (va / PGSIZE) (size / PGSIZE) pa perm) (mappages r va size pa perm) s := by
  obtain ⟨h1, h2, h3, h4, -, -, -⟩ := ha
  have hva : va = va / PGSIZE * PGSIZE := (Nat.div_mul_cancel (Nat.dvd_of_mod_eq_zero h1)).symm
  have hn : size / PGSIZE = size / PGSIZE - 1 + 1 := by
    simp only [PGSIZE] at *
    omega
  unfold mappages
  rw [if_neg (by omega), if_neg (by omega), if_neg (by omega)]
  have hloop := @wp_mappagesLoop perm r H C hC (size / PGSIZE - 1) (va / PGSIZE) pa s T h ?_ ?_
  · rw [← hva, ← hn] at hloop
    exact hloop
  · simp only [PGSIZE] at *
    omega
  · rintro ⟨u, hu, hun, hu0⟩
    have hlt : u * PGSIZE < MAXVA := by
      simp only [PGSIZE] at *
      omega
    refine hp ⟨u * PGSIZE, ?_, ?_, ?_⟩
    · simp only [PGSIZE] at *
      omega
    · simp only [PGSIZE] at *
      omega
    · rw [T.map_page hlt]
      unfold entryOf
      intro hc
      split at hc
      · cases hc
      · rename_i hV
        exact hu0 (h.rep.leaf_zero u (Bool.not_eq_true _ ▸ hV))

/-- The frames that `uvmunmap` frees for the rounds `k` to `n`. -/
def freedFrom (doFree : Bool) (leaf : Nat → Nat) (v n k : Nat) : Multiset Nat :=
  ∑ j ∈ Ico k n, freed doFree (leaf (v + j))

theorem freedFrom_head {k : Nat} (h : k < n) :
    freedFrom doFree leaf v n k = freed doFree (leaf (v + k)) + freedFrom doFree leaf v n (k + 1) :=
  sum_eq_sum_Ico_succ_bot h _

theorem freedFrom_end (doFree : Bool) (leaf : Nat → Nat) (v n : Nat) :
    freedFrom doFree leaf v n n = 0 := by
  unfold freedFrom
  rw [Ico_self, sum_empty]

theorem freedFrom_false (leaf : Nat → Nat) (v n k : Nat) : freedFrom false leaf v n k = 0 :=
  sum_eq_zero fun _ _ => rfl

theorem wp_uvmunmap_range {Q : Unit → Mach → Prop}
    (h : Spine s r T (freedFrom doFree T.leaf v n 0 + H)) (hv : (v + n) * PGSIZE ≤ MAXVA)
    (hQ : ∀ t T', Shift r s T (freedFrom doFree T.leaf v n 0 + H) t T' H →
      T'.leaf = clearRange T.leaf v n → Q () t) :
    wp Crit.total Q (uvmunmap r (v * PGSIZE) n doFree) s := by
  unfold uvmunmap
  rw [if_neg (by simp)]
  refine wp_mono (wp_upto (J := fun k t => ∃ T', Shift r s T (freedFrom doFree T.leaf v n 0 + H) t
    T' (freedFrom doFree T.leaf v n k + H) ∧ T'.leaf = clearRange T.leaf v k) ?_ ?_) ?_
  · exact ⟨T, Shift.refl h, (clearRange_zero _ _).symm⟩
  · intro k t hk hJ
    obtain ⟨T', g, hleaf⟩ := hJ
    have hsame : T'.leaf (v + k) = T.leaf (v + k) := by
      rw [hleaf]
      exact if_neg (by omega)
    rw [freedFrom_head hk, add_assoc, ← hsame] at g
    rw [← Nat.add_mul]
    refine wp_unmapPage_spine (h.shift g) ?_ ?_
    · refine Nat.lt_of_lt_of_le ?_ hv
      exact Nat.mul_lt_mul_of_pos_right (by omega) (by decide)
    · intro u T'' g' hleaf' _ _
      exact ⟨T'', g.trans g', by rw [hleaf', hleaf, clearRange_succ]⟩
  · intro _ t hJ
    obtain ⟨T', g, hleaf⟩ := hJ
    rw [freedFrom_end, zero_add] at g
    exact hQ t T' g hleaf

/-- `uvmclear` panics unless the last-level page exists. -/
theorem wp_uvmclear_any {Q : Unit → Mach → Prop} (hC : ∀ s, C.inv s) (h : Spine s r T H)
    (hv : v * PGSIZE < MAXVA) (hp : C.panic .uvmclear) (hQ : ∀ t T', Shift r s T H t T' H →
      T'.leaf = update T.leaf v (noUser (T.leaf v)) → Q () t) :
    wp C Q (uvmclear r (v * PGSIZE)) s := by
  have hw : wp Crit.total (fun o t => o = T.slot v ∧ t = s) (walk r (v * PGSIZE) false) s :=
    wp_walk_false h.rep hv ⟨rfl, rfl⟩
  refine wp_seq (wp_of_total hw hC) ?_
  rintro o t ⟨rfl, rfl⟩
  cases hs : T.slot v with
  | none => exact hp
  | some p =>
    refine (wp_bind _ _).mpr ⟨hC t, ?_⟩
    show wp C Q (store p (noUser (t.mem p.page p.idx))) t
    rw [h.rep.load_slot hs]
    obtain ⟨q, hq, rfl⟩ := Tree.slot_some hs
    refine ⟨hC _, hQ _ (T.setLeaf v (noUser (T.leaf v))) (Shift.setLeaf h hq ?_) rfl⟩
    intro hc
    have hV : (T.leaf v).testBit 0 = false := by
      rw [noUser_testBit] at hc
      simpa using hc
    rw [h.rep.leaf_zero v hV]
    rfl

/-! ## `walkaddr` of any address -/

/-- The indices of an address are those of its page. -/
theorem PX_page (level va : Nat) : PX level va = PX level (va / PGSIZE * PGSIZE) := by
  unfold PX
  rw [Nat.pow_add, ← Nat.div_div_eq_div_mul, ← Nat.div_div_eq_div_mul,
    Nat.mul_div_cancel _ (by decide)]

theorem walkaddr_page (r va : Nat) : walkaddr r va = walkaddr r (va / PGSIZE * PGSIZE) := by
  have hiff : va ≥ MAXVA ↔ va / PGSIZE * PGSIZE ≥ MAXVA := by
    simp only [PGSIZE, MAXVA]
    omega
  unfold walkaddr walk walkLevel
  simp only [← PX_page, hiff]

/-- The look-up that `walkaddr` is. -/
def userAddr : Option (Nat × Nat) → Option Nat
  | none => none
  | some (pa, flags) => if flags.testBit 4 then some pa else none

theorem userAddr_entryOf (pte : Nat) :
    userAddr (entryOf pte) =
      if pte.testBit 0 = true ∧ pte.testBit 4 = true then some (PTE2PA pte) else none := by
  have h4 : (PTE_FLAGS pte).testBit 4 = pte.testBit 4 := by
    unfold PTE_FLAGS
    rw [show 1024 = 2 ^ 10 from rfl, Nat.testBit_mod_two_pow]
    simp
  unfold entryOf
  cases h0 : pte.testBit 0 with
  | false => simp [userAddr]
  | true => simp [userAddr, h4]

theorem wp_walkaddr_map (h : Rep s.mem r T) (va : Nat) :
    wp Crit.total (fun o t => o = userAddr (T.map (PGROUNDDOWN va)) ∧ t = s) (walkaddr r va) s := by
  rw [walkaddr_page]
  unfold PGROUNDDOWN
  rcases Nat.lt_or_ge (va / PGSIZE * PGSIZE) MAXVA with hlt | hge
  · rw [T.map_page hlt, userAddr_entryOf]
    refine wp_walkaddr h ?_ ?_
    · intro hn
      exact ⟨(if_neg fun hc => hn ⟨hlt, hc⟩).symm, rfl⟩
    · intro _ hV hU
      exact ⟨(if_pos ⟨hV, hU⟩).symm, rfl⟩
  · have hnone : T.map (va / PGSIZE * PGSIZE) = none := if_neg (by omega)
    rw [hnone]
    refine wp_walkaddr h (fun _ => ⟨rfl, rfl⟩) ?_
    intro hlt
    omega

end ops

/-! ## Freed pages -/

/-- The pages mapped in the range are allocated pages that are used for nothing else. -/
structure Freeable (s : Mach) (r va n : Nat) : Prop where
  allocated : ∀ a e, va ≤ a → a < va + n * PGSIZE → pageMap s.mem r a = some e →
    IsFrame s e.1 ∧ e.1 ∉ s.freelist
  no_table : ∀ a e, va ≤ a → a < va + n * PGSIZE → pageMap s.mem r a = some e →
    e.1 ≠ r ∧ ∀ i, interior s.mem r i ≠ some e.1
  once : ∀ a b e e', va ≤ a → a < va + n * PGSIZE → va ≤ b → b < va + n * PGSIZE →
    pageMap s.mem r a = some e → pageMap s.mem r b = some e' → e.1 = e'.1 → a = b

theorem mem_freedFrom {k : Nat} (h : f ∈ freedFrom true leaf v n k) :
    ∃ j, k ≤ j ∧ j < n ∧ (leaf (v + j)).testBit 0 = true ∧ PTE2PA (leaf (v + j)) = f := by
  obtain ⟨j, hj, hf⟩ := mem_sum.mp h
  obtain ⟨hk, hn⟩ := mem_Ico.mp hj
  exact ⟨j, hk, hn, mem_leafFrame.mp hf⟩

/-- Frames mapped once in the range are freed once. -/
theorem nodup_freedFrom (h : ∀ i j, i < n → j < n → (leaf (v + i)).testBit 0 = true →
      (leaf (v + j)).testBit 0 = true → PTE2PA (leaf (v + i)) = PTE2PA (leaf (v + j)) → i = j)
    (d : Nat) : ∀ k, k + d = n → (freedFrom true leaf v n k).Nodup := by
  induction d with
  | zero =>
    intro k hk
    rw [← hk, Nat.add_zero, freedFrom_end]
    exact nodup_zero
  | succ d ih =>
    intro k hk
    rw [freedFrom_head (by omega), nodup_add]
    refine ⟨?_, ih (k + 1) (by omega), ?_⟩
    · rw [freed_true]
      unfold leafFrame
      split
      · exact nodup_singleton _
      · exact nodup_zero
    · refine disjoint_left.mpr ?_
      intro f hf hf'
      obtain ⟨hV, hfk⟩ := mem_leafFrame.mp hf
      obtain ⟨j, hkj, hjn, hVj, hfj⟩ := mem_freedFrom hf'
      have := h k j (by omega) hjn hV hVj (hfk.trans hfj.symm)
      omega

variable {r : Nat} {s : Mach}

theorem Freeable.spine {T : Tree} (h : Spine s r T 0)
    (hv : (v + n) * PGSIZE ≤ MAXVA) (hf : Freeable s r (v * PGSIZE) n) :
    Spine s r T (freedFrom true T.leaf v n 0 + 0) := by
  obtain ⟨hrep, hnd, hframes⟩ := h
  rw [add_zero] at hnd hframes ⊢
  have hmap := hrep.pageMap_eq
  -- a valid entry in the range, as the map has it
  have hentry : ∀ j, j < n → (T.leaf (v + j)).testBit 0 = true →
      v * PGSIZE ≤ (v + j) * PGSIZE ∧ (v + j) * PGSIZE < v * PGSIZE + n * PGSIZE ∧
      pageMap s.mem r ((v + j) * PGSIZE) =
        some (PTE2PA (T.leaf (v + j)), PTE_FLAGS (T.leaf (v + j))) := by
    intro j hj hV
    have hlt : (v + j) * PGSIZE < MAXVA := by
      simp only [PGSIZE] at *
      omega
    refine ⟨Nat.mul_le_mul_right _ (Nat.le_add_right v j), ?_, ?_⟩
    · rw [← Nat.add_mul]
      exact Nat.mul_lt_mul_of_pos_right (by omega) (by decide)
    · rw [hmap, T.map_page hlt]
      exact if_pos hV
  refine ⟨hrep, ?_, ?_⟩
  · rw [nodup_add]
    refine ⟨hnd, nodup_freedFrom ?_ n 0 (Nat.zero_add n), ?_⟩
    · intro i j hi hj hVi hVj heq
      obtain ⟨hi1, hi2, hi3⟩ := hentry i hi hVi
      obtain ⟨hj1, hj2, hj3⟩ := hentry j hj hVj
      have hij := hf.once _ _ _ _ hi1 hi2 hj1 hj2 hi3 hj3 heq
      simp only [PGSIZE] at hij
      omega
    · refine disjoint_left.mpr ?_
      intro f hfs hff
      obtain ⟨j, -, hj, hV, rfl⟩ := mem_freedFrom hff
      obtain ⟨h1, h2, h3⟩ := hentry j hj hV
      have hfree := (hf.allocated _ _ h1 h2 h3).2
      have htab := hf.no_table _ _ h1 h2 h3
      rcases mem_cons.mp hfs with hr | hfs
      · exact htab.1 hr
      · rcases mem_add.mp hfs with hnode | hL
        · obtain ⟨e, he⟩ := hrep.mem_interior hnode
          exact htab.2 e he
        · exact hfree (mem_coe.mp hL)
  · intro f hfm
    rcases mem_add.mp hfm with hs | hff
    · exact hframes f hs
    · obtain ⟨j, -, hj, hV, rfl⟩ := mem_freedFrom hff
      obtain ⟨h1, h2, h3⟩ := hentry j hj hV
      exact (hf.allocated _ _ h1 h2 h3).1

/-! ## Every page table that is built -/

/-- The rest of the kernel at work: it may allocate, free and write any frames but the page-table
    pages of `r`. -/
structure Elsewhere (r : Nat) (s t : Mach) : Prop where
  kend : t.kend = s.kend
  root : t.mem r = s.mem r
  pages : ∀ e f, interior s.mem r e = some f → t.mem f = s.mem f
  free_nodup : t.freelist.Nodup
  free_frames : ∀ f ∈ t.freelist, IsFrame t f
  free_root : r ∉ t.freelist
  free_pages : ∀ e f, interior s.mem r e = some f → f ∉ t.freelist

inductive Built : Nat → Mach → Prop
  | create {r : Nat} {s t : Mach} (hnd : s.freelist.Nodup)
      (hfr : ∀ f ∈ s.freelist, IsFrame s f) (hrun : uvmcreate.run s = .done (some r) t) : Built r t
  | mappages {r : Nat} {s t : Mach} {va size pa perm : Nat} {ok : Bool} (h : Built r s)
      (ha : MapArgs va size pa perm)
      (hrun : (mappages r va size pa perm).run s = .done ok t) : Built r t
  | uvmunmap {r : Nat} {s t : Mach} {va n : Nat} {doFree : Bool} (h : Built r s)
      (hva : va % PGSIZE = 0) (htop : va + n * PGSIZE ≤ MAXVA)
      (hf : doFree = true → Freeable s r va n)
      (hrun : (uvmunmap r va n doFree).run s = .done () t) : Built r t
  | uvmclear {r : Nat} {s t : Mach} {va : Nat} (h : Built r s) (hva : va % PGSIZE = 0)
      (htop : va < MAXVA) (hrun : (uvmclear r va).run s = .done () t) : Built r t
  | elsewhere {r : Nat} {s t : Mach} (h : Built r s) (he : Elsewhere r s t) : Built r t

/-- Panics are tolerated: they end the run. -/
def mayPanic : Crit VmPanic Mach := ⟨fun _ => True, fun _ => True, False⟩

theorem spine_create {t : Mach} (hnd : s.freelist.Nodup)
    (hfr : ∀ f ∈ s.freelist, IsFrame s f) (hrun : uvmcreate.run s = .done (some r) t) :
    Spine t r Tree.empty 0 := by
  have hw : wp Crit.total (fun o t => o = some r → Spine t r Tree.empty 0) uvmcreate s := by
    refine wp_uvmcreate (H := 0) (fun t _ hc => nomatch hc) ?_
    intro x u m hrep hx
    rw [Option.some.inj hx] at m hrep
    have hframes := m.frames
    rw [add_zero] at hframes
    have hown : Own r Tree.empty + ↑u.freelist = Skeleton r Tree.empty u.freelist + 0 := by
      rw [show Own r Tree.empty = r ::ₘ (Tree.empty.nodes + Tree.empty.pages) from rfl,
        pages_zero rfl, add_zero, add_zero, cons_add]
      rfl
    rw [hown] at hframes
    refine ⟨hrep, ?_, ?_⟩
    · rw [hframes]
      exact coe_nodup.mpr hnd
    · rw [hframes]
      intro f hf
      have := hfr f (mem_coe.mp hf)
      unfold IsFrame at this ⊢
      rw [m.kend]
      exact this
  exact wp_run_done hw hrun rfl

theorem spine_elsewhere {t : Mach} {T : Tree} (h : Spine s r T 0)
    (he : Elsewhere r s t) : Spine t r T 0 := by
  have hint : ∀ f, f ∈ T.nodes → ∃ e, interior s.mem r e = some f :=
    fun f hf => h.rep.mem_interior hf
  obtain ⟨hrep, hnd, hframes⟩ := h
  rw [add_zero] at hnd hframes
  unfold Skeleton at hnd hframes
  rw [← cons_add] at hnd hframes
  refine ⟨hrep.congr ?_, ?_, ?_⟩
  · intro f hf
    rcases mem_cons.mp hf with hr | hn
    · rw [hr]
      exact he.root
    · obtain ⟨e, hef⟩ := hint f hn
      exact he.pages e f hef
  · rw [add_zero]
    unfold Skeleton
    rw [← cons_add, nodup_add]
    refine ⟨(nodup_add.mp hnd).1, coe_nodup.mpr he.free_nodup, ?_⟩
    refine disjoint_left.mpr ?_
    intro f hf hL
    rcases mem_cons.mp hf with hr | hn
    · rw [hr] at hL
      exact he.free_root (mem_coe.mp hL)
    · obtain ⟨e, hef⟩ := hint f hn
      exact he.free_pages e f hef (mem_coe.mp hL)
  · rw [add_zero]
    unfold Skeleton
    rw [← cons_add]
    intro f hf
    rcases mem_add.mp hf with ht | hL
    · have := hframes f (mem_add.mpr (Or.inl ht))
      unfold IsFrame at this ⊢
      rw [he.kend]
      exact this
    · exact he.free_frames f (mem_coe.mp hL)

/-- One `uvmunmap`, from a spine to a spine. -/
theorem wp_uvmunmap_map {T : Tree} {va : Nat} (h : Spine s r T 0)
    (hva : va % PGSIZE = 0) (htop : va + n * PGSIZE ≤ MAXVA)
    (hf : doFree = true → Freeable s r va n) :
    wp Crit.total (fun _ t => ∃ T', Spine t r T' 0 ∧ T'.map = removeMap T.map va n)
      (uvmunmap r va n doFree) s := by
  have hv : va = va / PGSIZE * PGSIZE := (Nat.div_mul_cancel (Nat.dvd_of_mod_eq_zero hva)).symm
  have htop' : (va / PGSIZE + n) * PGSIZE ≤ MAXVA := by
    rw [Nat.add_mul, ← hv]
    exact htop
  have hs : Spine s r T (freedFrom doFree T.leaf (va / PGSIZE) n 0 + 0) := by
    cases doFree with
    | false =>
      rw [freedFrom_false]
      exact h
    | true =>
      refine Freeable.spine h htop' ?_
      rw [← hv]
      exact hf rfl
  rw [hv]
  refine wp_uvmunmap_range hs htop' ?_
  intro t T' g hleaf
  exact ⟨T', hs.shift g, map_clearRange hleaf⟩

/-- Every page table that is built is a tree on pages of its own. -/
theorem spine_of_built (h : Built r s) : ∃ T, Spine s r T 0 := by
  induction h with
  | create hnd hfr hrun => exact ⟨_, spine_create hnd hfr hrun⟩
  | mappages _ ha hrun ih =>
    obtain ⟨T, hT⟩ := ih
    have hw := wp_mappages_range (C := mayPanic) (fun _ => trivial) hT ha (fun _ => trivial)
    obtain ⟨k, T', g, -, -⟩ := wp_run_done hw hrun
    exact ⟨T', hT.shift g⟩
  | uvmunmap _ hva htop hf hrun ih =>
    obtain ⟨T, hT⟩ := ih
    obtain ⟨T', hT', -⟩ := wp_run_done (wp_uvmunmap_map hT hva htop hf) hrun
    exact ⟨T', hT'⟩
  | uvmclear _ hva htop hrun ih =>
    rename_i s t va _
    obtain ⟨T, hT⟩ := ih
    have hv : va = va / PGSIZE * PGSIZE := (Nat.div_mul_cancel (Nat.dvd_of_mod_eq_zero hva)).symm
    have hw : wp mayPanic (fun _ t => ∃ T', Spine t r T' 0) (uvmclear r va) s := by
      rw [hv] at htop ⊢
      refine wp_uvmclear_any (fun _ => trivial) hT htop trivial ?_
      intro t T' g _
      exact ⟨T', hT.shift g⟩
    exact wp_run_done hw hrun
  | elsewhere _ he ih =>
    obtain ⟨T, hT⟩ := ih
    exact ⟨T, spine_elsewhere hT he⟩

/-- The page tables that are built are finite maps: `mappages` over unmapped pages returns and
    extends the map by its whole range, or, returning -1, by the first pages of it; `uvmunmap`
    returns and removes its range; `walkaddr` looks an address up; and interior entries lead to
    different pages. -/
theorem page_table_map {r : Nat} {s : Mach} (hb : Built r s) :
    (∀ va size pa perm, MapArgs va size pa perm →
      (∀ a, va ≤ a → a < va + size → pageMap s.mem r a = none) →
      ∃ ok t n, (mappages r va size pa perm).run s = .done ok t ∧
        pageMap t.mem r = extendMap (pageMap s.mem r) va n pa perm ∧
        if ok then n = size / PGSIZE else n < size / PGSIZE) ∧
    (∀ va n doFree, va % PGSIZE = 0 → va + n * PGSIZE ≤ MAXVA →
      (doFree = true → Freeable s r va n) →
      ∃ t, (uvmunmap r va n doFree).run s = .done () t ∧
        pageMap t.mem r = removeMap (pageMap s.mem r) va n) ∧
    (∀ va, (walkaddr r va).run s =
      .done (userAddr (pageMap s.mem r (PGROUNDDOWN va))) s) ∧
    ∀ e e' f, interior s.mem r e = some f → interior s.mem r e' = some f → e = e' := by
  obtain ⟨T, hT⟩ := spine_of_built hb
  rw [hT.rep.pageMap_eq]
  refine ⟨?_, ?_, ?_, ?_⟩
  · intro va size pa perm ha hfree
    have hw := wp_mappages_range (C := Crit.total) (fun _ => trivial) hT ha ?_
    · obtain ⟨ok, t, hrun, k, T', g, hleaf, hk⟩ := wp_run_total hw
      refine ⟨ok, t, k, hrun, ?_, hk⟩
      obtain ⟨h1, h2, h3, h4, h5, -, h7⟩ := ha
      have hva : va = va / PGSIZE * PGSIZE :=
        (Nat.div_mul_cancel (Nat.dvd_of_mod_eq_zero h1)).symm
      have hle : k ≤ size / PGSIZE := by
        cases ok with
        | true => exact Nat.le_of_eq hk
        | false => exact Nat.le_of_lt hk
      rw [g.rep.pageMap_eq, map_mapRange ?_ h5 h7 hleaf, ← hva]
      simp only [PGSIZE] at *
      omega
    · rintro ⟨a, ha1, ha2, hne⟩
      exact hne (hfree a ha1 ha2)
  · intro va n doFree hva htop hf
    obtain ⟨_, t, hrun, T', hT', hmap⟩ := wp_run_total (wp_uvmunmap_map hT hva htop hf)
    exact ⟨t, hrun, by rw [hT'.rep.pageMap_eq, hmap]⟩
  · intro va
    obtain ⟨o, t, hrun, ho, ht⟩ := wp_run_total (wp_walkaddr_map hT.rep va)
    rw [hrun, ho, ht]
  · intro e e' f he he'
    exact hT.rep.interior_inj he he'

/-- Three free pages, and memory full of ones. -/
def mapSample : Mach :=
  ⟨KERNBASE, 0, fun _ _ => 1, [KERNBASE, KERNBASE + PGSIZE, KERNBASE + 2 * PGSIZE], []⟩

theorem mapSample_built {t : Mach} (hrun : uvmcreate.run mapSample = .done (some r) t) :
    Built r t := by
  refine Built.create (by decide) ?_ hrun
  show ∀ f ∈ [KERNBASE, KERNBASE + PGSIZE, KERNBASE + 2 * PGSIZE],
    f % PGSIZE = 0 ∧ KERNBASE ≤ f ∧ f < PHYSTOP
  decide

theorem page_table_map_small : ∃ s t, uvmcreate.run mapSample = .done (some KERNBASE) s ∧
    (mappages KERNBASE PGSIZE PGSIZE 0 PTE_U).run s = .done true t ∧
    (walkaddr KERNBASE (PGSIZE + 5)).run t = .done (some 0) t := by
  have hargs : MapArgs PGSIZE PGSIZE 0 PTE_U :=
    ⟨rfl, rfl, by decide, by decide, rfl, by decide, by decide⟩
  refine ⟨_, _, rfl, rfl, ?_⟩
  have hb := @Built.mappages KERNBASE _ _ PGSIZE PGSIZE 0 PTE_U true (mapSample_built rfl) hargs rfl
  exact (page_table_map hb).2.2.1 (PGSIZE + 5)

/-- The last-level page of a page table is mapped at `PGSIZE`, and nothing at `2 * PGSIZE`. -/
structure MapsTable (t : Mach) : Prop where
  built : Built KERNBASE t
  kend : t.kend = KERNBASE
  root : t.mem KERNBASE 0 = link (some (KERNBASE + PGSIZE))
  mid : t.mem (KERNBASE + PGSIZE) 0 = link (some (KERNBASE + 2 * PGSIZE))
  self : t.mem (KERNBASE + 2 * PGSIZE) 1 = leafPte (KERNBASE + 2 * PGSIZE) PTE_R
  next : t.mem (KERNBASE + 2 * PGSIZE) 2 = 0

theorem treeOf_low_zero {mem : Nat → Nat → Nat} {m q : Nat} (hroot : mem r 0 = link (some m))
    (hmid : mem m 0 = link (some q)) (hm : m % 4096 = 0) (hq : q % 4096 = 0) :
    (treeOf mem r).low 0 = some q := by
  have hmid' : (treeOf mem r).mid 0 = some m := by
    show (if (mem r 0).testBit 0 then some (PTE2PA (mem r 0)) else none) = _
    rw [hroot, link_valid, if_pos (Option.isSome_some), PTE2PA_link hm]
  show ((treeOf mem r).mid 0).bind (fun f =>
    if (mem f 0).testBit 0 then some (PTE2PA (mem f 0)) else none) = _
  rw [hmid', Option.bind_some, hmid, link_valid, if_pos (Option.isSome_some), PTE2PA_link hq]

/-- The entry for `2 * PGSIZE`. -/
theorem pageMap_two {mem : Nat → Nat → Nat} {q : Nat} (hlow : (treeOf mem r).low 0 = some q) :
    pageMap mem r (2 * PGSIZE) = entryOf (mem q 2) := by
  unfold pageMap
  show entryOf ((((treeOf mem r).low 0).map fun g => mem g 2).getD 0) = _
  rw [hlow]
  rfl

theorem MapsTable.unmap {t : Mach} (h : MapsTable t) : (uvmunmap KERNBASE PGSIZE 1 true).run t =
    .done () ((t.kfree (KERNBASE + 2 * PGSIZE)).store ⟨KERNBASE + 2 * PGSIZE, 1⟩ 0) := by
  obtain ⟨T, hT⟩ := spine_of_built h.built
  have hslot : T.slot 1 = some ⟨KERNBASE + 2 * PGSIZE, 1⟩ := by
    have hlow := treeOf_low_zero h.root h.mid (by decide) (by decide)
    rw [hT.rep.treeOf_eq] at hlow
    show (T.low 0).map _ = _
    rw [hlow]
    rfl
  have hframe : IsFrame t (KERNBASE + 2 * PGSIZE) := by
    unfold IsFrame
    rw [h.kend]
    decide
  have hw : wp Crit.total (fun _ u =>
      u = (t.kfree (KERNBASE + 2 * PGSIZE)).store ⟨KERNBASE + 2 * PGSIZE, 1⟩ 0)
      (uvmunmap KERNBASE PGSIZE 1 true) t := by
    unfold uvmunmap
    rw [upto_succ, upto_zero]
    show wp Crit.total _ (unmapPage KERNBASE (1 * PGSIZE) true) t
    unfold unmapPage
    rw [wp_bind]
    refine wp_walk_false hT.rep (by decide) ?_
    rw [hslot]
    simp only [wp_bind]
    refine wp_load _ ?_
    rw [h.self, if_pos (leafPte_valid _ _), if_pos trivial,
      wp_bind]
    exact wp_kfree hframe (wp_store _ _ rfl)
  obtain ⟨_, u, hrun, rfl⟩ := wp_run_total hw
  exact hrun

/-- The last-level page mapped into its own address space and freed with that mapping: a page that
    was not mapped is mapped now, with the junk that `kfree` left. -/
theorem unmap_own_table : ∃ s t u, uvmcreate.run mapSample = .done (some KERNBASE) s ∧
    MapArgs PGSIZE PGSIZE (KERNBASE + 2 * PGSIZE) PTE_R ∧
    (mappages KERNBASE PGSIZE PGSIZE (KERNBASE + 2 * PGSIZE) PTE_R).run s = .done true t ∧
    (uvmunmap KERNBASE PGSIZE 1 true).run t = .done () u ∧
    pageMap t.mem KERNBASE (2 * PGSIZE) = none ∧
    pageMap u.mem KERNBASE (2 * PGSIZE) ≠
      removeMap (pageMap t.mem KERNBASE) PGSIZE 1 (2 * PGSIZE) := by
  have hargs : MapArgs PGSIZE PGSIZE (KERNBASE + 2 * PGSIZE) PTE_R :=
    ⟨rfl, rfl, by decide, by decide, rfl, by decide, by decide⟩
  obtain ⟨s, t, hs, hmap, ht⟩ : ∃ s t, uvmcreate.run mapSample = .done (some KERNBASE) s ∧
      (mappages KERNBASE PGSIZE PGSIZE (KERNBASE + 2 * PGSIZE) PTE_R).run s = .done true t ∧
      MapsTable t :=
    ⟨_, _, rfl, rfl, .mappages (mapSample_built rfl) hargs rfl, rfl, rfl, rfl, rfl, rfl⟩
  have hnone : pageMap t.mem KERNBASE (2 * PGSIZE) = none := by
    rw [pageMap_two (treeOf_low_zero ht.root ht.mid (by decide) (by decide)), ht.next]
    rfl
  refine ⟨s, t, _, hs, hargs, hmap, ht.unmap, hnone, ?_⟩
  have hremove : removeMap (pageMap t.mem KERNBASE) PGSIZE 1 (2 * PGSIZE) = none := by
    unfold removeMap
    exact hnone
  -- neither of the pages above it has changed
  have hlow : (treeOf ((t.kfree (KERNBASE + 2 * PGSIZE)).store ⟨KERNBASE + 2 * PGSIZE, 1⟩ 0).mem
      KERNBASE).low 0 = some (KERNBASE + 2 * PGSIZE) :=
    treeOf_low_zero ht.root ht.mid (by decide) (by decide)
  rw [hremove, pageMap_two hlow]
  show entryOf 0x0101010101010101 ≠ none
  decide

end Xv6
