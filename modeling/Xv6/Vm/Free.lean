/-
  `freewalk` and `uvmfree`: a page table without user mappings goes back to the free list.

  `Subtree mem l pg F` describes a page-table page with `l` levels below it that maps nothing;
  `F` are the pages of the subtree.  The recursion of `freewalk` follows this definition, and
  frees exactly `F` (`wp_freewalk`).
-/
import Xv6.Vm.Uvm

namespace Xv6

open Lib Lib.Prog Finset
open Multiset (cons_coe mem_add mem_cons_of_mem mem_sum singleton_add)

/-- A page-table page `pg` with `l` levels below it and no leaf entry. -/
def Subtree (mem : Nat → Nat → Nat) : Nat → Nat → Multiset Nat → Prop
  | 0, pg, F => F = {pg} ∧ ∀ i, i < 512 → (mem pg i).testBit 0 = false
  | l + 1, pg, F => ∃ (child : Nat → Option Nat) (sub : Nat → Multiset Nat),
      F = pg ::ₘ ∑ i ∈ entries, sub i ∧ (∀ i, i < 512 → mem pg i = link (child i)) ∧
      (∀ i, i < 512 → child i = none → sub i = 0) ∧
      ∀ i f, i < 512 → child i = some f → f % 4096 = 0 ∧ Subtree mem l f (sub i)

variable {pg : Nat} {F : Multiset Nat} {t : Mach} {sub : Nat → Multiset Nat}

theorem Subtree.mem_self {mem : Nat → Nat → Nat} {l : Nat} (h : Subtree mem l pg F) : pg ∈ F := by
  cases l with
  | zero =>
    rw [h.1]
    exact Multiset.mem_singleton_self pg
  | succ l =>
    obtain ⟨child, sub, hF, -⟩ := h
    rw [hF]
    exact Multiset.mem_cons_self _ _

theorem Subtree.congr {mem mem' : Nat → Nat → Nat} :
    ∀ {l pg : Nat} {F : Multiset Nat}, Subtree mem l pg F → (∀ f ∈ F, mem' f = mem f) →
      Subtree mem' l pg F
  | 0, pg, F, h, hm => by
    refine ⟨h.1, ?_⟩
    rw [hm pg h.mem_self]
    exact h.2
  | l + 1, pg, F, h, hm => by
    have hpg := hm pg h.mem_self
    obtain ⟨child, sub, hF, hlink, hnone, hsome⟩ := h
    refine ⟨child, sub, hF, ?_, hnone, ?_⟩
    · rw [hpg]
      exact hlink
    · intro i f hi hf
      obtain ⟨hal, hsub⟩ := hsome i f hi hf
      refine ⟨hal, hsub.congr ?_⟩
      intro g hg
      refine hm g ?_
      rw [hF]
      exact mem_cons_of_mem (mem_sum.mpr ⟨i, mem_entries.mpr hi, hg⟩)

/-- What freeing the frames `F` does: they are on the free list, and nothing else changed. -/
structure Freed (F : Multiset Nat) (s t : Mach) : Prop where
  free : (↑t.freelist : Multiset Nat) = F + ↑s.freelist
  mem : ∀ f, f ∉ F → t.mem f = s.mem f
  kend : t.kend = s.kend
  trampoline : t.trampoline = s.trampoline

theorem Freed.kfree (s : Mach) (x : Nat) :
    Freed {x} s (s.kfree x) := by
  refine ⟨?_, ?_, rfl, rfl⟩
  · rw [kfree_freelist, ← cons_coe, singleton_add]
  · intro f hf
    exact mem_of_kfree (ne_of_mem_of_not_mem (Multiset.mem_singleton_self x) hf).symm

theorem Freed.moves {s : Mach} (h : Freed F s t) : Moves s F t 0 := by
  refine ⟨?_, ?_, h.kend, h.trampoline⟩
  · rw [zero_add, h.free]
  · intro f hf
    exact h.mem f fun hF => hf (mem_add.mpr (Or.inl hF))

/-- The loop invariant of `freewalk` before entry `i`: the subtrees before it are free, the page
    itself has only been written before it. -/
structure FreeingAt (pg : Nat) (sub : Nat → Multiset Nat) (s : Mach) (i : Nat) (t : Mach) :
    Prop where
  free : (↑t.freelist : Multiset Nat) = ∑ j ∈ range i, sub j + ↑s.freelist
  mem : ∀ f, f ≠ pg → f ∉ ∑ j ∈ range i, sub j → t.mem f = s.mem f
  page : ∀ j, i ≤ j → t.mem pg j = s.mem pg j
  kend : t.kend = s.kend
  trampoline : t.trampoline = s.trampoline

theorem FreeingAt.done {s : Mach} (h : FreeingAt pg sub s 512 t) :
    Freed (pg ::ₘ ∑ i ∈ entries, sub i) s (t.kfree pg) := by
  have hent : entries = range 512 := by
    unfold entries
    rfl
  rw [hent]
  refine ⟨?_, ?_, h.kend, h.trampoline⟩
  · rw [kfree_freelist, ← cons_coe, h.free, Multiset.cons_add]
  · intro f hf
    rw [Multiset.mem_cons, not_or] at hf
    rw [mem_of_kfree hf.1, h.mem f hf.1 hf.2]

/-- An entry without a child is skipped. -/
theorem FreeingAt.skip {i : Nat} {s : Mach} (h : FreeingAt pg sub s i t) (h0 : sub i = 0) :
    FreeingAt pg sub s (i + 1) t := by
  refine ⟨?_, ?_, ?_, h.kend, h.trampoline⟩
  · rw [sum_range_succ, h0, add_zero]
    exact h.free
  · rw [sum_range_succ, h0, add_zero]
    exact h.mem
  · intro j hj
    exact h.page j (by omega)

/-- A child is freed and its entry cleared. -/
theorem FreeingAt.child {i : Nat} {s u : Mach} (h : FreeingAt pg sub s i t) (hpg : pg ∉ sub i)
    (hu : Freed (sub i) t u) : FreeingAt pg sub s (i + 1) (u.store ⟨pg, i⟩ 0) := by
  refine ⟨?_, ?_, ?_, hu.kend.trans h.kend, hu.trampoline.trans h.trampoline⟩
  · show (↑u.freelist : Multiset Nat) = _
    rw [hu.free, h.free, sum_range_succ]
    abel
  · intro f hf hfs
    rw [sum_range_succ, mem_add, not_or] at hfs
    rw [Mach.store, setPage_of_ne hf, hu.mem f hfs.2, h.mem f hf hfs.1]
  · intro j hj
    rw [Mach.store, setPage_self, if_neg (show j ≠ i by omega), hu.mem pg hpg]
    exact h.page j (by omega)

theorem wp_freewalk (l : Nat) {s : Mach} (h : Subtree s.mem l pg F) (hnd : F.Nodup)
    (hF : ∀ f ∈ F, IsFrame s f) : wp Crit.total (fun _ t => Freed F s t) (freewalk l pg) s := by
  induction l generalizing s pg F with
  | zero =>
    unfold freewalk
    rw [wp_bind]
    refine wp_mono (wp_upto (J := fun _ t => t = s) rfl ?_) ?_
    · intro i t hi ht
      subst ht
      rw [wp_bind]
      refine wp_load _ ?_
      rw [h.2 i hi]
      exact rfl
    · intro _ t ht
      subst ht
      refine wp_kfree (hF pg h.mem_self) ?_
      rw [h.1]
      exact Freed.kfree t pg
  | succ l ih =>
    have hself := hF pg h.mem_self
    obtain ⟨child, sub, hFeq, hlink, hnone, hsome⟩ := h
    rw [hFeq] at hnd
    obtain ⟨hpg, hsubs⟩ := Multiset.nodup_cons.mp hnd
    have hin : ∀ i f, i < 512 → f ∈ sub i → f ∈ ∑ i ∈ entries, sub i := by
      intro i f hi hf
      exact mem_sum.mpr ⟨i, mem_entries.mpr hi, hf⟩
    unfold freewalk
    rw [wp_bind]
    refine wp_mono (wp_upto (J := FreeingAt pg sub s) ?_ ?_) ?_
    · exact ⟨by rw [sum_range_zero, zero_add], fun _ _ _ => rfl, fun _ _ => rfl, rfl, rfl⟩
    · intro i t hi hJ
      rw [wp_bind]
      refine wp_load _ ?_
      rw [hJ.page i (le_refl i), hlink i hi, link_valid,
        link_not_leaf (child i) (by decide : (1 : Nat) ≠ 0) (by decide),
        link_not_leaf (child i) (by decide : (2 : Nat) ≠ 0) (by decide),
        link_not_leaf (child i) (by decide : (3 : Nat) ≠ 0) (by decide)]
      cases hc : child i with
      | none =>
        exact hJ.skip (hnone i hi hc)
      | some f =>
        obtain ⟨hal, hsub⟩ := hsome i f hi hc
        rw [PTE2PA_link hal]
        -- what has been freed so far is not in this child's subtree
        have hsame : ∀ g ∈ sub i, t.mem g = s.mem g := by
          intro g hg
          refine hJ.mem g ?_ ?_
          · intro hgp
            rw [hgp] at hg
            exact hpg (hin i pg hi hg)
          · intro hmem
            obtain ⟨j, hj, hgj⟩ := mem_sum.mp hmem
            rw [mem_range] at hj
            have := nodup_sum_inj hsubs (mem_entries.mpr hi)
              (mem_entries.mpr (Nat.lt_trans hj hi)) hg hgj
            omega
        have hframe : ∀ g ∈ sub i, IsFrame t g := by
          intro g hg
          have := hF g (by rw [hFeq]; exact mem_cons_of_mem (hin i g hi hg))
          unfold IsFrame at this ⊢
          rw [hJ.kend]
          exact this
        refine wp_seq (ih (hsub.congr hsame)
          (nodup_of_nodup_sum hsubs (mem_entries.mpr hi)) hframe) ?_
        intro _ u hu
        refine wp_store _ _ (hJ.child ?_ hu)
        intro hp
        exact hpg (hin i pg hi hp)
    · intro _ t hJ
      refine wp_kfree ?_ ?_
      · unfold IsFrame at hself ⊢
        rw [hJ.kend]
        exact hself
      · rw [hFeq]
        exact hJ.done

/-! ## A page table as subtree -/

theorem Rep.subtree {mem : Nat → Nat → Nat} {r : Nat} {T : Tree} (h : Rep mem r T)
    (hleaf : T.leaf = fun _ => 0) : Subtree mem 2 r (r ::ₘ T.nodes) := by
  refine ⟨T.mid, T.piece, rfl, h.root, ?_, ?_⟩
  · intro i _ hi
    have hlow : ∀ j ∈ entries, optFrame (T.low (i * 512 + j)) = 0 := by
      intro j hj
      rw [mem_entries] at hj
      rw [h.low_none (i * 512 + j) (by rw [show (i * 512 + j) / 512 = i by omega]; exact hi)]
      rfl
    rw [T.piece_eq, hi, sum_eq_zero hlow]
    rfl
  · intro i f _ hi
    refine ⟨h.aligned f (h.mid_mem hi), ?_⟩
    refine ⟨fun j => T.low (i * 512 + j), fun j => optFrame (T.low (i * 512 + j)),
      ?_, ?_, ?_, ?_⟩
    · rw [T.piece_eq, hi]
      exact singleton_add _ _
    · intro j hj
      have hm := h.mid (i * 512 + j) f (by rw [show (i * 512 + j) / 512 = i by omega]; exact hi)
      rw [show (i * 512 + j) % 512 = j by omega] at hm
      exact hm
    · intro j _ hn
      replace hn : T.low (i * 512 + j) = none := hn
      show optFrame (T.low (i * 512 + j)) = 0
      rw [hn]
      rfl
    · intro j g _ hg
      replace hg : T.low (i * 512 + j) = some g := hg
      refine ⟨h.aligned g (h.low_mem hg), ?_, ?_⟩
      · show optFrame (T.low (i * 512 + j)) = {g}
        rw [hg]
        rfl
      · intro k hk
        have hl := h.low ((i * 512 + j) * 512 + k) g
          (by rw [show ((i * 512 + j) * 512 + k) / 512 = i * 512 + j by omega]; exact hg)
        rw [show ((i * 512 + j) * 512 + k) % 512 = k by omega, hleaf] at hl
        rw [hl]
        exact Nat.zero_testBit 0

section uvmfree

variable {r : Nat} {s : Mach} {T : Tree} {H : Multiset Nat}

theorem pages_zero (h : T.leaf = fun _ => 0) : T.pages = 0 := by
  rw [T.pages_eq, h]
  exact sum_eq_zero fun _ _ => leafFrame_zero

/-- `uvmfree` where the first `npages sz` pages are the only ones mapped: all frames of the page
    table go to the free list. -/
theorem wp_uvmfree {Q : Unit → Mach → Prop} {sz : Nat} (h : Holds s r T H)
    (hsz : npages sz ≤ UPAGES) (hl : ∀ v, npages sz ≤ v → T.leaf v = 0)
    (hQ : ∀ t, Moves s (Own r T + H) t H → Q () t) : wp Crit.total Q (uvmfree r sz) s := by
  -- the walk, from any state where the mappings are gone
  have hwalk : ∀ t T', Goes r s T H t T' H → T'.leaf = (fun _ => 0) →
      wp Crit.total Q (freewalk 2 r) t := by
    intro t T' g hleaf
    have ht := h.goes g
    have hown : Own r T' = r ::ₘ T'.nodes := by
      unfold Own
      rw [pages_zero hleaf, add_zero]
    have hframe : ∀ f ∈ r ::ₘ T'.nodes, IsFrame t f := by
      intro f hf
      exact ht.frames f (mem_add.mpr (Or.inl (mem_foot_tree hf)))
    refine wp_mono (wp_freewalk 2 (ht.rep.subtree hleaf) ht.rep.distinct hframe) ?_
    intro _ u hu
    rw [← hown] at hu
    refine hQ u (g.moves.trans ?_)
    have m := hu.moves.frame H
    rw [zero_add] at m
    exact m
  unfold uvmfree
  rcases Nat.eq_zero_or_pos sz with h0 | hpos
  · rw [if_neg (by omega)]
    refine hwalk s T (Goes.refl h) ?_
    funext v
    refine hl v ?_
    rw [h0]
    exact Nat.zero_le v
  · rw [if_pos hpos, wp_bind, PGROUNDUP_eq, Nat.mul_div_cancel _ (by decide)]
    refine wp_uvmunmap (a := 0) h ?_ ?_ ?_
    · rw [Nat.zero_add]
      exact user_le_MAXVA hsz
    · intro v _ hv
      show v < UPAGES
      omega
    · intro t T' g hleaf _ _
      refine hwalk t T' g ?_
      rw [hleaf]
      funext v
      unfold clearRange
      rcases Nat.lt_or_ge v (npages sz) with hv | hv
      · rw [if_pos (by omega)]
      · rw [if_neg (by omega), hl v hv]

end uvmfree

end Xv6
