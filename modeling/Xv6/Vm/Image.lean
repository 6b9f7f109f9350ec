/-
  Process images: the page table of a process from `proc_pagetable` to `proc_freepagetable`.

  `Space leaf sz guard trampoline tf` is the address-space invariant of a process: its size stays
  below the trapframe page, only pages below the size are mapped and all but the stack guard can
  be used by the user, and the trampoline and trapframe pages are mapped for the kernel alone.
  `growproc`, `vmfault` and the copies keep it, `exec` builds a new image that has it
  (`wp_execImage`), and a page table that has it can be freed (`wp_procFreepagetable`).
-/
import Xv6.Vm.Seen
import Xv6.Vm.Proc

namespace Xv6

open Finset Function
open Lib.Prog hiding update
open Multiset (add_cons cons_add cons_coe mem_add mem_cons_self)

/-- The frames in `F` and on the free list are different frames that the allocator manages. -/
structure Hands (s : Mach) (F : Multiset Nat) : Prop where
  nodup : (F + ↑s.freelist).Nodup
  frames : ∀ f ∈ F + ↑s.freelist, IsFrame s f

section hands

variable {r : Nat} {s t : Mach} {T : Tree} {F F' H : Multiset Nat}

theorem Hands.moves (h : Hands s F) (m : Moves s F t F') : Hands t F' := by
  refine ⟨?_, ?_⟩
  · rw [m.frames]
    exact h.nodup
  · rw [m.frames]
    unfold IsFrame
    rw [m.kend]
    exact h.frames

theorem Hands.holds (h : Hands s (Own r T + H)) (hr : Rep s.mem r T) : Holds s r T H := by
  refine ⟨hr, ?_, ?_⟩
  · rw [foot_add]
    exact h.nodup
  · rw [foot_add]
    exact h.frames

/-- Fewer frames. -/
theorem Hands.of_add {G : Multiset Nat} (h : Hands s (F + G)) : Hands s F := by
  have hle : F + ↑s.freelist ≤ F + G + ↑s.freelist := by
    rw [add_right_comm]
    exact Multiset.le_add_right _ _
  refine ⟨Multiset.nodup_of_le hle h.nodup, ?_⟩
  intro f hf
  exact h.frames f (Multiset.mem_of_le hle hf)

theorem Hands.sub {E G : Multiset Nat} (h : Hands s F) (heq : F = E + G) : Hands s E := by
  rw [heq] at h
  exact h.of_add

theorem wp_kalloc_moves {Q : Option Nat → Mach → Prop} (hn : ∀ t, Moves s F t F → Q none t)
    (hs : ∀ x t, Moves s F t (x ::ₘ F) → Q (some x) t) : wp Crit.total Q kalloc s := by
  refine wp_kalloc ?_ ?_
  · intro fails
    exact hn _ ⟨rfl, fun _ _ => rfl, rfl, rfl⟩
  · intro x rest fails hL
    refine hs x _ ⟨?_, ?_, rfl, rfl⟩
    · rw [hL, ← cons_coe, cons_add, add_cons]
    · intro f hf
      refine mem_of_memset ?_
      intro hfx
      refine hf (mem_add.mpr (Or.inr ?_))
      rw [hfx, hL]
      exact List.mem_cons_self

theorem wp_kfree_moves {Q : Unit → Mach → Prop} {x : Nat} (h : Hands s (x ::ₘ F))
    (hQ : ∀ t, Moves s (x ::ₘ F) t F → Q () t) : wp Crit.total Q (kfree x) s := by
  have hx : x ∈ x ::ₘ F + ↑s.freelist :=
    mem_add.mpr (Or.inl (mem_cons_self x F))
  refine wp_kfree (h.frames x hx) (hQ _ ⟨?_, ?_, rfl, rfl⟩)
  · rw [kfree_freelist, ← cons_coe, cons_add, add_cons]
  · intro f hf
    exact mem_of_kfree (ne_of_mem_of_not_mem hx hf).symm

/-- The contents of a frame in hand may change. -/
theorem Moves.scribble {x : Nat} (hx : x ∈ F) (d : Nat → Nat) :
    Moves s F (s.setPage x d) F := by
  refine ⟨rfl, ?_, rfl, rfl⟩
  intro f hf
  exact setPage_of_ne (ne_of_mem_of_not_mem (mem_add.mpr (Or.inl hx)) hf).symm _

end hands

/-! ## The address-space invariant -/

structure Space (leaf : Nat → Nat) (sz : Nat) (guard : Option Nat) (trampoline tf : Nat) :
    Prop where
  size : sz ≤ TRAPFRAME
  below : ∀ v, v < UPAGES → (leaf v).testBit 0 → v < npages sz
  user : ∀ v, v < UPAGES → (leaf v).testBit 0 → (leaf v).testBit 4 ∨ guard = some v
  trapframe : leaf UPAGES = leafPte tf (PTE_R ||| PTE_W)
  trampoline : leaf (UPAGES + 1) = leafPte trampoline (PTE_R ||| PTE_X)
  high : ∀ v, UPAGES + 2 ≤ v → leaf v = 0

namespace Space

variable {leaf leaf' : Nat → Nat} {sz tramp tf : Nat} {guard : Option Nat}

theorem npages_le (h : Space leaf sz guard tramp tf) : npages sz ≤ UPAGES :=
  Xv6.npages_le h.size

theorem highNoUser (h : Space leaf sz guard tramp tf) : HighNoUser leaf := by
  intro v hv
  rcases Nat.lt_or_ge v (UPAGES + 2) with hlt | hge
  · rcases eq_or_ne v UPAGES with heq | hne
    · rw [heq, h.trapframe, testBit_leafPte tf (by decide) (by decide)]
      rfl
    · rw [show v = UPAGES + 1 by omega, h.trampoline, testBit_leafPte tramp (by decide) (by decide)]
      rfl
  · rw [h.high v hge]
    exact Nat.zero_testBit 4

/-- Nothing is mapped between the size and the trapframe page. -/
theorem zero {mem : Nat → Nat → Nat} {r : Nat} {T : Tree} (h : Space T.leaf sz guard tramp tf)
    (hr : Rep mem r T) {v : Nat} (hv : v < UPAGES) (hle : Xv6.npages sz ≤ v) : T.leaf v = 0 := by
  refine hr.leaf_zero v ?_
  rcases hV : (T.leaf v).testBit 0 with _ | _
  · rfl
  · have := h.below v hv hV
    omega

variable {sz' : Nat}

/-- A change of the user entries that keeps the invariant. -/
theorem change {guard' : Option Nat} (h : Space leaf sz guard tramp tf) (hsz : sz' ≤ TRAPFRAME)
    (hhigh : ∀ v, UPAGES ≤ v → leaf' v = leaf v) (hu : ∀ v, v < UPAGES → (leaf' v).testBit 0 →
      v < npages sz' ∧ ((leaf' v).testBit 4 ∨ guard' = some v)) :
    Space leaf' sz' guard' tramp tf := by
  refine ⟨hsz, fun v hv hV => (hu v hv hV).1, fun v hv hV => (hu v hv hV).2, ?_, ?_, ?_⟩
  · rw [hhigh UPAGES (le_refl _), h.trapframe]
  · rw [hhigh (UPAGES + 1) (Nat.le_succ _), h.trampoline]
  · intro v hv
    rw [hhigh v (by omega), h.high v hv]

theorem faulted (h : Space leaf sz guard tramp tf) (hf : Faulted sz leaf leaf') :
    Space leaf' sz guard tramp tf := by
  refine h.change h.size ?_ ?_
  · intro v hv
    rcases hf v with heq | ⟨_, hlt, _⟩
    · exact heq
    · have := h.npages_le
      omega
  · intro v hv hV
    rcases hf v with heq | ⟨_, hlt, x, _, heq⟩
    · rw [heq] at hV ⊢
      exact ⟨h.below v hv hV, h.user v hv hV⟩
    · refine ⟨hlt, Or.inl ?_⟩
      rw [heq, testBit_leafPte x (by decide) (by decide)]
      rfl

/-- Unmapping from the new size on. -/
theorem shrunk (h : Space leaf sz guard tramp tf) (hle : sz' ≤ sz)
    (hl : leaf' = clearRange leaf (npages sz') (npages sz - npages sz')) :
    Space leaf' sz' guard tramp tf := by
  have hnp := h.npages_le
  refine h.change (Nat.le_trans hle h.size) ?_ ?_
  · intro v hv
    rw [hl]
    exact if_neg (by omega)
  · intro v hv hV
    rw [hl] at hV ⊢
    unfold clearRange at hV ⊢
    split at hV
    · cases hV
    · rename_i hcond
      have hb := h.below v hv hV
      rw [if_neg hcond]
      exact ⟨by omega, h.user v hv hV⟩

/-- Mapping all pages from the old size to the new one. -/
theorem grown {xperm : Nat} (h : Space leaf sz guard tramp tf) (hle : sz ≤ sz')
    (hsz : sz' ≤ TRAPFRAME) (hx : xperm < 1024)
    (hg : Grown leaf leaf' (npages sz) (npages sz' - npages sz) (PTE_R ||| PTE_U ||| xperm)) :
    Space leaf' sz' guard tramp tf := by
  have hnp := Xv6.npages_le hsz
  have hmono := npages_mono hle
  refine h.change hsz ?_ ?_
  · intro v hv
    exact hg.old v (by omega)
  · intro v hv hV
    rcases Nat.lt_or_ge v (npages sz) with hlt | hge
    · rw [hg.old v (by omega)] at hV ⊢
      exact ⟨by omega, h.user v hv hV⟩
    · rcases Nat.lt_or_ge v (npages sz') with hlt' | hge'
      · obtain ⟨pa, _, hpa⟩ := hg.new v hge (by omega)
        refine ⟨hlt', Or.inl ?_⟩
        rw [hpa, testBit_leafPte pa (Nat.or_lt_two_pow (n := 10) (by decide) hx) (by decide),
          Nat.testBit_or, Nat.testBit_or]
        have : (PTE_R ||| PTE_U).testBit 4 = true := rfl
        rw [this]
        simp
      · rw [hg.old v (by omega)] at hV
        have := h.below v hv hV
        omega

end Space

section image

variable {r sz tramp tf : Nat} {s : Mach} {T : Tree} {H : Multiset Nat} {guard : Option Nat}

/-! ## `proc_pagetable` and `proc_freepagetable` -/

theorem Own_empty (r : Nat) : Own r Tree.empty = {r} := by
  have hn : Tree.empty.nodes = 0 := by
    refine sum_eq_zero ?_
    intro i _
    exact (zero_add _).trans (sum_eq_zero fun _ _ => rfl)
  unfold Own
  rw [hn, pages_zero rfl]
  rfl

variable {Q : Option Nat → Mach → Prop} {n : Int}

/-- `uvmcreate`: an empty page table. -/
theorem wp_uvmcreate (hn : ∀ t, Moves s H t H → Q none t)
    (hs : ∀ r t, Moves s H t (Own r Tree.empty + H) → Rep t.mem r Tree.empty → Q (some r) t) :
    wp Crit.total Q uvmcreate s := by
  unfold uvmcreate
  rw [wp_bind]
  refine wp_kalloc_moves hn ?_
  intro x t m
  simp only [wp_bind]
  refine wp_memset x 0 (hs x _ ?_ ?_)
  · rw [Own_empty]
    exact m.trans (Moves.scribble (mem_cons_self x H) _)
  · refine Rep.empty ?_
    intro j
    rw [Mach.memset, setPage_self]

/-- The entries of a page table without user pages. -/
theorem Space.fresh {leaf : Nat → Nat} (h0 : ∀ v, v ≠ UPAGES → v ≠ UPAGES + 1 → leaf v = 0)
    (h1 : leaf UPAGES = leafPte tf (PTE_R ||| PTE_W))
    (h2 : leaf (UPAGES + 1) = leafPte tramp (PTE_R ||| PTE_X)) : Space leaf 0 none tramp tf := by
  have hzero : ∀ v, v < UPAGES → ¬ (leaf v).testBit 0 := by
    intro v hv hV
    rw [h0 v (by omega) (by omega)] at hV
    cases hV
  refine ⟨Nat.zero_le _, ?_, ?_, h1, h2, ?_⟩
  · intro v hv hV
    exact absurd hV (hzero v hv)
  · intro v hv hV
    exact absurd hV (hzero v hv)
  · intro v hv
    exact h0 v (by omega) (by omega)

theorem wp_procPagetable (h : Hands s H) (hn : ∀ t, Moves s H t H → Q none t)
    (hs : ∀ r t T, Moves s H t (Own r T + H) → Rep t.mem r T →
      Space T.leaf 0 none s.trampoline tf → Q (some r) t) :
    wp Crit.total Q (procPagetable tf) s := by
  unfold procPagetable
  rw [wp_bind]
  refine wp_uvmcreate hn ?_
  intro r t m hrep
  have ht : Holds t r Tree.empty H := (h.moves m).holds hrep
  simp only [wp_bind]
  refine ⟨trivial, ?_⟩
  rw [m.trampoline]
  have hT : TRAMPOLINE = (UPAGES + 1) * PGSIZE := by decide
  have hF : TRAPFRAME = UPAGES * PGSIZE := by decide
  rw [hT, hF]
  refine wp_mappages (G := H) ht (by decide) rfl ?_ ?_ ?_
  · rw [ownFrame_high (Nat.le_succ _), add_zero]
  · intro u T' g hleaf _
    rw [if_neg Bool.false_ne_true, wp_bind]
    refine wp_uvmfree (ht.goes g) (by decide) ?_ ?_
    · intro v _
      rw [hleaf]
      rfl
    · intro w m'
      exact hn w (m.trans (g.moves.trans m'))
  · intro u T' g hleaf _
    have hu := ht.goes g
    have h0 : ∀ v, v ≠ UPAGES + 1 → T'.leaf v = 0 := by
      intro v hv
      rw [hleaf, update_of_ne hv]
      rfl
    rw [if_pos rfl, wp_bind]
    refine wp_mappages (G := H) hu (by decide) (h0 _ (by decide)) ?_ ?_ ?_
    · rw [ownFrame_high (le_refl _), add_zero]
    · intro w T'' g' hleaf' _
      have hw := hu.goes g'
      rw [if_neg Bool.false_ne_true, wp_bind]
      refine wp_uvmunmap hw (by decide) ?_ ?_
      · intro v hv _
        show UPAGES ≤ v
        omega
      · intro z T3 g'' hleaf3 _ _
        rw [wp_bind]
        refine wp_uvmfree (hw.goes g'') (by decide) ?_ ?_
        · intro v _
          rw [hleaf3, hleaf']
          unfold clearRange
          rcases eq_or_ne v (UPAGES + 1) with heq | hne
          · rw [if_pos (by omega)]
          · rw [if_neg (by omega), h0 v hne]
        · intro y m'
          exact hn y (m.trans (g.moves.trans (g'.moves.trans (g''.moves.trans m'))))
    · intro w T'' g' hleaf' _
      refine hs r w T'' (m.trans (g.moves.trans g'.moves)) (hu.goes g').rep ?_
      refine Space.fresh ?_ ?_ ?_
      · intro v h1 h2
        rw [hleaf', update_of_ne h1, h0 v h2]
      · rw [hleaf', update_self]
      · rw [hleaf', update_of_ne (by decide), hleaf, update_self]

theorem wp_procFreepagetable {Q : Unit → Mach → Prop} (h : Holds s r T H)
    (hsp : Space T.leaf sz guard tramp tf) (hQ : ∀ t, Moves s (Own r T + H) t H → Q () t) :
    wp Crit.total Q (procFreepagetable r sz) s := by
  have hT : TRAMPOLINE = (UPAGES + 1) * PGSIZE := by decide
  have hF : TRAPFRAME = UPAGES * PGSIZE := by decide
  unfold procFreepagetable
  rw [hT, hF]
  simp only [wp_bind]
  refine wp_uvmunmap h (by decide) ?_ ?_
  · intro v hv _
    show UPAGES ≤ v
    omega
  · intro t T' g hleaf _ _
    have ht := h.goes g
    refine wp_uvmunmap ht (by decide) ?_ ?_
    · intro v hv _
      exact hv
    · intro u T'' g' hleaf' _ _
      have hnp := hsp.npages_le
      refine wp_uvmfree (ht.goes g') hnp ?_ ?_
      · intro v hv
        rw [hleaf', hleaf]
        unfold clearRange
        rcases Nat.lt_or_ge v UPAGES with hlt | hge
        · rw [if_neg (by omega), if_neg (by omega)]
          exact hsp.zero h.rep hlt hv
        · rcases Nat.lt_or_ge v (UPAGES + 2) with hlt' | hge'
          · rcases eq_or_ne v UPAGES with heq | hne
            · rw [if_pos (by omega)]
            · rw [if_neg (by omega), if_pos (by omega)]
          · rw [if_neg (by omega), if_neg (by omega), hsp.high v hge']
      · intro w m
        exact hQ w (g.moves.trans (g'.moves.trans m))

/-! ## `growproc` -/

theorem add64_nonneg (hsz : sz ≤ TRAPFRAME) (h0 : 0 ≤ n) (hn : n < 2 ^ 31) :
    add64 sz n = sz + n.toNat := by
  unfold add64
  simp only [TRAPFRAME, TRAMPOLINE, MAXVA] at hsz
  omega

/-- The size after a request of `n` bytes that succeeds. -/
def sbrkSize (sz : Nat) (n : Int) : Nat := if n < 0 then min sz (add64 sz n) else add64 sz n

theorem sbrkSize_nonneg (hsz : sz ≤ TRAPFRAME) (h0 : 0 ≤ n) (hn : n < 2 ^ 31) :
    sbrkSize sz n = sz + n.toNat := by
  unfold sbrkSize
  rw [if_neg (by omega), add64_nonneg hsz h0 hn]

/-- The user pages after the size of the process has gone from `sz` to `sz'`. -/
structure Resized (s : Mach) (T : Tree) (sz : Nat) (t : Mach) (T' : Tree) (sz' : Nat) : Prop where
  old : ∀ v, v < npages sz → v < npages sz' → T'.leaf v = T.leaf v
  data : ∀ v, v < npages sz → v < npages sz' → (T.leaf v).testBit 0 →
    t.mem (PTE2PA (T.leaf v)) = s.mem (PTE2PA (T.leaf v))
  new : ∀ v, npages sz ≤ v → v < npages sz' →
    ∃ pa, pa % 4096 = 0 ∧ T'.leaf v = leafPte pa faultPerm ∧ ∀ j, t.mem pa j = 0
  gone : ∀ v, npages sz' ≤ v → v < UPAGES → T'.leaf v = 0
  tables : sz' ≤ sz → T'.nodes = T.nodes

/-- Nothing changes where the size does not. -/
theorem Resized.same {T' : Tree} (hn : npages sz ≤ UPAGES)
    (h0 : ∀ v, npages sz ≤ v → v < UPAGES → T.leaf v = 0) (hl : T'.leaf = T.leaf)
    (hk : Keeps T.pages s t) (hnodes : T'.nodes = T.nodes) : Resized s T sz t T' sz := by
  refine ⟨?_, ?_, ?_, ?_, fun _ => hnodes⟩
  · intro v _ _
    rw [hl]
  · intro v hv _ hV
    exact hk _ (mem_pages (by omega) hV)
  · intro v hv hv'
    omega
  · intro v hv hlt
    rw [hl]
    exact h0 v hv hlt

/-- `growproc` fails where the size would reach the trapframe, and where memory runs out. Otherwise
    the pages above the new size are gone, and no other page has changed for the user. -/
theorem wp_growproc (h : Holds s r T H) (hsp : Space T.leaf sz guard tramp tf) (hn : n < 2 ^ 31)
    (hQb : 0 < n → TRAPFRAME < sz + n.toNat → Q none s)
    (hQn : ∀ t T', 0 < n → sz + n.toNat ≤ TRAPFRAME → Goes r s T H t T' H → T'.leaf = T.leaf →
      Keeps T.pages s t → Q none t)
    (hQ : ∀ t T', Goes r s T H t T' H → Space T'.leaf (sbrkSize sz n) guard tramp tf →
      seen t T' = freshFrom (npages (sbrkSize sz n)) (seen s T) →
      Resized s T sz t T' (sbrkSize sz n) → Q (some (sbrkSize sz n)) t) :
    wp Crit.total Q (growproc r sz n) s := by
  have hzero : ∀ v, npages sz ≤ v → v < UPAGES → T.leaf v = 0 := by
    intro v hv hlt
    exact hsp.zero h.rep hlt hv
  unfold growproc
  split
  · rename_i hpos
    rw [sbrkSize_nonneg hsp.size (le_of_lt hpos) hn] at hQ
    rw [add64_nonneg hsp.size (le_of_lt hpos) hn]
    split
    · rename_i hbig
      exact hQb hpos hbig
    · rename_i hle
      have hle : sz + n.toNat ≤ TRAPFRAME := Nat.not_lt.mp hle
      have hge : sz ≤ sz + n.toNat := Nat.le_add_right _ _
      rw [wp_bind]
      refine wp_uvmalloc h (by decide) (Or.inl (npages_le hle)) ?_ ?_ ?_ ?_
      · intro v hv _ hlt
        exact hzero v hv hlt
      · intro hlt
        omega
      · intro t T' _ g hleaf hk
        exact hQn t T' hpos hle g hleaf hk
      · rintro t T' _ ⟨g, hgrown, hk, hz⟩
        have hne : sz + n.toNat ≠ 0 := by omega
        rw [if_neg hne]
        refine hQ t T' g (hsp.grown hge hle (by decide) hgrown) ?_ ?_
        · rw [seen_grown (fun v hv _ => hzero v hv) hgrown hk hz, freshFrom_seen]
          intro v hv
          exact hzero v (Nat.le_trans (npages_mono hge) hv)
        · have hnp := npages_mono hge
          have hnp' := npages_le hle
          refine ⟨?_, ?_, ?_, ?_, ?_⟩
          · intro v hv _
            exact hgrown.old v (Or.inl hv)
          · intro v hv hv' hV
            exact hk _ (mem_pages (by omega) hV)
          · intro v hv hv'
            obtain ⟨pa, hpa, hl⟩ := hgrown.new v hv (by omega)
            refine ⟨pa, hpa, hl, ?_⟩
            have := hz v hv (by omega)
            rw [hl, PTE2PA_leafPte hpa (by decide)] at this
            exact this
          · intro v hv hlt
            rw [hgrown.old v (by omega)]
            exact hzero v (by omega) hlt
          · intro hle'
            omega
  · split
    · rename_i hneg
      have hsize : sbrkSize sz n = min sz (add64 sz n) := if_pos hneg
      rw [hsize] at hQ
      rw [wp_bind]
      refine wp_uvmdealloc h hsp.npages_le ?_
      intro t T' g hleaf hnodes hk
      rcases Nat.lt_or_ge (add64 sz n) sz with hlt | hge
      · rw [Nat.min_eq_right (by omega)] at hQ ⊢
        have hmono := npages_mono (Nat.le_of_lt hlt)
        have hold : ∀ v, v < npages (add64 sz n) → T'.leaf v = T.leaf v := by
          intro v hv
          rw [hleaf]
          exact if_neg (by omega)
        refine hQ t T' g (hsp.shrunk (le_of_lt hlt) hleaf) (seen_cleared ?_ hleaf hk) ?_
        · intro v hv
          exact hzero v (by omega)
        · refine ⟨fun v _ => hold v, ?_, ?_, ?_, fun _ => hnodes⟩
          · intro v hv hv' hV
            rw [← hold v hv'] at hV ⊢
            exact hk _ (mem_pages (Nat.lt_of_lt_of_le hv hsp.npages_le) hV)
          · intro v hv hv'
            omega
          · intro v hv hlt'
            rw [hleaf]
            unfold clearRange
            split
            · rfl
            · exact hzero v (by omega) hlt'
      · rw [Nat.min_eq_left hge] at hQ ⊢
        rw [Nat.sub_eq_zero_of_le (npages_mono hge), clearRange_zero] at hleaf
        rw [Tree.pages_congr hleaf] at hk
        refine hQ t T' g ?_ ?_ ?_
        · rw [hleaf]
          exact hsp
        · rw [seen_congr hleaf hk, freshFrom_seen hzero]
        · exact Resized.same hsp.npages_le hzero hleaf hk hnodes
    · have h0 : n = 0 := by omega
      rw [sbrkSize_nonneg hsp.size (by omega) hn, h0, Int.toNat_zero, Nat.add_zero] at hQ
      refine hQ s T (Goes.refl h) hsp ?_ ?_
      · rw [freshFrom_seen hzero]
      · exact Resized.same hsp.npages_le hzero rfl (Keeps.refl _ _) rfl

end image

end Xv6
