/-
  `uvmcopy` copies the parent's memory exactly, or leaves nothing behind.

  `Beside s old To r T H` are the two page tables of a fork: the parent's tree `To` below `old`, and
  next to it the child's tree `T` below `r` with the free list, on frames that are not the parent's.
  `fork_memory` is the result: `uvmcopy` returns whatever calls of `kalloc` fail, and the child then
  maps what the parent maps, on frames of its own, or it maps no user page and can be freed.
-/
import Xv6.Vm.Runs

namespace Xv6

open Lib.Prog Multiset

/-- The page tables of a parent and of the child that is being made. -/
structure Beside (s : Mach) (old : Nat) (To : Tree) (r : Nat) (T : Tree) (H : Multiset Nat) :
    Prop where
  child : Holds s r T H
  parent : Rep s.mem old To
  apart : ∀ f ∈ Own old To, f ∉ Foot r T s.freelist + H

/-- The frames of the parent hold what they held. -/
structure ParentKept (s : Mach) (old : Nat) (To : Tree) (t : Mach) : Prop where
  rep : Rep t.mem old To
  mem : ∀ f ∈ Own old To, t.mem f = s.mem f

/-- The child has the first `n` pages of the parent, each on a frame of its own. -/
structure SamePages (s : Mach) (old : Nat) (To : Tree) (t : Mach) (r : Nat) (T' : Tree) (n : Nat) :
    Prop where
  mapped : ∀ v, v < n → (T'.leaf v).testBit 0 = (To.leaf v).testBit 0
  flags : ∀ v, v < n → (To.leaf v).testBit 0 → PTE_FLAGS (T'.leaf v) = PTE_FLAGS (To.leaf v)
  data : ∀ v, v < n → (To.leaf v).testBit 0 →
    t.mem (PTE2PA (T'.leaf v)) = s.mem (PTE2PA (To.leaf v))
  parent : ∀ v, v < n → (To.leaf v).testBit 0 → PTE2PA (T'.leaf v) ∉ Own old To
  tables : ∀ v, v < n → (To.leaf v).testBit 0 → PTE2PA (T'.leaf v) ∉ r ::ₘ T'.nodes
  inj : ∀ v w, v < n → w < n → v ≠ w → (To.leaf v).testBit 0 → (To.leaf w).testBit 0 →
    PTE2PA (T'.leaf v) ≠ PTE2PA (T'.leaf w)

/-- The child maps no user page, every frame that was free is free or a page-table page of the
    child, and `proc_freepagetable` gives these back without a panic. -/
structure NothingLeft (s : Mach) (r : Nat) (T : Tree) (H : Multiset Nat) (t : Mach) (T' : Tree) :
    Prop where
  user : ∀ v, v < UPAGES → T'.leaf v = 0
  frames : T'.nodes + ↑t.freelist = T.nodes + ↑s.freelist
  freed : ∃ u, (procFreepagetable r 0).run t = .done () u ∧
    H + ↑u.freelist = Own r T + H + ↑s.freelist

section uvmcopy

variable {s t : Mach} {old r sz tramp tf ntf : Nat} {guard : Option Nat} {To T T' : Tree}
  {H : Multiset Nat}

theorem Beside.kept (h : Beside s old To r T H) (g : Goes r s T H t T' H) :
    ParentKept s old To t := by
  refine ⟨g.rep_other h.parent ?_, ?_⟩
  · intro f hf
    exact h.apart f (tree_mem_own hf)
  · intro f hf
    exact g.mem f (h.apart f hf)

/-- The frames of the child are none of the parent's, before and after. -/
theorem Beside.not_parent (h : Beside s old To r T H) (g : Goes r s T H t T' H) {f : Nat}
    (hf : f ∈ T'.pages) : f ∉ Own old To := by
  intro hc
  refine h.apart f hc ?_
  rw [← g.foot]
  exact mem_add.mpr (Or.inl (mem_foot_page hf))

theorem Beside.samePages (h : Beside s old To r T H) (g : Goes r s T H t T' H)
    (hn : npages sz ≤ UPAGES) (hc : Copied To.leaf T.leaf T'.leaf 0 (npages sz))
    (hd : SameData s To.leaf t T'.leaf 0 (npages sz)) :
    SamePages s old To t r T' (npages sz) := by
  have ht := h.child.goes g
  have hvalid : ∀ v, v < npages sz → (To.leaf v).testBit 0 → (T'.leaf v).testBit 0 := by
    intro v hv hV
    obtain ⟨pa, -, hpa⟩ := hc.valid v (Nat.zero_le v) (by omega) hV
    rw [hpa]
    exact leafPte_valid _ _
  have hpage : ∀ v, v < npages sz → (To.leaf v).testBit 0 → PTE2PA (T'.leaf v) ∈ T'.pages := by
    intro v hv hV
    exact mem_pages (by omega) (hvalid v hv hV)
  refine ⟨?_, ?_, ?_, ?_, ?_, ?_⟩
  · intro v hv
    cases hV : (To.leaf v).testBit 0 with
    | true => exact hvalid v hv hV
    | false =>
      rw [hc.invalid v (Nat.zero_le v) (by omega) hV]
      exact Nat.zero_testBit 0
  · intro v hv hV
    obtain ⟨pa, -, hpa⟩ := hc.valid v (Nat.zero_le v) (by omega) hV
    rw [hpa, PTE_FLAGS_copied pa hV]
  · intro v hv hV
    exact hd v (Nat.zero_le v) (by omega) hV
  · intro v hv hV
    exact h.not_parent g (hpage v hv hV)
  · intro v hv hV
    exact ht.page_not_tree (hpage v hv hV)
  · intro v w hv hw hne hV hW
    exact ht.pages_inj (by omega) (by omega) (hvalid v hv hV) (hvalid w hw hW) hne

theorem Beside.nothingLeft (h : Beside s old To r T H) (hsp : Space T.leaf 0 none tramp ntf)
    (g : Goes r s T H t T' H) (hleaf : T'.leaf = T.leaf) : NothingLeft s r T H t T' := by
  have hzero : ∀ v, v < UPAGES → T'.leaf v = 0 := by
    intro v hv
    rw [hleaf]
    exact hsp.zero h.child.rep hv (Nat.zero_le v)
  have hsp' : Space T'.leaf 0 none tramp ntf := by
    rw [hleaf]
    exact hsp
  refine ⟨hzero, ?_, ?_⟩
  · -- the root, the user pages and what is held are the same on both sides
    have hf := g.foot
    rw [foot_eq_skeleton, foot_eq_skeleton, Tree.pages_congr hleaf] at hf
    have hs := add_right_cancel hf
    exact (cons_inj_right r).mp hs
  · obtain ⟨_, u, hrun, m⟩ := wp_run_total (wp_procFreepagetable
      (Q := fun _ u => Moves t (Own r T' + H) u H) (h.child.goes g) hsp' fun u m => m)
    refine ⟨u, hrun, ?_⟩
    rw [m.frames, ← foot_add, ← foot_add, g.foot]

end uvmcopy

/-- `uvmcopy` into the page table of a new process, from a parent with its address space and size.
    `s.fails` are the calls of `kalloc` that fail. -/
theorem fork_memory {s : Mach} {old r sz tramp tf ntf : Nat} {guard : Option Nat} {To T : Tree}
    {H : Multiset Nat} (h : Beside s old To r T H) (hp : Space To.leaf sz guard tramp tf)
    (hc : Space T.leaf 0 none tramp ntf) :
    ∃ ok t T', (uvmcopy old r sz).run s = .done ok t ∧ Rep t.mem r T' ∧
      ParentKept s old To t ∧
      if ok then SamePages s old To t r T' (npages sz) else NothingLeft s r T H t T' := by
  have hwp : wp Crit.total (fun ok t => ∃ T', Rep t.mem r T' ∧ ParentKept s old To t ∧
      if ok then SamePages s old To t r T' (npages sz) else NothingLeft s r T H t T')
      (uvmcopy old r sz) s := by
    refine wp_uvmcopy h.child h.parent h.apart hp.npages_le ?_ ?_ ?_
    · intro v hv
      exact hc.zero h.child.rep (Nat.lt_of_lt_of_le hv hp.npages_le) (Nat.zero_le v)
    · intro t T' g hleaf
      exact ⟨T', g.rep, h.kept g, h.nothingLeft hc g hleaf⟩
    · rintro t T' ⟨g, hcopied, hdata⟩
      exact ⟨T', g.rep, h.kept g, h.samePages g hp.npages_le hcopied hdata⟩
  obtain ⟨ok, t, hrun, T', hrest⟩ := wp_run_total hwp
  exact ⟨ok, t, T', hrun, hrest⟩

/-! ## An instance -/

/-- What `allocproc` has made for a child, next to a process in use. -/
theorem beside_allocproc {c k k' : Kernel} {p np : Nat} (h : KInv c k) (hp : k.CanRun p)
    (hrun : allocproc.run k = .done (some np) k') :
    ∃ old To tf r T ntf, Beside k'.mach old To r T (ntf ::ₘ 0) ∧
      Space To.leaf (k.proc p).sz (k.proc p).guard k.mach.trampoline tf ∧
      Space T.leaf 0 none k.mach.trampoline ntf := by
  obtain ⟨old, tf, To, hpt, htf, hrep, hsp, -⟩ := h.live hp
  have hwp : wp Crit.total (fun o k' => ∀ np, o = some np → ∃ old To tf r T ntf,
      Beside k'.mach old To r T (ntf ::ₘ 0) ∧
      Space To.leaf (k.proc p).sz (k.proc p).guard k.mach.trampoline tf ∧
      Space T.leaf 0 none k.mach.trampoline ntf) allocproc k := by
    refine wp_allocproc h.sys ?_ ?_
    · intro t m np hnone
      cases hnone
    · intro q ntf r t T hq hfree m hrep' hsp' hslot np _
      have hpar : ∀ f ∈ Own old To, f ∉ (0 : Multiset Nat) + ↑k.mach.freelist := by
        intro f hf
        refine h.sys.not_free hp.1 ?_
        rw [procFrames_live hpt htf hrep]
        exact mem_cons_of_mem hf
      have hhands := h.sys.hands_held.moves m
      rw [cons_add, ← add_cons] at hhands
      refine ⟨old, To, tf, r, T, ntf, ⟨hhands.holds hrep', ?_, ?_⟩, hsp, hsp'⟩
      · refine hrep.congr ?_
        intro f hf
        exact m.mem f (hpar f (tree_mem_own hf))
      · intro f hf
        show f ∉ Foot r T t.freelist + ntf ::ₘ 0
        rw [foot_add, add_cons, ← cons_add, m.frames]
        exact hpar f hf
  have := wp_run hwp
  rw [hrun] at this
  exact this np rfl

/-- A child of the first process. -/
theorem fork_memory_small : ∃ s old To r T H guard tramp tf ntf, Beside s old To r T H ∧
    Space To.leaf 12288 guard tramp tf ∧ Space T.leaf 0 none tramp ntf ∧
    ∃ ok t T', (uvmcopy old r 12288).run s = .done ok t ∧ Rep t.mem r T' ∧
      ParentKept s old To t ∧
      if ok then SamePages s old To t r T' (npages 12288) else NothingLeft s r T H t T' := by
  obtain ⟨k, hk, hreach, hc, hsz⟩ := smallInit_spec
  have hrun : ((smallBoot.init smallImage).bind allocproc.result).any (fun r => r.1.isSome) = true := by
    decide +kernel
  rw [hk] at hrun
  obtain ⟨⟨o, k'⟩, hres, hsome⟩ := (Option.any_eq_true _ _).mp hrun
  obtain ⟨np, rfl⟩ := Option.isSome_iff_exists.mp hsome
  obtain ⟨old, To, tf, r, T, ntf, hb, hsp, hsp'⟩ := beside_allocproc (hreach.inv smallBoot_boot) hc
    (run_of_result hres)
  rw [hsz] at hsp
  exact ⟨_, old, To, r, T, _, _, _, tf, ntf, hb, hsp, hsp', fork_memory hb hsp hsp'⟩

end Xv6
