/-
  `sbrk` in eager mode: exact sizes, exact pages, and nothing but page-table pages left behind by a
  failure (`sbrk_eager`).
-/
import Xv6.Vm.Runs
import Xv6.Vm.Served

namespace Xv6

open Lib.Prog Multiset

/-- The size that a request of `n` bytes asks for; one that asks for less than nothing is ignored. -/
def requestedSize (sz : Nat) (n : Int) : Nat := if 0 ≤ sz + n then (sz + n).toNat else sz

theorem sbrkSize_eq {sz : Nat} {n : Int} (hsz : sz ≤ TRAPFRAME) (hlo : -2 ^ 31 ≤ n)
    (hhi : n < 2 ^ 31) : sbrkSize sz n = requestedSize sz n := by
  unfold requestedSize
  rcases lt_or_ge n 0 with hneg | hpos
  · have hsize : sbrkSize sz n = min sz (add64 sz n) := if_pos hneg
    rw [hsize]
    unfold add64
    simp only [TRAPFRAME, TRAMPOLINE, MAXVA] at hsz
    split
    · omega
    · omega
  · rw [sbrkSize_nonneg hsz hpos hhi, if_pos (by omega)]
    omega

theorem requestedSize_le {sz : Nat} {n : Int} (hsz : sz ≤ TRAPFRAME)
    (h : 0 ≤ n → sz + n.toNat ≤ TRAPFRAME) : requestedSize sz n ≤ TRAPFRAME := by
  unfold requestedSize
  split
  · rcases lt_or_ge n 0 with hneg | hpos
    · omega
    · omega
  · exact hsz

/-- After a success the frames above the new size are free. -/
theorem Resized.freed {s t : Mach} {r sz sz' v : Nat} {T T' : Tree} {H : Multiset Nat}
    (hr : Resized s T sz t T' sz') (h : Holds s r T H) (g : Goes r s T H t T' H)
    (hle : sz' ≤ sz) (hn : npages sz' ≤ v) (hv : v < UPAGES) (hV : (T.leaf v).testBit 0) :
    PTE2PA (T.leaf v) ∈ t.freelist := by
  have hfoot := g.foot
  unfold Foot at hfoot
  rw [hr.tables hle] at hfoot
  have hcancel := (cons_inj_right r).mp (add_right_cancel hfoot)
  rw [add_assoc, add_assoc] at hcancel
  have hmem : PTE2PA (T.leaf v) ∈ T'.pages + ↑t.freelist := by
    rw [add_left_cancel hcancel]
    exact mem_add.mpr (Or.inl (mem_pages hv hV))
  rcases mem_add.mp hmem with hpage | hfree
  · -- the pages that are left are below the new size, on frames of their own
    obtain ⟨w, hw, hW, heq⟩ := mem_pages_iff.mp hpage
    have hlt : w < npages sz' := by
      by_contra hge
      rw [hr.gone w (by omega) hw] at hW
      cases hW
    have hsame := hr.old w (Nat.lt_of_lt_of_le hlt (npages_mono hle)) hlt
    rw [hsame] at hW heq
    exact absurd heq (h.pages_inj hv hw hV hW (by omega))
  · exact mem_coe.mp hfree

/-- What a successful request leaves of the process and its memory. -/
structure SbrkDone (k : Kernel) (p : Nat) (T : Tree) (n : Int) (k' : Kernel) (T' : Tree) :
    Prop where
  fits : requestedSize (k.proc p).sz n ≤ TRAPFRAME
  proc : k'.proc = Function.update k.proc p { k.proc p with sz := requestedSize (k.proc p).sz n }
  pages : Resized k.mach T (k.proc p).sz k'.mach T' (requestedSize (k.proc p).sz n)
  freed : ∀ v, npages (requestedSize (k.proc p).sz n) ≤ v → v < UPAGES → (T.leaf v).testBit 0 →
    PTE2PA (T.leaf v) ∈ k'.mach.freelist

/-- What a failed request leaves: frames have gone from the free list to page-table pages at most. -/
structure SbrkFailed (k : Kernel) (T : Tree) (k' : Kernel) (T' : Tree) : Prop where
  kernel : k' = { k with mach := k'.mach }
  leaf : T'.leaf = T.leaf
  data : Keeps T.pages k.mach k'.mach
  frames : T'.nodes + ↑k'.mach.freelist = T.nodes + ↑k.mach.freelist

/-- With memory for every `kalloc`, only a size beyond the trapframe makes a request fail. -/
theorem sysSbrk_served {k k' : Kernel} {p : Nat} {n : Int} (hsz : (k.proc p).sz ≤ TRAPFRAME)
    (hlo : 0 < n) (hhi : n < 2 ^ 31)
    (hwp : wp Crit.total (fun _ _ => True) (sysSbrk p n true) k)
    (hrun : (sysSbrk p n true).run k = .done none k')
    (hG : Always GrantedK (sysSbrk p n true) k) : TRAPFRAME < (k.proc p).sz + n.toNat := by
  obtain ⟨o, t, hrun', ho, -⟩ := given_run (given_and_wp servedK_sysSbrk hwp) hG
  rw [hrun] at hrun'
  injection hrun' with heq _
  obtain ⟨-, hwhy⟩ := ho heq.symm
  rw [add64_nonneg hsz (Int.le_of_lt hlo) hhi] at hwhy
  omega

/-- `sbrk(n)` in eager mode, by a process that can run in a state with the invariant of the system.
    It fails only if it is asked to grow, and then only beyond the trapframe or at a failing
    `kalloc`. -/
theorem sbrk_eager {c k : Kernel} {p r : Nat} {T : Tree} (h : KInv c k) (hp : k.CanRun p)
    (hpt : (k.proc p).pagetable = some r) (hrep : Rep k.mach.mem r T) (n : BitVec 32) :
    ∃ o k' T', (sysSbrk p n.toInt true).run k = .done o k' ∧ Rep k'.mach.mem r T' ∧
      match o with
      | some a => a = (k.proc p).sz ∧ SbrkDone k p T n.toInt k' T'
      | none => 0 < n.toInt ∧ SbrkFailed k T k' T' ∧
          (Always GrantedK (sysSbrk p n.toInt true) k →
            TRAPFRAME < (k.proc p).sz + n.toInt.toNat) := by
  obtain ⟨r', tf, U, hpt', htf, hrep', hsp, hh⟩ := h.live hp
  have hr : r' = r := Option.some.inj (hpt'.symm.trans hpt)
  rw [hr] at hrep' hh
  have hU : U = T := hrep'.treeOf_eq.symm.trans hrep.treeOf_eq
  rw [hU] at hsp hh
  have hhi : n.toInt < 2 ^ 31 := BitVec.toInt_lt
  have hlo : -2 ^ 31 ≤ n.toInt := BitVec.le_toInt n
  have hsize := sbrkSize_eq hsp.size hlo hhi
  have hwp : wp Crit.total (fun o k' => ∃ T', Rep k'.mach.mem r T' ∧
      match o with
      | some a => a = (k.proc p).sz ∧ SbrkDone k p T n.toInt k' T'
      | none => 0 < n.toInt ∧ SbrkFailed k T k' T') (sysSbrk p n.toInt true) k := by
    refine wp_sysSbrk_seen h hp hhi hpt htf hrep hsp hh ?_ ?_ ?_
    · intro _ hbig
      have hpos : 0 < n.toInt := by
        have := hsp.size
        omega
      exact ⟨T, hrep, hpos, rfl, rfl, Keeps.refl _ _, rfl⟩
    · intro t T' hpos _ g hleaf hk _
      refine ⟨T', g.rep, hpos, rfl, hleaf, hk, ?_⟩
      have hfoot := g.foot
      rw [foot_eq_skeleton, foot_eq_skeleton, Tree.pages_congr hleaf] at hfoot
      exact (cons_inj_right r).mp (add_right_cancel hfoot)
    · intro t T' g _ _ hle hres
      have hres := hres rfl
      rw [hsize] at hres ⊢
      refine ⟨T', g.rep, rfl, requestedSize_le hsp.size hle, rfl, hres, ?_⟩
      intro v hv hlt hV
      have hold := hsp.below v hlt hV
      have hle : requestedSize (k.proc p).sz n.toInt ≤ (k.proc p).sz := by
        by_contra hgt
        have := npages_mono (Nat.le_of_lt (Nat.lt_of_not_le hgt))
        omega
      exact hres.freed hh g hle hv hlt hV
  obtain ⟨o, k', hrun, T', hrep', hrest⟩ := wp_run_total hwp
  refine ⟨o, k', T', hrun, hrep', ?_⟩
  cases o with
  | some a => exact hrest
  | none =>
    obtain ⟨hpos, hfail⟩ := hrest
    exact ⟨hpos, hfail, sysSbrk_served hsp.size hpos hhi (wp_mono hwp fun _ _ _ => trivial) hrun⟩

/-- The first process gives a page back. -/
theorem sbrk_eager_small : ∃ k r T, KInv smallBoot k ∧ k.CanRun 0 ∧
    (k.proc 0).pagetable = some r ∧ Rep k.mach.mem r T ∧
    ∃ o k' T', (sysSbrk 0 (-4096 : BitVec 32).toInt true).run k = .done o k' ∧
      Rep k'.mach.mem r T' ∧
      match o with
      | some a => a = (k.proc 0).sz ∧ SbrkDone k 0 T (-4096 : BitVec 32).toInt k' T'
      | none => 0 < (-4096 : BitVec 32).toInt ∧ SbrkFailed k T k' T' ∧
          (Always GrantedK (sysSbrk 0 (-4096 : BitVec 32).toInt true) k →
            TRAPFRAME < (k.proc 0).sz + (-4096 : BitVec 32).toInt.toNat) := by
  obtain ⟨k, -, hk, hc, -⟩ := smallInit_spec
  have hinv := hk.inv smallBoot_boot
  obtain ⟨r, tf, T, hpt, -, hrep, -, -⟩ := hinv.live hc
  exact ⟨k, r, T, hinv, hc, hpt, hrep, sbrk_eager hinv hc hpt hrep (-4096)⟩

end Xv6
