/-
  Page ownership and the address-space invariant over whole runs.

  `frames_owned_once`: in every state of a run each page frame is on the free list once or has
  exactly one owner, and the frames of processes and pipes and the free frames are always the same
  number.  Page-table pages stay when the pages below them are unmapped (`Tree.bare`), so the free
  pages are the same number again up to these.  `address_space`: every process keeps its
  address-space invariant and no operation panics, except for an exit of the first process.
-/
import Xv6.Vm.Runs
import Mathlib.Algebra.BigOperators.Fin

namespace Xv6

open Lib Lib.Prog Finset

/-! ## Owners -/

/-- What of a process a page belongs to. -/
inductive Part
  | trapframe
  /-- The page-table pages of the three levels. -/
  | root
  | mid (i : Nat)
  | low (i : Nat)
  /-- The mapping of a user page. -/
  | user (v : Nat)

inductive Owner
  | proc (p : Nat) (part : Part)
  | pipe
  | kstack (p : Nat)
  /-- A page of the kernel's page table. -/
  | kpage (i : Nat)

/-- The page `f` is this part of the process with record `pr`. -/
def Part.Is (mem : Nat → Nat → Nat) (pr : Proc) (f : Nat) : Part → Prop
  | .trapframe => pr.trapframe = some f
  | .root => pr.pagetable = some f
  | .mid i => ∃ r, pr.pagetable = some r ∧ (treeOf mem r).mid i = some f
  | .low i => ∃ r, pr.pagetable = some r ∧ (treeOf mem r).low i = some f
  | .user v => ∃ r, pr.pagetable = some r ∧ v < UPAGES ∧
      ((treeOf mem r).leaf v).testBit 0 = true ∧ PTE2PA ((treeOf mem r).leaf v) = f

def Owns (k : Kernel) (f : Nat) : Owner → Prop
  | .proc p part => p < NPROC ∧ part.Is k.mach.mem (k.proc p) f
  | .pipe => ∃ i w, i < NFILE ∧ (k.file i).type = .pipe f w
  | .kstack p => p < NPROC ∧ k.kstack p = f
  | .kpage i => k.kpages[i]? = some f

section owners

variable {c k : Kernel} {f : Nat} {mem : Nat → Nat → Nat} {pr : Proc} {r tf : Nat} {T : Tree}

theorem mem_tree_nodes (hrep : Rep mem r T) :
    f ∈ T.nodes ↔ (∃ i, T.mid i = some f) ∨ ∃ i, T.low i = some f := by
  constructor
  · intro h
    rw [T.nodes_eq, Multiset.mem_sum] at h
    obtain ⟨i, _, h⟩ := h
    rw [T.piece_eq, Multiset.mem_add, Multiset.mem_sum] at h
    rcases h with h | h
    · exact Or.inl ⟨i, mem_optFrame.mp h⟩
    · obtain ⟨j, _, h⟩ := h
      exact Or.inr ⟨_, mem_optFrame.mp h⟩
  · intro h
    rcases h with h | h
    · obtain ⟨i, h⟩ := h
      exact hrep.mid_mem h
    · obtain ⟨i, h⟩ := h
      exact hrep.low_mem h

/-- The four kinds of pages of a process. -/
def Part.kind : Part → Fin 4
  | .trapframe => 0
  | .root => 1
  | .mid _ => 2
  | .low _ => 2
  | .user _ => 3

def kindFrames (tf r : Nat) (T : Tree) : Fin 4 → Multiset Nat
  | 0 => {tf}
  | 1 => {r}
  | 2 => T.nodes
  | 3 => T.pages

theorem sum_kindFrames (tf r : Nat) (T : Tree) :
    ∑ i, kindFrames tf r T i = tf ::ₘ Own r T := by
  rw [Fin.sum_univ_four]
  unfold Own
  rw [← Multiset.singleton_add, ← Multiset.singleton_add]
  abel

/-- `Part.Is` of a process with trapframe `tf` and the tree `T` at `r`. -/
def Part.Of (tf r : Nat) (T : Tree) (f : Nat) : Part → Prop
  | .trapframe => tf = f
  | .root => r = f
  | .mid i => T.mid i = some f
  | .low i => T.low i = some f
  | .user v => v < UPAGES ∧ (T.leaf v).testBit 0 = true ∧ PTE2PA (T.leaf v) = f

theorem Part.is_iff (hpt : pr.pagetable = some r) (htf : pr.trapframe = some tf)
    (hrep : Rep mem r T) (part : Part) : part.Is mem pr f ↔ part.Of tf r T f := by
  cases part <;> simp [Part.Is, Part.Of, hpt, htf, hrep.treeOf_eq]

theorem Part.Of.mem_kind (hrep : Rep mem r T) {part : Part} (h : part.Of tf r T f) :
    f ∈ kindFrames tf r T part.kind := by
  cases part with
  | trapframe | root => exact Multiset.mem_singleton.mpr h.symm
  | mid i => exact hrep.mid_mem h
  | low i => exact hrep.low_mem h
  | user v =>
    obtain ⟨hv, hV, rfl⟩ := h
    exact mem_pages hv hV

/-- The pages of a process are those of its parts. -/
theorem mem_procFrames {tramp : Nat} (h : ProcInv mem tramp pr) :
    f ∈ procFrames mem pr ↔ ∃ part : Part, part.Is mem pr f := by
  cases h with
  | free h =>
    rw [h]
    refine ⟨fun hf => absurd hf (Multiset.notMem_zero f), ?_⟩
    intro hf
    obtain ⟨part, hf⟩ := hf
    cases part with
    | trapframe | root => cases hf
    | mid | low | user => obtain ⟨r, hr, _⟩ := hf; cases hr
  | @live r tf T _ hpt htf hrep _ =>
    simp only [procFrames_live hpt htf hrep, Part.is_iff hpt htf hrep]
    constructor
    · intro hf
      unfold Own at hf
      rw [Multiset.mem_cons, Multiset.mem_cons, Multiset.mem_add, mem_tree_nodes hrep, T.pages_eq,
        Multiset.mem_sum] at hf
      rcases hf with hf | hf | (⟨i, hf⟩ | ⟨i, hf⟩) | ⟨v, hv, hf⟩
      · exact ⟨.trapframe, hf.symm⟩
      · exact ⟨.root, hf.symm⟩
      · exact ⟨.mid i, hf⟩
      · exact ⟨.low i, hf⟩
      · exact ⟨.user v, mem_userPages.mp hv, mem_leafFrame.mp hf⟩
    · intro hf
      obtain ⟨part, hf⟩ := hf
      rw [← sum_kindFrames, Multiset.mem_sum]
      exact ⟨part.kind, mem_univ _, hf.mem_kind hrep⟩

theorem pages_inj {v w : Nat} (h : T.pages.Nodup) (hv : v < UPAGES) (hw : w < UPAGES)
    (hfv : f ∈ leafFrame (T.leaf v)) (hfw : f ∈ leafFrame (T.leaf w)) : v = w := by
  exact nodup_sum_inj h (mem_userPages.mpr hv) (mem_userPages.mpr hw) hfv hfw

/-- A page is one part only of a process whose pages are all different. -/
theorem Part.Is.unique {tramp : Nat} {a b : Part} (h : ProcInv mem tramp pr)
    (hnd : (procFrames mem pr).Nodup) (ha : a.Is mem pr f) (hb : b.Is mem pr f) : a = b := by
  cases h with
  | free h =>
    have hf := (mem_procFrames (.free h : ProcInv mem tramp pr)).mpr ⟨a, ha⟩
    rw [h] at hf
    exact absurd hf (Multiset.notMem_zero f)
  | @live r tf T _ hpt htf hrep _ =>
    rw [procFrames_live hpt htf hrep, ← sum_kindFrames] at hnd
    rw [Part.is_iff hpt htf hrep] at ha hb
    have hkind := nodup_sum_inj hnd (mem_univ _) (mem_univ _) (ha.mem_kind hrep) (hb.mem_kind hrep)
    have hpages : (kindFrames tf r T 3).Nodup := nodup_of_nodup_sum hnd (mem_univ 3)
    -- parts of different kinds are out by `hkind`; parts of one kind compare by their indices
    cases a with
    | trapframe =>
      cases b with
      | trapframe => rfl
      | _ => simp [Part.kind] at hkind
    | root =>
      cases b with
      | root => rfl
      | _ => simp [Part.kind] at hkind
    | mid i =>
      cases b with
      | mid j => rw [hrep.mid_inj ha hb]
      | low j => exact absurd rfl (hrep.mid_ne_low ha hb)
      | _ => simp [Part.kind] at hkind
    | low i =>
      cases b with
      | mid j => exact absurd rfl (hrep.mid_ne_low hb ha)
      | low j => rw [hrep.low_inj ha hb]
      | _ => simp [Part.kind] at hkind
    | user v =>
      cases b with
      | user w =>
        have hvw := pages_inj hpages ha.1 hb.1 (mem_leafFrame.mpr ha.2) (mem_leafFrame.mpr hb.2)
        rw [hvw]
      | _ => simp [Part.kind] at hkind

/-- The four kinds of owners. -/
def Owner.kind : Owner → Fin 4
  | .proc _ _ => 0
  | .pipe => 1
  | .kstack _ => 2
  | .kpage _ => 3

def Kernel.ownedBy (k : Kernel) : Fin 4 → Multiset Nat
  | 0 => ∑ p ∈ procSlots, procFrames k.mach.mem (k.proc p)
  | 1 => (pipeSet k.file).val
  | 2 => ∑ p ∈ procSlots, {k.kstack p}
  | 3 => ↑k.kpages

theorem sum_ownedBy (k : Kernel) : ∑ i, k.ownedBy i = k.owned := by
  rw [Fin.sum_univ_four]
  show ∑ p ∈ procSlots, procFrames k.mach.mem (k.proc p) + (pipeSet k.file).val +
    ∑ p ∈ procSlots, {k.kstack p} + ↑k.kpages = k.owned
  unfold Kernel.owned Kernel.bootFrames
  rw [add_assoc]

section sys

variable {refs : Nat → Nat} {H : Multiset Nat}

theorem Owns.mem_kind {o : Owner} (h : Sys c k refs H) (ho : Owns k f o) :
    f ∈ k.ownedBy o.kind := by
  cases o with
  | proc p part =>
    obtain ⟨hp, hpart⟩ := ho
    refine Multiset.mem_sum.mpr ⟨p, mem_procs.mpr hp, ?_⟩
    exact (mem_procFrames (h.procs p hp)).mpr ⟨part, hpart⟩
  | pipe => exact mem_pipeSet.mpr ho
  | kstack p =>
    obtain ⟨hp, hk⟩ := ho
    exact Multiset.mem_sum.mpr ⟨p, mem_procs.mpr hp, Multiset.mem_singleton.mpr hk.symm⟩
  | kpage i => exact Multiset.mem_coe.mpr (List.mem_of_getElem? ho)

theorem mem_owned (h : Sys c k refs H) : f ∈ k.owned ↔ ∃ o, Owns k f o := by
  constructor
  · intro hf
    unfold Kernel.owned Kernel.bootFrames at hf
    rw [Multiset.mem_add, Multiset.mem_add, Multiset.mem_add, Multiset.mem_sum,
      Multiset.mem_sum] at hf
    rcases hf with (⟨p, hp, hf⟩ | hf) | ⟨p, hp, hf⟩ | hf
    · have hp := mem_procs.mp hp
      obtain ⟨part, hpart⟩ := (mem_procFrames (h.procs p hp)).mp hf
      exact ⟨.proc p part, hp, hpart⟩
    · exact ⟨.pipe, mem_pipeSet.mp hf⟩
    · exact ⟨.kstack p, mem_procs.mp hp, (Multiset.mem_singleton.mp hf).symm⟩
    · obtain ⟨i, hi⟩ := List.mem_iff_getElem?.mp (Multiset.mem_coe.mp hf)
      exact ⟨.kpage i, hi⟩
  · intro hf
    obtain ⟨o, ho⟩ := hf
    rw [← sum_ownedBy, Multiset.mem_sum]
    exact ⟨o.kind, mem_univ _, ho.mem_kind h⟩

theorem Owns.unique {a b : Owner} (h : Sys c k refs H) (ha : Owns k f a) (hb : Owns k f b) :
    a = b := by
  have hnd : (∑ i, k.ownedBy i).Nodup := by
    rw [sum_ownedBy]
    exact (Multiset.nodup_add.mp (Multiset.nodup_add.mp h.nodup).1).1
  have hkind := nodup_sum_inj hnd (mem_univ _) (mem_univ _) (ha.mem_kind h) (hb.mem_kind h)
  cases a with
  | proc p part =>
    cases b with
    | proc q part' =>
      obtain ⟨hp, ha⟩ := ha
      obtain ⟨hq, hb⟩ := hb
      have hprocs : (∑ p ∈ procSlots, procFrames k.mach.mem (k.proc p)).Nodup :=
        nodup_of_nodup_sum hnd (mem_univ (0 : Fin 4))
      have hpq : p = q :=
        nodup_sum_inj hprocs (mem_procs.mpr hp) (mem_procs.mpr hq)
          ((mem_procFrames (h.procs p hp)).mpr ⟨part, ha⟩)
          ((mem_procFrames (h.procs q hq)).mpr ⟨part', hb⟩)
      rw [← hpq] at hb
      rw [← hpq, ha.unique (h.procs p hp) (nodup_of_nodup_sum hprocs (mem_procs.mpr hp)) hb]
    | _ => simp [Owner.kind] at hkind
  | pipe =>
    cases b with
    | pipe => rfl
    | _ => simp [Owner.kind] at hkind
  | kstack p =>
    cases b with
    | kstack q =>
      have hstacks : (∑ p ∈ procSlots, ({k.kstack p} : Multiset Nat)).Nodup :=
        nodup_of_nodup_sum hnd (mem_univ (2 : Fin 4))
      have hpq : p = q :=
        nodup_sum_inj hstacks (mem_procs.mpr ha.1) (mem_procs.mpr hb.1)
          (Multiset.mem_singleton.mpr ha.2.symm) (Multiset.mem_singleton.mpr hb.2.symm)
      rw [hpq]
    | _ => simp [Owner.kind] at hkind
  | kpage i =>
    cases b with
    | kpage j =>
      have hpages : (k.kpages : Multiset Nat).Nodup :=
        nodup_of_nodup_sum hnd (mem_univ (3 : Fin 4))
      obtain ⟨hi, hfi⟩ := List.getElem?_eq_some_iff.mp ha
      obtain ⟨hj, hfj⟩ := List.getElem?_eq_some_iff.mp hb
      have hij := (Multiset.coe_nodup.mp hpages).getElem_inj_iff.mp (hfi.trans hfj.symm)
      rw [hij]
    | _ => simp [Owner.kind] at hkind

/-- A page frame is free, once, or has one owner. -/
def Kernel.OwnedOnce (k : Kernel) (f : Nat) : Prop :=
  (k.mach.freelist.count f = 1 ∧ ∀ o, ¬ Owns k f o) ∨ (f ∉ k.mach.freelist ∧ ∃! o, Owns k f o)

theorem Sys.ownedOnce (h : Sys c k refs 0) (hf : f ∈ allFrames k.mach.kend) : k.OwnedOnce f := by
  have hnd := h.nodup
  rw [← h.frames] at hf
  rw [add_zero] at hf hnd
  obtain ⟨_, hfree, hdis⟩ := Multiset.nodup_add.mp hnd
  rcases Multiset.mem_add.mp hf with howned | hlist
  · refine Or.inr ⟨?_, ?_⟩
    · intro hlist
      exact Multiset.disjoint_left.mp hdis howned (Multiset.mem_coe.mpr hlist)
    · obtain ⟨o, ho⟩ := (mem_owned h).mp howned
      exact ⟨o, ho, fun o' ho' => ho'.unique h ho⟩
  · refine Or.inl ⟨?_, ?_⟩
    · exact List.count_eq_one_of_mem (Multiset.coe_nodup.mp hfree) (Multiset.mem_coe.mp hlist)
    · intro o ho
      exact Multiset.disjoint_left.mp hdis ((mem_owned h).mpr ⟨o, ho⟩) hlist

end sys

end owners

/-! ## Page ownership -/

/-- Every process but `p` has been reaped. -/
def Kernel.Only (k : Kernel) (p : Nat) : Prop :=
  ∀ q, q < NPROC → q ≠ p → (k.proc q).state = .unused

instance (k : Kernel) (p : Nat) : Decidable (k.Only p) :=
  inferInstanceAs (Decidable (∀ q, q < NPROC → q ≠ p → (k.proc q).state = .unused))

/-- The pages of a process: its trapframe, its page-table pages and its user pages. -/
def Kernel.pagesOf (k : Kernel) (p : Nat) : Nat := (procFrames k.mach.mem (k.proc p)).card

section ownership

variable {c k k' : Kernel} {p : Nat}

theorem Sys.unused {refs : Nat → Nat} {H : Multiset Nat} (h : Sys c k refs H) (hp : p < NPROC)
    (hs : (k.proc p).state = .unused) : procFrames k.mach.mem (k.proc p) = 0 := by
  cases h.procs p hp with
  | free hfree =>
    rw [hfree]
    rfl
  | live state _ _ _ _ => exact absurd hs state

/-- With one process left the frames are its pages, the open pipes, those taken at boot and the
    free ones. -/
theorem KInv.count (h : KInv c k) (hp : p < NPROC) (ho : k.Only p) :
    k.mach.freelist.length + k.pagesOf p + (pipeSet k.file).card + c.bootFrames.card =
      (allFrames c.mach.kend).card := by
  have hothers : ∑ q ∈ procSlots.erase p, procFrames k.mach.mem (k.proc q) = 0 := by
    refine sum_eq_zero ?_
    intro q hq
    obtain ⟨hne, hq⟩ := mem_erase.mp hq
    have hq := mem_procs.mp hq
    exact h.sys.unused hq (ho q hq hne)
  have hboot : k.bootFrames = c.bootFrames := by
    unfold Kernel.bootFrames
    rw [h.sys.kstack, h.sys.kpages]
  rw [← h.sys.kend, ← h.sys.frames, owned_eq k hp]
  unfold Kernel.others Kernel.pagesOf
  rw [hothers, hboot]
  simp only [Multiset.card_add, Multiset.card_zero, Multiset.coe_card, card_val]
  omega

/-! ### Tables without leaves -/

/-- A page is mapped below entry `i` of a level whose entries cover `n` pages each. -/
def Tree.MapsBelow (T : Tree) (n i : Nat) : Prop := ∃ v, v / n = i ∧ (T.leaf v).testBit 0 = true

open Classical in
/-- The page-table pages without a mapping below them. -/
noncomputable def Tree.bare (T : Tree) : Multiset Nat :=
  ∑ i ∈ entries, ((if T.MapsBelow (512 * 512) i then 0 else optFrame (T.mid i)) +
    ∑ j ∈ entries, if T.MapsBelow 512 (i * 512 + j) then 0 else optFrame (T.low (i * 512 + j)))

open Classical in
/-- The number of page-table pages that the mappings of a tree need. -/
noncomputable def Tree.needed (T : Tree) : Nat :=
  ∑ i ∈ entries, ((if T.MapsBelow (512 * 512) i then 1 else 0) +
    ∑ j ∈ entries, if T.MapsBelow 512 (i * 512 + j) then 1 else 0)

/-- The page-table pages of process `p` without a mapping below them. -/
noncomputable def Kernel.bareTables (k : Kernel) (p : Nat) : Nat :=
  match (k.proc p).pagetable with
  | none => 0
  | some r => (treeOf k.mach.mem r).bare.card

section bare

variable {mem : Nat → Nat → Nat} {r : Nat} {T T' : Tree}

/-- A mapping has the page-table pages of both levels above it. -/
theorem Rep.has_tables {v : Nat} (h : Rep mem r T) (hV : (T.leaf v).testBit 0 = true) :
    T.low (v / 512) ≠ none ∧ T.mid (v / 512 / 512) ≠ none := by
  have hlow : T.low (v / 512) ≠ none := by
    intro hnone
    rw [h.leaf_none v hnone] at hV
    cases hV
  exact ⟨hlow, fun hnone => hlow (h.low_none _ hnone)⟩

open Classical in
theorem Rep.card_nodes (h : Rep mem r T) : T.nodes.card = T.bare.card + T.needed := by
  have hone : ∀ (P : Prop) [Decidable P] (o : Option Nat), (P → o ≠ none) →
      (optFrame o).card = (if P then 0 else optFrame o).card + if P then 1 else 0 := by
    intro P _ o ho
    split
    · rename_i hP
      obtain ⟨f, hf⟩ := Option.ne_none_iff_exists'.mp (ho hP)
      rw [hf]
      rfl
    · rfl
  unfold Tree.bare Tree.needed
  rw [T.nodes_eq, Multiset.card_sum, Multiset.card_sum, ← sum_add_distrib]
  refine sum_congr rfl fun i _ => ?_
  have hmid : T.MapsBelow (512 * 512) i → T.mid i ≠ none := by
    rintro ⟨v, rfl, hV⟩
    rw [← Nat.div_div_eq_div_mul]
    exact (h.has_tables hV).2
  have hlow : ∀ j, T.MapsBelow 512 (i * 512 + j) → T.low (i * 512 + j) ≠ none := by
    rintro j ⟨v, hv, hV⟩
    rw [← hv]
    exact (h.has_tables hV).1
  rw [T.piece_eq, Multiset.card_add, Multiset.card_add, Multiset.card_sum, Multiset.card_sum,
    hone _ _ hmid, sum_congr rfl fun j _ => hone _ _ (hlow j), sum_add_distrib]
  exact add_add_add_comm _ _ _ _

/-- What a tree maps decides how many pages it needs. -/
theorem Tree.needed_congr (h : ∀ v, (T.leaf v).testBit 0 = (T'.leaf v).testBit 0) :
    T.needed = T'.needed ∧ T.pages.card = T'.pages.card := by
  refine ⟨?_, ?_⟩
  · have hbelow : T.MapsBelow = T'.MapsBelow := by
      funext n i
      simp only [Tree.MapsBelow, h]
    unfold Tree.needed
    rw [hbelow]
  · rw [T.pages_eq, T'.pages_eq, Multiset.card_sum, Multiset.card_sum]
    refine sum_congr rfl fun v _ => ?_
    unfold leafFrame
    rw [h v]
    split
    · rw [Multiset.card_singleton, Multiset.card_singleton]
    · rfl

end bare

/-- With one process left, what it maps decides the number of free pages up to its bare tables. -/
theorem KInv.count_mapped (h : KInv c k) (h' : KInv c k') (hp : p < NPROC)
    (hs : (k.proc p).state ≠ .unused) (hs' : (k'.proc p).state ≠ .unused) (ho : k.Only p)
    (ho' : k'.Only p)
    (hsame : ∀ v, (∃ f, Owns k f (.proc p (.user v))) ↔ ∃ f, Owns k' f (.proc p (.user v))) :
    k.mach.freelist.length + k.bareTables p + (pipeSet k.file).card =
      k'.mach.freelist.length + k'.bareTables p + (pipeSet k'.file).card := by
  obtain ⟨r, tf, T, hpt, htf, hrep, hsp, -⟩ := h.sys.live hp hs
  obtain ⟨r', tf', T', hpt', htf', hrep', hsp', -⟩ := h'.sys.live hp hs'
  have hcount := h.count hp ho
  have hcount' := h'.count hp ho'
  have hleaf : ∀ v, (T.leaf v).testBit 0 = (T'.leaf v).testBit 0 := by
    intro v
    rcases Nat.lt_trichotomy v UPAGES with hv | rfl | hv
    · have hiff := hsame v
      simp only [Owns, Part.is_iff hpt htf hrep, Part.is_iff hpt' htf' hrep', Part.Of, hp, hv,
        true_and, exists_and_left, exists_eq', and_true] at hiff
      exact Bool.eq_iff_iff.mpr hiff
    · rw [hsp.trapframe, hsp'.trapframe, leafPte_valid, leafPte_valid]
    · rcases Nat.eq_or_lt_of_le hv with rfl | hv
      · rw [hsp.trampoline, hsp'.trampoline, leafPte_valid, leafPte_valid]
      · rw [hsp.high v hv, hsp'.high v hv]
  obtain ⟨hneeded, hpages⟩ := Tree.needed_congr hleaf
  have hbare : k.bareTables p = T.bare.card := by
    unfold Kernel.bareTables
    rw [hpt, ← hrep.treeOf_eq]
  have hbare' : k'.bareTables p = T'.bare.card := by
    unfold Kernel.bareTables
    rw [hpt', ← hrep'.treeOf_eq]
  have hnodes := hrep.card_nodes
  have hnodes' := hrep'.card_nodes
  unfold Kernel.pagesOf at hcount hcount'
  rw [procFrames_live hpt htf hrep] at hcount
  rw [procFrames_live hpt' htf' hrep'] at hcount'
  unfold Own at hcount hcount'
  simp only [Multiset.card_cons, Multiset.card_add] at hcount hcount'
  omega

/-- Every page frame is on the free list once or has exactly one owner, and only page frames are
    owned.  Whenever the same process is the only one left, the free pages, its pages and the pages
    of open pipes are the same number; and when it maps the same user pages again, the free pages
    are as many as before up to its page-table pages without a mapping and the open pipes. -/
theorem frames_owned_once (hb : Boot c) (hk : Reach c k) :
    (∀ f, f % PGSIZE = 0 → PGROUNDUP k.mach.kend ≤ f → f < PHYSTOP → k.OwnedOnce f) ∧
    (∀ f o, Owns k f o → f % PGSIZE = 0 ∧ PGROUNDUP k.mach.kend ≤ f ∧ f < PHYSTOP) ∧
    ∀ k' p, Reach c k' → p < NPROC → k.Only p → k'.Only p →
      k.mach.freelist.length + k.pagesOf p + (pipeSet k.file).card =
        k'.mach.freelist.length + k'.pagesOf p + (pipeSet k'.file).card ∧
      ((k.proc p).state ≠ .unused → (k'.proc p).state ≠ .unused →
        (∀ v, (∃ f, Owns k f (.proc p (.user v))) ↔ ∃ f, Owns k' f (.proc p (.user v))) →
        k.mach.freelist.length + k.bareTables p + (pipeSet k.file).card =
          k'.mach.freelist.length + k'.bareTables p + (pipeSet k'.file).card) := by
  have hinv := hk.inv hb
  refine ⟨?_, ?_, ?_⟩
  · intro f halign hlow hhigh
    exact hinv.sys.ownedOnce (mem_allFrames.mpr ⟨halign, hlow, hhigh⟩)
  · intro f o ho
    refine mem_allFrames.mp ?_
    rw [← hinv.sys.frames]
    exact Multiset.mem_add.mpr (Or.inl (Multiset.mem_add.mpr (Or.inl
      ((mem_owned hinv.sys).mpr ⟨o, ho⟩))))
  · intro k' p hk' hp ho ho'
    have hinv' := hk'.inv hb
    refine ⟨?_, fun hs hs' hsame => hinv.count_mapped hinv' hp hs hs' ho ho' hsame⟩
    have h := hinv.count hp ho
    have h' := hinv'.count hp ho'
    omega

/-- The first process grows to one page below 2 MiB without touching what it gets, then by two pages
    across this boundary, and gives these two back. -/
def smallRun : Option (Kernel × Kernel × Kernel × Kernel) := do
  let k0 ← smallBoot.init smallImage
  let k ← k0.does (.sbrk 2080768 false)
  let k1 ← k.does (.sbrk 8192 true)
  let k2 ← k1.does (.sbrk (-8192) true)
  pure (k0, k, k1, k2)

theorem smallRun_spec : ∃ k0 k k1 k2, smallBoot.init smallImage = some k0 ∧
    k0.does (.sbrk 2080768 false) = some k ∧ k.does (.sbrk 8192 true) = some k1 ∧
    k1.does (.sbrk (-8192) true) = some k2 ∧ k.Only 0 ∧ k2.Only 0 ∧
    k.initproc = 0 ∧ k2.initproc = 0 ∧ (k.proc 0).sz = 2093056 ∧ (k2.proc 0).sz = 2093056 ∧
    k2.mach.freelist.length + 1 = k.mach.freelist.length := by
  have hrun : smallRun.any (fun (_, k, _, k2) => k.Only 0 ∧ k2.Only 0 ∧ k.initproc = 0 ∧
      k2.initproc = 0 ∧ (k.proc 0).sz = 2093056 ∧ (k2.proc 0).sz = 2093056 ∧
      k2.mach.freelist.length + 1 = k.mach.freelist.length) = true := by decide +kernel
  obtain ⟨⟨k0, k, k1, k2⟩, hr, hspec⟩ := (Option.any_eq_true _ _).mp hrun
  obtain ⟨_, h0, hr⟩ := Option.bind_eq_some_iff.mp hr
  obtain ⟨_, h1, hr⟩ := Option.bind_eq_some_iff.mp hr
  obtain ⟨_, h2, hr⟩ := Option.bind_eq_some_iff.mp hr
  obtain ⟨_, h3, hr⟩ := Option.bind_eq_some_iff.mp hr
  cases hr
  exact ⟨k0, k, k1, k2, h0, h1, h2, h3, of_decide_eq_true hspec⟩

theorem frames_owned_once_small : ∃ k k2, Reach smallBoot k ∧ Reach smallBoot k2 ∧
    (∀ f, f % PGSIZE = 0 → PGROUNDUP k.mach.kend ≤ f → f < PHYSTOP → k.OwnedOnce f) ∧
    (pipeSet k.file).card + k.pagesOf 0 + 1 = (pipeSet k2.file).card + k2.pagesOf 0 := by
  obtain ⟨k0, k, k1, k2, h0, h, h1, h2, ho, ho2, -, -, -, -, hfree⟩ := smallRun_spec
  have hk := (reach_init h0).does h
  have hk2 := (hk.does h1).does h2
  obtain ⟨hframes, -, hcount⟩ := frames_owned_once smallBoot_boot hk
  obtain ⟨hcount, -⟩ := hcount k2 0 hk2 (by decide) ho ho2
  exact ⟨k, k2, hk, hk2, hframes, by omega⟩

/-- Growing across a 2 MiB boundary and shrinking back leaves a page-table page behind: the first
    process is again the only one and has the size it had, and a page is missing on the free list. -/
theorem sbrk_back_keeps_table_pages : ∃ c img k0 k k1 k2, Boot c ∧ c.init img = some k0 ∧
    (Op.prog k.initproc (.sbrk 2080768 false)).run k0 = .done () k ∧
    (Op.prog k.initproc (.sbrk 8192 true)).run k = .done () k1 ∧
    (Op.prog k.initproc (.sbrk (-8192) true)).run k1 = .done () k2 ∧
    k.Only k.initproc ∧ k2.Only k2.initproc ∧ k2.initproc = k.initproc ∧
    (k2.proc k2.initproc).sz = (k.proc k.initproc).sz ∧
    k2.mach.freelist.length + 1 = k.mach.freelist.length := by
  obtain ⟨k0, k, k1, k2, h0, h, h1, h2, ho, ho2, hi, hi2, hsz, hsz2, hfree⟩ := smallRun_spec
  refine ⟨smallBoot, smallImage, k0, k, k1, k2, smallBoot_boot, h0, ?_⟩
  rw [hi2, hi]
  exact ⟨(run_of_does h).2, (run_of_does h1).2, (run_of_does h2).2, ho, ho2, rfl,
    hsz2.trans hsz.symm, hfree⟩

end ownership

/-! ## The address space -/

/-- The entry that `walk(pagetable, va, 0)` finds, or 0. -/
def Mach.pte (s : Mach) (pagetable va : Nat) : Nat :=
  match (walk pagetable va false).run s with
  | .done (some p) _ => s.mem p.page p.idx
  | _ => 0

/-- The address space of a process in use.  Bit 0 of an entry is `PTE_V` and bit 4 is `PTE_U`. -/
structure AddressSpace (s : Mach) (pr : Proc) (pagetable : Nat) : Prop where
  size : pr.sz ≤ TRAPFRAME
  below : ∀ va, va % PGSIZE = 0 → va < MAXVA → va ≠ TRAMPOLINE → va ≠ TRAPFRAME →
    (s.pte pagetable va).testBit 0 = true → va < PGROUNDUP pr.sz
  user : ∀ va, va % PGSIZE = 0 → va < MAXVA → va ≠ TRAMPOLINE → va ≠ TRAPFRAME →
    (s.pte pagetable va).testBit 0 = true →
    (s.pte pagetable va).testBit 4 = true ∨ pr.guard = some (va / PGSIZE)
  trampoline : (s.pte pagetable TRAMPOLINE).testBit 0 = true ∧
    (s.pte pagetable TRAMPOLINE).testBit 4 = false
  trapframe : (s.pte pagetable TRAPFRAME).testBit 0 = true ∧
    (s.pte pagetable TRAPFRAME).testBit 4 = false

section space

variable {c k : Kernel} {s : Mach} {r : Nat} {T : Tree}

theorem Rep.pte_eq {v : Nat} (h : Rep s.mem r T) (hv : v * PGSIZE < MAXVA) :
    s.pte r (v * PGSIZE) = T.leaf v := by
  have hwalk : wp Crit.total (fun o t => o = T.slot v ∧ t = s) (walk r (v * PGSIZE) false) s :=
    wp_walk_false h hv ⟨rfl, rfl⟩
  obtain ⟨o, t, hrun, ho, -⟩ := wp_run_total hwalk
  unfold Mach.pte
  rw [hrun, ho]
  cases hslot : T.slot v with
  | none => exact (h.leaf_of_slot_none hslot).symm
  | some p => exact h.load_slot hslot

theorem Space.addressSpace {pr : Proc} {tf : Nat} (hrep : Rep s.mem r T)
    (h : Space T.leaf pr.sz pr.guard s.trampoline tf) : AddressSpace s pr r := by
  have hpage : ∀ va, va % PGSIZE = 0 → va < MAXVA → va ≠ TRAMPOLINE → va ≠ TRAPFRAME →
      va / PGSIZE < UPAGES ∧ s.pte r va = T.leaf (va / PGSIZE) := by
    intro va halign hlt h1 h2
    have hva : va / PGSIZE * PGSIZE = va := by
      simp only [PGSIZE] at halign ⊢
      omega
    refine ⟨?_, ?_⟩
    · simp only [UPAGES, TRAMPOLINE, TRAPFRAME, MAXVA, PGSIZE] at *
      omega
    · have hpte := hrep.pte_eq (by rw [hva]; exact hlt)
      rw [hva] at hpte
      exact hpte
  have htramp : s.pte r TRAMPOLINE = T.leaf (UPAGES + 1) := hrep.pte_eq (v := UPAGES + 1) (by decide)
  have htf : s.pte r TRAPFRAME = T.leaf UPAGES := hrep.pte_eq (v := UPAGES) (by decide)
  refine ⟨h.size, ?_, ?_, ?_, ?_⟩
  · intro va halign hlt h1 h2 hV
    obtain ⟨hv, hpte⟩ := hpage va halign hlt h1 h2
    rw [hpte] at hV
    have hbelow := h.below _ hv hV
    rw [PGROUNDUP_eq]
    simp only [PGSIZE] at halign hbelow ⊢
    omega
  · intro va halign hlt h1 h2 hV
    obtain ⟨hv, hpte⟩ := hpage va halign hlt h1 h2
    rw [hpte] at hV ⊢
    exact h.user _ hv hV
  · rw [htramp, h.trampoline]
    refine ⟨leafPte_valid _ _, ?_⟩
    rw [testBit_leafPte _ (by decide) (by decide)]
    rfl
  · rw [htf, h.trapframe]
    refine ⟨leafPte_valid _ _, ?_⟩
    rw [testBit_leafPte _ (by decide) (by decide)]
    rfl

/-- A program with one panic that it can end in. -/
theorem done_or_panicked {m : VmPanic} {prog : KernelM Unit} {Q : Unit → Kernel → Prop}
    (h : wp (Crit.only m) Q prog k) :
    (∃ k', prog.run k = .done () k') ∨ ∃ k', prog.run k = .panicked m k' := by
  have h := wp_run h
  cases hrun : prog.run k with
  | done _ k' => exact Or.inl ⟨k', rfl⟩
  | panicked m' k' =>
    rw [hrun] at h
    have hm : m' = m := h
    rw [hm]
    exact Or.inr ⟨k', rfl⟩
  | blocked k' =>
    rw [hrun] at h
    exact h.elim

/-- Every process in use has its address-space invariant.  Every operation of a process that can run
    returns, but for an exit of the first process, which panics with a message of its own; and the
    first process returns to user space, but for a file that `exec` does not load. -/
theorem address_space (hb : Boot c) (hk : Reach c k) :
    (∀ p, p < NPROC → (k.proc p).state ≠ .unused → ∃ pagetable,
      (k.proc p).pagetable = some pagetable ∧ AddressSpace k.mach (k.proc p) pagetable) ∧
    (∀ p (op : Op), k.CanRun p →
      (∃ k', (op.prog p).run k = .done () k') ∨
        ∃ k', (op.prog p).run k = .panicked .initExiting k') ∧
    ∀ k0 img data, userinit.run c = .done () k0 →
      (∃ k', (forkret k0.initproc img data).run k0 = .done () k') ∨
        ∃ k', (forkret k0.initproc img data).run k0 = .panicked .exec k' := by
  have hinv := hk.inv hb
  refine ⟨?_, ?_, ?_⟩
  · intro p hp hs
    obtain ⟨r, tf, T, hpt, -, hrep, hsp, -⟩ := hinv.sys.live hp hs
    exact ⟨r, hpt, hsp.addressSpace hrep⟩
  · intro p op hp
    exact done_or_panicked (wp_prog op hinv hp)
  · intro k0 img data hboot
    obtain ⟨h0, hp0⟩ := wp_run_done (wp_userinit hb) hboot
    exact done_or_panicked (wp_forkret h0 hp0)

/-- The first process with its program, a stack and pages it has not touched. -/
theorem address_space_small : ∃ k, Reach smallBoot k ∧ k.CanRun 0 ∧ (k.proc 0).sz = 2093056 ∧
    (∃ pagetable, (k.proc 0).pagetable = some pagetable ∧
      AddressSpace k.mach (k.proc 0) pagetable) ∧
    ∃ k', (Op.prog 0 (.sbrk 8192 true)).run k = .done () k' := by
  obtain ⟨k0, k, k1, -, h0, h, h1, -, -, -, -, -, hsz, -⟩ := smallRun_spec
  have hk := (reach_init h0).does h
  obtain ⟨hc, hrun⟩ := run_of_does h1
  obtain ⟨hspace, hops, -⟩ := address_space smallBoot_boot hk
  refine ⟨k, hk, hc, hsz, hspace 0 (by decide) hc.used, ?_⟩
  rcases hops 0 (.sbrk 8192 true) hc with hdone | hpanic
  · exact hdone
  · obtain ⟨k', hpanic⟩ := hpanic
    rw [hrun] at hpanic
    cases hpanic

end space

end Xv6
