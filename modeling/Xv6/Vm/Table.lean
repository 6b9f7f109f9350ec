/-
  Who owns which page frame.

  `Kernel.owned k` is the multiset of all frames that belong to something: for each process its
  trapframe, its page table and the user pages mapped there, then the pipes that are open, and the
  pages the kernel took at boot.  `Sys c k refs H` is the invariant of the system: these frames,
  the frames `H` that the running code holds and the free list are together every frame of memory,
  each once; every process has its address-space invariant, and the file table has `refs f`
  references to file `f`.  `c` is the state at boot, for the data that never changes.

  An operation of one process moves frames between that process, the code and the free list
  (`Moves`); `Sys.step` turns such a move into the invariant of the new state.
-/
import Xv6.Vm.Exec

namespace Xv6

open Finset Function
open Lib.Prog hiding update

@[irreducible] def procSlots : Finset Nat := range NPROC

@[irreducible] def fileSlots : Finset Nat := range NFILE

@[simp] theorem mem_procs {p : Nat} : p ∈ procSlots ↔ p < NPROC := by
  unfold procSlots
  exact mem_range

@[simp] theorem mem_files {f : Nat} : f ∈ fileSlots ↔ f < NFILE := by
  unfold fileSlots
  exact mem_range

/-! ## Owners -/

/-- The frames of a process. -/
def procFrames (mem : Nat → Nat → Nat) (pr : Proc) : Multiset Nat :=
  optFrame pr.trapframe +
    match pr.pagetable with
    | none => 0
    | some r => Own r (treeOf mem r)

def FileType.page : FileType → Option Nat
  | .pipe pg _ => Option.some pg
  | _ => Option.none

/-- The pages of the pipes that have an open end. -/
def pipeSet (file : Nat → File) : Finset Nat :=
  fileSlots.biUnion fun f => (file f).type.page.toFinset

/-- The pages the kernel took at boot. -/
def Kernel.bootFrames (k : Kernel) : Multiset Nat := ∑ p ∈ procSlots, {k.kstack p} + ↑k.kpages

def Kernel.owned (k : Kernel) : Multiset Nat :=
  ∑ p ∈ procSlots, procFrames k.mach.mem (k.proc p) + (pipeSet k.file).val + k.bootFrames

/-- The page frames from `PGROUNDUP(end)` to `PHYSTOP`, as `freerange` goes through them. -/
def allFrames (kend : Nat) : Multiset Nat :=
  (Multiset.range ((PHYSTOP - PGROUNDUP kend) / PGSIZE)).map fun i => PGROUNDUP kend + i * PGSIZE

theorem allFrames_nodup (kend : Nat) : (allFrames kend).Nodup := by
  refine Multiset.Nodup.map ?_ (Multiset.nodup_range _)
  intro i j hij
  simp only [PGSIZE] at hij
  omega

theorem mem_allFrames {kend f : Nat} :
    f ∈ allFrames kend ↔ f % PGSIZE = 0 ∧ PGROUNDUP kend ≤ f ∧ f < PHYSTOP := by
  unfold allFrames
  rw [Multiset.mem_map]
  unfold PGROUNDUP
  constructor
  · intro h
    obtain ⟨i, hi, hf⟩ := h
    rw [Multiset.mem_range] at hi
    simp only [PGSIZE] at hi hf ⊢
    omega
  · intro h
    obtain ⟨h1, h2, h3⟩ := h
    refine ⟨(f - (kend + PGSIZE - 1) / PGSIZE * PGSIZE) / PGSIZE, ?_, ?_⟩
    · rw [Multiset.mem_range]
      simp only [PGSIZE, PHYSTOP, KERNBASE] at h1 h2 h3 ⊢
      omega
    · simp only [PGSIZE] at h1 h2 h3 ⊢
      omega

theorem mem_pipeSet {file : Nat → File} {pg : Nat} :
    pg ∈ pipeSet file ↔ ∃ f w, f < NFILE ∧ (file f).type = .pipe pg w := by
  unfold pipeSet
  rw [mem_biUnion]
  constructor
  · intro h
    obtain ⟨f, hf, hpg⟩ := h
    rw [mem_files] at hf
    rw [Option.mem_toFinset] at hpg
    cases ht : (file f).type with
    | none | inode => rw [ht] at hpg; cases hpg
    | pipe q w =>
      rw [ht] at hpg
      cases hpg
      exact ⟨f, w, hf, ht⟩
  · intro h
    obtain ⟨f, w, hf, ht⟩ := h
    refine ⟨f, mem_files.mpr hf, ?_⟩
    rw [ht]
    exact Option.mem_toFinset.mpr rfl

/-! ## The invariant -/

/-- A slot of the process table is free, or has a trapframe and a page table. -/
inductive ProcInv (mem : Nat → Nat → Nat) (trampoline : Nat) (pr : Proc) : Prop
  | free (h : pr = Proc.free fun _ => none)
  | live {r tf : Nat} {T : Tree} (state : pr.state ≠ .unused) (pagetable : pr.pagetable = some r)
      (trapframe : pr.trapframe = some tf) (rep : Rep mem r T)
      (space : Space T.leaf pr.sz pr.guard trampoline tf)

def Pipe.isOpen (pi : Pipe) (writable : Bool) : Bool :=
  if writable then pi.writeopen else pi.readopen

/-- The file table, with `refs f` references to file `f`. -/
structure Files (file : Nat → File) (pipe : Nat → Pipe) (refs : Nat → Nat) : Prop where
  ref : ∀ f, f < NFILE → (file f).ref = refs f
  closed : ∀ f, f < NFILE → (file f).ref = 0 → (file f).type = .none
  ends : ∀ f g pg w, f < NFILE → g < NFILE → (file f).type = .pipe pg w →
    (file g).type = .pipe pg w → f = g
  flag : ∀ pg, pg ∈ pipeSet file → ∀ w, (pipe pg).isOpen w = true ↔
    ∃ f, f < NFILE ∧ (file f).type = .pipe pg w

structure Sys (c k : Kernel) (refs : Nat → Nat) (H : Multiset Nat) : Prop where
  frames : k.owned + H + ↑k.mach.freelist = allFrames k.mach.kend
  procs : ∀ p, p < NPROC → ProcInv k.mach.mem k.mach.trampoline (k.proc p)
  files : Files k.file k.pipe refs
  kend : k.mach.kend = c.mach.kend
  trampoline : k.mach.trampoline = c.mach.trampoline
  kstack : k.kstack = c.kstack
  kpages : k.kpages = c.kpages

section table

variable {c k : Kernel} {refs : Nat → Nat} {H H' : Multiset Nat} {s t : Mach} {p : Nat}

theorem Sys.nodup (h : Sys c k refs H) : (k.owned + H + ↑k.mach.freelist).Nodup := by
  rw [h.frames]
  exact allFrames_nodup _

theorem Sys.hands (h : Sys c k refs H) : Hands k.mach (k.owned + H) := by
  refine ⟨h.nodup, ?_⟩
  intro f hf
  rw [h.frames, mem_allFrames] at hf
  obtain ⟨h1, h2, h3⟩ := hf
  refine ⟨h1, ?_, h3⟩
  unfold PGROUNDUP at h2
  simp only [PGSIZE] at h2
  omega

theorem Sys.hands_held (h : Sys c k refs H) : Hands k.mach H := by
  have := h.hands
  rw [add_comm] at this
  exact this.of_add

/-! ## One process changes -/

variable {pr : Proc} {r tf : Nat} {T : Tree}

theorem procFrames_live {mem : Nat → Nat → Nat} (hpt : pr.pagetable = some r)
    (htf : pr.trapframe = some tf) (hrep : Rep mem r T) : procFrames mem pr = tf ::ₘ Own r T := by
  unfold procFrames
  rw [htf, hpt]
  dsimp only
  rw [hrep.treeOf_eq]
  exact Multiset.singleton_add _ _

/-- A process whose frames are not written keeps its invariant and its frames. -/
theorem ProcInv.congr {mem mem' : Nat → Nat → Nat} {tramp : Nat} (h : ProcInv mem tramp pr)
    (hm : ∀ f ∈ procFrames mem pr, mem' f = mem f) :
    ProcInv mem' tramp pr ∧ procFrames mem' pr = procFrames mem pr := by
  cases h with
  | free h =>
    rw [h]
    exact ⟨.free rfl, rfl⟩
  | @live r tf T state pagetable trapframe rep space =>
    have hrep' : Rep mem' r T := by
      refine rep.congr ?_
      intro f hf
      refine hm f ?_
      rw [procFrames_live pagetable trapframe rep]
      exact Multiset.mem_cons_of_mem (tree_mem_own hf)
    refine ⟨.live state pagetable trapframe hrep' space, ?_⟩
    rw [procFrames_live pagetable trapframe rep, procFrames_live pagetable trapframe hrep']

/-- The frames of everything but process `p`. -/
def Kernel.others (k : Kernel) (p : Nat) : Multiset Nat :=
  ∑ q ∈ procSlots.erase p, procFrames k.mach.mem (k.proc q) + (pipeSet k.file).val + k.bootFrames

theorem owned_eq (k : Kernel) (hp : p < NPROC) :
    k.owned = procFrames k.mach.mem (k.proc p) + k.others p := by
  unfold Kernel.owned Kernel.others
  rw [← add_sum_erase _ _ (mem_procs.mpr hp), add_assoc, add_assoc, add_assoc]

/-- Frames of another process are not among those a process and the code work on. -/
theorem Sys.other_not_mem (h : Sys c k refs H) (hp : p < NPROC) {q f : Nat} (hq : q < NPROC)
    (hne : q ≠ p) (hf : f ∈ procFrames k.mach.mem (k.proc q)) :
    f ∉ procFrames k.mach.mem (k.proc p) + H + ↑k.mach.freelist := by
  have hnd := h.nodup
  rw [owned_eq k hp] at hnd
  have hre : procFrames k.mach.mem (k.proc p) + k.others p + H + ↑k.mach.freelist =
      k.others p + (procFrames k.mach.mem (k.proc p) + H + ↑k.mach.freelist) := by abel
  rw [hre] at hnd
  refine Multiset.disjoint_left.mp (Multiset.nodup_add.mp hnd).2.2 ?_
  unfold Kernel.others
  refine Multiset.mem_add.mpr (Or.inl (Multiset.mem_add.mpr (Or.inl ?_)))
  exact Multiset.mem_sum.mpr ⟨q, mem_erase.mpr ⟨hne, mem_procs.mpr hq⟩, hf⟩

/-- The kernel with memory `t` and the record `pr` for process `p`. -/
def Kernel.put (k : Kernel) (p : Nat) (t : Mach) (pr : Proc) : Kernel :=
  { k with mach := t }.setProc p pr

/-- The frames of process `p` and those in hand have moved, and the process has a new record. -/
theorem Sys.step (h : Sys c k refs H) (hp : p < NPROC) {pr' : Proc}
    (m : Moves k.mach (procFrames k.mach.mem (k.proc p) + H) t (procFrames t.mem pr' + H'))
    (hinv : ProcInv t.mem t.trampoline pr') :
    Sys c (k.put p t pr') refs H' := by
  have hsame : ∀ q, q < NPROC → q ≠ p → ProcInv t.mem k.mach.trampoline (k.proc q) ∧
      procFrames t.mem (k.proc q) = procFrames k.mach.mem (k.proc q) := by
    intro q hq hne
    refine (h.procs q hq).congr ?_
    intro f hf
    exact m.mem f (h.other_not_mem hp hq hne hf)
  have hothers : (k.put p t pr').others p = k.others p := by
    have hsum : ∑ q ∈ procSlots.erase p, procFrames t.mem (update k.proc p pr' q) =
        ∑ q ∈ procSlots.erase p, procFrames k.mach.mem (k.proc q) := by
      refine sum_congr rfl ?_
      intro q hq
      obtain ⟨hne, hq⟩ := mem_erase.mp hq
      rw [update_of_ne hne]
      exact (hsame q (mem_procs.mp hq) hne).2
    show ∑ q ∈ procSlots.erase p, procFrames t.mem (update k.proc p pr' q) +
      (pipeSet k.file).val + k.bootFrames = k.others p
    rw [hsum]
    rfl
  refine ⟨?_, ?_, h.files, m.kend.trans h.kend, m.trampoline.trans h.trampoline, h.kstack,
    h.kpages⟩
  · rw [owned_eq _ hp, hothers]
    show procFrames t.mem (update k.proc p pr' p) + k.others p + H' + ↑t.freelist =
      allFrames t.kend
    rw [update_self, m.kend, ← h.frames, owned_eq k hp]
    calc procFrames t.mem pr' + k.others p + H' + ↑t.freelist
        = procFrames t.mem pr' + H' + ↑t.freelist + k.others p := by abel
      _ = procFrames k.mach.mem (k.proc p) + H + ↑k.mach.freelist + k.others p := by
          rw [m.frames]
      _ = procFrames k.mach.mem (k.proc p) + k.others p + H + ↑k.mach.freelist := by abel
  · intro q hq
    show ProcInv t.mem t.trampoline (update k.proc p pr' q)
    rcases eq_or_ne q p with heq | hne
    · rw [heq, update_self]
      exact hinv
    · rw [update_of_ne hne, m.trampoline]
      exact (hsame q hq hne).1

/-- What a process in use has. -/
theorem Sys.live (h : Sys c k refs H) (hp : p < NPROC) (hs : (k.proc p).state ≠ .unused) :
    ∃ r tf T, (k.proc p).pagetable = some r ∧ (k.proc p).trapframe = some tf ∧
      Rep k.mach.mem r T ∧ Space T.leaf (k.proc p).sz (k.proc p).guard k.mach.trampoline tf ∧
      Holds k.mach r T (tf ::ₘ H) := by
  cases h.procs p hp with
  | free hfree =>
    rw [hfree] at hs
    exact absurd rfl hs
  | @live r tf T _ pagetable trapframe rep space =>
    refine ⟨r, tf, T, pagetable, trapframe, rep, space, Hands.holds ?_ rep⟩
    have hh := h.hands
    rw [owned_eq k hp, procFrames_live pagetable trapframe rep] at hh
    refine Hands.of_add (G := k.others p) ?_
    have hre : Own r T + tf ::ₘ H + k.others p = tf ::ₘ Own r T + k.others p + H := by
      rw [← Multiset.singleton_add, ← Multiset.singleton_add]
      abel
    rw [hre]
    exact hh

/-- An operation on the page table of a process in use, which may also change its size. -/
theorem Sys.goes (h : Sys c k refs H) (hp : p < NPROC) {T' : Tree} {pr' : Proc}
    (hpt : (k.proc p).pagetable = some r) (htf : (k.proc p).trapframe = some tf)
    (hrep : Rep k.mach.mem r T) (g : Goes r k.mach T (tf ::ₘ H) t T' (tf ::ₘ H'))
    (hstate : pr'.state ≠ .unused) (hpt' : pr'.pagetable = some r) (htf' : pr'.trapframe = some tf)
    (hsp : Space T'.leaf pr'.sz pr'.guard k.mach.trampoline tf) :
    Sys c (k.put p t pr') refs H' := by
  refine h.step hp ?_ ?_
  · rw [procFrames_live hpt htf hrep, procFrames_live hpt' htf' g.rep]
    have hre : ∀ (U : Tree) (G : Multiset Nat), tf ::ₘ Own r U + G = Own r U + tf ::ₘ G := by
      intro U G
      rw [Multiset.cons_add, Multiset.add_cons]
    rw [hre, hre]
    exact g.moves
  · rw [g.trampoline]
    exact .live hstate hpt' htf' g.rep hsp

theorem put_self (k : Kernel) (p : Nat) (t : Mach) :
    k.put p t (k.proc p) = { k with mach := t } := by
  unfold Kernel.put Kernel.setProc
  rw [update_eq_self]

/-- An operation on the page table of a process in use that keeps its record. -/
theorem Sys.goes_same (h : Sys c k refs H) (hp : p < NPROC) {T' : Tree}
    (hs : (k.proc p).state ≠ .unused) (hpt : (k.proc p).pagetable = some r)
    (htf : (k.proc p).trapframe = some tf) (hrep : Rep k.mach.mem r T)
    (g : Goes r k.mach T (tf ::ₘ H) t T' (tf ::ₘ H'))
    (hsp : Space T'.leaf (k.proc p).sz (k.proc p).guard k.mach.trampoline tf) :
    Sys c { k with mach := t } refs H' := by
  have h' := h.goes hp hpt htf hrep g hs hpt htf hsp
  rw [put_self] at h'
  exact h'

/-- Frames in hand have moved: a step that leaves the record of the first process. -/
theorem Sys.mach (h : Sys c k refs H) (m : Moves k.mach H t H') :
    Sys c { k with mach := t } refs H' := by
  have hp : 0 < NPROC := by decide
  have hmem : ∀ f ∈ procFrames k.mach.mem (k.proc 0), t.mem f = k.mach.mem f := by
    intro f hf
    have hnd := h.nodup
    rw [owned_eq k hp, add_assoc] at hnd
    refine m.mem f (Multiset.disjoint_left.mp (Multiset.nodup_add.mp hnd).2.2 ?_)
    exact Multiset.mem_add.mpr (Or.inl hf)
  obtain ⟨hinv, hframes⟩ := (h.procs 0 hp).congr hmem
  have hmoves := m.frame (procFrames k.mach.mem (k.proc 0))
  rw [add_comm, add_comm H'] at hmoves
  nth_rewrite 2 [← hframes] at hmoves
  have hstep := h.step hp hmoves (m.trampoline ▸ hinv)
  rw [put_self] at hstep
  exact hstep

/-- A change of a record that does not concern its memory. -/
theorem Sys.relabel (h : Sys c k refs H) (hp : p < NPROC) {x : Proc}
    (hs : (k.proc p).state ≠ .unused) (hstate : x.state ≠ .unused)
    (hpt : x.pagetable = (k.proc p).pagetable) (htf : x.trapframe = (k.proc p).trapframe)
    (hsz : x.sz = (k.proc p).sz) (hg : x.guard = (k.proc p).guard) :
    Sys c (k.setProc p x) refs H := by
  obtain ⟨r, tf, T, hpt0, htf0, hrep, hsp, hh⟩ := h.live hp hs
  refine h.goes hp hpt0 htf0 hrep (Goes.refl hh) hstate (hpt.trans hpt0) (htf.trans htf0) ?_
  rw [hsz, hg]
  exact hsp

/-! ## Programs on memory, run by the kernel -/

theorem wp_onMach {α : Type} {prog : MachM α} {Q : α → Kernel → Prop} :
    wp Crit.total Q (onMach prog) k ↔
      wp Crit.total (fun a m => Q a { k with mach := m }) prog k.mach := by
  refine Iff.trans (wp_zoom ?_ ?_ ?_) Iff.rfl
  · intro u s
    rfl
  · intro u v s
    rfl
  · intro s
    rfl

theorem wp_getProc {Q : Proc → Kernel → Prop} (h : Q (k.proc p) k) :
    wp Crit.total Q (getProc p) k := ⟨trivial, h⟩

theorem wp_modifyProc {Q : Unit → Kernel → Prop} {f : Proc → Proc}
    (h : Q () (k.put p k.mach (f (k.proc p)))) : wp Crit.total Q (modifyProc p f) k := ⟨trivial, h⟩

/-- A function that works on memory and on one record passes through states `k.put p t pr`. -/
theorem wp_onMach_put {α : Type} {prog : MachM α} {Q : α → Kernel → Prop}
    (h : wp Crit.total (fun a m => Q a (k.put p m pr)) prog t) :
    wp Crit.total Q (onMach prog) (k.put p t pr) :=
  wp_onMach.mpr h

theorem wp_getProc_put {Q : Proc → Kernel → Prop} (h : Q pr (k.put p t pr)) :
    wp Crit.total Q (getProc p) (k.put p t pr) := by
  refine ⟨trivial, ?_⟩
  show Q (update k.proc p pr p) (k.put p t pr)
  rw [update_self]
  exact h

theorem wp_modifyProc_put {Q : Unit → Kernel → Prop} {f : Proc → Proc}
    (h : Q () (k.put p t (f pr))) : wp Crit.total Q (modifyProc p f) (k.put p t pr) := by
  refine ⟨trivial, ?_⟩
  have hstate : (k.put p t pr).setProc p (f ((k.put p t pr).proc p)) = k.put p t (f pr) := by
    unfold Kernel.put Kernel.setProc
    dsimp only
    rw [update_self, update_idem]
  show Q () ((k.put p t pr).setProc p (f ((k.put p t pr).proc p)))
  rw [hstate]
  exact h

end table

end Xv6
