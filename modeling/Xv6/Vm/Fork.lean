/-
  `fork`, `exit` and `wait` keep the invariant of the system.
-/
import Xv6.Vm.Ops

namespace Xv6

open Finset Function Multiset
open Lib.Prog hiding update

section fork

variable {c k : Kernel} {refs : Nat → Nat} {H : Multiset Nat} {t : Mach} {p fd : Nat}

/-- Everything about the process table but the record of `p` is the same, which is now `pr`. -/
structure OnlyProc (k : Kernel) (p : Nat) (pr : Proc) (k' : Kernel) : Prop where
  proc : k'.proc = update k.proc p pr
  initproc : k'.initproc = k.initproc

def Proc.withOfile (pr : Proc) (ofile : Nat → Option Nat) : Proc := { pr with ofile := ofile }

theorem withOfile_self (pr : Proc) : pr.withOfile pr.ofile = pr := rfl

/-- Records change in ways that do not concern memory. -/
theorem Sys.setProcs (h : Sys c k refs H) {proc' : Nat → Proc}
    (hp : ∀ q, q < NPROC → procFrames k.mach.mem (proc' q) = procFrames k.mach.mem (k.proc q) ∧
      ProcInv k.mach.mem k.mach.trampoline (proc' q)) :
    Sys c { k with proc := proc' } refs H := by
  have hsum : ∑ q ∈ procSlots, procFrames k.mach.mem (proc' q) =
      ∑ q ∈ procSlots, procFrames k.mach.mem (k.proc q) := by
    refine sum_congr rfl ?_
    intro q hq
    exact (hp q (mem_procs.mp hq)).1
  refine ⟨?_, fun q hq => (hp q hq).2, h.files, h.kend, h.trampoline, h.kstack, h.kpages⟩
  rw [← h.frames]
  show ∑ q ∈ procSlots, procFrames k.mach.mem (proc' q) + (pipeSet k.file).val + k.bootFrames + H +
    ↑k.mach.freelist = k.owned + H + ↑k.mach.freelist
  rw [hsum]
  rfl

/-! ## `exit` -/

theorem wp_closeOfile (h : Sys c k (refCount k.proc) H) (hp : p < NPROC) (hfd : fd < NOFILE)
    (hs : (k.proc p).state ≠ .unused) (hf : ∀ f, (k.proc p).ofile fd = some f → f < NFILE) :
    wp Crit.total (fun _ k' => Sys c k' (refCount k'.proc) H ∧ OnlyProc k p
      ((k.proc p).withOfile (update (k.proc p).ofile fd none)) k')
      (closeOfile p fd) k := by
  unfold closeOfile
  rw [wp_bind]
  refine wp_getProc ?_
  cases ho : (k.proc p).ofile fd with
  | none =>
    refine ⟨h, ?_, rfl⟩
    rw [← ho, update_eq_self, withOfile_self, update_eq_self]
  | some f =>
    rw [wp_bind]
    refine wp_fileclose h (hf f ho) (refCount_pos hp hfd ho) ?_
    intro k1 hsame h1
    rw [← hsame.proc] at hs ho h1 ⊢
    refine wp_modifyProc ⟨?_, ?_, hsame.initproc⟩
    · have hdrop := refCount_drop hp hfd (x := (k1.proc p).withOfile
        (update (k1.proc p).ofile fd none)) rfl ho
      have h2 := h1.relabel hp (x := (k1.proc p).withOfile
        (update (k1.proc p).ofile fd none)) hs hs rfl rfl rfl rfl
      rw [← hdrop] at h2
      exact h2
    · rw [← hsame.proc]
      rfl

/-- The descriptors of a process after `i` rounds of the loop of `kexit`. -/
def closedBelow (ofile : Nat → Option Nat) (i fd : Nat) : Option Nat :=
  if fd < i then none else ofile fd

theorem below_succ (f g : Nat → Option Nat) (i : Nat) :
    update (fun fd => if fd < i then f fd else g fd) i (f i) =
      fun fd => if fd < i + 1 then f fd else g fd := by
  funext fd
  rcases eq_or_ne fd i with heq | hne
  · rw [heq, update_self, if_pos (Nat.lt_succ_self i)]
  · have hiff : fd < i ↔ fd < i + 1 := by omega
    rw [update_of_ne hne]
    simp only [hiff]

theorem closedBelow_succ (ofile : Nat → Option Nat) (i : Nat) :
    update (closedBelow ofile i) i none = closedBelow ofile (i + 1) :=
  below_succ (fun _ => none) ofile i

theorem wp_closeAll (h : KInv c k) (hp : p < NPROC) (hs : (k.proc p).state ≠ .unused) :
    wp Crit.total (fun _ k' => Sys c k' (refCount k'.proc) 0 ∧
      OnlyProc k p ((k.proc p).withOfile fun _ => none) k') (upto NOFILE (closeOfile p)) k := by
  refine wp_mono (wp_upto (J := fun i k' => Sys c k' (refCount k'.proc) 0 ∧
    OnlyProc k p ((k.proc p).withOfile (closedBelow (k.proc p).ofile i)) k') ?_ ?_) ?_
  · refine ⟨h.sys, ?_, rfl⟩
    have h0 : closedBelow (k.proc p).ofile 0 = (k.proc p).ofile := rfl
    rw [h0, withOfile_self, update_eq_self]
  · intro i k1 hi hJ
    obtain ⟨h1, hproc, hinit⟩ := hJ
    have hpr : k1.proc p = (k.proc p).withOfile (closedBelow (k.proc p).ofile i) := by
      rw [hproc, update_self]
    refine wp_mono (wp_closeOfile h1 hp hi ?_ ?_) ?_
    · rw [hpr]
      exact hs
    · intro f hf
      rw [hpr] at hf
      replace hf : (if i < i then none else (k.proc p).ofile i) = some f := hf
      rw [if_neg (Nat.lt_irrefl i)] at hf
      exact (h.ofile p i f hp hf).2
    · intro _ k2 hk2
      obtain ⟨h2, hproc2, hinit2⟩ := hk2
      refine ⟨h2, ?_, hinit2.trans hinit⟩
      rw [hproc2, hpr, hproc, update_idem, ← closedBelow_succ]
      rfl
  · intro _ k1 hJ
    obtain ⟨h1, hproc, hinit⟩ := hJ
    refine ⟨h1, ?_, hinit⟩
    have hall : closedBelow (k.proc p).ofile NOFILE = fun _ => none := by
      funext fd
      unfold closedBelow
      split
      · rfl
      · rename_i hge
        cases ho : (k.proc p).ofile fd with
        | none => rfl
        | some f => exact absurd (h.ofile p fd f hp ho).1 hge
    rw [hproc, hall]

/-- `reparent` changes parents only. -/
theorem Sys.reparent (h : Sys c k refs H) (p : Nat) :
    Sys c (k.reparent p) refs H := by
  refine h.setProcs ?_
  intro q hq
  split
  · rename_i hc
    refine ⟨rfl, ?_⟩
    cases h.procs q hq with
    | free hfree =>
      rw [hfree] at hc
      cases hc.2
    | live state pagetable trapframe rep space =>
      exact .live state pagetable trapframe rep space
  · exact ⟨rfl, h.procs q hq⟩

theorem wp_kexit (h : KInv c k) (hp : k.CanRun p) (hne : p ≠ k.initproc) :
    wp Crit.total (fun _ k' => KInv c k') (kexit p) k := by
  unfold kexit
  rw [wp_bind]
  refine ⟨trivial, ?_⟩
  rw [wp_ret, if_neg hne, wp_bind]
  refine wp_mono (wp_closeAll h hp.1 hp.used) ?_
  intro _ k1 hk1
  obtain ⟨h1, hproc, -⟩ := hk1
  unfold reparent
  rw [wp_bind, wp_update]
  refine ⟨trivial, wp_modifyProc ?_⟩
  have hpr : k1.proc p = (k.proc p).withOfile fun _ => none := by
    rw [hproc, update_self]
  have hk1 : KInv c k1 := h.of_update hproc h1 nofun (fun _ => rfl) (h.ready p hp.1)
  -- descriptors and states, now and then
  have hsame : ∀ q, ((k1.reparent p).proc q).ofile = (k1.proc q).ofile ∧
      ((k1.reparent p).proc q).state = (k1.proc q).state := by
    intro q
    unfold Kernel.reparent
    dsimp only
    split
    · exact ⟨rfl, rfl⟩
    · exact ⟨rfl, rfl⟩
  have hk2 : KInv c (k1.reparent p) := hk1.of_sys (h1.reparent p) hsame
  have hused : ((k1.reparent p).proc p).state ≠ .unused := by
    rw [(hsame p).2, hpr]
    exact hp.used
  have hnone : ((k1.reparent p).proc p).ofile = fun _ => none := by
    rw [(hsame p).1, hpr]
    rfl
  refine hk2.of_update rfl ?_ (fun fd f => hk2.ofile p fd f hp.1) (fun _ => hnone)
    ProcState.noConfusion
  show Sys c _ (refCount (update _ p _)) 0
  rw [refCount_update]
  · exact hk2.sys.relabel hp.1 hused ProcState.noConfusion rfl rfl rfl rfl
  · rfl

/-! ## `wait` -/

/-- `freeproc` of a zombie. -/
theorem wp_freeproc (h : KInv c k) (hp : p < NPROC) (hz : (k.proc p).state = .zombie) :
    wp Crit.total (fun _ k' => KInv c k') (freeproc p) k := by
  have hs : (k.proc p).state ≠ .unused := by
    rw [hz]
    exact ProcState.noConfusion
  obtain ⟨r, tf, T, hpt, htf, hrep, hsp, hh⟩ := h.sys.live hp hs
  have hhands : Hands k.mach (tf ::ₘ Own r T + 0) := by
    have := h.sys.hands
    rw [owned_eq k hp, procFrames_live hpt htf hrep, add_zero] at this
    rw [add_zero]
    exact this.of_add
  unfold freeproc
  rw [wp_bind]
  refine wp_getProc ?_
  rw [wp_bind, wp_onMach]
  refine wp_freeprocMem hpt htf hhands hrep hsp ?_
  intro t m
  refine wp_modifyProc ?_
  have hofile := h.zombie p hp hz
  show KInv c (k.put p t (Proc.free (k.proc p).ofile))
  rw [hofile]
  refine h.of_update rfl ?_ nofun (fun _ => rfl) ProcState.noConfusion
  show Sys c _ (refCount (update k.proc p _)) 0
  rw [refCount_update hofile.symm]
  refine h.sys.step hp ?_ (.free rfl)
  rw [procFrames_live hpt htf hrep]
  exact m

theorem wp_kwait {addr : Nat} {data : Nat → (Nat → Nat) → Nat → Nat} (h : KInv c k)
    (hp : k.CanRun p) : wp Crit.total (fun _ k' => KInv c k') (kwait p addr data) k := by
  obtain ⟨r, tf, T, hpt, htf, hrep, hsp, hh⟩ := h.live hp
  unfold kwait
  simp only [wp_bind, wp_look]
  refine ⟨trivial, ?_⟩
  cases hfind : (List.range NPROC).find? fun q =>
      decide ((k.proc q).parent = some p ∧ (k.proc q).state = .zombie) with
  | none => exact h
  | some q =>
    have hq : q < NPROC := List.mem_range.mp (List.mem_of_find?_eq_some hfind)
    have hzq : (k.proc q).state = .zombie := by
      have := List.find?_some hfind
      simp only [decide_eq_true_eq] at this
      exact this.2
    rw [wp_bind]
    refine wp_getProc ?_
    rw [hpt]
    dsimp only
    -- from any state after the copy
    have hrest : ∀ t (ok : Bool), KInv c { k with mach := t } →
        wp Crit.total (fun _ k' => KInv c k')
          (if ok then (do freeproc q; pure (some q)) else pure none : KernelM (Option Nat))
          { k with mach := t } := by
      intro t ok ht
      cases ok with
      | false => exact ht
      | true =>
        refine wp_seq (wp_freeproc ht hq hzq) ?_
        intro _ k' hk'
        exact hk'
    rcases Nat.eq_zero_or_pos addr with h0 | hpos
    · rw [if_pos h0]
      exact hrest k.mach true h
    · rw [if_neg (by omega), wp_bind, wp_onMach]
      refine wp_copyout hh hsp.npages_le hsp.highNoUser ?_
      intro b t T' g hf
      exact hrest t b (h.goes hp hpt htf hrep g (hsp.faulted hf))

/-! ## `fork` -/

/-- The flag bits of a copied entry. -/
theorem testBit_copied (pa w : Nat) {i : Nat} (hi : i < 10) (h0 : i ≠ 0) :
    (leafPte pa (PTE_FLAGS w)).testBit i = w.testBit i := by
  rw [testBit_leafPte pa (PTE_FLAGS_lt w) hi, Nat.testBit_or]
  have h1 : (PTE_FLAGS w).testBit i = w.testBit i := by
    unfold PTE_FLAGS
    rw [show 1024 = 2 ^ 10 from rfl, Nat.testBit_mod_two_pow]
    simp [hi]
  have h2 : PTE_V.testBit i = false := by
    obtain ⟨j, rfl⟩ := Nat.exists_eq_succ_of_ne_zero h0
    rw [Nat.testBit_succ]
    exact Nat.zero_testBit j
  rw [h1, h2, Bool.or_false]

/-- The child's address space is the parent's on other frames. -/
theorem Space.copied {src leaf leaf' : Nat → Nat} {sz tramp tf ntf : Nat} {guard : Option Nat}
    (h : Space src sz guard tramp tf) (h' : Space leaf 0 none tramp ntf)
    (hc : Copied src leaf leaf' 0 (npages sz)) : Space leaf' sz guard tramp ntf := by
  have hnp := h.npages_le
  refine h'.change h.size ?_ ?_
  · intro v hv
    exact hc.other v (by omega)
  · intro v hv hV
    rcases Nat.lt_or_ge v (npages sz) with hlt | hge
    · refine ⟨hlt, ?_⟩
      cases hsrc : (src v).testBit 0 with
      | false =>
        rw [hc.invalid v (Nat.zero_le v) (by omega) hsrc] at hV
        cases hV
      | true =>
        obtain ⟨pa, _, hpa⟩ := hc.valid v (Nat.zero_le v) (by omega) hsrc
        rw [hpa, testBit_copied pa _ (by decide) (by decide)]
        exact h.user v hv hsrc
    · rw [hc.other v (by omega)] at hV
      exact absurd (h'.below v hv hV) (Nat.not_lt_zero v)

theorem wp_dupOfile {np : Nat} (h : Sys c k (refCount k.proc) H) (hp : p < NPROC)
    (hnp : np < NPROC) (hfd : fd < NOFILE) (hs : (k.proc np).state ≠ .unused)
    (h0 : (k.proc np).ofile fd = none) (hf : ∀ f, (k.proc p).ofile fd = some f → f < NFILE) :
    wp Crit.total (fun _ k' => Sys c k' (refCount k'.proc) H ∧ OnlyProc k np
      ((k.proc np).withOfile (update (k.proc np).ofile fd ((k.proc p).ofile fd))) k' ∧
      k'.mach = k.mach) (dupOfile p np fd) k := by
  unfold dupOfile
  rw [wp_bind]
  refine wp_getProc ?_
  cases ho : (k.proc p).ofile fd with
  | none =>
    refine ⟨h, ⟨?_, rfl⟩, rfl⟩
    rw [← h0, update_eq_self, withOfile_self, update_eq_self]
  | some f =>
    rw [wp_bind]
    refine wp_filedup h (hf f ho) (refCount_pos hp hfd ho) ?_
    intro k1 hsame hmach h1
    rw [← hsame.proc] at hs h0 h1 ⊢
    refine wp_modifyProc ⟨?_, ⟨?_, hsame.initproc⟩, hmach⟩
    · have htake := refCount_take hnp hfd (x := (k1.proc np).withOfile
        (update (k1.proc np).ofile fd (some f))) rfl h0
      have h2 := h1.relabel hnp (x := (k1.proc np).withOfile
        (update (k1.proc np).ofile fd (some f))) hs hs rfl rfl rfl rfl
      rw [← htake] at h2
      exact h2
    · rw [← hsame.proc]
      rfl

/-- The descriptors of the child after `i` rounds of the loop of `kfork`. -/
def copiedBelow (ofile : Nat → Option Nat) (i fd : Nat) : Option Nat :=
  if fd < i then ofile fd else none

theorem copiedBelow_succ (ofile : Nat → Option Nat) (i : Nat) :
    update (copiedBelow ofile i) i (ofile i) = copiedBelow ofile (i + 1) :=
  below_succ ofile (fun _ => none) i

theorem wp_dupAll {np : Nat} (h : Sys c k (refCount k.proc) 0) (hp : p < NPROC) (hnp : np < NPROC)
    (hne : p ≠ np) (hs : (k.proc np).state ≠ .unused)
    (h0 : (k.proc np).ofile = fun _ => none)
    (hf : ∀ fd f, (k.proc p).ofile fd = some f → fd < NOFILE ∧ f < NFILE) :
    wp Crit.total (fun _ k' => Sys c k' (refCount k'.proc) 0 ∧
      OnlyProc k np ((k.proc np).withOfile (k.proc p).ofile) k' ∧ k'.mach = k.mach)
      (upto NOFILE (dupOfile p np)) k := by
  refine wp_mono (wp_upto (J := fun i k' => Sys c k' (refCount k'.proc) 0 ∧
    OnlyProc k np ((k.proc np).withOfile (copiedBelow (k.proc p).ofile i)) k' ∧
    k'.mach = k.mach) ?_ ?_) ?_
  · refine ⟨h, ⟨?_, rfl⟩, rfl⟩
    have hz : copiedBelow (k.proc p).ofile 0 = (k.proc np).ofile := by
      rw [h0]
      rfl
    rw [hz, withOfile_self, update_eq_self]
  · intro i k1 hi hJ
    obtain ⟨h1, ⟨hproc, hinit⟩, hmach⟩ := hJ
    have hchild : k1.proc np = (k.proc np).withOfile (copiedBelow (k.proc p).ofile i) := by
      rw [hproc, update_self]
    have hparent : k1.proc p = k.proc p := by
      rw [hproc, update_of_ne hne]
    refine wp_mono (wp_dupOfile h1 hp hnp hi ?_ ?_ ?_) ?_
    · rw [hchild]
      exact hs
    · rw [hchild]
      show (if i < i then _ else none) = none
      rw [if_neg (Nat.lt_irrefl i)]
    · intro f ho
      rw [hparent] at ho
      exact (hf i f ho).2
    · intro _ k2 hk2
      obtain ⟨h2, ⟨hproc2, hinit2⟩, hmach2⟩ := hk2
      refine ⟨h2, ⟨?_, hinit2.trans hinit⟩, hmach2.trans hmach⟩
      rw [hproc2, hchild, hparent, hproc, update_idem, ← copiedBelow_succ]
      rfl
  · intro _ k1 hJ
    obtain ⟨h1, ⟨hproc, hinit⟩, hmach⟩ := hJ
    refine ⟨h1, ⟨?_, hinit⟩, hmach⟩
    have hall : copiedBelow (k.proc p).ofile NOFILE = (k.proc p).ofile := by
      funext fd
      unfold copiedBelow
      split
      · rfl
      · rename_i hge
        cases ho : (k.proc p).ofile fd with
        | none => rfl
        | some f => exact absurd (hf fd f ho).1 hge
    rw [hproc, hall]

/-- The record of a child that `kfork` has finished. -/
def Proc.asChild (pr : Proc) (p : Nat) (ofile : Nat → Option Nat) : Proc :=
  { pr with ofile := ofile, parent := some p, state := .runnable }

/-- The child with its memory, before it gets the parent's files. -/
theorem wp_forkFiles {np : Nat} {pr : Proc} (h : KInv c k) (hp : k.CanRun p) (hnp : np < NPROC)
    (hfree : k.proc np = Proc.free fun _ => none) (hstate : pr.state = .used)
    (ho : pr.ofile = fun _ => none) (hsys : Sys c (k.put np t pr) (refCount k.proc) 0) :
    wp Crit.total (fun o k' => o = some np ∧ KInv c k' ∧ k'.mach = t ∧
      k'.proc = update k.proc np (pr.asChild p (k.proc p).ofile)) (do
      upto NOFILE (dupOfile p np)
      modifyProc np fun q => { q with parent := some p }
      modifyProc np fun q => { q with state := .runnable }
      pure (some np) : KernelM (Option Nat)) (k.put np t pr) := by
  have hne : p ≠ np := by
    intro heq
    have := hp.used
    rw [heq, hfree] at this
    exact this rfl
  have hproc1 : (k.put np t pr).proc = update k.proc np pr := rfl
  have hmach1 : (k.put np t pr).mach = t := rfl
  generalize k.put np t pr = k1 at hsys hproc1 hmach1 ⊢
  have hcount : refCount k1.proc = refCount k.proc := by
    rw [hproc1]
    refine refCount_update ?_
    rw [ho, hfree]
    rfl
  have hchild : k1.proc np = pr := by
    rw [hproc1, update_self]
  have hparent : k1.proc p = k.proc p := by
    rw [hproc1, update_of_ne hne]
  have hused : pr.state ≠ .unused := by
    rw [hstate]
    exact ProcState.noConfusion
  rw [← hcount] at hsys
  rw [wp_bind]
  refine wp_mono (wp_dupAll hsys hp.1 hnp hne (hchild ▸ hused) (by rw [hchild]; exact ho) ?_) ?_
  · intro fd f hof
    rw [hparent] at hof
    exact h.ofile p fd f hp.1 hof
  intro _ k2 hk2
  obtain ⟨h2, ⟨hproc2, -⟩, hmach2⟩ := hk2
  rw [hchild, hparent, hproc1, update_idem] at hproc2
  have hchild2 : k2.proc np = pr.withOfile (k.proc p).ofile := by
    rw [hproc2, update_self]
  simp only [wp_bind]
  refine wp_modifyProc (wp_modifyProc_put ?_)
  have hproc3 : update k2.proc np { k2.proc np with parent := some p, state := .runnable } =
      update k.proc np (pr.asChild p (k.proc p).ofile) := by
    rw [hchild2, hproc2, update_idem]
    rfl
  refine ⟨rfl, h.of_update hproc3 ?_ (fun fd f => h.ofile p fd f hp.1) ProcState.noConfusion
    ProcState.noConfusion, hmach2.trans hmach1, hproc3⟩
  show Sys c _ (refCount (update k2.proc np _)) 0
  rw [refCount_update]
  · exact h2.relabel hnp (hchild2 ▸ hused) ProcState.noConfusion rfl rfl rfl rfl
  · rfl

/-- Frames of a process are not free. -/
theorem Sys.not_free (h : Sys c k refs H) (hp : p < NPROC) {f : Nat}
    (hf : f ∈ procFrames k.mach.mem (k.proc p)) : f ∉ H + ↑k.mach.freelist := by
  have hnd := h.nodup
  rw [owned_eq k hp, add_assoc, add_right_comm] at hnd
  have hd := (nodup_add.mp (nodup_add.mp hnd).1).2.2
  exact disjoint_left.mp hd hf

/-- `fork` takes the first free slot for a child that sees in its memory what the parent sees, or
    changes nothing that belongs to anyone. -/
theorem wp_kfork_seen {Q : Option Nat → Kernel → Prop} {r tf : Nat} {T : Tree} (h : KInv c k)
    (hp : k.CanRun p) (hpt : (k.proc p).pagetable = some r)
    (htf : (k.proc p).trapframe = some tf) (hrep : Rep k.mach.mem r T)
    (hsp : Space T.leaf (k.proc p).sz (k.proc p).guard k.mach.trampoline tf)
    (hn : ∀ t, Moves k.mach 0 t 0 → KInv c { k with mach := t } → Q none { k with mach := t })
    (hs : ∀ np nr ntf k' T' pr, k.unusedSlot = some np → KInv c k' →
      Moves k.mach 0 k'.mach (ntf ::ₘ Own nr T') → k'.proc = update k.proc np pr →
      pr.state = .runnable → pr.sz = (k.proc p).sz → pr.pagetable = some nr →
      Rep k'.mach.mem nr T' → seen k'.mach T' = seen k.mach T → Q (some np) k') :
    wp Crit.total Q (kfork p) k := by
  unfold kfork
  rw [wp_bind]
  refine wp_allocproc h.sys ?_ ?_
  · intro t m
    exact hn t m (h.of_sys (h.sys.mach m) fun _ => ⟨rfl, rfl⟩)
  intro np ntf nr t T' hnp hfree m hrep' hsp' hslot
  have hne : p ≠ np := by
    intro heq
    have := hp.used
    rw [heq, hfree] at this
    exact this rfl
  simp only [wp_bind]
  refine wp_getProc ?_
  rw [show (k.put np t (freshProc ntf nr)).proc p = k.proc p from update_of_ne hne _ _]
  refine wp_getProc_put ?_
  rw [hpt, htf]
  dsimp only [freshProc]
  rw [wp_bind]
  -- the parent's page table is not among the frames the child was built from
  have hpar : ∀ f ∈ Own r T, f ∉ (0 : Multiset Nat) + ↑k.mach.freelist := by
    intro f hf
    refine h.sys.not_free hp.1 ?_
    rw [procFrames_live hpt htf hrep]
    exact mem_cons_of_mem hf
  have hold : Rep t.mem r T := by
    refine hrep.congr ?_
    intro f hf
    exact m.mem f (hpar f (tree_mem_own hf))
  have hhands := h.sys.hands_held.moves m
  rw [cons_add, ← add_cons] at hhands
  have hhold := hhands.holds hrep'
  have hdis : ∀ f ∈ Own r T, f ∉ Foot nr T' t.freelist + ntf ::ₘ 0 := by
    intro f hf
    rw [foot_add, add_cons, ← cons_add, m.frames]
    exact hpar f hf
  refine wp_onMach_put (wp_uvmcopy hhold hold hdis hsp.npages_le ?_ ?_ ?_)
  · intro v hv
    exact hsp'.zero hrep' (Nat.lt_of_lt_of_le hv hsp.npages_le) (Nat.zero_le v)
  · -- the copy failed: the child goes back
    intro u T'' g hleaf
    rw [if_neg Bool.false_ne_true, wp_bind]
    unfold freeproc
    rw [wp_bind]
    refine wp_getProc_put ?_
    rw [wp_bind]
    have hhands' := hhands.moves g.moves
    rw [add_cons, ← cons_add] at hhands'
    have hsp'' : Space T''.leaf 0 none k.mach.trampoline ntf := by
      rw [hleaf]
      exact hsp'
    refine wp_onMach_put (wp_freeprocMem rfl rfl hhands' g.rep hsp'' ?_)
    intro w m'
    refine wp_modifyProc_put ?_
    rw [← hfree, put_self]
    have gm := g.moves
    rw [add_cons, ← cons_add, add_cons, ← cons_add] at gm
    have mw := m.trans (gm.trans m')
    exact hn w mw (h.of_sys (h.sys.mach mw) fun _ => ⟨rfl, rfl⟩)
  · rintro u T'' ⟨g, hcopied, hdata⟩
    rw [if_pos rfl, wp_bind]
    refine wp_modifyProc_put ?_
    rw [wp_bind]
    have gm := g.moves
    rw [add_cons, ← cons_add, add_cons, ← cons_add] at gm
    have hu := hhold.goes g
    have hntf := mem_cons_self ntf 0
    -- the registers are copied
    refine wp_onMach_put ⟨trivial, ?_⟩
    have gs := Goes.scribble hu (hu.held_not_tree hntf) (mem_add.mpr (Or.inr hntf))
      fun i => if i = 14 then 0 else if i < 36 then u.mem tf i else u.mem ntf i
    have gsm := gs.moves
    rw [add_cons, ← cons_add] at gsm
    have hm := m.trans (gm.trans gsm)
    have hsys : Sys c (k.put np (u.setPage ntf fun i =>
          if i = 14 then 0 else if i < 36 then u.mem tf i else u.mem ntf i)
        { freshProc ntf nr with sz := (k.proc p).sz, guard := (k.proc p).guard })
        (refCount k.proc) 0 := by
      refine h.sys.step hnp ?_ ?_
      · rw [hfree, procFrames_live rfl rfl gs.rep]
        exact hm
      · rw [hm.trampoline]
        exact .live ProcState.noConfusion rfl rfl gs.rep (hsp.copied hsp' hcopied)
    rw [wp_ret]
    refine wp_mono (wp_forkFiles h hp hnp hfree rfl rfl hsys) ?_
    intro o k' hk'
    obtain ⟨rfl, hinv, hmach, hproc⟩ := hk'
    have hm' : Moves k.mach 0 k'.mach (ntf ::ₘ Own nr T'') := by
      rw [add_zero] at hm
      rw [hmach]
      exact hm
    refine hs np nr ntf k' T'' _ hslot hinv hm' hproc rfl rfl rfl ?_ ?_
    · rw [hmach]
      exact gs.rep
    · -- the registers are in no user page, and the parent's pages are where they were
      have hkeep : Keeps T''.pages u k'.mach := by
        rw [hmach]
        exact Keeps.write (fun hc => hu.held_not_kept (mem_add.mpr (Or.inl hc))) _
      rw [seen_congr rfl hkeep, seen_copied ?_ ?_ hcopied hdata]
      · refine seen_congr rfl ?_
        intro f hf
        exact m.mem f (hpar f (mem_cons_of_mem (mem_add.mpr (Or.inr hf))))
      · intro v hv hlt
        exact hsp.zero hrep hlt hv
      · intro v hv
        exact hsp'.zero hrep' hv (Nat.zero_le v)

theorem wp_kfork (h : KInv c k) (hp : k.CanRun p) :
    wp Crit.total (fun _ k' => KInv c k') (kfork p) k := by
  obtain ⟨r, tf, T, hpt, htf, hrep, hsp, -⟩ := h.live hp
  refine wp_kfork_seen h hp hpt htf hrep hsp ?_ ?_
  · intro t _ ht
    exact ht
  · intro np nr ntf k' T' pr _ hk' _ _ _ _ _ _ _
    exact hk'

end fork

end Xv6
