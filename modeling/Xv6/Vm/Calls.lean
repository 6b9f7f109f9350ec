/-
  `exec`, page faults and the calls on descriptors keep the invariant of the system, and with that
  every operation does (`wp_prog`).
-/
import Xv6.Vm.Fork

namespace Xv6

open Function Multiset
open Lib.Prog hiding update

section calls

variable {c k : Kernel} {refs : Nat → Nat} {H : Multiset Nat} {s t : Mach} {p : Nat}

/-! ## `exec` -/

variable {F F' : Multiset Nat} {r fd : Nat} {T : Tree} {data : Nat → (Nat → Nat) → Nat → Nat}
variable {o : Nat → Option Nat}

/-- Frames that are not involved keep their contents. -/
theorem Moves.keeps {G : Multiset Nat} (h : Hands s (F + G)) (m : Moves s F t F') :
    Keeps G s t := by
  intro f hf
  refine m.mem f ?_
  have hnd := h.nodup
  rw [add_right_comm] at hnd
  have hd := (nodup_add.mp hnd).2.2
  intro hF
  exact disjoint_left.mp hd hF hf

theorem Rep.moves (hr : Rep s.mem r T) (h : Hands s (F + Own r T)) (m : Moves s F t F') :
    Rep t.mem r T :=
  hr.congr fun f hf => m.keeps h f (tree_mem_own hf)

/-- Work on frames beside a page table. -/
theorem Holds.aside {sz : Nat} (h : Holds s r T (F + H)) (m : Moves s F t F') :
    Goes r s T (F + H) t T (F' + H) ∧ Unseen sz s T H t T := by
  have hh : Hands s (F + (Own r T + H)) := by
    rw [add_left_comm]
    refine ⟨?_, ?_⟩
    · rw [← foot_add]
      exact h.nodup
    · rw [← foot_add]
      exact h.frames
  have hk := m.keeps hh
  have mf := m.frame (Own r T + H)
  rw [add_left_comm, add_left_comm F'] at mf
  refine ⟨⟨?_, ?_, ?_, m.kend, m.trampoline⟩, Unseen.same rfl (hk.mono ?_)⟩
  · exact h.rep.congr fun f hf => hk f (mem_add.mpr (Or.inl (tree_mem_own hf)))
  · rw [foot_add, foot_add]
    exact mf.frames
  · rw [foot_add]
    exact mf.mem
  · unfold Own
    rw [cons_add, add_assoc]
    exact Multiset.Subset.trans (subset_of_le (le_add_left _ _))
      (subset_cons _ _)

/-- Descriptors and states are the same. -/
def SameLabels (k k' : Kernel) : Prop :=
  ∀ q, (k'.proc q).ofile = (k.proc q).ofile ∧ (k'.proc q).state = (k.proc q).state

theorem wp_kexec {img : Image} {argv : List Nat} (h : Sys c k refs H) (hp : k.CanRun p)
    (hlen : ∀ l ∈ argv, l < PGSIZE) :
    wp Crit.total (fun o k' => Sys c k' refs H ∧ SameLabels k k' ∧
      (o = none → k' = { k with mach := k'.mach } ∧ Moves k.mach 0 k'.mach 0))
      (kexec p img data argv) k := by
  obtain ⟨r, tf, T, hpt, htf, hrep, hsp, hh⟩ := h.live hp.1 hp.used
  unfold kexec
  rw [wp_bind]
  refine wp_getProc ?_
  rw [hpt, htf]
  rw [wp_bind, wp_onMach]
  refine wp_execImage (h.hands_held.sub (zero_add H).symm) hlen ?_ ?_
  · intro t m
    have mH := m.frame H
    rw [zero_add] at mH
    exact ⟨h.mach mH, fun _ => ⟨rfl, rfl⟩, fun _ => ⟨rfl, m⟩⟩
  intro r' sz sp t T' m0 hrep' hsp'
  have m := m0.frame H
  rw [zero_add, add_zero] at m
  -- both page tables, the trapframe and what is in hand are different frames
  have hall : Hands k.mach (H + ({tf} + Own r T)) := by
    have hb := h.hands
    rw [owned_eq k hp.1, procFrames_live hpt htf hrep] at hb
    refine hb.sub (G := k.others p) ?_
    rw [← singleton_add]
    abel
  have m1 := m.frame ({tf} + Own r T)
  have h1 := hall.moves m1
  have hold : Rep t.mem r T := hrep.moves (hall.sub (G := {tf}) (by abel)) m
  -- the three words of the trapframe
  have hstore : ∀ (u : Mach) (i w : Nat), Hands u (Own r' T' + H + ({tf} + Own r T)) →
      Rep u.mem r T → Rep u.mem r' T' →
      Moves u {tf} (u.store ⟨tf, i⟩ w) {tf} ∧ Rep (u.store ⟨tf, i⟩ w).mem r T ∧
        Rep (u.store ⟨tf, i⟩ w).mem r' T' := by
    intro u i w hu hr hr'
    have ms : Moves u {tf} (u.store ⟨tf, i⟩ w) {tf} :=
      Moves.scribble (mem_singleton_self tf) _
    refine ⟨ms, hr.moves (hu.sub (G := Own r' T' + H) (by abel)) ms, ?_⟩
    exact hr'.moves (hu.sub (G := H + Own r T) (by abel)) ms
  have hmoves : ∀ {u w : Mach}, Moves u {tf} w {tf} →
      Moves u (Own r' T' + H + ({tf} + Own r T)) w (Own r' T' + H + ({tf} + Own r T)) := by
    intro u w ms
    have mf := ms.frame (Own r' T' + H + Own r T)
    rw [show {tf} + (Own r' T' + H + Own r T) = Own r' T' + H + ({tf} + Own r T) by abel] at mf
    exact mf
  simp only [wp_bind]
  rw [wp_onMach]
  obtain ⟨ms1, hr1, hr1'⟩ := hstore t 15 sp h1 hold hrep'
  have h2 := h1.moves (hmoves ms1)
  refine wp_store _ _ (wp_modifyProc ?_)
  obtain ⟨ms2, hr2, hr2'⟩ := hstore (t.store ⟨tf, 15⟩ sp) 3 img.entry h2 hr1 hr1'
  have h3 := h2.moves (hmoves ms2)
  refine wp_onMach_put (wp_store _ _ ?_)
  obtain ⟨ms3, hr3, hr3'⟩ := hstore ((t.store ⟨tf, 15⟩ sp).store ⟨tf, 3⟩ img.entry) 6 sp h3 hr2 hr2'
  have h4 := h3.moves (hmoves ms3)
  refine wp_onMach_put (wp_store _ _ ?_)
  have mall := m1.trans ((hmoves ms1).trans ((hmoves ms2).trans (hmoves ms3)))
  generalize ((t.store ⟨tf, 15⟩ sp).store ⟨tf, 3⟩ img.entry).store ⟨tf, 6⟩ sp = u
    at h4 hr3 hr3' mall
  -- the old page table is given back
  have hholds : Holds u r T 0 := by
    refine (h4.sub (G := Own r' T' + H + {tf}) ?_).holds hr3
    abel
  refine wp_onMach_put (wp_procFreepagetable hholds hsp ?_)
  intro w mw
  have hnew : Rep w.mem r' T' := by
    refine hr3'.moves (h4.sub (G := H + {tf}) ?_) mw
    abel
  have mfin := mw.frame ({tf} + Own r' T' + H)
  have htf' : ((k.proc p).withImage r' sz).trapframe = some tf := htf
  refine ⟨h.step hp.1 ?_ ?_, ?_, fun hc => absurd hc (Option.some_ne_none _)⟩
  · rw [procFrames_live hpt htf hrep, procFrames_live rfl htf' hnew]
    rw [show H + ({tf} + Own r T) = {tf} + Own r T + H by abel,
      show Own r' T' + H + ({tf} + Own r T) = Own r T + 0 + ({tf} + Own r' T' + H) by abel] at mall
    rw [zero_add] at mfin
    exact mall.trans mfin
  · have htr : w.trampoline = k.mach.trampoline := mfin.trampoline.trans mall.trampoline
    rw [htr]
    exact .live hp.used rfl htf' hnew hsp'
  · intro q
    show (update k.proc p _ q).ofile = _ ∧ (update k.proc p _ q).state = _
    rcases eq_or_ne q p with hq | hq
    · rw [hq, update_self]
      exact ⟨rfl, rfl⟩
    · rw [update_of_ne hq]
      exact ⟨rfl, rfl⟩

/-- What a failed `exec` has done to the kernel: at most faulted in pages of process `p`. -/
structure ExecFailed (k : Kernel) (p r tf : Nat) (T : Tree) (k' : Kernel) (T' : Tree) : Prop where
  kernel : k' = { k with mach := k'.mach }
  goes : Goes r k.mach T {tf} k'.mach T' {tf}
  unseen : Unseen (k.proc p).sz k.mach T {tf} k'.mach T'

theorem wp_sysExec {uargv : Nat} {user : Nat → UserArg} {img : Image} {tf : Nat} (h : KInv c k)
    (hp : k.CanRun p) (hpt : (k.proc p).pagetable = some r) (htf : (k.proc p).trapframe = some tf)
    (hrep : Rep k.mach.mem r T)
    (hsp : Space T.leaf (k.proc p).sz (k.proc p).guard k.mach.trampoline tf)
    (hh : Holds k.mach r T {tf}) :
    wp Crit.total (fun o k' => KInv c k' ∧ (o = none → ∃ T', ExecFailed k p r tf T k' T'))
      (sysExec p uargv user img data) k := by
  -- giving the pages of the arguments back, in any later state
  have hfree : ∀ (pages : List Nat) (k' : Kernel) (ret : Option Nat),
      Sys c k' (refCount k.proc) ↑pages → SameLabels k k' →
      (ret = none → k' = { k with mach := k'.mach } ∧ ∃ T',
        Goes r k.mach T {tf} k'.mach T' (↑pages + {tf}) ∧
        Unseen (k.proc p).sz k.mach T {tf} k'.mach T') →
      wp Crit.total (fun o k' => KInv c k' ∧ (o = none → ∃ T', ExecFailed k p r tf T k' T')) (do
        onMach (each pages kfree)
        pure ret) k' := by
    intro pages k' ret hk' hsame hret
    rw [wp_bind, wp_onMach]
    have hhands : Hands k'.mach (↑pages + 0) := by
      rw [add_zero]
      exact hk'.hands_held
    refine wp_each_kfree pages hhands ?_
    intro t m
    rw [add_zero] at m
    refine ⟨h.of_sys (hk'.mach m) hsame, ?_⟩
    intro hnone
    obtain ⟨hkernel, T', g, hu⟩ := hret hnone
    obtain ⟨g', hu'⟩ := (hh.goes g).aside m
    refine ⟨T', ?_, g.trans g', hu.trans hu'⟩
    rw [hkernel]
  unfold sysExec
  rw [wp_bind]
  refine wp_getProc ?_
  rw [hpt]
  rw [wp_bind, wp_onMach]
  have hh' : Holds k.mach r T (↑([] : List Nat) + {tf}) := by
    exact hh
  refine wp_fetchArgs MAXARG hh' hsp (fun l hl => absurd hl (List.not_mem_nil)) ?_
  intro pages o t T' g hu hlens
  rw [coe_nil, zero_add] at g
  have hk1 : Sys c { k with mach := t } (refCount k.proc) ↑pages := by
    rw [add_comm] at g
    exact h.sys.goes_same hp.1 hp.used hpt htf hrep g (hsp.faulted hu.faulted)
  cases o with
  | none => exact hfree pages _ none hk1 (fun _ => ⟨rfl, rfl⟩) fun _ => ⟨rfl, T', g, hu⟩
  | some argv =>
    refine wp_seq (wp_kexec hk1 hp (hlens argv rfl)) ?_
    rintro ret k' ⟨hsys, hsame, hfail⟩
    refine hfree pages k' ret hsys hsame ?_
    intro hnone
    obtain ⟨hkernel, m⟩ := hfail hnone
    have hnow : Holds t r T' (0 + (↑pages + {tf})) := by
      exact hh.goes g
    obtain ⟨g', hu'⟩ := hnow.aside m
    have hsub : ({tf} : Multiset Nat) ⊆ ↑pages + {tf} :=
      subset_of_le (le_add_left _ _)
    exact ⟨hkernel, T', g.trans g', hu.trans (hu'.mono hsub)⟩

/-- The one panic of the first process on its way to user space: `/init` cannot be loaded. -/
theorem wp_forkret {img : Image} (h : KInv c k) (hp : k.CanRun p) :
    wp (Crit.only .exec) (fun _ k' => KInv c k') (forkret p img data) k := by
  refine wp_seq (wp_of_total (wp_kexec h.sys hp (by decide)) fun _ => trivial) ?_
  rintro ret k' ⟨hsys, hsame, -⟩
  have h' := h.of_sys hsys hsame
  have hp' : k'.CanRun p := ⟨hp.1, (hsame p).2.trans hp.2⟩
  obtain ⟨r, tf, T, hpt, htf, hrep, hsp, hh⟩ := h'.live hp'
  refine (wp_bind _ _).mpr ⟨trivial, ?_⟩
  rw [wp_ret, htf]
  have hmem := Multiset.mem_singleton_self tf
  have hstore : wp Crit.total (fun _ k'' => KInv c k'')
      (onMach (store ⟨tf, 14⟩ (ret.getD (2 ^ 64 - 1)))) k' := by
    refine wp_onMach.mpr (wp_store _ _ (h'.goes hp' hpt htf hrep ?_ hsp))
    exact Goes.scribble hh (hh.held_not_tree hmem) (mem_add.mpr (Or.inr hmem)) _
  refine wp_seq (wp_of_total hstore fun _ => trivial) ?_
  intro _ k'' hk
  split
  · exact rfl
  · exact hk

/-! ## Page faults -/

/-- The one panic an operation can end in: the first process exits. -/
abbrev exitCrit : Crit VmPanic Kernel := Crit.only .initExiting

theorem wp_kexit_any (h : KInv c k) (hp : k.CanRun p) :
    wp exitCrit (fun _ k' => KInv c k') (kexit p) k := by
  rcases eq_or_ne p k.initproc with heq | hne
  · unfold kexit
    rw [wp_bind]
    refine ⟨trivial, ?_⟩
    rw [wp_ret, if_pos heq]
    exact rfl
  · exact wp_of_total (wp_kexit h hp hne) fun _ => trivial

theorem wp_usertrapFault {va : Nat} (h : KInv c k) (hp : k.CanRun p) :
    wp exitCrit (fun _ k' => KInv c k') (usertrapFault p va) k := by
  obtain ⟨r, tf, T, hpt, htf, hrep, hsp, hh⟩ := h.live hp
  have hfault : wp Crit.total (fun _ k' => KInv c k' ∧ k'.CanRun p)
      (onMach (vmfault r (k.proc p).sz r va)) k := by
    rw [wp_onMach]
    refine wp_vmfault hh hsp.npages_le (fun _ => ⟨h, hp⟩) ?_ ?_
    · intro t T' _ _ g hleaf _
      refine ⟨h.goes hp hpt htf hrep g ?_, hp⟩
      rw [hleaf]
      exact hsp
    · intro x t T' hlt h0 hx g hleaf _ _
      refine ⟨h.goes hp hpt htf hrep g (hsp.faulted ?_), hp⟩
      intro v
      rcases eq_or_ne v (va / PGSIZE) with heq | hne
      · refine Or.inr ⟨by rw [heq]; exact h0, by rw [heq]; exact hlt, x, hx, ?_⟩
        rw [hleaf, heq, update_self]
      · rw [hleaf, update_of_ne hne]
        exact Or.inl rfl
  unfold usertrapFault
  rw [wp_bind]
  refine ⟨trivial, ?_⟩
  rw [wp_ret, hpt]
  refine wp_seq (wp_of_total hfault fun _ => trivial) ?_
  intro o k' hk'
  cases o with
  | some _ => exact hk'.1
  | none => exact wp_kexit_any hk'.1 hk'.2

/-! ## Descriptors -/

/-- A process gets other descriptors. -/
theorem Sys.setOfile (h : Sys c k refs H) (hp : p < NPROC) (hs : (k.proc p).state ≠ .unused)
    (o : Nat → Option Nat) : Sys c (k.put p k.mach ((k.proc p).withOfile o)) refs H :=
  h.relabel hp hs hs rfl rfl rfl rfl

theorem wp_fdalloc {Q : Option Nat → Kernel → Prop} {f : Nat} (h : Sys c k refs H) (hp : p < NPROC)
    (hs : (k.proc p).state ≠ .unused) (hn : Q none k)
    (hQ : ∀ fd k', fd < NOFILE → (k.proc p).ofile fd = none →
      OnlyProc k p ((k.proc p).withOfile (update (k.proc p).ofile fd (some f))) k' →
      k'.file = k.file → Sys c k' refs H → Q (some fd) k') :
    wp Crit.total Q (fdalloc p f) k := by
  unfold fdalloc
  rw [wp_bind]
  refine wp_getProc ?_
  cases hfind : (k.proc p).fdalloc with
  | none => exact hn
  | some fd =>
    have hfd : fd < NOFILE := List.mem_range.mp (List.mem_of_find?_eq_some hfind)
    have h0 : (k.proc p).ofile fd = none := by
      have := List.find?_some hfind
      exact Option.isNone_iff_eq_none.mp this
    rw [wp_bind]
    refine wp_modifyProc (hQ fd _ hfd h0 ⟨rfl, rfl⟩ rfl ?_)
    exact h.setOfile hp hs _

/-- Only the descriptors of one process have changed. -/
theorem KInv.withOfile {k' : Kernel} (h : KInv c k) (hp : k.CanRun p)
    (hproc : k'.proc = update k.proc p ((k.proc p).withOfile o))
    (ho : ∀ fd f, o fd = some f → fd < NOFILE ∧ f < NFILE) (hsys : Sys c k' (refCount k'.proc) 0) :
    KInv c k' := by
  refine h.of_update hproc hsys ho ?_ (h.ready p hp.1)
  intro hz
  replace hz : (k.proc p).state = .zombie := hz
  rw [hp.2] at hz
  cases hz

/-- One descriptor is set. -/
theorem ofile_update {x : Option Nat} (ho : ∀ fd f, o fd = some f → fd < NOFILE ∧ f < NFILE)
    (hfd : fd < NOFILE) (hx : ∀ f, x = some f → f < NFILE) :
    ∀ fd' f, update o fd x fd' = some f → fd' < NOFILE ∧ f < NFILE := by
  intro fd' f hf
  rcases eq_or_ne fd' fd with heq | hne
  · rw [heq, update_self] at hf
    rw [heq]
    exact ⟨hfd, hx f hf⟩
  · rw [update_of_ne hne] at hf
    exact ho fd' f hf

theorem wp_sysClose (h : KInv c k) (hp : k.CanRun p) :
    wp Crit.total (fun _ k' => KInv c k') (sysClose p fd) k := by
  unfold sysClose argfd
  rw [wp_bind, wp_look]
  refine ⟨trivial, ?_⟩
  rcases Nat.lt_or_ge fd NOFILE with hfd | hfd
  · rw [if_pos hfd]
    cases ho : (k.proc p).ofile fd with
    | none => exact h
    | some f =>
      obtain ⟨_, hf⟩ := h.ofile p fd f hp.1 ho
      simp only [wp_bind]
      refine wp_modifyProc ?_
      have h1 := h.sys.setOfile hp.1 hp.used (update (k.proc p).ofile fd none)
      refine wp_fileclose h1 hf (refCount_pos hp.1 hfd ho) ?_
      intro k' hsame hk'
      have hproc : k'.proc = update k.proc p
          ((k.proc p).withOfile (update (k.proc p).ofile fd none)) := hsame.proc
      rw [← refCount_drop hp.1 hfd (x := (k.proc p).withOfile
        (update (k.proc p).ofile fd none)) rfl ho, ← hproc] at hk'
      refine h.withOfile hp hproc (ofile_update (fun fd f => h.ofile p fd f hp.1) hfd ?_) hk'
      intro g hg
      cases hg
  · rw [if_neg (by omega)]
    exact h

theorem wp_sysDup (h : KInv c k) (hp : k.CanRun p) :
    wp Crit.total (fun _ k' => KInv c k') (sysDup p fd) k := by
  unfold sysDup argfd
  rw [wp_bind, wp_look]
  refine ⟨trivial, ?_⟩
  rcases Nat.lt_or_ge fd NOFILE with hfd | hfd
  · rw [if_pos hfd]
    cases ho : (k.proc p).ofile fd with
    | none => exact h
    | some f =>
      obtain ⟨_, hf⟩ := h.ofile p fd f hp.1 ho
      rw [wp_bind]
      refine wp_fdalloc h.sys hp.1 hp.used h ?_
      intro fd' k1 hfd' h0 honly _ hk1
      rw [wp_bind]
      refine wp_filedup hk1 hf (refCount_pos hp.1 hfd ho) ?_
      intro k2 hsame _ hk2
      rw [← refCount_take hp.1 hfd' (x := (k.proc p).withOfile
        (update (k.proc p).ofile fd' (some f))) rfl h0, ← honly.proc, ← hsame.proc] at hk2
      refine h.withOfile hp (hsame.proc.trans honly.proc)
        (ofile_update (fun fd f => h.ofile p fd f hp.1) hfd' ?_) hk2
      intro g hg
      cases hg
      exact hf
  · rw [if_neg (by omega)]
    exact h

theorem wp_sysOpen (h : KInv c k) (hp : k.CanRun p) :
    wp Crit.total (fun _ k' => KInv c k') (sysOpen p) k := by
  unfold sysOpen
  rw [wp_bind]
  refine wp_filealloc h.sys h ?_
  intro f k1 hf hr hsame _ htype _ hk1
  have hproc1 := hsame.proc
  rw [wp_bind]
  refine wp_fdalloc hk1 hp.1 (by rw [hproc1]; exact hp.used) ?_ ?_
  · -- no descriptor
    rw [wp_bind]
    refine wp_fileclose hk1 hf (by rw [update_self]; decide) ?_
    intro k2 hsame2 hk2
    rw [update_self, update_idem, Nat.sub_self, ← hr,
      update_eq_self] at hk2
    refine h.of_sys hk2 ?_
    intro q
    rw [hsame2.proc, hproc1]
    exact ⟨rfl, rfl⟩
  · intro fd k2 hfd h0 honly hfile hk2
    rw [hproc1] at h0
    have hproc2 : k2.proc = update k.proc p ((k.proc p).withOfile
        (update (k.proc p).ofile fd (some f))) := by
      rw [honly.proc, hproc1]
    have hr2 : (k2.file f).ref = 1 := by
      rw [hk2.files.ref f hf, update_self]
    have h3 := hk2.setType (x := { k2.file f with type := .inode })
      (by rw [hfile, htype]; rfl) rfl (fun hc => by rw [hr2] at hc; cases hc)
    refine ⟨trivial, ?_⟩
    refine h.withOfile hp hproc2 (ofile_update (fun fd f => h.ofile p fd f hp.1) hfd ?_) ?_
    · intro g hg
      cases hg
      exact hf
    have hcount := refCount_take hp.1 hfd (x := (k.proc p).withOfile
      (update (k.proc p).ofile fd (some f))) rfl h0
    rw [← hproc2, hr] at hcount
    show Sys c (k2.setFile f { k2.file f with type := .inode }) (refCount k2.proc) 0
    rw [hcount]
    rw [hr2, update_idem] at h3
    exact h3

/-- `copyout` on behalf of a process. -/
theorem wp_copyoutProc {va len : Nat} (h : Sys c k refs H) (hp : p < NPROC)
    (hs : (k.proc p).state ≠ .unused) (hr : (k.proc p).pagetable = some r) :
    wp Crit.total (fun _ k' => SameProcs k k' ∧ Sys c k' refs H)
      (onMach (copyout r (k.proc p).sz r va len data)) k := by
  obtain ⟨r', tf, T, hpt, htf, hrep, hsp, hh⟩ := h.live hp hs
  rw [hr] at hpt
  cases hpt
  rw [wp_onMach]
  refine wp_copyout hh hsp.npages_le hsp.highNoUser ?_
  intro b t T' g hf
  exact ⟨⟨rfl, rfl⟩, h.goes_same hp hs hr htf hrep g (hsp.faulted hf)⟩

theorem wp_setOfile {Q : Unit → Kernel → Prop} {k1 : Kernel} {x : Option Nat} (h : Sys c k1 refs H)
    (hproc : k1.proc = update k.proc p ((k.proc p).withOfile o)) (hp : k.CanRun p)
    (hQ : ∀ k2, k2.proc = update k.proc p
        ((k.proc p).withOfile (update o fd x)) → Sys c k2 refs H → Q () k2) :
    wp Crit.total Q (setOfile p fd x) k1 := by
  have hpr : k1.proc p = (k.proc p).withOfile o := by
    rw [hproc, update_self]
  have hs : (k1.proc p).state ≠ .unused := by
    rw [hpr]
    exact hp.used
  refine wp_modifyProc (hQ _ ?_ (h.setOfile hp.1 hs _))
  show update k1.proc p _ = _
  rw [hpr, hproc, update_idem]
  rfl

theorem wp_sysPipe {fdarray : Nat} (h : KInv c k) (hp : k.CanRun p) :
    wp Crit.total (fun _ k' => KInv c k') (sysPipe p fdarray data) k := by
  unfold sysPipe
  rw [wp_bind]
  have hsys := h.sys
  generalize hrefs : refCount k.proc = refs at hsys
  -- states with the process table of the start are fine
  have hdone : ∀ k', k'.proc = k.proc → Sys c k' refs 0 → KInv c k' := by
    intro k' hproc hk'
    rw [← hrefs] at hk'
    refine h.of_sys hk' ?_
    intro q
    rw [hproc]
    exact ⟨rfl, rfl⟩
  refine wp_pipealloc hsys (fun k' hsame hk' => hdone k' hsame.proc hk') ?_
  intro f0 f1 k1 h0 h1 hr0 hr1 hne hsame1 hk1
  have hused1 : (k1.proc p).state ≠ .unused := by
    rw [hsame1.proc]
    exact hp.used
  rw [wp_bind]
  refine wp_fdalloc hk1 hp.1 hused1 ?_ ?_
  · exact wp_closeBoth false h0 h1 hr0 hr1 hne hk1 fun k' hsame hk' =>
      hdone k' (hsame.proc.trans hsame1.proc) hk'
  intro fd0 k2 hfd0 hfree0 honly2 _ hk2
  rw [hsame1.proc] at hfree0
  have hproc2 : k2.proc = update k.proc p ((k.proc p).withOfile
      (update (k.proc p).ofile fd0 (some f0))) := by
    rw [honly2.proc, hsame1.proc]
  have hpr2 : k2.proc p = (k.proc p).withOfile
      (update (k.proc p).ofile fd0 (some f0)) := by
    rw [hproc2, update_self]
  have hused2 : (k2.proc p).state ≠ .unused := by
    rw [hpr2]
    exact hp.used
  rw [wp_bind]
  refine wp_fdalloc hk2 hp.1 hused2 ?_ ?_
  · -- no second descriptor
    rw [wp_bind]
    refine wp_setOfile hk2 hproc2 hp ?_
    intro k3 hproc3 hk3
    refine wp_closeBoth false h0 h1 hr0 hr1 hne hk3 ?_
    intro k4 hsame4 hk4
    refine hdone k4 ?_ hk4
    rw [hsame4.proc, hproc3, update_idem, ← hfree0, update_eq_self,
      withOfile_self, update_eq_self]
  intro fd1 k3 hfd1 hfree1 honly3 _ hk3
  rw [hpr2] at hfree1
  replace hfree1 : update (k.proc p).ofile fd0 (some f0) fd1 = none := hfree1
  have hfd : fd1 ≠ fd0 := by
    intro heq
    rw [heq, update_self] at hfree1
    cases hfree1
  rw [update_of_ne hfd] at hfree1
  have hproc3 : k3.proc = update k.proc p ((k.proc p).withOfile (update
      (update (k.proc p).ofile fd0 (some f0)) fd1 (some f1))) := by
    rw [honly3.proc, hpr2, hproc2, update_idem]
    rfl
  have hused3 : (k3.proc p).state ≠ .unused := by
    rw [hproc3, update_self]
    exact hp.used
  obtain ⟨r, _, _, hpt, -⟩ := hk3.live hp.1 hused3
  rw [wp_bind]
  refine wp_getProc ?_
  rw [hpt]
  -- how the call ends, from any state after the copies
  have hend : ∀ k4 (ok : Bool), SameProcs k3 k4 →
      Sys c k4 (update (update refs f0 1) f1 1) 0 →
      wp Crit.total (fun _ k' => KInv c k') (if ok then pure true else (do
        setOfile p fd0 none
        setOfile p fd1 none
        fileclose f0
        fileclose f1
        pure false) : KernelM Bool) k4 := by
    intro k4 ok hsame4 hk4
    have hproc4 := hsame4.proc.trans hproc3
    cases ok with
    | true =>
      have ho1 := ofile_update (x := some f0) (fun fd f => h.ofile p fd f hp.1) hfd0
        (fun g hg => by cases hg; exact h0)
      have ho2 := ofile_update (x := some f1) ho1 hfd1 (fun g hg => by cases hg; exact h1)
      refine h.withOfile hp hproc4 ho2 ?_
      -- each of the two files has one descriptor
      have hc1 := refCount_take hp.1 hfd0 (x := (k.proc p).withOfile
        (update (k.proc p).ofile fd0 (some f0))) rfl hfree0
      have hc2 := refCount_take (P := k2.proc) hp.1 hfd1 (x := (k.proc p).withOfile
        (update (update (k.proc p).ofile fd0 (some f0)) fd1 (some f1)))
        (by rw [hpr2]; rfl) (by rw [hpr2]; exact (update_of_ne hfd _ _).trans hfree1)
      rw [← hproc2, hrefs, hr0] at hc1
      rw [hc1, update_of_ne (Ne.symm hne), hr1, hproc2, update_idem,
        ← hproc4] at hc2
      rw [hc2]
      exact hk4
    | false =>
      rw [if_neg Bool.false_ne_true, wp_bind]
      refine wp_setOfile hk4 hproc4 hp ?_
      intro k5 hproc5 hk5
      rw [wp_bind]
      refine wp_setOfile hk5 hproc5 hp ?_
      intro k6 hproc6 hk6
      refine wp_closeBoth false h0 h1 hr0 hr1 hne hk6 ?_
      intro k7 hsame7 hk7
      refine hdone k7 ?_ hk7
      have hback : update (update (update (update
          (k.proc p).ofile fd0 (some f0)) fd1 (some f1)) fd0 none) fd1 none = (k.proc p).ofile := by
        funext fd
        rcases eq_or_ne fd fd1 with h1 | h1
        · rw [h1, update_self, hfree1]
        · rw [update_of_ne h1]
          rcases eq_or_ne fd fd0 with h2 | h2
          · rw [h2, update_self, hfree0]
          · rw [update_of_ne h2, update_of_ne h1, update_of_ne h2]
      rw [hsame7.proc, hproc6, hback, withOfile_self, update_eq_self]
  refine wp_seq (wp_copyoutProc hk3 hp.1 hused3 hpt) ?_
  intro ok0 k4 hk4
  obtain ⟨hsame4, hk4⟩ := hk4
  cases ok0 with
  | false => exact hend k4 false hsame4 hk4
  | true =>
    rw [if_pos rfl, wp_bind]
    have hpr4 : k4.proc p = k3.proc p := by rw [hsame4.proc]
    rw [← hpr4] at hused3 hpt ⊢
    refine wp_mono (wp_copyoutProc hk4 hp.1 hused3 hpt) ?_
    intro ok k5 hk5
    exact hend k5 ok (hsame4.trans hk5.1) hk5.2

/-- Every operation keeps the invariant and returns, but for an exit of the first process. -/
theorem wp_prog (op : Op) (h : KInv c k) (hp : k.CanRun p) :
    wp exitCrit (fun _ k' => KInv c k') (op.prog p) k := by
  have hdrop : ∀ {α : Type} {prog : KernelM α}, wp Crit.total (fun _ k' => KInv c k') prog k →
      wp exitCrit (fun _ k' => KInv c k') (do let _ ← prog : KernelM Unit) k := by
    intro α prog hw
    exact wp_seq (wp_of_total hw fun _ => trivial) fun _ _ hk => hk
  cases op with
  | fork => exact hdrop (wp_kfork h hp)
  | exec uargv user img data =>
    obtain ⟨r, tf, T, hpt, htf, hrep, hsp, hh⟩ := h.live hp
    exact hdrop (wp_mono (wp_sysExec h hp hpt htf hrep hsp hh) fun _ _ hk => hk.1)
  | sbrk n eager => exact hdrop (wp_sysSbrk h hp (BitVec.toInt_lt))
  | fault va => exact wp_usertrapFault h hp
  | copyin va len => exact wp_of_total (wp_userCopyin h hp) fun _ => trivial
  | copyout va len data => exact wp_of_total (wp_userCopyout h hp) fun _ => trivial
  | pipe fdarray data => exact hdrop (wp_sysPipe h hp)
  | openFile => exact hdrop (wp_sysOpen h hp)
  | dup fd => exact hdrop (wp_sysDup h hp)
  | close fd => exact hdrop (wp_sysClose h hp)
  | exit => exact wp_kexit_any h hp
  | wait addr data => exact hdrop (wp_kwait h hp)

end calls

end Xv6
