/-
  The operations of processes keep the invariant of the system.

  `KInv c k` is what holds between operations: `Sys` with nothing in hand and the reference counts
  that the open descriptors account for.  Each operation is shown to return, without panic, in a
  state with `KInv` again; `exit` of the first process is the one panic that remains
  (`wp_prog`).
-/
import Xv6.Vm.Files

namespace Xv6

open Lib Lib.Prog Finset

@[irreducible] def fdSlots : Finset Nat := range NOFILE

@[simp] theorem mem_fdSlots {fd : Nat} : fd ∈ fdSlots ↔ fd < NOFILE := by
  unfold fdSlots
  exact mem_range

/-- How many descriptors of a process are the file `f`. -/
def ofileCount (ofile : Nat → Option Nat) (f : Nat) : Nat :=
  ∑ fd ∈ fdSlots, if ofile fd = some f then 1 else 0

def refCount (proc : Nat → Proc) (f : Nat) : Nat := ∑ p ∈ procSlots, ofileCount (proc p).ofile f

structure KInv (c k : Kernel) : Prop where
  sys : Sys c k (refCount k.proc) 0
  ofile : ∀ p fd f, p < NPROC → (k.proc p).ofile fd = some f → fd < NOFILE ∧ f < NFILE
  zombie : ∀ p, p < NPROC → (k.proc p).state = .zombie → (k.proc p).ofile = fun _ => none
  ready : ∀ p, p < NPROC → (k.proc p).state ≠ .used

section refs

variable {P : Nat → Proc} {p fd f : Nat}

theorem ofileCount_pos {ofile : Nat → Option Nat} (hfd : fd < NOFILE) (h : ofile fd = some f) :
    0 < ofileCount ofile f := by
  have hle := single_le_sum (f := fun fd => if ofile fd = some f then 1 else 0)
    (fun i _ => Nat.zero_le _) (mem_fdSlots.mpr hfd)
  rw [if_pos h] at hle
  exact hle

theorem refCount_pos (hp : p < NPROC) (hfd : fd < NOFILE) (h : (P p).ofile fd = some f) :
    0 < refCount P f := by
  have hle := single_le_sum (f := fun p => ofileCount (P p).ofile f)
    (fun i _ => Nat.zero_le _) (mem_procs.mpr hp)
  exact Nat.lt_of_lt_of_le (ofileCount_pos hfd h) hle

variable {x : Proc}

/-- One descriptor changes. -/
theorem refCount_setOfile (hp : p < NPROC) (hfd : fd < NOFILE) {o : Option Nat}
    (hpr : x.ofile = Function.update (P p).ofile fd o) (g : Nat) :
    refCount (Function.update P p x) g + (if (P p).ofile fd = some g then 1 else 0) =
      refCount P g + if o = some g then 1 else 0 := by
  have h1 := sum_update_add (mem_procs.mpr hp) (fun _ pr => ofileCount pr.ofile g) P x
  have h2 := sum_update_add (mem_fdSlots.mpr hfd) (fun _ x => if x = some g then 1 else 0)
    (P p).ofile o
  rw [← hpr] at h2
  unfold refCount
  unfold ofileCount at h1 ⊢
  omega

/-- A descriptor that was free is taken. -/
theorem refCount_take (hp : p < NPROC) (hfd : fd < NOFILE)
    (hpr : x.ofile = Function.update (P p).ofile fd (some f)) (h0 : (P p).ofile fd = none) :
    refCount (Function.update P p x) = Function.update (refCount P) f (refCount P f + 1) := by
  funext g
  have h := refCount_setOfile hp hfd hpr g
  rw [h0, if_neg (by simp), add_zero] at h
  rcases eq_or_ne g f with hg | hg
  · rw [hg] at h ⊢
    rw [Function.update_self, h, if_pos rfl]
  · rw [Function.update_of_ne hg, h, if_neg (by simp [Ne.symm hg]), add_zero]

/-- A descriptor becomes free. -/
theorem refCount_drop (hp : p < NPROC) (hfd : fd < NOFILE)
    (hpr : x.ofile = Function.update (P p).ofile fd none) (h0 : (P p).ofile fd = some f) :
    refCount (Function.update P p x) = Function.update (refCount P) f (refCount P f - 1) := by
  funext g
  have h := refCount_setOfile hp hfd hpr g
  rw [h0, if_neg (by simp : ¬ (none = some g)), add_zero] at h
  rcases eq_or_ne g f with hg | hg
  · rw [hg] at h ⊢
    rw [if_pos rfl] at h
    rw [Function.update_self]
    omega
  · rw [if_neg (by simp [Ne.symm hg]), add_zero] at h
    rw [Function.update_of_ne hg, h]

theorem refCount_congr {P' : Nat → Proc} (h : ∀ p, (P' p).ofile = (P p).ofile) :
    refCount P' = refCount P := by
  funext f
  refine sum_congr rfl ?_
  intro p _
  rw [h p]

theorem refCount_update (h : x.ofile = (P p).ofile) :
    refCount (Function.update P p x) = refCount P :=
  refCount_congr <| (Function.forall_update_iff P fun q y => y.ofile = (P q).ofile).mpr
    ⟨h, fun _ _ => rfl⟩

end refs

section ops

variable {c k k' : Kernel} {refs : Nat → Nat} {H : Multiset Nat} {s t : Mach} {p : Nat}

/-- The memory has changed, but no descriptor and no state. -/
theorem KInv.of_sys (h : KInv c k) (hsys : Sys c k' (refCount k.proc) 0)
    (hp : ∀ q, (k'.proc q).ofile = (k.proc q).ofile ∧ (k'.proc q).state = (k.proc q).state) :
    KInv c k' := by
  refine ⟨?_, ?_, ?_, ?_⟩
  · rw [refCount_congr fun q => (hp q).1]
    exact hsys
  · intro q fd f hq
    rw [(hp q).1]
    exact h.ofile q fd f hq
  · intro q hq
    rw [(hp q).1, (hp q).2]
    exact h.zombie q hq
  · intro q hq
    rw [(hp q).2]
    exact h.ready q hq

/-- The record of one process has changed. -/
theorem KInv.of_update {x : Proc} (h : KInv c k) (hproc : k'.proc = Function.update k.proc p x)
    (hsys : Sys c k' (refCount k'.proc) 0)
    (hofile : ∀ fd f, x.ofile fd = some f → fd < NOFILE ∧ f < NFILE)
    (hz : x.state = .zombie → x.ofile = fun _ => none) (hr : x.state ≠ .used) : KInv c k' := by
  refine ⟨hsys, ?_, ?_, ?_⟩
  · intro q fd f hq ho
    rw [hproc] at ho
    rcases eq_or_ne q p with heq | hne
    · rw [heq, Function.update_self] at ho
      exact hofile fd f ho
    · rw [Function.update_of_ne hne] at ho
      exact h.ofile q fd f hq ho
  · intro q hq hs
    rw [hproc] at hs ⊢
    rcases eq_or_ne q p with heq | hne
    · rw [heq, Function.update_self] at hs ⊢
      exact hz hs
    · rw [Function.update_of_ne hne] at hs ⊢
      exact h.zombie q hq hs
  · intro q hq
    rw [hproc]
    rcases eq_or_ne q p with heq | hne
    · rw [heq, Function.update_self]
      exact hr
    · rw [Function.update_of_ne hne]
      exact h.ready q hq

theorem Kernel.CanRun.used (hp : k.CanRun p) : (k.proc p).state ≠ .unused := by
  rw [hp.2]
  exact ProcState.noConfusion

/-- What a process that can run has. -/
theorem KInv.live (h : KInv c k) (hp : k.CanRun p) :
    ∃ r tf T, (k.proc p).pagetable = some r ∧ (k.proc p).trapframe = some tf ∧
      Rep k.mach.mem r T ∧ Space T.leaf (k.proc p).sz (k.proc p).guard k.mach.trampoline tf ∧
      Holds k.mach r T {tf} := by
  obtain ⟨r, tf, T, h1, h2, h3, h4, h5⟩ := h.sys.live hp.1 hp.used
  exact ⟨r, tf, T, h1, h2, h3, h4, h5⟩

variable {r tf : Nat} {T : Tree}

/-- The page table of `p` has changed. -/
theorem KInv.goes (h : KInv c k) (hp : k.CanRun p) {T' : Tree} (hpt : (k.proc p).pagetable = some r)
    (htf : (k.proc p).trapframe = some tf) (hrep : Rep k.mach.mem r T)
    (g : Goes r k.mach T {tf} t T' {tf})
    (hsp : Space T'.leaf (k.proc p).sz (k.proc p).guard k.mach.trampoline tf) :
    KInv c { k with mach := t } :=
  h.of_sys (h.sys.goes_same hp.1 hp.used hpt htf hrep g hsp) fun _ => ⟨rfl, rfl⟩

/-- The page table of `p` and its size have changed. -/
theorem KInv.resize (h : KInv c k) (hp : k.CanRun p) {sz : Nat} {T' : Tree}
    (hpt : (k.proc p).pagetable = some r) (htf : (k.proc p).trapframe = some tf)
    (hrep : Rep k.mach.mem r T) (g : Goes r k.mach T {tf} t T' {tf})
    (hsp : Space T'.leaf sz (k.proc p).guard k.mach.trampoline tf) :
    KInv c (k.put p t { k.proc p with sz := sz }) := by
  refine h.of_sys (h.sys.goes hp.1 hpt htf hrep g hp.used hpt htf hsp) ?_
  exact (Function.forall_update_iff k.proc fun q x =>
    x.ofile = (k.proc q).ofile ∧ x.state = (k.proc q).state).mpr ⟨⟨rfl, rfl⟩, fun _ _ => ⟨rfl, rfl⟩⟩

/-! ## Memory -/

/-- `sbrk` fails where the size would reach the trapframe, or where memory runs out. Otherwise it
    returns the old size, and for the user only the pages above the new size have changed. -/
theorem wp_sysSbrk_seen {Q : Option Nat → Kernel → Prop} {n : Int} {eager : Bool} (h : KInv c k)
    (hp : k.CanRun p) (hn : n < 2 ^ 31) (hpt : (k.proc p).pagetable = some r)
    (htf : (k.proc p).trapframe = some tf) (hrep : Rep k.mach.mem r T)
    (hsp : Space T.leaf (k.proc p).sz (k.proc p).guard k.mach.trampoline tf)
    (hh : Holds k.mach r T {tf}) (hbig : 0 ≤ n → TRAPFRAME < (k.proc p).sz + n.toNat → Q none k)
    (hfail : ∀ t T', 0 < n → (k.proc p).sz + n.toNat ≤ TRAPFRAME → Goes r k.mach T {tf} t T' {tf} →
      T'.leaf = T.leaf → Keeps T.pages k.mach t → KInv c { k with mach := t } →
      Q none { k with mach := t }) (hQ : ∀ t T', Goes r k.mach T {tf} t T' {tf} →
      KInv c (k.put p t { k.proc p with sz := sbrkSize (k.proc p).sz n }) →
      seen t T' = freshFrom (npages (sbrkSize (k.proc p).sz n)) (seen k.mach T) →
      (0 ≤ n → (k.proc p).sz + n.toNat ≤ TRAPFRAME) →
      (eager = true → Resized k.mach T (k.proc p).sz t T' (sbrkSize (k.proc p).sz n)) →
      Q (some (k.proc p).sz) (k.put p t { k.proc p with sz := sbrkSize (k.proc p).sz n })) :
    wp Crit.total Q (sysSbrk p n eager) k := by
  unfold sysSbrk
  rw [wp_bind]
  refine wp_getProc ?_
  split
  · rw [hpt]
    rw [wp_bind, wp_onMach]
    refine wp_growproc hh hsp hn ?_ ?_ ?_
    · intro hpos hlt
      exact hbig (le_of_lt hpos) hlt
    · intro t T' hpos hle g hleaf hk
      refine hfail t T' hpos hle g hleaf hk (h.goes hp hpt htf hrep g ?_)
      rw [hleaf]
      exact hsp
    · intro t T' g hsp' hseen hres
      rw [wp_bind]
      refine wp_modifyProc (hQ t T' g (h.resize hp hpt htf hrep g hsp') hseen ?_ fun _ => hres)
      intro h0
      rw [← sbrkSize_nonneg hsp.size h0 hn]
      exact hsp'.size
  · rename_i heager
    have hn0 : 0 ≤ n := by
      by_contra hneg
      exact heager (Or.inr (by omega))
    rw [add64_nonneg hsp.size hn0 hn]
    rw [sbrkSize_nonneg hsp.size hn0 hn] at hQ
    rw [if_neg (by omega)]
    split
    · rename_i hlt
      exact hbig hn0 hlt
    rename_i hle
    -- lazily: only the size changes
    rw [wp_bind]
    refine wp_modifyProc (hQ k.mach T (Goes.refl hh) (h.resize hp hpt htf hrep (Goes.refl hh) ?_)
      ?_ (fun _ => Nat.not_lt.mp hle) fun he => absurd (Or.inl he) heager)
    · refine hsp.change (Nat.not_lt.mp hle) (fun _ _ => rfl) ?_
      intro v hv hV
      refine ⟨?_, hsp.user v hv hV⟩
      exact Nat.lt_of_lt_of_le (hsp.below v hv hV) (npages_mono (Nat.le_add_right _ _))
    · rw [freshFrom_seen]
      intro v hv hlt
      exact hsp.zero hrep hlt (Nat.le_trans (npages_mono (Nat.le_add_right _ _)) hv)

theorem wp_sysSbrk {n : Int} {eager : Bool} (h : KInv c k) (hp : k.CanRun p) (hn : n < 2 ^ 31) :
    wp Crit.total (fun _ k' => KInv c k') (sysSbrk p n eager) k := by
  obtain ⟨r, tf, T, hpt, htf, hrep, hsp, hh⟩ := h.live hp
  refine wp_sysSbrk_seen h hp hn hpt htf hrep hsp hh ?_ ?_ ?_
  · intro _ _
    exact h
  · intro t _ _ _ _ _ _ ht
    exact ht
  · intro t T' _ hk' _ _ _
    exact hk'

theorem wp_userCopyin {va len : Nat} (h : KInv c k) (hp : k.CanRun p) :
    wp Crit.total (fun _ k' => KInv c k') (userCopyin p va len) k := by
  obtain ⟨r, tf, T, hpt, htf, hrep, hsp, hh⟩ := h.live hp
  unfold userCopyin
  rw [wp_bind]
  refine wp_getProc ?_
  rw [hpt]
  rw [wp_bind, wp_onMach]
  refine wp_copyin hh hsp.npages_le hsp.highNoUser ?_
  intro b t T' g hu
  exact h.goes hp hpt htf hrep g (hsp.faulted hu.faulted)

theorem wp_userCopyout {va len : Nat} {data : Nat → (Nat → Nat) → Nat → Nat} (h : KInv c k)
    (hp : k.CanRun p) : wp Crit.total (fun _ k' => KInv c k') (userCopyout p va len data) k := by
  obtain ⟨r, tf, T, hpt, htf, hrep, hsp, hh⟩ := h.live hp
  unfold userCopyout
  rw [wp_bind]
  refine wp_getProc ?_
  rw [hpt]
  rw [wp_bind, wp_onMach]
  refine wp_copyout hh hsp.npages_le hsp.highNoUser ?_
  intro b t T' g hf
  exact h.goes hp hpt htf hrep g (hsp.faulted hf)

/-! ## The process table -/

/-- `freeproc` of a process with a trapframe and a page table. -/
theorem wp_freeprocMem {Q : Unit → Mach → Prop} {pr : Proc} {tramp : Nat} {guard : Option Nat}
    {F : Multiset Nat} (hpt : pr.pagetable = some r) (htf : pr.trapframe = some tf)
    (hh : Hands s (tf ::ₘ Own r T + F)) (hrep : Rep s.mem r T)
    (hsp : Space T.leaf pr.sz guard tramp tf)
    (hQ : ∀ t, Moves s (tf ::ₘ Own r T + F) t F → Q () t) : wp Crit.total Q (freeprocMem pr) s := by
  rw [Multiset.cons_add, ← Multiset.add_cons] at hh hQ
  have hold := hh.holds hrep
  unfold freeprocMem
  rw [htf, hpt]
  rw [wp_bind]
  refine wp_kfree_held hold ?_
  intro t g _
  refine wp_procFreepagetable (hold.goes g) hsp ?_
  intro u m
  exact hQ u (g.moves.trans m)

/-- The record of a process that `allocproc` has set up. -/
def freshProc (tf r : Nat) : Proc :=
  { state := .used, sz := 0, pagetable := some r, trapframe := some tf, parent := none,
    ofile := fun _ => none, guard := none }

theorem wp_allocproc {Q : Option Nat → Kernel → Prop} (h : Sys c k refs H)
    (hn : ∀ t, Moves k.mach H t H → Q none { k with mach := t })
    (hs : ∀ np tf r t T, np < NPROC → k.proc np = Proc.free (fun _ => none) →
      Moves k.mach H t (tf ::ₘ Own r T + H) → Rep t.mem r T →
      Space T.leaf 0 none k.mach.trampoline tf → k.unusedSlot = some np →
      Q (some np) (k.put np t (freshProc tf r))) :
    wp Crit.total Q allocproc k := by
  unfold allocproc
  simp only [wp_bind, wp_look]
  refine ⟨trivial, ?_⟩
  cases hfind : k.unusedSlot with
  | none => exact hn k.mach (Moves.refl _ _)
  | some p =>
    have hp : p < NPROC := List.mem_range.mp (List.mem_of_find?_eq_some hfind)
    have hunused : (k.proc p).state = .unused := by
      simpa using List.find?_some hfind
    have hfree : k.proc p = Proc.free fun _ => none := by
      cases h.procs p hp with
      | free hfree => exact hfree
      | live state _ _ _ _ => exact absurd hunused state
    -- a slot set free again is as before
    have hback : ∀ t, k.put p t (Proc.free fun _ => none) = { k with mach := t } := by
      intro t
      rw [← hfree]
      exact put_self k p t
    simp only [wp_bind]
    refine wp_modifyProc ?_
    rw [hfree]
    refine wp_onMach_put (wp_kalloc_moves (F := H) ?_ ?_)
    · -- no trapframe
      intro t m
      refine wp_modifyProc_put ?_
      unfold freeproc
      simp only [wp_bind]
      refine wp_getProc_put (wp_onMach_put ?_)
      show wp Crit.total _ (pure ()) t
      rw [wp_pure]
      refine wp_modifyProc_put ?_
      show Q none (k.put p t (Proc.free fun _ => none))
      rw [hback t]
      exact hn t m
    · intro tf t m
      refine wp_modifyProc_put ?_
      simp only [wp_bind]
      refine wp_onMach_put (wp_procPagetable (h.hands_held.moves m) ?_ ?_)
      · -- no page table
        intro u m'
        refine wp_modifyProc_put ?_
        unfold freeproc
        simp only [wp_bind]
        refine wp_getProc_put (wp_onMach_put ?_)
        show wp Crit.total _ (kfree tf >>= fun _ => pure ()) u
        rw [wp_bind]
        refine wp_kfree_moves (h.hands_held.moves (m.trans m')) ?_
        intro w m''
        rw [wp_pure]
        refine wp_modifyProc_put ?_
        show Q none (k.put p w (Proc.free fun _ => none))
        rw [hback w]
        exact hn w (m.trans (m'.trans m''))
      · intro r u T m' hrep hsp
        refine wp_modifyProc_put ?_
        rw [m.trampoline] at hsp
        refine hs p tf r u T hp hfree ?_ hrep hsp hfind
        have m'' := m.trans m'
        rw [Multiset.add_cons, ← Multiset.cons_add] at m''
        exact m''

end ops

end Xv6
