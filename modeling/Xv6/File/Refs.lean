/-
  The counts of references at operation boundaries.

  `Counted` says what the counts are while no process is in a call, and `Same` that two states have the
  same descriptors and counts.  A call that fails, run alone, leaves the state the same; this needs more
  than that the caller owns what it owned, so it is computed from the programs (`failed_same`).

  `open_file_refs` is the theorem about every run.
-/
import Xv6.File.Calls
import Mathlib.Algebra.BigOperators.Group.Finset.Piecewise

namespace Xv6.Ftable

open Lib Finset Function
open Lib.Prog hiding update

/-! ## Boundaries -/

/-- The counts while no process is in a call. -/
structure Counted (s : Sys) : Prop where
  /-- `ref` counts the descriptors of all processes. -/
  ref : ∀ f, (s.file f).ref = ∑ p, #{fd | (s.proc p).ofile fd = some f}
  closed : ∀ f, (s.file f).ref = 0 → (s.file f).type = .none
  /-- A side of a pipe is open while a file of that side is. -/
  side : ∀ pg w, (∃ pi, s.pipe pg = some pi ∧ pi.isOpen w = true) ↔
    ∃ f, 0 < (s.file f).ref ∧ (s.file f).type = .pipe ∧ (s.file f).pipe = pg ∧
      (s.file f).writable = w
  /-- The page is freed when both sides are closed. -/
  page : ∀ pg pi, s.pipe pg = some pi → pi.readopen = true ∨ pi.writeopen = true
  /-- Inodes are referred to by open files and current directories. -/
  inode : ∀ ip, s.iref ip =
    #{f | 0 < (s.file f).ref ∧ ((s.file f).type = .inode ∨ (s.file f).type = .device) ∧
      (s.file f).ip = ip} + #{p | (s.proc p).cwd = some ip}

theorem count_ofileTokens (o : Fin NOFILE → Option (Fin NFILE)) (f : Fin NFILE) :
    (ofileTokens o).count (.file f) = #{fd | o fd = some f} := by
  unfold ofileTokens
  rw [Multiset.count_sum', card_filter]
  refine sum_congr rfl ?_
  intro fd _
  unfold slotTokens
  cases o fd with
  | none => rfl
  | some g => simp [Multiset.count_singleton, eq_comm]

theorem count_ofileTokens_other (o : Fin NOFILE → Option (Fin NFILE)) (k : Token)
    (hk : ∀ f, k ≠ .file f) : (ofileTokens o).count k = 0 := by
  unfold ofileTokens
  rw [Multiset.count_sum']
  refine sum_eq_zero ?_
  intro fd _
  unfold slotTokens
  cases o fd with
  | none => rfl
  | some g => simp [hk g]

theorem count_cwdTokens (cwd : Option Nat) (ip : Nat) :
    (cwdTokens cwd).count (.inode ip) = if cwd = some ip then 1 else 0 := by
  cases cwd with
  | none => rfl
  | some j => simp [cwdTokens, Multiset.count_singleton, eq_comm]

theorem count_cwdTokens_other (cwd : Option Nat) (k : Token) (hk : ∀ ip, k ≠ .inode ip) :
    (cwdTokens cwd).count k = 0 := by
  cases cwd with
  | none => rfl
  | some j => simp [cwdTokens, hk j]

/-- Processes own no ends of pipes between calls. -/
theorem procs_own_none (s : Sys) (k : Token) (hfile : ∀ f, k ≠ .file f)
    (hinode : ∀ ip, k ≠ .inode ip) :
    ∑ p, ((ofileTokens (s.proc p).ofile).count k + (cwdTokens (s.proc p).cwd).count k) = 0 := by
  refine sum_eq_zero ?_
  intro p _
  rw [count_ofileTokens_other _ k hfile, count_cwdTokens_other _ k hinode, Nat.add_zero]

theorem count_owns_side (x : File) (pg : Nat) (w : Bool) : x.owns.count (.side pg w) =
    if x.type = .pipe ∧ x.pipe = pg ∧ x.writable = w then 1 else 0 := by
  unfold File.owns
  cases x.type with
  | none | inode | device => simp
  | pipe => simp [Multiset.count_singleton, eq_comm]

theorem count_owns_inode (x : File) (ip : Nat) : x.owns.count (.inode ip) =
    if (x.type = .inode ∨ x.type = .device) ∧ x.ip = ip then 1 else 0 := by
  unfold File.owns
  cases x.type with
  | none => simp
  | pipe => simp
  | inode | device => simp [Multiset.count_singleton, eq_comm]

theorem count_owns_page (x : File) (pg : Nat) : x.owns.count (.page pg) = 0 := by
  unfold File.owns
  split <;> simp

variable {O : Fin NPROC → Option Held} {s' : Sys}

/-- With nothing in hand, the counts are those of the descriptors. -/
theorem Table.counted {s : Sys} (h : Table O s) (hO : ∀ p, tokensOf O s p = (s.proc p).tokens) :
    Counted s := by
  have hsupply : ∀ k, s.supply k = ∑ f, (s.file f).owns.count k +
      ∑ p, ((ofileTokens (s.proc p).ofile).count k + (cwdTokens (s.proc p).cwd).count k) := by
    intro k
    rw [h.supply k, sum_congr rfl fun p _ => congrArg (Multiset.count k) (hO p)]
    exact congrArg _ (sum_congr rfl fun p _ => Multiset.count_add k _ _)
  -- a file with a type is open
  have hopen : ∀ f, (s.file f).type ≠ .none → 0 < (s.file f).ref := fun f hf =>
    Nat.pos_of_ne_zero fun hz => hf (h.closed f hz)
  refine ⟨?_, h.closed, ?_, ?_, ?_⟩
  · intro f
    have hf := hsupply (.file f)
    rw [sum_eq_zero fun g _ => count_file_owns (s.file g) f, Nat.zero_add] at hf
    refine hf.trans (sum_congr rfl ?_)
    intro p _
    rw [count_ofileTokens, count_cwdTokens_other _ (.file f) (by simp), Nat.add_zero]
  · intro pg w
    have hside := hsupply (.side pg w)
    rw [procs_own_none s (.side pg w) (by simp) (by simp), Nat.add_zero] at hside
    simp only [count_owns_side, Sys.supply] at hside
    constructor
    · rintro ⟨pi, hpi, hw⟩
      rw [hpi, Option.any_some, hw, if_pos rfl] at hside
      have hne : ∑ f, (if (s.file f).type = .pipe ∧ (s.file f).pipe = pg ∧
          (s.file f).writable = w then 1 else 0) ≠ 0 := by omega
      obtain ⟨f, _, hf⟩ := exists_ne_zero_of_sum_ne_zero hne
      have hcond := (ite_ne_right_iff.mp hf).1
      exact ⟨f, hopen f (by simp [hcond.1]), hcond⟩
    · rintro ⟨f, _, hcond⟩
      have hle := single_le_sum (f := fun f => if (s.file f).type = .pipe ∧ (s.file f).pipe = pg ∧
        (s.file f).writable = w then 1 else 0) (fun _ _ => Nat.zero_le _) (mem_univ f)
      rw [if_pos hcond, ← hside] at hle
      cases hpi : s.pipe pg with
      | none =>
        rw [hpi] at hle
        simp at hle
      | some pi =>
        rw [hpi, Option.any_some] at hle
        refine ⟨pi, rfl, ?_⟩
        by_contra hno
        rw [if_neg hno] at hle
        omega
  · intro pg pi hpi
    have hpage := hsupply (.page pg)
    rw [procs_own_none s (.page pg) (by simp) (by simp),
      sum_eq_zero fun g _ => count_owns_page (s.file g) pg] at hpage
    obtain ⟨ro, wo⟩ := pi
    cases ro with
    | true => exact Or.inl rfl
    | false =>
      cases wo with
      | true => exact Or.inr rfl
      | false =>
        simp only [Sys.supply, hpi, if_pos] at hpage
        omega
  · intro ip
    have hinode := hsupply (.inode ip)
    rw [sum_add_distrib] at hinode
    have hslots : ∑ p, (ofileTokens (s.proc p).ofile).count (.inode ip) = 0 :=
      sum_eq_zero fun p _ => count_ofileTokens_other _ _ (by simp)
    rw [hslots, Nat.zero_add] at hinode
    simp only [count_owns_inode, count_cwdTokens] at hinode
    rw [← card_filter, ← card_filter] at hinode
    have hsame : ({f | 0 < (s.file f).ref ∧ ((s.file f).type = .inode ∨
        (s.file f).type = .device) ∧ (s.file f).ip = ip} : Finset (Fin NFILE)) =
        ({f | ((s.file f).type = .inode ∨ (s.file f).type = .device) ∧ (s.file f).ip = ip} :
          Finset (Fin NFILE)) := by
      refine filter_congr ?_
      intro f _
      refine ⟨And.right, fun hf => ⟨hopen f ?_, hf⟩⟩
      rcases hf.1 with hf | hf <;> simp [hf]
    rw [hsame]
    exact hinode

/-! ## Calls that fail -/

/-- The same descriptors and counts. -/
structure Same (s s' : Sys) : Prop where
  proc : s'.proc = s.proc
  ref : ∀ f, (s'.file f).ref = (s.file f).ref
  type : ∀ f, (s'.file f).type = (s.file f).type
  iref : s'.iref = s.iref
  pipe : s'.pipe = s.pipe

theorem Same.refl (s : Sys) : Same s s := ⟨rfl, fun _ => rfl, fun _ => rfl, rfl, rfl⟩

/-- The postcondition of a call that may fail. -/
def FailSame (s : Sys) (a : Int) (s' : Sys) : Prop := a = -1 → Same s s'

theorem FailSame.ok {s : Sys} (n : Nat) : FailSame s n s' := by
  intro h
  omega

section fail

variable {s : Sys} {t : Fin NPROC} {f : Fin NFILE}

/-- A new file is closed: only its entry changes. -/
theorem wp_fileclose_new {Q : Unit → Sys → Prop} (href : (s.file f).ref = 1)
    (htype : (s.file f).type = .none)
    (hQ : Q () (s.setFile f { s.file f with ref := 0, type := .none })) :
    wp Crit.partialC Q (fileclose f) s := by
  unfold fileclose
  rw [wp_bind, wp_atomic]
  simp only [dropFile, href]
  refine ⟨trivial, ?_⟩
  simpa [htype] using hQ

/-- An end of a pipe is closed. -/
theorem wp_fileclose_pipe {Q : Unit → Sys → Prop} (pi : Pipe) (href : (s.file f).ref = 1)
    (htype : (s.file f).type = .pipe) (hpi : s.pipe (s.file f).pipe = some pi)
    (hQ : Q () ((s.setFile f { s.file f with ref := 0, type := .none }).setPipe (s.file f).pipe
      (if (pi.shut (s.file f).writable).readopen = false ∧
        (pi.shut (s.file f).writable).writeopen = false then none
      else some (pi.shut (s.file f).writable)))) :
    wp Crit.partialC Q (fileclose f) s := by
  unfold fileclose
  rw [wp_bind, wp_atomic]
  simp only [dropFile, href]
  refine ⟨trivial, ?_⟩
  simp only [htype, if_true, pipeclose]
  rw [wp_bind, wp_atomic]
  have hpi' : (s.setFile f { s.file f with ref := 0, type := .none }).pipe (s.file f).pipe =
      some pi := hpi
  simp only [shutPipe, hpi']
  refine ⟨trivial, ?_⟩
  by_cases hboth : (pi.shut (s.file f).writable).readopen = false ∧
      (pi.shut (s.file f).writable).writeopen = false
  · rw [if_pos (decide_eq_true hboth), wp_atomic]
    simp only [freePipe, Sys.setPipe, update_self]
    rw [if_pos hboth] at hQ
    refine ⟨trivial, ?_⟩
    rw [update_idem]
    exact hQ
  · rw [if_neg (by simpa using hboth)]
    rw [if_neg hboth] at hQ
    exact hQ

/-- What `filealloc` gives. -/
theorem wp_filealloc {Q : Option (Fin NFILE) → Sys → Prop} (hnone : Q none s)
    (hsome : ∀ f, (s.file f).ref = 0 → Q (some f) (s.setFile f { s.file f with ref := 1 })) :
    wp Crit.partialC Q filealloc s := by
  unfold filealloc
  rw [wp_atomic]
  cases hfind : (List.finRange NFILE).find? fun f => decide ((s.file f).ref = 0) with
  | none =>
    simp only [allocFile, hfind]
    exact ⟨trivial, hnone⟩
  | some f =>
    simp only [allocFile, hfind]
    have hdec := List.find?_some hfind
    exact ⟨trivial, hsome f (of_decide_eq_true hdec)⟩

theorem wp_fdalloc {Q : Option (Fin NOFILE) → Sys → Prop} (hnone : Q none s)
    (hsome : ∀ fd, (s.proc t).ofile fd = none → Q (some fd) (s.setProc t
      { s.proc t with ofile := update (s.proc t).ofile fd (some f) })) :
    wp Crit.partialC Q (fdalloc t f) s := by
  unfold fdalloc
  rw [wp_atomic]
  cases hfind : (List.finRange NOFILE).find? fun fd => decide ((s.proc t).ofile fd = none) with
  | none =>
    simp only [allocFd, hfind]
    exact ⟨trivial, hnone⟩
  | some fd =>
    simp only [allocFd, hfind]
    have hdec := List.find?_some hfind
    exact ⟨trivial, hsome fd (of_decide_eq_true hdec)⟩

/-- The files in `F` were not open and are not. -/
theorem Same.of_closed (F : Finset (Fin NFILE)) (hproc : s'.proc = s.proc)
    (hiref : s'.iref = s.iref) (hpipe : s'.pipe = s.pipe)
    (hfile : ∀ g, g ∉ F → s'.file g = s.file g)
    (hF : ∀ g ∈ F, (s.file g).ref = 0 ∧ (s.file g).type = .none ∧ (s'.file g).ref = 0 ∧
      (s'.file g).type = .none) : Same s s' := by
  refine ⟨hproc, ?_, ?_, hiref, hpipe⟩
  · intro g
    by_cases hg : g ∈ F
    · rw [(hF g hg).1, (hF g hg).2.2.1]
    · rw [hfile g hg]
  · intro g
    by_cases hg : g ∈ F
    · rw [(hF g hg).2.1, (hF g hg).2.2.2]
    · rw [hfile g hg]

theorem sysDup_fail (fd : Int) : wp Crit.partialC (FailSame s) (sysDup t fd) s := by
  unfold sysDup argfd
  rw [wp_bind, wp_look]
  refine ⟨trivial, ?_⟩
  split
  · exact fun _ => .refl s
  · rw [wp_bind]
    refine wp_fdalloc (fun _ => .refl s) ?_
    intro fd' _
    rw [wp_bind]
    unfold filedup
    rw [wp_atomic]
    unfold dupFile
    split
    · exact ⟨trivial, FailSame.ok fd'.val⟩
    · trivial
    · trivial

theorem sysOpen_fail (hclosed : ∀ f, (s.file f).ref = 0 → (s.file f).type = .none) (omode : Nat)
    (found : Option Found) : wp Crit.partialC (FailSame s) (sysOpen t omode found) s := by
  cases found with
  | none => exact fun _ => .refl s
  | some x =>
    -- the inode that was looked up is put back
    have hput : ∀ s' : Sys, s'.proc = s.proc → s'.iref = (s.setIref x.ip (s.iref x.ip + 1)).iref →
        s'.pipe = s.pipe → ∀ F : Finset (Fin NFILE), (∀ g, g ∉ F → s'.file g = s.file g) →
        (∀ g ∈ F, (s.file g).ref = 0 ∧ (s.file g).type = .none ∧ (s'.file g).ref = 0 ∧
          (s'.file g).type = .none) →
        wp Crit.partialC (FailSame s) (do iput x.ip; pure (-1)) s' := by
      intro s' hproc hiref hpipe F hfile hF
      refine ⟨trivial, fun _ => .of_closed F hproc ?_ hpipe hfile hF⟩
      show update s'.iref x.ip (s'.iref x.ip - 1) = s.iref
      rw [hiref]
      unfold Sys.setIref
      dsimp only
      rw [update_self, update_idem, Nat.add_sub_cancel, update_eq_self]
    unfold sysOpen iget
    rw [wp_bind, wp_update]
    refine ⟨trivial, ?_⟩
    split
    · exact hput _ rfl rfl rfl ∅ (fun _ _ => rfl) fun g hg => absurd hg (notMem_empty g)
    · rw [wp_bind]
      refine wp_filealloc ?_ ?_
      · exact hput _ rfl rfl rfl ∅ (fun _ _ => rfl) fun g hg => absurd hg (notMem_empty g)
      · intro f hf
        rw [wp_bind]
        refine wp_fdalloc ?_ ?_
        · rw [wp_bind]
          refine wp_fileclose_new ?_ ?_ ?_
          · rw [file_setFile, if_pos rfl]
          · rw [file_setFile, if_pos rfl]
            exact hclosed f hf
          · refine hput _ rfl rfl rfl {f} ?_ ?_
            · intro g hg
              rw [mem_singleton] at hg
              rw [file_setFile, if_neg hg, file_setFile, if_neg hg]
              rfl
            · intro g hg
              rw [mem_singleton] at hg
              rw [hg, file_setFile, if_pos rfl]
              exact ⟨hf, hclosed f hf, rfl, rfl⟩
        · intro fd _
          exact ⟨trivial, FailSame.ok fd.val⟩

theorem setProc_setProc (x y : Proc) : (s.setProc t x).setProc t y = s.setProc t y := by
  unfold Sys.setProc
  rw [update_idem]

/-- The descriptors of `t` are as before. -/
theorem ofile_back {o : Fin NOFILE → Option (Fin NFILE)} (ho : o = (s.proc t).ofile) :
    s.setProc t { s.proc t with ofile := o } = s := by
  rw [ho]
  unfold Sys.setProc
  rw [update_eq_self]

/-- Two files that were not open are closed again. -/
theorem Same.of_closed_two {u : Sys} {f0 f1 : Fin NFILE} {x y : File} (hne : f0 ≠ f1)
    (hnew : ∀ g, g = f0 ∨ g = f1 → (s.file g).ref = 0 ∧ (s.file g).type = .none)
    (hproc : u.proc = s.proc) (hiref : u.iref = s.iref) (hpipe : u.pipe = s.pipe)
    (hfile : ∀ g, g ∉ ({f0, f1} : Finset (Fin NFILE)) → s'.file g = s.file g)
    (hu : u.file = update (update s'.file f0 x) f1 y)
    (hx : x.ref = 0 ∧ x.type = .none) (hy : y.ref = 0 ∧ y.type = .none) : Same s u := by
  refine .of_closed {f0, f1} hproc hiref hpipe ?_ ?_
  · intro g hg
    rw [← hfile g hg, hu]
    rw [mem_insert, mem_singleton, not_or] at hg
    rw [update_of_ne hg.2, update_of_ne hg.1]
  · intro g hg
    rw [mem_insert, mem_singleton] at hg
    obtain ⟨href, htype⟩ := hnew g hg
    refine ⟨href, htype, ?_⟩
    rw [hu]
    rcases hg with rfl | rfl
    · rw [update_of_ne hne, update_self]
      exact hx
    · rw [update_self]
      exact hy

/-- The two ends of a new pipe are closed. -/
theorem wp_close_ends {pg : Nat} {f0 f1 : Fin NFILE} (hne : f0 ≠ f1)
    (hnew : ∀ g, g = f0 ∨ g = f1 → (s.file g).ref = 0 ∧ (s.file g).type = .none)
    (hpg : s.pipe pg = none) (hproc : s'.proc = s.proc) (hiref : s'.iref = s.iref)
    (hpipe : s'.pipe = update s.pipe pg (some ⟨true, true⟩))
    (hfile : ∀ g, g ∉ ({f0, f1} : Finset (Fin NFILE)) → s'.file g = s.file g)
    (h0 : ∃ x : File, s'.file f0 = x.pipeEnd pg false ∧ x.ref = 1)
    (h1 : ∃ x : File, s'.file f1 = x.pipeEnd pg true ∧ x.ref = 1) :
    wp Crit.partialC (FailSame s) (do fileclose f0; fileclose f1; pure (-1)) s' := by
  obtain ⟨x0, hx0, href0⟩ := h0
  obtain ⟨x1, hx1, href1⟩ := h1
  rw [wp_bind]
  refine wp_fileclose_pipe ⟨true, true⟩ ?_ ?_ ?_ ?_
  · rw [hx0]
    exact href0
  · rw [hx0]
    rfl
  · rw [hx0, hpipe]
    exact update_self _ _ _
  · rw [hx0, wp_bind]
    refine wp_fileclose_pipe ⟨false, true⟩ ?_ ?_ ?_ ?_
    · show (update s'.file f0 _ f1).ref = 1
      rw [update_of_ne hne.symm, hx1]
      exact href1
    · show (update s'.file f0 _ f1).type = .pipe
      rw [update_of_ne hne.symm, hx1]
      rfl
    · show update s'.pipe pg _ (update s'.file f0 _ f1).pipe = _
      rw [update_of_ne hne.symm, hx1]
      exact update_self _ _ _
    · intro _
      refine Same.of_closed_two hne hnew hproc hiref ?_ hfile rfl ⟨rfl, rfl⟩ ⟨rfl, rfl⟩
      · show update (update s'.pipe pg _) (update s'.file f0 _ f1).pipe
          (if ((Pipe.mk false true).shut (update s'.file f0 _ f1).writable).readopen = false ∧
            ((Pipe.mk false true).shut (update s'.file f0 _ f1).writable).writeopen = false
          then none else _) = s.pipe
        rw [update_of_ne hne.symm, hx1, hpipe]
        show update (update (update s.pipe pg _) pg _) pg none = s.pipe
        rw [update_idem, update_idem, ← hpg, update_eq_self]

theorem sysPipe_fail (hclosed : ∀ f, (s.file f).ref = 0 → (s.file f).type = .none)
    (page : Option Nat) (copied : Bool) :
    wp Crit.partialC (FailSame s) (sysPipe t page copied) s := by
  unfold sysPipe pipealloc
  rw [wp_bind, wp_bind]
  refine wp_filealloc (fun _ => .refl s) ?_
  intro f0 hf0
  rw [wp_bind]
  have htype0 := hclosed f0 hf0
  have hfile0 : (s.setFile f0 { s.file f0 with ref := 1 }).file f0 = { s.file f0 with ref := 1 } := by
    rw [file_setFile, if_pos rfl]
  refine wp_filealloc ?_ ?_
  · -- no second file
    rw [wp_bind]
    refine wp_fileclose_new (by rw [hfile0]) (by rw [hfile0]; exact htype0) fun _ => ?_
    refine .of_closed {f0} rfl rfl rfl ?_ ?_
    · intro g hg
      rw [mem_singleton] at hg
      rw [file_setFile, if_neg hg, file_setFile, if_neg hg]
    · intro g hg
      rw [mem_singleton] at hg
      rw [hg, file_setFile, if_pos rfl]
      exact ⟨hf0, htype0, rfl, rfl⟩
  · intro f1 hf1
    have hne : f0 ≠ f1 := by
      rintro rfl
      rw [hfile0] at hf1
      cases hf1
    rw [file_setFile, if_neg hne.symm] at hf1 ⊢
    have htype1 := hclosed f1 hf1
    have hnew : ∀ g, g = f0 ∨ g = f1 → (s.file g).ref = 0 ∧ (s.file g).type = .none := by
      rintro g (rfl | rfl)
      · exact ⟨hf0, htype0⟩
      · exact ⟨hf1, htype1⟩
    cases page with
    | none =>
      -- no page: both files are closed
      rw [wp_bind]
      refine wp_fileclose_new ?_ ?_ ?_
      · rw [file_setFile, if_neg hne, hfile0]
      · rw [file_setFile, if_neg hne, hfile0]
        exact htype0
      · rw [wp_bind]
        refine wp_fileclose_new ?_ ?_ fun _ => ?_
        · rw [file_setFile, if_neg hne.symm, file_setFile, if_pos rfl]
        · rw [file_setFile, if_neg hne.symm, file_setFile, if_pos rfl]
          exact htype1
        · refine .of_closed_two hne hnew rfl rfl rfl ?_ rfl ⟨rfl, rfl⟩ ⟨rfl, rfl⟩
          intro g hg
          rw [mem_insert, mem_singleton, not_or] at hg
          simp only [file_setFile, if_neg hg.1, if_neg hg.2]
    | some pg =>
      rw [wp_bind, wp_atomic]
      unfold initPipe
      by_cases hpg : s.pipe pg = none
      · have hpg' : ((s.setFile f0 { s.file f0 with ref := 1 }).setFile f1
            { s.file f1 with ref := 1 }).pipe pg = none := hpg
        rw [if_pos hpg']
        refine ⟨trivial, ?_⟩
        rw [wp_pure]
        -- the state with the new pipe, for any descriptors
        generalize hs3 : ((((s.setFile f0 { s.file f0 with ref := 1 }).setFile f1
          { s.file f1 with ref := 1 }).setPipe pg (some ⟨true, true⟩)).setFile f0
          (File.pipeEnd _ pg false)).setFile f1 (File.pipeEnd _ pg true) = s3
        have hends : wp Crit.partialC (FailSame s) (do fileclose f0; fileclose f1; pure (-1)) s3 := by
          subst hs3
          refine wp_close_ends hne hnew hpg rfl rfl rfl ?_ ?_ ?_
          · intro g hg
            rw [mem_insert, mem_singleton, not_or] at hg
            simp only [file_setFile, if_neg hg.1, if_neg hg.2]
            show ((s.setFile f0 _).setFile f1 _).file g = s.file g
            simp only [file_setFile, if_neg hg.1, if_neg hg.2]
          · rw [file_setFile, if_neg hne, file_setFile, if_pos rfl]
            refine ⟨_, rfl, ?_⟩
            rw [file_setFile, if_neg hne, file_setFile, if_pos rfl]
          · rw [file_setFile, if_pos rfl]
            refine ⟨_, rfl, ?_⟩
            rw [file_setFile, if_pos rfl]
        rw [wp_bind]
        refine wp_fdalloc hends ?_
        intro fd0 hfd0
        rw [wp_bind]
        refine wp_fdalloc ?_ ?_
        · refine ⟨trivial, ?_⟩
          simp only [proc_setProc, if_true, setProc_setProc, update_idem]
          rw [ofile_back]
          · exact hends
          · rw [← hfd0, update_eq_self]
        · intro fd1 hfd1
          cases copied with
          | true => exact FailSame.ok 0
          | false =>
            rw [proc_setProc, if_pos rfl] at hfd1
            dsimp only
            rw [if_neg Bool.false_ne_true]
            refine ⟨trivial, ?_⟩
            refine ⟨trivial, ?_⟩
            simp only [proc_setProc, if_true, setProc_setProc]
            rw [ofile_back]
            · exact hends
            · funext fd
              simp only [update_apply] at hfd1 ⊢
              split_ifs at hfd1 ⊢ <;> simp_all
      · have hpg' : ((s.setFile f0 { s.file f0 with ref := 1 }).setFile f1
            { s.file f1 with ref := 1 }).pipe pg ≠ none := hpg
        rw [if_neg hpg']
        trivial

end fail

/-- The calls that make descriptors. -/
def Call.opens : Call → Bool
  | .open _ _ => true
  | .dup _ => true
  | .pipe _ _ => true
  | _ => false

theorem opens_fail {s : Sys} (t : Fin NPROC) (x : Call) (hx : x.opens = true)
    (hclosed : ∀ f, (s.file f).ref = 0 → (s.file f).type = .none) :
    wp Crit.partialC (FailSame s) (x.prog t) s := by
  cases x with
  | «open» omode found => exact sysOpen_fail hclosed omode found
  | dup fd => exact sysDup_fail fd
  | pipe page copied => exact sysPipe_fail hclosed page copied
  | fork | close | exit | exec | wait => cases hx

/-! ## Runs -/

section runs

variable {c c₁ c₂ : Conf (Fin NPROC) Panic Sys Int}

/-- At a boundary each process owns what it has in its tables. -/
theorem tokensOf_boundary (hinv : Inv O c.shared)
    (hwp : ∀ u, logic.wp u (fun _ => logic.Idle) (c.todo u) (O u))
    (hres : ∀ t, (c.result t).isSome = true) (p : Fin NPROC) :
    tokensOf O c.shared p = (c.shared.proc p).tokens := by
  obtain ⟨a, ha⟩ := Option.isSome_iff_exists.mp (hres p)
  have hidle := hwp p
  rw [Conf.todo_of_result ha] at hidle
  unfold tokensOf
  cases hO : O p with
  | none => rfl
  | some r =>
    rw [(hinv.procs.live p r hO).1, (hidle r hO).eq]
    exact Held.idle_tokens _

theorem Safe.counted (h : logic.Safe (fun _ _ => logic.Idle) c)
    (hres : ∀ t, (c.result t).isSome = true) : Counted c.shared := by
  obtain ⟨O, hinv, hwp⟩ := h
  exact hinv.table.counted (tokensOf_boundary hinv hwp hres)

variable {acts : List (Act (Fin NPROC) Call)}

/-- A call that fails, whatever the others do meanwhile, leaves its caller as it was. -/
theorem Safe.failed_proc (h : logic.Safe (fun _ _ => logic.Idle) c) {t : Fin NPROC} {x : Call}
    (hx : x ≠ .exit) (hcall : c.step machine (.call t x) = some c₁)
    (hrun : c₁.run machine acts = some c₂) (hother : ∀ y, Act.call t y ∉ acts)
    (hres : c₂.result t = some (-1)) : c₂.shared.proc t = c.shared.proc t := by
  have h₁ : logic.Safe (update (fun _ _ => logic.Idle) t (Kept (c.shared.proc t))) c₁ := by
    refine h.call ?_ hcall
    intro _ O _ hinv hready hidle
    cases hO : O t with
    | none => exact absurd (of_decide_eq_true hready) (hinv.procs.dead t hO)
    | some r =>
      have hr := hidle r hO
      rw [(hinv.procs.live t r hO).1, hr.eq]
      exact call_kept x hx hr.cwd
  have h₂ := h₁.run verifies ?_ ?_ hrun
  · obtain ⟨O, hinv, hwp⟩ := h₂
    have ht := hwp t
    rw [Conf.todo_of_result hres, update_self] at ht
    obtain ⟨y, hy, _, hsame⟩ := ht
    rw [(hinv.procs.live t _ hy).1]
    exact hsame rfl
  · intro u a y hnone hidle
    by_cases hu : u = t
    · rw [hu, update_self] at hnone
      obtain ⟨_, hsome, _⟩ := hnone
      cases hsome
    · rw [update_of_ne hu]
      intro z hz
      cases hz
      exact hidle
  · intro u y hy
    have hu : u ≠ t := by
      rintro rfl
      exact hother y hy
    exact update_of_ne hu _ _

/-- A call that fails and runs alone changes nothing. -/
theorem failed_same {t : Fin NPROC} {x : Call} (hx : x.opens = true)
    (hclosed : ∀ f, (c.shared.file f).ref = 0 → (c.shared.file f).type = .none)
    (hcall : c.step machine (.call t x) = some c₁) (hrun : c₁.run machine acts = some c₂)
    (halone : ∀ a ∈ acts, a = .step t) (hres : c₂.result t = some (-1)) :
    Same c.shared c₂.shared := by
  simp only [Conf.step] at hcall
  split at hcall
  · split at hcall
    · cases hcall
      have hprog := Conf.run_alone halone hrun hres
      dsimp only at hprog
      rw [update_self] at hprog
      exact wp_run_done (opens_fail t x hx hclosed) hprog rfl
    · cases hcall
  · cases hcall

end runs

/-- In every run of the calls that make and drop references, whatever the interleaving and whatever is
full: `filedup` and `fileclose` never panic; a free entry has no type; while no process is in a call all
counts are exact; and a call that could not make a descriptor leaves its caller's descriptors as they
were, and all counts if no other process ran meanwhile. -/
theorem open_file_refs (root : Nat) (acts : List (Act (Fin NPROC) Call))
    (c : Conf (Fin NPROC) Panic Sys Int) (hrun : (boot root).run machine acts = some c) :
    (∀ t, c.panics t = none ∨ c.panics t = some .initExiting) ∧
    (∀ f, (c.shared.file f).ref = 0 → (c.shared.file f).type = .none) ∧
    ((∀ t, (c.result t).isSome = true) → Counted c.shared) ∧
    ∀ t x acts' c₁ c₂, x.opens = true → c.step machine (.call t x) = some c₁ →
      c₁.run machine acts' = some c₂ → (∀ y, Act.call t y ∉ acts') → c₂.result t = some (-1) →
      (c₂.shared.proc t).ofile = (c.shared.proc t).ofile ∧
      ((∀ a ∈ acts', a = .step t) → Same c.shared c₂.shared) := by
  have hsafe := Logic.safe_of_run verifies (boot_safe root) hrun
  have hclosed : ∀ f, (c.shared.file f).ref = 0 → (c.shared.file f).type = .none := by
    obtain ⟨O, hinv, _⟩ := hsafe
    exact hinv.table.closed
  refine ⟨?_, hclosed, Safe.counted hsafe, ?_⟩
  · intro t
    cases hm : c.panics t with
    | none => exact .inl rfl
    | some m => exact .inr (congrArg some (hsafe.panics hm))
  · intro t x acts' c₁ c₂ hx hcall hrun' hother hres
    have hexit : x ≠ .exit := by
      rintro rfl
      cases hx
    refine ⟨?_, fun halone => failed_same hx hclosed hcall hrun' halone hres⟩
    rw [Safe.failed_proc hsafe hexit hcall hrun' hother hres]

/-- A process makes a pipe, and then no process is in a call. -/
theorem open_file_refs_pipe : ∃ c, (boot 1).run machine
      (.call 0 (.pipe (some 5) true) :: List.replicate 5 (.step 0)) = some c ∧
    (∀ t, (c.result t).isSome = true) ∧ Counted c.shared := by
  have hrun : ((boot 1).run machine
      (.call 0 (.pipe (some 5) true) :: List.replicate 5 (.step 0))).any
        (fun c => ∀ t, (c.result t).isSome = true) = true := by
    decide +kernel
  obtain ⟨c, hc, hdec⟩ := (Option.any_eq_true _ _).mp hrun
  have hres := of_decide_eq_true hdec
  exact ⟨c, hc, hres, (open_file_refs 1 _ c hc).2.2.1 hres⟩

end Xv6.Ftable
