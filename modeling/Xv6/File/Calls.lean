/-
  The calls keep the ownership of references.

  There is one theorem for each call; `call_kept` puts them together: every call but `exit` ends with the
  process between calls again, and if it failed the process has the descriptors that it had.  `exit` ends
  the process with nothing left (`kexit_spec`).  `verifies` is the form that runs need.
-/
import Xv6.File.Procs

namespace Xv6.Ftable

open Lib Finset Function List
open Lib.Prog hiding update

/-! ## Between calls -/

variable {r : Held}

theorem Held.Idle.eq (h : r.Idle) : r = .idle r.self := by
  obtain ⟨hown, hownCwd, hhand, hfresh, hchild, _⟩ := h
  unfold idle
  rw [← hown, ← hownCwd, ← hhand, ← hfresh, ← hchild]

theorem Held.idle_tokens (x : Proc) : (Held.idle x).tokens = x.tokens := add_zero _

/-- The process is between calls again, and if the call failed it has what it had. -/
def Kept (x : Proc) (a : Int) (r : Option Held) : Prop :=
  ∃ y, r = some (.idle y) ∧ y.cwd ≠ none ∧ (a = -1 → y = x)

theorem Kept.idle {x : Proc} {a : Int} {r : Option Held} (h : Kept x a r) : logic.Idle r := by
  obtain ⟨y, rfl, hcwd, _⟩ := h
  intro r hr
  cases hr
  exact ⟨rfl, rfl, rfl, rfl, rfl, hcwd⟩

/-- A descriptor and its reference. -/
def Proc.setOfile (x : Proc) (fd : Fin NOFILE) (f : Option (Fin NFILE)) : Proc :=
  { x with ofile := update x.ofile fd f }

section calls

variable {t : Fin NPROC} {x : Proc} {fd : Fin NOFILE} {f : Fin NFILE}
variable {o : Fin NOFILE → Option (Fin NFILE)}

theorem ofileTokens_set (f : Fin NFILE) (h : o fd = none) :
    ofileTokens (update o fd (some f)) = {.file f} + ofileTokens o := by
  have hslot := ofileTokens_update o fd (some f)
  have hzero : slotTokens none = 0 := rfl
  rw [h, hzero, add_zero] at hslot
  rw [hslot, add_comm]
  rfl

theorem ofileTokens_clear (h : o fd = some f) :
    {.file f} + ofileTokens (update o fd none) = ofileTokens o := by
  have hset := ofileTokens_set f (update_self fd none o)
  rw [update_idem, ← h, update_eq_self] at hset
  exact hset.symm

theorem Held.take_comm (r : Held) (M N : Multiset Token) : (r.take M).take N = (r.take N).take M := by
  unfold take
  rw [add_left_comm]

theorem shift_refl : logic.Shift t r r := shift_of_tokens rfl rfl rfl rfl

/-- The process gives a descriptor the reference that it has in hand. -/
theorem shift_set (h : r.own fd = none) : logic.Shift t (r.take {.file f})
    { r with own := update r.own fd (some f) } := by
  refine shift_of_tokens rfl rfl rfl ?_
  rw [Held.tokens_take]
  unfold Held.tokens
  rw [ofileTokens_set f h]
  abel

/-- The process takes the reference of a descriptor in hand. -/
theorem shift_clear (h : r.own fd = some f) : logic.Shift t r
    (Held.take { r with own := update r.own fd none } {.file f}) := by
  refine shift_of_tokens rfl rfl rfl ?_
  rw [Held.tokens_take]
  unfold Held.tokens
  rw [← ofileTokens_clear h]
  abel

theorem argfd_spec {fd : Int} {Q : Option (Fin NOFILE × Fin NFILE) → Option Held → Prop}
    (hnone : Q none (some r))
    (hsome : ∀ fd f, r.self.ofile fd = some f → Q (some (fd, f)) (some r)) :
    logic.wp t Q (argfd t fd) (some r) := by
  refine look_spec (a := if h : 0 ≤ fd ∧ fd < NOFILE then
    (r.self.ofile ⟨fd.toNat, (Int.toNat_lt h.1).mpr h.2⟩).map fun f =>
      ((⟨fd.toNat, (Int.toNat_lt h.1).mpr h.2⟩ : Fin NOFILE), f) else none) ?_ ?_
  · intro O s hO hinv
    rw [hinv.proc_self hO]
  · split
    · rename_i hfd
      cases hf : r.self.ofile ⟨fd.toNat, (Int.toNat_lt hfd.1).mpr hfd.2⟩ with
      | none => exact hnone
      | some f => exact hsome _ f hf
    · exact hnone

/-- A descriptor is not the result of a failure. -/
theorem Kept.ok {y : Proc} (hcwd : y.cwd ≠ none) (n : Nat) : Kept x n (some (.idle y)) := by
  refine ⟨y, rfl, hcwd, ?_⟩
  intro hfail
  omega

theorem Kept.fail {a : Int} (hcwd : x.cwd ≠ none) : Kept x a (some (.idle x)) :=
  ⟨x, rfl, hcwd, fun _ => rfl⟩

/-! ## `dup` and `close` -/

theorem sysDup_spec (fd : Int) (hcwd : x.cwd ≠ none) :
    logic.wp t (Kept x) (sysDup t fd) (some (.idle x)) := by
  refine Logic.wp_bind (argfd_spec (.fail hcwd) ?_)
  intro fd f hf
  refine Logic.wp_bind (fdalloc_spec (.fail hcwd) ?_)
  intro fd' hfd'
  refine Logic.wp_bind (Logic.wp_shift_after rfl (filedup_spec ?_ ?_ ?_))
  · exact mem_tokens_of_own hf
  · exact not_mem_nil
  · exact ⟨_, _, rfl, shift_set hfd',
      .ok (y := x.setOfile fd' (some f)) hcwd _⟩

variable {Q : Unit → Option Held → Prop}

/-- The descriptor is cleared, and its reference comes into the hand. -/
theorem clear_spec {M : Multiset Token} (hf : x.ofile fd = some f)
    (hQ : Q () (some (((Held.idle (x.setOfile fd none)).take M).take {.file f}))) :
    logic.wp t Q (setOfile t fd none) (some ((Held.idle x).take M)) :=
  Logic.wp_shift rfl (shift_clear (r := (Held.idle x).take M) hf) (setOfile_spec hQ)

theorem sysClose_spec (fd : Int) (hcwd : x.cwd ≠ none) :
    logic.wp t (Kept x) (sysClose t fd) (some (.idle x)) := by
  refine Logic.wp_bind (argfd_spec (.fail hcwd) ?_)
  intro fd f hf
  rw [← Held.take_zero (Held.idle x)]
  refine Logic.wp_bind (clear_spec hf ?_)
  exact Logic.wp_bind (fileclose_spec (.ok (y := x.setOfile fd none) hcwd 0))

/-! ## `open` -/

theorem sysOpen_spec (omode : Nat) (found : Option Found) (hcwd : x.cwd ≠ none) :
    logic.wp t (Kept x) (sysOpen t omode found) (some (.idle x)) := by
  cases found with
  | none => exact Kept.fail hcwd
  | some y =>
    -- whatever fails, the inode is put back
    have hfail : logic.wp t (fun _ => Kept x (-1)) (iput y.ip)
        (some ((Held.idle x).take {.inode y.ip})) := iput_spec (.fail hcwd)
    refine Logic.wp_bind (iget_spec ?_)
    split
    · exact Logic.wp_bind hfail
    · refine Logic.wp_bind (filealloc_spec (Logic.wp_bind hfail) ?_)
      intro f _
      have hclose : logic.wp t (fun _ => logic.wp t (fun _ => Kept x (-1)) (iput y.ip)) (fileclose f)
          (some ((((Held.idle x).take {.inode y.ip}).addFresh f).take {.file f})) := by
        refine fileclose_spec ?_
        rw [Held.unfresh_addFresh]
        exact hfail
      refine Logic.wp_bind (Logic.wp_shift_after rfl (fdalloc_spec ?_ ?_))
      · refine ⟨_, _, rfl, shift_refl, ?_⟩
        exact Logic.wp_bind (Logic.wp_mono hclose fun _ _ h => Logic.wp_bind h)
      · intro fd hfd
        -- the descriptor takes the reference to the file, and the file that to the inode
        refine ⟨_, _, rfl, shift_set (r := (((Held.idle x).take {.inode y.ip}).addFresh f).setOfile
          fd (some f)) hfd, ?_⟩
        refine Logic.wp_bind (fillFile_spec (r := (Held.idle (x.setOfile fd (some f))).addFresh f)
          mem_cons_self ?_)
        rw [Held.unfresh_addFresh]
        exact .ok (y := x.setOfile fd (some f)) hcwd _

/-! ## `pipe` -/

theorem pipealloc_spec {page : Option Nat} {Q : Option (Fin NFILE × Fin NFILE) → Option Held → Prop}
    (hr : r.fresh = []) (hnone : Q none (some r))
    (hsome : ∀ f0 f1, Q (some (f0, f1)) (some ((r.take {.file f0}).take {.file f1}))) :
    logic.wp t Q (pipealloc page) (some r) := by
  refine Logic.wp_bind (filealloc_spec hnone ?_)
  intro f0 h0
  have hunfresh0 : (r.addFresh f0).unfresh f0 = r := by
    rw [Held.unfresh_addFresh, Held.unfresh_of_not_mem h0]
  refine Logic.wp_bind (filealloc_spec ?_ ?_)
  · refine Logic.wp_bind (fileclose_spec ?_)
    rw [hunfresh0]
    exact hnone
  · intro f1 h1
    have hne : f0 ≠ f1 := by
      rintro rfl
      exact h1 mem_cons_self
    cases page with
    | none =>
      -- both are closed again
      have hcomm : (((r.addFresh f0).take {.file f0}).addFresh f1).take {.file f1} =
          ((((r.addFresh f0).addFresh f1).take {.file f1}).take {.file f0}) :=
        Held.take_comm ((r.addFresh f0).addFresh f1) {Token.file f0} {Token.file f1}
      rw [hcomm]
      refine Logic.wp_bind (fileclose_spec (Logic.wp_bind ?_))
      refine fileclose_spec (r := ((r.addFresh f0).addFresh f1).unfresh f0) ?_
      have hboth : (((r.addFresh f0).addFresh f1).unfresh f0).unfresh f1 = r := by
        unfold Held.unfresh Held.addFresh
        rw [hr]
        have hfilter : (([f1, f0].filter fun g => g ≠ f0).filter fun g => g ≠ f1) = [] := by
          simp [hne.symm]
        rw [hfilter, ← hr]
      rw [hboth]
      exact hnone
    | some pg =>
      refine Logic.wp_bind (initPipe_spec ?_ ?_ hne ?_)
      · exact mem_cons_of_mem _ mem_cons_self
      · exact mem_cons_self
      · have hboth : (((((r.addFresh f0).take {.file f0}).addFresh f1).take {.file f1}).unfresh
            f0).unfresh f1 = (r.take {.file f0}).take {.file f1} := by
          unfold Held.unfresh Held.addFresh Held.take
          rw [hr]
          have hfilter : (([f1, f0].filter fun g => g ≠ f0).filter fun g => g ≠ f1) = [] := by
            simp [hne.symm]
          rw [hfilter]
        rw [hboth]
        exact hsome f0 f1

/-- A new descriptor for a file in hand. -/
theorem fdalloc_give_spec {Q : Option (Fin NOFILE) → Option Held → Prop}
    (hown : r.own = r.self.ofile) (hnone : Q none (some (r.take {.file f})))
    (hsome : ∀ fd, r.self.ofile fd = none → Q (some fd) (some { r.setOfile fd (some f) with
      own := update r.own fd (some f) })) :
    logic.wp t Q (fdalloc t f) (some (r.take {.file f})) := by
  refine Logic.wp_shift_after rfl (fdalloc_spec ⟨_, _, rfl, shift_refl, hnone⟩ ?_)
  intro fd hfd
  refine ⟨_, _, rfl, shift_set (r := r.setOfile fd (some f)) ?_, hsome fd hfd⟩
  exact (congrFun hown fd).trans hfd

/-- Both ends are closed. -/
theorem close_both_spec {rf wf : Fin NFILE} (hcwd : x.cwd ≠ none) :
    logic.wp t (Kept x) (do fileclose rf; fileclose wf; pure (-1))
      (some (((Held.idle x).take {.file rf}).take {.file wf})) := by
  rw [Held.take_comm]
  refine Logic.wp_bind (fileclose_spec ?_)
  refine Logic.wp_bind (fileclose_spec (r := Held.idle x) ?_)
  exact Kept.fail hcwd

theorem Proc.ofile_setOfile (x : Proc) (fd fd' : Fin NOFILE) (o : Option (Fin NFILE)) :
    (x.setOfile fd o).ofile fd' = if fd' = fd then o else x.ofile fd' :=
  update_apply x.ofile fd o fd'

/-- Clearing a new descriptor gives back what was there. -/
theorem Proc.setOfile_clear (h : x.ofile fd = none) (o : Option (Fin NFILE)) :
    (x.setOfile fd o).setOfile fd none = x := by
  unfold setOfile
  rw [update_idem, ← h, update_eq_self]

theorem Proc.setOfile_comm {fd' : Fin NOFILE} (h : fd ≠ fd') (o o' : Option (Fin NFILE)) :
    (x.setOfile fd o).setOfile fd' o' = (x.setOfile fd' o').setOfile fd o := by
  unfold setOfile
  rw [update_comm h]

theorem sysPipe_spec (page : Option Nat) (copied : Bool) (hcwd : x.cwd ≠ none) :
    logic.wp t (Kept x) (sysPipe t page copied) (some (.idle x)) := by
  refine Logic.wp_bind (pipealloc_spec rfl (.fail hcwd) ?_)
  intro rf wf
  rw [Held.take_comm]
  refine Logic.wp_bind (fdalloc_give_spec rfl ?_ ?_)
  · rw [Held.take_comm]
    exact close_both_spec hcwd
  · intro fd0 h0
    have h0 : x.ofile fd0 = none := h0
    refine Logic.wp_bind (fdalloc_give_spec (r := Held.idle (x.setOfile fd0 (some rf))) rfl ?_ ?_)
    · -- no second descriptor: the first is cleared
      refine Logic.wp_bind (clear_spec (by rw [Proc.ofile_setOfile, if_pos rfl]) ?_)
      rw [Proc.setOfile_clear h0, Held.take_comm]
      exact close_both_spec hcwd
    · intro fd1 h1
      have h1 : (x.setOfile fd0 (some rf)).ofile fd1 = none := h1
      rw [Proc.ofile_setOfile] at h1
      have hne : fd1 ≠ fd0 := by
        intro heq
        rw [if_pos heq] at h1
        cases h1
      rw [if_neg hne] at h1
      cases copied with
      | true =>
        exact .ok (y := (x.setOfile fd0 (some rf)).setOfile fd1 (some wf)) hcwd 0
      | false =>
        -- both are cleared
        have hx : ((((x.setOfile fd0 (some rf)).setOfile fd1 (some wf)).setOfile fd0 none).setOfile
            fd1 none) = x := by
          rw [Proc.setOfile_comm hne (some wf) none, Proc.setOfile_clear h0, Proc.setOfile_clear h1]
        have hrf : ((x.setOfile fd0 (some rf)).setOfile fd1 (some wf)).ofile fd0 = some rf := by
          rw [Proc.ofile_setOfile, if_neg hne.symm, Proc.ofile_setOfile, if_pos rfl]
        have hwf : (((x.setOfile fd0 (some rf)).setOfile fd1 (some wf)).setOfile fd0 none).ofile
            fd1 = some wf := by
          rw [Proc.ofile_setOfile, if_neg hne, Proc.ofile_setOfile, if_pos rfl]
        show logic.wp t (Kept x) _ (some (Held.idle ((x.setOfile fd0 (some rf)).setOfile fd1 (some wf))))
        rw [← Held.take_zero (Held.idle ((x.setOfile fd0 (some rf)).setOfile fd1 (some wf)))]
        refine Logic.wp_bind (clear_spec hrf ?_)
        rw [Held.take_zero]
        refine Logic.wp_bind (clear_spec hwf ?_)
        rw [hx]
        exact close_both_spec hcwd

/-! ## `fork` -/

/-- The loop over the descriptors: those still to come are not set in the child. -/
theorem dupOfiles_spec {np : Fin NPROC}
    (hQ : ∀ o, Q () (some { Held.idle x with child := some (np, ⟨.used, o, none⟩) })) :
    logic.wp t Q (each (finRange NOFILE) (dupOfile t np))
      (some { Held.idle x with child := some (np, ⟨.used, fun _ => none, none⟩) }) := by
  refine Logic.wp_mono (Logic.wp_each (J := fun fds r => fds.Nodup ∧ ∃ o,
    r = some { Held.idle x with child := some (np, ⟨.used, o, none⟩) } ∧ ∀ fd ∈ fds, o fd = none)
    (finRange NOFILE) ?_ ?_) ?_
  · exact ⟨nodup_finRange NOFILE, fun _ => none, rfl, fun _ _ => rfl⟩
  · rintro fd fds _ ⟨hnodup, o, rfl, ho⟩
    obtain ⟨hnot, hnodup⟩ := nodup_cons.mp hnodup
    have hrest : ∀ fd' ∈ fds, o fd' = none := fun fd' h => ho fd' (mem_cons_of_mem fd h)
    refine Logic.wp_bind (look_spec (a := x.ofile fd) ?_ ?_)
    · intro O s hO hinv
      rw [hinv.proc_self hO]
      rfl
    · cases hf : x.ofile fd with
      | none => exact ⟨hnodup, o, rfl, hrest⟩
      | some f =>
        refine Logic.wp_bind (filedup_spec ?_ not_mem_nil ?_)
        · exact mem_tokens_of_own hf
        · refine setOfile_child_spec rfl rfl rfl (ho fd mem_cons_self) ?_
          refine ⟨hnodup, update o fd (some f), rfl, ?_⟩
          intro fd' hfd'
          have hne : fd' ≠ fd := by
            rintro rfl
            exact hnot hfd'
          rw [update_of_ne hne]
          exact hrest fd' hfd'
  · rintro _ _ ⟨_, o, rfl, _⟩
    exact hQ o

theorem cwd_spec {ip : Nat} {Q : Nat → Option Held → Prop} (hcwd : r.self.cwd = some ip)
    (hQ : Q ip (some r)) : logic.wp t Q (cwd t) (some r) := by
  refine Logic.wp_atomic fun O s hO hinv => ?_
  rw [hinv.proc_self hO, hcwd]
  exact ⟨r, hinv.same hO, hQ⟩

theorem kfork_spec (child : Option (Fin NPROC)) (copied : Bool) (pid : Nat) (hcwd : x.cwd ≠ none) :
    logic.wp t (Kept x) (kfork t child copied pid) (some (.idle x)) := by
  cases child with
  | none => exact Kept.fail hcwd
  | some np =>
    obtain ⟨ip, hip⟩ := Option.ne_none_iff_exists'.mp hcwd
    refine Logic.wp_bind (claim_unused_spec rfl ?_)
    cases copied with
    | false =>
      refine Logic.wp_bind (free_child_spec rfl rfl rfl rfl ?_)
      exact Kept.fail hcwd
    | true =>
      refine Logic.wp_bind (dupOfiles_spec ?_)
      intro o
      refine Logic.wp_bind (cwd_spec hip ?_)
      refine Logic.wp_bind (iget_spec ?_)
      refine Logic.wp_bind (setCwd_child_spec rfl rfl rfl rfl ?_)
      refine Logic.wp_bind (spawn_spec rfl rfl nofun ?_)
      exact .ok hcwd pid

/-! ## `exit`, `wait` and `exec` -/

/-- The loop over the descriptors: those already passed are closed. -/
theorem closeOfiles_spec
    (hQ : Q () (some (.idle { x with ofile := fun _ => none }))) :
    logic.wp t Q (each (finRange NOFILE) (closeOfile t)) (some (.idle x)) := by
  refine Logic.wp_mono (Logic.wp_each (J := fun fds r => ∃ o,
    r = some (.idle { x with ofile := o }) ∧ ∀ fd, fd ∉ fds → o fd = none)
    (finRange NOFILE) ?_ ?_) ?_
  · exact ⟨x.ofile, rfl, fun fd hfd => absurd (mem_finRange fd) hfd⟩
  · rintro fd fds _ ⟨o, rfl, ho⟩
    refine Logic.wp_bind (look_spec (a := o fd) ?_ ?_)
    · intro O s hO hinv
      rw [hinv.proc_self hO]
      rfl
    · cases hf : o fd with
      | none =>
        refine ⟨o, rfl, ?_⟩
        intro fd' hfd'
        by_cases heq : fd' = fd
        · rw [heq, hf]
        · exact ho fd' fun hmem => (mem_cons.mp hmem).elim heq hfd'
      | some f =>
        -- the reference goes before the descriptor
        refine Logic.wp_bind (Logic.wp_shift rfl (shift_clear hf) ?_)
        refine fileclose_spec (setOfile_spec ?_)
        refine ⟨update o fd none, rfl, ?_⟩
        intro fd' hfd'
        by_cases heq : fd' = fd
        · rw [heq, update_self]
        · rw [update_of_ne heq]
          exact ho fd' fun hmem => (mem_cons.mp hmem).elim heq hfd'
  · rintro _ _ ⟨o, rfl, ho⟩
    have hnone : o = fun _ => none := funext fun fd => ho fd not_mem_nil
    rw [hnone]
    exact hQ

theorem exitProc_spec (hcwd : x.cwd ≠ none) :
    logic.wp t (fun _ => logic.Idle) (exitProc t) (some (.idle x)) := by
  obtain ⟨ip, hip⟩ := Option.ne_none_iff_exists'.mp hcwd
  refine Logic.wp_bind (closeOfiles_spec ?_)
  refine Logic.wp_bind (cwd_spec hip ?_)
  have hshift : logic.Shift t (Held.idle { x with ofile := fun _ => none })
      (Held.take { Held.idle { x with ofile := fun _ => none } with ownCwd := none }
        {.inode ip}) := by
    refine shift_of_tokens rfl rfl rfl ?_
    unfold Held.tokens Held.idle
    rw [hip]
    rfl
  refine Logic.wp_bind (Logic.wp_shift rfl hshift ?_)
  refine iput_spec (Logic.wp_bind (setCwd_spec ?_))
  refine Logic.wp_bind (zombie_spec rfl rfl ?_ ?_)
  · exact ofileTokens_none
  · intro r hr
    cases hr

theorem kexit_spec (hcwd : x.cwd ≠ none) :
    logic.wp t (fun _ => logic.Idle) (kexit t) (some (.idle x)) := by
  refine Logic.wp_bind (Logic.wp_atomic fun O s hO hinv => ⟨_, hinv.same hO, ?_⟩)
  split
  · exact Logic.wp_atomic fun _ _ _ _ => rfl
  · exact exitProc_spec hcwd

theorem kwait_spec (zombie : Option (Fin NPROC)) (hcwd : x.cwd ≠ none) :
    logic.wp t (Kept x) (kwait zombie) (some (.idle x)) := by
  cases zombie with
  | none => exact Kept.fail hcwd
  | some np => exact Logic.wp_bind (claim_zombie_spec rfl rfl (Kept.fail hcwd))

theorem kexec_spec (found : Option Nat) (ok : Bool) (hcwd : x.cwd ≠ none) :
    logic.wp t (Kept x) (kexec found ok) (some (.idle x)) := by
  cases found with
  | none => exact Kept.fail hcwd
  | some ip => exact Logic.wp_bind (iget_spec (Logic.wp_bind (iput_spec (Kept.fail hcwd))))

/-! ## Every call -/

/-- Every call but `exit` ends between calls, with what the process had if it failed. -/
theorem call_kept (c : Call) (hc : c ≠ .exit) (hcwd : x.cwd ≠ none) :
    logic.wp t (Kept x) (c.prog t) (some (.idle x)) := by
  cases c with
  | «open» omode found => exact sysOpen_spec omode found hcwd
  | dup fd => exact sysDup_spec fd hcwd
  | pipe page copied => exact sysPipe_spec page copied hcwd
  | fork child copied pid => exact kfork_spec child copied pid hcwd
  | close fd => exact sysClose_spec fd hcwd
  | exit => exact absurd rfl hc
  | exec found ok => exact kexec_spec found ok hcwd
  | wait zombie => exact kwait_spec zombie hcwd

end calls

theorem verifies : logic.Verifies machine := by
  intro t c O s hinv hready hidle
  cases hO : O t with
  | none =>
    have hdead := hinv.procs.dead t hO
    exact absurd (of_decide_eq_true hready) hdead
  | some r =>
    have hr := hidle r hO
    rw [hr.eq]
    by_cases hc : c = .exit
    · rw [hc]
      exact kexit_spec hr.cwd
    · exact Logic.wp_mono (call_kept c hc hr.cwd) fun _ _ h => h.idle

/-! ## The first process -/

/-- What the first process owns, and nobody else anything. -/
def bootOwned (root : Nat) : Fin NPROC → Option Held :=
  update (fun _ => none) 0 (some (.idle ⟨.runnable, fun _ => none, some root⟩))

theorem boot_proc (root : Nat) {p : Fin NPROC} (hp : p ≠ 0) :
    (boot root).shared.proc p = ⟨.unused, fun _ => none, none⟩ := by
  unfold boot
  dsimp only
  rw [update_of_ne hp]

theorem bootOwned_live {root : Nat} {p : Fin NPROC} (h : bootOwned root p = some r) :
    p = 0 ∧ r = .idle ⟨.runnable, fun _ => none, some root⟩ := by
  rcases update_live h with hp | ⟨_, hp⟩
  · exact hp
  · cases hp

theorem boot_procs (root : Nat) : Procs (bootOwned root) (boot root).shared := by
  refine ⟨?_, ?_, ?_, ?_, ?_⟩
  · intro p r hr
    obtain ⟨rfl, rfl⟩ := bootOwned_live hr
    exact ⟨rfl, rfl⟩
  · intro p hp
    have hp0 : p ≠ 0 := by
      rintro rfl
      cases hp
    rw [boot_proc root hp0]
    exact nofun
  · intro p hp
    by_cases hp0 : p = 0
    · rw [hp0] at hp
      rcases hp with hp | hp <;> cases hp
    · rw [boot_proc root hp0]
      exact ⟨rfl, rfl⟩
  · intro p r np x hr hc
    obtain ⟨_, rfl⟩ := bootOwned_live hr
    cases hc
  · intro p q r r' np x y hp hq hx hy
    obtain ⟨_, rfl⟩ := bootOwned_live hp
    cases hx

theorem boot_supply (root : Nat) (k : Token) :
    (boot root).shared.supply k = Multiset.count k {.inode root} := by
  cases k with
  | file | side | page => simp [Sys.supply, boot]
  | inode ip =>
    simp only [Sys.supply, boot, update_apply, Multiset.count_singleton, Token.inode.injEq]

theorem boot_tokens (root : Nat) (k : Token) :
    ∑ p, (tokensOf (bootOwned root) (boot root).shared p).count k =
      Multiset.count k {.inode root} := by
  rw [sum_eq_single 0]
  · rfl
  · intro p _ hp
    have hnone : bootOwned root p = none := update_of_ne hp _ _
    unfold tokensOf
    rw [hnone, boot_proc root hp]
    rfl
  · exact fun h => absurd (mem_univ _) h

theorem boot_safe (root : Nat) : logic.Safe (fun _ _ => logic.Idle) (boot root) := by
  refine ⟨bootOwned root, ⟨boot_procs root, ⟨?_, fun _ _ => rfl, ?_⟩⟩, ?_⟩
  · intro k
    have hfiles : ∑ f, ((boot root).shared.file f).owns.count k = 0 := sum_eq_zero fun f _ => rfl
    rw [hfiles, boot_tokens, boot_supply, Nat.zero_add]
  · intro p r f hr hf
    obtain ⟨_, rfl⟩ := bootOwned_live hr
    cases hf
  · intro u r hr
    obtain ⟨_, rfl⟩ := bootOwned_live hr
    exact ⟨rfl, rfl, rfl, rfl, rfl, nofun⟩

end Xv6.Ftable
