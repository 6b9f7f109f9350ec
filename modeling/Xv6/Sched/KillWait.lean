/-
  Kills and waits.

  `kwait`, `piperead`, `pipewrite`, `consoleread` and `sys_pause` test `killed(p)` before they sleep,
  but `killed` and `sleep` take `p->lock` separately.  A `kkill` between the two marks a process that
  is RUNNING, wakes nobody, and the process then sleeps (`kwait_sleeps_through_kill`).

  `killed_not_sleeping` is what holds of runs without such a `kkill`: no process that is marked is
  SLEEPING in one of these waits.
-/
import Xv6.Sched.Kernel

namespace Xv6.Sched

open List

/-! ## The points between the test and the sleep -/

/-- The channels of `piperead`, `pipewrite`, `consoleread` and `sys_pause`. -/
def KChan.Killable : KChan → Prop
  | .nread _ => True
  | .nwrite _ => True
  | .cons => True
  | .ticks => True
  | _ => False

/-- The channels of the killable waits, for a process. -/
def KillableOn (q : Nat) : Chan KChan → Prop
  | .proc r => r = q
  | .client ch => ch.Killable

def waitKillable : Wait KLock KChan KPt → Prop
  | .client ch _ _ => ch.Killable
  | .kwait _ => True

/-- The process has found itself unmarked and has not tested again. -/
def waitGuarded : KPt → Prop
  | .pipewrite _ _ (.copy _ _) => True
  | .pipewrite _ _ (.wakeFull _) => True
  | .pipewrite _ _ (.sleep _) => True
  | .piperead _ _ .sleep => True
  | .consoleread _ (.sleep _) => True
  | .pause _ (.sleep _) => True
  | _ => False

/-- The locks of the functions that test for a kill. -/
def KLock.Tested : KLock → Prop
  | .pipe _ => True
  | .cons => True
  | .ticks => True
  | _ => False

theorem not_waitGuarded (l : KPt) (h : ∀ k ∈ l.held, ¬ k.Tested) : ¬ waitGuarded l := by
  cases l with
  | pipewrite k _ pt | piperead k _ pt =>
    cases pt with
    | acquire => exact id
    | _ => exact absurd trivial (h (.pipe k) mem_cons_self)
  | consoleread target pt =>
    cases pt with
    | acquire => exact id
    | _ => exact absurd trivial (h .cons mem_cons_self)
  | pause n pt =>
    cases pt with
    | acquire => exact id
    | _ => exact absurd trivial (h .ticks mem_cons_self)
  | _ => exact id

theorem waitGuard_foreign {l : KPt} (hl : ∀ k, l.lock = some k → ¬ k.Tested) :
    GuardKeeps waitGuarded waitKillable l (kernelCode l) := by
  refine guardKeeps_of_foreign not_waitGuarded ?_ hl
  intro ch k next hch
  cases ch with
  | sleeplock | log => exact hch
  | _ => trivial

theorem pipewrite_guard (k : Nat) (n : Int) (pt : PipewritePt) :
    GuardKeeps waitGuarded waitKillable (.pipewrite k n pt) (pipewrite k n pt) := by
  cases pt with
  | top i dirty =>
    rintro me x d d' next ⟨⟩
    dsimp only
    split
    · split <;> exact id
    · exact id
  | copy i dirty => exact fun _ _ _ _ _ _ _ => trivial
  | sleep i => exact ⟨fun _ => trivial, id⟩
  | _ => exact id

theorem piperead_guard (k : Nat) (n : Int) (pt : PipereadPt) :
    GuardKeeps waitGuarded waitKillable (.piperead k n pt) (piperead k n pt) := by
  cases pt with
  | test =>
    intro me x d d' next h
    dsimp only at h
    split at h <;> cases h <;> exact id
  | sleep => exact ⟨fun _ => trivial, id⟩
  | copy i =>
    intro me x d d' next h
    dsimp only at h
    split at h
    · split at h <;> cases h <;> exact id
    · cases h
      exact id
  | _ => exact id

theorem consoleread_guard (target : Int) (pt : ConsolereadPt) :
    GuardKeeps waitGuarded waitKillable (.consoleread target pt) (consoleread target pt) := by
  cases pt with
  | test n =>
    rintro me x d d' next ⟨⟩
    dsimp only
    split
    · split <;> exact id
    · exact id
  | sleep n => exact ⟨fun _ => trivial, id⟩
  | take n =>
    intro me x d d' next h
    dsimp only at h
    split at h
    · cases h
      exact id
    · split at h <;> cases h
      · split <;> exact id
      · exact id
  | _ => exact id

theorem pause_guard (n : Int) (pt : PausePt) :
    GuardKeeps waitGuarded waitKillable (.pause n pt) (pause n pt) := by
  cases pt with
  | start =>
    rintro me x d d' next ⟨⟩
    exact id
  | test ticks0 =>
    rintro me x d d' next ⟨⟩
    dsimp only
    split <;> exact id
  | sleep ticks0 => exact ⟨fun _ => trivial, id⟩
  | _ => exact id

theorem waitGuard_keeps (l : KPt) : GuardKeeps waitGuarded waitKillable l (kernelCode l) := by
  cases l with
  | pipewrite k n pt => exact pipewrite_guard k n pt
  | piperead k n pt => exact piperead_guard k n pt
  | pipeclose k writable pt =>
    cases pt with
    | set =>
      rintro me x d d' next ⟨⟩
      exact id
    | _ => exact id
  | consoleread target pt => exact consoleread_guard target pt
  | pause n pt => exact pause_guard n pt
  | _ =>
    refine waitGuard_foreign ?_
    intro k hk
    cases hk <;> exact id

/-- A `kkill` at a point that this guards falls between a test of `killed` and the sleep. -/
def waitGuard : Guard kernel where
  guarded := waitGuarded
  killable := waitKillable
  entry := by
    intro l h
    refine not_waitGuarded l ?_
    rw [KPt.held_of_entry h]
    exact nofun
  keeps := waitGuard_keeps

/-! ## Result -/

section run

variable {κ : Type} [DecidableEq κ]

/-- In every run in which no step marks a process between a test of `killed` in one of the five wait
    loops and the sleep that follows it, no marked process is SLEEPING in such a wait. -/
theorem killed_not_sleeping (n start : Nat) (acts : List (κ × Act KChan KIn KPt))
    (s : Sys κ KLock KChan KData KPt)
    (hrun : run kernel n (Sys.init (KData.init start)) acts = some s)
    (hspares : Meets kernel n waitGuard.Spares (Sys.init (KData.init start)) acts)
    (q : Nat) (ch : Chan KChan) (hch : KillableOn q ch) (hq : s.SleepsOn q ch) :
    (s.mem.proc q).killed = false := by
  have hI := inv_of_run (Inv.init _) hrun
  have hG := guard_of_run waitGuard hspares hrun
  obtain ⟨w, hw, hat⟩ := hI.of_sleepsOn hq
  have hkill : waitKillable w := by
    cases w with
    | client ch' k next =>
      cases hw
      exact hch
    | kwait addr => trivial
  rcases hat with hat | hat
  · exact hG.guard q _ hat hkill
  · exact hG.asleep q w hat hkill hq.1

end run

/-- Process 0 forks and sleeps in `kwait`. -/
def waitSchedule : List (Fin 2 × Act KChan KIn KPt) :=
  (0, .run) :: (0, .run) :: (0, .fork) :: replicate 5 (0, .run) ++
    (0, .wait 0) :: replicate 10 (0, .run)

theorem killed_not_sleeping_kwait :
    ∃ s, run kernel 2 (Sys.init (KData.init 2)) waitSchedule = some s ∧ s.SleepsOn 0 (.proc 0) ∧
      (s.mem.proc 0).killed = false := by
  have hrun : (run kernel 2 (Sys.init (KData.init 2)) waitSchedule).map (fun s =>
      ((s.mem.proc 0).state, (s.mem.proc 0).chan)) = some (.sleeping, some (.proc 0)) := by
    decide +kernel
  have hmeets := meets_of_unmarked waitGuard (Inv.init (KData.init 2)) (Range.init _)
    (show unmarked kernel 2 _ waitSchedule = true by decide +kernel)
  obtain ⟨s, hs, hproj⟩ := Option.map_eq_some_iff.mp hrun
  obtain ⟨hstate, hchan⟩ : _ ∧ _ := by simpa only [Prod.mk.injEq] using hproj
  exact ⟨s, hs, ⟨hstate, hchan⟩,
    killed_not_sleeping 2 2 waitSchedule s hs hmeets 0 (.proc 0) rfl ⟨hstate, hchan⟩⟩

/-- Process 0 forks and calls `kwait`; after its test of `killed`, process 1 on another CPU calls
    `kkill` for it. -/
def killSchedule : List (Fin 2 × Act KChan KIn KPt) :=
  (0, .run) :: (0, .run) :: (0, .fork) :: replicate 5 (0, .run) ++
    replicate 3 (1, .run) ++ (0, .wait 0) :: replicate 6 (0, .run) ++
    [(1, .kill 1), (1, .run)] ++ replicate 4 (0, .run)

theorem kwait_sleeps_through_kill :
    ∃ s, run kernel 2 (Sys.init (KData.init 2)) killSchedule = some s ∧
      s.SleepsOn 0 (.proc 0) ∧ (s.mem.proc 0).killed = true := by
  have hrun : (run kernel 2 (Sys.init (KData.init 2)) killSchedule).map (fun s =>
      ((s.mem.proc 0).state, (s.mem.proc 0).chan, (s.mem.proc 0).killed)) =
      some (.sleeping, some (.proc 0), true) := by
    decide +kernel
  obtain ⟨s, hs, hproj⟩ := Option.map_eq_some_iff.mp hrun
  obtain ⟨hstate, hchan, hkilled⟩ : _ ∧ _ ∧ _ := by simpa only [Prod.mk.injEq] using hproj
  exact ⟨s, hs, ⟨hstate, hchan⟩, hkilled⟩

end Xv6.Sched
