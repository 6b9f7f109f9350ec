/-
  Sleep locks and admission to the log.

  `lockMonitor` is the proof that `releasesleep`, `end_op` and the end of a commit lose no wakeup:
  nobody sleeps in `acquiresleep` while the sleep lock is free, nor in `begin_op` while the log admits
  an operation.  `commit` empties the log without `log.lock`, but while `log.committing` is set.

  `no_stuck_sleepers` says so for every run, together with the same for `kwait`.
-/
import Xv6.Sched.Kernel
import Xv6.Sched.Wait

namespace Xv6.Sched

open List

/-! ## Conditions -/

def lockCond : KChan → KData → Prop
  | .sleeplock k, d => d.locked k = false
  | .log, d => d.log.admits
  | _, _ => False

def lockPre : KPt → KData → Prop
  | .acquiresleep k .sleep, d => d.locked k = true
  | .beginOp .sleep, d => ¬ d.log.admits
  | _, _ => True

def lockOwes : KPt → KChan → Prop
  | .releasesleep k .wakeup, ch => ch = .sleeplock k
  | .endOp .wakeup, ch => ch = .log
  | .endCommit .wakeup, ch => ch = .log
  | _, _ => False

/-- Whoever commits has set `log.committing`. -/
def LockData (d : KData) : Prop := ∀ p, d.committer = some p → d.log.committing = true

def lockNotes : Annotation kernel where
  inv := LockData
  cond := lockCond
  lock := lockOf
  pre := lockPre
  owes := lockOwes
  guard := .none kernel

/-! ## Changes of the data -/

variable {l : KPt} {d d' : KData}

theorem lockPre_frame (h1 : ∀ k, .sleeplock k ∈ l.held → d.locked k = true → d'.locked k = true)
    (h2 : .log ∈ l.held → d'.log.admits → d.log.admits) (h : lockPre l d) : lockPre l d' := by
  cases l with
  | acquiresleep k pt =>
    cases pt with
    | sleep => exact h1 k mem_cons_self h
    | _ => trivial
  | beginOp pt =>
    cases pt with
    | sleep => exact fun ha => h (h2 mem_cons_self ha)
    | _ => trivial
  | _ => trivial

/-- Pipes, the console and the clock have nothing to do with it. -/
theorem lock_unseen (h1 : d'.locked = d.locked) (h2 : d'.log = d.log)
    (h3 : d'.committer = d.committer) : lockNotes.Unseen d d' := by
  refine ⟨?_, ?_, ?_⟩
  · intro h p hp
    rw [h2]
    exact h p (h3 ▸ hp)
  · intro ch hc
    cases ch with
    | sleeplock k => exact (congrFun h1 k).symm.trans hc
    | log => exact (congrArg Log.admits h2).mp hc
    | _ => exact hc
  · intro l hl
    refine lockPre_frame ?_ ?_ hl
    · intro k _ hk
      rw [h1]
      exact hk
    · intro _ ha
      rw [← h2]
      exact ha

/-- A change of a sleep lock under its spin lock. -/
theorem lock_setLocked {next : KPt} {k : Nat} {x : Bool} (hheld : l.held = [.sleeplock k])
    (hl : ∀ ch, ¬ lockOwes l ch) (hd : LockData d) (hnext : lockPre next (d.setLocked k x))
    (howes : x = false → lockOwes next (.sleeplock k)) :
    lockNotes.Access l d (d.setLocked k x) next := by
  refine ⟨hd, hnext, ?_, ?_⟩
  · intro ch hc
    cases ch with
    | sleeplock j =>
      have hc : Function.update d.locked k x j = false := hc
      by_cases hj : j = k
      · subst hj
        rw [Function.update_self] at hc
        exact Or.inl (howes hc)
      · rw [Function.update_of_ne hj] at hc
        exact Or.inr ⟨hc, hl _⟩
    | log => exact Or.inr ⟨hc, hl _⟩
    | _ => exact absurd hc id
  · intro l' hl'
    refine lockPre_frame ?_ fun _ => id
    intro j hj hlocked
    have hne : j ≠ k := by
      rintro rfl
      have hmem : .sleeplock j ∈ l.held := by
        rw [hheld]
        exact mem_cons_self
      exact hl' (.sleeplock j) hmem hj
    exact (Function.update_of_ne hne x d.locked).trans hlocked

/-- A change of the log. -/
theorem lock_setLog {next : KPt} (h1 : d'.locked = d.locked) (hl : ∀ ch, ¬ lockOwes l ch)
    (hd : LockData d') (hnext : lockPre next d')
    (hlog : d'.log.admits → lockOwes next .log ∧ .log ∈ l.held ∨ d.log.admits) :
    lockNotes.Access l d d' next := by
  refine ⟨hd, hnext, ?_, ?_⟩
  · intro ch hc
    cases ch with
    | sleeplock k => exact Or.inr ⟨(congrFun h1 k).symm.trans hc, hl _⟩
    | log =>
      rcases hlog hc with ⟨ho, _⟩ | ha
      · exact Or.inl ho
      · exact Or.inr ⟨ha, hl _⟩
    | _ => exact absurd hc id
  · intro l' hl'
    refine lockPre_frame ?_ ?_
    · intro k _ hk
      rw [h1]
      exact hk
    · intro hmem ha
      rcases hlog ha with ⟨_, hmem'⟩ | ha
      · exact absurd hmem (hl' .log hmem')
      · exact ha

/-! ## The instructions keep the annotation -/

theorem acquiresleep_keeps (k : Nat) (pt : LoopPt) :
    lockNotes.Keeps (.acquiresleep k pt) (acquiresleep k pt) := by
  cases pt with
  | test =>
    intro me x d d' next h hd _
    dsimp only at h
    split at h
    · rename_i hlocked
      cases h
      exact ⟨hd, hlocked, fun ch hc => Or.inr ⟨hc, nofun⟩, fun l' _ => id⟩
    · cases h
      exact lock_setLocked rfl nofun hd trivial nofun
  | sleep =>
    refine ⟨rfl, ?_, fun _ _ => trivial, nofun⟩
    intro d _ hlocked hfree
    exact Bool.false_ne_true (hfree.symm.trans hlocked)
  | _ => exact ⟨fun _ _ _ => trivial, nofun⟩

theorem releasesleep_keeps (k : Nat) (pt : WakePt) :
    lockNotes.Keeps (.releasesleep k pt) (releasesleep k pt) := by
  cases pt with
  | set =>
    rintro me x d d' next ⟨⟩ hd _
    exact lock_setLocked rfl nofun hd trivial fun _ => rfl
  | wakeup => exact ⟨fun _ _ _ => trivial, fun ch hne ho => absurd ho hne⟩
  | _ => exact ⟨fun _ _ _ => trivial, nofun⟩

theorem beginOp_keeps (pt : LoopPt) : lockNotes.Keeps (.beginOp pt) (beginOp pt) := by
  cases pt with
  | test =>
    intro me x d d' next h hd _
    dsimp only at h
    split at h
    · rename_i hadmits
      cases h
      exact lock_setLog rfl nofun hd trivial fun _ => Or.inr hadmits
    · rename_i hno
      cases h
      exact ⟨hd, hno, fun ch hc => Or.inr ⟨hc, nofun⟩, fun l' _ => id⟩
  | sleep => exact ⟨rfl, fun _ _ => id, fun _ _ => trivial, nofun⟩
  | _ => exact ⟨fun _ _ _ => trivial, nofun⟩

theorem logWrite_keeps (b : Nat) (pt : WakePt) : lockNotes.Keeps (.logWrite b pt) (logWrite b pt) := by
  cases pt with
  | set =>
    intro me x d d' next h hd _
    dsimp only at h
    split at h
    · rename_i l new hw
      cases h
      refine lock_setLog rfl nofun ?_ trivial ?_
      · intro p hp
        rcases (Log.write_cases hw).2 with ⟨_, rfl, _⟩ | ⟨_, rfl, _⟩ <;> exact hd p hp
      · intro ha
        rcases (Log.write_cases hw).2 with ⟨_, rfl, _⟩ | ⟨_, rfl, _⟩
        · exact Or.inr ha
        · refine Or.inr ⟨ha.1, fun hgt => ha.2 (Int.lt_of_lt_of_le hgt ?_)⟩
          exact Int.add_le_add_right (by simp) _
    · cases h
  | _ => exact ⟨fun _ _ _ => trivial, nofun⟩

theorem endOp_keeps (pt : WakePt) : lockNotes.Keeps (.endOp pt) (endOp pt) := by
  cases pt with
  | set =>
    intro me x d d' next h hd _
    dsimp only at h
    split at h
    · rename_i l hl
      cases h
      rcases Log.endOp_cases hl with ⟨_, _, rfl⟩ | ⟨_, hc, _⟩
      · refine lock_setLog rfl nofun (fun _ _ => rfl) trivial ?_
        rintro ⟨hc, _⟩
        cases hc
      · cases hc
    · rename_i l hl
      cases h
      rcases Log.endOp_cases hl with ⟨_, hc, _⟩ | ⟨_, _, rfl⟩
      · cases hc
      · exact lock_setLog rfl nofun hd trivial fun _ => Or.inl ⟨rfl, mem_cons_self⟩
    · cases h
  | wakeup => exact ⟨fun _ _ _ => trivial, fun ch hne ho => absurd ho hne⟩
  | _ => exact ⟨fun _ _ _ => trivial, nofun⟩

theorem commit_keeps : lockNotes.Keeps .commit (kernelCode .commit) := by
  intro me x d d' next h hd _
  obtain ⟨hme, ⟨⟩⟩ := Option.ite_none_right_eq_some.mp h
  refine lock_setLog rfl nofun hd trivial ?_
  intro ha
  -- the log admits nobody while it commits
  have hc := hd me hme
  rw [show d.log.committing = false from ha.1] at hc
  cases hc

theorem endCommit_keeps (pt : WakePt) : lockNotes.Keeps (.endCommit pt) (endCommit pt) := by
  cases pt with
  | set =>
    intro me x d d' next h hd _
    obtain ⟨_, ⟨⟩⟩ := Option.ite_none_right_eq_some.mp h
    exact lock_setLog rfl nofun nofun trivial fun _ => Or.inl ⟨rfl, mem_cons_self⟩
  | wakeup => exact ⟨fun _ _ _ => trivial, fun ch hne ho => absurd ho hne⟩
  | _ => exact ⟨fun _ _ _ => trivial, nofun⟩

/-- The locks that `lockNotes` is about. -/
def KLock.Waited : KLock → Prop
  | .sleeplock _ => True
  | .log => True
  | _ => False

theorem lockOwes_held {ch : KChan} (h : lockOwes l ch) :
    lockOf ch ∈ l.held ∧ (lockOf ch).Waited := by
  cases l with
  | releasesleep _ pt | endOp pt | endCommit pt =>
    cases pt with
    | wakeup =>
      cases h
      exact ⟨mem_cons_self, trivial⟩
    | _ => exact h.elim
  | _ => exact h.elim

theorem lock_quiet (l : KPt) (h : ∀ k ∈ l.held, ¬ k.Waited) : lockNotes.Quiet l := by
  refine ⟨?_, fun ch ho => h _ (lockOwes_held ho).1 (lockOwes_held ho).2⟩
  intro d
  cases l with
  | acquiresleep k pt =>
    cases pt with
    | sleep => exact absurd trivial (h (.sleeplock k) mem_cons_self)
    | _ => trivial
  | beginOp pt =>
    cases pt with
    | sleep => exact absurd trivial (h .log mem_cons_self)
    | _ => trivial
  | _ => trivial

theorem lock_keeps_foreign (hne : l ≠ .commit) (hl : ∀ k, l.lock = some k → ¬ k.Waited) :
    lockNotes.Keeps l (kernelCode l) := by
  refine keeps_of_foreign lock_quiet rfl ?_ hl ?_
  · intro ch d hch
    cases ch with
    | sleeplock | log => exact absurd trivial hch
    | _ => exact id
  · intro d d' hf
    obtain ⟨h1, h2⟩ := hf.log (fun h => hl .log h trivial) hne
    exact lock_unseen (funext fun k => hf.locked k fun h => hl (.sleeplock k) h trivial) h1 h2

theorem lock_keeps (l : KPt) : lockNotes.Keeps l (kernelCode l) := by
  cases l with
  | acquiresleep k pt => exact acquiresleep_keeps k pt
  | releasesleep k pt => exact releasesleep_keeps k pt
  | beginOp pt => exact beginOp_keeps pt
  | logWrite b pt => exact logWrite_keeps b pt
  | endOp pt => exact endOp_keeps pt
  | commit => exact commit_keeps
  | endCommit pt => exact endCommit_keeps pt
  | ret => exact lock_keeps_foreign nofun nofun
  | _ =>
    refine lock_keeps_foreign nofun ?_
    rintro k ⟨⟩
    exact id

/-- No wakeup of a sleep lock or of the log is lost. -/
def lockMonitor : Monitor kernel where
  toAnnotation := lockNotes
  owes_held := fun _ _ ho => (lockOwes_held ho).1
  entry := by
    intro l d hl _
    refine (lock_quiet l ?_).1 d
    rw [KPt.held_of_entry hl]
    exact nofun
  keeps := lock_keeps
  device := by
    intro x d hd
    have hu : lockNotes.Unseen d (x.device d) := by
      cases x <;> exact lock_unseen rfl rfl rfl
    exact ⟨hu.inv hd, hu.cond, fun l _ => hu.pre l⟩

/-! ## Result -/

section run

variable {κ : Type} [DecidableEq κ]

/-- In every state that any number of CPUs and processes can reach: where the lock is free, nobody
    is SLEEPING in `acquiresleep` on a sleep lock that is not locked, in `begin_op` while the log
    admits an operation, or in `kwait` with a ZOMBIE child or without a child. -/
theorem no_stuck_sleepers (n start : Nat) (acts : List (κ × Act KChan KIn KPt))
    (s : Sys κ KLock KChan KData KPt)
    (hrun : run kernel n (Sys.init (KData.init start)) acts = some s) (q : Nat) :
    (∀ k, s.mem.lock (.client (.sleeplock k)) = none → s.SleepsOn q (.client (.sleeplock k)) →
      s.mem.data.locked k = true) ∧
    (s.mem.lock (.client .log) = none → s.SleepsOn q (.client .log) →
      ¬ (s.mem.data.log.committing = false ∧
        (s.mem.data.log.block.length : Int) + (s.mem.data.log.outstanding + 1) * MAXOPBLOCKS ≤
          LOGBLOCKS)) ∧
    (s.mem.lock .wait = none → s.SleepsOn q (.proc q) →
      (∃ r, (s.mem.proc r).parent = some q) ∧
        ∀ r, (s.mem.proc r).parent = some q → (s.mem.proc r).state ≠ .zombie) := by
  have hno : ∀ ch, s.mem.lock (.client (lockOf ch)) = none → s.SleepsOn q (.client ch) →
      ¬ lockCond ch s.mem.data := fun ch hfree hq =>
    no_sleeper lockMonitor (d := KData.init start) nofun (meets_none acts _) hrun hfree hq
  refine ⟨?_, ?_, ?_⟩
  · intro k hfree hq
    exact Bool.eq_true_of_not_eq_false (hno (.sleeplock k) hfree hq)
  · rintro hfree hq ⟨hc, hroom⟩
    exact hno .log hfree hq ⟨hc, Int.not_lt.mpr hroom⟩
  · intro hfree hq
    obtain ⟨hI, hW⟩ := waitInv_of_run hrun
    exact hW.free hI hfree hq

end run

/-- Process 0 forks and locks sleep lock 0; process 1, on another CPU, waits for it. -/
def lockSchedule : List (Fin 2 × Act KChan KIn KPt) :=
  (0, .run) :: (0, .run) :: (0, .fork) :: replicate 5 (0, .run) ++
    [(0, .enter (.acquiresleep 0 .acquire)), (0, .run), (0, .input .clock), (0, .run), (0, .run),
      (1, .run), (1, .run), (1, .run), (1, .enter (.acquiresleep 0 .acquire)), (1, .run),
      (1, .input .clock)] ++ replicate 5 (1, .run)

theorem no_stuck_sleepers_locked :
    ∃ s, run kernel 2 (Sys.init (KData.init 2)) lockSchedule = some s ∧
      s.mem.lock (.client (.sleeplock 0)) = none ∧ s.SleepsOn 1 (.client (.sleeplock 0)) ∧
      s.mem.data.locked 0 = true := by
  have hrun : (run kernel 2 (Sys.init (KData.init 2)) lockSchedule).map (fun s =>
      (s.mem.lock (.client (.sleeplock 0)), (s.mem.proc 1).state, (s.mem.proc 1).chan)) =
      some (none, .sleeping, some (.client (.sleeplock 0))) := by
    decide +kernel
  obtain ⟨s, hs, hproj⟩ := Option.map_eq_some_iff.mp hrun
  obtain ⟨hfree, hstate, hchan⟩ : _ ∧ _ ∧ _ := by simpa only [Prod.mk.injEq] using hproj
  exact ⟨s, hs, hfree, ⟨hstate, hchan⟩,
    (no_stuck_sleepers 2 2 lockSchedule s hs 1).1 0 hfree ⟨hstate, hchan⟩⟩

end Xv6.Sched
