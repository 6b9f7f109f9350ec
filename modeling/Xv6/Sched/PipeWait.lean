/-
  Sleeping in pipes.

  `piperead` should not sleep while there are bytes or the write end is closed, nor `pipewrite` while
  there is room or the read end is closed.  `pipewrite` wakes the readers when the pipe is full and when
  it is done, but not when it finds itself killed: bytes that it has copied by then stay unannounced
  (`killed_writer_leaves_reader`).

  `pipeMonitor` is the proof that this is the only lost wakeup, and `pipe_no_stuck_sleepers` what follows
  for runs in which no writer is killed between a test of `killed` and its next wakeup.
-/
import Xv6.Sched.Pipe

namespace Xv6.Sched

open List

/-! ## Conditions -/

/-- `piperead` need not wait. -/
def Pipe.ReadReady (pi : Pipe) : Prop := pi.nread ≠ pi.nwrite ∨ pi.writeopen = false

/-- `pipewrite` need not wait. -/
def Pipe.WriteReady (pi : Pipe) : Prop := ¬ pi.full ∨ pi.readopen = false

def pipeCond : KChan → KData → Prop
  | .nread k, d => (d.pipe k).ReadReady
  | .nwrite k, d => (d.pipe k).WriteReady
  | _, _ => False

def pipewritePre : PipewritePt → Pipe → Prop
  | .top _ dirty, pi => dirty = true → pi.readopen = true
  | .killed _ _, pi => pi.readopen = true
  | .copy _ _, pi => pi.readopen = true
  | .wakeFull _, pi => pi.full ∧ pi.readopen = true
  | .sleep _, pi => pi.full ∧ pi.readopen = true
  | _, _ => True

def pipereadPre : PipereadPt → Pipe → Prop
  | .killed, pi => pi.nread = pi.nwrite ∧ pi.writeopen = true
  | .sleep, pi => pi.nread = pi.nwrite ∧ pi.writeopen = true
  | _, _ => True

def pipePre : KPt → KData → Prop
  | .pipewrite k _ pt, d => pipewritePre pt (d.pipe k)
  | .piperead k _ pt, d => pipereadPre pt (d.pipe k)
  | _, _ => True

def pipeOwes : KPt → KChan → Prop
  | .pipewrite k _ (.top _ dirty), ch => dirty = true ∧ ch = .nread k
  | .pipewrite k _ (.killed _ dirty), ch => dirty = true ∧ ch = .nread k
  | .pipewrite k _ (.copy _ dirty), ch => dirty = true ∧ ch = .nread k
  | .pipewrite k _ (.wakeFull _), ch => ch = .nread k
  | .pipewrite k _ (.wakeEnd _), ch => ch = .nread k
  | .piperead k _ (.copy _), ch => ch = .nwrite k
  | .piperead k _ (.wakeup _), ch => ch = .nwrite k
  | .pipeclose k writable .wakeup, ch => ch = if writable then .nread k else .nwrite k
  | _, _ => False

/-- The writer has found itself unmarked and may leave bytes that it has not announced. -/
def pipeGuarded : KPt → Prop
  | .pipewrite _ _ (.top _ dirty) => dirty = true
  | .pipewrite _ _ (.killed _ dirty) => dirty = true
  | .pipewrite _ _ (.copy _ _) => True
  | _ => False

theorem not_pipeGuarded (l : KPt) (h : ∀ k ∈ l.held, ¬ k.IsPipe) : ¬ pipeGuarded l := by
  cases l with
  | pipewrite k n pt =>
    cases pt with
    | acquire => exact id
    | _ => exact absurd trivial (h (.pipe k) mem_cons_self)
  | _ => exact id

theorem pipeGuard_keeps (l : KPt) :
    GuardKeeps pipeGuarded (fun _ => False) l (kernelCode l) := by
  cases l with
  | pipewrite k n pt =>
    cases pt with
    | top i dirty =>
      rintro me x d d' next ⟨⟩
      dsimp only
      split
      · split
        · exact nofun
        · exact id
      · exact nofun
    | killed i dirty => exact id
    | copy i dirty => exact fun _ _ _ _ _ _ _ => trivial
    | sleep i => exact ⟨nofun, nofun⟩
    | _ => exact nofun
  | piperead k n pt =>
    cases pt with
    | test =>
      intro me x d d' next h
      dsimp only at h
      split at h <;> cases h <;> exact nofun
    | sleep => exact ⟨id, id⟩
    | copy i =>
      intro me x d d' next h
      dsimp only at h
      split at h
      · split at h <;> cases h <;> exact nofun
      · cases h
        exact nofun
    | _ => exact id
  | pipeclose k writable pt =>
    cases pt with
    | set =>
      rintro me x d d' next ⟨⟩
      exact id
    | _ => exact id
  | _ =>
    refine guardKeeps_of_foreign not_pipeGuarded (fun _ _ _ => False.elim) ?_
    intro k hk
    cases hk <;> exact id

/-- A `kkill` at a point that this guards makes a writer leave without waking the readers. -/
def pipeGuard : Guard kernel where
  guarded := pipeGuarded
  killable := fun _ => False
  entry := by
    intro l h
    refine not_pipeGuarded l ?_
    rw [KPt.held_of_entry h]
    exact nofun
  keeps := pipeGuard_keeps

def pipeNotes : Annotation kernel where
  inv := fun _ => True
  cond := pipeCond
  lock := lockOf
  pre := pipePre
  owes := pipeOwes
  guard := pipeGuard

/-! ## Changes of the data -/

theorem pipeOwes_pipe {l : KPt} {ch : KChan} (h : pipeOwes l ch) :
    ∃ k, lockOf ch = .pipe k ∧ .pipe k ∈ l.held := by
  cases l with
  | pipewrite k n pt =>
    refine ⟨k, ?_⟩
    cases pt with
    | top | killed | copy => exact ⟨congrArg lockOf h.2, mem_cons_self⟩
    | wakeFull | wakeEnd => exact ⟨congrArg lockOf h, mem_cons_self⟩
    | _ => exact h.elim
  | piperead k n pt =>
    refine ⟨k, ?_⟩
    cases pt with
    | copy | wakeup => exact ⟨congrArg lockOf h, mem_cons_self⟩
    | _ => exact h.elim
  | pipeclose k writable pt =>
    refine ⟨k, ?_⟩
    cases pt with
    | wakeup => cases writable <;> exact ⟨congrArg lockOf h, mem_cons_self⟩
    | _ => exact h.elim
  | _ => exact h.elim

/-- The annotation of a point looks at the pipe whose lock is held there. -/
theorem pipePre_frame {l : KPt} {d d' : KData} (h : ∀ k, .pipe k ∈ l.held → d'.pipe k = d.pipe k)
    (hl : pipePre l d) : pipePre l d' := by
  cases l with
  | pipewrite k n pt =>
    have hpre : pipewritePre pt (d.pipe k) := hl
    show pipewritePre pt (d'.pipe k)
    cases pt with
    | acquire => trivial
    | _ =>
      rw [h k mem_cons_self]
      exact hpre
  | piperead k n pt =>
    have hpre : pipereadPre pt (d.pipe k) := hl
    show pipereadPre pt (d'.pipe k)
    cases pt with
    | acquire => trivial
    | _ =>
      rw [h k mem_cons_self]
      exact hpre
  | _ => trivial

/-- A change of a pipe under its lock. -/
theorem pipe_setPipe {l next : KPt} {d : KData} {k : Nat} {pi : Pipe} (hl : l.held = [.pipe k])
    (hnext : pipePre next (d.setPipe k pi))
    (hread : pi.ReadReady →
      pipeOwes next (.nread k) ∨ pipeCond (.nread k) d ∧ ¬ pipeOwes l (.nread k))
    (hwrite : pi.WriteReady →
      pipeOwes next (.nwrite k) ∨ pipeCond (.nwrite k) d ∧ ¬ pipeOwes l (.nwrite k)) :
    pipeNotes.Access l d (d.setPipe k pi) next := by
  have hother : ∀ j, j ≠ k → (d.setPipe k pi).pipe j = d.pipe j := by
    intro j hj
    rw [KData.pipe_setPipe, if_neg hj]
  -- nothing is owed for another pipe
  have howes : ∀ ch j, lockOf ch = .pipe j → j ≠ k → ¬ pipeOwes l ch := by
    intro ch j hch hj ho
    obtain ⟨i, hi, hmem⟩ := pipeOwes_pipe ho
    rw [hl, mem_singleton, ← hi, hch] at hmem
    exact hj (KLock.pipe.inj hmem)
  refine ⟨trivial, hnext, ?_, ?_⟩
  · intro ch hc
    cases ch with
    | nread j =>
      have hc : ((d.setPipe k pi).pipe j).ReadReady := hc
      by_cases hj : j = k
      · subst hj
        rw [KData.pipe_setPipe_self] at hc
        exact hread hc
      · rw [hother j hj] at hc
        exact Or.inr ⟨hc, howes _ j rfl hj⟩
    | nwrite j =>
      have hc : ((d.setPipe k pi).pipe j).WriteReady := hc
      by_cases hj : j = k
      · subst hj
        rw [KData.pipe_setPipe_self] at hc
        exact hwrite hc
      · rw [hother j hj] at hc
        exact Or.inr ⟨hc, howes _ j rfl hj⟩
    | _ => exact hc.elim
  · intro l' hdisj
    refine pipePre_frame ?_
    intro j hj
    refine hother j ?_
    rintro rfl
    have hmem : .pipe j ∈ l.held := by
      rw [hl]
      exact mem_cons_self
    exact hdisj _ hmem hj

theorem pipe_same {l next : KPt} {d : KData} (hnext : pipePre next d)
    (howes : ∀ ch, pipeOwes l ch → pipeOwes next ch) : pipeNotes.Access l d d next := by
  refine ⟨trivial, hnext, ?_, fun _ _ => id⟩
  intro ch hc
  by_cases ho : pipeOwes l ch
  · exact Or.inl (howes ch ho)
  · exact Or.inr ⟨hc, ho⟩

/-! ## The instructions keep the annotation -/

theorem pipewrite_keeps (k : Nat) (n : Int) (pt : PipewritePt) :
    pipeNotes.Keeps (.pipewrite k n pt) (pipewrite k n pt) := by
  cases pt with
  | acquire => exact ⟨fun _ _ _ => nofun, nofun⟩
  | top i dirty =>
    rintro me x d d' next ⟨⟩ _ hpre
    dsimp only
    split
    · split
      · -- the read end was open when the bytes were copied
        rename_i hclosed
        refine pipe_same trivial ?_
        rintro ch ⟨hdirty, _⟩
        rw [hpre hdirty] at hclosed
        cases hclosed
      · rename_i hopen
        exact pipe_same (Bool.eq_true_of_not_eq_false hopen) fun ch => id
    · exact pipe_same trivial fun ch ho => ho.2
  | killed i dirty =>
    refine ⟨?_, ?_⟩
    · intro b d _ hpre
      cases b
      · exact hpre
      · trivial
    · exact fun ch ho => ⟨ho, Or.inr ho.1⟩
  | copy i dirty =>
    intro me x d d' next h _ hpre
    dsimp only at h
    split at h
    · rename_i hfull
      cases h
      exact pipe_same ⟨hfull, hpre⟩ fun ch ho => ho.2
    · rename_i hfull
      split at h <;> cases h
      · refine pipe_setPipe rfl ?_ (fun _ => Or.inl ⟨rfl, rfl⟩) ?_
        · intro _
          rw [KData.pipe_setPipe_self]
          exact hpre
        · exact fun _ => Or.inr ⟨Or.inl hfull, nofun⟩
      · exact pipe_same trivial fun ch ho => ho.2
  | wakeFull i => exact ⟨fun _ _ => id, fun ch hne ho => absurd ho hne⟩
  | sleep i =>
    refine ⟨rfl, ?_, fun _ _ => nofun, nofun⟩
    rintro d _ ⟨hfull, hopen⟩ (hno | hclosed)
    · exact hno hfull
    · rw [hopen] at hclosed
      cases hclosed
  | wakeEnd i => exact ⟨fun _ _ _ => trivial, fun ch hne ho => absurd ho hne⟩
  | release ret => exact ⟨fun _ _ _ => trivial, nofun⟩

theorem piperead_keeps (k : Nat) (n : Int) (pt : PipereadPt) :
    pipeNotes.Keeps (.piperead k n pt) (piperead k n pt) := by
  cases pt with
  | test =>
    intro me x d d' next h _ _
    dsimp only at h
    split at h <;> cases h
    · rename_i hempty
      exact pipe_same hempty nofun
    · exact pipe_setPipe rfl trivial (fun hc => Or.inr ⟨hc, nofun⟩) fun _ => Or.inl rfl
  | killed =>
    refine ⟨?_, nofun⟩
    intro b d _ hpre
    cases b
    · exact hpre
    · trivial
  | sleep =>
    refine ⟨rfl, ?_, fun _ _ => trivial, nofun⟩
    rintro d _ ⟨hempty, hopen⟩ (hno | hclosed)
    · exact hno hempty
    · rw [hopen] at hclosed
      cases hclosed
  | copy i =>
    intro me x d d' next h _ _
    dsimp only at h
    split at h
    · rename_i hlt
      split at h <;> cases h
      · exact pipe_setPipe rfl trivial (fun _ => Or.inr ⟨Or.inl hlt.2, nofun⟩) fun _ => Or.inl rfl
      · exact pipe_setPipe rfl trivial (fun hc => Or.inr ⟨hc, nofun⟩) fun _ => Or.inl rfl
    · cases h
      exact pipe_setPipe rfl trivial (fun hc => Or.inr ⟨hc, nofun⟩) fun _ => Or.inl rfl
  | wakeup ret => exact ⟨fun _ _ _ => trivial, fun ch hne ho => absurd ho hne⟩
  | _ => exact ⟨fun _ _ _ => trivial, nofun⟩

theorem pipeclose_keeps (k : Nat) (writable : Bool) (pt : WakePt) :
    pipeNotes.Keeps (.pipeclose k writable pt) (pipeclose k writable pt) := by
  cases pt with
  | set =>
    rintro me x d d' next ⟨⟩ _ _
    cases writable with
    | true => exact pipe_setPipe rfl trivial (fun _ => Or.inl rfl) fun hc => Or.inr ⟨hc, nofun⟩
    | false => exact pipe_setPipe rfl trivial (fun hc => Or.inr ⟨hc, nofun⟩) fun _ => Or.inl rfl
  | wakeup => exact ⟨fun _ _ _ => trivial, fun ch hne ho => absurd ho hne⟩
  | _ => exact ⟨fun _ _ _ => trivial, nofun⟩

theorem pipe_quiet (l : KPt) (h : ∀ k ∈ l.held, ¬ k.IsPipe) : pipeNotes.Quiet l := by
  refine ⟨?_, ?_⟩
  · intro d
    cases l with
    | pipewrite k _ pt | piperead k _ pt =>
      cases pt with
      | acquire => trivial
      | _ => exact absurd trivial (h (.pipe k) mem_cons_self)
    | _ => trivial
  · intro ch ho
    obtain ⟨k, _, hmem⟩ := pipeOwes_pipe ho
    exact h _ hmem trivial

theorem pipe_unseen {d d' : KData} (h : d'.pipe = d.pipe) : pipeNotes.Unseen d d' := by
  refine ⟨id, ?_, ?_⟩
  · intro ch hc
    cases ch with
    | nread k => exact (congrArg Pipe.ReadReady (congrFun h k)).mp hc
    | nwrite k => exact (congrArg Pipe.WriteReady (congrFun h k)).mp hc
    | _ => exact hc
  · intro l
    exact pipePre_frame fun k _ => congrFun h k

theorem pipe_keeps (l : KPt) : pipeNotes.Keeps l (kernelCode l) := by
  cases l with
  | pipewrite k n pt => exact pipewrite_keeps k n pt
  | piperead k n pt => exact piperead_keeps k n pt
  | pipeclose k writable pt => exact pipeclose_keeps k writable pt
  | _ =>
    refine keeps_of_foreign pipe_quiet rfl ?_ ?_ ?_
    · intro ch d hch hc
      cases ch with
      | nread | nwrite => exact hch trivial
      | _ => exact hc
    · intro k hk
      cases hk <;> exact id
    · intro d d' hf
      exact pipe_unseen (funext fun k => hf.pipe k nofun)

def pipeMonitor : Monitor kernel where
  toAnnotation := pipeNotes
  owes_held := by
    intro l ch ho
    obtain ⟨k, hk, hmem⟩ := pipeOwes_pipe ho
    show lockOf ch ∈ l.held
    rw [hk]
    exact hmem
  entry := by
    intro l d hl _
    refine (pipe_quiet l ?_).1 d
    rw [KPt.held_of_entry hl]
    exact nofun
  keeps := pipe_keeps
  device := by
    intro x d hd
    have hu : pipeNotes.Unseen d (x.device d) := by
      cases x <;> exact pipe_unseen rfl
    exact ⟨hu.inv hd, hu.cond, fun l _ => hu.pre l⟩

/-! ## Result -/

section run

variable {κ : Type} [DecidableEq κ]

/-- In every run in which no step marks a writer between a test of `killed` in `pipewrite` and its next
    wakeup of the readers: where `pi->lock` is free, nobody is SLEEPING in `piperead` while the pipe has
    bytes or its write end is closed, nor in `pipewrite` while it has room or its read end is closed. -/
theorem pipe_no_stuck_sleepers (n start : Nat) (acts : List (κ × Act KChan KIn KPt))
    (s : Sys κ KLock KChan KData KPt)
    (hrun : run kernel n (Sys.init (KData.init start)) acts = some s)
    (hspares : Meets kernel n pipeGuard.Spares (Sys.init (KData.init start)) acts) (k q : Nat)
    (hfree : s.mem.lock (.client (.pipe k)) = none) :
    (s.SleepsOn q (.client (.nread k)) →
      (s.mem.data.pipe k).nread = (s.mem.data.pipe k).nwrite ∧
        (s.mem.data.pipe k).writeopen = true) ∧
    (s.SleepsOn q (.client (.nwrite k)) →
      (s.mem.data.pipe k).nwrite = (s.mem.data.pipe k).nread + BitVec.ofNat 32 PIPESIZE ∧
        (s.mem.data.pipe k).readopen = true) := by
  have hno : ∀ ch, lockOf ch = .pipe k → s.SleepsOn q (.client ch) → ¬ pipeCond ch s.mem.data := by
    intro ch hch hq
    refine no_sleeper pipeMonitor trivial hspares hrun ?_ hq
    show s.mem.lock (.client (lockOf ch)) = none
    rw [hch]
    exact hfree
  refine ⟨?_, ?_⟩
  · intro hq
    obtain ⟨hempty, hopen⟩ := not_or.mp (hno (.nread k) rfl hq)
    exact ⟨not_not.mp hempty, Bool.eq_true_of_not_eq_false hopen⟩
  · intro hq
    obtain ⟨hfull, hopen⟩ := not_or.mp (hno (.nwrite k) rfl hq)
    exact ⟨not_not.mp hfull, Bool.eq_true_of_not_eq_false hopen⟩

end run

/-- Process 0 forks processes 1 and 2; process 1 sleeps in `piperead` of pipe 0, and the CPU goes on with
    process 2. -/
def readerSchedule : List (Fin 2 × Act KChan KIn KPt) :=
  (0, .run) :: (0, .run) :: (0, .fork) :: replicate 5 (0, .run) ++
    (0, .fork) :: replicate 6 (0, .run) ++ replicate 3 (1, .run) ++
    [(1, .enter (.piperead 0 1 .acquire)), (1, .run), (1, .input .clock)] ++
    replicate 9 (1, .run)

theorem pipe_no_stuck_sleepers_empty :
    ∃ s, run kernel 3 (Sys.init (KData.init 2)) readerSchedule = some s ∧
      s.SleepsOn 1 (.client (.nread 0)) ∧
      (s.mem.data.pipe 0).nread = (s.mem.data.pipe 0).nwrite ∧
      (s.mem.data.pipe 0).writeopen = true := by
  have hrun : (run kernel 3 (Sys.init (KData.init 2)) readerSchedule).map (fun s =>
      (s.mem.lock (.client (.pipe 0)), (s.mem.proc 1).state, (s.mem.proc 1).chan)) =
      some (none, .sleeping, some (.client (.nread 0))) := by
    decide +kernel
  have hmeets := meets_of_unmarked pipeGuard (Inv.init (KData.init 2)) (Range.init _)
    (show unmarked kernel 3 _ readerSchedule = true by decide +kernel)
  obtain ⟨s, hs, hproj⟩ := Option.map_eq_some_iff.mp hrun
  obtain ⟨hfree, hstate, hchan⟩ : _ ∧ _ ∧ _ := by simpa only [Prod.mk.injEq] using hproj
  exact ⟨s, hs, ⟨hstate, hchan⟩,
    (pipe_no_stuck_sleepers 3 2 readerSchedule s hs hmeets 0 1 hfree).1 ⟨hstate, hchan⟩⟩

/-- Process 0 then writes two bytes, and is killed by process 2 after the first one. -/
def killedWriterSchedule : List (Fin 2 × Act KChan KIn KPt) :=
  readerSchedule ++
    [(0, .enter (.pipewrite 0 2 .acquire)), (0, .run), (0, .input .clock), (0, .run),
      (0, .input (.copy true 97)), (0, .input .clock), (1, .kill 1), (1, .run), (0, .run), (0, .run),
      (0, .run)]

theorem killed_writer_leaves_reader :
    ∃ s, run kernel 3 (Sys.init (KData.init 2)) killedWriterSchedule = some s ∧
      s.mem.lock (.client (.pipe 0)) = none ∧ s.SleepsOn 1 (.client (.nread 0)) ∧
      (s.mem.data.pipe 0).nread ≠ (s.mem.data.pipe 0).nwrite := by
  have hrun : (run kernel 3 (Sys.init (KData.init 2)) killedWriterSchedule).map (fun s =>
      (s.mem.lock (.client (.pipe 0)), (s.mem.proc 1).state, (s.mem.proc 1).chan,
        (s.mem.data.pipe 0).nread, (s.mem.data.pipe 0).nwrite)) =
      some (none, .sleeping, some (.client (.nread 0)), 0, 1) := by
    decide +kernel
  obtain ⟨s, hs, hproj⟩ := Option.map_eq_some_iff.mp hrun
  obtain ⟨hfree, hstate, hchan, hr, hw⟩ : _ ∧ _ ∧ _ ∧ _ ∧ _ := by
    simpa only [Prod.mk.injEq] using hproj
  refine ⟨s, hs, hfree, ⟨hstate, hchan⟩, ?_⟩
  rw [hr, hw]
  decide

end Xv6.Sched
