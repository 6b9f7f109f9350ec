/-
  Admission to the log and group commit, for any number of processes and any interleaving.

  Each process is idle, inside an operation, or committing.  A step is one of the sections of
  `begin_op`, `log_write` and `end_op` that run under `log.lock`, or one step of `commit` that
  touches the in-memory header or a pin.  An operation remembers which blocks it has logged and
  how many of these were new in the log; it logs at most `MAXOPBLOCKS` distinct blocks.

  The reservation `n + Σ (MAXOPBLOCKS - added) ≤ LOGBLOCKS` is what `begin_op` establishes and
  what absorption and operations that end early leave true.  It is not enough for `log_write`,
  which refuses a full log before it looks for the block in it: a block that the log already lists
  needs no room.  `logWrite_full_log_panics` is a run into that panic, `log_admission` what
  holds in every run without such a write.
-/
import Xv6.Log.Model
import Xv6.Lib.Sum
import Mathlib.Algebra.BigOperators.Ring.Finset
import Mathlib.Algebra.Order.BigOperators.Group.Finset
import Mathlib.Data.Fintype.BigOperators

namespace Xv6

open Finset Function

/-! ## The system -/

/-- Where a process is. -/
inductive Pc where
  | idle
  /-- Between `begin_op` and `end_op`: the blocks logged, and how many of them were new. -/
  | inOp (written : Finset Nat) (added : Nat)
  /-- `end_op` has set `committing`. -/
  | commit
  /-- In `install_trans`, after `write_log` and `write_head`. -/
  | installTrans (tail : Nat)
  /-- `commit` is done, `committing` still set. -/
  | committed

/-- The log, the pins of each block's buffer and the processes. -/
structure LogSys (ι : Type) where
  log : Log
  pins : Nat → Nat
  pc : ι → Pc

inductive LogAct where
  | beginOp
  | logWrite (b : Nat)
  | endOp
  | commit

variable {ι : Type}

def LogSys.init (start : Nat) : LogSys ι := ⟨⟨start, 0, false, []⟩, fun _ => 0, fun _ => .idle⟩

section steps

variable [DecidableEq ι]

def LogSys.goto (s : LogSys ι) (p : ι) (x : Pc) : ι → Pc := update s.pc p x

/-- One step of process `p`. It is not enabled in another place of the process, while `begin_op`
    sleeps, and for a `log_write` beyond the blocks an operation may log. -/
def LogSys.step (s : LogSys ι) (p : ι) (a : LogAct) : Option (Except Panic (LogSys ι)) :=
  match s.pc p, a with
  | .idle, .beginOp =>
    if s.log.admits then
      some (.ok { s with log := s.log.beginOp, pc := s.goto p (.inOp ∅ 0) })
    else none
  | .inOp written added, .logWrite b =>
    if (insert b written).card ≤ MAXOPBLOCKS then
      match s.log.write b with
      | .error m => some (.error m)
      | .ok (l, new) =>
        some (.ok
          { log := l
            pins := if new then update s.pins b (s.pins b + 1) else s.pins
            pc := s.goto p (.inOp (insert b written) (if new then added + 1 else added)) })
    else none
  | .inOp _ _, .endOp =>
    match s.log.endOp with
    | .error m => some (.error m)
    | .ok (l, doCommit) =>
      some (.ok { s with log := l, pc := s.goto p (if doCommit then .commit else .idle) })
  | .commit, .commit =>
    some (.ok { s with
      pc := s.goto p (if 0 < s.log.block.length then .installTrans 0 else .committed) })
  | .installTrans tail, .commit =>
    if tail < s.log.block.length then
      let b := s.log.block.getD tail 0
      some (.ok { s with
        pins := update s.pins b (s.pins b - 1)
        pc := s.goto p (.installTrans (tail + 1)) })
    else
      some (.ok { s with log := { s.log with block := [] }, pc := s.goto p .committed })
  | .committed, .commit =>
    some (.ok { s with log := { s.log with committing := false }, pc := s.goto p .idle })
  | _, _ => none

/-- The step is not a `log_write` of a listed block into a full log. -/
def LogSys.Roomy (s : LogSys ι) (a : LogAct) : Prop :=
  ∀ b, a = .logWrite b → b ∈ s.log.block → s.log.block.length < LOGBLOCKS

/-- Execute a list of steps. A panic ends the run; a step that is not enabled makes it no run. -/
def LogSys.run : LogSys ι → List (ι × LogAct) → Option (Except Panic (LogSys ι))
  | s, [] => some (.ok s)
  | s, (p, a) :: acts =>
    match s.step p a with
    | some (.ok t) => t.run acts
    | r => r

/-- Every step of the run is roomy. -/
def LogSys.RoomyRun : LogSys ι → List (ι × LogAct) → Prop
  | _, [] => True
  | s, (p, a) :: acts => s.Roomy a ∧ ∀ t, s.step p a = some (.ok t) → t.RoomyRun acts

instance (s : LogSys ι) (a : LogAct) : Decidable (s.Roomy a) :=
  match a with
  | .logWrite b => decidable_of_iff (b ∈ s.log.block → s.log.block.length < LOGBLOCKS)
      ⟨fun h c hc => by cases hc; exact h, fun h => h b rfl⟩
  | .beginOp | .endOp | .commit => isTrue nofun

instance LogSys.decidableRoomyRun : ∀ (acts : List (ι × LogAct)) (s : LogSys ι),
    Decidable (s.RoomyRun acts)
  | [], _ => isTrue trivial
  | (p, a) :: acts, s =>
    have := decidableRoomyRun acts
    match h : s.step p a with
    | some (.ok t) => decidable_of_iff (s.Roomy a ∧ t.RoomyRun acts) (by simp [RoomyRun, h])
    | some (.error _) | none => decidable_of_iff (s.Roomy a) (by simp [RoomyRun, h])

end steps

/-! ## What a process contributes -/

namespace Pc

/-- One for a process inside an operation. -/
def ops : Pc → Int
  | .inOp _ _ => 1
  | _ => 0

/-- The log space that the process may still use. -/
def reserve : Pc → Int
  | .inOp _ added => MAXOPBLOCKS - added
  | _ => 0

/-- One for a process in a commit. -/
def commits : Pc → Int
  | .commit => 1
  | .installTrans _ => 1
  | .committed => 1
  | _ => 0

/-- How many blocks the process has unpinned. -/
def unpinned : Pc → Nat
  | .installTrans tail => tail
  | _ => 0

/-- What the place of a process says about the listed blocks `bs`. -/
def Ok (bs : List Nat) : Pc → Prop
  | .inOp written added =>
    added ≤ written.card ∧ written.card ≤ MAXOPBLOCKS ∧ ∀ b ∈ written, b ∈ bs
  | .installTrans tail => tail ≤ bs.length
  | .committed => bs = []
  | _ => True

end Pc

/-- Moving one process changes a sum over all of them by that process's share. -/
theorem sum_goto [DecidableEq ι] [Fintype ι] {M : Type} [AddCommMonoid M] (f : Pc → M)
    (s : LogSys ι) (p : ι) (x : Pc) :
    ∑ q, f (s.goto p x q) + f (s.pc p) = ∑ q, f (s.pc q) + f x :=
  Lib.sum_update_add (mem_univ p) (fun _ => f) s.pc x

variable {x : Pc}

theorem goto_ok [DecidableEq ι] {s : LogSys ι} {p : ι} {bs : List Nat} (hx : x.Ok bs)
    (h : ∀ q, q ≠ p → (s.pc q).Ok bs) (q : ι) : (s.goto p x q).Ok bs := by
  unfold LogSys.goto
  rcases eq_or_ne q p with hq | hq
  · rw [hq, update_self]
    exact hx
  · rw [update_of_ne hq]
    exact h q hq

/-! ## The invariant -/

section inv

variable [Fintype ι]

namespace LogSys

def ops (s : LogSys ι) : Int := ∑ p, (s.pc p).ops

def reserve (s : LogSys ι) : Int := ∑ p, (s.pc p).reserve

def commits (s : LogSys ι) : Int := ∑ p, (s.pc p).commits

def unpinned (s : LogSys ι) : Nat := ∑ p, (s.pc p).unpinned

end LogSys

structure LogInv (s : LogSys ι) : Prop where
  outstanding : s.log.outstanding = s.ops
  committing : s.commits = if s.log.committing then 1 else 0
  excl : s.log.committing = true → s.ops = 0
  room : s.log.block.length + s.reserve ≤ LOGBLOCKS
  nodup : s.log.block.Nodup
  pc : ∀ p, (s.pc p).Ok s.log.block
  pins : ∀ b, s.pins b = if b ∈ s.log.block.drop s.unpinned then 1 else 0

theorem Pc.ops_nonneg (x : Pc) : 0 ≤ x.ops := by
  cases x <;> simp [Pc.ops]

theorem Pc.commits_nonneg (x : Pc) : 0 ≤ x.commits := by
  cases x <;> simp [Pc.commits]

theorem Pc.unpinned_of_commits (h : x.commits = 0) : x.unpinned = 0 := by
  cases x with
  | installTrans tail => cases h
  | _ => rfl

/-- Outside commits nothing is unpinned yet. -/
theorem LogInv.unpinned_zero {s : LogSys ι} (h : LogInv s) (hc : s.log.committing = false) :
    s.unpinned = 0 := by
  have hsum := h.committing
  rw [hc] at hsum
  have hall := (sum_eq_zero_iff_of_nonneg fun p _ => (s.pc p).commits_nonneg).mp hsum
  exact sum_eq_zero fun p hp => Pc.unpinned_of_commits (hall p hp)

theorem le_sum_pc {s : LogSys ι} (f : Pc → Int) (hf : ∀ q, 0 ≤ f (s.pc q)) (p : ι) :
    f (s.pc p) ≤ ∑ q, f (s.pc q) :=
  single_le_sum (f := fun q => f (s.pc q)) (fun q _ => hf q) (mem_univ p)

/-- While some process is inside an operation, no commit runs. -/
theorem LogInv.not_committing {s : LogSys ι} (h : LogInv s) {p : ι} (hp : (s.pc p).ops = 1) :
    s.log.committing = false := by
  have hle := le_sum_pc Pc.ops (fun q => (s.pc q).ops_nonneg) p
  cases hc : s.log.committing with
  | false => rfl
  | true =>
    have hz := h.excl hc
    unfold LogSys.ops at hz
    omega

theorem LogInv.reserve_nonneg {s : LogSys ι} (h : LogInv s) (p : ι) : 0 ≤ (s.pc p).reserve := by
  cases hp : s.pc p with
  | inOp written added =>
    have hok := h.pc p
    rw [hp] at hok
    obtain ⟨h1, h2, -⟩ := hok
    show (0 : Int) ≤ MAXOPBLOCKS - added
    omega
  | _ => exact le_refl 0

/-- Each operation inside has at most its reservation left. -/
theorem reserve_le_ops (s : LogSys ι) : s.reserve ≤ MAXOPBLOCKS * s.ops := by
  unfold LogSys.reserve LogSys.ops
  rw [mul_sum]
  refine sum_le_sum fun p _ => ?_
  cases s.pc p with
  | inOp written added =>
    show (MAXOPBLOCKS : Int) - added ≤ MAXOPBLOCKS * 1
    omega
  | _ => exact le_refl 0

/-! ## The steps keep the invariant -/

variable {s : LogSys ι} {p : ι}
variable {written : Finset Nat} {added b : Nat}

/-- A full log with an operation inside: the operation has used up its blocks, so whatever it
    logs next is listed already. -/
theorem LogInv.full (h : LogInv s) (hp : s.pc p = .inOp written added)
    (hcard : (insert b written).card ≤ MAXOPBLOCKS) (hfull : LOGBLOCKS ≤ s.log.block.length) :
    b ∈ s.log.block := by
  have hok := h.pc p
  rw [hp] at hok
  obtain ⟨hk, hw, hsub⟩ := hok
  have hle := le_sum_pc Pc.reserve (fun q => h.reserve_nonneg q) p
  rw [hp] at hle
  replace hle : (MAXOPBLOCKS : Int) - added ≤ s.reserve := hle
  have hroom := h.room
  refine hsub b ?_
  by_contra hb
  rw [card_insert_of_notMem hb] at hcard
  omega

theorem LogInv.init (start : Nat) : LogInv (LogSys.init start : LogSys ι) := by
  have hops : (LogSys.init start : LogSys ι).ops = 0 := sum_eq_zero fun _ _ => rfl
  have hres : (LogSys.init start : LogSys ι).reserve = 0 := sum_eq_zero fun _ _ => rfl
  have hcm : (LogSys.init start : LogSys ι).commits = 0 := sum_eq_zero fun _ _ => rfl
  constructor
  · rw [hops]; rfl
  · rw [hcm]; rfl
  · intro _
    exact hops
  · rw [hres]
    show ((0 : Nat) : Int) + 0 ≤ LOGBLOCKS
    decide
  · exact List.nodup_nil
  · intro p
    trivial
  · intro b
    show 0 = if b ∈ ([] : List Nat).drop _ then 1 else 0
    rw [List.drop_nil, if_neg List.not_mem_nil]

theorem LogInv.quiet (h : LogInv s) (hct : s.log.committing = true) : s.log.outstanding = 0 :=
  h.outstanding.trans (h.excl hct)

variable [DecidableEq ι]

/-- The sums after process `p` went from `x` to `y`. -/
theorem sums_goto {t : LogSys ι} {y : Pc} (hx : s.pc p = x) (ht : t.pc = s.goto p y) :
    t.ops + x.ops = s.ops + y.ops ∧ t.reserve + x.reserve = s.reserve + y.reserve ∧
      t.commits + x.commits = s.commits + y.commits ∧
      t.unpinned + x.unpinned = s.unpinned + y.unpinned := by
  unfold LogSys.ops LogSys.reserve LogSys.commits LogSys.unpinned
  rw [ht, ← hx]
  exact ⟨sum_goto Pc.ops s p y, sum_goto Pc.reserve s p y, sum_goto Pc.commits s p y,
    sum_goto Pc.unpinned s p y⟩

/-- Process `p` goes from `x` to `y`, and the log follows its share. -/
theorem LogInv.move {t : LogSys ι} {y : Pc} (h : LogInv s) (hp : s.pc p = x) (ht : t.pc = s.goto p y)
    (ho : t.log.outstanding + x.ops = s.log.outstanding + y.ops)
    (hc : (if t.log.committing then 1 else 0) + x.commits =
      (if s.log.committing then 1 else 0) + y.commits)
    (hexcl : t.log.committing = true → t.log.outstanding = 0)
    (hroom : t.log.block.length + s.reserve + y.reserve ≤ LOGBLOCKS + x.reserve)
    (hnodup : t.log.block.Nodup) (hok : y.Ok t.log.block)
    (hothers : ∀ q, q ≠ p → (s.pc q).Ok t.log.block)
    (hpins : ∀ b, t.pins b =
      if b ∈ t.log.block.drop (s.unpinned + y.unpinned - x.unpinned) then 1 else 0) : LogInv t := by
  obtain ⟨ho', hr', hc', hu'⟩ := sums_goto hp ht
  rw [h.committing] at hc'
  rw [h.outstanding] at ho
  rw [← hu', Nat.add_sub_cancel] at hpins
  have hops := add_right_cancel (ho.trans ho'.symm)
  refine ⟨hops, add_right_cancel (hc'.trans hc.symm), ?_, by omega, hnodup, ?_, hpins⟩
  · exact fun hct => hops.symm.trans (hexcl hct)
  · rw [ht]
    exact goto_ok hok hothers

theorem LogInv.beginOp (h : LogInv s) (hp : s.pc p = .idle) (ha : s.log.admits) :
    LogInv { s with log := s.log.beginOp, pc := s.goto p (.inOp ∅ 0) } := by
  obtain ⟨hnc, hroom⟩ := ha
  have hle := reserve_le_ops s
  rw [h.outstanding] at hroom
  refine h.move hp rfl (add_zero _) rfl ?_ ?_ h.nodup
    ⟨Nat.le_refl 0, Nat.zero_le _, fun b hb => absurd hb (notMem_empty b)⟩ (fun q _ => h.pc q) h.pins
  · intro hct
    rw [show s.log.beginOp.committing = s.log.committing from rfl, hnc] at hct
    cases hct
  · show (s.log.block.length : Int) + s.reserve + (MAXOPBLOCKS - (0 : Nat)) ≤ LOGBLOCKS + 0
    push_cast at hroom hle ⊢
    omega

/-- Absorption: the log does not change. -/
theorem LogInv.absorb (h : LogInv s) (hp : s.pc p = .inOp written added)
    (hcard : (insert b written).card ≤ MAXOPBLOCKS) (hb : b ∈ s.log.block) :
    LogInv { s with pc := s.goto p (.inOp (insert b written) added) } := by
  have hok := h.pc p
  rw [hp] at hok
  obtain ⟨hk, -, hsub⟩ := hok
  refine h.move hp rfl rfl rfl h.quiet (Int.add_le_add_right h.room _) h.nodup ⟨?_, hcard, ?_⟩
    (fun q _ => h.pc q) h.pins
  · exact hk.trans (card_le_card (subset_insert b written))
  · intro c hc
    rcases mem_insert.mp hc with hc | hc
    · rw [hc]; exact hb
    · exact hsub c hc

theorem Pc.Ok.mono {bs : List Nat} (h : x.Ok bs) (hx : x.commits = 0) : x.Ok (bs ++ [b]) := by
  cases x with
  | inOp written added =>
    exact ⟨h.1, h.2.1, fun c hc => List.mem_append_left [b] (h.2.2 c hc)⟩
  | idle => trivial
  | commit => trivial
  | installTrans | committed => cases hx

/-- A block that is new in the log: it takes one of the operation's reserved places, and its
    buffer gets its pin. -/
theorem LogInv.append (h : LogInv s) (hp : s.pc p = .inOp written added)
    (hcard : (insert b written).card ≤ MAXOPBLOCKS) (hb : b ∉ s.log.block) :
    LogInv ⟨{ s.log with block := s.log.block ++ [b] }, update s.pins b (s.pins b + 1),
      s.goto p (.inOp (insert b written) (added + 1))⟩ := by
  have hncm : s.log.committing = false := h.not_committing (by rw [hp]; rfl)
  have hok := h.pc p
  rw [hp] at hok
  obtain ⟨hk, -, hsub⟩ := hok
  have hbw : b ∉ written := fun hbw => hb (hsub b hbw)
  refine h.move hp rfl rfl rfl h.quiet ?_ ?_ ⟨?_, hcard, ?_⟩ (fun q _ => (h.pc q).mono ?_) ?_
  · have hroom := h.room
    simp only [Pc.reserve]
    rw [List.length_append, List.length_singleton]
    push_cast at hroom ⊢
    omega
  · rw [List.nodup_append]
    refine ⟨h.nodup, List.nodup_singleton b, ?_⟩
    intro c hc d hd hcd
    rw [List.mem_singleton.mp hd] at hcd
    exact hb (hcd ▸ hc)
  · rw [card_insert_of_notMem hbw]
    exact Nat.succ_le_succ hk
  · intro c hc
    rcases mem_insert.mp hc with hc | hc
    · rw [hc]; exact List.mem_append_right _ (List.mem_singleton_self b)
    · exact List.mem_append_left _ (hsub c hc)
  · have hz := h.committing
    rw [hncm] at hz
    exact (sum_eq_zero_iff_of_nonneg fun r _ => (s.pc r).commits_nonneg).mp hz q (mem_univ q)
  · intro c
    have hzero := h.unpinned_zero hncm
    have hpins := h.pins c
    rw [hzero, List.drop_zero] at hpins
    rw [hzero]
    show update s.pins b (s.pins b + 1) c = if c ∈ s.log.block ++ [b] then 1 else 0
    rcases eq_or_ne c b with hcb | hcb
    · rw [hcb] at hpins ⊢
      rw [update_self, hpins, if_neg hb, if_pos (by simp)]
    · rw [update_of_ne hcb, hpins]
      refine if_congr ?_ rfl rfl
      simp [hcb]

/-- The end of an operation that leaves others outstanding. -/
theorem LogInv.endOp (h : LogInv s) (hp : s.pc p = .inOp written added) :
    LogInv { s with
      log := { s.log with outstanding := s.log.outstanding - 1 }, pc := s.goto p .idle } := by
  have hres := h.reserve_nonneg p
  rw [hp] at hres
  have hncm : s.log.committing = false := h.not_committing (by rw [hp]; rfl)
  refine h.move hp rfl ((sub_add_cancel _ _).trans (add_zero _).symm) rfl ?_
    (add_le_add h.room hres) h.nodup trivial (fun q _ => h.pc q) h.pins
  intro hct
  rw [hncm] at hct
  cases hct

/-- The end of the last outstanding operation, which starts a commit. -/
theorem LogInv.endOp_commit (h : LogInv s) (hp : s.pc p = .inOp written added)
    (hone : s.log.outstanding = 1) :
    LogInv { s with
      log := { s.log with outstanding := 0, committing := true }, pc := s.goto p .commit } := by
  have hres := h.reserve_nonneg p
  rw [hp] at hres
  have hncm : s.log.committing = false := h.not_committing (by rw [hp]; rfl)
  refine h.move hp rfl ?_ ?_ (fun _ => rfl) (add_le_add h.room hres) h.nodup trivial
    (fun q _ => h.pc q) h.pins
  · rw [hone]
    rfl
  · rw [hncm]
    rfl

/-- A committing process is the only one that is not idle. -/
theorem LogInv.alone (h : LogInv s) (hp : (s.pc p).commits = 1) :
    s.log.committing = true ∧ ∀ q, q ≠ p → s.pc q = .idle := by
  have hsum := h.committing
  have hle := le_sum_pc Pc.commits (fun q => (s.pc q).commits_nonneg) p
  have hcm : s.log.committing = true := by
    cases hc : s.log.committing with
    | true => rfl
    | false =>
      rw [hc, if_neg (by simp)] at hsum
      unfold LogSys.commits at hsum
      omega
  refine ⟨hcm, ?_⟩
  intro q hq
  have hops := h.excl hcm
  have hq0 : (s.pc q).ops = 0 :=
    (sum_eq_zero_iff_of_nonneg fun r _ => (s.pc r).ops_nonneg).mp hops q (mem_univ q)
  have hq1 : (s.pc q).commits = 0 := by
    have hpair : (s.pc p).commits + (s.pc q).commits ≤ s.commits := by
      unfold LogSys.commits
      rw [← add_sum_erase univ (fun r => (s.pc r).commits) (mem_univ p)]
      have := single_le_sum
        (fun r _ => (s.pc r).commits_nonneg) (mem_erase.mpr ⟨hq, mem_univ q⟩)
      omega
    have := (s.pc q).commits_nonneg
    omega
  cases hx : s.pc q with
  | idle => rfl
  | inOp written added => rw [hx] at hq0; cases hq0
  | commit | installTrans | committed => rw [hx] at hq1; cases hq1

/-- The pins during a commit: the blocks from the committing process's `tail` on. -/
theorem LogInv.unpinned_eq (h : LogInv s) (hp : (s.pc p).commits = 1) :
    s.unpinned = (s.pc p).unpinned := by
  refine sum_eq_single p ?_ (fun hn => absurd (mem_univ p) hn)
  intro q _ hq
  rw [(h.alone hp).2 q hq]
  rfl

/-- A step of the committing process that leaves the header alone. -/
theorem LogInv.commit_move (h : LogInv s) {y : Pc} {pins : Nat → Nat} (hp : s.pc p = x)
    (hx : x.commits = 1) (hy : y.commits = 1) (hr : x.reserve = y.reserve) (ho : x.ops = y.ops)
    (hok : y.Ok s.log.block)
    (hpins : ∀ b, pins b = if b ∈ s.log.block.drop y.unpinned then 1 else 0) :
    LogInv ⟨s.log, pins, s.goto p y⟩ := by
  refine h.move hp rfl (by rw [ho]) (by rw [hx, hy]) h.quiet ?_ h.nodup hok (fun q _ => h.pc q) ?_
  · rw [hr]
    exact Int.add_le_add_right h.room _
  · rw [h.unpinned_eq (by rw [hp]; exact hx), hp, Nat.add_sub_cancel_left]
    exact hpins

theorem LogInv.clear (h : LogInv s) {tail : Nat} (hp : s.pc p = .installTrans tail)
    (ht : s.log.block.length ≤ tail) :
    LogInv { s with log := { s.log with block := [] }, pc := s.goto p .committed } := by
  have hcp : (s.pc p).commits = 1 := by rw [hp]; rfl
  refine h.move hp rfl rfl rfl h.quiet ?_ List.nodup_nil rfl (fun q hq => ?_) fun b => ?_
  · have hroom := h.room
    show ((0 : Nat) : Int) + s.reserve + 0 ≤ LOGBLOCKS + 0
    omega
  · rw [(h.alone hcp).2 q hq]
    trivial
  · have hpins := h.pins b
    rw [h.unpinned_eq hcp, hp] at hpins
    -- every listed block has been unpinned
    have hnil : s.log.block.drop tail = [] := List.drop_eq_nil_of_le ht
    rw [show (Pc.installTrans tail).unpinned = tail from rfl, hnil]
      at hpins
    rw [hpins, List.drop_nil]

theorem LogInv.finish (h : LogInv s) (hp : s.pc p = .committed) :
    LogInv { s with log := { s.log with committing := false }, pc := s.goto p .idle } := by
  refine h.move hp rfl rfl ?_ (by simp) (Int.add_le_add_right h.room _) h.nodup trivial
    (fun q _ => h.pc q) h.pins
  rw [(h.alone (by rw [hp]; rfl)).1]
  rfl

/-- The unpinned block leaves the list of pinned ones. -/
theorem LogInv.unpin (h : LogInv s) {tail : Nat} (hp : s.pc p = .installTrans tail)
    (ht : tail < s.log.block.length) :
    LogInv ⟨s.log, update s.pins (s.log.block.getD tail 0)
      (s.pins (s.log.block.getD tail 0) - 1), s.goto p (.installTrans (tail + 1))⟩ := by
  have hcp : (s.pc p).commits = 1 := by rw [hp]; rfl
  refine h.commit_move hp rfl rfl rfl rfl ht ?_
  intro c
  have hpins := h.pins
  rw [h.unpinned_eq hcp, hp] at hpins
  replace hpins : ∀ b, s.pins b = if b ∈ s.log.block.drop tail then 1 else 0 := hpins
  have hget : s.log.block.getD tail 0 = s.log.block[tail] := by
    rw [List.getD_eq_getElem?_getD, List.getElem?_eq_getElem ht, Option.getD_some]
  have hcons := List.drop_eq_getElem_cons ht
  rw [hget]
  have hnd : (s.log.block.drop tail).Nodup := h.nodup.sublist (List.drop_sublist _ _)
  rw [hcons] at hnd hpins
  have hnot := (List.nodup_cons.mp hnd).1
  show update s.pins _ _ c = if c ∈ s.log.block.drop (tail + 1) then 1 else 0
  rcases eq_or_ne c s.log.block[tail] with hcb | hcb
  · rw [hcb, update_self, hpins, if_pos List.mem_cons_self, if_neg hnot]
  · rw [update_of_ne hcb, hpins]
    refine if_congr ?_ rfl rfl
    rw [List.mem_cons]
    exact ⟨fun hm => hm.resolve_left hcb, Or.inr⟩

theorem LogInv.step (h : LogInv s) {a : LogAct} {t : LogSys ι}
    (ht : s.step p a = some (.ok t)) : LogInv t := by
  unfold LogSys.step at ht
  split at ht
  · rename_i hp
    obtain ⟨ha, ⟨⟩⟩ := Option.ite_none_right_eq_some.mp ht
    exact h.beginOp hp ha
  · rename_i written added b hp
    obtain ⟨hcard, ht⟩ := Option.ite_none_right_eq_some.mp ht
    split at ht
    · cases ht
    · rename_i l new hw
      obtain ⟨-, hcase⟩ := Log.write_cases hw
      rcases hcase with ⟨hb, rfl, rfl⟩ | ⟨hb, rfl, rfl⟩
      · cases ht
        exact h.absorb hp hcard hb
      · cases ht
        exact h.append hp hcard hb
  · rename_i written added hp
    split at ht
    · cases ht
    · rename_i l doCommit he
      rcases Log.endOp_cases he with ⟨hone, rfl, rfl⟩ | ⟨-, rfl, rfl⟩
      · cases ht
        exact h.endOp_commit hp hone
      · cases ht
        exact h.endOp hp
  · rename_i hp
    have hcp : (s.pc p).commits = 1 := by rw [hp]; rfl
    have hpins := h.pins
    rw [h.unpinned_eq hcp, hp] at hpins
    cases ht
    split
    · exact h.commit_move hp rfl rfl rfl rfl (Nat.zero_le _) hpins
    · exact h.commit_move hp rfl rfl rfl rfl (List.length_eq_zero_iff.mp (by omega)) hpins
  · rename_i tail hp
    split at ht
    · rename_i htail
      cases ht
      exact h.unpin hp htail
    · cases ht
      exact h.clear hp (by omega)
  · rename_i hp
    cases ht
    exact h.finish hp
  · cases ht

theorem LogInv.no_panic (h : LogInv s) {a : LogAct} (ha : s.Roomy a) (m : Panic) :
    s.step p a ≠ some (.error m) := by
  intro hm
  unfold LogSys.step at hm
  split at hm
  · split at hm <;> cases hm
  · rename_i written added b hp
    have hops := le_sum_pc Pc.ops (fun q => (s.pc q).ops_nonneg) p
    rw [hp] at hops
    replace hops : (1 : Int) ≤ s.ops := hops
    obtain ⟨hcard, hm⟩ := Option.ite_none_right_eq_some.mp hm
    have hlen : ¬ s.log.block.length ≥ LOGBLOCKS := by
      intro hfull
      have := ha b rfl (h.full hp hcard hfull)
      omega
    have hout : ¬ s.log.outstanding < 1 := by
      rw [h.outstanding]
      omega
    split at hm
    · rename_i m' hw
      unfold Log.write at hw
      rw [if_neg hlen, if_neg hout] at hw
      split at hw <;> cases hw
    · cases hm
  · rename_i written added hp
    split at hm
    · rename_i m' he
      have hncm : s.log.committing = false := h.not_committing (by rw [hp]; rfl)
      unfold Log.endOp at he
      rw [hncm, if_neg (by simp)] at he
      split at he <;> cases he
    · cases hm
  · cases hm
  · split at hm <;> cases hm
  · cases hm
  · cases hm

/-! ## All runs -/

/-- What admission and group commit promise in a state. -/
structure AdmissionSafe (s : LogSys ι) : Prop where
  /-- What is logged and what may still be logged fits. -/
  reserved : s.log.block.length + ∑ p, (s.pc p).reserve ≤ LOGBLOCKS
  nodup : s.log.block.Nodup
  /-- A listed block is pinned once, until `install_trans` unpins it; no other block is. -/
  pinned : ∀ b, s.pins b = if b ∈ s.log.block.drop s.unpinned then 1 else 0
  /-- After a commit no pin is left. -/
  clean : ∀ p, s.pc p = .committed → ∀ b, s.pins b = 0
  /-- A commit runs while nothing is outstanding, alone, and nothing is admitted during it. -/
  exclusive : ∀ p, (s.pc p).commits = 1 →
    s.log.outstanding = 0 ∧ (∀ q, q ≠ p → s.pc q = .idle) ∧ ¬ s.log.admits

theorem LogInv.safe (h : LogInv s) : AdmissionSafe s := by
  refine ⟨h.room, h.nodup, h.pins, ?_, ?_⟩
  · intro p hp b
    have hok := h.pc p
    rw [hp] at hok
    rw [h.pins b, show s.log.block = [] from hok, List.drop_nil, if_neg List.not_mem_nil]
  · intro p hp
    obtain ⟨hcm, hidle⟩ := h.alone hp
    refine ⟨by rw [h.outstanding, h.excl hcm], hidle, ?_⟩
    intro ha
    rw [ha.1] at hcm
    cases hcm

theorem LogInv.run (acts : List (ι × LogAct)) :
    ∀ {s : LogSys ι}, LogInv s → s.RoomyRun acts →
      (∀ t, s.run acts = some (.ok t) → LogInv t) ∧ ∀ m, s.run acts ≠ some (.error m) := by
  induction acts with
  | nil =>
    intro s h _
    refine ⟨?_, ?_⟩
    · intro t ht
      cases ht
      exact h
    · intro m hm
      cases hm
  | cons act acts ih =>
    intro s h hroomy
    obtain ⟨p, a⟩ := act
    obtain ⟨ha, hrest⟩ := hroomy
    unfold LogSys.run
    cases hs : s.step p a with
    | none =>
      refine ⟨?_, ?_⟩
      · intro t ht
        cases ht
      · intro m hm
        cases hm
    | some r =>
      cases r with
      | error m' => exact absurd hs (h.no_panic ha m')
      | ok t => exact ih (h.step hs) (hrest t hs)

/-- In every run without a `log_write` of a listed block into a full log, every state is safe and
    nothing panics. -/
theorem log_admission (start : Nat) (acts : List (ι × LogAct))
    (h : (LogSys.init start : LogSys ι).RoomyRun acts) :
    (∀ s, (LogSys.init start : LogSys ι).run acts = some (.ok s) → AdmissionSafe s) ∧
      ∀ m, (LogSys.init start : LogSys ι).run acts ≠ some (.error m) := by
  obtain ⟨hok, hno⟩ := LogInv.run acts (LogInv.init start) h
  exact ⟨fun s hs => (hok s hs).safe, hno⟩

end inv

/-- Three processes log ten blocks each, and the first one logs its first block again. -/
def fullLogRun : List (Fin 3 × LogAct) :=
  [(0, .beginOp), (1, .beginOp), (2, .beginOp)] ++
    (List.range 30).map (fun b => (Fin.ofNat 3 b, .logWrite (100 + b))) ++ [(0, .logWrite 100)]

/-- No operation logs more than ten distinct blocks, and yet `log_write` panics. -/
theorem logWrite_full_log_panics :
    (LogSys.init 2 : LogSys (Fin 3)).run fullLogRun = some (.error .tooBigATransaction) := by
  rfl

/-- Two operations, one of which logs a block of the other again; the second one to end commits
    both, and has unpinned one of the two blocks. -/
def groupCommitRun : List (Fin 2 × LogAct) :=
  [(0, .beginOp), (1, .beginOp), (0, .logWrite 100), (1, .logWrite 101), (1, .logWrite 100),
    (0, .endOp), (1, .endOp), (1, .commit), (1, .commit)]

theorem log_admission_two : ∃ s, (LogSys.init 2).run groupCommitRun = some (.ok s) ∧
    s.log.block = [100, 101] ∧ s.pc 1 = .installTrans 1 ∧ AdmissionSafe s :=
  ⟨_, rfl, rfl, rfl, (log_admission 2 groupCommitRun (by decide)).1 _ rfl⟩

end Xv6
