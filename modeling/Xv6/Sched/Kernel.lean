/-
  The parts of the kernel that sleep: sleep locks (`kernel/sleeplock.c`), admission to the log
  (`kernel/log.c`), pipes (`kernel/pipe.c`), `consoleread` (`kernel/console.c`) and `sys_pause`
  (`kernel/sysproc.c`), as a client of the scheduler.

  Every function is a call of its own, which a process may make at any time.  The commit in `end_op`
  runs without locks and uses the buffer cache, so it is cut into calls that only the committing
  process can make: `committer` remembers who that is.

  `accepted`, `handed`, `start` and `calls` record what has gone through a pipe; no test reads them.  A
  point of `pipewrite` remembers whether the call has copied a byte since it last woke the readers.
-/
import Xv6.Lib.Ring
import Xv6.Log.Model
import Xv6.Sched.Monitor

namespace Xv6.Sched

open Lib Function

/-! ## Data -/

abbrev PIPESIZE : Nat := 512

abbrev INPUT_BUF_SIZE : Nat := 128

/-- The spin locks: `lk->lk` of a sleep lock, `log.lock`, `pi->lock`, `cons.lock`, `tickslock`. -/
inductive KLock where
  | sleeplock (k : Nat)
  | log
  | pipe (k : Nat)
  | cons
  | ticks
  deriving DecidableEq

/-- The channels: `lk`, `&log`, `&pi->nread`, `&pi->nwrite`, `&cons.r`, `&ticks`. -/
inductive KChan where
  | sleeplock (k : Nat)
  | log
  | nread (k : Nat)
  | nwrite (k : Nat)
  | cons
  | ticks
  deriving DecidableEq

/-- `struct pipe`. -/
structure Pipe where
  data : Fin PIPESIZE → BitVec 8
  nread : BitVec 32
  nwrite : BitVec 32
  readopen : Bool
  writeopen : Bool
  /-- The bytes that `pipewrite` has accepted. -/
  accepted : List (BitVec 8)
  /-- The bytes that `piperead` has handed out. -/
  handed : List (BitVec 8)
  /-- How many that were when the last `piperead` began to copy. -/
  start : Nat
  /-- What the calls of `piperead` have handed out and returned. -/
  calls : List (List (BitVec 8) × Int)

namespace Pipe

def full (pi : Pipe) : Prop := pi.nwrite = pi.nread + BitVec.ofNat 32 PIPESIZE

instance (pi : Pipe) : Decidable pi.full := inferInstanceAs (Decidable (_ = _))

def put (pi : Pipe) (ch : BitVec 8) : Pipe :=
  { pi with
    data := update pi.data (Ring.slot PIPESIZE pi.nwrite) ch
    nwrite := pi.nwrite + 1
    accepted := pi.accepted ++ [ch] }

def take (pi : Pipe) : Pipe :=
  { pi with
    nread := pi.nread + 1
    handed := pi.handed ++ [pi.data (Ring.slot PIPESIZE pi.nread)] }

def begin (pi : Pipe) : Pipe := { pi with start := pi.handed.length }

def finish (pi : Pipe) (ret : Int) : Pipe :=
  { pi with calls := (pi.handed.drop pi.start, ret) :: pi.calls }

/-- What `pipealloc` makes of a page. -/
def alloc : Pipe := ⟨fun _ => 0, 0, 0, true, true, [], [], 0, []⟩

end Pipe

/-- `cons`. -/
structure Cons where
  buf : Fin INPUT_BUF_SIZE → BitVec 8
  r : BitVec 32
  w : BitVec 32
  e : BitVec 32

namespace Cons

/-- The loop of `C('U')`, at most `fuel` times. -/
def killLine : Nat → Cons → Cons
  | 0, cons => cons
  | fuel + 1, cons =>
    if cons.e ≠ cons.w ∧ cons.buf (Ring.slot INPUT_BUF_SIZE (cons.e - 1)) ≠ 10 then
      killLine fuel { cons with e := cons.e - 1 }
    else cons

/-- `consoleintr`, apart from the echo and the wakeup. -/
def intr (c : BitVec 8) (cons : Cons) : Cons :=
  -- C('P')
  if c = 16 then cons
  -- C('U')
  else if c = 21 then cons.killLine (cons.e - cons.w).toNat
  -- C('H') and the delete key
  else if c = 8 ∨ c = 127 then if cons.e ≠ cons.w then { cons with e := cons.e - 1 } else cons
  else if c ≠ 0 ∧ (cons.e - cons.r).toNat < INPUT_BUF_SIZE then
    let c := if c = 13 then 10 else c
    let cons :=
      { cons with buf := update cons.buf (Ring.slot INPUT_BUF_SIZE cons.e) c, e := cons.e + 1 }
    if c = 10 ∨ c = 4 ∨ (cons.e - cons.r).toNat = INPUT_BUF_SIZE then { cons with w := cons.e }
    else cons
  else cons

end Cons

/-- What the functions share. `locked` are the sleep locks. -/
structure KData where
  locked : Nat → Bool
  log : Log
  committer : Option Nat
  pipe : Nat → Pipe
  cons : Cons
  ticks : BitVec 32

def KData.setPipe (d : KData) (k : Nat) (pi : Pipe) : KData :=
  { d with pipe := update d.pipe k pi }

def KData.setLocked (d : KData) (k : Nat) (x : Bool) : KData :=
  { d with locked := update d.locked k x }

/-- After booting: nothing is locked, the log is empty. The pipes are those that will be allocated. -/
def KData.init (start : Nat) : KData where
  locked := fun _ => false
  log := ⟨start, 0, false, []⟩
  committer := none
  pipe := fun _ => .alloc
  cons := ⟨fun _ => 0, 0, 0, 0⟩
  ticks := 0

/-- The result of a user copy with the byte copied in, and the causes of interrupts. -/
inductive KIn where
  | copy (ok : Bool) (ch : BitVec 8)
  | key (c : BitVec 8)
  | clock

/-! ## Program points -/

inductive LoopPt where
  | acquire
  | test
  | sleep
  | release

inductive WakePt where
  | acquire
  | set
  | wakeup
  | release

inductive PipewritePt where
  | acquire
  | top (i : Nat) (dirty : Bool)
  | killed (i : Nat) (dirty : Bool)
  | copy (i : Nat) (dirty : Bool)
  | wakeFull (i : Nat)
  | sleep (i : Nat)
  | wakeEnd (i : Nat)
  | release (ret : Int)

inductive PipereadPt where
  | acquire
  | test
  | killed
  | sleep
  | copy (i : Nat)
  | wakeup (ret : Int)
  | release (ret : Int)

inductive ConsolereadPt where
  | acquire
  | test (n : Int)
  | killed (n : Int)
  | sleep (n : Int)
  | take (n : Int)
  | release (ret : Int)

inductive PausePt where
  | acquire
  | start
  | test (ticks0 : BitVec 32)
  | killed (ticks0 : BitVec 32)
  | sleep (ticks0 : BitVec 32)
  | release (ret : Int)

inductive KPt where
  | acquiresleep (k : Nat) (pt : LoopPt)
  | releasesleep (k : Nat) (pt : WakePt)
  | beginOp (pt : LoopPt)
  | logWrite (b : Nat) (pt : WakePt)
  | endOp (pt : WakePt)
  /-- `log.lh.n = 0` in `commit`. -/
  | commit
  /-- What follows `commit` in `end_op`. -/
  | endCommit (pt : WakePt)
  | pipewrite (k : Nat) (n : Int) (pt : PipewritePt)
  | piperead (k : Nat) (n : Int) (pt : PipereadPt)
  | pipeclose (k : Nat) (writable : Bool) (pt : WakePt)
  | consoleread (target : Int) (pt : ConsolereadPt)
  | pause (n : Int) (pt : PausePt)
  | ret

/-! ## Code -/

abbrev KInstr : Type := Instr KLock KChan KData KIn KPt

/-- An access that needs nothing from outside. -/
def update (f : Nat → KData → Option (KData × KPt)) : KInstr := .access fun me _ d => f me d

/-- A test of the data. -/
def test (f : KData → KPt) : KInstr := update fun _ d => some (d, f d)

def acquiresleep (k : Nat) : LoopPt → KInstr
  | .acquire => .acquire (.sleeplock k) (.acquiresleep k .test)
  | .test => update fun _ d =>
    if d.locked k then some (d, .acquiresleep k .sleep)
    else some (d.setLocked k true, .acquiresleep k .release)
  | .sleep => .sleep (.sleeplock k) (.sleeplock k) (.acquiresleep k .test)
  | .release => .release (.sleeplock k) .ret

def releasesleep (k : Nat) : WakePt → KInstr
  | .acquire => .acquire (.sleeplock k) (.releasesleep k .set)
  | .set => update fun _ d => some (d.setLocked k false, .releasesleep k .wakeup)
  | .wakeup => .wakeup (.sleeplock k) (.releasesleep k .release)
  | .release => .release (.sleeplock k) .ret

def beginOp : LoopPt → KInstr
  | .acquire => .acquire .log (.beginOp .test)
  | .test => update fun _ d =>
    if d.log.admits then some ({ d with log := d.log.beginOp }, .beginOp .release)
    else some (d, .beginOp .sleep)
  | .sleep => .sleep .log .log (.beginOp .test)
  | .release => .release .log .ret

def logWrite (b : Nat) : WakePt → KInstr
  | .acquire => .acquire .log (.logWrite b .set)
  | .set => update fun _ d =>
    match d.log.write b with
    | .ok (l, _) => some ({ d with log := l }, .logWrite b .release)
    | .error _ => none
  | _ => .release .log .ret

def endOp : WakePt → KInstr
  | .acquire => .acquire .log (.endOp .set)
  | .set => update fun me d =>
    match d.log.endOp with
    | .ok (l, true) => some ({ d with log := l, committer := some me }, .endOp .release)
    | .ok (l, false) => some ({ d with log := l }, .endOp .wakeup)
    | .error _ => none
  | .wakeup => .wakeup .log (.endOp .release)
  | .release => .release .log .ret

def endCommit : WakePt → KInstr
  | .acquire => .acquire .log (.endCommit .set)
  | .set => update fun me d =>
    if d.committer = some me then
      some ({ d with log := { d.log with committing := false }, committer := none },
        .endCommit .wakeup)
    else none
  | .wakeup => .wakeup .log (.endCommit .release)
  | .release => .release .log .ret

def pipewrite (k : Nat) (n : Int) : PipewritePt → KInstr
  | .acquire => .acquire (.pipe k) (.pipewrite k n (.top 0 false))
  | .top i dirty => test fun d =>
    if i < n then
      if (d.pipe k).readopen = false then .pipewrite k n (.release (-1))
      else .pipewrite k n (.killed i dirty)
    else .pipewrite k n (.wakeEnd i)
  | .killed i dirty => .killed fun b =>
    if b then .pipewrite k n (.release (-1)) else .pipewrite k n (.copy i dirty)
  | .copy i _ => .access fun _ x d =>
    if (d.pipe k).full then some (d, .pipewrite k n (.wakeFull i))
    else
      match x with
      | .copy true ch => some (d.setPipe k ((d.pipe k).put ch), .pipewrite k n (.top (i + 1) true))
      | .copy false _ => some (d, .pipewrite k n (.wakeEnd i))
      | _ => none
  | .wakeFull i => .wakeup (.nread k) (.pipewrite k n (.sleep i))
  | .sleep i => .sleep (.nwrite k) (.pipe k) (.pipewrite k n (.top i false))
  | .wakeEnd i => .wakeup (.nread k) (.pipewrite k n (.release i))
  | .release _ => .release (.pipe k) .ret

def piperead (k : Nat) (n : Int) : PipereadPt → KInstr
  | .acquire => .acquire (.pipe k) (.piperead k n .test)
  | .test => update fun _ d =>
    if (d.pipe k).nread = (d.pipe k).nwrite ∧ (d.pipe k).writeopen = true then
      some (d, .piperead k n .killed)
    else some (d.setPipe k (d.pipe k).begin, .piperead k n (.copy 0))
  | .killed => .killed fun b =>
    if b then .piperead k n (.release (-1)) else .piperead k n .sleep
  | .sleep => .sleep (.nread k) (.pipe k) (.piperead k n .test)
  | .copy i => .access fun _ x d =>
    if i < n ∧ (d.pipe k).nread ≠ (d.pipe k).nwrite then
      match x with
      | .copy true _ => some (d.setPipe k (d.pipe k).take, .piperead k n (.copy (i + 1)))
      | .copy false _ =>
        let ret : Int := if i = 0 then -1 else i
        some (d.setPipe k ((d.pipe k).finish ret), .piperead k n (.wakeup ret))
      | _ => none
    else some (d.setPipe k ((d.pipe k).finish i), .piperead k n (.wakeup i))
  | .wakeup ret => .wakeup (.nwrite k) (.piperead k n (.release ret))
  | .release _ => .release (.pipe k) .ret

def pipeclose (k : Nat) (writable : Bool) : WakePt → KInstr
  | .acquire => .acquire (.pipe k) (.pipeclose k writable .set)
  | .set => update fun _ d =>
    some (d.setPipe k
        (if writable then { d.pipe k with writeopen := false }
        else { d.pipe k with readopen := false }),
      .pipeclose k writable .wakeup)
  | .wakeup => .wakeup (if writable then .nread k else .nwrite k) (.pipeclose k writable .release)
  | .release => .release (.pipe k) .ret

def consoleread (target : Int) : ConsolereadPt → KInstr
  | .acquire => .acquire .cons (.consoleread target (.test target))
  | .test n => test fun d =>
    if n > 0 then
      if d.cons.r = d.cons.w then .consoleread target (.killed n) else .consoleread target (.take n)
    else .consoleread target (.release (target - n))
  | .killed n => .killed fun b =>
    if b then .consoleread target (.release (-1)) else .consoleread target (.sleep n)
  | .sleep n => .sleep .cons .cons (.consoleread target (.test n))
  | .take n => .access fun _ x d =>
    let c := d.cons.buf (Ring.slot INPUT_BUF_SIZE d.cons.r)
    let d' := { d with cons := { d.cons with r := d.cons.r + 1 } }
    -- C('D')
    if c = 4 then
      some (if n < target then d else d', .consoleread target (.release (target - n)))
    else
      match x with
      | .copy true _ =>
        some (d', if c = 10 then .consoleread target (.release (target - (n - 1)))
          else .consoleread target (.test (n - 1)))
      | .copy false _ => some (d', .consoleread target (.release (target - n)))
      | _ => none
  | .release _ => .release .cons .ret

def pause (n : Int) : PausePt → KInstr
  | .acquire => .acquire .ticks (.pause n .start)
  | .start => test fun d => .pause n (.test d.ticks)
  | .test ticks0 => test fun d =>
    if ((d.ticks - ticks0).toNat : Int) < max n 0 then .pause n (.killed ticks0)
    else .pause n (.release 0)
  | .killed ticks0 => .killed fun b =>
    if b then .pause n (.release (-1)) else .pause n (.sleep ticks0)
  | .sleep ticks0 => .sleep .ticks .ticks (.pause n (.test ticks0))
  | .release _ => .release .ticks .ret

def kernelCode : KPt → KInstr
  | .acquiresleep k pt => acquiresleep k pt
  | .releasesleep k pt => releasesleep k pt
  | .beginOp pt => beginOp pt
  | .logWrite b pt => logWrite b pt
  | .endOp pt => endOp pt
  | .commit => update fun me d =>
    if d.committer = some me then some ({ d with log := { d.log with block := [] } }, .ret) else none
  | .endCommit pt => endCommit pt
  | .pipewrite k n pt => pipewrite k n pt
  | .piperead k n pt => piperead k n pt
  | .pipeclose k writable pt => pipeclose k writable pt
  | .consoleread target pt => consoleread target pt
  | .pause n pt => pause n pt
  | .ret => .ret

/-! ## The client -/

/-- The lock that a function takes. -/
def KPt.lock : KPt → Option KLock
  | .acquiresleep k _ => some (.sleeplock k)
  | .releasesleep k _ => some (.sleeplock k)
  | .beginOp _ => some .log
  | .logWrite _ _ => some .log
  | .endOp _ => some .log
  | .endCommit _ => some .log
  | .pipewrite k _ _ => some (.pipe k)
  | .piperead k _ _ => some (.pipe k)
  | .pipeclose k _ _ => some (.pipe k)
  | .consoleread _ _ => some .cons
  | .pause _ _ => some .ticks
  | .commit => none
  | .ret => none

/-- Where a call starts. -/
def KPt.entry : KPt → Bool
  | .acquiresleep _ .acquire => true
  | .releasesleep _ .acquire => true
  | .beginOp .acquire => true
  | .logWrite _ .acquire => true
  | .endOp .acquire => true
  | .commit => true
  | .endCommit .acquire => true
  | .pipewrite _ _ .acquire => true
  | .piperead _ _ .acquire => true
  | .pipeclose _ _ .acquire => true
  | .consoleread _ .acquire => true
  | .pause _ .acquire => true
  | _ => false

/-- The lock is held from the point after the call of `acquire` on. -/
def KPt.held (l : KPt) : List KLock := if l.entry then [] else l.lock.toList

variable {l : KPt}

theorem KPt.held_of_entry (h : l.entry = true) : l.held = [] := if_pos h

def KIn.device : KIn → KData → KData
  | .key c, d => { d with cons := d.cons.intr c }
  | .clock, d => { d with ticks := d.ticks + 1 }
  | _, d => d

def KIn.lock : KIn → KLock
  | .key _ => .cons
  | _ => .ticks

def KChan.device : KChan → Bool
  | .cons => true
  | .ticks => true
  | _ => false

/-! ## What the functions touch -/

/-- The lock to hold in `sleep` on the channel. -/
def lockOf : KChan → KLock
  | .sleeplock k => .sleeplock k
  | .log => .log
  | .nread k => .pipe k
  | .nwrite k => .pipe k
  | .cons => .cons
  | .ticks => .ticks

/-- An access changes what the lock of its function protects. -/
structure Footprint (l : KPt) (d d' : KData) : Prop where
  locked : ∀ k, l.lock ≠ some (.sleeplock k) → d'.locked k = d.locked k
  log : l.lock ≠ some .log → l ≠ .commit → d'.log = d.log ∧ d'.committer = d.committer
  pipe : ∀ k, l.lock ≠ some (.pipe k) → d'.pipe k = d.pipe k
  cons : l.lock ≠ some .cons → d'.cons = d.cons

theorem Footprint.refl (l : KPt) (d : KData) : Footprint l d d :=
  ⟨fun _ _ => rfl, fun _ _ => ⟨rfl, rfl⟩, fun _ _ => rfl, fun _ => rfl⟩

theorem Footprint.setLocked {k : Nat} (hl : l.lock = some (.sleeplock k)) (d : KData) (x : Bool) :
    Footprint l d (d.setLocked k x) := by
  refine ⟨?_, fun _ _ => ⟨rfl, rfl⟩, fun _ _ => rfl, fun _ => rfl⟩
  intro j hj
  refine update_of_ne ?_ x d.locked
  rintro rfl
  exact hj hl

theorem Footprint.setPipe {k : Nat} (hl : l.lock = some (.pipe k)) (d : KData) (pi : Pipe) :
    Footprint l d (d.setPipe k pi) := by
  refine ⟨fun _ _ => rfl, fun _ _ => ⟨rfl, rfl⟩, ?_, fun _ => rfl⟩
  intro j hj
  refine update_of_ne ?_ pi d.pipe
  rintro rfl
  exact hj hl

theorem Footprint.of_log {d d' : KData} (hl : l.lock = some .log ∨ l = .commit)
    (h1 : d'.locked = d.locked) (h2 : d'.pipe = d.pipe) (h3 : d'.cons = d.cons) :
    Footprint l d d' := by
  refine ⟨fun k _ => congrFun h1 k, ?_, fun k _ => congrFun h2 k, fun _ => h3⟩
  intro hlock hne
  rcases hl with hl | hl
  · exact absurd hl hlock
  · exact absurd hl hne

theorem Footprint.of_cons {d d' : KData} (hl : l.lock = some .cons) (h1 : d'.locked = d.locked)
    (h2 : d'.log = d.log) (h3 : d'.committer = d.committer) (h4 : d'.pipe = d.pipe) :
    Footprint l d d' :=
  ⟨fun k _ => congrFun h1 k, fun _ _ => ⟨h2, h3⟩, fun k _ => congrFun h4 k, fun h => absurd hl h⟩

/-- The locks and the data of an instruction are those of its function. -/
def Touches (l : KPt) : KInstr → Prop
  | .acquire k _ => l.lock = some k
  | .sleep ch k _ => k = lockOf ch ∧ l.lock = some k
  | .access f => ∀ me x d d' next, f me x d = some (d', next) → Footprint l d d'
  | _ => True

/-- The instruction keeps the locks that are held, and to the locks and the data of its function. -/
def Proper (l : KPt) (i : KInstr) : Prop := i.Ok KPt.held l ∧ Touches l i

theorem access_proper {f : Nat → KIn → KData → Option (KData × KPt)}
    (h : ∀ me x d d' next, f me x d = some (d', next) → next.held = l.held ∧ Footprint l d d') :
    Proper l (.access f) :=
  ⟨fun me x d d' next hf => (h me x d d' next hf).1, fun me x d d' next hf => (h me x d d' next hf).2⟩

theorem update_proper {f : Nat → KData → Option (KData × KPt)}
    (h : ∀ me d d' next, f me d = some (d', next) → next.held = l.held ∧ Footprint l d d') :
    Proper l (update f) :=
  access_proper fun me _ d d' next => h me d d' next

theorem test_proper {f : KData → KPt} (h : ∀ d, (f d).held = l.held) : Proper l (test f) := by
  refine update_proper ?_
  rintro me d d' next ⟨⟩
  exact ⟨h d, .refl l d⟩

theorem killed_proper {f : Bool → KPt} (h : ∀ b, (f b).held = l.held) :
    Proper l (.killed f) := ⟨h, trivial⟩

theorem release_proper {k : KLock} (h : l.held = [k]) : Proper l (.release k .ret) := by
  refine ⟨⟨by rw [h]; exact List.mem_singleton_self k, ?_⟩, trivial⟩
  rw [h, List.erase_cons_head]
  rfl

theorem acquiresleep_proper (k : Nat) (pt : LoopPt) :
    Proper (.acquiresleep k pt) (acquiresleep k pt) := by
  cases pt with
  | acquire => exact ⟨rfl, rfl⟩
  | test =>
    refine update_proper ?_
    intro me d d' next h
    split at h <;> cases h
    · exact ⟨rfl, .refl _ d⟩
    · exact ⟨rfl, .setLocked rfl d true⟩
  | sleep => exact ⟨⟨rfl, rfl⟩, rfl, rfl⟩
  | release => exact release_proper rfl

theorem releasesleep_proper (k : Nat) (pt : WakePt) :
    Proper (.releasesleep k pt) (releasesleep k pt) := by
  cases pt with
  | acquire => exact ⟨rfl, rfl⟩
  | set =>
    refine update_proper ?_
    rintro me d d' next ⟨⟩
    exact ⟨rfl, .setLocked rfl d false⟩
  | wakeup => exact ⟨rfl, trivial⟩
  | release => exact release_proper rfl

theorem beginOp_proper (pt : LoopPt) : Proper (.beginOp pt) (beginOp pt) := by
  cases pt with
  | acquire => exact ⟨rfl, rfl⟩
  | test =>
    refine update_proper ?_
    intro me d d' next h
    split at h <;> cases h <;> exact ⟨rfl, .of_log (Or.inl rfl) rfl rfl rfl⟩
  | sleep => exact ⟨⟨rfl, rfl⟩, rfl, rfl⟩
  | release => exact release_proper rfl

theorem logWrite_proper (b : Nat) (pt : WakePt) : Proper (.logWrite b pt) (logWrite b pt) := by
  cases pt with
  | acquire => exact ⟨rfl, rfl⟩
  | set =>
    refine update_proper ?_
    intro me d d' next h
    split at h <;> cases h
    exact ⟨rfl, .of_log (Or.inl rfl) rfl rfl rfl⟩
  | wakeup | release => exact release_proper rfl

theorem endOp_proper (pt : WakePt) : Proper (.endOp pt) (endOp pt) := by
  cases pt with
  | acquire => exact ⟨rfl, rfl⟩
  | set =>
    refine update_proper ?_
    intro me d d' next h
    split at h <;> cases h <;> exact ⟨rfl, .of_log (Or.inl rfl) rfl rfl rfl⟩
  | wakeup => exact ⟨rfl, trivial⟩
  | release => exact release_proper rfl

theorem endCommit_proper (pt : WakePt) : Proper (.endCommit pt) (endCommit pt) := by
  cases pt with
  | acquire => exact ⟨rfl, rfl⟩
  | set =>
    refine update_proper ?_
    intro me d d' next h
    split at h <;> cases h
    exact ⟨rfl, .of_log (Or.inl rfl) rfl rfl rfl⟩
  | wakeup => exact ⟨rfl, trivial⟩
  | release => exact release_proper rfl

theorem pipewrite_proper (k : Nat) (n : Int) (pt : PipewritePt) :
    Proper (.pipewrite k n pt) (pipewrite k n pt) := by
  cases pt with
  | acquire => exact ⟨rfl, rfl⟩
  | top i dirty =>
    refine test_proper ?_
    intro d
    split
    · split <;> rfl
    · rfl
  | killed i dirty => exact killed_proper fun b => by cases b <;> rfl
  | copy i dirty =>
    refine access_proper ?_
    intro me x d d' next h
    split at h
    · cases h
      exact ⟨rfl, .refl _ d⟩
    · split at h <;> cases h
      · exact ⟨rfl, .setPipe rfl d _⟩
      · exact ⟨rfl, .refl _ d⟩
  | wakeFull | wakeEnd => exact ⟨rfl, trivial⟩
  | sleep i => exact ⟨⟨rfl, rfl⟩, rfl, rfl⟩
  | release ret => exact release_proper rfl

theorem piperead_proper (k : Nat) (n : Int) (pt : PipereadPt) :
    Proper (.piperead k n pt) (piperead k n pt) := by
  cases pt with
  | acquire => exact ⟨rfl, rfl⟩
  | test =>
    refine update_proper ?_
    intro me d d' next h
    split at h <;> cases h
    · exact ⟨rfl, .refl _ d⟩
    · exact ⟨rfl, .setPipe rfl d _⟩
  | killed => exact killed_proper fun b => by cases b <;> rfl
  | sleep => exact ⟨⟨rfl, rfl⟩, rfl, rfl⟩
  | copy i =>
    refine access_proper ?_
    intro me x d d' next h
    split at h
    · split at h <;> cases h <;> exact ⟨rfl, .setPipe rfl d _⟩
    · cases h
      exact ⟨rfl, .setPipe rfl d _⟩
  | wakeup ret => exact ⟨rfl, trivial⟩
  | release ret => exact release_proper rfl

theorem pipeclose_proper (k : Nat) (writable : Bool) (pt : WakePt) :
    Proper (.pipeclose k writable pt) (pipeclose k writable pt) := by
  cases pt with
  | acquire => exact ⟨rfl, rfl⟩
  | set =>
    refine update_proper ?_
    rintro me d d' next ⟨⟩
    exact ⟨rfl, .setPipe rfl d _⟩
  | wakeup => exact ⟨rfl, trivial⟩
  | release => exact release_proper rfl

theorem consoleread_proper (target : Int) (pt : ConsolereadPt) :
    Proper (.consoleread target pt) (consoleread target pt) := by
  cases pt with
  | acquire => exact ⟨rfl, rfl⟩
  | test n =>
    refine test_proper ?_
    intro d
    split
    · split <;> rfl
    · rfl
  | killed n => exact killed_proper fun b => by cases b <;> rfl
  | sleep n => exact ⟨⟨rfl, rfl⟩, rfl, rfl⟩
  | take n =>
    refine access_proper ?_
    intro me x d d' next h
    dsimp only at h
    split at h
    · cases h
      refine ⟨rfl, ?_⟩
      split
      · exact .refl _ d
      · exact .of_cons rfl rfl rfl rfl rfl
    · split at h <;> cases h
      · exact ⟨by split <;> rfl, .of_cons rfl rfl rfl rfl rfl⟩
      · exact ⟨rfl, .of_cons rfl rfl rfl rfl rfl⟩
  | release ret => exact release_proper rfl

theorem pause_proper (n : Int) (pt : PausePt) : Proper (.pause n pt) (pause n pt) := by
  cases pt with
  | acquire => exact ⟨rfl, rfl⟩
  | start => exact test_proper fun _ => rfl
  | test ticks0 =>
    refine test_proper ?_
    intro d
    split <;> rfl
  | killed ticks0 => exact killed_proper fun b => by cases b <;> rfl
  | sleep ticks0 => exact ⟨⟨rfl, rfl⟩, rfl, rfl⟩
  | release ret => exact release_proper rfl

theorem kernel_proper (l : KPt) : Proper l (kernelCode l) := by
  cases l with
  | acquiresleep k pt => exact acquiresleep_proper k pt
  | releasesleep k pt => exact releasesleep_proper k pt
  | beginOp pt => exact beginOp_proper pt
  | logWrite b pt => exact logWrite_proper b pt
  | endOp pt => exact endOp_proper pt
  | commit =>
    refine update_proper ?_
    intro me d d' next h
    split at h <;> cases h
    exact ⟨rfl, .of_log (Or.inr rfl) rfl rfl rfl⟩
  | endCommit pt => exact endCommit_proper pt
  | pipewrite k n pt => exact pipewrite_proper k n pt
  | piperead k n pt => exact piperead_proper k n pt
  | pipeclose k writable pt => exact pipeclose_proper k writable pt
  | consoleread target pt => exact consoleread_proper target pt
  | pause n pt => exact pause_proper n pt
  | ret => exact ⟨rfl, trivial⟩

theorem kernel_ok (l : KPt) : (kernelCode l).Ok KPt.held l := (kernel_proper l).1

theorem kernel_touches (l : KPt) : Touches l (kernelCode l) := (kernel_proper l).2

/-- The kernel. -/
def kernel : Client KLock KChan KData KIn KPt where
  code := kernelCode
  held := KPt.held
  entry := KPt.entry
  device := KIn.device
  deviceLock := KIn.lock
  deviceWakes := KChan.device
  ok := kernel_ok
  entry_held := fun _ => KPt.held_of_entry

/-! ## Functions that a proof is not about -/

/-- The instruction may go on at the point. -/
def Leads (next : KPt) : KInstr → Prop
  | .acquire _ l => next = l
  | .release _ l => next = l
  | .sleep _ _ l => next = l
  | .wakeup _ l => next = l
  | .killed l => ∃ b, next = l b
  | .access f => ∃ me x d d', f me x d = some (d', next)
  | .ret => False

theorem KPt.lock_of_mem_held {k : KLock} (h : k ∈ l.held) : l.lock = some k := by
  unfold KPt.held at h
  split at h
  · cases h
  · exact Option.mem_toList.mp h

/-- A function holds no lock but its own. -/
theorem kernel_leads {next : KPt} (h : Leads next (kernelCode l)) {k : KLock} (hk : k ∈ next.held) :
    l.lock = some k := by
  have hok := kernel_ok l
  have ht := kernel_touches l
  cases hi : kernelCode l with
  | acquire j l' =>
    rw [hi] at h hok ht
    cases h
    rw [show next.held = j :: l.held from hok] at hk
    rcases List.mem_cons.mp hk with rfl | hk
    · exact ht
    · exact KPt.lock_of_mem_held hk
  | release j l' =>
    rw [hi] at h hok
    cases h
    rw [hok.2] at hk
    exact KPt.lock_of_mem_held (List.mem_of_mem_erase hk)
  | sleep ch j l' =>
    rw [hi] at h hok ht
    cases h
    rw [hok.2, List.mem_singleton] at hk
    rw [hk]
    exact ht.2
  | wakeup ch l' =>
    rw [hi] at h hok
    cases h
    rw [show next.held = l.held from hok] at hk
    exact KPt.lock_of_mem_held hk
  | killed l' =>
    rw [hi] at h hok
    obtain ⟨b, rfl⟩ := h
    rw [hok b] at hk
    exact KPt.lock_of_mem_held hk
  | access f =>
    rw [hi] at h hok
    obtain ⟨me, x, d, d', hf⟩ := h
    rw [hok me x d d' next hf] at hk
    exact KPt.lock_of_mem_held hk
  | ret =>
    rw [hi] at h
    exact h.elim

/-- The functions whose lock is not one of those that the annotation is about keep it. -/
theorem keeps_of_foreign {N : Annotation kernel} {A : KLock → Prop}
    (hquiet : ∀ l : KPt, (∀ k ∈ l.held, ¬ A k) → N.Quiet l) (hlock : N.lock = lockOf)
    (hcond : ∀ ch d, ¬ A (lockOf ch) → ¬ N.cond ch d) (hl : ∀ k, l.lock = some k → ¬ A k)
    (hfoot : ∀ d d', Footprint l d d' → N.Unseen d d') : N.Keeps l (kernelCode l) := by
  have hnext : ∀ next, Leads next (kernelCode l) → N.Quiet next :=
    fun next h => hquiet next fun k hk => hl k (kernel_leads h hk)
  have ht := kernel_touches l
  refine Annotation.Ignores.keeps ?_ (hquiet l fun k hk => hl k (KPt.lock_of_mem_held hk))
  cases hi : kernelCode l with
  | sleep ch k next =>
    rw [hi] at ht hnext
    obtain ⟨rfl, hk⟩ := ht
    exact ⟨congrFun hlock.symm ch, fun d => hcond ch d (hl _ hk), hnext next rfl⟩
  | killed next =>
    rw [hi] at hnext
    exact fun b => hnext (next b) ⟨b, rfl⟩
  | access f =>
    rw [hi] at ht hnext
    intro me x d d' next hf
    exact ⟨hnext next ⟨me, x, d, d', hf⟩, hfoot d d' (ht me x d d' next hf)⟩
  | ret => trivial
  | _ =>
    rw [hi] at hnext
    exact hnext _ rfl

/-- The same for a guard. -/
theorem guardKeeps_of_foreign {guarded : KPt → Prop} {killable : Wait KLock KChan KPt → Prop}
    {A : KLock → Prop} (hquiet : ∀ l : KPt, (∀ k ∈ l.held, ¬ A k) → ¬ guarded l)
    (hkill : ∀ ch k next, killable (.client ch k next) → A (lockOf ch))
    (hl : ∀ k, l.lock = some k → ¬ A k) : GuardKeeps guarded killable l (kernelCode l) := by
  have hnext : ∀ next, Leads next (kernelCode l) → ¬ guarded next :=
    fun next h => hquiet next fun k hk => hl k (kernel_leads h hk)
  have ht := kernel_touches l
  cases hi : kernelCode l with
  | sleep ch k next =>
    rw [hi] at ht hnext
    obtain ⟨rfl, hk⟩ := ht
    exact ⟨fun h => absurd (hkill ch _ next h) (hl _ hk), hnext next rfl⟩
  | killed next =>
    rw [hi] at hnext
    exact hnext (next true) ⟨true, rfl⟩
  | access f =>
    rw [hi] at hnext
    intro me x d d' next hf h
    exact absurd h (hnext next ⟨me, x, d, d', hf⟩)
  | ret => trivial
  | _ =>
    rw [hi] at hnext
    exact fun h => absurd h (hnext _ rfl)

end Xv6.Sched
