/-
  Processes and the scheduler (`kernel/proc.c`), for any number of CPUs and processes and any
  interleaving.

  A CPU executes the loop of `scheduler` or the kernel thread of a process.  Where a thread is in
  the code is a program point `Pc`; `swtch` moves program points between a CPU and `p->context`.
  One step of a CPU is one acquire or release of a spin lock, one loop round, or one section under
  a `p->lock` that does not sleep; the locks that such a section takes and gives back (`pid_lock`,
  `kmem.lock`, `ftable.lock`, `itable.lock`) are not modelled.  A section is only entered while its
  lock is free; a CPU that has to spin has no step.

  The rest of the kernel is a `Client`: a table of instructions, which may take and release named
  spin locks, sleep, wake, test for a kill, and access data of its own.  It says at each of its
  points which locks it holds there, and proves that its instructions agree with that.

  `context` is `none` when the process has no saved context: what `swtch` leaves behind in memory
  after loading it is stale.  `birth` numbers the processes since boot and `trace` records forks,
  exits and waits; no step looks at either.
-/
import Mathlib.Data.List.Basic
import Mathlib.Logic.Function.Basic
import Xv6.Param

namespace Xv6.Sched

/-! ## Code outside `proc.c` -/

section client

variable (Lk Ch D X L : Type)

/-- One instruction. `L` are the program points, `Lk` the spin locks, `Ch` the channels, `D` the
    data and `X` the inputs from outside, such as the result of a user copy. -/
inductive Instr where
  | acquire (l : Lk) (next : L)
  | release (l : Lk) (next : L)
  | sleep (ch : Ch) (l : Lk) (next : L)
  | wakeup (ch : Ch) (next : L)
  /-- `killed(myproc())`. -/
  | killed (next : Bool → L)
  /-- Read and change data as process `me`. Without a result the kernel panics. -/
  | access (f : (me : Nat) → X → D → Option (D × L))
  /-- Return from the system call. -/
  | ret

variable {Lk Ch D X L}

/-- The instruction at a point agrees with the locks held there and at the next point. -/
def Instr.Ok [DecidableEq Lk] (held : L → List Lk) (l : L) : Instr Lk Ch D X L → Prop
  | .acquire k next => held next = k :: held l
  | .release k next => k ∈ held l ∧ held next = (held l).erase k
  | .sleep _ k next => held l = [k] ∧ held next = [k]
  | .wakeup _ next => held next = held l
  | .killed next => ∀ b, held (next b) = held l
  | .access f => ∀ me x d d' next, f me x d = some (d', next) → held next = held l
  | .ret => held l = []

variable (Lk Ch D X L)

/-- The kernel outside `proc.c`. -/
structure Client [DecidableEq Lk] where
  code : L → Instr Lk Ch D X L
  held : L → List Lk
  /-- Where a system call may start. -/
  entry : L → Bool
  /-- What an interrupt handler does to the data, and the lock it takes for that. -/
  device : X → D → D
  deviceLock : X → Lk
  /-- The channels that interrupt handlers wake. -/
  deviceWakes : Ch → Bool
  ok : ∀ l, (code l).Ok held l
  entry_held : ∀ l, entry l = true → held l = []

variable {Lk Ch D X L}

/-- No system calls but those of `proc.c`. -/
def Client.bare : Client Empty Empty Unit Empty Empty where
  code := nofun
  held := nofun
  entry := nofun
  device := nofun
  deviceLock := nofun
  deviceWakes := nofun
  ok := nofun
  entry_held := nofun

end client

/-! ## Program points -/

section points

variable (Lk Ch L : Type)

/-- A channel is an address: that of a process, for `kwait`, or another one. -/
inductive Chan where
  | proc (p : Nat)
  | client (ch : Ch)
  deriving DecidableEq

/-- The spin locks other than `p->lock`. -/
inductive Lock where
  | wait
  | client (l : Lk)
  deriving DecidableEq

/-- Who called `sleep`. -/
inductive Wait where
  | client (ch : Ch) (l : Lk) (next : L)
  | kwait (addr : Nat)

/-- Where `wakeup` returns to. -/
inductive After where
  | client (next : L)
  /-- The loop of `reparent` in `kexit`. -/
  | reparent (status : Int) (i : Nat)
  /-- `acquire(&p->lock)` in `kexit`. -/
  | zombie (status : Int)

/-- `sleep`, at: `acquire(&p->lock)`, `release(lk)`, the assignments, `sched()`, what follows it,
    `acquire(lk)`. -/
inductive SleepPt where
  | acquire
  | release
  | set
  | sched
  | back
  | reacquire

/-- `yield`, holding `p->lock`, at: the assignment, `sched()`, what follows it. -/
inductive YieldPt where
  | set
  | sched
  | back

/-- `kfork`, at: the loop of `allocproc`; holding `np->lock`; `acquire(&wait_lock)`; the second
    `acquire(&np->lock)`. -/
inductive ForkPt where
  | scan (i : Nat)
  | init (np : Nat)
  | parent (np : Nat)
  | run (np : Nat)

/-- `kexit`, at: `acquire(&wait_lock)`, the loop of `reparent`, `acquire(&p->lock)`,
    `release(&wait_lock)`, `sched()`, what follows it. -/
inductive ExitPt where
  | acquire (status : Int)
  | reparent (status : Int) (i : Nat)
  | zombie (status : Int)
  | release
  | sched
  | back

/-- `kwait`, at: `acquire(&wait_lock)`, the loop over the processes, a child whose lock is held,
    the tests after the loop, the last `release(&wait_lock)`. -/
inductive WaitPt where
  | acquire (addr : Nat)
  | scan (addr i : Nat) (havekids : Bool)
  | child (addr i : Nat)
  | test (addr : Nat) (havekids : Bool)
  | done

/-- A point in the code of a process's kernel thread. -/
inductive Pc where
  /-- In user space, or in the kernel between two calls of the functions modelled here. -/
  | user
  | client (l : L)
  /-- The start of a forked child. -/
  | forkret
  | sleep (pt : SleepPt) (w : Wait Lk Ch L)
  /-- The loop of `wakeup(ch)`, at process `i`. -/
  | wakeup (ch : Chan Ch) (i : Nat) (k : After L)
  /-- A timer interrupt at `k` has called `yield`. -/
  | yield (pt : YieldPt) (k : Pc)
  /-- The loop of `kkill`. -/
  | kill (pid : BitVec 32) (i : Nat)
  | fork (pt : ForkPt)
  | exit (pt : ExitPt)
  | wait (pt : WaitPt)

/-- What a CPU executes: the loop of `scheduler` at process `i`, what follows its `swtch`, or the
    kernel thread of process `p`. -/
inductive Code where
  | scan (i : Nat)
  | back (i : Nat)
  | thread (p : Nat) (pc : Pc Lk Ch L)

end points

/-! ## State -/

/-- `enum procstate`. -/
inductive ProcState where
  | unused
  | used
  | sleeping
  | runnable
  | running
  | zombie
  deriving DecidableEq

/-- What the statements about `kfork`, `kexit` and `kwait` refer to. Processes are named by their
    birth. -/
inductive Event where
  | fork (child : Nat) (pid : BitVec 32) (parent : Nat)
  | exit (who : Nat) (status : Int)
  /-- A successful `kwait(addr)`: who called it, the child, the return value and what it stored. -/
  | reap (caller : Nat) (who : Nat) (pid : BitVec 32) (addr : Nat) (stored : Option Int)
  deriving DecidableEq

section state

variable (κ Lk Ch D L : Type)

/-- `struct proc`. The lock is that of the CPU holding it. -/
structure Proc where
  lock : Option κ
  state : ProcState
  chan : Option (Chan Ch)
  killed : Bool
  xstate : Int
  pid : BitVec 32
  parent : Option Nat
  context : Option (Pc Lk Ch L)
  birth : Nat

/-- `struct cpu`, with what the CPU executes. `context` is the process at which its scheduler is. -/
structure Cpu where
  proc : Option Nat
  context : Nat
  code : Code Lk Ch L

/-- What the CPUs share, and `noff` of each. -/
structure Mem where
  proc : Nat → Proc κ Lk Ch L
  lock : Lock Lk → Option κ
  noff : κ → Nat
  data : D
  nextpid : BitVec 32
  born : Nat
  trace : List Event

structure Sys where
  mem : Mem κ Lk Ch D L
  cpu : κ → Cpu Lk Ch L

end state

variable {κ Lk Ch D X L : Type}

/-- `initproc` is the first process that `allocproc` finds. -/
def initproc : Nat := 0

/-- The channel that a process sleeps on. -/
def Wait.chan (me : Nat) : Wait Lk Ch L → Chan Ch
  | .client ch _ _ => .client ch
  | .kwait _ => .proc me

def Wait.lock : Wait Lk Ch L → Lock Lk
  | .client _ l _ => .client l
  | .kwait _ => .wait

/-- The point after the call of `sleep`. -/
def Wait.next : Wait Lk Ch L → Pc Lk Ch L
  | .client _ _ next => .client next
  | .kwait addr => .wait (.scan addr 0 false)

def After.pc : After L → Pc Lk Ch L
  | .client next => .client next
  | .reparent status i => .exit (.reparent status i)
  | .zombie status => .exit (.zombie status)

namespace Mem

variable (m : Mem κ Lk Ch D L)

def setProc (q : Nat) (x : Proc κ Lk Ch L) : Mem κ Lk Ch D L :=
  { m with proc := Function.update m.proc q x }

def setState (q : Nat) (x : ProcState) : Mem κ Lk Ch D L :=
  m.setProc q { m.proc q with state := x }

/-- What `wakeup(ch)` does to process `q`. -/
def wake [DecidableEq Ch] (ch : Chan Ch) (q : Nat) : Mem κ Lk Ch D L :=
  if (m.proc q).state = .sleeping ∧ (m.proc q).chan = some ch then m.setState q .runnable else m

/-- What `kkill` does to the process it has found. -/
def kill (q : Nat) : Mem κ Lk Ch D L :=
  m.setProc q
    { m.proc q with
      killed := true
      state := if (m.proc q).state = .sleeping then .runnable else (m.proc q).state }

def freeproc (q : Nat) : Mem κ Lk Ch D L :=
  m.setProc q
    { m.proc q with
      pid := 0, parent := none, chan := none, killed := false, xstate := 0, state := .unused
      context := none }

variable [DecidableEq κ]

def lockProc (c : κ) (q : Nat) : Mem κ Lk Ch D L :=
  { m.setProc q { m.proc q with lock := some c } with
    noff := Function.update m.noff c (m.noff c + 1) }

def unlockProc (c : κ) (q : Nat) : Mem κ Lk Ch D L :=
  { m.setProc q { m.proc q with lock := none } with
    noff := Function.update m.noff c (m.noff c - 1) }

/-- What `allocproc` does with the process it has found. -/
def allocproc (c : κ) (q : Nat) : Mem κ Lk Ch D L :=
  { (m.setProc q { m.proc q with pid := m.nextpid, state := .used, birth := m.born }).lockProc c q
    with
    nextpid := m.nextpid + 1
    born := m.born + 1 }

variable [DecidableEq Lk]

def acquire (c : κ) (l : Lock Lk) : Mem κ Lk Ch D L :=
  { m with
    lock := Function.update m.lock l (some c)
    noff := Function.update m.noff c (m.noff c + 1) }

def release (c : κ) (l : Lock Lk) : Mem κ Lk Ch D L :=
  { m with
    lock := Function.update m.lock l none
    noff := Function.update m.noff c (m.noff c - 1) }

end Mem

/-! ## Steps -/

/-- What the environment decides: what a process in user space does next, interrupts, and the
    results of allocations and user copies. -/
inductive Act (Ch X L : Type) where
  | run
  | fork
  | exit (status : Int)
  | wait (addr : Nat)
  | kill (pid : BitVec 32)
  /-- `setkilled(p)` in `usertrap`. -/
  | fault
  | enter (l : L)
  | input (x : X)
  /-- Whether memory can be allocated in `kfork`, or the status copied out in `kwait`. -/
  | outcome (ok : Bool)
  | timer
  | device (x : X)
  | deviceWakeup (ch : Ch) (q : Nat)

def Act.ok {Ch X L : Type} : Act Ch X L → Bool
  | .outcome ok => ok
  | _ => true

/-- How a thread goes on: at a point, or away from its CPU with a context to save. -/
inductive Next (Lk Ch L : Type) where
  | go (pc : Pc Lk Ch L)
  | swtch (saved : Pc Lk Ch L)

variable [DecidableEq κ] [DecidableEq Lk] [DecidableEq Ch]

section step

variable (K : Client Lk Ch D X L) (n : Nat)

/-- One instruction of the client. -/
def clientStep (c : κ) (p : Nat) (l : L) (a : Act Ch X L) (m : Mem κ Lk Ch D L) :
    Option (Mem κ Lk Ch D L × Next Lk Ch L) :=
  match K.code l, a with
  | .acquire k next, .run =>
    if m.lock (.client k) = none then some (m.acquire c (.client k), .go (.client next)) else none
  | .release k next, .run =>
    if m.lock (.client k) = some c then some (m.release c (.client k), .go (.client next)) else none
  | .sleep ch k next, .run => some (m, .go (.sleep .acquire (.client ch k next)))
  | .wakeup ch next, .run => some (m, .go (.wakeup (.client ch) 0 (.client next)))
  | .killed next, .run =>
    if (m.proc p).lock = none then some (m, .go (.client (next (m.proc p).killed))) else none
  | .access f, .input x =>
    match f p x m.data with
    | some (d, next) => some ({ m with data := d }, .go (.client next))
    | none => none
  | .ret, .run => some (m, .go .user)
  | _, _ => none

/-- `sched()`: hold `p->lock` and no other spin lock, and do not be running. -/
def sched (c : κ) (p : Nat) (saved : Pc Lk Ch L) (m : Mem κ Lk Ch D L) :
    Option (Mem κ Lk Ch D L × Next Lk Ch L) :=
  if (m.proc p).lock = some c ∧ m.noff c = 1 ∧ (m.proc p).state ≠ .running then
    some (m, .swtch saved)
  else none

def sleepStep (c : κ) (p : Nat) (w : Wait Lk Ch L) (m : Mem κ Lk Ch D L) :
    SleepPt → Option (Mem κ Lk Ch D L × Next Lk Ch L)
  | .acquire =>
    if (m.proc p).lock = none then some (m.lockProc c p, .go (.sleep .release w)) else none
  | .release =>
    if m.lock w.lock = some c then some (m.release c w.lock, .go (.sleep .set w)) else none
  | .set =>
    some (m.setProc p { m.proc p with chan := some (w.chan p), state := .sleeping },
      .go (.sleep .sched w))
  | .sched => sched c p (.sleep .back w) m
  | .back =>
    if (m.proc p).lock = some c then
      some ((m.setProc p { m.proc p with chan := none }).unlockProc c p, .go (.sleep .reacquire w))
    else none
  | .reacquire =>
    if m.lock w.lock = none then some (m.acquire c w.lock, .go w.next) else none

def wakeupStep (p : Nat) (ch : Chan Ch) (i : Nat) (k : After L) (m : Mem κ Lk Ch D L) :
    Option (Mem κ Lk Ch D L × Next Lk Ch L) :=
  if i ≥ n then some (m, .go k.pc)
  else if i = p then some (m, .go (.wakeup ch (i + 1) k))
  else if (m.proc i).lock = none then some (m.wake ch i, .go (.wakeup ch (i + 1) k))
  else none

def yieldStep (c : κ) (p : Nat) (k : Pc Lk Ch L) (m : Mem κ Lk Ch D L) :
    YieldPt → Option (Mem κ Lk Ch D L × Next Lk Ch L)
  | .set => some (m.setState p .runnable, .go (.yield .sched k))
  | .sched => sched c p (.yield .back k) m
  | .back => if (m.proc p).lock = some c then some (m.unlockProc c p, .go k) else none

def killStep (pid : BitVec 32) (i : Nat) (m : Mem κ Lk Ch D L) :
    Option (Mem κ Lk Ch D L × Next Lk Ch L) :=
  if i ≥ n then some (m, .go .user)
  else if (m.proc i).lock = none then
    if (m.proc i).pid = pid then some (m.kill i, .go .user)
    else some (m, .go (.kill pid (i + 1)))
  else none

/-- `ok` says whether memory can be allocated. -/
def forkStep (c : κ) (p : Nat) (ok : Bool) (m : Mem κ Lk Ch D L) :
    ForkPt → Option (Mem κ Lk Ch D L × Next Lk Ch L)
  | .scan i =>
    if i ≥ n then some (m, .go .user)
    else if (m.proc i).lock = none then
      if (m.proc i).state = .unused then some (m.allocproc c i, .go (.fork (.init i)))
      else some (m, .go (.fork (.scan (i + 1))))
    else none
  | .init np =>
    if (m.proc np).lock = some c then
      if ok then
        some ((m.setProc np { m.proc np with context := some .forkret }).unlockProc c np,
          .go (.fork (.parent np)))
      else some ((m.freeproc np).unlockProc c np, .go .user)
    else none
  | .parent np =>
    if m.lock .wait = none then
      some (m.setProc np { m.proc np with parent := some p }, .go (.fork (.run np)))
    else none
  | .run np =>
    if (m.proc np).lock = none then
      some ({ m.setState np .runnable with
        trace := .fork (m.proc np).birth (m.proc np).pid (m.proc p).birth :: m.trace }, .go .user)
    else none

def exitStep (c : κ) (p : Nat) (m : Mem κ Lk Ch D L) :
    ExitPt → Option (Mem κ Lk Ch D L × Next Lk Ch L)
  | .acquire status =>
    if m.lock .wait = none then some (m.acquire c .wait, .go (.exit (.reparent status 0))) else none
  | .reparent status i =>
    if i ≥ n then
      match (m.proc p).parent with
      | some r => some (m, .go (.wakeup (.proc r) 0 (.zombie status)))
      | none => some (m, .go (.exit (.zombie status)))
    else if (m.proc i).parent = some p then
      some (m.setProc i { m.proc i with parent := some initproc },
        .go (.wakeup (.proc initproc) 0 (.reparent status (i + 1))))
    else some (m, .go (.exit (.reparent status (i + 1))))
  | .zombie status =>
    if (m.proc p).lock = none then
      some ((m.setProc p { m.proc p with xstate := status, state := .zombie }).lockProc c p,
        .go (.exit .release))
    else none
  | .release =>
    if m.lock .wait = some c then some (m.release c .wait, .go (.exit .sched)) else none
  | .sched => sched c p (.exit .back) m
  -- panic("zombie exit")
  | .back => none

/-- `ok` says whether the status can be copied out. -/
def waitStep (c : κ) (p : Nat) (ok : Bool) (m : Mem κ Lk Ch D L) :
    WaitPt → Option (Mem κ Lk Ch D L × Next Lk Ch L)
  | .acquire addr =>
    if m.lock .wait = none then some (m.acquire c .wait, .go (.wait (.scan addr 0 false))) else none
  | .scan addr i havekids =>
    if i ≥ n then some (m, .go (.wait (.test addr havekids)))
    else if (m.proc i).parent = some p then
      if (m.proc i).lock = none then some (m.lockProc c i, .go (.wait (.child addr i))) else none
    else some (m, .go (.wait (.scan addr (i + 1) havekids)))
  | .child addr i =>
    if (m.proc i).lock = some c then
      if (m.proc i).state = .zombie then
        if addr ≠ 0 ∧ ok = false then some (m.unlockProc c i, .go (.wait .done))
        else
          some ({ (m.freeproc i).unlockProc c i with
            trace := .reap (m.proc p).birth (m.proc i).birth (m.proc i).pid addr
              (if addr = 0 then none else some (m.proc i).xstate) :: m.trace }, .go (.wait .done))
      else some (m.unlockProc c i, .go (.wait (.scan addr (i + 1) true)))
    else none
  | .test addr havekids =>
    if havekids = false then some (m, .go (.wait .done))
    else if (m.proc p).lock = none then
      if (m.proc p).killed then some (m, .go (.wait .done))
      else some (m, .go (.sleep .acquire (.kwait addr)))
    else none
  | .done => if m.lock .wait = some c then some (m.release c .wait, .go .user) else none

/-- What a process in user space does next. -/
def userStep (p : Nat) (a : Act Ch X L) (m : Mem κ Lk Ch D L) :
    Option (Mem κ Lk Ch D L × Next Lk Ch L) :=
  match a with
  | .fork => some (m, .go (.fork (.scan 0)))
  | .exit status =>
    -- panic("init exiting")
    if p = initproc then none
    else
      some ({ m with trace := .exit (m.proc p).birth status :: m.trace },
        .go (.exit (.acquire status)))
  | .wait addr => some (m, .go (.wait (.acquire addr)))
  | .kill pid => some (m, .go (.kill pid 0))
  | .fault =>
    if (m.proc p).lock = none then
      some (m.setProc p { m.proc p with killed := true }, .go .user)
    else none
  | .enter l => if K.entry l then some (m, .go (.client l)) else none
  | _ => none

/-- One step of the kernel thread of process `p`, which CPU `c` executes. -/
def threadStep (c : κ) (p : Nat) (a : Act Ch X L) (m : Mem κ Lk Ch D L) :
    Pc Lk Ch L → Option (Mem κ Lk Ch D L × Next Lk Ch L)
  | .user => userStep K p a m
  | .client l => clientStep K c p l a m
  | .forkret => if (m.proc p).lock = some c then some (m.unlockProc c p, .go .user) else none
  | .sleep pt w => sleepStep c p w m pt
  | .wakeup ch i k => wakeupStep n p ch i k m
  | .yield pt k => yieldStep c p k m pt
  | .kill pid i => killStep n pid i m
  | .fork pt => forkStep n c p (a.ok) m pt
  | .exit pt => exitStep n c p m pt
  | .wait pt => waitStep n c p (a.ok) m pt

/-- A thread goes on at `pc`. -/
def Sys.go (s : Sys κ Lk Ch D L) (c : κ) (p : Nat) (pc : Pc Lk Ch L) (m : Mem κ Lk Ch D L) :
    Sys κ Lk Ch D L where
  mem := m
  cpu := Function.update s.cpu c { s.cpu c with code := .thread p pc }

/-- `swtch(&p->context, &mycpu()->context)`. -/
def Sys.swtch (s : Sys κ Lk Ch D L) (c : κ) (p : Nat) (saved : Pc Lk Ch L)
    (m : Mem κ Lk Ch D L) : Sys κ Lk Ch D L where
  mem := m.setProc p { m.proc p with context := some saved }
  cpu := Function.update s.cpu c { s.cpu c with code := .back (s.cpu c).context }

/-- The loop of `scheduler` at process `i`. -/
def schedulerScan (c : κ) (i : Nat) (s : Sys κ Lk Ch D L) : Option (Sys κ Lk Ch D L) :=
  if i ≥ n then some { s with cpu := Function.update s.cpu c { s.cpu c with code := .scan 0 } }
  else if (s.mem.proc i).lock = none then
    if (s.mem.proc i).state = .runnable then
      match (s.mem.proc i).context with
      | some pc =>
        -- swtch(&c->context, &p->context)
        some
          { mem := (s.mem.setProc i
              { s.mem.proc i with state := .running, context := none }).lockProc c i
            cpu := Function.update s.cpu c { proc := some i, context := i, code := .thread i pc } }
      | none => none
    else some { s with cpu := Function.update s.cpu c { s.cpu c with code := .scan (i + 1) } }
  else none

/-- `c->proc = 0; release(&p->lock)`. -/
def schedulerBack (c : κ) (i : Nat) (s : Sys κ Lk Ch D L) : Option (Sys κ Lk Ch D L) :=
  if (s.mem.proc i).lock = some c then
    some
      { mem := s.mem.unlockProc c i
        cpu := Function.update s.cpu c { s.cpu c with proc := none, code := .scan (i + 1) } }
  else none

/-- One step of CPU `c`. An interrupt needs interrupts enabled, which is `noff = 0`; a timer
    interrupt makes a process yield.  The handler of another interrupt is cut into the change of its
    data and one step for each process that its `wakeup` looks at. -/
def step (s : Sys κ Lk Ch D L) (c : κ) (a : Act Ch X L) : Option (Sys κ Lk Ch D L) :=
  match a with
  | .device x =>
    if s.mem.noff c = 0 ∧ s.mem.lock (.client (K.deviceLock x)) = none then
      some { s with mem := { s.mem with data := K.device x s.mem.data } }
    else none
  | .deviceWakeup ch q =>
    if s.mem.noff c = 0 ∧ K.deviceWakes ch = true ∧ (s.mem.proc q).lock = none then
      some { s with mem := s.mem.wake (.client ch) q }
    else none
  | .timer =>
    match (s.cpu c).code with
    | .thread p k =>
      if s.mem.noff c = 0 ∧ (s.mem.proc p).lock = none then
        some (s.go c p (.yield .set k) (s.mem.lockProc c p))
      else none
    | _ => none
  | a =>
    match (s.cpu c).code with
    | .scan i => schedulerScan n c i s
    | .back i => schedulerBack c i s
    | .thread p pc =>
      match threadStep K n c p a s.mem pc with
      | some (m, .go pc) => some (s.go c p pc m)
      | some (m, .swtch saved) => some (s.swtch c p saved m)
      | none => none

/-- Execute a list of steps. -/
def run : Sys κ Lk Ch D L → List (κ × Act Ch X L) → Option (Sys κ Lk Ch D L)
  | s, [] => some s
  | s, (c, a) :: acts =>
    match step K n s c a with
    | some t => run t acts
    | none => none

end step

/-- After `userinit`: the first process is ready to run, the CPUs enter `scheduler`. -/
def Sys.init (d : D) : Sys κ Lk Ch D L where
  mem :=
    { proc := fun p =>
        { lock := none, state := if p = initproc then .runnable else .unused, chan := none
          killed := false, xstate := 0, pid := if p = initproc then 1 else 0, parent := none
          context := if p = initproc then some .forkret else none, birth := 0 }
      lock := fun _ => none
      noff := fun _ => 0
      data := d
      nextpid := 2
      born := 1
      trace := [] }
  cpu := fun _ => { proc := none, context := 0, code := .scan 0 }

end Xv6.Sched
