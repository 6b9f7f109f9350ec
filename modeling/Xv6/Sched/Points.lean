/-
  What a program point says about the process that is there: the locks its CPU holds for it, the
  state and the channel of the process while it executes there, and the child that its `kfork` has
  allocated.

  `threadStep_lockEff` and `threadStep_stateEff` say once what a step of a thread can do, to the
  locks and to the process table.
-/
import Xv6.Sched.Model

namespace Xv6.Sched

open Function Option

variable {κ Lk Ch D X L : Type}

/-! ## Static facts -/

/-- The process locks that the CPU executing process `p` holds. -/
def Pc.plocks (p : Nat) : Pc Lk Ch L → List Nat
  | .forkret => [p]
  | .sleep .acquire _ => []
  | .sleep .reacquire _ => []
  | .sleep _ _ => [p]
  | .yield _ k => p :: k.plocks p
  | .fork (.init np) => [np]
  | .exit .release => [p]
  | .exit .sched => [p]
  | .exit .back => [p]
  | .wait (.child _ i) => [i]
  | _ => []

/-- The state of a process while it executes at the point. -/
def Pc.state : Pc Lk Ch L → ProcState
  | .sleep .sched _ => .sleeping
  | .yield .sched _ => .runnable
  | .exit .release => .zombie
  | .exit .sched => .zombie
  | .exit .back => .zombie
  | _ => .running

/-- `p->chan` at the point. -/
def Pc.chan (p : Nat) : Pc Lk Ch L → Option (Chan Ch)
  | .sleep .sched w => some (w.chan p)
  | .sleep .back w => some (w.chan p)
  | _ => none

/-- The child that `kfork` has allocated and not yet made runnable. -/
def Pc.child : Pc Lk Ch L → Option Nat
  | .fork (.init np) => some np
  | .fork (.parent np) => some np
  | .fork (.run np) => some np
  | .yield _ k => k.child
  | _ => none

/-- The same, once its context is set up. -/
def Pc.ready : Pc Lk Ch L → Option Nat
  | .fork (.parent np) => some np
  | .fork (.run np) => some np
  | .yield _ k => k.ready
  | _ => none

/-- A context that `swtch` may have saved, and the states of a process that has it. -/
def Pc.Saved (x : ProcState) : Pc Lk Ch L → Prop
  | .forkret => x = .used ∨ x = .runnable
  | .sleep .back _ => x = .sleeping ∨ x = .runnable
  | .yield .back _ => x = .runnable
  | .exit .back => x = .zombie
  | _ => False

theorem Pc.running_of_plocks {pc : Pc Lk Ch L} {p : Nat} (h : pc.plocks p = []) :
    pc.state = .running ∧ pc.chan p = none := by
  cases pc with
  | sleep pt w | exit pt => cases pt <;> simp_all [plocks, state, chan]
  | yield pt k => simp [plocks] at h
  | _ => exact ⟨rfl, rfl⟩

theorem Pc.mem_plocks_of_not_running {pc : Pc Lk Ch L} {p : Nat} (h : pc.state ≠ .running) :
    p ∈ pc.plocks p := by
  cases pc with
  | sleep pt w | exit pt => cases pt <;> simp_all [plocks, state]
  | yield pt k => exact List.mem_cons_self
  | _ => exact absurd rfl h

theorem Pc.state_ne_used (pc : Pc Lk Ch L) : pc.state ≠ .used ∧ pc.state ≠ .unused := by
  cases pc with
  | sleep pt | yield pt | exit pt => cases pt <;> simp [state]
  | _ => exact ⟨nofun, nofun⟩

theorem Wait.next_facts (w : Wait Lk Ch L) (p : Nat) :
    w.next.plocks p = [] ∧ w.next.child = none ∧ w.next.ready = none := by
  cases w <;> exact ⟨rfl, rfl, rfl⟩

/-! ## Updates of the process table -/

namespace Mem

variable (m : Mem κ Lk Ch D L) (c : κ) (q r : Nat) {x : Proc κ Lk Ch L}

theorem proc_setProc (x : Proc κ Lk Ch L) :
    (m.setProc q x).proc r = if r = q then x else m.proc r :=
  update_apply m.proc q x r

/-- The fields of a process that the scheduler is about are the same. -/
def Same (m' : Mem κ Lk Ch D L) (q : Nat) : Prop :=
  (m'.proc q).state = (m.proc q).state ∧ (m'.proc q).context = (m.proc q).context ∧
    (m'.proc q).chan = (m.proc q).chan

variable {m c q r} {m' : Mem κ Lk Ch D L}

theorem Same.of_proc_eq (h : m'.proc = m.proc) (r : Nat) : m.Same m' r := by
  unfold Same
  rw [h]
  exact ⟨rfl, rfl, rfl⟩

/-- Only process `q` has changed, and in no such field. -/
theorem Same.of_update (h : ∀ r, m'.proc r = if r = q then x else m.proc r)
    (hs : x.state = (m.proc q).state) (hx : x.context = (m.proc q).context)
    (hc : x.chan = (m.proc q).chan) (r : Nat) : m.Same m' r := by
  unfold Same
  rw [h r]
  rcases eq_or_ne r q with hr | hr
  · rw [if_pos hr, hr]
    exact ⟨hs, hx, hc⟩
  · rw [if_neg hr]
    exact ⟨rfl, rfl, rfl⟩

theorem Same.of_ne (h : ∀ r, m'.proc r = if r = q then x else m.proc r) (r : Nat) (hr : r ≠ q) :
    m.Same m' r := by
  unfold Same
  rw [h r, if_neg hr]
  exact ⟨rfl, rfl, rfl⟩

/-- A field of the processes that the update leaves alone. -/
theorem field_of_update {α : Type} (f : Proc κ Lk Ch L → α)
    (h : ∀ r, m'.proc r = if r = q then x else m.proc r) (hx : f x = f (m.proc q)) (r : Nat) :
    f (m'.proc r) = f (m.proc r) := by
  rw [h r]
  rcases eq_or_ne r q with hr | hr
  · rw [if_pos hr, hr, hx]
  · rw [if_neg hr]

theorem lock_of_update_eq {y : Option κ} (h : ∀ r, m'.proc r = if r = q then x else m.proc r)
    (hx : x.lock = y) (r : Nat) : (m'.proc r).lock = if r = q then y else (m.proc r).lock := by
  rw [h r]
  split
  · exact hx
  · rfl

end Mem

namespace Mem

variable [DecidableEq κ] (m : Mem κ Lk Ch D L) (c : κ) (q r : Nat)

theorem proc_lockProc :
    (m.lockProc c q).proc r = if r = q then { m.proc q with lock := some c } else m.proc r :=
  proc_setProc m q r _

theorem proc_unlockProc :
    (m.unlockProc c q).proc r = if r = q then { m.proc q with lock := none } else m.proc r :=
  proc_setProc m q r _

theorem proc_setProc_lockProc (x : Proc κ Lk Ch L) :
    ((m.setProc q x).lockProc c q).proc r =
      if r = q then { x with lock := some c } else m.proc r := by
  rw [proc_lockProc, proc_setProc, proc_setProc, if_pos rfl]
  split <;> rfl

theorem proc_setProc_unlockProc (x : Proc κ Lk Ch L) :
    ((m.setProc q x).unlockProc c q).proc r =
      if r = q then { x with lock := none } else m.proc r := by
  rw [proc_unlockProc, proc_setProc, proc_setProc, if_pos rfl]
  split <;> rfl

end Mem

theorem Mem.proc_wake [DecidableEq Ch] (m : Mem κ Lk Ch D L) (ch : Chan Ch) (q r : Nat) :
    (m.wake ch q).proc r = if r = q then
      { m.proc q with
        state := if (m.proc q).state = .sleeping ∧ (m.proc q).chan = some ch then .runnable
          else (m.proc q).state }
      else m.proc r := by
  unfold Mem.wake
  split
  · exact Mem.proc_setProc m q r _
  · split
    · rename_i hr
      rw [hr]
    · rfl

theorem Mem.wake_locks [DecidableEq Ch] (m : Mem κ Lk Ch D L) (ch : Chan Ch) (q : Nat) :
    (m.wake ch q).lock = m.lock ∧ (m.wake ch q).noff = m.noff := by
  unfold Mem.wake
  split <;> exact ⟨rfl, rfl⟩

/-! ## The locks of a point -/

variable [DecidableEq Lk] (K : Client Lk Ch D X L) (n : Nat)

def After.locks : After L → List (Lock Lk)
  | .client next => (K.held next).map .client
  | _ => [.wait]

/-- The other spin locks that the CPU holds. -/
def Pc.locks : Pc Lk Ch L → List (Lock Lk)
  | .client l => (K.held l).map .client
  | .sleep .acquire w => [w.lock]
  | .sleep .release w => [w.lock]
  | .wakeup _ _ k => k.locks K
  | .yield _ k => k.locks
  | .exit (.reparent _ _) => [.wait]
  | .exit (.zombie _) => [.wait]
  | .exit .release => [.wait]
  | .wait (.scan _ _ _) => [.wait]
  | .wait (.child _ _) => [.wait]
  | .wait (.test _ _) => [.wait]
  | .wait .done => [.wait]
  | _ => []

/-- The call of `sleep` is one of the source. -/
def Wait.Wf : Wait Lk Ch L → Prop
  | .client ch l next => ∃ l₀, K.code l₀ = .sleep ch l next
  | .kwait _ => True

/-- The frames of the point are ones that can occur: an interrupt finds no lock held. -/
def Pc.Wf (p : Nat) : Pc Lk Ch L → Prop
  | .sleep _ w => w.Wf K
  | .wakeup ch _ (.client next) => ∃ l₀ ch', ch = .client ch' ∧ K.code l₀ = .wakeup ch' next
  | .wakeup ch _ (.reparent _ _) => ch = .proc initproc
  | .wakeup ch _ (.zombie _) => ∃ r, ch = .proc r
  | .yield _ k => k.Wf p ∧ k.plocks p = [] ∧ k.locks K = []
  | _ => True

variable {K n}
variable {w : Wait Lk Ch L} {x : Proc κ Lk Ch L}

theorem Wait.locks_next (h : w.Wf K) : w.next.locks K = [w.lock] := by
  cases w with
  | client ch l next =>
    obtain ⟨l₀, h₀⟩ := h
    have hok := K.ok l₀
    rw [h₀] at hok
    show (K.held next).map Lock.client = [.client l]
    rw [hok.2]
    rfl
  | kwait addr => rfl

theorem After.pc_facts (k : After L) (p : Nat) :
    (k.pc : Pc Lk Ch L).plocks p = [] ∧ (k.pc : Pc Lk Ch L).child = none ∧
      (k.pc : Pc Lk Ch L).ready = none ∧ (k.pc : Pc Lk Ch L).locks K = k.locks K := by
  cases k <;> exact ⟨rfl, rfl, rfl, rfl⟩

/-! ## What a step does to the locks -/

variable [DecidableEq κ]

/-- The locks before and after a step of CPU `c` that holds `h` before and `h'` after it: at most
    one lock is taken or given back. -/
inductive LockEff (c : κ) (m m' : Mem κ Lk Ch D L) :
    List Nat × List (Lock Lk) → List Nat × List (Lock Lk) → Prop
  | same {h : List Nat × List (Lock Lk)} (hp : ∀ r, (m'.proc r).lock = (m.proc r).lock)
      (hl : m'.lock = m.lock) (hn : m'.noff = m.noff) : LockEff c m m' h h
  | lockProc {ps : List Nat} {ls : List (Lock Lk)} (q : Nat) (hq : (m.proc q).lock = none)
      (hp : ∀ r, (m'.proc r).lock = if r = q then some c else (m.proc r).lock)
      (hl : m'.lock = m.lock) (hn : m'.noff = update m.noff c (m.noff c + 1)) :
      LockEff c m m' (ps, ls) (q :: ps, ls)
  | unlockProc {ps : List Nat} {ls : List (Lock Lk)} (q : Nat) (hq : (m.proc q).lock = some c)
      (hp : ∀ r, (m'.proc r).lock = if r = q then none else (m.proc r).lock)
      (hl : m'.lock = m.lock) (hn : m'.noff = update m.noff c (m.noff c - 1)) :
      LockEff c m m' (q :: ps, ls) (ps, ls)
  | acquire {ps : List Nat} {ls : List (Lock Lk)} (l : Lock Lk) (hfree : m.lock l = none)
      (hp : ∀ r, (m'.proc r).lock = (m.proc r).lock)
      (hl : m'.lock = update m.lock l (some c))
      (hn : m'.noff = update m.noff c (m.noff c + 1)) :
      LockEff c m m' (ps, ls) (ps, l :: ls)
  | release {ps : List Nat} {ls : List (Lock Lk)} (l : Lock Lk) (hheld : l ∈ ls)
      (hp : ∀ r, (m'.proc r).lock = (m.proc r).lock)
      (hl : m'.lock = update m.lock l none)
      (hn : m'.noff = update m.noff c (m.noff c - 1)) :
      LockEff c m m' (ps, ls) (ps, ls.erase l)

/-- What the CPU holds while it executes process `p` at the point. -/
def Pc.holds (K : Client Lk Ch D X L) (p : Nat) (pc : Pc Lk Ch L) : List Nat × List (Lock Lk) :=
  (pc.plocks p, pc.locks K)

section lockEff

variable {c : κ} {p : Nat} {a : Act Ch X L} {m m' : Mem κ Lk Ch D L} {pc pc' : Pc Lk Ch L}

theorem LockEff.refl (h : List Nat × List (Lock Lk)) : LockEff c m m h h :=
  .same (fun _ => rfl) rfl rfl

/-- A step that changes no lock, between points that hold the same locks. -/
theorem LockEff.of_update {q : Nat} {h h' : List Nat × List (Lock Lk)}
    (hproc : ∀ r, m'.proc r = if r = q then x else m.proc r) (hx : x.lock = (m.proc q).lock)
    (hl : m'.lock = m.lock) (hn : m'.noff = m.noff) (hh : h' = h) : LockEff c m m' h h' := by
  rw [hh]
  exact .same (Mem.field_of_update Proc.lock hproc hx) hl hn

/-- What an instruction of the client does. -/
inductive ClientEff (K : Client Lk Ch D X L) (c : κ) (p : Nat) (l : L) (m : Mem κ Lk Ch D L) :
    Mem κ Lk Ch D L → Pc Lk Ch L → Prop
  | acquire (k : Lk) (next : L) (hcode : K.code l = .acquire k next)
      (hfree : m.lock (.client k) = none) :
      ClientEff K c p l m (m.acquire c (.client k)) (.client next)
  | release (k : Lk) (next : L) (hcode : K.code l = .release k next) :
      ClientEff K c p l m (m.release c (.client k)) (.client next)
  | sleep (ch : Ch) (k : Lk) (next : L) (hcode : K.code l = .sleep ch k next) :
      ClientEff K c p l m m (.sleep .acquire (.client ch k next))
  | wakeup (ch : Ch) (next : L) (hcode : K.code l = .wakeup ch next) :
      ClientEff K c p l m m (.wakeup (.client ch) 0 (.client next))
  | killed (next : Bool → L) (hcode : K.code l = .killed next) (hfree : (m.proc p).lock = none) :
      ClientEff K c p l m m (.client (next (m.proc p).killed))
  | access (f : Nat → X → D → Option (D × L)) (x : X) (d : D) (next : L)
      (hcode : K.code l = .access f) (hf : f p x m.data = some (d, next)) :
      ClientEff K c p l m { m with data := d } (.client next)
  | ret (hcode : K.code l = .ret) : ClientEff K c p l m m .user

theorem ClientEff.lockEff {l : L} (h : ClientEff K c p l m m' pc') :
    LockEff c m m' ([], (K.held l).map .client) (pc'.holds K p) := by
  have hok := K.ok l
  cases h with
  | acquire k next hcode hfree =>
    rw [hcode] at hok
    show LockEff c m _ _ ([], (K.held next).map .client)
    rw [show K.held next = k :: K.held l from hok]
    exact .acquire (.client k) hfree (fun _ => rfl) rfl rfl
  | release k next hcode =>
    rw [hcode] at hok
    show LockEff c m _ _ ([], (K.held next).map .client)
    have hinj : Function.Injective (Lock.client : Lk → Lock Lk) := by
      intro x y hxy
      injection hxy
    rw [hok.2, List.map_erase hinj]
    exact .release (.client k) (List.mem_map_of_mem hok.1) (fun _ => rfl) rfl rfl
  | sleep ch k next hcode =>
    rw [hcode] at hok
    rw [hok.1]
    exact .refl _
  | wakeup ch next hcode =>
    rw [hcode] at hok
    show LockEff c m m _ ([], (K.held next).map .client)
    rw [show K.held next = K.held l from hok]
    exact .refl _
  | killed next hcode hfree =>
    rw [hcode] at hok
    show LockEff c m m _ ([], (K.held (next _)).map .client)
    rw [hok]
    exact .refl _
  | access f x d next hcode hf =>
    rw [hcode] at hok
    show LockEff c m _ _ ([], (K.held next).map .client)
    rw [hok p x m.data d next hf]
    exact .same (fun _ => rfl) rfl rfl
  | ret hcode =>
    rw [hcode] at hok
    rw [show K.held l = [] from hok]
    exact .refl _

variable [DecidableEq Ch]

/-- What a step of `sleep` does, `sched` apart. -/
inductive SleepEff (c : κ) (p : Nat) (w : Wait Lk Ch L) (m : Mem κ Lk Ch D L) :
    SleepPt → Mem κ Lk Ch D L → Pc Lk Ch L → Prop
  | acquire (hfree : (m.proc p).lock = none) :
      SleepEff c p w m .acquire (m.lockProc c p) (.sleep .release w)
  | release : SleepEff c p w m .release (m.release c w.lock) (.sleep .set w)
  | set :
      SleepEff c p w m .set
        (m.setProc p { m.proc p with chan := some (w.chan p), state := .sleeping }) (.sleep .sched w)
  | back (hlock : (m.proc p).lock = some c) :
      SleepEff c p w m .back ((m.setProc p { m.proc p with chan := none }).unlockProc c p)
        (.sleep .reacquire w)
  | reacquire (hfree : m.lock w.lock = none) :
      SleepEff c p w m .reacquire (m.acquire c w.lock) w.next

/-- What a step of `wakeup` does. -/
inductive WakeupEff (n p : Nat) (ch : Chan Ch) (i : Nat) (k : After L) (m : Mem κ Lk Ch D L) :
    Mem κ Lk Ch D L → Pc Lk Ch L → Prop
  | done (hi : n ≤ i) : WakeupEff n p ch i k m m k.pc
  | self (hi : i = p) : WakeupEff n p ch i k m m (.wakeup ch (i + 1) k)
  | wake (hi : i ≠ p) (hfree : (m.proc i).lock = none) :
      WakeupEff n p ch i k m (m.wake ch i) (.wakeup ch (i + 1) k)

variable {i : Nat}

/-- What a step of `yield` does, `sched` apart. -/
inductive YieldEff (c : κ) (p : Nat) (k : Pc Lk Ch L) (m : Mem κ Lk Ch D L) :
    YieldPt → Mem κ Lk Ch D L → Pc Lk Ch L → Prop
  | set : YieldEff c p k m .set (m.setState p .runnable) (.yield .sched k)
  | back (hlock : (m.proc p).lock = some c) : YieldEff c p k m .back (m.unlockProc c p) k

/-- What a step of `kfork` does. -/
inductive ForkEff (n : Nat) (c : κ) (p : Nat) (m : Mem κ Lk Ch D L) :
    ForkPt → Mem κ Lk Ch D L → Pc Lk Ch L → Prop
  | none (i : Nat) (hi : n ≤ i) : ForkEff n c p m (.scan i) m .user
  | skip (i : Nat) : ForkEff n c p m (.scan i) m (.fork (.scan (i + 1)))
  | alloc (i : Nat) (hi : i < n) (hfree : (m.proc i).lock = none)
      (hu : (m.proc i).state = .unused) :
      ForkEff n c p m (.scan i) (m.allocproc c i) (.fork (.init i))
  | init (np : Nat) (hlock : (m.proc np).lock = some c) :
      ForkEff n c p m (.init np)
        ((m.setProc np { m.proc np with context := some .forkret }).unlockProc c np)
        (.fork (.parent np))
  | undo (np : Nat) (hlock : (m.proc np).lock = some c) :
      ForkEff n c p m (.init np) ((m.freeproc np).unlockProc c np) .user
  | parent (np : Nat) (hfree : m.lock .wait = .none) :
      ForkEff n c p m (.parent np) (m.setProc np { m.proc np with parent := some p })
        (.fork (.run np))
  | run (np : Nat) (hfree : (m.proc np).lock = .none) :
      ForkEff n c p m (.run np)
        { m.setState np .runnable with
          trace := .fork (m.proc np).birth (m.proc np).pid (m.proc p).birth :: m.trace }
        .user

/-- What a step of `kexit` does, `sched` apart. -/
inductive ExitEff (n : Nat) (c : κ) (p : Nat) (m : Mem κ Lk Ch D L) :
    ExitPt → Mem κ Lk Ch D L → Pc Lk Ch L → Prop
  | acquire (status : Int) (hfree : m.lock .wait = none) :
      ExitEff n c p m (.acquire status) (m.acquire c .wait) (.exit (.reparent status 0))
  | wakeParent (status : Int) (i r : Nat) (hi : n ≤ i) (hr : (m.proc p).parent = some r) :
      ExitEff n c p m (.reparent status i) m (.wakeup (.proc r) 0 (.zombie status))
  | orphan (status : Int) (i : Nat) (hi : n ≤ i) (hr : (m.proc p).parent = none) :
      ExitEff n c p m (.reparent status i) m (.exit (.zombie status))
  | reparent (status : Int) (i : Nat) (hi : i < n) (hr : (m.proc i).parent = some p) :
      ExitEff n c p m (.reparent status i)
        (m.setProc i { m.proc i with parent := some initproc })
        (.wakeup (.proc initproc) 0 (.reparent status (i + 1)))
  | skip (status : Int) (i : Nat) (hi : i < n) (hr : (m.proc i).parent ≠ some p) :
      ExitEff n c p m (.reparent status i) m (.exit (.reparent status (i + 1)))
  | zombie (status : Int) (hfree : (m.proc p).lock = none) :
      ExitEff n c p m (.zombie status)
        ((m.setProc p { m.proc p with xstate := status, state := .zombie }).lockProc c p)
        (.exit .release)
  | release : ExitEff n c p m .release (m.release c .wait) (.exit .sched)

/-- What a step of `kwait` does. -/
inductive WaitEff (n : Nat) (c : κ) (p : Nat) (m : Mem κ Lk Ch D L) :
    WaitPt → Mem κ Lk Ch D L → Pc Lk Ch L → Prop
  | acquire (addr : Nat) (hfree : m.lock .wait = none) :
      WaitEff n c p m (.acquire addr) (m.acquire c .wait) (.wait (.scan addr 0 false))
  | scanned (addr i : Nat) (havekids : Bool) (hi : n ≤ i) :
      WaitEff n c p m (.scan addr i havekids) m (.wait (.test addr havekids))
  | lock (addr i : Nat) (havekids : Bool) (hi : i < n) (hr : (m.proc i).parent = some p)
      (hfree : (m.proc i).lock = none) :
      WaitEff n c p m (.scan addr i havekids) (m.lockProc c i) (.wait (.child addr i))
  | skip (addr i : Nat) (havekids : Bool) (hi : i < n) (hr : (m.proc i).parent ≠ some p) :
      WaitEff n c p m (.scan addr i havekids) m (.wait (.scan addr (i + 1) havekids))
  | fail (addr i : Nat) (hlock : (m.proc i).lock = some c) (hz : (m.proc i).state = .zombie) :
      WaitEff n c p m (.child addr i) (m.unlockProc c i) (.wait .done)
  | reap (addr i : Nat) (hlock : (m.proc i).lock = some c) (hz : (m.proc i).state = .zombie) :
      WaitEff n c p m (.child addr i)
        { (m.freeproc i).unlockProc c i with
          trace := .reap (m.proc p).birth (m.proc i).birth (m.proc i).pid addr
            (if addr = 0 then none else some (m.proc i).xstate) :: m.trace }
        (.wait .done)
  | unlock (addr i : Nat) (hlock : (m.proc i).lock = some c) (hz : (m.proc i).state ≠ .zombie) :
      WaitEff n c p m (.child addr i) (m.unlockProc c i) (.wait (.scan addr (i + 1) true))
  | giveUp (addr : Nat) (havekids : Bool) :
      WaitEff n c p m (.test addr havekids) m (.wait .done)
  | sleep (addr : Nat) (hfree : (m.proc p).lock = none) (hk : (m.proc p).killed = false) :
      WaitEff n c p m (.test addr true) m (.sleep .acquire (.kwait addr))
  | done : WaitEff n c p m .done (m.release c .wait) .user

/-- What a step of `kkill` does. -/
inductive KillEff (pid : BitVec 32) (i : Nat) (m : Mem κ Lk Ch D L) :
    Mem κ Lk Ch D L → Pc Lk Ch L → Prop
  | none : KillEff pid i m m .user
  | skip : KillEff pid i m m (.kill pid (i + 1))
  | kill (hfree : (m.proc i).lock = .none) : KillEff pid i m (m.kill i) .user

/-- What a process in user space does. -/
inductive UserEff (K : Client Lk Ch D X L) (p : Nat) (m : Mem κ Lk Ch D L) :
    Mem κ Lk Ch D L → Pc Lk Ch L → Prop
  | fork : UserEff K p m m (.fork (.scan 0))
  | exit (status : Int) (hp : p ≠ initproc) :
      UserEff K p m { m with trace := .exit (m.proc p).birth status :: m.trace }
        (.exit (.acquire status))
  | wait (addr : Nat) : UserEff K p m m (.wait (.acquire addr))
  | kill (pid : BitVec 32) : UserEff K p m m (.kill pid 0)
  | fault (hfree : (m.proc p).lock = none) :
      UserEff K p m (m.setProc p { m.proc p with killed := true }) .user
  | enter (l : L) (hl : K.entry l = true) : UserEff K p m m (.client l)

/-- What a thread leaves its CPU with. -/
inductive SwtchEff : Pc Lk Ch L → Pc Lk Ch L → Prop
  | sleep (w : Wait Lk Ch L) : SwtchEff (.sleep .sched w) (.sleep .back w)
  | yield (k : Pc Lk Ch L) : SwtchEff (.yield .sched k) (.yield .back k)
  | exit : SwtchEff (.exit .sched) (.exit .back)

/-- What a step of a thread does. -/
inductive ThreadEff (K : Client Lk Ch D X L) (n : Nat) (c : κ) (p : Nat) (m : Mem κ Lk Ch D L) :
    Pc Lk Ch L → Mem κ Lk Ch D L → Next Lk Ch L → Prop
  | user {m' : Mem κ Lk Ch D L} {pc' : Pc Lk Ch L} (h : UserEff K p m m' pc') :
      ThreadEff K n c p m .user m' (.go pc')
  | client {m' : Mem κ Lk Ch D L} {pc' : Pc Lk Ch L} (l : L) (h : ClientEff K c p l m m' pc') :
      ThreadEff K n c p m (.client l) m' (.go pc')
  | forkret (hlock : (m.proc p).lock = some c) :
      ThreadEff K n c p m .forkret (m.unlockProc c p) (.go .user)
  | sleep {m' : Mem κ Lk Ch D L} {pc' : Pc Lk Ch L} (pt : SleepPt) (w : Wait Lk Ch L)
      (h : SleepEff c p w m pt m' pc') : ThreadEff K n c p m (.sleep pt w) m' (.go pc')
  | wakeup {m' : Mem κ Lk Ch D L} {pc' : Pc Lk Ch L} (ch : Chan Ch) (i : Nat) (k : After L)
      (h : WakeupEff n p ch i k m m' pc') : ThreadEff K n c p m (.wakeup ch i k) m' (.go pc')
  | yield {m' : Mem κ Lk Ch D L} {pc' : Pc Lk Ch L} (pt : YieldPt) (k : Pc Lk Ch L)
      (h : YieldEff c p k m pt m' pc') : ThreadEff K n c p m (.yield pt k) m' (.go pc')
  | kill {m' : Mem κ Lk Ch D L} {pc' : Pc Lk Ch L} (pid : BitVec 32) (i : Nat)
      (h : KillEff pid i m m' pc') : ThreadEff K n c p m (.kill pid i) m' (.go pc')
  | fork {m' : Mem κ Lk Ch D L} {pc' : Pc Lk Ch L} (pt : ForkPt) (h : ForkEff n c p m pt m' pc') :
      ThreadEff K n c p m (.fork pt) m' (.go pc')
  | exit {m' : Mem κ Lk Ch D L} {pc' : Pc Lk Ch L} (pt : ExitPt) (h : ExitEff n c p m pt m' pc') :
      ThreadEff K n c p m (.exit pt) m' (.go pc')
  | wait {m' : Mem κ Lk Ch D L} {pc' : Pc Lk Ch L} (pt : WaitPt) (h : WaitEff n c p m pt m' pc') :
      ThreadEff K n c p m (.wait pt) m' (.go pc')
  | swtch {pc saved : Pc Lk Ch L} (hnoff : m.noff c = 1) (h : SwtchEff pc saved) :
      ThreadEff K n c p m pc m (.swtch saved)

variable {r : Next Lk Ch L}

theorem ThreadEff.of_sched {saved : Pc Lk Ch L} (hs : SwtchEff pc saved)
    (h : sched c p saved m = some (m', r)) : ThreadEff K n c p m pc m' r := by
  obtain ⟨⟨-, hnoff, -⟩, ⟨⟩⟩ := ite_none_right_eq_some.mp h
  exact .swtch hnoff hs

theorem userStep_eff (h : userStep K p a m = some (m', r)) :
    ThreadEff K n c p m .user m' r := by
  cases a with
  | fork =>
    cases h
    exact .user .fork
  | exit status =>
    simp only [userStep] at h
    split at h
    · cases h
    · rename_i hp
      cases h
      exact .user (.exit status hp)
  | wait addr =>
    cases h
    exact .user (.wait addr)
  | kill pid =>
    cases h
    exact .user (.kill pid)
  | fault =>
    obtain ⟨hfree, ⟨⟩⟩ := ite_none_right_eq_some.mp h
    exact .user (.fault hfree)
  | enter l =>
    obtain ⟨hl, ⟨⟩⟩ := ite_none_right_eq_some.mp h
    exact .user (.enter l hl)
  | _ => cases h

theorem clientStep_eff {l : L} (h : clientStep K c p l a m = some (m', r)) :
    ThreadEff K n c p m (.client l) m' r := by
  unfold clientStep at h
  cases hcode : K.code l <;> rw [hcode] at h <;> cases a <;> simp only [reduceCtorEq] at h
  case acquire.run k next =>
    obtain ⟨hfree, ⟨⟩⟩ := ite_none_right_eq_some.mp h
    exact .client l (.acquire k next hcode hfree)
  case release.run k next =>
    obtain ⟨_, ⟨⟩⟩ := ite_none_right_eq_some.mp h
    exact .client l (.release k next hcode)
  case sleep.run ch k next =>
    cases h
    exact .client l (.sleep ch k next hcode)
  case wakeup.run ch next =>
    cases h
    exact .client l (.wakeup ch next hcode)
  case killed.run next =>
    obtain ⟨hfree, ⟨⟩⟩ := ite_none_right_eq_some.mp h
    exact .client l (.killed next hcode hfree)
  case access.input f x =>
    split at h
    · rename_i d next hf
      cases h
      exact .client l (.access f x d next hcode hf)
    · cases h
  case ret.run =>
    cases h
    exact .client l (.ret hcode)

theorem sleepStep_eff {pt : SleepPt} (h : sleepStep c p w m pt = some (m', r)) :
    ThreadEff K n c p m (.sleep pt w) m' r := by
  cases pt with
  | acquire =>
    obtain ⟨hfree, ⟨⟩⟩ := ite_none_right_eq_some.mp h
    exact .sleep _ w (.acquire hfree)
  | release =>
    obtain ⟨_, ⟨⟩⟩ := ite_none_right_eq_some.mp h
    exact .sleep _ w .release
  | set =>
    cases h
    exact .sleep _ w .set
  | sched => exact .of_sched (.sleep w) h
  | back =>
    obtain ⟨hlock, ⟨⟩⟩ := ite_none_right_eq_some.mp h
    exact .sleep _ w (.back hlock)
  | reacquire =>
    obtain ⟨hfree, ⟨⟩⟩ := ite_none_right_eq_some.mp h
    exact .sleep _ w (.reacquire hfree)

theorem wakeupStep_eff {ch : Chan Ch} {k : After L}
    (h : wakeupStep n p ch i k m = some (m', r)) :
    ThreadEff K n c p m (.wakeup ch i k) m' r := by
  unfold wakeupStep at h
  split at h
  · rename_i hi
    cases h
    exact .wakeup ch i k (.done hi)
  · split at h
    · rename_i hp
      cases h
      exact .wakeup ch i k (.self hp)
    · rename_i hp
      obtain ⟨hfree, ⟨⟩⟩ := ite_none_right_eq_some.mp h
      exact .wakeup ch i k (.wake hp hfree)

theorem yieldStep_eff {pt : YieldPt} {k : Pc Lk Ch L}
    (h : yieldStep c p k m pt = some (m', r)) :
    ThreadEff K n c p m (.yield pt k) m' r := by
  cases pt with
  | set =>
    cases h
    exact .yield _ k .set
  | sched => exact .of_sched (.yield k) h
  | back =>
    obtain ⟨hlock, ⟨⟩⟩ := ite_none_right_eq_some.mp h
    exact .yield _ k (.back hlock)

theorem killStep_eff {pid : BitVec 32} (h : killStep n pid i m = some (m', r)) :
    ThreadEff K n c p m (.kill pid i) m' r := by
  unfold killStep at h
  split at h
  · cases h
    exact .kill pid i .none
  · obtain ⟨hfree, h⟩ := ite_none_right_eq_some.mp h
    split at h
    · cases h
      exact .kill pid i (.kill hfree)
    · cases h
      exact .kill pid i .skip

theorem forkStep_eff {pt : ForkPt} {ok : Bool}
    (h : forkStep n c p ok m pt = some (m', r)) : ThreadEff K n c p m (.fork pt) m' r := by
  cases pt with
  | scan i =>
    simp only [forkStep] at h
    split at h
    · rename_i hi
      cases h
      exact .fork _ (.none i hi)
    · rename_i hi
      obtain ⟨hfree, h⟩ := ite_none_right_eq_some.mp h
      split at h
      · rename_i hu
        cases h
        exact .fork _ (.alloc i (Nat.lt_of_not_ge hi) hfree hu)
      · cases h
        exact .fork _ (.skip i)
  | init np =>
    obtain ⟨hlock, h⟩ := ite_none_right_eq_some.mp h
    split at h
    · cases h
      exact .fork _ (.init np hlock)
    · cases h
      exact .fork _ (.undo np hlock)
  | parent np =>
    obtain ⟨hfree, ⟨⟩⟩ := ite_none_right_eq_some.mp h
    exact .fork _ (.parent np hfree)
  | run np =>
    obtain ⟨hfree, ⟨⟩⟩ := ite_none_right_eq_some.mp h
    exact .fork _ (.run np hfree)

theorem exitStep_eff {pt : ExitPt} (h : exitStep n c p m pt = some (m', r)) :
    ThreadEff K n c p m (.exit pt) m' r := by
  cases pt with
  | acquire status =>
    obtain ⟨hfree, ⟨⟩⟩ := ite_none_right_eq_some.mp h
    exact .exit _ (.acquire status hfree)
  | reparent status i =>
    simp only [exitStep] at h
    split at h
    · rename_i hi
      split at h
      · rename_i r hr
        cases h
        exact .exit _ (.wakeParent status i r hi hr)
      · rename_i hr
        cases h
        exact .exit _ (.orphan status i hi hr)
    · rename_i hi
      split at h
      · rename_i hr
        cases h
        exact .exit _ (.reparent status i (Nat.lt_of_not_ge hi) hr)
      · rename_i hr
        cases h
        exact .exit _ (.skip status i (Nat.lt_of_not_ge hi) hr)
  | zombie status =>
    obtain ⟨hfree, ⟨⟩⟩ := ite_none_right_eq_some.mp h
    exact .exit _ (.zombie status hfree)
  | release =>
    obtain ⟨_, ⟨⟩⟩ := ite_none_right_eq_some.mp h
    exact .exit _ .release
  | sched => exact .of_sched .exit h
  | back => cases h

theorem waitStep_eff {pt : WaitPt} {ok : Bool}
    (h : waitStep n c p ok m pt = some (m', r)) : ThreadEff K n c p m (.wait pt) m' r := by
  cases pt with
  | acquire addr =>
    obtain ⟨hfree, ⟨⟩⟩ := ite_none_right_eq_some.mp h
    exact .wait _ (.acquire addr hfree)
  | scan addr i havekids =>
    simp only [waitStep] at h
    split at h
    · rename_i hi
      cases h
      exact .wait _ (.scanned addr i havekids hi)
    · rename_i hi
      split at h
      · rename_i hr
        obtain ⟨hfree, ⟨⟩⟩ := ite_none_right_eq_some.mp h
        exact .wait _ (.lock addr i havekids (Nat.lt_of_not_ge hi) hr hfree)
      · rename_i hr
        cases h
        exact .wait _ (.skip addr i havekids (Nat.lt_of_not_ge hi) hr)
  | child addr i =>
    obtain ⟨hlock, h⟩ := ite_none_right_eq_some.mp h
    split at h
    · rename_i hz
      split at h
      · cases h
        exact .wait _ (.fail addr i hlock hz)
      · cases h
        exact .wait _ (.reap addr i hlock hz)
    · rename_i hz
      cases h
      exact .wait _ (.unlock addr i hlock hz)
  | test addr havekids =>
    simp only [waitStep] at h
    split at h
    · cases h
      exact .wait _ (.giveUp addr havekids)
    · rename_i hk
      obtain ⟨hfree, h⟩ := ite_none_right_eq_some.mp h
      split at h
      · cases h
        exact .wait _ (.giveUp addr havekids)
      · rename_i hkilled
        cases h
        rw [Bool.not_eq_false] at hk
        rw [hk]
        exact .wait _ (.sleep addr hfree (Bool.not_eq_true _ ▸ hkilled))
  | done =>
    obtain ⟨_, ⟨⟩⟩ := ite_none_right_eq_some.mp h
    exact .wait _ .done

theorem threadStep_eff (h : threadStep K n c p a m pc = some (m', r)) :
    ThreadEff K n c p m pc m' r := by
  cases pc with
  | user => exact userStep_eff h
  | client l => exact clientStep_eff h
  | forkret =>
    obtain ⟨hlock, ⟨⟩⟩ := ite_none_right_eq_some.mp h
    exact .forkret hlock
  | sleep pt w => exact sleepStep_eff h
  | wakeup ch i k => exact wakeupStep_eff h
  | yield pt k => exact yieldStep_eff h
  | kill pid i => exact killStep_eff h
  | fork pt => exact forkStep_eff h
  | exit pt => exact exitStep_eff h
  | wait pt => exact waitStep_eff h

/-! A step of each function changes the locks as its points say. -/

omit [DecidableEq Ch]

theorem SleepEff.lockEff {pt : SleepPt} (hw : w.Wf K) (h : SleepEff c p w m pt m' pc') :
    LockEff c m m' ((Pc.sleep pt w).holds K p) (pc'.holds K p) := by
  cases h with
  | acquire hfree =>
    exact .lockProc p hfree (Mem.lock_of_update_eq (Mem.proc_lockProc m c p) rfl) rfl rfl
  | release =>
    have heff : LockEff c m (m.release c w.lock) ([p], [w.lock]) ([p], [w.lock].erase w.lock) :=
      .release w.lock List.mem_cons_self (fun _ => rfl) rfl rfl
    rw [List.erase_cons_head] at heff
    exact heff
  | set => exact .of_update (Mem.proc_setProc m p · _) rfl rfl rfl rfl
  | back hlock =>
    exact .unlockProc p hlock
      (Mem.lock_of_update_eq (Mem.proc_setProc_unlockProc m c p · _) rfl) rfl rfl
  | reacquire hfree =>
    unfold Pc.holds
    rw [(w.next_facts p).1, Wait.locks_next hw]
    exact .acquire w.lock hfree (fun _ => rfl) rfl rfl

theorem WakeupEff.lockEff [DecidableEq Ch] {ch : Chan Ch} {k : After L} (h : WakeupEff n p ch i k m m' pc') :
    LockEff c m m' ((Pc.wakeup ch i k).holds K p) (pc'.holds K p) := by
  cases h with
  | done hi =>
    unfold Pc.holds
    rw [(k.pc_facts (K := K) p).1, (k.pc_facts p).2.2.2]
    exact .refl _
  | self hi => exact .refl _
  | wake hi hfree =>
    exact .of_update (m.proc_wake ch i) rfl (m.wake_locks ch i).1 (m.wake_locks ch i).2 rfl

theorem YieldEff.lockEff {pt : YieldPt} {k : Pc Lk Ch L} (h : YieldEff c p k m pt m' pc') :
    LockEff c m m' ((Pc.yield pt k).holds K p) (pc'.holds K p) := by
  cases h with
  | set => exact .of_update (Mem.proc_setProc m p · _) rfl rfl rfl rfl
  | back hlock =>
    exact .unlockProc p hlock (Mem.lock_of_update_eq (Mem.proc_unlockProc m c p) rfl) rfl rfl

theorem KillEff.lockEff {pid : BitVec 32} (h : KillEff pid i m m' pc') :
    LockEff c m m' ((Pc.kill pid i).holds K p) (pc'.holds K p) := by
  cases h with
  | kill hfree => exact .of_update (Mem.proc_setProc m i · _) rfl rfl rfl rfl
  | _ => exact .refl _

theorem ForkEff.lockEff {pt : ForkPt} (h : ForkEff n c p m pt m' pc') :
    LockEff c m m' ((Pc.fork pt).holds K p) (pc'.holds K p) := by
  cases h with
  | none | skip => exact .refl _
  | alloc i hi hfree hu =>
    exact .lockProc i hfree (Mem.lock_of_update_eq (Mem.proc_setProc_lockProc m c i · _) rfl) rfl rfl
  | init np hlock | undo np hlock =>
    exact .unlockProc np hlock
      (Mem.lock_of_update_eq (Mem.proc_setProc_unlockProc m c np · _) rfl) rfl rfl
  | parent np | run np => exact .of_update (Mem.proc_setProc m np · _) rfl rfl rfl rfl

theorem ExitEff.lockEff {pt : ExitPt} (h : ExitEff n c p m pt m' pc') :
    LockEff c m m' ((Pc.exit pt).holds K p) (pc'.holds K p) := by
  cases h with
  | acquire status hfree => exact .acquire .wait hfree (fun _ => rfl) rfl rfl
  | wakeParent | orphan | skip => exact .refl _
  | reparent status i hi hr => exact .of_update (Mem.proc_setProc m i · _) rfl rfl rfl rfl
  | zombie status hfree =>
    exact .lockProc p hfree (Mem.lock_of_update_eq (Mem.proc_setProc_lockProc m c p · _) rfl) rfl rfl
  | release => exact .release .wait List.mem_cons_self (fun _ => rfl) rfl rfl

theorem WaitEff.lockEff {pt : WaitPt} (h : WaitEff n c p m pt m' pc') :
    LockEff c m m' ((Pc.wait pt).holds K p) (pc'.holds K p) := by
  cases h with
  | acquire addr hfree => exact .acquire .wait hfree (fun _ => rfl) rfl rfl
  | scanned | skip | giveUp | sleep => exact .refl _
  | lock addr i havekids hi hr hfree =>
    exact .lockProc i hfree (Mem.lock_of_update_eq (Mem.proc_lockProc m c i) rfl) rfl rfl
  | fail _ i hlock | unlock _ i hlock =>
    exact .unlockProc i hlock (Mem.lock_of_update_eq (Mem.proc_unlockProc m c i) rfl) rfl rfl
  | reap addr i hlock hz =>
    exact .unlockProc i hlock
      (Mem.lock_of_update_eq (Mem.proc_setProc_unlockProc m c i · _) rfl) rfl rfl
  | done => exact .release .wait List.mem_cons_self (fun _ => rfl) rfl rfl

theorem UserEff.lockEff (h : UserEff K p m m' pc') :
    LockEff c m m' ((Pc.user : Pc Lk Ch L).holds K p) (pc'.holds K p) := by
  cases h with
  | exit status hp => exact .same (fun _ => rfl) rfl rfl
  | fault hfree => exact .of_update (Mem.proc_setProc m p · _) rfl rfl rfl rfl
  | enter l hl =>
    unfold Pc.holds Pc.locks
    rw [K.entry_held l hl]
    exact .refl _
  | _ => exact .refl _

/-- The locks after a step are those of the point the thread goes on at. -/
theorem threadStep_lockEff [DecidableEq Ch] (hwf : pc.Wf K p) (h : threadStep K n c p a m pc = some (m', .go pc')) :
    LockEff c m m' (pc.holds K p) (pc'.holds K p) := by
  cases threadStep_eff h with
  | user heff | client _ heff | wakeup _ _ _ heff | yield _ _ heff | kill _ _ heff
  | fork _ heff | exit _ heff | wait _ heff => exact heff.lockEff
  | forkret hlock =>
    exact .unlockProc p hlock (Mem.lock_of_update_eq (Mem.proc_unlockProc m c p) rfl) rfl rfl
  | sleep pt w heff => exact heff.lockEff hwf

end lockEff

end Xv6.Sched
