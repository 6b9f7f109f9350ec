/-
  Interrupts and the nesting of `push_off` and `pop_off` (`kernel/spinlock.c`, `kernel/proc.c`).

  A core has the interrupt-enable bit and the fields `noff` and `intena` of its `struct cpu`.  It
  executes the loop of `scheduler` or a kernel thread, or a trap handler on the stack of either.  What
  the threads do is left open: they call `push_off` and `pop_off` in any order that is balanced, call
  `sched` when `noff` is 1, and turn interrupts on and off where they hold no lock, as `usertrap` and
  `prepare_return` do.  `push_off` is cut where an interrupt can come in.  A thread that is switched
  out can be resumed by any core whose scheduler holds its lock.

  Each frame counts its own `push_off`s and remembers whether interrupts were enabled before the
  outermost one (`before`).  No step looks at that; `interrupt_discipline` says that the outermost
  `pop_off` goes back to it, on whatever core, that no core has interrupts enabled while its `noff` is
  positive, and that `scheduler` waits for interrupts with interrupts disabled.
-/
import Mathlib.Data.List.Basic
import Mathlib.Logic.Function.Basic
import Xv6.Param

namespace Xv6.Intr

/-! ## One core -/

/-- The interrupt-enable bit and `struct cpu`. -/
structure Cpu where
  intr : Bool
  noff : Nat
  intena : Bool
  deriving DecidableEq

namespace Cpu

/-- `push_off` after `intr_off()`. -/
def pushOff (cpu : Cpu) (old : Bool) : Cpu :=
  { cpu with intena := if cpu.noff = 0 then old else cpu.intena, noff := cpu.noff + 1 }

/-- `pop_off`, or one of its panics. -/
def popOff (cpu : Cpu) : Option Cpu :=
  if cpu.intr then none
  else if cpu.noff < 1 then none
  else
    some { cpu with
      noff := cpu.noff - 1
      intr := if cpu.noff - 1 = 0 ∧ cpu.intena then true else cpu.intr }

end Cpu

/-! ## Threads and handlers -/

/-- Where a thread or a handler is: between calls, in `push_off` before and after `intr_off()`, or
    back in `sched` with its local variable `intena`. -/
inductive Point where
  | idle
  | got (old : Bool)
  | off (old : Bool)
  | back (intena : Bool)
  deriving DecidableEq

/-- The code of a thread, or of a handler that interrupted it, with the number of its open
    `push_off`s. -/
structure Frame where
  pt : Point
  depth : Nat
  before : Option Bool
  deriving DecidableEq

inductive Act where
  | run
  | pushOff
  | popOff
  | sched
  | intr (on : Bool)
  | trap
  | sret
  | resume
  | fork (t : Nat)

/-- One step of a frame alone. -/
def Frame.step (cpu : Cpu) (f : Frame) : Act → Option (Cpu × Frame)
  | .pushOff =>
    if f.pt = .idle then
      some (cpu, { f with
        pt := .got cpu.intr
        before := if f.depth = 0 then some cpu.intr else f.before })
    else none
  | .popOff =>
    if f.pt = .idle ∧ 0 < f.depth then
      match cpu.popOff with
      | some cpu => some (cpu, { f with depth := f.depth - 1 })
      | none => none
    else none
  | .intr on => if f.pt = .idle ∧ f.depth = 0 then some ({ cpu with intr := on }, f) else none
  | .run =>
    match f.pt with
    | .got old => some ({ cpu with intr := false }, { f with pt := .off old })
    | .off old => some (cpu.pushOff old, { f with pt := .idle, depth := f.depth + 1 })
    | .back intena => some ({ cpu with intena := intena }, { f with pt := .idle })
    | .idle => none
  | _ => none

/-! ## The scheduler -/

/-- `scheduler`, at: `intr_on()`, `intr_off()`, the loop at process `i`, in the `push_off` of its
    `acquire`, with `p->lock` held, away in `swtch`, before `release`, after the loop, at `wfi`. -/
inductive SchedPt where
  | on
  | off
  | loop (i : Nat)
  | got (i : Nat) (old : Bool)
  | offed (i : Nat) (old : Bool)
  | held (i : Nat)
  | away (i : Nat)
  | release (i : Nat)
  | done
  | wfi
  deriving DecidableEq

/-- One step of `scheduler` over `n` processes, except for `swtch`. -/
def schedStep (n : Nat) (cpu : Cpu) (found : Bool) : SchedPt → Option (Cpu × Bool × SchedPt)
  | .on => some ({ cpu with intr := true }, found, .off)
  | .off => some ({ cpu with intr := false }, false, .loop 0)
  | .loop i => some (cpu, found, if i < n then .got i cpu.intr else .done)
  | .got i old => some ({ cpu with intr := false }, found, .offed i old)
  | .offed i old => some (cpu.pushOff old, found, .held i)
  | .held i => some (cpu, found, .release i)
  | .release i =>
    match cpu.popOff with
    | some cpu => some (cpu, found, .loop (i + 1))
    | none => none
  | .done => some (cpu, found, if found = false then .wfi else .on)
  | .wfi => some (cpu, found, .on)
  | .away _ => none

/-! ## The system -/

/-- What a core executes: a thread, or the scheduler with the handlers on its stack. -/
structure Core where
  cpu : Cpu
  pt : SchedPt
  found : Bool
  handlers : List Frame
  cur : Option Nat

structure Thread where
  frames : List Frame
  running : Bool

structure State (κ : Type) where
  core : κ → Core
  thread : Nat → Thread

variable {κ : Type} [DecidableEq κ]

/-- A process that has not run yet starts in `forkret`, with its lock held by the scheduler. -/
def Thread.fresh : Thread := ⟨[⟨.idle, 1, none⟩], false⟩

def State.setCore (s : State κ) (c : κ) (x : Core) : State κ :=
  { s with core := Function.update s.core c x }

def State.setThread (s : State κ) (t : Nat) (x : Thread) : State κ :=
  { s with thread := Function.update s.thread t x }

/-- The frames of what core `c` executes, innermost first. None is the scheduler itself. -/
def State.frames (s : State κ) (c : κ) : List Frame :=
  match (s.core c).cur with
  | some t => (s.thread t).frames
  | none => (s.core c).handlers

/-- The core goes on with these frames. -/
def State.setFrames (s : State κ) (c : κ) (cpu : Cpu) (fs : List Frame) : State κ :=
  match (s.core c).cur with
  | some t => (s.setCore c { s.core c with cpu := cpu }).setThread t ⟨fs, true⟩
  | none => s.setCore c { s.core c with cpu := cpu, handlers := fs }

/-- A step of what core `c` executes, in its innermost frame or in `scheduler`. -/
def ordinary (n : Nat) (s : State κ) (c : κ) (a : Act) : Option (State κ) :=
  match s.frames c with
  | f :: rest =>
    match f.step (s.core c).cpu a with
    | some (cpu, f) => some (s.setFrames c cpu (f :: rest))
    | none => none
  | [] =>
    match a, (s.core c).cur, schedStep n (s.core c).cpu (s.core c).found (s.core c).pt with
    | .run, none, some (cpu, found, pt) =>
      some (s.setCore c { s.core c with cpu := cpu, found := found, pt := pt })
    | _, _, _ => none

/-- One step of core `c`. -/
def step (n : Nat) (s : State κ) (c : κ) : Act → Option (State κ)
  -- an interrupt: the handler starts with interrupts disabled
  | .trap =>
    if (s.core c).cpu.intr then
      some (s.setFrames c { (s.core c).cpu with intr := false } (⟨.idle, 0, none⟩ :: s.frames c))
    else none
  | .sret =>
    match s.frames c with
    | f :: rest =>
      -- a handler returns, with interrupts as they were
      if f.pt = .idle ∧ f.depth = 0 ∧ (rest ≠ [] ∨ (s.core c).cur = none) then
        some (s.setFrames c { (s.core c).cpu with intr := true } rest)
      else none
    | [] => none
  | .sched =>
    match (s.core c).cur, s.frames c, (s.core c).pt with
    | some t, f :: rest, .away i =>
      if f.pt = .idle ∧ 0 < f.depth ∧ (s.core c).cpu.noff = 1 ∧ (s.core c).cpu.intr = false then
        some ((s.setCore c { s.core c with pt := .release i, found := true, cur := none }).setThread t
          ⟨{ f with pt := .back (s.core c).cpu.intena } :: rest, false⟩)
      else none
    | _, _, _ => none
  | .resume =>
    match (s.core c).cur, s.frames c, (s.core c).pt with
    | none, [], .held i =>
      if (s.thread i).running then none
      else
        some ((s.setCore c { s.core c with pt := .away i, cur := some i }).setThread i
          { s.thread i with running := true })
    | _, _, _ => none
  | .fork t => if (s.thread t).running then none else some (s.setThread t .fresh)
  | a => ordinary n s c a

def run (n : Nat) : State κ → List (κ × Act) → Option (State κ)
  | s, [] => some s
  | s, (c, a) :: acts =>
    match step n s c a with
    | some t => run n t acts
    | none => none

/-- The cores enter `scheduler`; no process has run. -/
def State.init (intr : κ → Bool) : State κ where
  core := fun c => ⟨⟨intr c, 0, false⟩, .on, false, [], none⟩
  thread := fun _ => .fresh

/-! ## One core: invariants -/

/-- The innermost frame owns `noff`; `intena` is what its outermost `push_off` found. -/
structure FrameOk (cpu : Cpu) (f : Frame) : Prop where
  noff : cpu.noff = f.depth
  intr : 0 < f.depth → cpu.intr = false
  intena : 0 < f.depth → (∀ v, f.pt ≠ .back v) → ∀ b, f.before = some b → cpu.intena = b
  got : ∀ old, f.pt = .got old → f.depth = 0 → f.before = some old
  off : ∀ old, f.pt = .off old → cpu.intr = false ∧ (f.depth = 0 → f.before = some old)
  back : ∀ v, f.pt = .back v → f.depth = 1 ∧ ∀ b, f.before = some b → v = b

/-- A frame that has been interrupted: it holds nothing. -/
structure Below (f : Frame) : Prop where
  depth : f.depth = 0
  got : ∀ old, f.pt = .got old → f.before = some old
  off : ∀ old, f.pt ≠ .off old
  back : ∀ v, f.pt ≠ .back v

def StackOk (cpu : Cpu) : List Frame → Prop
  | [] => False
  | f :: rest => FrameOk cpu f ∧ ∀ g ∈ rest, Below g

/-- The scheduler keeps interrupts disabled in a round in which it has not found a process. -/
def SchedOk (cpu : Cpu) (found : Bool) : SchedPt → Prop
  | .on => cpu.noff = 0
  | .off => cpu.noff = 0
  | .loop _ => cpu.noff = 0 ∧ (found = false → cpu.intr = false)
  | .got _ old => cpu.noff = 0 ∧ (found = false → cpu.intr = false ∧ old = false)
  | .offed _ old => cpu.noff = 0 ∧ cpu.intr = false ∧ (found = false → old = false)
  | .held _ => cpu.noff = 1 ∧ cpu.intr = false ∧ (found = false → cpu.intena = false)
  | .release _ => cpu.noff = 1 ∧ cpu.intr = false ∧ (found = false → cpu.intena = false)
  | .done => cpu.noff = 0 ∧ (found = false → cpu.intr = false)
  | .wfi => cpu.noff = 0 ∧ cpu.intr = false
  | .away _ => False

/-- A thread that is not executed: it is in `sched`, or has not run yet. -/
def SavedOk : List Frame → Prop
  | [] => False
  | f :: rest => f.depth = 1 ∧ (f.pt = .idle ∧ f.before = none ∨
      ∃ v, f.pt = .back v ∧ ∀ b, f.before = some b → v = b) ∧ ∀ g ∈ rest, Below g

theorem popOff_some {cpu : Cpu} (hintr : cpu.intr = false) (hnoff : 0 < cpu.noff) :
    cpu.popOff = some { cpu with
      noff := cpu.noff - 1, intr := decide (cpu.noff = 1) && cpu.intena } := by
  unfold Cpu.popOff
  rw [if_neg (by rw [hintr]; decide), if_neg (by omega), hintr]
  have hiff : cpu.noff - 1 = 0 ↔ cpu.noff = 1 := by omega
  simp only [hiff]
  congr 2
  by_cases h1 : cpu.noff = 1
  · simp [h1]
  · simp [h1]

variable {a : Act}

namespace FrameOk

variable {cpu cpu' : Cpu} {f f' : Frame}

theorem pushOff_ok (h : FrameOk cpu f) (hpt : f.pt = .idle) :
    FrameOk cpu { f with
      pt := .got cpu.intr, before := if f.depth = 0 then some cpu.intr else f.before } := by
  refine ⟨h.noff, h.intr, ?_, ?_, nofun, nofun⟩
  · intro hd _ b hb
    dsimp only at hd hb
    rw [if_neg (by omega)] at hb
    exact h.intena hd (by rw [hpt]; exact nofun) b hb
  · rintro old ⟨⟩ hd
    exact if_pos hd

theorem popOff_ok (h : FrameOk cpu f) (hpt : f.pt = .idle) (hd : 0 < f.depth)
    (hp : cpu.popOff = some cpu') : FrameOk cpu' { f with depth := f.depth - 1 } := by
  have hnoff := h.noff
  rw [popOff_some (h.intr hd) (by omega)] at hp
  cases hp
  refine ⟨?_, ?_, ?_, ?_, ?_, ?_⟩
  · dsimp only
    omega
  · dsimp only
    intro hd'
    have h1 : ¬ cpu.noff = 1 := by omega
    simp [h1]
  · intro hd' hne
    exact h.intena hd hne
  · intro old hc
    rw [hpt] at hc
    cases hc
  · intro old hc
    rw [hpt] at hc
    cases hc
  · intro v hc
    rw [hpt] at hc
    cases hc

/-- The rest of `push_off`. -/
theorem run_ok (h : FrameOk cpu f) (hs : f.step cpu .run = some (cpu', f')) : FrameOk cpu' f' := by
  simp only [Frame.step] at hs
  split at hs
  · rename_i old hpt
    cases hs
    refine ⟨h.noff, fun _ => rfl, ?_, nofun, ?_, nofun⟩
    · intro hd _
      exact h.intena hd (by rw [hpt]; exact nofun)
    · rintro o ⟨⟩
      exact ⟨rfl, h.got old hpt⟩
  · rename_i old hpt
    cases hs
    obtain ⟨hintr, hbefore⟩ := h.off old hpt
    refine ⟨congrArg (· + 1) h.noff, fun _ => hintr, ?_, nofun, nofun, nofun⟩
    intro _ _ b hb
    show (if cpu.noff = 0 then old else cpu.intena) = b
    rw [h.noff]
    by_cases hd : f.depth = 0
    · rw [if_pos hd]
      rw [hbefore hd] at hb
      exact Option.some.inj hb
    · rw [if_neg hd]
      exact h.intena (by omega) (by rw [hpt]; exact nofun) b hb
  · rename_i v hpt
    cases hs
    obtain ⟨hd, hv⟩ := h.back v hpt
    exact ⟨h.noff, h.intr, fun _ _ => hv, nofun, nofun, nofun⟩
  · cases hs

theorem step_ok (h : FrameOk cpu f) (hs : f.step cpu a = some (cpu', f')) : FrameOk cpu' f' := by
  cases a with
  | run => exact h.run_ok hs
  | pushOff =>
    obtain ⟨hpt, ⟨⟩⟩ := Option.ite_none_right_eq_some.mp hs
    exact h.pushOff_ok hpt
  | popOff =>
    obtain ⟨hpt, hs⟩ := Option.ite_none_right_eq_some.mp hs
    split at hs
    · rename_i x hp
      cases hs
      exact h.popOff_ok hpt.1 hpt.2 hp
    · cases hs
  | intr on =>
    obtain ⟨hpt, ⟨⟩⟩ := Option.ite_none_right_eq_some.mp hs
    refine ⟨h.noff, ?_, h.intena, h.got, ?_, h.back⟩
    · intro hd
      omega
    · intro old hc
      rw [hpt.1] at hc
      cases hc
  | _ => cases hs

/-- A frame can be interrupted only where it holds nothing. -/
theorem below (h : FrameOk cpu f) (hintr : cpu.intr = true) : Below f := by
  have hd : f.depth = 0 := by
    by_contra hne
    rw [h.intr (Nat.pos_of_ne_zero hne)] at hintr
    cases hintr
  refine ⟨hd, fun old hpt => h.got old hpt hd, ?_, ?_⟩
  · intro old hpt
    rw [(h.off old hpt).1] at hintr
    cases hintr
  · intro v hpt
    have := (h.back v hpt).1
    omega

/-- The handler has returned. -/
theorem of_below (h : Below f) (hnoff : cpu.noff = 0) : FrameOk { cpu with intr := true } f := by
  refine ⟨hnoff.trans h.depth.symm, ?_, ?_, fun old hpt _ => h.got old hpt, ?_, ?_⟩
  · intro hd
    rw [h.depth] at hd
    cases hd
  · intro hd
    rw [h.depth] at hd
    cases hd
  · intro old hpt
    exact absurd hpt (h.off old)
  · intro v hpt
    exact absurd hpt (h.back v)

end FrameOk

theorem SchedOk.step {n : Nat} {cpu cpu' : Cpu} {found found' : Bool} {pt pt' : SchedPt}
    (h : SchedOk cpu found pt) (hs : schedStep n cpu found pt = some (cpu', found', pt')) :
    SchedOk cpu' found' pt' := by
  cases pt with
  | on | held =>
    cases hs
    exact h
  | off =>
    cases hs
    exact ⟨h, fun _ => rfl⟩
  | loop i =>
    cases hs
    split
    · exact ⟨h.1, fun hf => ⟨h.2 hf, h.2 hf⟩⟩
    · exact h
  | got i old =>
    cases hs
    exact ⟨h.1, rfl, fun hf => (h.2 hf).2⟩
  | offed i old =>
    cases hs
    obtain ⟨hnoff, hintr, hold⟩ := h
    refine ⟨congrArg (· + 1) hnoff, hintr, ?_⟩
    intro hf
    show (if cpu.noff = 0 then old else cpu.intena) = false
    rw [if_pos hnoff]
    exact hold hf
  | away i => cases hs
  | release i =>
    obtain ⟨hnoff, hintr, hena⟩ := h
    simp only [schedStep, popOff_some hintr (by omega : 0 < cpu.noff)] at hs
    cases hs
    refine ⟨?_, ?_⟩
    · dsimp only
      omega
    · intro hf
      rw [hena hf, Bool.and_false]
  | done =>
    cases hs
    split
    · rename_i hf
      exact ⟨h.1, h.2 hf⟩
    · exact h.1
  | wfi =>
    cases hs
    exact h.1

/-- The scheduler holds nothing where interrupts are enabled. -/
theorem SchedOk.noff_or_intr {cpu : Cpu} {found : Bool} {pt : SchedPt} (h : SchedOk cpu found pt) :
    cpu.noff = 0 ∨ cpu.intr = false := by
  cases pt with
  | on | off => exact Or.inl h
  | away i => exact h.elim
  | held | release => exact Or.inr h.2.1
  | _ => exact Or.inl h.1

/-! ## The system: invariant -/

/-- What a core executes is in order.  A scheduler below a handler is at a point where interrupts were
    enabled. -/
def Runs (x : Core) : List Frame → Prop
  | [] => x.cur = none ∧ SchedOk x.cpu x.found x.pt
  | f :: rest => StackOk x.cpu (f :: rest) ∧
    match x.cur with
    | some _ => ∃ i, x.pt = .away i
    | none => SchedOk { x.cpu with intr := true, noff := 0 } x.found x.pt

structure Inv (s : State κ) : Prop where
  runs : ∀ c, Runs (s.core c) (s.frames c)
  running : ∀ c t, (s.core c).cur = some t → (s.thread t).running = true
  uniq : ∀ c d t, (s.core c).cur = some t → (s.core d).cur = some t → c = d
  handlers : ∀ c t, (s.core c).cur = some t → (s.core c).handlers = []
  saved : ∀ t, (s.thread t).running = false → SavedOk (s.thread t).frames

omit [DecidableEq κ] in
theorem Inv.init (intr : κ → Bool) : Inv (State.init intr) := by
  refine ⟨fun c => ⟨rfl, rfl⟩, nofun, nofun, nofun, ?_⟩
  intro t _
  exact ⟨rfl, Or.inl ⟨rfl, rfl⟩, nofun⟩

section steps

variable {s t : State κ} {c : κ} {n : Nat}

theorem State.core_setFrames (cpu : Cpu) (fs : List Frame) (d : κ) :
    ((s.setFrames c cpu fs).core d).cur = (s.core d).cur ∧
    ((s.setFrames c cpu fs).core d).pt = (s.core d).pt ∧
    ((s.setFrames c cpu fs).core d).found = (s.core d).found ∧
    (((s.setFrames c cpu fs).core d).cpu = if d = c then cpu else (s.core d).cpu) ∧
    ∀ t, (s.core d).cur = some t → ((s.setFrames c cpu fs).core d).handlers = (s.core d).handlers := by
  unfold State.setFrames State.setThread State.setCore
  by_cases hd : d = c
  · subst hd
    cases hcur : (s.core d).cur <;> simp [hcur]
  · cases (s.core c).cur <;> simp [hd]

theorem Inv.frames_setFrames (h : Inv s) (cpu : Cpu) (fs : List Frame) (d : κ) :
    (s.setFrames c cpu fs).frames d = if d = c then fs else s.frames d := by
  have huniq := h.uniq
  unfold State.frames State.setFrames State.setThread State.setCore
  cases hc : (s.core c).cur with
  | none =>
    by_cases hd : d = c
    · subst hd
      simp [hc]
    · simp [hd]
  | some t =>
    by_cases hd : d = c
    · subst hd
      simp [hc]
    · cases hcd : (s.core d).cur with
      | none => simp [hd, hcd]
      | some u =>
        have hne : u ≠ t := by
          rintro rfl
          exact hd (huniq d c u hcd hc)
        simp [hd, hcd, hne]

/-- The core goes on with frames that are in order. -/
theorem Inv.setFrames (h : Inv s) {cpu : Cpu} {fs : List Frame}
    (hr : Runs { s.core c with cpu := cpu } fs) : Inv (s.setFrames c cpu fs) := by
  have hthread : ∀ u, (s.core c).cur ≠ some u → (s.setFrames c cpu fs).thread u = s.thread u := by
    intro u hu
    unfold State.setFrames State.setThread State.setCore
    cases hc : (s.core c).cur with
    | none => rfl
    | some t =>
      rw [hc] at hu
      exact Function.update_of_ne (fun hut => hu (congrArg some hut.symm)) _ _
  have hself : ∀ u, (s.core c).cur = some u → ((s.setFrames c cpu fs).thread u).running = true := by
    intro u hu
    unfold State.setFrames State.setThread State.setCore
    rw [hu]
    simp
  refine ⟨?_, ?_, ?_, ?_, ?_⟩
  · intro d
    obtain ⟨hcur, hpt, hfound, hcpu, -⟩ := State.core_setFrames (s := s) (c := c) cpu fs d
    rw [h.frames_setFrames]
    by_cases hd : d = c
    · subst hd
      rw [if_pos rfl] at hcpu ⊢
      cases fs <;> simpa only [Runs, hcur, hpt, hfound, hcpu] using hr
    · rw [if_neg hd] at hcpu ⊢
      have hrd := h.runs d
      cases hfs : s.frames d <;> rw [hfs] at hrd <;>
        simpa only [Runs, hcur, hpt, hfound, hcpu] using hrd
  · intro d u hu
    rw [(State.core_setFrames cpu fs d).1] at hu
    by_cases hc : (s.core c).cur = some u
    · exact hself u hc
    · rw [hthread u hc]
      exact h.running d u hu
  · intro d e u hd he
    rw [(State.core_setFrames cpu fs d).1] at hd
    rw [(State.core_setFrames cpu fs e).1] at he
    exact h.uniq d e u hd he
  · intro d u hu
    obtain ⟨hcur, -, -, -, hhandlers⟩ := State.core_setFrames cpu fs d
    rw [hcur] at hu
    rw [hhandlers u hu]
    exact h.handlers d u hu
  · intro u hu
    by_cases hc : (s.core c).cur = some u
    · rw [hself u hc] at hu
      cases hu
    · rw [hthread u hc] at hu ⊢
      exact h.saved u hu

theorem Inv.trap (h : Inv s) (hintr : (s.core c).cpu.intr = true) :
    Inv (s.setFrames c { (s.core c).cpu with intr := false } (⟨.idle, 0, none⟩ :: s.frames c)) := by
  have hr := h.runs c
  have hnew : ∀ noff, noff = 0 →
      FrameOk ⟨false, noff, (s.core c).cpu.intena⟩ ⟨.idle, 0, none⟩ := by
    rintro noff rfl
    exact ⟨rfl, nofun, nofun, nofun, nofun, nofun⟩
  refine h.setFrames ?_
  cases hfs : s.frames c with
  | nil =>
    rw [hfs] at hr
    obtain ⟨hcur, hsched⟩ := hr
    have hnoff : (s.core c).cpu.noff = 0 :=
      hsched.noff_or_intr.resolve_right (by simp [hintr])
    have hsame : ({ (s.core c).cpu with intr := true, noff := 0 } : Cpu) = (s.core c).cpu := by
      rw [← hintr, ← hnoff]
    refine ⟨⟨hnew _ hnoff, nofun⟩, ?_⟩
    simp only [hcur, hsame]
    exact hsched
  | cons f rest =>
    rw [hfs] at hr
    obtain ⟨⟨hf, hrest⟩, hbase⟩ := hr
    have hb := hf.below hintr
    refine ⟨⟨hnew _ (hf.noff.trans hb.depth), ?_⟩, hbase⟩
    intro g hg
    rcases List.mem_cons.mp hg with rfl | hg
    · exact hb
    · exact hrest g hg

variable {rest : List Frame} {u : Nat}

theorem Inv.sret (h : Inv s) {f : Frame} (hfs : s.frames c = f :: rest) (hd : f.depth = 0)
    (hbase : rest ≠ [] ∨ (s.core c).cur = none) :
    Inv (s.setFrames c { (s.core c).cpu with intr := true } rest) := by
  have hr := h.runs c
  rw [hfs] at hr
  obtain ⟨⟨hf, hrest⟩, hunder⟩ := hr
  have hnoff : (s.core c).cpu.noff = 0 := hf.noff.trans hd
  refine h.setFrames ?_
  cases rest with
  | nil =>
    have hcur := hbase.resolve_left (fun hne => hne rfl)
    rw [hcur] at hunder
    refine ⟨hcur, ?_⟩
    rw [← hnoff] at hunder
    exact hunder
  | cons g rest =>
    refine ⟨⟨FrameOk.of_below (hrest g List.mem_cons_self) hnoff, ?_⟩, hunder⟩
    intro g' hg'
    exact hrest g' (List.mem_cons_of_mem g hg')

/-- A frame of its own accord. -/
theorem Inv.frame (h : Inv s) {f f' : Frame} {cpu : Cpu} (hfs : s.frames c = f :: rest)
    (hstep : f.step (s.core c).cpu a = some (cpu, f')) : Inv (s.setFrames c cpu (f' :: rest)) := by
  have hr := h.runs c
  rw [hfs] at hr
  obtain ⟨⟨hf, hrest⟩, hunder⟩ := hr
  refine h.setFrames ⟨⟨hf.step_ok hstep, hrest⟩, ?_⟩
  cases hcur : (s.core c).cur with
  | some t =>
    rw [hcur] at hunder
    exact hunder
  | none =>
    rw [hcur] at hunder
    -- what the scheduler needs does not depend on `intena`
    cases hpt : (s.core c).pt with
    | held | release =>
      rw [hpt] at hunder
      cases hunder.1
    | _ =>
      rw [hpt] at hunder
      exact hunder

/-- The core and the thread change together. -/
theorem Inv.exchange (h : Inv s) {x : Core} {y : Thread} (hu : ∀ d, d ≠ c → (s.core d).cur ≠ some u)
    (hx : Runs x (((s.setCore c x).setThread u y).frames c))
    (hcur : x.cur = some u ∧ x.handlers = [] ∧ y.running = true ∨
      x.cur = none ∧ SavedOk y.frames) : Inv ((s.setCore c x).setThread u y) := by
  have hcore : ∀ d, ((s.setCore c x).setThread u y).core d = if d = c then x else s.core d := by
    intro d
    exact Function.update_apply s.core c x d
  have hthread : ∀ w, ((s.setCore c x).setThread u y).thread w = if w = u then y else s.thread w := by
    intro w
    exact Function.update_apply s.thread u y w
  have hself : ∀ w, x.cur = some w → w = u ∧ x.handlers = [] ∧ y.running = true := by
    intro w hw
    rcases hcur with ⟨hxc, hx⟩ | ⟨hxc, -⟩ <;> rw [hxc] at hw <;> cases hw
    exact ⟨rfl, hx⟩
  refine ⟨?_, ?_, ?_, ?_, ?_⟩
  · intro d
    by_cases hd : d = c
    · subst hd
      rw [hcore, if_pos rfl]
      exact hx
    · have hfr : ((s.setCore c x).setThread u y).frames d = s.frames d := by
        unfold State.frames
        rw [hcore, if_neg hd]
        cases hcd : (s.core d).cur with
        | none => rfl
        | some w =>
          have hw : w ≠ u := by
            rintro rfl
            exact hu d hd hcd
          dsimp only
          rw [hthread, if_neg hw]
      rw [hcore, if_neg hd, hfr]
      exact h.runs d
  · intro d w hw
    rw [hcore] at hw
    rw [hthread]
    by_cases hd : d = c
    · rw [if_pos hd] at hw
      obtain ⟨hwu, -, hy⟩ := hself w hw
      rw [if_pos hwu]
      exact hy
    · rw [if_neg hd] at hw
      have hwu : w ≠ u := by
        rintro rfl
        exact hu d hd hw
      rw [if_neg hwu]
      exact h.running d w hw
  · intro d e w hd he
    rw [hcore] at hd he
    -- nobody else executes `u`
    have hother : ∀ d, d ≠ c → (s.core d).cur = some w → x.cur ≠ some w := by
      intro d hdc hdw hxw
      exact hu d hdc ((hself w hxw).1 ▸ hdw)
    by_cases hdc : d = c
    · by_cases hec : e = c
      · rw [hdc, hec]
      · rw [if_pos hdc] at hd
        rw [if_neg hec] at he
        exact absurd hd (hother e hec he)
    · by_cases hec : e = c
      · rw [if_neg hdc] at hd
        rw [if_pos hec] at he
        exact absurd he (hother d hdc hd)
      · rw [if_neg hdc] at hd
        rw [if_neg hec] at he
        exact h.uniq d e w hd he
  · intro d w hw
    rw [hcore] at hw ⊢
    by_cases hd : d = c
    · rw [if_pos hd] at hw ⊢
      exact (hself w hw).2.1
    · rw [if_neg hd] at hw ⊢
      exact h.handlers d w hw
  · intro w hw
    rw [hthread] at hw ⊢
    by_cases hwu : w = u
    · rw [if_pos hwu] at hw ⊢
      rcases hcur with ⟨-, -, hy⟩ | ⟨-, hsaved⟩
      · rw [hy] at hw
        cases hw
      · exact hsaved
    · rw [if_neg hwu] at hw ⊢
      exact h.saved w hw

theorem Inv.sched (h : Inv s) {i : Nat} {f : Frame} (hcur : (s.core c).cur = some u)
    (hfs : s.frames c = f :: rest) (hpt : f.pt = .idle) (hnoff : (s.core c).cpu.noff = 1)
    (hintr : (s.core c).cpu.intr = false) :
    Inv ((s.setCore c { s.core c with pt := .release i, found := true, cur := none }).setThread u
      ⟨{ f with pt := .back (s.core c).cpu.intena } :: rest, false⟩) := by
  have hr := h.runs c
  rw [hfs] at hr
  obtain ⟨⟨hf, hrest⟩, -⟩ := hr
  have hd : f.depth = 1 := hf.noff.symm.trans hnoff
  refine h.exchange ?_ ?_ (Or.inr ⟨rfl, hd, Or.inr ⟨_, rfl, ?_⟩, hrest⟩)
  · intro d hdc hdu
    exact hdc (h.uniq d c u hdu hcur)
  · -- the scheduler is alone on its stack again
    have hempty : ((s.setCore c { s.core c with
        pt := .release i, found := true, cur := none }).setThread u
        ⟨{ f with pt := .back (s.core c).cpu.intena } :: rest, false⟩).frames c = [] := by
      unfold State.frames State.setThread State.setCore
      simp [h.handlers c u hcur]
    rw [hempty]
    exact ⟨rfl, hnoff, hintr, nofun⟩
  · exact hf.intena (by omega) (by rw [hpt]; exact nofun)

theorem Inv.resume (h : Inv s) {i : Nat} (hcur : (s.core c).cur = none) (hfs : s.frames c = [])
    (hpt : (s.core c).pt = .held i) (hrun : (s.thread i).running = false) :
    Inv ((s.setCore c { s.core c with pt := .away i, cur := some i }).setThread i
      { s.thread i with running := true }) := by
  have hr := h.runs c
  rw [hfs] at hr
  obtain ⟨-, hsched⟩ := hr
  rw [hpt] at hsched
  obtain ⟨hnoff, hintr, -⟩ := hsched
  have hsaved := h.saved i hrun
  have hhandlers : (s.core c).handlers = [] := by
    unfold State.frames at hfs
    rw [hcur] at hfs
    exact hfs
  refine h.exchange ?_ ?_ (Or.inl ⟨rfl, hhandlers, rfl⟩)
  · intro d _ hd
    rw [h.running d i hd] at hrun
    cases hrun
  · have hframes : ((s.setCore c { s.core c with pt := .away i, cur := some i }).setThread i
        { s.thread i with running := true }).frames c = (s.thread i).frames := by
      unfold State.frames State.setThread State.setCore
      simp
    rw [hframes]
    cases hth : (s.thread i).frames with
    | nil =>
      rw [hth] at hsaved
      exact hsaved.elim
    | cons f rest =>
      rw [hth] at hsaved
      obtain ⟨hd, hsaved, hrest⟩ := hsaved
      refine ⟨⟨⟨hnoff.trans hd.symm, fun _ => hintr, ?_, ?_, ?_, ?_⟩, hrest⟩, i, rfl⟩ <;>
        rcases hsaved with ⟨hidle, hnone⟩ | ⟨v, hv, hb⟩
      · simp [hnone]
      · exact fun _ hne => absurd hv (hne v)
      · simp [hidle]
      · simp [hv]
      · simp [hidle]
      · simp [hv]
      · simp [hidle]
      · rw [hv]
        rintro _ ⟨⟩
        exact ⟨hd, hb⟩

omit [DecidableEq κ] in
theorem Inv.fork (h : Inv s) (hrun : (s.thread u).running = false) :
    Inv (s.setThread u .fresh) := by
  have hne : ∀ d w, (s.core d).cur = some w → w ≠ u := by
    rintro d w hd rfl
    rw [h.running d w hd] at hrun
    cases hrun
  have hthread : ∀ w, w ≠ u → (s.setThread u .fresh).thread w = s.thread w :=
    fun w hw => Function.update_of_ne hw _ _
  refine ⟨?_, ?_, h.uniq, h.handlers, ?_⟩
  · intro d
    have hfr : (s.setThread u .fresh).frames d = s.frames d := by
      unfold State.frames
      show (match (s.core d).cur with
        | some t => ((s.setThread u .fresh).thread t).frames
        | none => (s.core d).handlers) = _
      cases hcd : (s.core d).cur with
      | none => rfl
      | some w =>
        dsimp only
        rw [hthread w (hne d w hcd)]
    rw [hfr]
    exact h.runs d
  · intro d w hd
    rw [hthread w (hne d w hd)]
    exact h.running d w hd
  · intro w hw
    by_cases hwu : w = u
    · have hself : (s.setThread u .fresh).thread w = .fresh := by
        rw [hwu]
        exact Function.update_self _ _ _
      rw [hself]
      exact ⟨rfl, Or.inl ⟨rfl, rfl⟩, nofun⟩
    · rw [hthread w hwu] at hw ⊢
      exact h.saved w hw

/-- A step of the scheduler itself. -/
theorem Inv.scheduler (h : Inv s) {x : Core} (hcur : x.cur = (s.core c).cur)
    (hhandlers : x.handlers = (s.core c).handlers) (hx : Runs x (s.frames c)) :
    Inv (s.setCore c x) := by
  have hcore : ∀ d, (s.setCore c x).core d = if d = c then x else s.core d :=
    Function.update_apply s.core c x
  have hfield : ∀ d, ((s.setCore c x).core d).cur = (s.core d).cur ∧
      ((s.setCore c x).core d).handlers = (s.core d).handlers := by
    intro d
    rw [hcore]
    by_cases hd : d = c
    · rw [if_pos hd, hd]
      exact ⟨hcur, hhandlers⟩
    · rw [if_neg hd]
      exact ⟨rfl, rfl⟩
  refine ⟨?_, ?_, ?_, ?_, h.saved⟩
  · intro d
    have hfr : (s.setCore c x).frames d = s.frames d := by
      unfold State.frames
      rw [(hfield d).1, (hfield d).2]
      rfl
    rw [hfr, hcore]
    by_cases hd : d = c
    · rw [if_pos hd, hd]
      exact hx
    · rw [if_neg hd]
      exact h.runs d
  · intro d w hd
    rw [(hfield d).1] at hd
    exact h.running d w hd
  · intro d e w hd he
    rw [(hfield d).1] at hd
    rw [(hfield e).1] at he
    exact h.uniq d e w hd he
  · intro d w hd
    rw [(hfield d).1] at hd
    rw [(hfield d).2]
    exact h.handlers d w hd

/-- The part of a step that is not about traps and switches. -/
theorem Inv.ordinary (h : Inv s) (hs : ordinary n s c a = some t) : Inv t := by
  unfold Intr.ordinary at hs
  split at hs
  · rename_i f rest hfs
    split at hs
    · rename_i cpu f' hstep
      cases hs
      exact h.frame hfs hstep
    · cases hs
  · rename_i hfs
    split at hs
    · rename_i cpu found pt hcur hstep
      cases hs
      have hr := h.runs c
      rw [hfs] at hr
      exact h.scheduler rfl rfl (hfs ▸ ⟨hcur, hr.2.step hstep⟩)
    · cases hs

theorem Inv.step (h : Inv s) (hs : step n s c a = some t) : Inv t := by
  cases a with
  | trap =>
    obtain ⟨hintr, ⟨⟩⟩ := Option.ite_none_right_eq_some.mp hs
    exact h.trap hintr
  | sret =>
    simp only [Intr.step] at hs
    split at hs
    · rename_i f rest hfs
      split at hs
      · rename_i hc
        cases hs
        exact h.sret hfs hc.2.1 hc.2.2
      · cases hs
    · cases hs
  | sched =>
    simp only [Intr.step] at hs
    split at hs
    · rename_i u f rest i hcur hfs hpt
      split at hs
      · rename_i hc
        cases hs
        exact h.sched hcur hfs hc.1 hc.2.2.1 hc.2.2.2
      · cases hs
    · cases hs
  | resume =>
    simp only [Intr.step] at hs
    split at hs
    · rename_i i hcur hfs hpt
      split at hs
      · cases hs
      · rename_i hrun
        cases hs
        exact h.resume hcur hfs hpt (Bool.eq_false_iff.mpr hrun)
    · cases hs
  | fork u =>
    simp only [Intr.step] at hs
    split at hs
    · cases hs
    · rename_i hrun
      cases hs
      exact h.fork (Bool.eq_false_iff.mpr hrun)
  | _ => exact h.ordinary (n := n) hs

theorem Inv.run (h : Inv s) {acts : List (κ × Act)} (hs : run n s acts = some t) : Inv t := by
  induction acts generalizing s with
  | nil =>
    cases hs
    exact h
  | cons ca acts ih =>
    simp only [Intr.run] at hs
    split at hs
    · rename_i u hu
      exact ih (h.step hu) hs
    · cases hs

end steps

/-! ## Result -/

omit [DecidableEq κ] in
theorem Inv.off {s : State κ} (h : Inv s) {c : κ} (hpos : 0 < (s.core c).cpu.noff) :
    (s.core c).cpu.intr = false := by
  have hr := h.runs c
  cases hfs : s.frames c with
  | nil =>
    rw [hfs] at hr
    exact hr.2.noff_or_intr.resolve_left (Nat.ne_of_gt hpos)
  | cons f rest =>
    rw [hfs] at hr
    have hf := hr.1.1
    rw [hf.noff] at hpos
    exact hf.intr hpos

/-- In every state of every run, on every core: interrupts are disabled while `noff` is positive;
    `pop_off` of a thread or handler with an open `push_off` does not panic, and if that is its
    outermost one then interrupts are afterwards as they were before its outermost `push_off`,
    wherever it has been in between; and the scheduler is at `wfi` only with interrupts disabled. -/
theorem interrupt_discipline (n : Nat) (intr : κ → Bool) (acts : List (κ × Act)) (s : State κ)
    (hrun : run n (State.init intr) acts = some s) (c : κ) :
    (0 < (s.core c).cpu.noff → (s.core c).cpu.intr = false) ∧
    (∀ f rest, s.frames c = f :: rest → f.pt = .idle → 0 < f.depth →
      ∃ cpu, (s.core c).cpu.popOff = some cpu ∧
        (f.depth = 1 → ∀ b, f.before = some b → cpu.intr = b)) ∧
    (s.frames c = [] → (s.core c).pt = .wfi → (s.core c).cpu.intr = false) := by
  have h := (Inv.init intr).run hrun
  refine ⟨h.off, ?_, ?_⟩
  · intro f rest hfs hpt hd
    have hr := h.runs c
    rw [hfs] at hr
    have hf := hr.1.1
    have hnoff := hf.noff
    refine ⟨_, popOff_some (hf.intr hd) (by omega), ?_⟩
    intro h1 b hb
    rw [hf.intena hd (by rw [hpt]; exact nofun) b hb, decide_eq_true (hnoff.trans h1), Bool.true_and]
  · intro hfs hpt
    have hr := h.runs c
    rw [hfs] at hr
    obtain ⟨-, hsched⟩ := hr
    rw [hpt] at hsched
    exact hsched.2

/-- A process is switched out on one core with its lock held and goes on on the other. -/
def moving : List (Fin 2 × Act) :=
  [(0, .run), (0, .run), (0, .run), (0, .run), (0, .run), (0, .resume), (0, .popOff),
    (0, .intr true), (0, .pushOff), (0, .run), (0, .run), (0, .sched), (0, .run),
    (1, .run), (1, .run), (1, .run), (1, .run), (1, .run), (1, .resume), (1, .run)]

theorem interrupt_discipline_moving :
    ∃ s, run 1 (State.init fun _ => false) moving = some s ∧
      s.frames 1 = [⟨.idle, 1, some true⟩] ∧
      ∃ cpu, (s.core 1).cpu.popOff = some cpu ∧ cpu.intr = true := by
  have hrun : (run 1 (State.init fun _ => false) moving).map (State.frames · 1) =
      some [⟨.idle, 1, some true⟩] := by
    decide +kernel
  obtain ⟨s, hs, hfs⟩ := Option.map_eq_some_iff.mp hrun
  obtain ⟨-, hpop, -⟩ := interrupt_discipline 1 (fun _ => false) moving s hs 1
  obtain ⟨cpu, hcpu, hintr⟩ := hpop ⟨.idle, 1, some true⟩ [] hfs rfl Nat.one_pos
  exact ⟨s, hs, hfs, cpu, hcpu, hintr rfl true rfl⟩

end Xv6.Intr
