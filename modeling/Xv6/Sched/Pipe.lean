/-
  Pipes are queues.

  `Pipe.Fifo` is the invariant of a pipe: the bytes that `pipewrite` has accepted are those that
  `piperead` has handed out, followed by the `nwrite - nread` bytes of the ring, of which there are at
  most PIPESIZE.  Every call of `piperead` has handed out as many bytes as it has returned.

  `pipe_fifo` is the invariant in every run of readers, writers and closers, over any number of bytes:
  the counters wrap around.
-/
import Xv6.Sched.Kernel

namespace Xv6.Sched

open Lib

/-! ## The invariant of a pipe -/

variable {pi : Pipe} {l : KPt} {d : KData}

namespace Pipe

/-- The bytes in the ring. -/
def pending (pi : Pipe) : List (BitVec 8) := Ring.contents pi.data pi.nread pi.nwrite

structure Fifo (pi : Pipe) : Prop where
  count : Ring.count pi.nread pi.nwrite ≤ PIPESIZE
  bytes : pi.accepted = pi.handed ++ pi.pending
  calls : ∀ c ∈ pi.calls, (c.1.length : Int) = max c.2 0

theorem Fifo.alloc : Pipe.alloc.Fifo := ⟨by decide, rfl, nofun⟩

theorem full_iff (pi : Pipe) : pi.full ↔ Ring.count pi.nread pi.nwrite = PIPESIZE :=
  (Ring.count_eq_iff (by decide)).symm

theorem Fifo.put (h : pi.Fifo) (hfull : ¬ pi.full) (ch : BitVec 8) : (pi.put ch).Fifo := by
  have hlt : Ring.count pi.nread pi.nwrite < PIPESIZE :=
    Nat.lt_of_le_of_ne h.count fun he => hfull (pi.full_iff.mpr he)
  refine ⟨?_, ?_, h.calls⟩
  · show Ring.count pi.nread (pi.nwrite + 1) ≤ PIPESIZE
    rw [Ring.count_put (Nat.lt_of_le_of_lt hlt (by decide))]
    exact hlt
  · show pi.accepted ++ [ch] = pi.handed ++ (pi.put ch).pending
    rw [h.bytes, List.append_assoc]
    exact congrArg _ (Ring.contents_put (by decide) (by decide) pi.data hlt ch).symm

theorem Fifo.take (h : pi.Fifo) (hne : pi.nread ≠ pi.nwrite) : pi.take.Fifo := by
  have hcount := Ring.count_take hne
  have hle := h.count
  refine ⟨?_, ?_, h.calls⟩
  · show Ring.count (pi.nread + 1) pi.nwrite ≤ PIPESIZE
    omega
  · have hpending : pi.pending = pi.data (Ring.slot PIPESIZE pi.nread) :: pi.take.pending :=
      Ring.contents_take pi.data hne
    rw [show pi.take.accepted = pi.accepted from rfl, h.bytes, hpending]
    exact (List.append_assoc pi.handed [_] _).symm

theorem Fifo.begin (h : pi.Fifo) : pi.begin.Fifo := ⟨h.count, h.bytes, h.calls⟩

theorem Fifo.finish (h : pi.Fifo) {i : Nat} (hi : pi.handed.length = pi.start + i) {ret : Int}
    (hret : (i : Int) = max ret 0) : (pi.finish ret).Fifo := by
  refine ⟨h.count, h.bytes, ?_⟩
  intro c hc
  rcases List.mem_cons.mp hc with rfl | hc
  · rw [List.length_drop, hi, Nat.add_sub_cancel_left]
    exact hret
  · exact h.calls c hc

end Pipe

/-! ## Annotation -/

/-- A call that has begun to copy has handed out `i` bytes. -/
def fifoPre : KPt → KData → Prop
  | .piperead k _ (.copy i), d => (d.pipe k).handed.length = (d.pipe k).start + i
  | _, _ => True

def fifoNotes : Annotation kernel where
  inv := fun d => ∀ k, (d.pipe k).Fifo
  cond := fun _ _ => False
  lock := lockOf
  pre := fifoPre
  owes := fun _ _ => False
  guard := .none kernel

theorem KData.pipe_setPipe (d : KData) (k : Nat) (pi : Pipe) (j : Nat) :
    (d.setPipe k pi).pipe j = if j = k then pi else d.pipe j :=
  Function.update_apply d.pipe k pi j

theorem KData.pipe_setPipe_self (d : KData) (k : Nat) (pi : Pipe) : (d.setPipe k pi).pipe k = pi := by
  rw [KData.pipe_setPipe, if_pos rfl]

theorem fifoPre_frame {d' : KData} (h : ∀ k, .pipe k ∈ l.held → d'.pipe k = d.pipe k)
    (hl : fifoPre l d) : fifoPre l d' := by
  cases l with
  | piperead k n pt =>
    cases pt with
    | copy i =>
      show (d'.pipe k).handed.length = (d'.pipe k).start + i
      rw [h k List.mem_cons_self]
      exact hl
    | _ => trivial
  | _ => trivial

/-- A change of a pipe under its lock. -/
theorem fifo_setPipe {next : KPt} {k : Nat} (hl : l.held = [.pipe k]) (hd : ∀ j, (d.pipe j).Fifo)
    (hpi : pi.Fifo) (hnext : fifoPre next (d.setPipe k pi)) :
    fifoNotes.Access l d (d.setPipe k pi) next := by
  refine ⟨?_, hnext, fun _ => False.elim, ?_⟩
  · intro j
    rw [KData.pipe_setPipe]
    split
    · exact hpi
    · exact hd j
  · intro l' hdisj
    refine fifoPre_frame ?_
    intro j hj
    rw [KData.pipe_setPipe, if_neg]
    rintro rfl
    have hmem : .pipe j ∈ l.held := by
      rw [hl]
      exact List.mem_cons_self
    exact hdisj _ hmem hj

theorem fifo_same {next : KPt} (hd : ∀ j, (d.pipe j).Fifo) (hnext : fifoPre next d) :
    fifoNotes.Access l d d next :=
  ⟨hd, hnext, fun _ => False.elim, fun _ _ => id⟩

theorem pipewrite_fifo (k : Nat) (n : Int) (pt : PipewritePt) :
    fifoNotes.Keeps (.pipewrite k n pt) (pipewrite k n pt) := by
  cases pt with
  | top i dirty =>
    rintro me x d d' next ⟨⟩ hd _
    refine fifo_same hd ?_
    split
    · dsimp only
      split <;> trivial
    · trivial
  | killed i dirty =>
    refine ⟨?_, nofun⟩
    intro b d _ _
    cases b <;> trivial
  | copy i dirty =>
    intro me x d d' next h hd _
    dsimp only at h
    split at h
    · cases h
      exact fifo_same hd trivial
    · rename_i hfull
      split at h <;> cases h
      · exact fifo_setPipe rfl hd ((hd k).put hfull _) trivial
      · exact fifo_same hd trivial
  | sleep i => exact ⟨rfl, fun _ _ _ => id, fun _ _ => trivial, nofun⟩
  | _ => exact ⟨fun _ _ _ => trivial, nofun⟩

theorem piperead_fifo (k : Nat) (n : Int) (pt : PipereadPt) :
    fifoNotes.Keeps (.piperead k n pt) (piperead k n pt) := by
  cases pt with
  | test =>
    intro me x d d' next h hd _
    dsimp only at h
    split at h <;> cases h
    · exact fifo_same hd trivial
    · refine fifo_setPipe rfl hd (hd k).begin ?_
      show (KData.pipe _ k).handed.length = (KData.pipe _ k).start + 0
      rw [KData.pipe_setPipe_self]
      rfl
  | killed =>
    refine ⟨?_, nofun⟩
    intro b d _ _
    cases b <;> trivial
  | sleep => exact ⟨rfl, fun _ _ _ => id, fun _ _ => trivial, nofun⟩
  | copy i =>
    intro me x d d' next h hd hpre
    have hi : (d.pipe k).handed.length = (d.pipe k).start + i := hpre
    dsimp only at h
    split at h
    · rename_i hlt
      split at h <;> cases h
      · refine fifo_setPipe rfl hd ((hd k).take hlt.2) ?_
        show (KData.pipe _ k).handed.length = (KData.pipe _ k).start + (i + 1)
        rw [KData.pipe_setPipe_self]
        show ((d.pipe k).handed ++ [_]).length = (d.pipe k).start + (i + 1)
        rw [List.length_append, hi]
        rfl
      · refine fifo_setPipe rfl hd ((hd k).finish hi ?_) trivial
        split
        · omega
        · omega
    · cases h
      refine fifo_setPipe rfl hd ((hd k).finish hi ?_) trivial
      omega
  | _ => exact ⟨fun _ _ _ => trivial, nofun⟩

theorem pipeclose_fifo (k : Nat) (writable : Bool) (pt : WakePt) :
    fifoNotes.Keeps (.pipeclose k writable pt) (pipeclose k writable pt) := by
  cases pt with
  | set =>
    rintro me x d d' next ⟨⟩ hd _
    refine fifo_setPipe rfl hd ?_ trivial
    cases writable <;> exact ⟨(hd k).count, (hd k).bytes, (hd k).calls⟩
  | _ => exact ⟨fun _ _ _ => trivial, nofun⟩

/-- The locks of pipes. -/
def KLock.IsPipe : KLock → Prop
  | .pipe _ => True
  | _ => False

theorem fifo_quiet (l : KPt) (h : ∀ k ∈ l.held, ¬ k.IsPipe) : fifoNotes.Quiet l := by
  refine ⟨?_, fun _ => id⟩
  intro d
  cases l with
  | piperead k n pt =>
    cases pt with
    | copy i => exact absurd trivial (h (.pipe k) List.mem_cons_self)
    | _ => trivial
  | _ => trivial

theorem fifo_unseen {d' : KData} (h : d'.pipe = d.pipe) : fifoNotes.Unseen d d' := by
  refine ⟨?_, fun _ => id, ?_⟩
  · intro hd k
    rw [h]
    exact hd k
  · intro l
    exact fifoPre_frame fun k _ => congrFun h k

theorem fifo_keeps (l : KPt) : fifoNotes.Keeps l (kernelCode l) := by
  cases l with
  | pipewrite k n pt => exact pipewrite_fifo k n pt
  | piperead k n pt => exact piperead_fifo k n pt
  | pipeclose k writable pt => exact pipeclose_fifo k writable pt
  | _ =>
    refine keeps_of_foreign fifo_quiet rfl (fun _ _ _ => id) ?_ ?_
    · intro k hk
      cases hk <;> exact id
    · intro d d' hf
      exact fifo_unseen (funext fun k => hf.pipe k nofun)

def fifoMonitor : Monitor kernel where
  toAnnotation := fifoNotes
  owes_held := fun _ _ => False.elim
  entry := by
    intro l d hl _
    refine (fifo_quiet l ?_).1 d
    rw [KPt.held_of_entry hl]
    exact nofun
  keeps := fifo_keeps
  device := by
    intro x d hd
    have hu : fifoNotes.Unseen d (x.device d) := by
      cases x <;> exact fifo_unseen rfl
    exact ⟨hu.inv hd, hu.cond, fun l _ => hu.pre l⟩

/-! ## Result -/

section run

variable {κ : Type} [DecidableEq κ]

/-- In every state that any number of readers, writers and closers can reach, of any number of pipes:
    a pipe holds at most PIPESIZE bytes, the bytes handed out are a prefix of those accepted, what is
    missing are the `nwrite - nread` bytes in the ring, and every call of `piperead` that has copied
    has handed out what it has returned, or nothing if it has returned -1. -/
theorem pipe_fifo (n start : Nat) (acts : List (κ × Act KChan KIn KPt))
    (s : Sys κ KLock KChan KData KPt)
    (hrun : run kernel n (Sys.init (KData.init start)) acts = some s) (k : Nat) :
    let pi := s.mem.data.pipe k
    (pi.nwrite - pi.nread).toNat ≤ PIPESIZE ∧
    pi.accepted = pi.handed ++ (List.range (pi.nwrite - pi.nread).toNat).map (fun j =>
      pi.data (Ring.slot PIPESIZE (pi.nread + BitVec.ofNat 32 j))) ∧
    ∀ c ∈ pi.calls, (c.1.length : Int) = max c.2 0 := by
  have hinv := (monInv_of_run fifoMonitor (fun _ => Pipe.Fifo.alloc)
    (meets_none acts _) hrun).2.inv k
  exact ⟨hinv.count, hinv.bytes, hinv.calls⟩

end run

/-- Process 0 writes two bytes to pipe 0 and reads one. -/
def pipeSchedule : List (Fin 1 × Act KChan KIn KPt) :=
  [(0, .run), (0, .run), (0, .enter (.pipewrite 0 2 .acquire)), (0, .run), (0, .input .clock),
    (0, .run), (0, .input (.copy true 97)), (0, .input .clock), (0, .run),
    (0, .input (.copy true 98)), (0, .input .clock), (0, .run), (0, .run), (0, .run), (0, .run),
    (0, .run), (0, .enter (.piperead 0 2 .acquire)), (0, .run), (0, .input .clock),
    (0, .input (.copy true 0)), (0, .input (.copy false 0))]

theorem pipe_fifo_two :
    ∃ s, run kernel 1 (Sys.init (KData.init 2)) pipeSchedule = some s ∧
      (s.mem.data.pipe 0).accepted = [97, 98] ∧ (s.mem.data.pipe 0).handed = [97] ∧
      (s.mem.data.pipe 0).calls = [([97], 1)] ∧
      (s.mem.data.pipe 0).accepted = (s.mem.data.pipe 0).handed ++ (s.mem.data.pipe 0).pending := by
  have hrun : (run kernel 1 (Sys.init (KData.init 2)) pipeSchedule).map (fun s =>
      ((s.mem.data.pipe 0).accepted, (s.mem.data.pipe 0).handed, (s.mem.data.pipe 0).calls)) =
      some ([97, 98], [97], [([97], 1)]) := by
    decide +kernel
  obtain ⟨s, hs, hproj⟩ := Option.map_eq_some_iff.mp hrun
  obtain ⟨h1, h2, h3⟩ : _ ∧ _ ∧ _ := by simpa only [Prod.mk.injEq] using hproj
  exact ⟨s, hs, h1, h2, h3, (pipe_fifo 1 2 pipeSchedule s hs 0).2.1⟩

end Xv6.Sched
