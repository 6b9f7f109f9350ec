/-
  Exits and waits.

  `History` ties the events since boot to the process table.  A process that has called `kexit` has
  one exit event, with the status that it will store or has stored in `xstate`; it has no reap event
  while its slot is in use and one afterwards.  `Lineage` says who the parent of a process is, in
  terms of who forked it and who has exited.

  `exit_and_wait` puts this together with `Family`.
-/
import Xv6.Sched.Family

namespace Xv6.Sched

open List

variable {κ Lk Ch D X L : Type}
variable {n : Nat} {c : κ} {p : Nat} {a : Act Ch X L}
variable {m m' : Mem κ Lk Ch D L} {pc pc' : Pc Lk Ch L} {s t : Sys κ Lk Ch D L}

/-! ## The history -/

/-- The statuses with which the process born as `b` has called `kexit`. -/
def exits (b : Nat) : List Event → List Int
  | [] => []
  | .exit who status :: events => if who = b then status :: exits b events else exits b events
  | _ :: events => exits b events

/-- The number of times that `kwait` has returned the process born as `b`. -/
def reaps (b : Nat) : List Event → Nat
  | [] => 0
  | .reap _ who _ _ _ :: events => if who = b then reaps b events + 1 else reaps b events
  | _ :: events => reaps b events

variable {b q i : Nat} {events : List Event} {status : Int} {y : Proc κ Lk Ch L}

theorem mem_of_exits (h : status ∈ exits b events) : .exit b status ∈ events := by
  induction events with
  | nil => cases h
  | cons e events ih =>
    cases e with
    | exit who st =>
      simp only [exits] at h
      split at h
      · rename_i hb
        rcases mem_cons.mp h with heq | hmem
        · rw [heq, hb]
          exact mem_cons_self
        · exact mem_cons_of_mem _ (ih hmem)
      · exact mem_cons_of_mem _ (ih h)
    | _ => exact mem_cons_of_mem _ (ih h)

theorem exits_of_mem (h : .exit b status ∈ events) : status ∈ exits b events := by
  induction events with
  | nil => cases h
  | cons e events ih =>
    rcases mem_cons.mp h with heq | hmem
    · rw [← heq]
      simp [exits]
    · have hin := ih hmem
      cases e with
      | exit who st =>
        simp only [exits]
        split
        · exact mem_cons_of_mem _ hin
        · exact hin
      | _ => exact hin

/-- The processes that an event names were born before `k`. -/
def Event.Before (k : Nat) : Event → Prop
  | .fork child _ parent => child < k ∧ parent < k
  | .exit who _ => who < k
  | .reap caller who _ _ _ => caller < k ∧ who < k

theorem exits_fresh {k : Nat} (h : ∀ e ∈ events, e.Before k) :
    exits k events = [] ∧ reaps k events = 0 := by
  induction events with
  | nil => exact ⟨rfl, rfl⟩
  | cons e events ih =>
    obtain ⟨h1, h2⟩ := ih fun e he => h e (mem_cons_of_mem _ he)
    have he := h e mem_cons_self
    cases e with
    | fork child pid parent => exact ⟨h1, h2⟩
    | exit who status => exact ⟨(if_neg (Nat.ne_of_lt he)).trans h1, h2⟩
    | reap caller who pid addr stored => exact ⟨h1, (if_neg (Nat.ne_of_lt he.2)).trans h2⟩

/-- A successful `kwait` is justified by what has happened before: the child has exited with the
    status that is stored, unless the address is null; it was forked under the pid that is
    returned; and the caller is its forker, or `init`, which was born as 0, once the forker has
    exited. -/
def Event.Justified (before : List Event) : Event → Prop
  | .reap caller who pid addr stored =>
    ∃ status forker, .exit who status ∈ before ∧
      stored = (if addr = 0 then none else some status) ∧ .fork who pid forker ∈ before ∧
      (caller = forker ∨ caller = 0 ∧ ∃ st, .exit forker st ∈ before)
  | _ => True

/-- Every event is justified by those before it. -/
def Justified : List Event → Prop
  | [] => True
  | e :: events => e.Justified events ∧ Justified events

/-- The processes and the events since boot. -/
structure History (s : Sys κ Lk Ch D L) : Prop where
  birth : ∀ q, (s.mem.proc q).birth < s.mem.born
  birthUniq : ∀ q r, (s.mem.proc q).state ≠ .unused → (s.mem.proc r).state ≠ .unused →
    (s.mem.proc q).birth = (s.mem.proc r).birth → q = r
  initBirth : (s.mem.proc initproc).birth = 0
  before : ∀ e ∈ s.mem.trace, e.Before s.mem.born
  status : ∀ q pc, s.At q pc →
    exits (s.mem.proc q).birth s.mem.trace = (pc.exiting (s.mem.proc q).xstate).toList
  used : ∀ q, (s.mem.proc q).state = .used → exits (s.mem.proc q).birth s.mem.trace = []
  unreaped : ∀ q, (s.mem.proc q).state ≠ .unused → reaps (s.mem.proc q).birth s.mem.trace = 0
  gone : ∀ b, b < s.mem.born → (∀ q, (s.mem.proc q).state ≠ .unused → (s.mem.proc q).birth ≠ b) →
    (exits b s.mem.trace).length = reaps b s.mem.trace ∧ reaps b s.mem.trace ≤ 1

theorem History.quiet (h : History s) (hq : Quiet n s t) : History t := by
  have hbirth : ∀ q, (t.mem.proc q).birth = (s.mem.proc q).birth := fun q => (hq.kin q).birth
  have hxstate : ∀ q, (t.mem.proc q).xstate = (s.mem.proc q).xstate := fun q => (hq.kin q).xstate
  have hunused : ∀ q, (t.mem.proc q).state = .unused ↔ (s.mem.proc q).state = .unused := by
    intro q
    have hs := (hq.kin q).state
    grind
  have hused : ∀ q, (t.mem.proc q).state = .used ↔ (s.mem.proc q).state = .used := by
    intro q
    have hs := (hq.kin q).state
    grind
  constructor <;> simp only [hbirth, hxstate, hunused, hused, hq.trace, hq.born, ne_eq]
  · exact h.birth
  · exact h.birthUniq
  · exact h.initBirth
  · exact h.before
  · intro q x hx
    rcases hq.at_ q x hx with ⟨y, hy, hyx⟩ | ⟨hx, hs⟩
    · rw [hyx.exiting]
      exact h.status q y hy
    · rw [hx]
      exact h.used q hs
  · exact h.used
  · exact h.unreaped
  · exact h.gone

variable [DecidableEq Lk] {K : Client Lk Ch D X L}

theorem Inv.ne_unused_of_at (h : Inv K s) (hat : s.At q pc) : (s.mem.proc q).state ≠ .unused := by
  rcases hat with ⟨c, hcode⟩ | hctx
  · exact (h.not_running hcode).2.1
  · intro hs
    have hsaved := h.saved q pc hctx
    rw [hs] at hsaved
    exact Pc.not_saved_unused.1 hsaved

theorem Inv.forkret_of_used (h : Inv K s) (hs : (s.mem.proc q).state = .used) (hat : s.At q pc) :
    pc = .forkret := by
  rcases hat with ⟨c, hcode⟩ | hctx
  · exact absurd hs (h.not_running hcode).1
  · have hsaved := h.saved q pc hctx
    rw [hs] at hsaved
    exact hsaved.eq_forkret

omit [DecidableEq Lk] in
theorem Pc.exiting_of_zombie (h : pc.state = .zombie) (x : Int) : pc.exiting x = some x := by
  cases pc with
  | sleep pt | yield pt => cases pt <;> cases h
  | exit pt => cases pt <;> first | rfl | cases h
  | _ => cases h

omit [DecidableEq Lk] in
theorem Pc.Saved.eq_exit (h : pc.Saved .zombie) : pc = .exit .back := by
  cases pc with
  | sleep pt | yield pt => cases pt <;> simp [Pc.Saved] at h
  | exit pt => cases pt <;> first | rfl | cases h
  | forkret => simp [Pc.Saved] at h
  | _ => cases h

section step

variable (h : History s) (hI : Inv K s)

include h hI

theorem History.exit (hmv : s.Moved t p .user (.exit (.acquire status)))
    (hrun : (s.mem.proc p).state = .running) (hproc : ∀ r, t.mem.proc r = s.mem.proc r)
    (hborn : t.mem.born = s.mem.born)
    (htrace : t.mem.trace = .exit (s.mem.proc p).birth status :: s.mem.trace) : History t := by
  obtain ⟨hat, hself, hother⟩ := hmv
  have hne : ∀ q x, s.At q x → (s.mem.proc q).state ≠ .unused := fun _ _ => hI.ne_unused_of_at
  have hgone := h.gone
  obtain ⟨h1, h2, h3, h4, h5, h6, h7, -⟩ := h
  constructor
  case gone =>
    simp only [hproc, hborn, htrace]
    intro b hb hno
    have hp : (s.mem.proc p).birth ≠ b := hno p (hne p _ hat)
    simp only [exits, if_neg hp]
    exact hgone b hb hno
  all_goals clear hgone
  all_goals grind [Pc.exiting, exits, reaps, Event.Before]

section change

variable (hproc : ∀ r, t.mem.proc r = if r = i then y else s.mem.proc r)

include hproc

theorem History.alloc (hmv : s.Moved t p (.fork (.scan i)) (.fork (.init i)))
    (hborn : t.mem.born = s.mem.born + 1) (htrace : t.mem.trace = s.mem.trace)
    (hu : (s.mem.proc i).state = .unused) (hs : y.state = .used) (hb : y.birth = s.mem.born)
    (hinit : i ≠ initproc) : History t := by
  obtain ⟨hat, hself, hother⟩ := hmv
  have hne : ∀ q x, s.At q x → (s.mem.proc q).state ≠ .unused := fun _ _ => hI.ne_unused_of_at
  have hgone := h.gone
  obtain ⟨hfresh, hfresh'⟩ := exits_fresh h.before
  have hbefore : ∀ e : Event, e.Before s.mem.born → e.Before (s.mem.born + 1) := by
    intro e he
    cases e <;> grind [Event.Before]
  obtain ⟨h1, h2, h3, h4, h5, h6, h7, -⟩ := h
  constructor
  case gone =>
    rw [htrace]
    intro b hb hno
    have hbi : y.birth ≠ b := by
      have hi := hno i
      rw [hproc i, if_pos rfl] at hi
      exact hi (by simp [hs])
    refine hgone b (by omega) ?_
    intro q hq
    have hno := hno q
    rw [hproc q, if_neg (by grind)] at hno
    exact hno hq
  all_goals clear hgone
  all_goals grind [Pc.exiting]

variable (hborn : t.mem.born = s.mem.born)

include hborn

/-- A process disappears that has not run. -/
theorem History.undo (hmv : s.Moved t p (.fork (.init i)) .user)
    (htrace : t.mem.trace = s.mem.trace) (hs : y.state = .unused)
    (hb : y.birth = (s.mem.proc i).birth) : History t := by
  obtain ⟨hat, hself, hother⟩ := hmv
  have hused := hI.child p _ i hat rfl
  have hoff : ∀ x, s.At i x → x = .forkret := fun _ => hI.forkret_of_used hused
  have hgone := h.gone
  obtain ⟨h1, h2, h3, h4, h5, h6, h7, -⟩ := h
  constructor
  case gone =>
    rw [hborn, htrace]
    intro b hb hno
    by_cases hbn : (s.mem.proc i).birth = b
    · subst hbn
      rw [h6 i hused, h7 i (by simp [hused])]
      exact ⟨rfl, Nat.zero_le 1⟩
    · refine hgone b hb ?_
      intro q hq
      grind
  all_goals clear hgone
  all_goals grind [Pc.exiting]

omit [DecidableEq Lk] hI in
/-- No process appears or disappears, or calls `kexit`. -/
theorem History.keep (hmv : s.Moved t p pc pc')
    (hbefore : ∀ e ∈ t.mem.trace, e.Before t.mem.born)
    (hexits : ∀ b, exits b t.mem.trace = exits b s.mem.trace)
    (hreaps : ∀ b, reaps b t.mem.trace = reaps b s.mem.trace) (hi : (s.mem.proc i).state ≠ .unused)
    (hs : y.state ≠ .unused) (hs' : y.state = .used → (s.mem.proc i).state = .used)
    (hb : y.birth = (s.mem.proc i).birth) (hx : i ≠ p → y.xstate = (s.mem.proc i).xstate)
    (hpc : pc'.exiting (t.mem.proc p).xstate = pc.exiting (s.mem.proc p).xstate) : History t := by
  obtain ⟨hat, hself, hother⟩ := hmv
  have hgone := h.gone
  obtain ⟨h1, h2, h3, h4, h5, h6, h7, -⟩ := h
  constructor
  case gone =>
    simp only [hborn, hexits, hreaps]
    intro b hb hno
    refine hgone b hb ?_
    intro q hq
    grind
  all_goals clear hgone
  all_goals grind [Pc.exiting]

omit [DecidableEq Lk] hI in
/-- A process disappears that has exited. -/
theorem History.reap {addr : Nat} (hmv : s.Moved t p (.wait (.child addr i)) (.wait .done))
    {stored : Option Int}
    (htrace : t.mem.trace = .reap (s.mem.proc p).birth (s.mem.proc i).birth (s.mem.proc i).pid addr
      stored :: s.mem.trace) (hz : (s.mem.proc i).state = .zombie) (hs : y.state = .unused)
    (hb : y.birth = (s.mem.proc i).birth) (hnot : ∀ x, ¬ t.At i x)
    (hexit : exits (s.mem.proc i).birth s.mem.trace = [(s.mem.proc i).xstate]) : History t := by
  obtain ⟨hat, hself, hother⟩ := hmv
  have hgone := h.gone
  obtain ⟨h1, h2, h3, h4, h5, h6, h7, -⟩ := h
  constructor
  case gone =>
    rw [hborn, htrace]
    intro b hb hno
    simp only [exits, reaps]
    by_cases hbi : (s.mem.proc i).birth = b
    · subst hbi
      rw [if_pos rfl, hexit, h7 i (by simp [hz])]
      exact ⟨rfl, Nat.le_refl 1⟩
    · rw [if_neg hbi]
      refine hgone b hb ?_
      intro q hq
      grind
  all_goals clear hgone
  all_goals grind [Pc.exiting, exits, reaps, Event.Before]

end change

/-- A zombie has exited with the status in its `xstate`. -/
theorem History.zombie_status (hz : (s.mem.proc i).state = .zombie) :
    exits (s.mem.proc i).birth s.mem.trace = [(s.mem.proc i).xstate] := by
  obtain ⟨pc, hat⟩ := hI.exists_at (Or.inr (Or.inr (Or.inr hz)))
  have hx : pc.exiting (s.mem.proc i).xstate = some (s.mem.proc i).xstate := by
    rcases hat with ⟨c, hcode⟩ | hctx
    · have hs := (hI.run c i pc hcode).1
      rw [hz] at hs
      exact Pc.exiting_of_zombie hs.symm _
    · have hs := hI.saved i pc hctx
      rw [hz] at hs
      rw [hs.eq_exit]
      rfl
  rw [h.status i pc hat, hx]
  rfl

theorem History.go [DecidableEq κ] (hF : Family n s) (hI' : Inv K (s.go c p pc' m))
    (hcode : (s.cpu c).code = .thread p pc) (heff : KinEff n c p s.mem pc m pc')
    (hmv : s.Moved (s.go c p pc' m) p pc pc') : History (s.go c p pc' m) := by
  have hrun := (hI.run c p pc hcode).1
  have hp := hI.ne_unused_of_at hmv.before
  cases heff with
  | quiet hkin htrace hborn hpc => exact h.quiet (hmv.quiet hpc hkin htrace hborn)
  | exit status => exact h.exit hI hmv hrun (fun _ => rfl) rfl rfl
  | alloc i hi hu =>
    refine h.alloc hI (Mem.proc_setProc_lockProc s.mem c i · _) hmv rfl rfl hu rfl rfl ?_
    intro hinit
    have hlive := hF.initLive
    rw [← hinit, hu] at hlive
    cases hlive
  | undo np =>
    exact h.undo hI (Mem.proc_setProc_unlockProc s.mem c np · _) rfl hmv rfl rfl rfl
  | parent np hfree =>
    have hused := hI.child p _ np hmv.before rfl
    exact h.keep (Mem.proc_setProc s.mem np · _) rfl hmv h.before (fun _ => rfl) (fun _ => rfl)
      (by simp [hused]) (by simp [hused]) id rfl (fun _ => rfl) rfl
  | run np =>
    have hused := hI.child p _ np hmv.before rfl
    refine h.keep (Mem.proc_setProc s.mem np · _) rfl hmv ?_ (fun _ => rfl) (fun _ => rfl)
      (by simp [hused]) nofun nofun rfl (fun _ => rfl) rfl
    intro e he
    rcases mem_cons.mp he with rfl | he
    · exact ⟨h.birth np, h.birth p⟩
    · exact h.before e he
  | reparent status i hr =>
    have hi : (s.mem.proc i).state ≠ .unused := by
      intro hi
      rw [hF.unused i hi] at hr
      cases hr
    exact h.keep (Mem.proc_setProc s.mem i · _) rfl hmv h.before (fun _ => rfl) (fun _ => rfl)
      hi hi id rfl (fun _ => rfl) rfl
  | zombie status =>
    refine h.keep (Mem.proc_setProc_lockProc s.mem c p · _) rfl hmv h.before (fun _ => rfl)
      (fun _ => rfl) hp nofun nofun rfl (fun hne => absurd rfl hne) ?_
    show some (((s.mem.setProc p _).lockProc c p).proc p).xstate = some status
    rw [Mem.proc_setProc_lockProc, if_pos rfl]
  | reap addr i hz =>
    have hproc : ∀ r, (((s.mem.freeproc i).unlockProc c i).proc r) = _ :=
      (Mem.proc_setProc_unlockProc s.mem c i · _)
    refine h.reap hproc rfl hmv rfl hz rfl rfl ?_ (h.zombie_status hI hz)
    intro x hx
    refine hI'.ne_unused_of_at hx ?_
    show (((s.mem.freeproc i).unlockProc c i).proc i).state = .unused
    rw [hproc, if_pos rfl]

theorem History.step [DecidableEq κ] [DecidableEq Ch] (hF : Family n s) (heff : StepEff K n s c t) : History t := by
  have hI' := hI.step heff
  rcases heff.kin hI with hq | ⟨p, pc, pc', m, rfl, hcode, hmv, hkin⟩
  · exact h.quiet hq
  · exact h.go hI hF hI' hcode hkin hmv

end step

omit [DecidableEq Lk] in
theorem History.init (d : D) : History (Sys.init d : Sys κ Lk Ch D L) := by
  constructor <;> try simp only [Sys.at_init]
  · simp [Sys.init]
  · simp only [Sys.init]
    grind
  · rfl
  · exact fun _ he => absurd he not_mem_nil
  · rintro q pc ⟨-, rfl⟩
    rfl
  · intro q hq
    rfl
  · intro q hq
    rfl
  · intro b hb hno
    exact ⟨rfl, Nat.zero_le 1⟩

/-! ## The parents -/

/-- Process `q` has been forked, and its parent is its forker, or `init` once that has exited. -/
def Forked (events : List Event) (m : Mem κ Lk Ch D L) (q : Nat) : Prop :=
  ∃ f, .fork (m.proc q).birth (m.proc q).pid f ∈ events ∧
    ∀ r, (m.proc q).parent = some r → (m.proc r).birth = f ∨
      r = initproc ∧ ∃ status, .exit f status ∈ events

omit [DecidableEq Lk] in
theorem Forked.mono {events' : List Event} (h : Forked events m q)
    (hsub : ∀ e ∈ events, e ∈ events') (hb : (m'.proc q).birth = (m.proc q).birth)
    (hp : (m'.proc q).pid = (m.proc q).pid) (hr : (m'.proc q).parent = (m.proc q).parent)
    (hbr : ∀ r, (m.proc q).parent = some r → (m'.proc r).birth = (m.proc r).birth) :
    Forked events' m' q := by
  obtain ⟨f, hf, hparent⟩ := h
  refine ⟨f, ?_, ?_⟩
  · rw [hb, hp]
    exact hsub _ hf
  · intro r h
    rw [hr] at h
    rw [hbr r h]
    rcases hparent r h with hr | ⟨hr, status, hs⟩
    · exact Or.inl hr
    · exact Or.inr ⟨hr, status, hsub _ hs⟩

omit [DecidableEq Lk] in
theorem Forked.of_proc {r f : Nat} (hq : m.proc q = y) (hy : y.parent = some r)
    (hf : .fork y.birth y.pid f ∈ events)
    (hr : (m.proc r).birth = f ∨ r = initproc ∧ ∃ status, .exit f status ∈ events) :
    Forked events m q := by
  refine ⟨f, ?_, ?_⟩
  · rw [hq]
    exact hf
  · intro r' hr'
    rw [hq, hy] at hr'
    cases hr'
    exact hr

structure Lineage (s : Sys κ Lk Ch D L) : Prop where
  forked : ∀ q, q ≠ initproc → (s.mem.proc q).state ≠ .unused → (s.mem.proc q).state ≠ .used →
    Forked s.mem.trace s.mem q
  justified : Justified s.mem.trace

omit [DecidableEq Lk] in
theorem Lineage.quiet (h : Lineage s) (hq : Quiet n s t) : Lineage t := by
  refine ⟨?_, hq.trace ▸ h.justified⟩
  intro q hi hu hu'
  have hs := (hq.kin q).state
  refine (h.forked q hi (by grind) (by grind)).mono (hq.trace ▸ fun _ => id) (hq.kin q).birth
    (hq.kin q).pid (hq.kin q).parent fun r _ => (hq.kin r).birth

section step

variable (h : Lineage s) (hF : Family n s)

include h hF

omit [DecidableEq Lk] in
/-- Process `i` changes, but if it has been forked then neither its names nor its parent. -/
theorem Lineage.keep (hproc : ∀ r, t.mem.proc r = if r = i then y else s.mem.proc r)
    (hsub : ∀ e ∈ s.mem.trace, e ∈ t.mem.trace) (hj : Justified t.mem.trace)
    (hy : y.state ≠ .unused → y.state ≠ .used → i ≠ initproc → Forked t.mem.trace t.mem i)
    (hb : y.birth = (s.mem.proc i).birth ∨ (s.mem.proc i).state = .unused) : Lineage t := by
  refine ⟨?_, hj⟩
  intro q hi hu hu'
  by_cases hq : q = i
  · subst hq
    rw [hproc, if_pos rfl] at hu hu'
    exact hy hu hu' hi
  · have hpq := hproc q
    rw [if_neg hq] at hpq
    rw [hpq] at hu hu'
    refine (h.forked q hi hu hu').mono hsub (by rw [hpq]) (by rw [hpq]) (by rw [hpq]) ?_
    intro r hr
    have hlive := hF.live q r hr
    grind

theorem Lineage.go [DecidableEq κ] (hI : Inv K s) (hH : History s) (hcode : (s.cpu c).code = .thread p pc)
    (heff : KinEff n c p s.mem pc m pc') (hmv : s.Moved (s.go c p pc' m) p pc pc') :
    Lineage (s.go c p pc' m) := by
  have hrun := (hI.run c p pc hcode).1
  have hat := hmv.before
  cases heff with
  | quiet hkin htrace hborn hpc => exact h.quiet (hmv.quiet hpc hkin htrace hborn)
  | exit status =>
    refine ⟨?_, trivial, h.justified⟩
    intro q hi hu hu'
    exact (h.forked q hi hu hu').mono (fun _ => mem_cons_of_mem _) rfl rfl rfl fun _ _ => rfl
  | alloc i hi hu =>
    exact h.keep hF (Mem.proc_setProc_lockProc s.mem c i · _) (fun _ => id) h.justified
      (fun _ hne => absurd rfl hne) (Or.inr hu)
  | undo np =>
    exact h.keep hF (Mem.proc_setProc_unlockProc s.mem c np · _) (fun _ => id) h.justified
      (fun hne => absurd rfl hne) (Or.inl rfl)
  | parent np hfree =>
    have hused := hI.child p _ np hat rfl
    exact h.keep hF (Mem.proc_setProc s.mem np · _) (fun _ => id) h.justified
      (fun _ hne => absurd hused hne) (Or.inl rfl)
  | run np =>
    have hproc := (Mem.proc_setProc s.mem np · { s.mem.proc np with state := .runnable })
    refine h.keep hF hproc (fun _ => mem_cons_of_mem _) ⟨trivial, h.justified⟩ ?_ (Or.inl rfl)
    intro _ _ _
    have hne : p ≠ np := by
      intro hpn
      have hused := hI.child p _ np hat rfl
      rw [← hpn, hrun] at hused
      cases hused
    refine .of_proc ((hproc np).trans (if_pos rfl)) (hF.linked p _ np hat rfl) mem_cons_self
      (Or.inl ?_)
    exact congrArg Proc.birth ((hproc p).trans (if_neg hne))
  | reparent status i hr =>
    have hproc := (Mem.proc_setProc s.mem i · { s.mem.proc i with parent := some initproc })
    refine h.keep hF hproc (fun _ => id) h.justified ?_ (Or.inl rfl)
    intro hu hu' hi
    obtain ⟨f, hf, hparent⟩ := h.forked i hi hu hu'
    -- the old parent is the one that exits, so it is the forker
    have hp : (s.mem.proc p).birth = f := by
      rcases hparent p hr with hp | ⟨hp, _⟩
      · exact hp
      · cases hF.initExit _ 0 (hp ▸ hat)
    have hstatus : status ∈ exits (s.mem.proc p).birth s.mem.trace := by
      rw [hH.status p _ hat]
      exact mem_cons_self
    exact .of_proc ((hproc i).trans (if_pos rfl)) rfl hf
      (Or.inr ⟨rfl, status, mem_of_exits (hp ▸ hstatus)⟩)
  | zombie status =>
    have hproc := (Mem.proc_setProc_lockProc s.mem c p ·
      { s.mem.proc p with xstate := status, state := .zombie })
    refine h.keep hF hproc (fun _ => id) h.justified ?_ (Or.inl rfl)
    intro _ _ hi
    have hp := (hproc p).trans (if_pos rfl)
    have hb := congrArg Proc.birth hp
    have hpid := congrArg Proc.pid hp
    have hparent := congrArg Proc.parent hp
    refine (h.forked p hi (by simp [hrun, Pc.state]) (by simp [hrun, Pc.state])).mono (fun _ => id)
      hb hpid hparent fun r _ => Mem.field_of_update Proc.birth hproc rfl r
  | reap addr i hz =>
    have hproc : ∀ r, (((s.mem.freeproc i).unlockProc c i).proc r) = _ :=
      (Mem.proc_setProc_unlockProc s.mem c i · _)
    refine h.keep hF hproc (fun _ => mem_cons_of_mem _) ⟨?_, h.justified⟩
      (fun hne => absurd rfl hne) (Or.inl rfl)
    have hparent := hF.reaping p _ i hat rfl
    have hi : i ≠ initproc := by
      intro hi
      have hlive := hF.initLive
      rw [← hi, hz] at hlive
      cases hlive
    have hstatus : (s.mem.proc i).xstate ∈ exits (s.mem.proc i).birth s.mem.trace := by
      rw [hH.zombie_status hI hz]
      exact mem_cons_self
    obtain ⟨f, hf, hp⟩ := h.forked i hi (by simp [hz]) (by simp [hz])
    refine ⟨(s.mem.proc i).xstate, f, mem_of_exits hstatus, rfl, hf, ?_⟩
    rcases hp p hparent with hp | ⟨hp, hexit⟩
    · exact Or.inl hp
    · exact Or.inr ⟨hp ▸ hH.initBirth, hexit⟩

theorem Lineage.step [DecidableEq κ] [DecidableEq Ch] (hI : Inv K s) (hH : History s) (heff : StepEff K n s c t) : Lineage t := by
  rcases heff.kin hI with hq | ⟨p, pc, pc', m, rfl, hcode, hmv, hkin⟩
  · exact h.quiet hq
  · exact h.go hF hI hH hcode hkin hmv

end step

omit [DecidableEq Lk] in
theorem Lineage.init (d : D) : Lineage (Sys.init d : Sys κ Lk Ch D L) := by
  refine ⟨?_, trivial⟩
  intro q hq hu
  exact absurd (if_neg hq) hu

variable [DecidableEq κ]
variable [DecidableEq Ch]

/-- What holds of the family after every run. -/
structure FamilyInv (K : Client Lk Ch D X L) (n : Nat) (s : Sys κ Lk Ch D L) : Prop where
  inv : Inv K s
  family : Family n s
  history : History s
  lineage : Lineage s

theorem FamilyInv.step (h : FamilyInv K n s) (heff : StepEff K n s c t) : FamilyInv K n t where
  inv := h.inv.step heff
  family := h.family.step h.inv heff
  history := h.history.step h.inv h.family heff
  lineage := h.lineage.step h.family h.inv h.history heff

theorem familyInv_of_run {d : D} {acts : List (κ × Act Ch X L)}
    (hrun : run K n (Sys.init d) acts = some s) : FamilyInv K n s :=
  run_induction (fun _ _ _ => FamilyInv.step)
    ⟨Inv.init d, Family.init d, History.init d, Lineage.init d⟩ hrun

/-! ## Results -/

omit [DecidableEq κ] [DecidableEq Ch] in
theorem FamilyInv.parent (h : FamilyInv K n s) (hq : q ≠ initproc)
    (hs : (s.mem.proc q).state.live = true ∨ (s.mem.proc q).state = .zombie) :
    ∃ r, (s.mem.proc q).parent = some r ∧ (s.mem.proc r).state ≠ .unused ∧
      (s.mem.proc r).state ≠ .zombie := by
  cases hr : (s.mem.proc q).parent with
  | none => exact absurd hr (h.family.parent q hq (by grind) (by grind))
  | some r =>
    have hlive := ProcState.ne_of_live (h.family.live q r hr)
    exact ⟨r, rfl, hlive.1, hlive.2.2⟩

omit [DecidableEq κ] [DecidableEq Ch] in
/-- A process that has called `kexit` is in one slot and has not been returned by `kwait`, or it is
    in none and has been returned once. -/
theorem FamilyInv.once (h : FamilyInv K n s) (hexit : .exit b status ∈ s.mem.trace) :
    exits b s.mem.trace = [status] ∧
      ((∃! q, (s.mem.proc q).state ≠ .unused ∧ (s.mem.proc q).birth = b) ∧
          reaps b s.mem.trace = 0 ∨
        (∀ q, (s.mem.proc q).state ≠ .unused → (s.mem.proc q).birth ≠ b) ∧
          reaps b s.mem.trace = 1) := by
  have hH := h.history
  have hmem := exits_of_mem hexit
  by_cases hno : ∀ q, (s.mem.proc q).state ≠ .unused → (s.mem.proc q).birth ≠ b
  · obtain ⟨hlen, hle⟩ := hH.gone b (hH.before _ hexit) hno
    obtain ⟨x, hx⟩ : ∃ x, exits b s.mem.trace = [x] := by
      have hpos := length_pos_of_mem hmem
      exact length_eq_one_iff.mp (by omega)
    rw [hx] at hmem hlen ⊢
    rw [mem_singleton.mp hmem]
    exact ⟨rfl, Or.inr ⟨hno, hlen.symm⟩⟩
  · obtain ⟨q, hq⟩ := not_forall.mp hno
    obtain ⟨hs, hb⟩ := Classical.not_imp.mp hq
    rw [not_not] at hb
    subst hb
    refine ⟨?_, Or.inl ⟨⟨q, ⟨hs, rfl⟩, fun r hr => hH.birthUniq r q hr.1 hs hr.2⟩,
      hH.unreaped q hs⟩⟩
    have hused : (s.mem.proc q).state ≠ .used := by
      intro hused
      rw [hH.used q hused] at hmem
      cases hmem
    obtain ⟨pc, hat⟩ := h.inv.exists_at (by
      cases hx : (s.mem.proc q).state <;> simp_all)
    rw [hH.status q pc hat] at hmem ⊢
    rw [Option.mem_toList] at hmem
    rw [hmem]
    rfl

/-- A slot becomes unused when its process has not run, or in the `kwait` that returns it. -/
theorem FamilyInv.freed (h : FamilyInv K n s) (heff : StepEff K n s c t)
    (hs : (s.mem.proc q).state ≠ .unused) (ht : (t.mem.proc q).state = .unused) :
    (s.mem.proc q).state = .used ∨ ∃ caller addr,
      t.mem.trace = .reap (s.mem.proc caller).birth (s.mem.proc q).birth (s.mem.proc q).pid addr
        (if addr = 0 then none else some (s.mem.proc q).xstate) :: s.mem.trace := by
  rcases heff.changed h.inv with hkin | ⟨i, x, hproc, hx⟩
  · have hstate := (hkin q).state
    grind
  · cases hx <;> grind

/-- What holds of forks, exits and waits. -/
structure ExitWait (K : Client Lk Ch D X L) (n : Nat) (s : Sys κ Lk Ch D L) : Prop where
  parent : s.mem.lock .wait = none → ∀ q, q ≠ initproc →
    (s.mem.proc q).state.live = true ∨ (s.mem.proc q).state = .zombie →
    ∃ r, (s.mem.proc q).parent = some r ∧ (s.mem.proc r).state ≠ .unused ∧
      (s.mem.proc r).state ≠ .zombie
  /-- A process that has called `kexit` is in one slot and has not been returned by `kwait`, or it
      is in none and has been returned once. -/
  once : ∀ b status, .exit b status ∈ s.mem.trace → exits b s.mem.trace = [status] ∧
    ((∃! q, (s.mem.proc q).state ≠ .unused ∧ (s.mem.proc q).birth = b) ∧
        reaps b s.mem.trace = 0 ∨
      (∀ q, (s.mem.proc q).state ≠ .unused → (s.mem.proc q).birth ≠ b) ∧
        reaps b s.mem.trace = 1)
  /-- Who waited for it, and what they got. -/
  justified : Justified s.mem.trace
  /-- A slot becomes unused when `kfork` gives up a child that has not run, or in the `kwait` that
      returns the process. -/
  freed : ∀ c a t q, step K n s c a = some t → (s.mem.proc q).state ≠ .unused →
    (t.mem.proc q).state = .unused → (s.mem.proc q).state = .used ∨ ∃ caller addr,
      t.mem.trace = .reap (s.mem.proc caller).birth (s.mem.proc q).birth (s.mem.proc q).pid addr
        (if addr = 0 then none else some (s.mem.proc q).xstate) :: s.mem.trace
  /-- `kwait` with a bad address changes nothing but a lock. -/
  failed : ∀ c p addr i t, (s.cpu c).code = .thread p (.wait (.child addr i)) → addr ≠ 0 →
    step K n s c (.outcome false) = some t →
    t.mem = s.mem.unlockProc c i

theorem step_bad_address {addr : Nat} (hcode : (s.cpu c).code = .thread p (.wait (.child addr i)))
    (haddr : addr ≠ 0) (h : step K n s c (.outcome false) = some t) :
    t.mem = s.mem.unlockProc c i := by
  simp only [step, hcode, threadStep, waitStep, Act.ok] at h
  split at h
  · rename_i hx
    split at hx
    · split at hx
      · rw [if_pos ⟨haddr, trivial⟩] at hx
        cases hx
        cases h
        rfl
      · cases hx
        cases h
        rfl
    · cases hx
  · rename_i hx
    split at hx
    · split at hx
      · rw [if_pos ⟨haddr, trivial⟩] at hx
        cases hx
      · cases hx
    · cases hx
  · cases h

/-- Exit, wait and reparenting, after any run. -/
theorem exit_and_wait (K : Client Lk Ch D X L) (n : Nat) (d : D) (acts : List (κ × Act Ch X L))
    (s : Sys κ Lk Ch D L) (hrun : run K n (Sys.init d) acts = some s) : ExitWait K n s := by
  have h := familyInv_of_run hrun
  refine ⟨?_, ?_, h.lineage.justified, ?_, ?_⟩
  · intro _ q hq hs
    exact h.parent hq hs
  · intro b status hexit
    exact h.once hexit
  · intro c a t q hstep hs ht
    exact h.freed (step_eff hstep) hs ht
  · intro c p addr i t hcode haddr hstep
    exact step_bad_address hcode haddr hstep

/-- `init` forks a child, which exits with status 7, and waits for it with address 5. -/
def exitSchedule : List (Fin 2 × Act Empty Empty Empty) :=
  (0, .run) :: (0, .run) :: (0, .fork) :: replicate 5 (0, .run) ++
    (1, .run) :: (1, .run) :: (1, .run) :: (1, .exit 7) :: replicate 11 (1, .run) ++
    (0, .wait 5) :: replicate 5 (0, .run)

theorem exit_and_wait_child :
    ∃ s, run Client.bare 2 (Sys.init ()) exitSchedule = some s ∧
      s.mem.trace = [.reap 0 1 2 5 (some 7), .exit 1 7, .fork 1 2 0] ∧ ExitWait Client.bare 2 s := by
  have htrace : (run Client.bare 2 (Sys.init ()) exitSchedule).map (·.mem.trace) =
      some [.reap 0 1 2 5 (some 7), .exit 1 7, .fork 1 2 0] := by
    decide +kernel
  obtain ⟨s, hs, htrace⟩ := Option.map_eq_some_iff.mp htrace
  exact ⟨s, hs, htrace, exit_and_wait _ _ _ _ s hs⟩

end Xv6.Sched
