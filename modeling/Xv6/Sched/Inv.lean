/-
  The invariant of the scheduler.

  `Inv` ties what the CPUs execute to the process table: a process is executed by at
  most one CPU, or has a saved context, or is unused or being set up; its state and channel are
  those of its program point; and every lock is held by the CPU whose program point says so.

  `Inv.step` is its step lemma and `inv_of_run` what holds after a run.  `StepEff` lists what a step
  of the system can be, for the invariants of the other modules.
-/
import Xv6.Sched.Effect

namespace Xv6.Sched

open Function List

variable {κ Lk Ch D X L : Type}
variable {n : Nat} {c : κ} {p : Nat} {a : Act Ch X L}
variable {m m' : Mem κ Lk Ch D L} {pc pc' : Pc Lk Ch L}

/-! ## The invariant -/

/-- What the CPU holds. -/
def Code.plocks : Code Lk Ch L → List Nat
  | .scan _ => []
  | .back i => [i]
  | .thread p pc => pc.plocks p

variable [DecidableEq Lk] {K : Client Lk Ch D X L}

def Code.locks (K : Client Lk Ch D X L) : Code Lk Ch L → List (Lock Lk)
  | .thread _ pc => pc.locks K
  | _ => []

/-- `c->proc` while the CPU executes the code. -/
def Code.proc : Code Lk Ch L → Option Nat
  | .scan _ => none
  | .back i => some i
  | .thread p _ => some p

/-- The kernel thread of process `p` is at `pc`: executed there, or saved there. -/
def Sys.At (s : Sys κ Lk Ch D L) (p : Nat) (pc : Pc Lk Ch L) : Prop :=
  (∃ c, (s.cpu c).code = .thread p pc) ∨ (s.mem.proc p).context = some pc

/-- Each lock is held by the CPU that has it in its list, and `noff` counts them. -/
structure Holds (m : Mem κ Lk Ch D L) (ps : κ → List Nat) (ls : κ → List (Lock Lk)) : Prop where
  plock : ∀ q c, (m.proc q).lock = some c ↔ q ∈ ps c
  lock : ∀ l c, m.lock l = some c ↔ l ∈ ls c
  pnodup : ∀ c, (ps c).Nodup
  nodup : ∀ c, (ls c).Nodup
  noff : ∀ c, m.noff c = (ps c).length + (ls c).length

/-- The locks are those that the code of the CPUs says. -/
def LockInv (K : Client Lk Ch D X L) (s : Sys κ Lk Ch D L) : Prop :=
  Holds s.mem (fun c => (s.cpu c).code.plocks) fun c => (s.cpu c).code.locks K

structure Inv (K : Client Lk Ch D X L) (s : Sys κ Lk Ch D L) : Prop where
  locks : LockInv K s
  proc : ∀ c, (s.cpu c).proc = (s.cpu c).code.proc
  /-- The scheduler of the CPU goes on with the process it has left for. -/
  context : ∀ c p pc, (s.cpu c).code = .thread p pc → (s.cpu c).context = p
  uniq : ∀ c d p pc pc', (s.cpu c).code = .thread p pc → (s.cpu d).code = .thread p pc' → c = d
  run : ∀ c p pc, (s.cpu c).code = .thread p pc →
    (s.mem.proc p).state = pc.state ∧ (s.mem.proc p).context = none
  saved : ∀ p pc, (s.mem.proc p).context = some pc → pc.Saved (s.mem.proc p).state
  chan : ∀ p pc, s.At p pc → (s.mem.proc p).chan = pc.chan p
  idle : ∀ p, (∀ pc, ¬ s.At p pc) →
    ((s.mem.proc p).state = .unused ∨ (s.mem.proc p).state = .used) ∧ (s.mem.proc p).chan = none
  wf : ∀ p pc, s.At p pc → pc.Wf K p
  child : ∀ p pc q, s.At p pc → pc.child = some q → (s.mem.proc q).state = .used
  childUniq : ∀ p p' pc pc' q, s.At p pc → s.At p' pc' → pc.child = some q → pc'.child = some q →
    p = p'
  ready : ∀ p pc q, s.At p pc → pc.ready = some q → (s.mem.proc q).context = some .forkret

/-! ### Locks -/

variable {s t : Sys κ Lk Ch D L}

theorem Holds.step [DecidableEq κ] {ps ps' : κ → List Nat} {ls ls' : κ → List (Lock Lk)} (h : Holds m ps ls)
    {x y : List Nat × List (Lock Lk)} (heff : LockEff c m m' x y) (hx : x = (ps c, ls c))
    (hps : ∀ d, ps' d = if d = c then y.1 else ps d)
    (hls : ∀ d, ls' d = if d = c then y.2 else ls d) : Holds m' ps' ls' := by
  obtain ⟨hplock, hlock, hpnodup, hnodup, hnoff⟩ := h
  cases heff with
  | same hp hl hn =>
    refine ⟨?_, ?_, ?_, ?_, ?_⟩ <;> grind
  | _ =>
    rename_i hp hl hn
    simp only [funext_iff] at hl hn
    refine ⟨?_, ?_, ?_, ?_, ?_⟩ <;> grind

/-- CPU `c` goes on with other code. -/
theorem LockInv.step [DecidableEq κ] (h : LockInv K s) {k : Code Lk Ch L} (k' : Code Lk Ch L)
    (hk : (s.cpu c).code = k)
    (heff : LockEff c s.mem t.mem (k.plocks, k.locks K) (k'.plocks, k'.locks K))
    (hcode : ∀ d, (t.cpu d).code = if d = c then k' else (s.cpu d).code) : LockInv K t := by
  subst hk
  refine Holds.step h heff rfl ?_ ?_ <;>
  · intro d
    rw [hcode]
    split <;> rfl

omit [DecidableEq Lk] in
theorem Pc.Saved.wake (h : pc.Saved .sleeping) : pc.Saved .runnable := by
  cases pc with
  | sleep pt w | yield pt k | exit pt => cases pt <;> simp_all [Pc.Saved]
  | _ => simp_all [Pc.Saved]

omit [DecidableEq Lk] in
theorem Pc.Saved.eq_forkret (h : pc.Saved .used) : pc = .forkret := by
  cases pc with
  | sleep pt w | yield pt k | exit pt => cases pt <;> simp_all [Pc.Saved]
  | _ => simp_all [Pc.Saved]

omit [DecidableEq Lk] in
theorem Pc.not_saved_unused : ¬ pc.Saved .unused ∧ ¬ pc.Saved .running := by
  cases pc with
  | sleep pt | yield pt | exit pt => cases pt <;> simp [Pc.Saved]
  | _ => simp [Pc.Saved]

variable {q i : Nat} {saved : Pc Lk Ch L} {acts : List (κ × Act Ch X L)}

omit [DecidableEq Lk] in
@[grind →]
theorem Pc.child_of_ready (h : pc.ready = some q) : pc.child = some q := by
  induction pc with
  | fork pt => cases pt <;> simp_all [Pc.ready, Pc.child]
  | yield pt k ih => exact ih h
  | _ => simp [Pc.ready] at h

/-! ### Threads -/

omit [DecidableEq Lk] in
@[simp] theorem Sys.code_go [DecidableEq κ] (d : κ) : ((s.go c p pc' m').cpu d).code =
    if d = c then .thread p pc' else (s.cpu d).code := by
  show (update s.cpu c _ d).code = _
  rw [update_apply]
  split <;> rfl

omit [DecidableEq Lk] in
@[simp] theorem Sys.cpu_go [DecidableEq κ] (d : κ) : (s.go c p pc' m').cpu d =
    if d = c then { s.cpu c with code := .thread p pc' } else s.cpu d :=
  update_apply s.cpu c _ d

omit [DecidableEq Lk] in
@[simp] theorem Sys.mem_go [DecidableEq κ] : (s.go c p pc' m').mem = m' := rfl

omit [DecidableEq Lk] in
theorem Sys.at_iff (q : Nat) (x : Pc Lk Ch L) :
    s.At q x ↔ (∃ d, (s.cpu d).code = .thread q x) ∨ (s.mem.proc q).context = some x := Iff.rfl

/-- Where the threads are after a step of process `p` that may have changed the context of `q₀`. -/
theorem Inv.at_go [DecidableEq κ] (h : Inv K s) (hcode : (s.cpu c).code = .thread p pc) (pc' : Pc Lk Ch L)
    (q₀ : Nat) (hq : ∀ d x, (s.cpu d).code = .thread q₀ x → q₀ = p)
    (hctx : ∀ q, q ≠ q₀ → (m'.proc q).context = (s.mem.proc q).context)
    (hp : (m'.proc p).context = none) (q : Nat) (x : Pc Lk Ch L) :
    (s.go c p pc' m').At q x ↔
      if q = p then x = pc' else if q = q₀ then (m'.proc q₀).context = some x else s.At q x := by
  have h1 := h.uniq
  rw [Sys.at_iff, Sys.at_iff]
  simp only [Sys.code_go, Sys.mem_go]
  grind

theorem Inv.plock_of (h : Inv K s) (hcode : (s.cpu c).code = .thread p pc) (hq : q ∈ pc.plocks p) :
    (s.mem.proc q).lock = some c := by
  apply (h.locks.plock q c).mpr
  rw [hcode]
  exact hq

theorem Inv.lock_of (h : Inv K s) (hcode : (s.cpu c).code = .thread p pc) {k : Lock Lk}
    (hk : k ∈ pc.locks K) : s.mem.lock k = some c := by
  apply (h.locks.lock k c).mpr
  rw [hcode]
  exact hk

/-- A process in such a state is not executed, or the CPU that does holds its lock. -/
theorem Inv.not_running (h : Inv K s) {d : κ} {x : Pc Lk Ch L} (hd : (s.cpu d).code = .thread q x) :
    (s.mem.proc q).state ≠ .used ∧ (s.mem.proc q).state ≠ .unused ∧
      ((s.mem.proc q).state ≠ .running → (s.mem.proc q).lock = some d) := by
  rw [(h.run d q x hd).1]
  refine ⟨x.state_ne_used.1, x.state_ne_used.2, ?_⟩
  intro hx
  exact h.plock_of hd (Pc.mem_plocks_of_not_running hx)

theorem OtherEff.not_running (h : Inv K s) (hcode : (s.cpu c).code = .thread p pc)
    {y : Proc κ Lk Ch L} (hq : OtherEff c p q (s.mem.proc q) y pc pc') (d : κ) (x : Pc Lk Ch L) :
    (s.cpu d).code ≠ .thread q x := by
  intro hd
  obtain ⟨h1, h2, h3⟩ := h.not_running hd
  have hP : s.At p pc := Or.inl ⟨c, hcode⟩
  cases hq with
  | wake hfree hs hs' hx hc hpc =>
    have hlock := h3 (by rw [hs]; nofun)
    rw [hfree] at hlock
    cases hlock
  | alloc i hfree hs hs' hx hc => exact h2 hs
  | init | undo | launch => exact h1 (h.child p _ q hP rfl)
  | reap addr hlock hz hs hx hc =>
    have hlock' := h3 (by rw [hz]; nofun)
    rw [hlock] at hlock'
    cases hlock'
    rw [hcode] at hd
    cases hd
    have hrun := (h.run c p _ hcode).1
    rw [hz] at hrun
    cases hrun

variable [DecidableEq κ]

section go

variable (h : Inv K s) (hcode : (s.cpu c).code = .thread p pc)
  (hlocks : LockInv K (s.go c p pc' m')) (hwf : pc'.Wf K p)

include h hcode hlocks hwf

theorem Inv.go_quiet (hsame : ∀ q, s.mem.Same m' q) (hpc : pc.Alike p pc') :
    Inv K (s.go c p pc' m') := by
  have hP : s.At p pc := Or.inl ⟨c, hcode⟩
  simp only [Mem.Same, forall_and] at hsame
  obtain ⟨hst, hct, hch⟩ := hsame
  have hat := h.at_go hcode pc' p (fun _ _ _ => rfl) (fun q _ => hct q)
    ((hct p).trans (h.run c p pc hcode).2)
  obtain ⟨hl, hproc, hcontext, huniq, hrun, hsaved, hchan, hidle, hwf', hchild, hchildUniq,
    hready⟩ := h
  obtain ⟨⟨hstate, hchan'⟩, hchild', hready'⟩ := hpc
  refine ⟨hlocks, ?_, ?_, ?_, ?_, ?_, ?_, ?_, ?_, ?_, ?_, ?_⟩ <;>
    simp only [hat, Sys.cpu_go, Sys.mem_go] <;> grind [Code.proc]

theorem Inv.go_own (hsame : ∀ q, q ≠ p → s.mem.Same m' q)
    (hx : (m'.proc p).context = (s.mem.proc p).context) (hs : (m'.proc p).state = pc'.state)
    (hc : (m'.proc p).chan = pc'.chan p) (hk : pc'.child = pc.child) (hd : pc'.ready = pc.ready) :
    Inv K (s.go c p pc' m') := by
  have hP : s.At p pc := Or.inl ⟨c, hcode⟩
  have hne := pc.state_ne_used
  simp only [Mem.Same, forall_and] at hsame
  obtain ⟨hst, hct, hch⟩ := hsame
  have hat := h.at_go hcode pc' p (fun _ _ _ => rfl) hct
    (hx.trans (h.run c p pc hcode).2)
  obtain ⟨hl, hproc, hcontext, huniq, hrun, hsaved, hchan, hidle, hwf', hchild, hchildUniq,
    hready⟩ := h
  refine ⟨hlocks, ?_, ?_, ?_, ?_, ?_, ?_, ?_, ?_, ?_, ?_, ?_⟩ <;>
    simp only [hat, Sys.cpu_go, Sys.mem_go] <;> grind [Code.proc]

omit [DecidableEq κ] in
omit hlocks in
/-- What the invariant needs to know of a step that changes another process `q`. -/
theorem OtherEff.facts (hq : OtherEff c p q (s.mem.proc q) (m'.proc q) pc pc') :
    pc.Like p pc' ∧
    (∀ x, (m'.proc q).context = some x →
      x.Saved (m'.proc q).state ∧ (m'.proc q).chan = x.chan q ∧ x.Wf K q ∧
        (s.At q x ∨ x = .forkret)) ∧
    ((m'.proc q).context = none →
      ((m'.proc q).state = .unused ∨ (m'.proc q).state = .used) ∧ (m'.proc q).chan = none) ∧
    (∀ r, pc'.child = some r → pc.child = some r ∨ r = q ∧ (s.mem.proc q).state = .unused) ∧
    (pc'.child = some q → (m'.proc q).state = .used) ∧
    (∀ r, pc'.ready = some r → pc.ready = some r ∨ r = q ∧ (m'.proc q).context = some .forkret) ∧
    ((s.mem.proc q).state = .used →
      (m'.proc q).state = .used ∧ ((m'.proc q).context = (s.mem.proc q).context ∨
        (m'.proc q).context = some .forkret) ∨ pc.child = some q ∧ pc'.child = none) := by
  have hP : s.At p pc := Or.inl ⟨c, hcode⟩
  have hnr := hq.not_running h hcode
  have hAt : ∀ x, s.At q x ↔ (s.mem.proc q).context = some x := by
    intro x
    exact ⟨fun hx => hx.elim (fun hd => hd.elim fun d hd => absurd hd (hnr d x)) id, Or.inr⟩
  have hidle : (s.mem.proc q).context = none →
      ((s.mem.proc q).state = .unused ∨ (s.mem.proc q).state = .used) ∧
        (s.mem.proc q).chan = none := by
    intro hx
    refine h.idle q ?_
    intro x hq
    rw [hAt, hx] at hq
    cases hq
  have hold : ∀ x, (s.mem.proc q).context = some x →
      x.Saved (s.mem.proc q).state ∧ (s.mem.proc q).chan = x.chan q ∧ x.Wf K q := by
    intro x hx
    exact ⟨h.saved q x hx, h.chan q x (Or.inr hx), h.wf q x (Or.inr hx)⟩
  cases hq with
  | wake hfree hs hs' hx hc hpc =>
    rw [hx, hc, hs']
    rw [hs] at hidle hold
    refine ⟨hpc.toLike, ?_, ?_, ?_, ?_, ?_, ?_⟩
    · intro x hx
      obtain ⟨h1, h2, h3⟩ := hold x hx
      exact ⟨h1.wake, h2, h3, Or.inl ((hAt x).mpr hx)⟩
    · intro hx
      rcases (hidle hx).1 with h1 | h1 <;> cases h1
    · intro r hr
      exact Or.inl (hpc.child ▸ hr)
    · intro hk
      have hused := h.child p pc q hP (hpc.child ▸ hk)
      rw [hs] at hused
      cases hused
    · intro r hr
      exact Or.inl (hpc.ready ▸ hr)
    · intro hused
      rw [hs] at hused
      cases hused
  | alloc i hfree hs hs' hx hc =>
    rw [hx, hc, hs']
    rw [hs] at hidle hold
    refine ⟨⟨rfl, rfl⟩, ?_, ?_, ?_, ?_, ?_, ?_⟩
    · intro x hx
      exact absurd (hold x hx).1 Pc.not_saved_unused.1
    · intro hx
      exact ⟨Or.inr rfl, (hidle hx).2⟩
    · intro r hr
      cases hr
      exact Or.inr ⟨rfl, hs⟩
    · intro _
      rfl
    · nofun
    · intro hused
      rw [hs] at hused
      cases hused
  | init hs hx hc =>
    have hused := h.child p _ q hP rfl
    have hnone : (s.mem.proc q).chan = none := by
      cases hq : (s.mem.proc q).context with
      | none => exact (hidle hq).2
      | some x =>
        obtain ⟨h1, h2, _⟩ := hold x hq
        rw [hused] at h1
        rw [h2, h1.eq_forkret]
        rfl
    rw [hx, hc, hs, hused]
    refine ⟨⟨rfl, rfl⟩, ?_, nofun, ?_, ?_, ?_, ?_⟩
    · intro x hx
      cases hx
      exact ⟨Or.inl rfl, hnone, trivial, Or.inr rfl⟩
    · intro r hr
      exact Or.inl hr
    · intro _
      rfl
    · intro r hr
      cases hr
      exact Or.inr ⟨rfl, rfl⟩
    · intro _
      exact Or.inl ⟨rfl, Or.inr rfl⟩
  | undo hs hx hc =>
    rw [hx, hc, hs]
    refine ⟨⟨rfl, rfl⟩, nofun, ?_, nofun, nofun, nofun, ?_⟩
    · intro _
      exact ⟨Or.inl rfl, rfl⟩
    · intro _
      exact Or.inr ⟨rfl, rfl⟩
  | launch hfree hs hx hc =>
    have hfr := h.ready p _ q hP rfl
    obtain ⟨_, h2, h3⟩ := hold _ hfr
    rw [hx, hc, hs, hfr]
    refine ⟨⟨rfl, rfl⟩, ?_, nofun, nofun, nofun, nofun, ?_⟩
    · intro x hx
      cases hx
      exact ⟨Or.inr rfl, h2, h3, Or.inr rfl⟩
    · intro _
      exact Or.inr ⟨rfl, rfl⟩
  | reap addr hlock hz hs hx hc =>
    rw [hx, hc, hs]
    refine ⟨⟨rfl, rfl⟩, nofun, ?_, nofun, nofun, nofun, ?_⟩
    · intro _
      exact ⟨Or.inl rfl, rfl⟩
    · intro hused
      rw [hz] at hused
      cases hused

/-- A step that changes another process `q`. -/
theorem Inv.go_other (hsame : ∀ r, r ≠ q → s.mem.Same m' r)
    (hq : OtherEff c p q (s.mem.proc q) (m'.proc q) pc pc') : Inv K (s.go c p pc' m') := by
  have hP : s.At p pc := Or.inl ⟨c, hcode⟩
  have hnr := hq.not_running h hcode
  have hpq : p ≠ q := fun hpq => hnr c pc (hpq ▸ hcode)
  obtain ⟨⟨hstate, hchan'⟩, f1, f2, f3, f4, f5, f6⟩ := hq.facts h hcode hwf
  simp only [Mem.Same, forall_and] at hsame
  obtain ⟨hst, hct, hch⟩ := hsame
  have hat := h.at_go hcode pc' q (fun d x hd => absurd hd (hnr d x)) hct
    ((hct p hpq).trans (h.run c p pc hcode).2)
  have hfk : (Pc.forkret : Pc Lk Ch L).child = none := rfl
  obtain ⟨hl, hproc, hcontext, huniq, hrun, hsaved, hchan, hidle, hwf', hchild, hchildUniq,
    hready⟩ := h
  refine ⟨hlocks, ?_, ?_, ?_, ?_, ?_, ?_, ?_, ?_, ?_, ?_, ?_⟩ <;>
    simp only [hat, Sys.cpu_go, Sys.mem_go]
  · grind [Code.proc]
  · grind
  · grind
  · grind
  · grind
  · grind
  · intro r hr
    cases hx : (m'.proc q).context with
    | none => grind
    | some x => grind
  · grind
  · grind
  · grind
  · grind

/-- A step of a thread that does not leave its CPU. -/
theorem Inv.go (heff : StateEff c p s.mem m' pc pc') : Inv K (s.go c p pc' m') := by
  cases heff with
  | quiet hsame hpc => exact h.go_quiet hcode hlocks hwf hsame hpc
  | own hsame hx hs hc hr hk hd => exact h.go_own hcode hlocks hwf hsame hx hs hc hk hd
  | other q hsame hq => exact h.go_other hcode hlocks hwf hsame hq

end go

/-- The point after a step is one that can occur. -/
theorem threadStep_wf [DecidableEq Ch] (hwf : pc.Wf K p) (h : threadStep K n c p a m pc = some (m', .go pc')) :
    pc'.Wf K p := by
  cases threadStep_eff h with
  | user heff | kill _ _ heff | fork _ heff | wait _ heff => cases heff <;> trivial
  | client l heff =>
    cases heff with
    | sleep ch k next hcode => exact ⟨l, hcode⟩
    | wakeup ch next hcode => exact ⟨l, ch, rfl, hcode⟩
    | _ => trivial
  | forkret hlock => trivial
  | sleep pt w heff =>
    cases heff with
    | reacquire hfree => cases w <;> trivial
    | _ => exact hwf
  | wakeup ch i k heff =>
    cases heff with
    | done hi => cases k <;> trivial
    | _ => cases k <;> exact hwf
  | yield pt k heff =>
    cases heff with
    | set => exact hwf
    | back hlock => exact hwf.1
  | exit pt heff =>
    cases heff with
    | wakeParent status i r hi hr => exact ⟨r, rfl⟩
    | reparent status i hi hr => exact rfl
    | _ => trivial

/-! ### Switching -/

theorem threadStep_swtch [DecidableEq Ch] (h : threadStep K n c p a m pc = some (m', .swtch saved)) :
    m' = m ∧ m.noff c = 1 ∧ SwtchEff pc saved := by
  cases threadStep_eff h with
  | swtch hnoff hs => exact ⟨rfl, hnoff, hs⟩

theorem SwtchEff.facts (h : SwtchEff pc saved) (hwf : pc.Wf K p) :
    p ∈ pc.plocks p ∧ saved.Saved pc.state ∧ saved.chan p = pc.chan p ∧ saved.child = pc.child ∧
      saved.ready = pc.ready ∧ saved.Wf K p := by
  cases h with
  | sleep w => exact ⟨mem_cons_self, Or.inl rfl, rfl, rfl, rfl, hwf⟩
  | yield k => exact ⟨mem_cons_self, rfl, rfl, rfl, rfl, hwf⟩
  | exit => exact ⟨mem_cons_self, rfl, rfl, rfl, rfl, trivial⟩

/-- What it takes to execute a saved context. -/
theorem Pc.Saved.facts (h : pc.Saved .runnable) (hwf : pc.Wf K p) :
    pc.state = .running ∧ pc.plocks p = [p] ∧ pc.locks K = [] := by
  cases pc with
  | forkret => exact ⟨rfl, rfl, rfl⟩
  | sleep pt w =>
    cases pt with
    | back => exact ⟨rfl, rfl, rfl⟩
    | _ => exact h.elim
  | yield pt k =>
    cases pt with
    | back => exact ⟨rfl, congrArg (p :: ·) hwf.2.1, hwf.2.2⟩
    | _ => exact h.elim
  | exit pt =>
    cases pt with
    | back => cases h
    | _ => exact h.elim
  | _ => exact h.elim

theorem Inv.swtch (h : Inv K s) (hcode : (s.cpu c).code = .thread p pc) (hnoff : s.mem.noff c = 1)
    (heff : SwtchEff pc saved) : Inv K (s.swtch c p saved s.mem) := by
  have hP : s.At p pc := Or.inl ⟨c, hcode⟩
  obtain ⟨f1, f2, f3, f4, f5, f6⟩ := heff.facts (h.wf p pc hP)
  have hcpu : ∀ d, (s.swtch c p saved s.mem).cpu d =
      if d = c then { s.cpu c with code := .back p } else s.cpu d := by
    intro d
    show update s.cpu c _ d = _
    rw [update_apply, h.context c p pc hcode]
  have hmem : ∀ q, (s.swtch c p saved s.mem).mem.proc q =
      if q = p then { s.mem.proc p with context := some saved } else s.mem.proc q :=
    fun q => Mem.proc_setProc s.mem p q _
  have hat : ∀ q x, (s.swtch c p saved s.mem).At q x ↔ if q = p then x = saved else s.At q x := by
    intro q x
    have h1 := h.uniq
    rw [Sys.at_iff, Sys.at_iff]
    grind
  -- the CPU holds `p->lock` and nothing else
  have hholds : pc.plocks p = [p] ∧ pc.locks K = [] := by
    have hn := h.locks.noff c
    rw [hcode] at hn
    simp only [Code.plocks, Code.locks] at hn
    obtain ⟨x, hx⟩ : ∃ x, pc.plocks p = [x] := by
      rw [← length_eq_one_iff]
      have hpos := length_pos_of_mem f1
      omega
    refine ⟨?_, ?_⟩
    · rw [hx] at f1
      exact hx.trans (congrArg (fun y => [y]) (mem_singleton.mp f1).symm)
    · rw [← length_eq_zero_iff]
      rw [hx, length_singleton] at hn
      omega
  have hlocks : LockInv K (s.swtch c p saved s.mem) := by
    refine h.locks.step (.back p) hcode ?_ ?_
    · show LockEff c s.mem _ (pc.plocks p, pc.locks K) ([p], [])
      rw [hholds.1, hholds.2]
      exact .same (Mem.field_of_update Proc.lock hmem rfl) rfl rfl
    · grind
  obtain ⟨hl, hproc, hcontext, huniq, hrun, hsaved, hchan, hidle, hwf', hchild, hchildUniq,
    hready⟩ := h
  refine ⟨hlocks, ?_, ?_, ?_, ?_, ?_, ?_, ?_, ?_, ?_, ?_, ?_⟩ <;>
    simp only [hat, hcpu, hmem] <;> grind [Code.proc, Pc.state_ne_used]

/-- The scheduler picks process `i`. -/
theorem Inv.pick (h : Inv K s) (hcode : (s.cpu c).code = .scan i)
    (hfree : (s.mem.proc i).lock = none) (hs : (s.mem.proc i).state = .runnable)
    (hx : (s.mem.proc i).context = some pc) (hcpu : ∀ d, t.cpu d =
      if d = c then { proc := some i, context := i, code := .thread i pc } else s.cpu d)
    (hmem : t.mem = (s.mem.setProc i
      { s.mem.proc i with state := .running, context := none }).lockProc c i) : Inv K t := by
  have hP : s.At i pc := Or.inr hx
  have hpick := h.saved i pc hx
  rw [hs] at hpick
  obtain ⟨f1, f2, f3⟩ := hpick.facts (h.wf i pc hP)
  have hproc' : ∀ q, t.mem.proc q = if q = i then
      { s.mem.proc i with state := .running, context := none, lock := some c } else
      s.mem.proc q := by
    intro q
    rw [hmem]
    exact Mem.proc_setProc_lockProc s.mem c i q _
  have hat : ∀ q x, t.At q x ↔ s.At q x := by
    intro q x
    rw [Sys.at_iff, Sys.at_iff]
    grind
  have hlocks : LockInv K t := by
    refine h.locks.step (.thread i pc) hcode ?_ ?_
    · show LockEff c s.mem t.mem ([], []) (pc.plocks i, pc.locks K)
      rw [f2, f3]
      refine .lockProc i hfree (Mem.lock_of_update_eq hproc' rfl) ?_ ?_
      · rw [hmem]
        rfl
      · rw [hmem]
        rfl
    · grind
  obtain ⟨hl, hproc, hcontext, huniq, hrun, hsaved, hchan, hidle, hwf', hchild, hchildUniq,
    hready⟩ := h
  refine ⟨hlocks, ?_, ?_, ?_, ?_, ?_, ?_, ?_, ?_, ?_, ?_, ?_⟩ <;>
    simp only [hat, hcpu, hproc'] <;> grind [Code.proc]

omit [DecidableEq κ] in
/-- A step that moves no thread and changes no process but for its lock. -/
theorem Inv.of_same (h : Inv K s) (hlocks : LockInv K t)
    (hthread : ∀ d p pc, (t.cpu d).code = .thread p pc ↔ (s.cpu d).code = .thread p pc)
    (hcontext : ∀ d p pc, (s.cpu d).code = .thread p pc → (t.cpu d).context = (s.cpu d).context)
    (hproc : ∀ d, (t.cpu d).proc = (t.cpu d).code.proc) (hsame : ∀ q, s.mem.Same t.mem q) :
    Inv K t := by
  simp only [Mem.Same, forall_and] at hsame
  obtain ⟨hst, hct, hch⟩ := hsame
  have hat : ∀ q x, t.At q x ↔ s.At q x := by
    intro q x
    rw [Sys.at_iff, Sys.at_iff, hct]
    simp only [hthread]
  refine ⟨hlocks, hproc, ?_, ?_, ?_, ?_, ?_, ?_, ?_, ?_, ?_, ?_⟩
  · intro d p pc hd
    have hs := (hthread d p pc).mp hd
    rw [hcontext d p pc hs, h.context d p pc hs]
  · intro d e p pc pc' hd he
    exact h.uniq d e p pc pc' ((hthread d p pc).mp hd) ((hthread e p pc').mp he)
  · intro d p pc hd
    rw [hst, hct]
    exact h.run d p pc ((hthread d p pc).mp hd)
  · intro p pc hx
    rw [hst]
    exact h.saved p pc ((hct p).symm.trans hx)
  · intro p pc hp
    rw [hch]
    exact h.chan p pc ((hat p pc).mp hp)
  · intro p hp
    rw [hst, hch]
    exact h.idle p fun pc hpc => hp pc ((hat p pc).mpr hpc)
  · intro p pc hp
    exact h.wf p pc ((hat p pc).mp hp)
  · intro p pc q hp hk
    rw [hst]
    exact h.child p pc q ((hat p pc).mp hp) hk
  · intro p p' pc pc' q hp hp' hk hk'
    exact h.childUniq p p' pc pc' q ((hat p pc).mp hp) ((hat p' pc').mp hp') hk hk'
  · intro p pc q hp hr
    rw [hct]
    exact h.ready p pc q ((hat p pc).mp hp) hr

omit [DecidableEq κ] in
/-- An interrupt handler wakes process `q`. -/
theorem Inv.wake [DecidableEq Ch] (h : Inv K s) {ch : Chan Ch} (hfree : (s.mem.proc q).lock = none) :
    Inv K { s with mem := s.mem.wake ch q } := by
  have hproc' := s.mem.proc_wake ch q
  have hlocks : LockInv K { s with mem := s.mem.wake ch q } := by
    have hw := s.mem.wake_locks ch q
    obtain ⟨h1, h2, h3, h4, h5⟩ := h.locks
    refine ⟨?_, ?_, h3, h4, ?_⟩
    · intro r d
      rw [Mem.field_of_update Proc.lock hproc' rfl]
      exact h1 r d
    · intro l d
      rw [hw.1]
      exact h2 l d
    · intro d
      rw [hw.2]
      exact h5 d
  by_cases hs : (s.mem.proc q).state = .sleeping ∧ (s.mem.proc q).chan = some ch
  · have hnr : ∀ d x, (s.cpu d).code ≠ .thread q x := by
      intro d x hd
      have hlock := (h.not_running hd).2.2 (by rw [hs.1]; nofun)
      rw [hfree] at hlock
      cases hlock
    have hat : ∀ r x, ({ s with mem := s.mem.wake ch q } : Sys κ Lk Ch D L).At r x ↔ s.At r x := by
      intro r x
      rw [Sys.at_iff, Sys.at_iff]
      grind
    have hwake : ∀ x : Pc Lk Ch L, x.Saved .sleeping → x.Saved .runnable := fun _ => Pc.Saved.wake
    obtain ⟨hl, hproc, hcontext, huniq, hrun, hsaved, hchan, hidle, hwf', hchild, hchildUniq,
      hready⟩ := h
    refine ⟨hlocks, hproc, hcontext, huniq, ?_, ?_, ?_, ?_, ?_, ?_, ?_, ?_⟩ <;>
      simp only [hat] <;> grind
  · refine h.of_same hlocks (fun _ _ _ => Iff.rfl) (fun _ _ _ _ => rfl) h.proc ?_
    exact Mem.Same.of_update hproc' (if_neg hs) rfl rfl

theorem Inv.timer (h : Inv K s) (hcode : (s.cpu c).code = .thread p pc) (hnoff : s.mem.noff c = 0)
    (hfree : (s.mem.proc p).lock = none) : Inv K (s.go c p (.yield .set pc) (s.mem.lockProc c p)) := by
  have hn := h.locks.noff c
  rw [hcode] at hn
  simp only [Code.plocks, Code.locks] at hn
  have hps : pc.plocks p = [] := length_eq_zero_iff.mp (by omega)
  have hls : pc.locks K = [] := length_eq_zero_iff.mp (by omega)
  have hrun := Pc.running_of_plocks hps
  refine h.go hcode ?_ ⟨h.wf p pc (Or.inl ⟨c, hcode⟩), hps, hls⟩ ?_
  · refine h.locks.step (.thread p (.yield .set pc)) hcode ?_ Sys.code_go
    show LockEff c s.mem (s.mem.lockProc c p) (pc.plocks p, pc.locks K) (p :: pc.plocks p, pc.locks K)
    exact .lockProc p hfree (Mem.lock_of_update_eq (Mem.proc_lockProc s.mem c p) rfl) rfl rfl
  · exact .quiet (Mem.Same.of_update (Mem.proc_lockProc s.mem c p) rfl rfl rfl)
      ⟨⟨hrun.1.symm, hrun.2.symm⟩, rfl, rfl⟩

theorem Inv.stateEff [DecidableEq Ch] (h : Inv K s) (hcode : (s.cpu c).code = .thread p pc)
    (hstep : threadStep K n c p a s.mem pc = some (m', .go pc')) : StateEff c p s.mem m' pc pc' := by
  have hP : s.At p pc := Or.inl ⟨c, hcode⟩
  exact threadStep_stateEff (h.wf p pc hP) (h.run c p pc hcode).1 (h.chan p pc hP) hstep

theorem Inv.thread [DecidableEq Ch] (h : Inv K s) (hcode : (s.cpu c).code = .thread p pc)
    (hstep : threadStep K n c p a s.mem pc = some (m', .go pc')) : Inv K (s.go c p pc' m') := by
  have hwf := h.wf p pc (Or.inl ⟨c, hcode⟩)
  refine h.go hcode ?_ (threadStep_wf hwf hstep) (h.stateEff hcode hstep)
  exact h.locks.step (.thread p pc') hcode (threadStep_lockEff hwf hstep) Sys.code_go

theorem Inv.back (h : Inv K s) (hcode : (s.cpu c).code = .back i)
    (hlock : (s.mem.proc i).lock = some c) :
    Inv K
      { mem := s.mem.unlockProc c i
        cpu := update s.cpu c { s.cpu c with proc := none, code := .scan (i + 1) } } := by
  refine h.of_same ?_ ?_ ?_ ?_ ?_
  · refine h.locks.step (.scan (i + 1)) hcode (.unlockProc i hlock ?_ rfl rfl) ?_
    · exact Mem.lock_of_update_eq (Mem.proc_unlockProc s.mem c i) rfl
    · grind
  · intro d p pc
    grind
  · intro d p pc hd
    grind
  · intro d
    have := h.proc d
    grind [Code.proc]
  · exact Mem.Same.of_update (Mem.proc_unlockProc s.mem c i) rfl rfl rfl

/-- The scheduler goes on with its loop. -/
theorem Inv.scan (h : Inv K s) {j : Nat} (hcode : (s.cpu c).code = .scan i) :
    Inv K { s with cpu := update s.cpu c { s.cpu c with code := .scan j } } := by
  refine h.of_same ?_ ?_ ?_ ?_ (Mem.Same.of_proc_eq rfl)
  · refine h.locks.step (.scan j) hcode (.refl _) ?_
    grind
  · intro d p pc
    grind
  · intro d p pc hd
    grind
  · intro d
    have := h.proc d
    grind [Code.proc]

/-! ### Runs -/

variable [DecidableEq Ch]

/-- What a step of CPU `c` is. -/
inductive StepEff (K : Client Lk Ch D X L) (n : Nat) (s : Sys κ Lk Ch D L) (c : κ) :
    Sys κ Lk Ch D L → Prop
  | scan (i j : Nat) (hcode : (s.cpu c).code = .scan i) :
      StepEff K n s c { s with cpu := update s.cpu c { s.cpu c with code := .scan j } }
  | pick (i : Nat) (pc : Pc Lk Ch L) (hcode : (s.cpu c).code = .scan i) (hi : i < n)
      (hfree : (s.mem.proc i).lock = none) (hs : (s.mem.proc i).state = .runnable)
      (hx : (s.mem.proc i).context = some pc) :
      StepEff K n s c
        { mem := (s.mem.setProc i
            { s.mem.proc i with state := .running, context := none }).lockProc c i
          cpu := update s.cpu c { proc := some i, context := i, code := .thread i pc } }
  | back (i : Nat) (hcode : (s.cpu c).code = .back i) (hlock : (s.mem.proc i).lock = some c) :
      StepEff K n s c
        { mem := s.mem.unlockProc c i
          cpu := update s.cpu c { s.cpu c with proc := none, code := .scan (i + 1) } }
  | go (p : Nat) (pc pc' : Pc Lk Ch L) (a : Act Ch X L) (m : Mem κ Lk Ch D L)
      (hcode : (s.cpu c).code = .thread p pc)
      (hstep : threadStep K n c p a s.mem pc = some (m, .go pc')) :
      StepEff K n s c (s.go c p pc' m)
  | swtch (p : Nat) (pc saved : Pc Lk Ch L) (hcode : (s.cpu c).code = .thread p pc)
      (hnoff : s.mem.noff c = 1) (heff : SwtchEff pc saved) :
      StepEff K n s c (s.swtch c p saved s.mem)
  | timer (p : Nat) (pc : Pc Lk Ch L) (hcode : (s.cpu c).code = .thread p pc)
      (hnoff : s.mem.noff c = 0) (hfree : (s.mem.proc p).lock = none) :
      StepEff K n s c (s.go c p (.yield .set pc) (s.mem.lockProc c p))
  | device (x : X) (hfree : s.mem.lock (.client (K.deviceLock x)) = none) :
      StepEff K n s c { s with mem := { s.mem with data := K.device x s.mem.data } }
  | wake (ch : Ch) (q : Nat) (hfree : (s.mem.proc q).lock = none) :
      StepEff K n s c { s with mem := s.mem.wake (.client ch) q }

theorem schedulerScan_eff (hcode : (s.cpu c).code = .scan i) (h : schedulerScan n c i s = some t) :
    StepEff K n s c t := by
  unfold schedulerScan at h
  split at h
  · cases h
    exact .scan i 0 hcode
  · rename_i hi
    obtain ⟨hfree, h⟩ := Option.ite_none_right_eq_some.mp h
    split at h
    · rename_i hs
      split at h
      · rename_i pc hx
        cases h
        exact .pick i pc hcode (Nat.lt_of_not_ge hi) hfree hs hx
      · cases h
    · cases h
      exact .scan i (i + 1) hcode

theorem schedulerBack_eff (hcode : (s.cpu c).code = .back i) (h : schedulerBack c i s = some t) :
    StepEff K n s c t := by
  obtain ⟨hlock, ⟨⟩⟩ := Option.ite_none_right_eq_some.mp h
  exact .back i hcode hlock

theorem step_eff (h : step K n s c a = some t) : StepEff K n s c t := by
  cases a with
  | device x =>
    obtain ⟨hx, ⟨⟩⟩ := Option.ite_none_right_eq_some.mp h
    exact .device x hx.2
  | deviceWakeup ch q =>
    obtain ⟨hx, ⟨⟩⟩ := Option.ite_none_right_eq_some.mp h
    exact .wake ch q hx.2.2
  | timer =>
    simp only [step] at h
    split at h
    · rename_i p k hcode
      split at h
      · rename_i hx
        cases h
        exact .timer p k hcode hx.1 hx.2
      · cases h
    · cases h
  | _ =>
    simp only [step] at h
    split at h
    · rename_i i hcode
      exact schedulerScan_eff hcode h
    · rename_i i hcode
      exact schedulerBack_eff hcode h
    · rename_i p pc hcode
      split at h
      · rename_i m pc' hstep
        cases h
        exact .go p pc pc' _ m hcode hstep
      · rename_i m saved hstep
        cases h
        obtain ⟨rfl, hnoff, heff⟩ := threadStep_swtch hstep
        exact .swtch p pc saved hcode hnoff heff
      · cases h

theorem Inv.step (h : Inv K s) (heff : StepEff K n s c t) : Inv K t := by
  cases heff with
  | scan i j hcode => exact h.scan hcode
  | pick i pc hcode hi hfree hs hx =>
    exact h.pick hcode hfree hs hx (update_apply s.cpu c _) rfl
  | back i hcode hlock => exact h.back hcode hlock
  | go p pc pc' a m hcode hstep => exact h.thread hcode hstep
  | swtch p pc saved hcode hnoff heff => exact h.swtch hcode hnoff heff
  | timer p pc hcode hnoff hfree => exact h.timer hcode hnoff hfree
  | device x hfree =>
    exact h.of_same ⟨h.locks.plock, h.locks.lock, h.locks.pnodup, h.locks.nodup, h.locks.noff⟩
      (fun _ _ _ => Iff.rfl) (fun _ _ _ _ => rfl) h.proc (Mem.Same.of_proc_eq rfl)
  | wake ch q hfree => exact h.wake hfree

omit [DecidableEq κ] [DecidableEq Ch] in
theorem Inv.init (d : D) : Inv K (Sys.init d : Sys κ Lk Ch D L) := by
  have hat : ∀ q x, (Sys.init d : Sys κ Lk Ch D L).At q x ↔ q = initproc ∧ x = .forkret := by
    intro q x
    rw [Sys.at_iff]
    simp only [Sys.init]
    grind
  refine ⟨⟨?_, ?_, ?_, ?_, ?_⟩, ?_, ?_, ?_, ?_, ?_, ?_, ?_, ?_, ?_, ?_, ?_⟩ <;> try simp only [hat]
  · simp [Sys.init, Code.plocks]
  · simp [Sys.init, Code.locks]
  · simp [Sys.init, Code.plocks]
  · simp [Sys.init, Code.locks]
  · simp [Sys.init, Code.locks, Code.plocks]
  · simp [Sys.init, Code.proc]
  · simp [Sys.init]
  · simp [Sys.init]
  · simp [Sys.init]
  · simp only [Sys.init]
    grind [Pc.Saved]
  · simp only [Sys.init]
    grind [Pc.chan]
  · simp only [Sys.init]
    grind
  · grind [Pc.Wf]
  · grind [Pc.child]
  · grind [Pc.child]
  · grind [Pc.ready]

/-- An invariant of every step holds after every run. -/
theorem run_induction {P : Sys κ Lk Ch D L → Prop} (hstep : ∀ s c t, P s → StepEff K n s c t → P t)
    (hs : P s) (h : run K n s acts = some t) : P t := by
  induction acts generalizing s with
  | nil =>
    cases h
    exact hs
  | cons ca acts ih =>
    obtain ⟨c, a⟩ := ca
    simp only [run] at h
    split at h
    · rename_i u hu
      exact ih (hstep s c u hs (step_eff hu)) h
    · cases h

theorem inv_of_run (h : Inv K s) (hrun : run K n s acts = some t) : Inv K t :=
  run_induction (fun _ _ _ => Inv.step) h hrun

end Xv6.Sched
