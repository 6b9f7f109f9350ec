/-
  Where a step takes the processes.

  `StepEff.move` says how a process has come to the point at which it is after a step, and
  `StepEff.state_cases` how it has come to its state.
-/
import Xv6.Sched.Inv

namespace Xv6.Sched

open Function

variable {κ Lk Ch D X L : Type}
variable {n : Nat} {c : κ} {p : Nat} {a : Act Ch X L}
variable {m m' : Mem κ Lk Ch D L} {pc pc' : Pc Lk Ch L} {s t : Sys κ Lk Ch D L}

/-! ## Where a process is after a step -/

/-- Process `p` has gone from one point to another. A child that `kfork` sets up may have got its
    context. -/
structure Sys.Moved (s t : Sys κ Lk Ch D L) (p : Nat) (pc pc' : Pc Lk Ch L) : Prop where
  before : s.At p pc
  self : ∀ x, t.At p x → x = pc'
  other : ∀ q x, q ≠ p → t.At q x → s.At q x ∨ x = .forkret ∧ (s.mem.proc q).state = .used

variable {x : Pc Lk Ch L} {q : Nat}

variable [DecidableEq Lk] {K : Client Lk Ch D X L}

theorem Inv.at_unique (h : Inv K s) {y : Pc Lk Ch L} (hx : s.At p x) (hy : s.At p y) : x = y := by
  have h1 := h.uniq
  have h2 := h.run
  rw [Sys.at_iff] at hx hy
  grind

variable [DecidableEq κ]

theorem Inv.moved (h : Inv K s) (hcode : (s.cpu c).code = .thread p pc)
    (heff : StateEff c p s.mem m' pc pc') : s.Moved (s.go c p pc' m') p pc pc' := by
  have hP : s.At p pc := Or.inl ⟨c, hcode⟩
  have hrun := (h.run c p pc hcode).2
  refine ⟨hP, ?_, ?_⟩ <;> cases heff with
  | quiet hsame hpc =>
    simp only [h.at_go hcode pc' p (fun _ _ _ => rfl) (fun q _ => (hsame q).2.1)
      ((hsame p).2.1.trans hrun)]
    grind
  | own hsame hx =>
    simp only [h.at_go hcode pc' p (fun _ _ _ => rfl) (fun q hq => (hsame q hq).2.1) (hx.trans hrun)]
    grind
  | other q hsame hq =>
    have hnr := hq.not_running h hcode
    have hpq : p ≠ q := fun hpq => hnr c pc (hpq ▸ hcode)
    have hchild := h.child p pc q hP
    simp only [h.at_go hcode pc' q (fun d x hd => absurd hd (hnr d x)) (fun r hr => (hsame r hr).2.1)
      ((hsame p hpq).2.1.trans hrun)]
    cases hq <;> grind [Sys.At, Pc.child]

/-- How process `q` has come to be at a point: it was there, or `kfork` has set its context up, or it
    has moved. -/
inductive MoveEff [DecidableEq Ch] (K : Client Lk Ch D X L) (n : Nat) (s : Sys κ Lk Ch D L) (c : κ)
    (t : Sys κ Lk Ch D L) (q : Nat) (x : Pc Lk Ch L) : Prop
  | stay (hat : s.At q x)
  | fresh (hx : x = .forkret) (hs : (s.mem.proc q).state = .used)
  | swtch (pc : Pc Lk Ch L) (hcode : (s.cpu c).code = .thread q pc) (heff : SwtchEff pc x)
      (ht : t = s.swtch c q x s.mem)
  | timer (pc : Pc Lk Ch L) (hcode : (s.cpu c).code = .thread q pc) (hnoff : s.mem.noff c = 0)
      (hx : x = .yield .set pc) (ht : t = s.go c q x (s.mem.lockProc c q))
  | go (pc : Pc Lk Ch L) (a : Act Ch X L) (m : Mem κ Lk Ch D L)
      (hcode : (s.cpu c).code = .thread q pc)
      (hstep : threadStep K n c q a s.mem pc = some (m, .go x)) (ht : t = s.go c q x m)

omit [DecidableEq Lk] in
/-- A step that neither moves a thread nor saves a context. -/
theorem Sys.at_of_update {i : Nat} {y : Proc κ Lk Ch L} {z : Cpu Lk Ch L}
    (hz : ∀ q pc, z.code ≠ .thread q pc) (hcpu : t.cpu = update s.cpu c z)
    (hproc : ∀ r, t.mem.proc r = if r = i then y else s.mem.proc r)
    (hy : y.context = (s.mem.proc i).context) (hx : t.At q x) : s.At q x := by
  simp only [Sys.at_iff, hcpu] at hx ⊢
  grind

omit [DecidableEq Lk] in
theorem Sys.at_of_pick {i : Nat} (hctx : (s.mem.proc i).context = some pc) (hx : Sys.At
      { mem := (s.mem.setProc i
          { s.mem.proc i with state := .running, context := none }).lockProc c i
        cpu := update s.cpu c { proc := some i, context := i, code := .thread i pc } } q x)
    :
    s.At q x := by
  have hproc := (Mem.proc_setProc_lockProc s.mem c i ·
    { s.mem.proc i with state := .running, context := none })
  simp only [Sys.at_iff] at hx ⊢
  grind

theorem Inv.at_of_swtch (h : Inv K s) (hcode : (s.cpu c).code = .thread p pc) {saved : Pc Lk Ch L}
    (hx : (s.swtch c p saved s.mem).At q x) : if q = p then x = saved else s.At q x := by
  have hproc : ∀ r, (s.swtch c p saved s.mem).mem.proc r = _ := (Mem.proc_setProc s.mem p · _)
  have hcpu : ∀ d, (s.swtch c p saved s.mem).cpu d = _ := (update_apply s.cpu c _ ·)
  have huniq := h.uniq
  simp only [Sys.at_iff] at hx ⊢
  grind

theorem Inv.at_timer (h : Inv K s) (hcode : (s.cpu c).code = .thread p pc) (q : Nat)
    (x : Pc Lk Ch L) :
    (s.go c p (.yield .set pc) (s.mem.lockProc c p)).At q x ↔
      if q = p then x = .yield .set pc else s.At q x := by
  have hsame : ∀ q, s.mem.Same (s.mem.lockProc c p) q :=
    Mem.Same.of_update (Mem.proc_lockProc s.mem c p) rfl rfl rfl
  rw [h.at_go hcode (.yield .set pc) p (fun _ _ _ => rfl) (fun q _ => (hsame q).2.1)
    ((hsame p).2.1.trans (h.run c p pc hcode).2)]
  split <;> rfl

variable [DecidableEq Ch]

omit [DecidableEq κ] [DecidableEq Lk] in
theorem Sys.at_of_wake {ch : Chan Ch} {r : Nat}
    (hx : Sys.At { s with mem := s.mem.wake ch r } q x) : s.At q x := by
  simp only [Sys.at_iff, s.mem.proc_wake] at hx ⊢
  grind

theorem StepEff.move (h : Inv K s) (heff : StepEff K n s c t) (hx : t.At q x) :
    MoveEff K n s c t q x := by
  cases heff with
  | scan i j hcode =>
    exact .stay (Sys.at_of_update (y := s.mem.proc 0) (by simp) rfl (fun r => by grind) rfl
      hx)
  | pick i pc hcode hi hfree hs hctx => exact .stay (Sys.at_of_pick hctx hx)
  | back i hcode hlock =>
    refine .stay (Sys.at_of_update (by simp) rfl (Mem.proc_unlockProc s.mem c i) ?_ hx)
    rfl
  | go p pc pc' a m hcode hstep =>
    have hmv := h.moved hcode (h.stateEff hcode hstep)
    by_cases hq : q = p
    · subst hq
      have hpc := hmv.self x hx
      subst hpc
      exact .go pc a m hcode hstep rfl
    · rcases hmv.other q x hq hx with hat | ⟨hx, hs⟩
      · exact .stay hat
      · exact .fresh hx hs
  | swtch p pc saved hcode hnoff heff =>
    have hat := h.at_of_swtch hcode hx
    by_cases hq : q = p
    · subst hq
      rw [if_pos rfl] at hat
      subst hat
      exact .swtch pc hcode heff rfl
    · rw [if_neg hq] at hat
      exact .stay hat
  | timer p pc hcode hnoff hfree =>
    rw [h.at_timer hcode] at hx
    by_cases hq : q = p
    · subst hq
      rw [if_pos rfl] at hx
      subst hx
      exact .timer pc hcode hnoff rfl rfl
    · rw [if_neg hq] at hx
      exact .stay hx
  | device x hfree => exact .stay hx
  | wake ch r hfree => exact .stay (Sys.at_of_wake hx)

/-! ## What a step does to a state -/

omit [DecidableEq κ] [DecidableEq Lk] in
theorem Mem.state_wake (m : Mem κ Lk Ch D L) (ch : Chan Ch) (q r : Nat) :
    ((m.wake ch q).proc r).state = (m.proc r).state ∨
      (m.proc r).state = .sleeping ∧ ((m.wake ch q).proc r).state = .runnable := by
  rw [m.proc_wake]
  by_cases hr : r = q
  · subst hr
    rw [if_pos rfl]
    by_cases hs : (m.proc r).state = .sleeping ∧ (m.proc r).chan = some ch
    · rw [if_pos hs]
      exact Or.inr ⟨hs.1, rfl⟩
    · rw [if_neg hs]
      exact Or.inl rfl
  · rw [if_neg hr]
    exact Or.inl rfl

/-- The scheduler makes a process running, a wakeup makes one runnable; otherwise it is a thread
    that changes states. -/
theorem StepEff.state_cases (heff : StepEff K n s c t) (q : Nat) :
    (t.mem.proc q).state = (s.mem.proc q).state ∨
    (s.mem.proc q).state = .runnable ∧ (t.mem.proc q).state = .running ∨
    (s.mem.proc q).state = .sleeping ∧ (t.mem.proc q).state = .runnable ∨
    ∃ p pc pc' a m, (s.cpu c).code = .thread p pc ∧
      threadStep K n c p a s.mem pc = some (m, .go pc') ∧ t = s.go c p pc' m := by
  cases heff with
  | scan | device => exact Or.inl rfl
  | pick i pc hcode hi hfree hs hx =>
    have hproc := Mem.proc_setProc_lockProc s.mem c i q
      { s.mem.proc i with state := .running, context := none }
    by_cases hq : q = i
    · rw [if_pos hq] at hproc
      refine Or.inr (Or.inl ⟨hq ▸ hs, ?_⟩)
      rw [hproc]
    · rw [if_neg hq] at hproc
      exact Or.inl (congrArg Proc.state hproc)
  | back i hcode hlock =>
    exact Or.inl (Mem.Same.of_update (Mem.proc_unlockProc s.mem c i) rfl rfl rfl q).1
  | go p pc pc' a m hcode hstep =>
    exact Or.inr (Or.inr (Or.inr ⟨p, pc, pc', a, m, hcode, hstep, rfl⟩))
  | swtch p pc saved hcode hnoff heff =>
    refine Or.inl (?_ : ((s.mem.setProc p _).proc q).state = _)
    rw [Mem.proc_setProc]
    split
    · rename_i hq
      rw [hq]
    · rfl
  | timer p pc hcode hnoff hfree =>
    exact Or.inl (Mem.Same.of_update (Mem.proc_lockProc s.mem c p) rfl rfl rfl q).1
  | wake ch r hfree =>
    rcases s.mem.state_wake (.client ch) r q with hs | hs
    · exact Or.inl hs
    · exact Or.inr (Or.inr (Or.inl hs))

theorem StepEff.transition (h : Inv K s) (heff : StepEff K n s c t) (q : Nat)
    (hne : (t.mem.proc q).state ≠ (s.mem.proc q).state) :
    Transition (s.mem.proc q).state (t.mem.proc q).state := by
  rcases heff.state_cases q with hs | ⟨hs, ht⟩ | ⟨hs, ht⟩ | ⟨p, pc, pc', a, m, hcode, hstep, rfl⟩
  · exact absurd hs hne
  · rw [hs, ht]
    exact .pick
  · rw [hs, ht]
    exact .wake
  · exact (h.stateEff hcode hstep).transition (h.run c p pc hcode).1
      (fun r => h.child p pc r (Or.inl ⟨c, hcode⟩)) q hne

/-- The steps of `sleep` follow each other. -/
theorem threadStep_sleep {pt : SleepPt} {w : Wait Lk Ch L} (hwf : pc.Wf K p)
    (h : threadStep K n c p a m pc = some (m', .go (.sleep pt w))) :
    pt = .acquire ∨ pt = .reacquire ∨ pt = .release ∧ pc = .sleep .acquire w ∨
      pt = .set ∧ pc = .sleep .release w ∨ pt = .sched ∧ pc = .sleep .set w := by
  generalize hpc : Pc.sleep pt w = pc' at h
  cases threadStep_eff h with
  | user heff | kill _ _ heff | fork _ heff | exit _ heff => cases heff <;> cases hpc
  | client _ heff | wait _ heff =>
    cases heff <;> cases hpc
    exact Or.inl rfl
  | forkret hlock => cases hpc
  | sleep pt' w' heff =>
    cases heff with
    | reacquire hfree => cases w' <;> cases hpc
    | _ =>
      cases hpc
      simp
  | wakeup ch i k heff => cases heff <;> cases k <;> cases hpc
  | yield pt' k heff =>
    cases heff with
    | set => cases hpc
    | back hlock =>
      -- an interrupt finds no lock held
      have hp : (Pc.sleep pt w).plocks p = [] := hpc ▸ hwf.2.1
      cases pt <;> simp_all [Pc.plocks]

omit [DecidableEq Lk] [DecidableEq Ch] in
theorem Pc.eq_sched (h : pc.state = .sleeping) : ∃ w, pc = .sleep .sched w := by
  cases pc with
  | sleep pt w => cases pt <;> first | exact ⟨w, rfl⟩ | cases h
  | yield pt | exit pt => cases pt <;> cases h
  | _ => cases h

/-- A process falls asleep by its own step. -/
theorem StepEff.sleeping (h : Inv K s) (heff : StepEff K n s c t)
    (hs : (t.mem.proc q).state = .sleeping) :
    (s.mem.proc q).state = .sleeping ∨ ∃ w, (s.cpu c).code = .thread q (.sleep .set w) := by
  rcases heff.state_cases q with hst | ⟨_, ht⟩ | ⟨_, ht⟩ | ⟨p, pc, pc', a, m, hcode, hstep, rfl⟩
  · exact Or.inl (hst ▸ hs)
  · rw [hs] at ht
    cases ht
  · rw [hs] at ht
    cases ht
  · cases h.stateEff hcode hstep with
    | quiet hsame => exact Or.inl ((hsame q).1 ▸ hs)
    | own hsame hx hs' =>
      by_cases hq : q = p
      · subst hq
        obtain ⟨w, rfl⟩ := Pc.eq_sched (hs'.symm.trans hs)
        rcases threadStep_sleep (h.wf q pc (Or.inl ⟨c, hcode⟩)) hstep with hpt | hpt | ⟨hpt, _⟩ | ⟨hpt, _⟩ | ⟨_, hpc⟩
        · cases hpt
        · cases hpt
        · cases hpt
        · cases hpt
        · exact Or.inr ⟨w, hpc ▸ hcode⟩
      · exact Or.inl ((hsame q hq).1 ▸ hs)
    | other r hsame hr =>
      by_cases hq : q = r
      · cases hr <;> simp_all
      · exact Or.inl ((hsame q hq).1 ▸ hs)

/-! ## Sleeping processes -/

omit [DecidableEq κ] [DecidableEq Ch] in
/-- A process that has run and is not running has been saved by `swtch`. -/
theorem Inv.exists_at (h : Inv K s)
    (hstate : (s.mem.proc p).state = .running ∨ (s.mem.proc p).state = .runnable ∨
      (s.mem.proc p).state = .sleeping ∨ (s.mem.proc p).state = .zombie) :
    ∃ pc, s.At p pc := by
  by_contra hno
  rcases (h.idle p (not_exists.mp hno)).1 with hs | hs <;> rw [hs] at hstate <;>
    rcases hstate with hx | hx | hx | hx <;> cases hx

omit [DecidableEq Lk] [DecidableEq Ch] in
theorem Pc.Saved.sleep_back {x : ProcState} (h : pc.Saved x) (hchan : pc.chan p ≠ none) :
    ∃ w, pc = .sleep .back w := by
  cases pc with
  | sleep pt w =>
    cases pt with
    | back => exact ⟨w, rfl⟩
    | sched => cases h
    | _ => exact absurd rfl hchan
  | _ => exact absurd rfl hchan

end Xv6.Sched
