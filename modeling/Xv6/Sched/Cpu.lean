/-
  One CPU per process.

  `one_cpu_per_process` is what the invariant of the scheduler says where `p->lock` is free, with the
  transitions of `p->state`.  `critical_sections` is mutual exclusion: a spin lock is one CPU's, and none
  but its own `p->lock` is kept by a process that gives up the CPU.
-/
import Xv6.Sched.Move

namespace Xv6.Sched

variable {κ Lk Ch D X L : Type}
variable {n : Nat} {c : κ} {p : Nat} {a : Act Ch X L}
variable {m m' : Mem κ Lk Ch D L} {pc pc' : Pc Lk Ch L} {s t : Sys κ Lk Ch D L}

theorem Pc.mem_plocks_of_chan (h : pc.chan p ≠ none) : p ∈ pc.plocks p := by
  cases pc with
  | sleep pt w => cases pt <;> simp_all [Pc.plocks, Pc.chan]
  | _ => exact absurd rfl h

/-- What the scheduler keeps of process `p` while `p->lock` is free. -/
structure Sys.OneCpu (s : Sys κ Lk Ch D L) (p : Nat) : Prop where
  running : (s.mem.proc p).state = .running ↔
    ∃! c, (s.cpu c).proc = some p ∧ ∃ pc, (s.cpu c).code = .thread p pc
  saved : (s.mem.proc p).state = .runnable ∨ (s.mem.proc p).state = .sleeping ∨
      (s.mem.proc p).state = .zombie →
    (∃ pc, (s.mem.proc p).context = some pc ∧ pc.Saved (s.mem.proc p).state) ∧
      ∀ c, (s.cpu c).proc ≠ some p ∧ ∀ pc, (s.cpu c).code ≠ .thread p pc
  chan : (s.mem.proc p).chan ≠ none → (s.mem.proc p).state = .sleeping ∨
    ∃ w, (s.mem.proc p).context = some (.sleep .back w)

variable [DecidableEq Lk] {K : Client Lk Ch D X L}

/-- A process whose lock is free is executed only at points where it is running. -/
theorem Inv.running_of_thread (h : Inv K s) (hfree : (s.mem.proc p).lock = none)
    (hcode : (s.cpu c).code = .thread p pc) : (s.mem.proc p).state = .running := by
  by_contra hne
  have hlock := (h.not_running hcode).2.2 hne
  rw [hfree] at hlock
  cases hlock

theorem Inv.thread_of_proc (h : Inv K s) (hfree : (s.mem.proc p).lock = none)
    (hproc : (s.cpu c).proc = some p) : ∃ pc, (s.cpu c).code = .thread p pc := by
  rw [h.proc c] at hproc
  cases hcode : (s.cpu c).code with
  | scan i =>
    rw [hcode] at hproc
    cases hproc
  | back i =>
    rw [hcode] at hproc
    cases hproc
    -- what follows `swtch` in the scheduler still holds the lock
    have hlock : (s.mem.proc p).lock = some c := by
      apply (h.locks.plock p c).mpr
      rw [hcode]
      exact List.mem_singleton_self p
    rw [hfree] at hlock
    cases hlock
  | thread q pc =>
    rw [hcode] at hproc
    cases hproc
    exact ⟨pc, rfl⟩

theorem Inv.oneCpu (h : Inv K s) (hfree : (s.mem.proc p).lock = none) : s.OneCpu p := by
  refine ⟨⟨?_, ?_⟩, ?_, ?_⟩
  · intro hs
    obtain ⟨pc, ⟨c, hcode⟩ | hctx⟩ := h.exists_at (Or.inl hs)
    · refine ⟨c, ⟨?_, pc, hcode⟩, ?_⟩
      · rw [h.proc c, hcode]
        rfl
      · rintro d ⟨_, pc', hd⟩
        exact h.uniq d c p pc' pc hd hcode
    · have hsaved := h.saved p pc hctx
      rw [hs] at hsaved
      exact absurd hsaved Pc.not_saved_unused.2
  · rintro ⟨c, ⟨_, pc, hcode⟩, _⟩
    exact h.running_of_thread hfree hcode
  · intro hs
    have hoff : ∀ c pc, (s.cpu c).code ≠ .thread p pc := by
      intro c pc hcode
      rw [h.running_of_thread hfree hcode] at hs
      rcases hs with hx | hx | hx <;> cases hx
    refine ⟨?_, ?_⟩
    · obtain ⟨pc, ⟨c, hcode⟩ | hctx⟩ := h.exists_at (Or.inr hs)
      · exact absurd hcode (hoff c pc)
      · exact ⟨pc, hctx, h.saved p pc hctx⟩
    · intro c
      refine ⟨?_, hoff c⟩
      intro hproc
      obtain ⟨pc, hcode⟩ := h.thread_of_proc hfree hproc
      exact hoff c pc hcode
  · intro hchan
    by_cases hat : ∃ pc, s.At p pc
    · obtain ⟨pc, hat⟩ := hat
      rw [h.chan p pc hat] at hchan
      rcases hat with ⟨c, hcode⟩ | hctx
      · have hlock := h.plock_of hcode (Pc.mem_plocks_of_chan hchan)
        rw [hfree] at hlock
        cases hlock
      · obtain ⟨w, hw⟩ := (h.saved p pc hctx).sleep_back hchan
        exact Or.inr ⟨w, hw ▸ hctx⟩
    · exact absurd (h.idle p (not_exists.mp hat)).2 hchan

variable [DecidableEq κ]
variable [DecidableEq Ch]

/-- One CPU per process, after any run of any number of CPUs and processes: where `p->lock` is free,
    a process is RUNNING exactly when one CPU executes it, a process that has run is otherwise saved
    and on no CPU, and only a sleeping process or one that `sleep` has not resumed has a channel.
    Every step makes only the transitions of `p->state` that are listed in `Transition`. -/
theorem one_cpu_per_process (K : Client Lk Ch D X L) (n : Nat) (d : D)
    (acts : List (κ × Act Ch X L)) (s : Sys κ Lk Ch D L)
    (hrun : run K n (Sys.init d) acts = some s) :
    (∀ p, (s.mem.proc p).lock = none → s.OneCpu p) ∧
    ∀ c a t, step K n s c a = some t → ∀ p, (t.mem.proc p).state ≠ (s.mem.proc p).state →
      Transition (s.mem.proc p).state (t.mem.proc p).state := by
  have h := inv_of_run (Inv.init d) hrun
  refine ⟨fun p hfree => h.oneCpu hfree, ?_⟩
  intro c a t hstep p hne
  exact (step_eff hstep).transition h p hne

/-- A process has forked and both are RUNNABLE or RUNNING. -/
theorem one_cpu_per_process_fork :
    ∃ s, run Client.bare 2 (Sys.init ())
        (((0 : Fin 2), .run) :: (0, .run) :: (0, .fork) :: List.replicate 5 (0, .run)) = some s ∧
      (∀ p, (s.mem.proc p).lock = none → s.OneCpu p) ∧
      ∀ c a t, step Client.bare 2 s c a = some t →
        ∀ p, (t.mem.proc p).state ≠ (s.mem.proc p).state →
          Transition (s.mem.proc p).state (t.mem.proc p).state := by
  refine (Option.isSome_iff_exists.mp ?_).imp fun s hs => ⟨hs, one_cpu_per_process _ _ _ _ s hs⟩
  decide +kernel

/-- Critical sections, after any run of any number of CPUs and with any code outside `proc.c`: no two
    CPUs are between `acquire` and `release` of the same lock, and a process that is switched away
    from is inside no section but that of its own `p->lock`. -/
theorem critical_sections (K : Client Lk Ch D X L) (n : Nat) (d : D)
    (acts : List (κ × Act Ch X L)) (s : Sys κ Lk Ch D L)
    (hrun : run K n (Sys.init d) acts = some s) :
    (∀ c e, ∀ k ∈ (s.cpu c).code.locks K, k ∈ (s.cpu e).code.locks K → c = e) ∧
    (∀ c e, ∀ i ∈ (s.cpu c).code.plocks, i ∈ (s.cpu e).code.plocks → c = e) ∧
    ∀ p pc, (s.mem.proc p).context = some pc → pc.locks K = [] ∧ pc.plocks p = [p] := by
  have h := inv_of_run (Inv.init d) hrun
  refine ⟨?_, ?_, ?_⟩
  · intro c e k hc he
    exact Option.some.inj (((h.locks.lock k c).mpr hc).symm.trans ((h.locks.lock k e).mpr he))
  · intro c e i hc he
    exact Option.some.inj (((h.locks.plock i c).mpr hc).symm.trans ((h.locks.plock i e).mpr he))
  · intro p pc hx
    have hs := h.saved p pc hx
    have hwf := h.wf p pc (Or.inr hx)
    cases pc with
    | sleep pt | yield pt | exit pt => cases pt <;> simp_all [Pc.Saved, Pc.Wf, Pc.plocks, Pc.locks]
    | _ => simp_all [Pc.Saved, Pc.plocks, Pc.locks]

/-- Process 0 holds `wait_lock` in `kwait` on CPU 0 while CPU 1 looks for a process. -/
theorem critical_sections_wait :
    ∃ s, run Client.bare 2 (Sys.init ())
        [((0 : Fin 2), .run), (0, .run), (0, .wait 0), (0, .run), (1, .run)] = some s ∧
      (s.cpu 0).code.locks Client.bare = [.wait] ∧ .wait ∉ (s.cpu 1).code.locks Client.bare := by
  have hrun : (run Client.bare 2 (Sys.init ())
      [((0 : Fin 2), .run), (0, .run), (0, .wait 0), (0, .run), (1, .run)]).any (fun s =>
        decide ((s.cpu 0).code.locks Client.bare = [.wait])) = true := by decide +kernel
  obtain ⟨s, hs, hwait⟩ := (Option.any_eq_true _ _).mp hrun
  have hwait := of_decide_eq_true hwait
  refine ⟨s, hs, hwait, fun hmem => ?_⟩
  have hmine : .wait ∈ (s.cpu 0).code.locks Client.bare := by
    rw [hwait]
    exact List.mem_singleton_self _
  exact absurd ((critical_sections _ _ _ _ s hs).1 0 1 .wait hmine hmem) (by decide)

end Xv6.Sched
