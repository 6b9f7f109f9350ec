/-
  The buffers that a commit needs.

  A logged block keeps its buffer until `install_trans` unpins it.  While nobody else has a buffer, a
  commit so finds one if the log does not list as many blocks as there are buffers
  (`commit_finds_buffers`).  But `NBUF` is `LOGBLOCKS`, and three operations that log ten blocks each
  are admitted together: the commit of `fullRun` panics in its first `bread`.
-/
import Xv6.Log.Committer

namespace Xv6.Buffers

open Lib Finset Function
open Lib.Prog hiding update

variable {n : Nat} {α β : Type} {m : Panic} {io : Io} {acts : List (Act (Fin n) Call)} {c : System n}
  {i : Fin NBUF}

/-! ## All runs -/

/-- A buffer that a process holds between calls comes with a reference. -/
theorem Own.Idle.ref {r : Own} (h : r.Idle) (hi : i ∈ r.self.held) :
    ∃ b R, r.refs = (i, b) ::ₘ R := by
  have hmem : i ∈ r.refs.map Prod.fst := by
    rw [h.refs]
    exact hi
  obtain ⟨⟨j, b⟩, hjb, rfl⟩ := Multiset.mem_map.mp hmem
  obtain ⟨R, hR⟩ := Multiset.exists_cons_of_mem hjb
  exact ⟨b, R, hR⟩

theorem idle_some {first : Nat} {r : Own} (h : r.Idle) : (logic first n).Idle (some r) := by
  intro y hy
  cases hy
  exact h

theorem verifies (first : Nat) : (logic first n).Verifies (machine n) := by
  intro t c O s hinv hready hidle
  obtain ⟨r, hO, hloc⟩ := hinv.live t
  have hr : r.Idle := hidle r hO
  have hquiet : r.self.holds = false → r.all = 0 := (hinv.own t r hO).quiet hr.stage
  rw [hO]
  cases c with
  | beginOp =>
    have hop : r.self.op = none := by
      rw [← hloc]
      exact Option.isNone_iff_eq_none.mp hready
    refine Logic.wp_bind (wp_beginOp ?_ hr.stage (wp_note ?_ ?_))
    · rw [hr.op, hop]
      rfl
    · exact fun _ hh => hquiet hh
    · exact idle_some ⟨hr.stage, hr.busy, hr.wait, hr.refs, rfl⟩
  | bread b =>
    have hstart : s.io.log.start = first := hinv.log.start
    have hb : Home first b := hstart ▸ of_decide_eq_true hready
    refine Logic.wp_bind (wp_note nofun ?_)
    refine Logic.wp_bind (wp_bread hr.wait (fun _ => ⟨hb, rfl⟩) ?_ ?_)
    · intro O s hO hinv _ _ _
      refine Or.inl ⟨t, ?_⟩
      rw [hinv.loc hO]
      rfl
    · intro i
      refine wp_note nofun (idle_some ⟨hr.stage, rfl, rfl, ?_, hr.op⟩)
      rw [Multiset.map_cons, hr.refs]
      rfl
  | modify i f => exact wp_modifyData (idle_some hr)
  | logWrite i =>
    have hboth := (Bool.and_eq_true _ _).mp hready
    have hi : i ∈ r.self.held := hloc ▸ of_decide_eq_true hboth.1
    obtain ⟨b, R, hR⟩ := hr.ref hi
    obtain ⟨w, hw, _⟩ := (Option.any_eq_true _ _).mp hboth.2
    rw [hloc] at hw
    have hop : r.op = true := by
      rw [hr.op, hw]
      rfl
    have hmem : (i, b) ∈ r.refs := by
      rw [hR]
      exact Multiset.mem_cons_self _ R
    refine Logic.wp_bind (wp_see fun b' => ?_)
    refine Logic.wp_bind (wp_logWrite hop hmem (wp_note (fun _ => hquiet) ?_))
    refine idle_some ⟨hr.stage, hr.busy, hr.wait, hr.refs, ?_⟩
    rw [hop, hw]
    rfl
  | brelse i =>
    have hi : i ∈ r.self.held := hloc ▸ of_decide_eq_true hready
    obtain ⟨b, R, hR⟩ := hr.ref hi
    have hrest : R.map Prod.fst = r.self.held.erase i := by
      have hrefs := congrArg (fun m => Multiset.erase m i) hr.refs
      simp only [hR, Multiset.map_cons, Multiset.erase_cons_head] at hrefs
      rw [hrefs, Multiset.coe_erase]
    refine Logic.wp_bind (wp_note nofun ?_)
    rw [hR, hr.wait]
    refine Logic.wp_bind
      (wp_brelse (r := ⟨⟨r.self.op, r.self.held.erase i, true⟩, r.op, R, none, r.stage⟩) (fun _ => rfl) ?_)
    refine wp_note ?_ (idle_some ⟨hr.stage, rfl, rfl, hrest, hr.op⟩)
    intro _ hholds
    have hnil : r.self.held.erase i = [] := by
      simpa [Local.holds] using hholds
    rw [hnil] at hrest
    exact Multiset.map_eq_zero.mp hrest
  | endOp =>
    have hboth := (Bool.and_eq_true _ _).mp hready
    rw [hloc] at hboth
    have hholds : r.self.holds = false := by
      rw [Local.holds, hr.busy, hboth.2]
      rfl
    have hall := hquiet hholds
    have hrefs := hall
    rw [Own.all_of_wait hr.wait] at hrefs
    have hop : r.op = true := hr.op.trans hboth.1
    refine Logic.wp_bind (wp_endOp hop hr.stage hrefs hr.wait (wp_note (fun _ _ => hall) ?_))
    exact idle_some ⟨hr.stage, hr.busy, hr.wait, hr.refs, rfl⟩

theorem start_safe (hn : n ≤ NPROC) (h : Fresh io) :
    (logic io.log.start n).Safe (fun _ _ => (logic io.log.start n).Idle) (start io) := by
  let r : Own := ⟨⟨none, [], false⟩, false, 0, none, none⟩
  have hzero : ∀ f : Own → Nat, f r = 0 → total f (fun _ : Fin n => some r) = 0 :=
    fun f hf => sum_eq_zero fun _ _ => hf
  have hnone : ∀ x, x ∉ r.all := fun x => Multiset.notMem_zero x
  refine ⟨fun _ => some r, ⟨hn, ?_, ?_, ?_, ?_⟩, ?_⟩
  · exact fun t => ⟨r, rfl, rfl⟩
  · rintro t _ ⟨⟩
    exact ⟨fun i b hmem => absurd hmem (hnone _), fun _ i b hmem => absurd hmem (hnone _),
      fun _ _ => rfl, fun i b hmem => absurd hmem (hnone _), Multiset.nodup_zero⟩
  · show LogOk io.log.start _ io.log
    refine ⟨rfl, ?_, ?_, ?_, ?_, ?_, ?_⟩
    · rw [h.log]
      exact List.nodup_nil
    · rw [h.log]
      exact fun b hb => absurd hb List.not_mem_nil
    · rw [h.log, hzero Own.ops rfl]
      rfl
    · rw [h.log, hzero Own.commits rfl]
      rfl
    · rw [h.log]
      exact fun _ => rfl
    · rintro t _ bs k ⟨⟩ hk
      cases hk
  · have hpinned : pinned (fun _ : Fin n => some r) io.log = [] := by
      rw [h.log]
      exact List.drop_nil
    show CacheOk _ (pinned (fun _ : Fin n => some r) io.log) io
    rw [hpinned]
    refine ⟨h.uniq, ?_, fun b hb => absurd hb List.not_mem_nil⟩
    intro i
    rw [h.refcnt i, hzero (Own.uses i) rfl, Buf.pins_of_not_mem rfl List.not_mem_nil]
    rfl
  · intro t y hy
    cases hy
    exact ⟨rfl, rfl, rfl, rfl, rfl⟩

theorem safe_of_run (hn : n ≤ NPROC) (h : Fresh io)
    (hrun : (start io).run (machine n) acts = some c) :
    (logic io.log.start n).Safe (fun _ _ => (logic io.log.start n).Idle) c :=
  Logic.safe_of_run (verifies io.log.start) (start_safe hn h) hrun

theorem run_bind_panicked {P S : Type} {p : Prog P S α} {g : α → Prog P S β} {m : P} {s s' : S}
    (h : p.run s = .panicked m s') : (p >>= g).run s = .panicked m s' := by
  show (p.bind g).run s = _
  induction p generalizing s with
  | ret a => cases h
  | act f k ih =>
    simp only [Prog.run, Prog.bind] at h ⊢
    cases hf : f s with
    | ok b t =>
      rw [hf] at h
      exact ih b h
    | panic m' =>
      rw [hf] at h
      cases h
      rfl
    | block =>
      rw [hf] at h
      cases h

theorem lift_run_panicked {p : IoM α} {s : Sys n} (h : p.run s.io = .panicked m io) :
    (lift p : SysM n α).run s = .panicked (m, { s with io := io }) { s with io := io } := by
  induction p generalizing s with
  | ret a => cases h
  | act f k ih =>
    simp only [Prog.run, lift] at h ⊢
    cases hf : f s.io with
    | ok b t =>
      rw [hf] at h
      exact ih b h
    | panic m' =>
      rw [hf] at h
      cases h
      rfl
    | block =>
      rw [hf] at h
      cases h

/-- No buffer is found, whatever happens. -/
def starving : Crit Panic Io := ⟨fun _ => True, fun m => m = .bgetNoBuffers, False⟩

/-- With as many listed blocks as buffers, the first `bread` of a commit finds none. -/
theorem CacheOk.commit_starves {u : Fin NBUF → Nat} {s : Io} (h : CacheOk u s.log.block s)
    (hnodup : s.log.block.Nodup) (hlisted : ∀ b ∈ s.log.block, Home s.log.start b)
    (hfull : NBUF ≤ s.log.block.length) (me : Nat) :
    wp starving (fun _ _ => False) (commit me) s := by
  have hpos : 0 < s.log.block.length := Nat.lt_of_lt_of_le (by decide) hfull
  obtain ⟨k, hk⟩ : ∃ k, s.log.block.length = k + 1 := Nat.exists_eq_succ_of_ne_zero hpos.ne'
  have hlog : s.log.start + 0 + 1 ∉ s.log.block := by
    intro hmem
    have := (hlisted _ hmem).ne_log (k := 0) (by decide)
    exact this rfl
  unfold commit
  rw [wp_bind, Prog.wp_look]
  refine ⟨trivial, ?_⟩
  rw [if_pos hpos]
  unfold writeLog
  rw [wp_bind, wp_bind, Prog.wp_look]
  refine ⟨trivial, ?_⟩
  rw [hk]
  unfold upto
  rw [List.range_succ_eq_map]
  simp only [each]
  rw [wp_bind', wp_bind]
  unfold bread bget
  rw [wp_bind, wp_bind, Prog.wp_atomic, h.scan_panics hnodup hfull hlog]
  rfl

theorem commit_panics {first : Nat} {O : Fin n → Option Own} {s : Sys n} (h : Inv first O s) {t : Fin n}
    {r : Own} (hO : O t = some r) (hop : r.op = true) (hlast : s.io.log.outstanding = 1)
    (hfull : NBUF ≤ s.io.log.block.length) :
    ∃ s', (code t .endOp).run s = .panicked (.bgetNoBuffers, s') s' := by
  obtain ⟨hcommitting, _, hunpinned⟩ := h.log.no_commit hO hop
  have hcache := h.cache
  rw [pinned, hunpinned] at hcache
  have hwp : wp starving (fun _ _ => False) (endOp t) s.io := by
    have hend : s.io.log.endOp = .ok ({ s.io.log with outstanding := 0, committing := true }, true) := by
      simp [Log.endOp, hlast, hcommitting]
    unfold endOp
    rw [wp_bind, Prog.wp_atomic, hend]
    refine ⟨trivial, ?_⟩
    rw [if_pos rfl, wp_bind]
    have hstarves := CacheOk.commit_starves
      (s := { s.io with log := { s.io.log with outstanding := 0, committing := true } })
      ⟨hcache.uniq, hcache.refcnt, hcache.pinned⟩ h.log.nodup
      (fun b hb => h.log.start.symm ▸ h.log.listed b hb) hfull t
    exact wp_mono hstarves fun _ _ hfalse => hfalse.elim
  have hrun := wp_run hwp
  cases hres : (endOp t).run s.io with
  | done | blocked =>
    rw [hres] at hrun
    exact hrun.elim
  | panicked m io =>
    rw [hres] at hrun
    obtain rfl : m = .bgetNoBuffers := hrun
    exact ⟨_, run_bind_panicked (lift_run_panicked hres)⟩

/-- A panic carries the state in which it happens. -/
def Honest : SysM n α → Prop
  | .ret _ => True
  | .act f k => (∀ s m s', f s = .panic (m, s') → s' = s) ∧ ∀ b, Honest (k b)

theorem Honest.bind {p : SysM n α} {g : α → SysM n β} (hp : Honest p) (hg : ∀ a, Honest (g a)) :
    Honest (p >>= g) := by
  induction p with
  | ret a => exact hg a
  | act f k ih => exact ⟨hp.1, fun b => ih b (hp.2 b)⟩

theorem honest_lift (p : IoM α) : Honest (lift p : SysM n α) := by
  induction p with
  | ret a => trivial
  | act f k ih =>
    refine ⟨?_, ih⟩
    intro s m s' hf
    dsimp only at hf
    split at hf <;> cases hf
    rfl

theorem honest_note (t : Fin n) (g : Local → Local) : Honest (note t g) :=
  ⟨fun _ _ _ => nofun, fun _ => trivial⟩

theorem honest_code (t : Fin n) (x : Call) : Honest (code t x) := by
  cases x with
  | beginOp | endOp => exact (honest_lift _).bind fun _ => honest_note t _
  | bread | brelse =>
    exact (honest_note t _).bind fun _ => (honest_lift _).bind fun _ => honest_note t _
  | modify i f => exact honest_lift _
  | logWrite i =>
    have hlook : Honest (look fun s : Sys n => (s.io.buf i).blockno) :=
      ⟨fun _ _ _ => nofun, fun _ => trivial⟩
    exact hlook.bind fun _ => (honest_lift _).bind fun _ => honest_note t _

theorem honest_step {c' : System n} {a : Act (Fin n) Call} (h : ∀ t, Honest (c.todo t))
    (hstep : c.step (machine n) a = some c') (t : Fin n) : Honest (c'.todo t) := by
  cases a with
  | call u x =>
    simp only [Conf.step] at hstep
    split at hstep
    · obtain ⟨_, ⟨⟩⟩ := Option.ite_none_right_eq_some.mp hstep
      exact (forall_update_iff _ fun _ => Honest).mpr ⟨honest_code u x, fun t _ => h t⟩ t
    · cases hstep
  | step u =>
    simp only [Conf.step] at hstep
    have hu := h u
    split at hstep
    · cases hstep
    · rename_i f k hf
      rw [hf] at hu
      split at hstep
      · cases hstep
        exact (forall_update_iff _ fun _ => Honest).mpr ⟨hu.2 _, fun t _ => h t⟩ t
      · cases hstep
      · cases hstep

theorem honest_run {c' : System n} (h : ∀ t, Honest (c.todo t))
    (hrun : c.run (machine n) acts = some c') (t : Fin n) : Honest (c'.todo t) := by
  induction acts generalizing c with
  | nil =>
    cases hrun
    exact h t
  | cons a acts ih =>
    simp only [Conf.run] at hrun
    split at hrun
    · rename_i d hstep
      exact ih (honest_step h hstep) hrun
    · cases hrun

theorem Honest.panics {t : Fin n} {s : Sys n} (h : Honest (c.todo t))
    (hp : c.panics t = some (m, s)) : s = c.shared := by
  unfold Conf.panics at hp
  split at hp
  · cases hp
  · rename_i f k hf
    rw [hf] at h
    split at hp
    · cases hp
    · rename_i x hx
      cases hp
      exact h.1 _ _ _ hx
    · cases hp

/-- While no process has a buffer, every `bread` of a commit finds one if the log lists fewer blocks
    than there are buffers; and the commit of as many blocks as there are buffers panics. -/
theorem commit_finds_buffers (hn : n ≤ NPROC) {io : Io} (h : Fresh io)
    {acts : List (Act (Fin n) Call)} {c : System n} (hrun : (start io).run (machine n) acts = some c) (t : Fin n) :
    (c.shared.Free → c.shared.io.log.block.length < NBUF →
        ∀ s, c.panics t ≠ some (.bgetNoBuffers, s)) ∧
      (c.todo t = .ret () → ready t .endOp c.shared = true → c.shared.io.log.outstanding = 1 →
        NBUF ≤ c.shared.io.log.block.length →
        ∃ s, (code t .endOp).run c.shared = .panicked (.bgetNoBuffers, s) s) := by
  have hsafe := safe_of_run hn h hrun
  refine ⟨?_, ?_⟩
  · intro hfree hlen s hs
    obtain rfl := (honest_run (c := start io) (fun _ => trivial) hrun t).panics hs
    rcases hsafe.panics hs rfl with ⟨u, hu⟩ | hle
    · rw [hfree u] at hu
      cases hu
    · exact absurd hlen (Nat.not_lt.mpr hle)
  · intro htodo hready hlast hfull
    obtain ⟨O, hinv, hwp⟩ := hsafe
    obtain ⟨r, hO, hloc⟩ := hinv.live t
    have ht := hwp t
    rw [htodo, hO] at ht
    have hop : r.op = true := by
      rw [(ht r rfl).op, ← hloc]
      exact ((Bool.and_eq_true _ _).mp hready).1
    exact commit_panics hinv hO hop hlast hfull

/-! ## A full log -/

def steps (t : Fin n) (k : Nat) : List (Act (Fin n) Call) := List.replicate k (.step t)

/-- A process logs block `b`, which comes to buffer `i`. -/
def logOne (t : Fin n) (b : Nat) (i : Fin NBUF) : List (Act (Fin n) Call) :=
  .call t (.bread b) :: steps t 5 ++ .call t (.logWrite i) :: steps t 3 ++ .call t (.brelse i) :: steps t 5

/-- Three processes log ten blocks each and end their operations. -/
def fullRun : List (Act (Fin 3) Call) :=
  [0, 1, 2].flatMap (fun t => .call t .beginOp :: steps t 2) ++
    (List.range 30).flatMap (fun b => logOne (Fin.ofNat 3 b) (100 + b) (Fin.ofNat 30 b)) ++
    .call 1 .endOp :: steps 1 2 ++ .call 2 .endOp :: steps 2 2 ++ .call 0 .endOp :: steps 0 3

def booted : Io := Io.boot 2 fun _ => Bytes.zero

theorem fresh_booted : Fresh booted := by
  refine ⟨?_, fun _ => rfl, rfl⟩
  rintro i j b ⟨hdev, _⟩ _
  cases hdev

/-- No process has a buffer, and the commit of thirty blocks finds none. -/
theorem commit_starves_full : ∃ c, (start booted).run (machine 3) fullRun = some c ∧ c.shared.Free ∧
    (c.panics 0).map Prod.fst = some .bgetNoBuffers := by
  have hrun : ((start booted).run (machine 3) fullRun).any (fun c =>
      decide c.shared.Free &&
        decide ((c.panics 0).map Prod.fst = some .bgetNoBuffers)) = true := by
    decide +kernel
  obtain ⟨c, hc, hboth⟩ := (Option.any_eq_true _ _).mp hrun
  obtain ⟨hfree, hpanics⟩ := (Bool.and_eq_true _ _).mp hboth
  exact ⟨c, hc, of_decide_eq_true hfree, of_decide_eq_true hpanics⟩

/-- One process logs one block and commits, up to the first `bread`. -/
def shortRun : List (Act (Fin 1) Call) :=
  .call 0 .beginOp :: steps 0 2 ++ logOne 0 100 0 ++ .call 0 .endOp :: steps 0 3

theorem commit_finds_buffers_short : ∃ c, (start booted).run (machine 1) shortRun = some c ∧
    c.shared.Free ∧ c.shared.io.log.block = [100] ∧ ∀ s, c.panics 0 ≠ some (.bgetNoBuffers, s) := by
  have hrun : ((start booted).run (machine 1) shortRun).any (fun c =>
      decide c.shared.Free && decide (c.shared.io.log.block = [100])) = true := by
    decide +kernel
  obtain ⟨c, hc, hboth⟩ := (Option.any_eq_true _ _).mp hrun
  obtain ⟨hfree, hblock⟩ := (Bool.and_eq_true _ _).mp hboth
  have hfree : c.shared.Free := of_decide_eq_true hfree
  have hblock : c.shared.io.log.block = [100] := of_decide_eq_true hblock
  refine ⟨c, hc, hfree, hblock, (commit_finds_buffers (by decide) fresh_booted hc 0).1 hfree ?_⟩
  rw [hblock]
  decide

end Xv6.Buffers
