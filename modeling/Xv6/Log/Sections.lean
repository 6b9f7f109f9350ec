/-
  `bread` and `brelse`, and the sections of the log under its lock, by what they do to the invariant.
-/
import Xv6.Log.Owned

namespace Xv6.Buffers

open Lib Function
open Lib.Prog hiding update

variable {n : Nat} {first : Nat} {t : Fin n} {r r' : Own} {O : Fin n → Option Own} {s : Sys n}
  {i : Fin NBUF}

/-! ## `bread` and `brelse` -/

variable {b : Nat}

/-- The counts after one process has got a reference to buffer `i`. -/
theorem uses_add (hO : O t = some r) (hall : r'.all = (i, b) ::ₘ r.all) :
    (fun j => total (Own.uses j) (update O t (some r'))) = add (fun j => total (Own.uses j) O) i := by
  funext j
  have hsum := total_update r' (Own.uses j) hO
  have huses : r'.uses j = r.uses j + if j = i then 1 else 0 := by
    simp only [Own.uses, hall, Multiset.map_cons, Multiset.count_cons]
  rw [huses] at hsum
  unfold add
  by_cases hj : j = i
  · rw [if_pos hj] at hsum
    rw [hj] at hsum ⊢
    rw [update_self]
    show _ = total (Own.uses i) O + 1
    omega
  · rw [if_neg hj] at hsum
    rw [update_of_ne hj]
    omega

/-- `bget` under `bcache.lock`. -/
theorem wp_bgetScan {Q : Fin NBUF → Option Own → Prop} (hwait : r.wait = none)
    (hhome : r.stage = none → Home first b ∧ r.self.holds = true)
    (hpanic : ∀ O s, O t = some r → Inv first O s → (∀ j, ¬ (s.io.buf j).Is ROOTDEV b) →
      (∀ j, (s.io.buf j).refcnt ≠ 0) → Tolerated (.bgetNoBuffers, s))
    (hQ : ∀ i, Q i (some { r with wait := some (i, b) })) :
    (logic first n).wp t Q (lift (atomic (bgetScan ROOTDEV b))) (some r) := by
  refine wp_lift ?_
  intro O s hO hinv
  cases hscan : bgetScan ROOTDEV b s.io with
  | ok i io =>
    have hdone := hinv.cache.scan hinv.uses_le hscan
    have hkeep : ∀ u y, O u = some y → y.Ok first io u := by
      intro u y hy
      refine (hinv.own u y hy).keep ?_ fun j _ _ => hdone.lock j
      intro j c hmem
      refine hdone.keep j c ?_ ((hinv.own u y hy).is j c hmem)
      have hle := le_total (Own.uses j) hy
      have hpos : 0 < y.uses j :=
        Multiset.count_pos.mpr (Multiset.mem_map.mpr ⟨(j, c), hmem, rfl⟩)
      omega
    have hown := hkeep t r hO
    have hall : Own.all { r with wait := some (i, b) } = (i, b) ::ₘ r.all := by
      rw [Own.all_of_wait hwait]
      rfl
    refine ⟨{ r with wait := some (i, b) }, ?_, hQ i⟩
    refine hinv.set ((hinv.loc hO).trans rfl) (fun _ _ => rfl) (fun u y _ hy => hkeep u y hy)
      ⟨?_, ?_, ?_, hown.lock, hown.once⟩ ?_ ?_
    · intro j c hmem
      rw [hall] at hmem
      rcases Multiset.mem_cons.mp hmem with heq | hmem
      · cases heq
        exact hdone.is
      · exact hown.is j c hmem
    · intro hstage j c hmem
      rw [hall] at hmem
      rcases Multiset.mem_cons.mp hmem with heq | hmem
      · cases heq
        exact (hhome hstage).1
      · exact hown.home hstage j c hmem
    · intro hstage hholds
      rw [(hhome hstage).2] at hholds
      cases hholds
    · rw [hdone.log]
      exact hinv.log.same hO rfl rfl
    · rw [hdone.log, pinned_same { r with wait := some (i, b) } hO rfl, uses_add hO hall]
      exact hdone.ok
  | panic m =>
    obtain ⟨rfl, hnone, hall⟩ := bgetScan_panic hscan
    exact hpanic O s hO hinv hnone hall
  | block => trivial

/-- The lock of buffer `i`, which no other process holds, changes with what the process owns. -/
theorem Inv.setLock (h : Inv first O s) (hO : O t = some r) {l : Option Nat} (hself : r'.self = r.self)
    (hop : r'.op = r.op) (hstage : r'.stage = r.stage) (hall : r'.all = r.all)
    (hi : ∀ u : Fin n, (s.io.buf i).lock = some u.val → u = t)
    (hrefs : ∀ j c, (j, c) ∈ r'.refs → if j = i then l = some t.val else (j, c) ∈ r.refs)
    (honce : (r'.refs.map Prod.fst).Nodup) :
    Inv first (update O t (some r'))
      { s with io := s.io.setBuf i { s.io.buf i with lock := l } } := by
  have hown := h.own t r hO
  have hsame : Same s.io (s.io.setBuf i { s.io.buf i with lock := l }) := Same.setBuf rfl rfl rfl
  refine h.set ((h.loc hO).trans hself.symm) (fun _ _ => rfl) ?_ ⟨?_, ?_, ?_, ?_, honce⟩
    (h.log.same hO hop hstage) ?_
  · intro u y hu hy
    have hy := h.own u y hy
    refine hy.keep (fun j c hmem => (hsame.is j c).mpr (hy.is j c hmem)) ?_
    intro j c hmem
    rw [Io.setBuf_buf, if_neg]
    rintro rfl
    exact hu (hi u (hy.lock j c hmem))
  · intro j c hmem
    rw [hall] at hmem
    exact (hsame.is j c).mpr (hown.is j c hmem)
  · rw [hstage, hall]
    exact hown.home
  · rw [hstage, hself, hall]
    exact hown.quiet
  · intro j c hmem
    have hj := hrefs j c hmem
    rw [Io.setBuf_buf]
    split
    · rename_i hji
      rwa [if_pos hji] at hj
    · rename_i hji
      rw [if_neg hji] at hj
      exact hown.lock j c hj
  · rw [uses_same r' hO hall, pinned_same r' hO hstage]
    exact h.cache.same hsame

theorem wp_acquiresleep {Q : Unit → Option Own → Prop}
    (hQ : i ∉ r.refs.map Prod.fst → Q () (some { r with refs := (i, b) ::ₘ r.refs, wait := none })) :
    (logic first n).wp t Q (lift (acquiresleep t i)) (some { r with wait := some (i, b) }) := by
  refine wp_lift ?_
  intro O s hO hinv
  have hown := hinv.own t _ hO
  cases hlock : (s.io.buf i).lock with
  | some u => trivial
  | none =>
    have hno : i ∉ r.refs.map Prod.fst := by
      intro hmem
      obtain ⟨⟨j, c⟩, hjc, rfl⟩ := Multiset.mem_map.mp hmem
      have hj := hown.lock j c hjc
      rw [hlock] at hj
      cases hj
    refine ⟨_, ?_, hQ hno⟩
    refine hinv.setLock hO rfl rfl rfl rfl ?_ ?_ ?_
    · intro u hu
      rw [hlock] at hu
      cases hu
    · intro j c hmem
      split
      · rfl
      · rename_i hji
        rcases Multiset.mem_cons.mp hmem with heq | hmem
        · cases heq
          exact absurd rfl hji
        · exact hmem
    · rw [Multiset.map_cons, Multiset.nodup_cons]
      exact ⟨hno, hown.once⟩

theorem wp_bread {Q : Fin NBUF → Option Own → Prop} (hwait : r.wait = none)
    (hhome : r.stage = none → Home first b ∧ r.self.holds = true)
    (hpanic : ∀ O s, O t = some r → Inv first O s → (∀ j, ¬ (s.io.buf j).Is ROOTDEV b) →
      (∀ j, (s.io.buf j).refcnt ≠ 0) → Tolerated (.bgetNoBuffers, s))
    (hQ : ∀ i, Q i (some { r with refs := (i, b) ::ₘ r.refs, wait := none })) :
    (logic first n).wp t Q (lift (bread t ROOTDEV b)) (some r) := by
  refine wp_seq (wp_seq (wp_bgetScan hwait hhome hpanic ?_))
  intro i
  refine wp_seq (wp_acquiresleep fun _ => ?_)
  refine wp_seq (wp_update ?_ (hQ i))
  intro s
  split
  · exact ⟨⟨fun _ => ⟨rfl, rfl, rfl⟩, rfl⟩, fun _ => rfl⟩
  · exact ⟨Same.setBuf rfl rfl rfl, lock_setBuf rfl⟩

variable {R refs : Multiset (Fin NBUF × Nat)} {Q : Unit → Option Own → Prop}

theorem wp_releasesleep (hQ : Q () (some { r with refs := R, wait := some (i, b) })) :
    (logic first n).wp t Q (lift (releasesleep i))
      (some { r with refs := (i, b) ::ₘ R, wait := none }) := by
  refine wp_lift ?_
  intro O s hO hinv
  have hown := hinv.own t _ hO
  have hmine := hown.lock i b (Multiset.mem_cons_self _ _)
  have honce := hown.once
  rw [Multiset.map_cons, Multiset.nodup_cons] at honce
  refine ⟨_, ?_, hQ⟩
  refine hinv.setLock hO rfl rfl rfl rfl ?_ ?_ honce.2
  · intro u hu
    rw [hmine] at hu
    exact (Fin.ext (Option.some.inj hu)).symm
  · intro j c hmem
    rw [if_neg]
    · exact Multiset.mem_cons_of_mem hmem
    · rintro rfl
      exact honce.1 (Multiset.mem_map.mpr ⟨(j, c), hmem, rfl⟩)

theorem wp_dropRef (hquiet : r.stage = none → r.self.holds = true)
    (hQ : Q () (some { r with refs := R, wait := none })) :
    (logic first n).wp t Q (lift (Prog.update (dropRef i)))
      (some { r with refs := R, wait := some (i, b) }) := by
  refine wp_lift ?_
  intro O s hO hinv
  refine ⟨_, ?_, hQ⟩
  -- the counts before are those after, with one more for buffer `i`
  have hall : { r with refs := R, wait := some (i, b) }.all =
      (i, b) ::ₘ { r with refs := R, wait := none }.all := rfl
  have hadd := uses_add (update_self t (some { r with refs := R, wait := none }) O) hall
  rw [update_idem, ← hO, update_eq_self] at hadd
  have hbuf : ∀ j, (∀ c, ((dropRef i s.io).buf j).Is ROOTDEV c ↔ (s.io.buf j).Is ROOTDEV c) ∧
      ((dropRef i s.io).buf j).lock = (s.io.buf j).lock := by
    intro j
    rw [Io.dropRef_buf]
    split
    · rename_i hj
      rw [hj]
      exact ⟨fun _ => Iff.rfl, rfl⟩
    · exact ⟨fun _ => Iff.rfl, rfl⟩
  have hlog := Io.dropRef_log s.io i
  have hkeep : ∀ u y, O u = some y → y.Ok first (dropRef i s.io) u := by
    intro u y hy
    have hy := hinv.own u y hy
    exact hy.keep (fun j c hmem => ((hbuf j).1 c).mpr (hy.is j c hmem)) fun j _ _ => (hbuf j).2
  have hown := hkeep t _ hO
  refine hinv.set ((hinv.loc hO).trans rfl) (fun _ _ => rfl) (fun u y _ hy => hkeep u y hy)
    ⟨?_, ?_, ?_, hown.lock, hown.once⟩ ?_ ?_
  · intro j c hmem
    exact hown.is j c (Multiset.mem_cons_of_mem hmem)
  · intro hstage j c hmem
    exact hown.home hstage j c (Multiset.mem_cons_of_mem hmem)
  · intro hstage hholds
    rw [hquiet hstage] at hholds
    cases hholds
  · rw [hlog]
    exact hinv.log.same hO rfl rfl
  · rw [hlog, pinned_same { r with refs := R, wait := none } hO rfl]
    refine CacheOk.dropRef ?_
    rw [← hadd]
    exact hinv.cache

theorem wp_brelse (hquiet : r.stage = none → r.self.holds = true)
    (hQ : Q () (some { r with refs := R, wait := none })) :
    (logic first n).wp t Q (lift (brelse t i))
      (some { r with refs := (i, b) ::ₘ R, wait := none }) := by
  refine wp_seq (wp_look ?_)
  intro _ _ _ _
  split
  · exact wp_seq (wp_releasesleep (wp_dropRef hquiet hQ))
  · refine wp_same ?_
    intro s
    exact nofun

/-! ## The sections under `log.lock` -/

theorem LogOk.change {l l' : Log} (h : LogOk first O l) (hO : O t = some r) (hstart : l'.start = l.start)
    (hnodup : l'.block.Nodup) (hlisted : ∀ b ∈ l'.block, Home first b)
    (hout : l'.outstanding + r.ops = l.outstanding + r'.ops)
    (hcommit : (if l'.committing then 1 else 0) + r.commits =
      (if l.committing then 1 else 0) + r'.commits)
    (hexcl : l'.committing = true → l'.outstanding = 0)
    (hself : ∀ bs k, r'.stage = some (bs, k) → l'.block = bs ∧ k ≤ bs.length)
    (hothers : l'.block = l.block ∨ ∀ u x, u ≠ t → O u = some x → x.stage = none) :
    LogOk first (update O t (some r')) l' := by
  have hops := total_update r' Own.ops hO
  have hcommits := total_update r' Own.commits hO
  have hold := h.outstanding
  have hcommitting := h.committing
  refine ⟨hstart.trans h.start, hnodup, hlisted, ?_, ?_, hexcl, ?_⟩
  · omega
  · omega
  · intro u x bs k hx hk
    rcases update_some hx with ⟨_, rfl⟩ | ⟨hu, hx⟩
    · exact hself bs k hk
    · rcases hothers with hblock | hnone
      · rw [hblock]
        exact h.stage u x bs k hx hk
      · rw [hnone u x hu hx] at hk
        cases hk

/-- A section that changes the log and leaves the buffers. -/
theorem Inv.setLog (h : Inv first O s) (hO : O t = some r) {l : Log} (hself : r'.self = r.self)
    (hrefs : r'.refs = r.refs) (hwait : r'.wait = r.wait)
    (hhome : r'.stage = none → r.stage = none ∨ r.all = 0)
    (hlog : LogOk first (update O t (some r')) l)
    (hpinned : pinned (update O t (some r')) l = pinned O s.io.log) :
    Inv first (update O t (some r')) { s with io := { s.io with log := l } } := by
  have hown := h.own t r hO
  have hall : r'.all = r.all := by
    rw [Own.all, hrefs, hwait, Own.all]
  refine h.set ((h.loc hO).trans hself.symm) (fun _ _ => rfl) (fun u y _ hy => ?_)
    ⟨?_, ?_, ?_, ?_, ?_⟩ hlog ?_
  · have hy := h.own u y hy
    exact hy.keep hy.is fun _ _ _ => rfl
  · rw [hall]
    exact hown.is
  · intro hstage i b hmem
    rw [hall] at hmem
    rcases hhome hstage with hnone | hzero
    · exact hown.home hnone i b hmem
    · rw [hzero] at hmem
      exact absurd hmem (Multiset.notMem_zero _)
  · intro hstage hholds
    rw [hall]
    rcases hhome hstage with hnone | hzero
    · rw [hself] at hholds
      exact hown.quiet hnone hholds
    · exact hzero
  · rw [hrefs]
    exact hown.lock
  · rw [hrefs]
    exact hown.once
  · rw [uses_same r' hO hall, hpinned]
    exact ⟨h.cache.uniq, h.cache.refcnt, h.cache.pinned⟩

theorem wp_beginOp (hop : r.op = false) (hstage : r.stage = none)
    (hQ : Q () (some { r with op := true })) :
    (logic first n).wp t Q (lift beginOp) (some r) := by
  refine wp_lift ?_
  intro O s hO hinv
  by_cases hadmits : s.io.log.admits
  · rw [if_pos hadmits]
    refine ⟨{ r with op := true }, hinv.setLog hO rfl rfl rfl Or.inl ?_ (pinned_same _ hO rfl), hQ⟩
    refine hinv.log.change hO rfl hinv.log.nodup hinv.log.listed ?_ rfl ?_ ?_ (Or.inl rfl)
    · show s.io.log.outstanding + 1 + _ = _
      rw [Own.ops, if_neg (by rw [hop]; exact Bool.false_ne_true), Own.ops, if_pos rfl]
      omega
    · intro hc
      rw [show s.io.log.beginOp.committing = s.io.log.committing from rfl, hadmits.1] at hc
      cases hc
    · intro bs k hk
      rw [hstage] at hk
      cases hk
  · rw [if_neg hadmits]
    trivial

theorem wp_logWrite (hop : r.op = true)
    (hmem : (i, b) ∈ r.refs) (hQ : Q () (some r)) :
    (logic first n).wp t Q (lift (logWrite i)) (some r) := by
  refine wp_lift ?_
  intro O s hO hinv
  obtain ⟨hcommitting, hnone, hunpinned⟩ := hinv.log.no_commit hO hop
  have hown := hinv.own t r hO
  have his := hown.is i b (Own.mem_all hmem)
  have hhome := hown.home (hnone t r hO) i b (Own.mem_all hmem)
  have hself : update O t (some r) = O := by
    rw [← hO, update_eq_self]
  cases hw : s.io.log.write (s.io.buf i).blockno with
  | error m =>
    intro hm
    unfold Log.write at hw
    -- the panics of `log_write` are others
    cases hm
    split at hw
    · cases hw
    · split at hw
      · cases hw
      · split at hw <;> cases hw
  | ok res =>
    obtain ⟨l, new⟩ := res
    obtain ⟨_, hcase⟩ := Log.write_cases hw
    rw [his.2] at hcase
    rcases hcase with ⟨_, rfl, rfl⟩ | ⟨hb, rfl, rfl⟩
    · refine ⟨r, ?_, hQ⟩
      rw [hself]
      exact hinv
    · refine ⟨r, ?_, hQ⟩
      have hpins : pinned O s.io.log = s.io.log.block := by
        rw [pinned, hunpinned, List.drop_zero]
      have hcache := hinv.cache
      rw [hpins] at hcache
      have hpin := hcache.bpin (hinv.uses_le i) his hb
      rw [hself]
      have hbuf : ∀ j c, ((bpin i s.io).buf j).Is ROOTDEV c ↔ (s.io.buf j).Is ROOTDEV c :=
        is_setBuf fun _ => Iff.rfl
      have hlock : ∀ j, ((bpin i s.io).buf j).lock = (s.io.buf j).lock := lock_setBuf rfl
      refine ⟨hinv.slots, hinv.live, ?_, ?_, ?_⟩
      · intro u y hy
        have hy := hinv.own u y hy
        exact hy.keep (fun j c hm => (hbuf j c).mpr (hy.is j c hm)) fun j _ _ => hlock j
      · show LogOk first O { s.io.log with block := s.io.log.block ++ [b] }
        rw [← hself]
        refine hinv.log.change hO rfl ?_ ?_ rfl rfl hinv.log.excl ?_
          (Or.inr fun u x _ hx => hnone u x hx)
        · rw [List.nodup_append]
          refine ⟨hinv.log.nodup, List.nodup_singleton b, ?_⟩
          intro c hc d hd hcd
          rw [List.mem_singleton.mp hd] at hcd
          exact hb (hcd ▸ hc)
        · intro c hc
          rcases List.mem_append.mp hc with hc | hc
          · exact hinv.log.listed c hc
          · rw [List.mem_singleton.mp hc]
            exact hhome
        · intro bs k hk
          rw [hnone t r hO] at hk
          cases hk
      · rw [pinned, hunpinned]
        exact ⟨hpin.uniq, hpin.refcnt, hpin.pinned⟩

end Xv6.Buffers
