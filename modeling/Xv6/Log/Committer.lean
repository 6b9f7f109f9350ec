/-
  A commit by what it does to the invariant.  Its `bread` finds no buffer only if a process has one or
  the log lists as many blocks as there are buffers (`Inv.starved`).
-/
import Xv6.Log.Sections

namespace Xv6.Buffers

open Lib Finset Function
open Lib.Prog hiding update

variable {n : Nat} {first : Nat} {t : Fin n} {r : Own} {O : Fin n → Option Own} {s : Sys n}
  {i : Fin NBUF} {b : Nat} {R refs : Multiset (Fin NBUF × Nat)} {Q : Unit → Option Own → Prop}

/-! ## The commit -/

/-- The committing process. -/
def committer (x : Local) (bs : List Nat) (k : Nat) (refs : Multiset (Fin NBUF × Nat)) : Own :=
  ⟨x, false, refs, none, some (bs, k)⟩

variable {x : Local} {bs : List Nat} {k : Nat}

/-- If nobody has a buffer, only the listed blocks keep them. -/
theorem Inv.starved (h : Inv first O s) (hO : O t = some (committer x bs k 0))
    (hall : ∀ j, (s.io.buf j).refcnt ≠ 0) : Tolerated (.bgetNoBuffers, s) := by
  intro _
  by_cases hholds : ∃ u, (s.loc u).holds = true
  · exact Or.inl hholds
  · refine Or.inr ?_
    obtain ⟨hblock, hpinned⟩ := h.log.pinned_eq hO rfl
    have huses : ∀ i, total (Own.uses i) O = 0 := by
      intro i
      refine sum_eq_zero ?_
      intro u _
      obtain ⟨y, hy, hloc⟩ := h.live u
      rw [hy]
      have hrefs : y.all = 0 := by
        by_cases hu : u = t
        · rw [hu, hO] at hy
          cases hy
          rfl
        · refine (h.own u y hy).quiet ((h.log.alone hO rfl).2 u y hu hy) ?_
          rw [← hloc]
          exact Bool.eq_false_iff.mpr fun hh => hholds ⟨u, hh⟩
      show y.uses i = 0
      rw [Own.uses, hrefs]
      rfl
    have hle := h.cache.le_pinned huses hall
    rw [hpinned, List.length_drop] at hle
    rw [hblock]
    omega

/-- The first `bread` of a round. -/
theorem wp_bread_log {Q : Fin NBUF → Option Own → Prop}
    (hQ : ∀ i, Q i (some (committer x bs k {(i, b)}))) :
    (logic first n).wp t Q (lift (bread t ROOTDEV b)) (some (committer x bs k 0)) := by
  refine wp_bread rfl nofun ?_ hQ
  intro O s hO hinv _ hall
  exact hinv.starved hO hall

/-- The `bread` of a block that is pinned. -/
theorem wp_bread_home {Q : Fin NBUF → Option Own → Prop} (hb : b ∈ bs.drop k)
    (hQ : ∀ i, Q i (some (committer x bs k ((i, b) ::ₘ refs)))) :
    (logic first n).wp t Q (lift (bread t ROOTDEV b)) (some (committer x bs k refs)) := by
  refine wp_bread rfl nofun ?_ hQ
  intro O s hO hinv hnone _
  obtain ⟨_, hpinned⟩ := hinv.log.pinned_eq hO rfl
  obtain ⟨i, hi⟩ := hinv.cache.pinned b (hpinned.symm ▸ hb)
  exact absurd hi (hnone i)

theorem wp_brelse_commit
    (hQ : Q () (some (committer x bs k R))) :
    (logic first n).wp t Q (lift (brelse t i)) (some (committer x bs k ((i, b) ::ₘ R))) :=
  wp_brelse (r := committer x bs k R) nofun hQ

theorem wp_modifyData {f : Block → Block}
    (hQ : Q () (some r)) : (logic first n).wp t Q (lift (modifyData i f)) (some r) :=
  wp_update (fun _ => ⟨Same.setBuf rfl rfl rfl, lock_setBuf rfl⟩) hQ

theorem wp_bwrite (hQ : Q () (some r)) :
    (logic first n).wp t Q (lift (bwrite t i)) (some r) := by
  refine wp_seq (wp_look ?_)
  intro _ _ _ _
  split
  · exact wp_update (fun _ => ⟨⟨fun _ => ⟨rfl, rfl, rfl⟩, rfl⟩, fun _ => rfl⟩) hQ
  · exact wp_same fun _ => nofun

theorem wp_bufData {Q : Block → Option Own → Prop} (hQ : ∀ d, Q d (some r)) :
    (logic first n).wp t Q (lift (bufData i)) (some r) :=
  wp_look fun _ _ _ _ => hQ _

theorem wp_writeLog (hQ : Q () (some (committer x bs 0 0))) :
    (logic first n).wp t Q (lift (writeLog t)) (some (committer x bs 0 0)) := by
  refine wp_seq (wp_look ?_)
  intro O s hO hinv
  obtain ⟨hblock, _⟩ := hinv.log.pinned_eq hO rfl
  rw [hblock, lift_upto]
  refine Logic.wp_mono (Logic.wp_upto (J := fun _ r => r = some (committer x bs 0 0)) rfl ?_) ?_
  · rintro k _ hk rfl
    refine wp_seq (wp_bread_log fun dst => ?_)
    refine wp_seq (wp_bread_home (getD_mem hk) fun src => ?_)
    refine wp_seq (wp_bufData fun d => ?_)
    refine wp_seq (wp_modifyData ?_)
    refine wp_seq (wp_bwrite ?_)
    refine wp_seq (wp_brelse_commit ?_)
    exact wp_brelse_commit rfl
  · rintro _ _ rfl
    exact hQ

theorem wp_writeHead (hQ : Q () (some (committer x bs k 0))) :
    (logic first n).wp t Q (lift (writeHead t)) (some (committer x bs k 0)) := by
  refine wp_seq (wp_look ?_)
  intro O s hO hinv
  refine wp_seq (wp_bread_log fun i => ?_)
  refine wp_seq (wp_modifyData ?_)
  refine wp_seq (wp_bwrite ?_)
  exact wp_brelse_commit hQ

/-- The pin of a block that has been installed goes. -/
theorem wp_bunpin (hk : k < bs.length)
    (hmem : (i, bs.getD k 0) ∈ refs) (hQ : Q () (some (committer x bs (k + 1) refs))) :
    (logic first n).wp t Q (lift (Prog.update (bunpin i))) (some (committer x bs k refs)) := by
  refine wp_lift ?_
  intro O s hO hinv
  refine ⟨committer x bs (k + 1) refs, ?_, hQ⟩
  obtain ⟨hblock, hpinned⟩ := hinv.log.pinned_eq hO rfl
  have hown := hinv.own t _ hO
  have his := hown.is i _ hmem
  have hnodup : (bs.drop k).Nodup := (hblock ▸ hinv.log.nodup).sublist (List.drop_sublist _ _)
  rw [drop_eq_getD_cons hk] at hnodup hpinned
  have hcache := hinv.cache
  rw [hpinned] at hcache
  have hunpin := hcache.bunpin his (List.nodup_cons.mp hnodup).1
  have hlog : LogOk first (update O t (some (committer x bs (k + 1) refs))) s.io.log := by
    refine hinv.log.change hO rfl hinv.log.nodup hinv.log.listed rfl rfl hinv.log.excl ?_ (Or.inl rfl)
    intro bs' k' hstage
    cases hstage
    exact ⟨hblock, hk⟩
  have hbuf : ∀ j c, ((bunpin i s.io).buf j).Is ROOTDEV c ↔ (s.io.buf j).Is ROOTDEV c :=
    is_setBuf fun _ => Iff.rfl
  have hlock : ∀ j, ((bunpin i s.io).buf j).lock = (s.io.buf j).lock := lock_setBuf rfl
  have hkeep : ∀ u y, O u = some y → y.Ok first (bunpin i s.io) u := by
    intro u y hy
    have hy := hinv.own u y hy
    exact hy.keep (fun j c hm => (hbuf j c).mpr (hy.is j c hm)) fun j _ _ => hlock j
  have hown := hkeep t _ hO
  refine hinv.set ((hinv.loc hO).trans rfl) (fun _ _ => rfl) (fun u y _ hy => hkeep u y hy)
    ⟨hown.is, nofun, nofun, hown.lock, hown.once⟩ hlog ?_
  · have hnew := (hlog.pinned_eq (update_self t _ O) rfl).2
    show CacheOk _ (pinned _ s.io.log) _
    rw [hnew, uses_same (committer x bs (k + 1) refs) hO rfl]
    exact hunpin

theorem wp_installTrans (hQ : Q () (some (committer x bs bs.length 0))) :
    (logic first n).wp t Q (lift (installTrans t false)) (some (committer x bs 0 0)) := by
  refine wp_seq (wp_look ?_)
  intro O s hO hinv
  obtain ⟨hblock, _⟩ := hinv.log.pinned_eq hO rfl
  rw [hblock, lift_upto]
  refine Logic.wp_mono (Logic.wp_upto (J := fun k r => r = some (committer x bs k 0)) rfl ?_) ?_
  · rintro k _ hk rfl
    have hdrop : bs.getD k 0 ∈ bs.drop k := by
      rw [drop_eq_getD_cons hk]
      exact List.mem_cons_self
    refine wp_seq (wp_bread_log fun lbuf => ?_)
    refine wp_seq (wp_bread_home hdrop fun dbuf => ?_)
    refine wp_seq (wp_bufData fun d => ?_)
    refine wp_seq (wp_modifyData ?_)
    refine wp_seq (wp_bwrite ?_)
    rw [if_neg Bool.false_ne_true, lift_bind]
    refine Logic.wp_bind (wp_bunpin hk (Multiset.mem_cons_self _ _) ?_)
    rw [lift_bind]
    refine Logic.wp_bind ?_
    rw [show (((dbuf, bs.getD k 0) ::ₘ {(lbuf, _)} : Multiset (Fin NBUF × Nat))) = _ from
      Multiset.cons_swap _ _ 0]
    refine wp_brelse_commit ?_
    exact wp_brelse_commit rfl
  · rintro _ _ rfl
    exact hQ

theorem wp_clearLog (hQ : Q () (some (committer x [] 0 0))) :
    (logic first n).wp t Q (lift clearLog) (some (committer x bs bs.length 0)) := by
  refine wp_lift ?_
  intro O s hO hinv
  refine ⟨committer x [] 0 0, ?_, hQ⟩
  obtain ⟨_, hpinned⟩ := hinv.log.pinned_eq hO rfl
  have hlog : LogOk first (update O t (some (committer x [] 0 0)))
      { s.io.log with block := [] } := by
    refine hinv.log.change hO rfl List.nodup_nil (fun b hb => absurd hb List.not_mem_nil) rfl rfl
      hinv.log.excl ?_ (Or.inr (hinv.log.alone hO rfl).2)
    intro bs' k' hstage
    cases hstage
    exact ⟨rfl, Nat.le_refl 0⟩
  refine hinv.setLog hO rfl rfl rfl (fun _ => Or.inr rfl) hlog ?_
  rw [hpinned, (hlog.pinned_eq (update_self t _ O) rfl).2, List.drop_length, List.drop_nil]

theorem wp_commit (hQ : Q () (some (committer x [] 0 0))) :
    (logic first n).wp t Q (lift (commit t)) (some (committer x bs 0 0)) := by
  refine wp_seq (wp_look ?_)
  intro O s hO hinv
  obtain ⟨hblock, _⟩ := hinv.log.pinned_eq hO rfl
  rw [hblock]
  split
  · refine wp_seq (wp_writeLog ?_)
    refine wp_seq (wp_writeHead ?_)
    refine wp_seq (wp_installTrans ?_)
    refine wp_seq (wp_clearLog ?_)
    exact wp_writeHead hQ
  · have hnil : bs = [] := List.length_eq_zero_iff.mp (by omega)
    rw [hnil]
    exact hQ

theorem wp_endOp (hop : r.op = true) (hstage : r.stage = none)
    (hrefs : r.refs = 0) (hwait : r.wait = none) (hQ : Q () (some { r with op := false })) :
    (logic first n).wp t Q (lift (endOp t)) (some r) := by
  unfold endOp
  refine wp_seq (wp_lift ?_)
  intro O s hO hinv
  obtain ⟨hcommitting, hnone, hunpinned⟩ := hinv.log.no_commit hO hop
  have hops : r.ops = 1 := if_pos hop
  have hcommits : r.commits = 0 := by
    rw [Own.commits, hstage]
    rfl
  cases he : s.io.log.endOp with
  | error m =>
    intro hm
    unfold Log.endOp at he
    cases hm
    dsimp only at he
    split at he
    · cases he
    · split at he <;> cases he
  | ok res =>
    obtain ⟨l, doCommit⟩ := res
    rcases Log.endOp_cases he with ⟨hone, rfl, rfl⟩ | ⟨_, rfl, rfl⟩
    · refine ⟨committer r.self s.io.log.block 0 r.refs, ?_, ?_⟩
      · have hlog : LogOk first
            (update O t (some (committer r.self s.io.log.block 0 r.refs)))
            { s.io.log with outstanding := 0, committing := true } := by
          refine hinv.log.change hO rfl hinv.log.nodup hinv.log.listed ?_ ?_ (fun _ => rfl) ?_ (Or.inl rfl)
          · rw [hops, hone]
            rfl
          · rw [hcommits, hcommitting]
            rfl
          · intro bs k hk
            cases hk
            exact ⟨rfl, Nat.zero_le _⟩
        refine hinv.setLog hO rfl rfl hwait.symm (fun h => (Option.some_ne_none _ h).elim) hlog ?_
        rw [(hlog.pinned_eq (update_self t _ O) rfl).2, pinned, hunpinned]
      · rw [if_pos rfl, lift_bind, hrefs]
        refine Logic.wp_bind (wp_commit ?_)
        refine wp_lift ?_
        intro O s hO hinv
        obtain ⟨hcommitting, hothers⟩ := hinv.log.alone hO rfl
        obtain ⟨hblock, hpinned⟩ := hinv.log.pinned_eq hO rfl
        refine ⟨{ r with op := false }, ?_, hQ⟩
        refine hinv.setLog hO rfl hrefs hwait (fun _ => Or.inr rfl) ?_ ?_
        · refine hinv.log.change hO rfl hinv.log.nodup hinv.log.listed rfl ?_
            (fun h => (Bool.false_ne_true h).elim) ?_ (Or.inl rfl)
          · rw [hcommitting, hstage]
            rfl
          · intro bs k hk
            rw [hstage] at hk
            cases hk
        · rw [hpinned, pinned]
          rw [hblock, List.drop_nil, List.drop_nil]
    · refine ⟨{ r with op := false }, ?_, hQ⟩
      refine hinv.setLog hO rfl rfl rfl (fun _ => Or.inl hstage) ?_ (pinned_same _ hO rfl)
      refine hinv.log.change hO rfl hinv.log.nodup hinv.log.listed ?_ rfl ?_ ?_ (Or.inl rfl)
      · rw [hops]
        show s.io.log.outstanding - 1 + 1 = s.io.log.outstanding + 0
        omega
      · intro hc
        rw [hcommitting] at hc
        cases hc
      · intro bs k hk
        rw [hstage] at hk
        cases hk

end Xv6.Buffers
