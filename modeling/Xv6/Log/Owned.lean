/-
  What a process owns, and the invariant of the processes.

  A process owns the buffers whose lock it holds, at most one reference without the lock, its operation
  and its commit.  `Inv` ties this to the buffers and to the log; in particular no process has a buffer
  twice, so `refcnt` does not overflow (`Inv.uses_le`).
-/
import Xv6.Log.Users
import Xv6.Lib.Sum

namespace Xv6.Buffers

open Lib Finset Function
open Lib.Prog hiding update

variable {n : Nat} {α β : Type} {io : Io} {i : Fin NBUF}

/-! ## What a process owns -/

structure Own where
  self : Local
  /-- Counted in `log.outstanding`. -/
  op : Bool
  /-- The buffers whose lock the process holds, each with its block. -/
  refs : Multiset (Fin NBUF × Nat)
  /-- In `bget` before the lock or in `brelse` after it, the buffer and its block. -/
  wait : Option (Fin NBUF × Nat)
  /-- In a commit, the listed blocks and how many of them have been unpinned. -/
  stage : Option (List Nat × Nat)

/-- A sum over the processes. -/
def total (f : Own → Nat) (O : Fin n → Option Own) : Nat := ∑ t, (O t).elim 0 f

namespace Own

/-- The references. -/
def all (r : Own) : Multiset (Fin NBUF × Nat) := r.wait.elim r.refs fun x => x ::ₘ r.refs

def uses (i : Fin NBUF) (r : Own) : Nat := (r.all.map Prod.fst).count i

def ops (r : Own) : Nat := if r.op then 1 else 0

def commits (r : Own) : Nat := if r.stage.isSome then 1 else 0

def unpinned (r : Own) : Nat := r.stage.elim 0 Prod.snd

end Own

/-- The log and the processes that are in an operation or a commit. -/
structure LogOk (first : Nat) (O : Fin n → Option Own) (l : Log) : Prop where
  start : l.start = first
  nodup : l.block.Nodup
  listed : ∀ b ∈ l.block, Home first b
  outstanding : l.outstanding = total Own.ops O
  committing : total Own.commits O = if l.committing then 1 else 0
  excl : l.committing = true → l.outstanding = 0
  stage : ∀ t r bs k, O t = some r → r.stage = some (bs, k) → l.block = bs ∧ k ≤ bs.length

/-- The blocks that are pinned. -/
def pinned (O : Fin n → Option Own) (l : Log) : List Nat := l.block.drop (total Own.unpinned O)

/-- What a process owns is what the buffers say. -/
structure Own.Ok (first : Nat) (io : Io) (t : Fin n) (r : Own) : Prop where
  is : ∀ i b, (i, b) ∈ r.all → (io.buf i).Is ROOTDEV b
  home : r.stage = none → ∀ i b, (i, b) ∈ r.all → Home first b
  quiet : r.stage = none → r.self.holds = false → r.all = 0
  lock : ∀ i b, (i, b) ∈ r.refs → (io.buf i).lock = some t.val
  once : (r.refs.map Prod.fst).Nodup

structure Inv (first : Nat) (O : Fin n → Option Own) (s : Sys n) : Prop where
  slots : n ≤ NPROC
  live : ∀ t, ∃ r, O t = some r ∧ s.loc t = r.self
  own : ∀ t r, O t = some r → r.Ok first s.io t
  log : LogOk first O s.io.log
  cache : CacheOk (fun i => total (Own.uses i) O) (pinned O s.io.log) s.io

/-- A buffer is missing only if a process has one, or if the log lists as many blocks as there are
    buffers. -/
def Tolerated (x : Panic × Sys n) : Prop :=
  x.1 = .bgetNoBuffers → (∃ t, (x.2.loc t).holds = true) ∨ NBUF ≤ x.2.io.log.block.length

/-- Between calls. -/
structure Own.Idle (r : Own) : Prop where
  stage : r.stage = none
  busy : r.self.busy = false
  wait : r.wait = none
  refs : r.refs.map Prod.fst = r.self.held
  op : r.op = r.self.op.isSome

def logic (first n : Nat) : Logic (Fin n) (Panic × Sys n) (Sys n) Own where
  inv := Inv first
  idle := Own.Idle
  tolerated := Tolerated

section owned

variable {O : Fin n → Option Own} {t : Fin n} {r r' : Own} {first b : Nat} {l : Log} {s : Sys n}

theorem total_update (r' : Own) (f : Own → Nat) (hO : O t = some r) :
    total f (update O t (some r')) + f r = total f O + f r' := by
  have hsum := sum_update_add (mem_univ t) (fun _ (o : Option Own) => o.elim 0 f) O (some r')
  rw [hO] at hsum
  exact hsum

theorem total_same {f : Own → Nat} (hO : O t = some r) (hf : f r' = f r) :
    total f (update O t (some r')) = total f O := by
  have hsum := total_update r' f hO
  omega

theorem le_total (f : Own → Nat) (hO : O t = some r) : f r ≤ total f O := by
  have hle := single_le_sum (f := fun t => (O t).elim 0 f) (fun _ _ => Nat.zero_le _) (mem_univ t)
  simp only [hO] at hle
  exact hle

theorem update_some {u : Fin n} {x : Own} (h : update O t (some r') u = some x) :
    u = t ∧ x = r' ∨ u ≠ t ∧ O u = some x := by
  by_cases hu : u = t
  · rw [hu, update_self] at h
    exact Or.inl ⟨hu, (Option.some.inj h).symm⟩
  · rw [update_of_ne hu] at h
    exact Or.inr ⟨hu, h⟩

/-- The committing process is the only one, and no operation is outstanding. -/
theorem LogOk.alone (h : LogOk first O l) (hO : O t = some r) (hr : r.stage.isSome = true) :
    l.committing = true ∧ ∀ u x, u ≠ t → O u = some x → x.stage = none := by
  have hone : r.commits = 1 := if_pos hr
  have hle := le_total Own.commits hO
  have hsum := h.committing
  have hcommitting : l.committing = true := by
    cases hc : l.committing with
    | true => rfl
    | false =>
      rw [hc, if_neg Bool.false_ne_true] at hsum
      omega
  rw [if_pos hcommitting] at hsum
  refine ⟨hcommitting, ?_⟩
  intro u x hu hx
  by_contra hstage
  have hx1 : x.commits = 1 := if_pos (Option.isSome_iff_ne_none.mpr hstage)
  have hpair : ∑ v ∈ {t, u}, (O v).elim 0 Own.commits ≤ total Own.commits O :=
    sum_le_sum_of_subset (subset_univ _)
  rw [sum_pair hu.symm, hO, hx] at hpair
  simp only [Option.elim_some] at hpair
  omega

/-- While an operation is outstanding, nobody commits. -/
theorem LogOk.no_commit (h : LogOk first O l) (hO : O t = some r) (hr : r.op = true) :
    l.committing = false ∧ (∀ u x, O u = some x → x.stage = none) ∧ total Own.unpinned O = 0 := by
  have hone : r.ops = 1 := if_pos hr
  have hle := le_total Own.ops hO
  have hout := h.outstanding
  have hcommitting : l.committing = false := by
    cases hc : l.committing with
    | false => rfl
    | true =>
      have hexcl := h.excl hc
      omega
  have hnone : ∀ u x, O u = some x → x.stage = none := by
    intro u x hx
    by_contra hstage
    have htrue := (h.alone hx (Option.isSome_iff_ne_none.mpr hstage)).1
    rw [hcommitting] at htrue
    cases htrue
  refine ⟨hcommitting, hnone, sum_eq_zero ?_⟩
  intro u _
  cases hu : O u with
  | none => rfl
  | some x =>
    show x.unpinned = 0
    rw [Own.unpinned, hnone u x hu]
    rfl

/-- The pins during a commit are what the committing process says. -/
theorem LogOk.pinned_eq (h : LogOk first O l) (hO : O t = some r) {bs : List Nat} {k : Nat}
    (hr : r.stage = some (bs, k)) : l.block = bs ∧ pinned O l = bs.drop k := by
  have hblock := (h.stage t r bs k hO hr).1
  have hsum : total Own.unpinned O = k := by
    refine (sum_eq_single t ?_ fun hn => absurd (mem_univ t) hn).trans ?_
    · intro u _ hu
      cases hx : O u with
      | none => rfl
      | some x =>
        show x.unpinned = 0
        rw [Own.unpinned, (h.alone hO (by rw [hr]; rfl)).2 u x hu hx]
        rfl
    · rw [hO]
      show r.unpinned = k
      rw [Own.unpinned, hr]
      rfl
  rw [pinned, hblock, hsum]
  exact ⟨rfl, rfl⟩

/-- An action that concerns neither operations nor the commit. -/
theorem LogOk.same (h : LogOk first O l) (hO : O t = some r) (hop : r'.op = r.op)
    (hstage : r'.stage = r.stage) : LogOk first (update O t (some r')) l := by
  refine ⟨h.start, h.nodup, h.listed, ?_, ?_, h.excl, ?_⟩
  · rw [total_same hO (by rw [Own.ops, hop, Own.ops])]
    exact h.outstanding
  · rw [total_same hO (by rw [Own.commits, hstage, Own.commits])]
    exact h.committing
  · intro u x bs k hx hk
    rcases update_some hx with ⟨_, rfl⟩ | ⟨_, hx⟩
    · exact h.stage t r bs k hO (hstage ▸ hk)
    · exact h.stage u x bs k hx hk

theorem pinned_same (r' : Own) (hO : O t = some r) (hstage : r'.stage = r.stage) :
    pinned (update O t (some r')) l = pinned O l := by
  rw [pinned, pinned, total_same hO (by rw [Own.unpinned, hstage, Own.unpinned])]

/-- The references of everyone are as before. -/
theorem uses_same (r' : Own) (hO : O t = some r) (hall : r'.all = r.all) :
    (fun i => total (Own.uses i) (update O t (some r'))) = fun i => total (Own.uses i) O := by
  funext i
  refine total_same hO ?_
  rw [Own.uses, hall, Own.uses]

theorem Own.all_of_wait (h : r.wait = none) : r.all = r.refs := by
  rw [Own.all, h]
  rfl

theorem Own.mem_all (h : (i, b) ∈ r.refs) : (i, b) ∈ r.all := by
  unfold Own.all
  cases r.wait with
  | none => exact h
  | some x => exact Multiset.mem_cons_of_mem h

theorem Own.Ok.uses_le (h : r.Ok first io t) (i : Fin NBUF) : r.uses i ≤ 2 := by
  have hrefs := Multiset.nodup_iff_count_le_one.mp h.once i
  unfold Own.uses Own.all
  cases r.wait with
  | none => exact hrefs.trans (Nat.le_succ 1)
  | some x =>
    simp only [Option.elim_some, Multiset.map_cons, Multiset.count_cons]
    split <;> omega

/-- There are far fewer references to a buffer than `refcnt` can count. -/
theorem Inv.uses_le (h : Inv first O s) (i : Fin NBUF) : total (Own.uses i) O ≤ 2 * NPROC := by
  have hsum : total (Own.uses i) O ≤ ∑ _t : Fin n, 2 := by
    refine sum_le_sum ?_
    intro u _
    obtain ⟨y, hy, _⟩ := h.live u
    rw [hy]
    exact (h.own u y hy).uses_le i
  rw [sum_const_nat fun _ _ => rfl, card_univ, Fintype.card_fin] at hsum
  have hslots := h.slots
  omega

/-- The buffers that a process owns stay as they are for it. -/
theorem Own.Ok.keep {io' : Io} (h : r.Ok first io t)
    (his : ∀ i b, (i, b) ∈ r.all → (io'.buf i).Is ROOTDEV b)
    (hlock : ∀ i b, (i, b) ∈ r.refs → (io'.buf i).lock = (io.buf i).lock) : r.Ok first io' t where
  is := his
  home := h.home
  quiet := h.quiet
  lock i b hmem := (hlock i b hmem).trans (h.lock i b hmem)
  once := h.once

/-- One process changes what it owns. -/
theorem Inv.set (h : Inv first O s) {s' : Sys n} (hself : s'.loc t = r'.self)
    (hloc : ∀ u, u ≠ t → s'.loc u = s.loc u)
    (hothers : ∀ u y, u ≠ t → O u = some y → y.Ok first s'.io u) (hown : r'.Ok first s'.io t)
    (hlog : LogOk first (update O t (some r')) s'.io.log)
    (hcache : CacheOk (fun i => total (Own.uses i) (update O t (some r')))
      (pinned (update O t (some r')) s'.io.log) s'.io) :
    Inv first (update O t (some r')) s' := by
  refine ⟨h.slots, ?_, ?_, hlog, hcache⟩
  · intro u
    by_cases hu : u = t
    · rw [hu, update_self]
      exact ⟨r', rfl, hself⟩
    · rw [update_of_ne hu, hloc u hu]
      exact h.live u
  · intro u y hy
    rcases update_some hy with ⟨rfl, rfl⟩ | ⟨hu, hy⟩
    · exact hown
    · exact hothers u y hu hy

theorem Inv.loc (h : Inv first O s) (hO : O t = some r) : s.loc t = r.self := by
  obtain ⟨y, hy, hloc⟩ := h.live t
  rw [hO] at hy
  cases hy
  exact hloc

end owned

/-! ## Actions -/

/-- The same counts, blocks and log. -/
structure Same (s t : Io) : Prop where
  buf : ∀ i, (t.buf i).dev = (s.buf i).dev ∧ (t.buf i).blockno = (s.buf i).blockno ∧
    (t.buf i).refcnt = (s.buf i).refcnt
  log : t.log = s.log

theorem Same.setBuf {s : Io} {x : Buf} (hdev : x.dev = (s.buf i).dev)
    (hblockno : x.blockno = (s.buf i).blockno) (hrefcnt : x.refcnt = (s.buf i).refcnt) :
    Same s (s.setBuf i x) := by
  refine ⟨?_, rfl⟩
  intro j
  rw [Io.setBuf_buf]
  split
  · rename_i hj
    rw [hj]
    exact ⟨hdev, hblockno, hrefcnt⟩
  · exact ⟨rfl, rfl, rfl⟩

theorem Same.is {s t : Io} (h : Same s t) (i : Fin NBUF) (b : Nat) :
    (t.buf i).Is ROOTDEV b ↔ (s.buf i).Is ROOTDEV b := by
  unfold Buf.Is
  rw [(h.buf i).1, (h.buf i).2.1]

theorem CacheOk.same {u : Fin NBUF → Nat} {P : List Nat} {s t : Io} (h : CacheOk u P s)
    (hs : Same s t) : CacheOk u P t := by
  refine ⟨?_, ?_, ?_⟩
  · intro i j b hi hj
    exact h.uniq i j b ((hs.is i b).mp hi) ((hs.is j b).mp hj)
  · intro i
    obtain ⟨hdev, hblockno, hrefcnt⟩ := hs.buf i
    rw [hrefcnt, h.refcnt i]
    unfold Buf.pins
    rw [hdev, hblockno]
  · intro b hb
    obtain ⟨i, hi⟩ := h.pinned b hb
    exact ⟨i, (hs.is i b).mpr hi⟩

section rules

variable {first : Nat} {t : Fin n} {r r' : Own} {Q : α → Option Own → Prop} {O : Fin n → Option Own}
  {s : Sys n}

theorem Inv.same (h : Inv first O s) (hs : Same s.io io)
    (hlock : ∀ i, (io.buf i).lock = (s.io.buf i).lock) : Inv first O { s with io := io } := by
  refine ⟨h.slots, h.live, ?_, ?_, ?_⟩
  · intro u y hy
    have hu := h.own u y hy
    exact hu.keep (fun i b hmem => (hs.is i b).mpr (hu.is i b hmem)) fun i _ _ => hlock i
  · rw [hs.log]
    exact h.log
  · rw [hs.log]
    exact h.cache.same hs

theorem lift_bind' (p : IoM α) (g : α → IoM β) :
    (lift (p.bind g) : SysM n β) = (lift p).bind fun a => lift (g a) := by
  induction p with
  | ret a => rfl
  | act f k ih =>
    exact congrArg (Prog.act _) (funext ih)

theorem lift_bind (p : IoM α) (g : α → IoM β) :
    (lift (p >>= g) : SysM n β) = lift p >>= fun a => lift (g a) := lift_bind' p g

theorem wp_seq {p : IoM α} {g : α → IoM β} {Q : β → Option Own → Prop} {o : Option Own}
    (h : (logic first n).wp t (fun a o => (logic first n).wp t Q (lift (g a)) o) (lift p) o) :
    (logic first n).wp t Q (lift (p >>= g)) o := by
  rw [lift_bind]
  exact Logic.wp_bind h

theorem lift_upto (m : Nat) (body : Nat → IoM Unit) :
    (lift (upto m body) : SysM n Unit) = upto m fun k => lift (body k) := by
  induction m with
  | zero => rw [upto_zero, upto_zero]; rfl
  | succ m ih => rw [upto_succ, upto_succ, lift_bind', ih]

theorem wp_lift {f : Io → Outcome Panic Io α}
    (h : ∀ O s, O t = some r → Inv first O s →
      match f s.io with
      | .ok a io => ∃ r', Inv first (update O t (some r')) { s with io := io } ∧ Q a (some r')
      | .panic m => Tolerated (m, s)
      | .block => True) : (logic first n).wp t Q (lift (atomic f)) (some r) := by
  refine Logic.wp_atomic ?_
  intro O s hO hinv
  have hs := h O s hO hinv
  cases hf : f s.io with
  | ok | panic =>
    rw [hf] at hs
    exact hs
  | block => trivial

/-- An action that changes no count, block, lock or log. -/
theorem wp_same {f : Io → Outcome Panic Io α}
    (h : ∀ s, match f s with
      | .ok a io => (Same s io ∧ ∀ i, (io.buf i).lock = (s.buf i).lock) ∧ Q a (some r)
      | .panic m => m ≠ .bgetNoBuffers
      | .block => True) : (logic first n).wp t Q (lift (atomic f)) (some r) := by
  refine wp_lift ?_
  intro O s hO hinv
  have hs := h s.io
  cases hf : f s.io with
  | ok a io =>
    rw [hf] at hs
    refine ⟨r, ?_, hs.2⟩
    rw [← hO, update_eq_self]
    exact hinv.same hs.1.1 hs.1.2
  | panic m =>
    rw [hf] at hs
    exact fun hm => absurd hm hs
  | block => trivial

theorem wp_update {f : Io → Io} {Q : Unit → Option Own → Prop}
    (h : ∀ s, Same s (f s) ∧ ∀ i, ((f s).buf i).lock = (s.buf i).lock)
    (hQ : Q () (some r)) : (logic first n).wp t Q (lift (Prog.update f)) (some r) :=
  wp_same fun s => ⟨h s, hQ⟩

theorem wp_look {f : Io → α} (h : ∀ O s, O t = some r → Inv first O s → Q (f s.io) (some r)) :
    (logic first n).wp t Q (lift (look f)) (some r) := by
  refine wp_lift ?_
  intro O s hO hinv
  refine ⟨r, ?_, h O s hO hinv⟩
  rw [← hO, update_eq_self]
  exact hinv

theorem wp_see {f : Sys n → α} (h : ∀ a, Q a (some r)) :
    (logic first n).wp t Q (look f) (some r) := by
  refine Logic.wp_atomic ?_
  intro O s hO hinv
  refine ⟨r, ?_, h _⟩
  rw [← hO, update_eq_self]
  exact hinv

theorem wp_note {g : Local → Local} {Q : Unit → Option Own → Prop}
    (hquiet : r.stage = none → (g r.self).holds = false → r.all = 0)
    (hQ : Q () (some { r with self := g r.self })) :
    (logic first n).wp t Q (note t g) (some r) := by
  refine Logic.wp_atomic ?_
  intro O s hO hinv
  have hown := hinv.own t r hO
  refine ⟨{ r with self := g r.self }, ?_, hQ⟩
  refine hinv.set ?_ (fun u hu => update_of_ne hu _ _) (fun u y _ hy => hinv.own u y hy)
    ⟨hown.is, hown.home, hquiet, hown.lock, hown.once⟩ (hinv.log.same hO rfl rfl) ?_
  · dsimp only
    rw [update_self, hinv.loc hO]
  · rw [uses_same { r with self := g r.self } hO rfl, pinned_same { r with self := g r.self } hO rfl]
    exact hinv.cache

end rules

end Xv6.Buffers
