/-
  The structure of the buffer cache.

  `BioInv` is the invariant of the cache under concurrent calls: the pointers spell a list of all
  buffers, ordered by when `brelse` last released them to zero; a block is in at most one buffer; and
  `refcnt` counts the calls that have a reference and the pins, modulo `2^32`.

  `buffer_cache` is what follows for every run, with what a step from there can do: a buffer in use
  keeps its block, and a buffer that `bget` recycles is the one that has been unused for longest.  That
  `refcnt` is the count needs fewer than `2^32` references: `bpin_wraps` is a run after which `bget`
  gives away a buffer that another call holds.
-/
import Xv6.Bio.Cache

namespace Xv6

open Lib.Dll Function List

/-! ## The invariant -/

/-- Buffer `i` was released to zero after `j`. Those that never were are in the order of `binit`. -/
def BioSys.Newer (s : BioSys) (i j : Fin NBUF) : Prop :=
  s.stamp j < s.stamp i ∨ s.stamp i = 0 ∧ s.stamp j = 0 ∧ j < i

structure BioInv (s : BioSys) : Prop where
  list : ∃ b : Bcache, s.cache.Abs b ∧ b.lru.Pairwise s.Newer
  clock : ∀ i, s.stamp i ≤ s.clock
  unique : ∀ i j, (s.buf i).dev ≠ 0 → (s.buf i).Is (s.buf j).dev (s.buf j).blockno → i = j
  refcnt : ∀ i, (s.buf i).refcnt = BitVec.ofNat 32 (s.references i)
  lock : ∀ i, s.count i .holding = if (s.buf i).lock = none then 0 else 1

/-! ## Steps -/

theorem Cache.buf_set (c : Cache) (i : Fin NBUF) (x : Buf) (j : Fin NBUF) :
    (c.set i x).buf j = if j = i then x else c.buf j :=
  update_apply c.buf i x j

theorem Cache.buf_dropRef (c : Cache) (i j : Fin NBUF) :
    (c.dropRef i).buf j =
      if j = i then { c.buf i with refcnt := (c.buf i).refcnt - 1 } else c.buf j := by
  rw [← Cache.buf_set]
  unfold Cache.dropRef
  dsimp only
  split <;> rfl

theorem Cache.Abs.dropRef {c : Cache} {b : Bcache} (h : c.Abs b) (i : Fin NBUF) :
    ∃ b' : Bcache, (c.dropRef i).Abs b' ∧
      b'.lru = if (c.buf i).refcnt - 1 = 0 then i :: b.lru.erase i else b.lru := by
  have hset := h.set i { c.buf i with refcnt := (c.buf i).refcnt - 1 }
  unfold Cache.dropRef
  dsimp only
  rw [Cache.buf_set, if_pos rfl]
  split
  · exact ⟨_, hset.move i, rfl⟩
  · exact ⟨_, hset, rfl⟩

/-! ### The calls in progress -/

theorem BioSys.count_of_cons {s t : BioSys} {r : Ref} (ht : t.refs = r :: s.refs) (i : Fin NBUF)
    (phase : Phase) :
    t.count i phase = s.count i phase + if r.buf = i ∧ r.phase = phase then 1 else 0 := by
  simp [count, ht, countP_cons]

theorem BioSys.count_of_erase {s t : BioSys} {r : Ref} (hr : r ∈ s.refs)
    (ht : t.refs = s.refs.erase r) (i : Fin NBUF) (phase : Phase) :
    s.count i phase = t.count i phase + if r.buf = i ∧ r.phase = phase then 1 else 0 := by
  rw [← count_of_cons (t := { t with refs := r :: t.refs }) rfl]
  rw [ht]
  exact (perm_cons_erase hr).countP_eq _

theorem BioSys.count_of_goto {s t : BioSys} {r : Ref} {p : Phase} (hr : r ∈ s.refs)
    (ht : t.refs = { r with phase := p } :: s.refs.erase r) (i : Fin NBUF) (phase : Phase) :
    t.count i phase + (if r.buf = i ∧ r.phase = phase then 1 else 0) =
      s.count i phase + if r.buf = i ∧ p = phase then 1 else 0 := by
  have herase := count_of_erase (t := { s with refs := s.refs.erase r }) hr rfl i phase
  have hcons := count_of_cons (s := { s with refs := s.refs.erase r }) ht i phase
  rw [herase, hcons]
  exact Nat.add_right_comm _ _ _

theorem BioSys.references_of_cons {s t : BioSys} {r : Ref} (ht : t.refs = r :: s.refs)
    (hpins : t.pins = s.pins) : t.references r.buf = s.references r.buf + 1 := by
  have hcount := count_of_cons ht r.buf
  unfold references
  rw [hcount, hcount, hcount, hpins]
  cases r.phase <;> simp <;> omega

theorem BioSys.references_of_erase {s t : BioSys} {r : Ref} (hr : r ∈ s.refs)
    (ht : t.refs = s.refs.erase r) (hpins : t.pins = s.pins) :
    s.references r.buf = t.references r.buf + 1 := by
  have hcount := count_of_erase hr ht r.buf
  unfold references
  rw [hcount, hcount, hcount, hpins]
  cases r.phase <;> simp <;> omega

theorem BioSys.references_of_goto {s t : BioSys} {r : Ref} {p : Phase} (hr : r ∈ s.refs)
    (ht : t.refs = { r with phase := p } :: s.refs.erase r) (hpins : t.pins = s.pins) :
    t.references r.buf = s.references r.buf := by
  have herase := references_of_erase (t := { s with refs := s.refs.erase r }) hr rfl rfl
  have hcons := references_of_cons (s := { s with refs := s.refs.erase r }) ht hpins
  exact hcons.trans herase.symm

theorem BioSys.references_of_pins {s t : BioSys} (ht : t.refs = s.refs) (i : Fin NBUF) :
    t.references i + s.pins i = s.references i + t.pins i := by
  unfold references count
  rw [ht]
  omega

/-! ### What a step does -/

/-- The cases of a step. -/
inductive BioEff (s : BioSys) : BioSys → Prop
  | hit (who dev blockno : Nat) (i : Fin NBUF) (hi : (s.buf i).Is dev blockno) :
      BioEff s { s.setBuf i { s.buf i with refcnt := (s.buf i).refcnt + 1 } with
        refs := ⟨who, i, .waiting⟩ :: s.refs }
  | recycle (who dev blockno : Nat) (i : Fin NBUF) (hi : (s.buf i).refcnt = 0)
      (hno : ∀ j, ¬ (s.buf j).Is dev blockno)
      (hlru : ∀ j, (s.buf j).refcnt = 0 → j ≠ i → s.Newer j i) :
      BioEff s { s.setBuf i
          { s.buf i with dev := dev, blockno := blockno, valid := false, refcnt := 1 } with
        refs := ⟨who, i, .waiting⟩ :: s.refs }
  | acquire (who : Nat) (i : Fin NBUF) (hr : ⟨who, i, .waiting⟩ ∈ s.refs)
      (hfree : (s.buf i).lock = none) :
      BioEff s ((s.setBuf i { s.buf i with lock := some who }).goto ⟨who, i, .waiting⟩ .holding)
  | read (i : Fin NBUF) (data : Block) :
      BioEff s (s.setBuf i { s.buf i with valid := true, data := data })
  | release (who : Nat) (i : Fin NBUF) (hr : ⟨who, i, .holding⟩ ∈ s.refs)
      (hlock : (s.buf i).lock = some who) :
      BioEff s ((s.setBuf i { s.buf i with lock := none }).goto ⟨who, i, .holding⟩ .releasing)
  | dropZero (who : Nat) (i : Fin NBUF) (hr : ⟨who, i, .releasing⟩ ∈ s.refs)
      (hz : (s.buf i).refcnt - 1 = 0) :
      BioEff s { s with
        refs := s.refs.erase ⟨who, i, .releasing⟩
        cache := s.cache.dropRef i
        clock := s.clock + 1
        stamp := update s.stamp i (s.clock + 1) }
  | drop (who : Nat) (i : Fin NBUF) (hr : ⟨who, i, .releasing⟩ ∈ s.refs)
      (hz : (s.buf i).refcnt - 1 ≠ 0) :
      BioEff s { s with refs := s.refs.erase ⟨who, i, .releasing⟩, cache := s.cache.dropRef i }
  | pin (i : Fin NBUF) :
      BioEff s { s with
        cache := s.cache.bpin i, pins := update s.pins i (s.pins i + 1) }
  | unpin (i : Fin NBUF) (hi : 0 < s.pins i) :
      BioEff s { s with
        cache := s.cache.bunpin i, pins := update s.pins i (s.pins i - 1) }

/-- The buffer that the backward scan finds has been unused for longest. -/
theorem BioInv.oldest {s : BioSys} (h : BioInv s) {i : Fin NBUF}
    (hfind : (s.cache.links.backward NBUF).find?
      (fun i => decide ((s.cache.buf i).refcnt = 0)) = some i)
    (j : Fin NBUF) (hj : (s.buf j).refcnt = 0) (hji : j ≠ i) : s.Newer j i := by
  obtain ⟨b, habs, hsorted⟩ := h.list
  rw [habs.backward (Nat.le_refl NBUF), find?_eq_some_iff_append] at hfind
  obtain ⟨_, as, bs, hlru, hnone⟩ := hfind
  -- the list is what comes before `i`, then `i`, then buffers in use
  have hlru : b.lru = bs.reverse ++ i :: as.reverse := by
    rw [← reverse_reverse b.lru, hlru, reverse_append, reverse_cons,
      append_assoc]
    rfl
  have hmem := b.mem_lru j
  rw [hlru] at hmem hsorted
  rcases mem_append.mp hmem with hbefore | hafter
  · exact (pairwise_append.mp hsorted).2.2 j hbefore i mem_cons_self
  · have hafter := (mem_cons.mp hafter).resolve_left hji
    have hno := hnone j (mem_reverse.mp hafter)
    rw [Bool.not_eq_true', decide_eq_false_iff_not] at hno
    exact absurd hj hno

/-- The two ways of `bget`. -/
theorem BioInv.scan {s : BioSys} (h : BioInv s) {dev blockno : Nat} {i : Fin NBUF} {c : Cache}
    (hscan : s.cache.bgetScan dev blockno = some (i, c)) :
    (s.buf i).Is dev blockno ∧ c = s.cache.set i { s.buf i with refcnt := (s.buf i).refcnt + 1 } ∨
    (s.buf i).refcnt = 0 ∧ (∀ j, ¬ (s.buf j).Is dev blockno) ∧
      (∀ j, (s.buf j).refcnt = 0 → j ≠ i → s.Newer j i) ∧
      c = s.cache.set i
        { s.buf i with dev := dev, blockno := blockno, valid := false, refcnt := 1 } := by
  unfold Cache.bgetScan at hscan
  split at hscan
  · rename_i j hfind
    cases hscan
    have hi := find?_some hfind
    exact Or.inl ⟨of_decide_eq_true hi, rfl⟩
  · rename_i hnone
    split at hscan
    · rename_i j hfind
      cases hscan
      have hi := find?_some hfind
      refine Or.inr ⟨of_decide_eq_true hi, ?_, h.oldest hfind, rfl⟩
      intro j
      obtain ⟨b, habs, _⟩ := h.list
      rw [habs.forward (Nat.le_refl NBUF), find?_eq_none] at hnone
      have hj := hnone j (b.mem_lru j)
      rwa [decide_eq_true_eq] at hj
    · cases hscan

theorem BioInv.step_eff {s t : BioSys} {a : BioAct} (h : BioInv s) (hstep : s.step a = some t) :
    BioEff s t := by
  cases a with
  | bget who dev blockno =>
    simp only [BioSys.step] at hstep
    split at hstep
    · rename_i i c hscan
      cases hstep
      rcases h.scan hscan with ⟨hi, rfl⟩ | ⟨hi, hno, hlru, rfl⟩
      · exact .hit who dev blockno i hi
      · exact .recycle who dev blockno i hi hno hlru
    · cases hstep
  | acquiresleep who i =>
    obtain ⟨hr, ⟨⟩⟩ := Option.ite_none_right_eq_some.mp hstep
    exact .acquire who i hr.1 hr.2
  | read who i data =>
    obtain ⟨_, ⟨⟩⟩ := Option.ite_none_right_eq_some.mp hstep
    exact .read i data
  | releasesleep who i =>
    obtain ⟨hr, ⟨⟩⟩ := Option.ite_none_right_eq_some.mp hstep
    exact .release who i hr.1 hr.2
  | drop who i =>
    simp only [BioSys.step, BioSys.buf, Cache.buf_dropRef, if_pos] at hstep
    obtain ⟨hr, hstep⟩ := Option.ite_none_right_eq_some.mp hstep
    split at hstep
    · rename_i hz
      cases hstep
      exact .dropZero who i hr hz
    · rename_i hz
      cases hstep
      exact .drop who i hr hz
  | bpin i =>
    cases hstep
    exact .pin i
  | bunpin i =>
    obtain ⟨hi, ⟨⟩⟩ := Option.ite_none_right_eq_some.mp hstep
    exact .unpin i hi

/-! ## The step lemma -/

/-- Buffer `i` becomes `x`, and only its references and pins change. -/
structure BufStep (s t : BioSys) (i : Fin NBUF) (x : Buf) : Prop where
  unique : ∀ j, j ≠ i → x.dev ≠ 0 → ¬ x.Is (s.buf j).dev (s.buf j).blockno
  count : ∀ j phase, j ≠ i → t.count j phase = s.count j phase
  pins : ∀ j, j ≠ i → t.pins j = s.pins j
  refcnt : x.refcnt = BitVec.ofNat 32 (t.references i)
  lock : t.count i .holding = if x.lock = none then 0 else 1

section step

variable {s : BioSys} (h : BioInv s) {t : BioSys} {who : Nat} {i : Fin NBUF} {x : Buf}

include h

theorem BioInv.of_buf (hlist : ∃ b : Bcache, t.cache.Abs b ∧ b.lru.Pairwise t.Newer)
    (hclock : ∀ j, t.stamp j ≤ t.clock) (hbuf : ∀ j, t.buf j = if j = i then x else s.buf j)
    (hb : BufStep s t i x) : BioInv t := by
  refine ⟨hlist, hclock, ?_, ?_, ?_⟩
  · intro j k hj hjk
    rw [hbuf j] at hj hjk
    rw [hbuf k] at hjk
    by_cases hji : j = i
    · rw [if_pos hji] at hj hjk
      by_cases hki : k = i
      · rw [hji, hki]
      · rw [if_neg hki] at hjk
        exact absurd hjk (hb.unique k hki hj)
    · rw [if_neg hji] at hj hjk
      by_cases hki : k = i
      · rw [if_pos hki] at hjk
        have hdev : x.dev ≠ 0 := hjk.1 ▸ hj
        exact absurd ⟨hjk.1.symm, hjk.2.symm⟩ (hb.unique j hji hdev)
      · rw [if_neg hki] at hjk
        exact h.unique j k hj hjk
  · intro j
    rw [hbuf j]
    split
    · rename_i hji
      rw [hji]
      exact hb.refcnt
    · rename_i hji
      unfold BioSys.references
      rw [hb.count j _ hji, hb.count j _ hji, hb.count j _ hji, hb.pins j hji]
      exact h.refcnt j
  · intro j
    rw [hbuf j]
    split
    · rename_i hji
      rw [hji]
      exact hb.lock
    · rename_i hji
      rw [hb.count j _ hji]
      exact h.lock j

/-- The block of buffer `i` is in no other buffer. -/
theorem BioInv.only (j : Fin NBUF) (hj : j ≠ i) (hi : (s.buf i).dev ≠ 0) :
    ¬ (s.buf i).Is (s.buf j).dev (s.buf j).blockno :=
  fun his => hj (h.unique i j hi his).symm

/-- The pointers and the order stay as they are. -/
theorem BioInv.of_set (hcache : t.cache = s.cache.set i x) (hclock : t.clock = s.clock)
    (hstamp : t.stamp = s.stamp) (hb : BufStep s t i x) : BioInv t := by
  refine h.of_buf ?_ ?_ ?_ hb
  · obtain ⟨b, habs, hsorted⟩ := h.list
    refine ⟨b.set i x, ?_, ?_⟩
    · rw [hcache]
      exact habs.set i x
    · unfold BioSys.Newer
      rw [hstamp]
      exact hsorted
  · rw [hclock, hstamp]
    exact h.clock
  · intro j
    unfold BioSys.buf
    rw [hcache]
    exact s.cache.buf_set i x j

/-- One more call has a reference to buffer `i`. -/
theorem BioInv.get (hx : x.refcnt = (s.buf i).refcnt + 1#32) (hlock : x.lock = (s.buf i).lock)
    (hunique : ∀ j, j ≠ i → x.dev ≠ 0 → ¬ x.Is (s.buf j).dev (s.buf j).blockno) :
    BioInv { s.setBuf i x with refs := ⟨who, i, .waiting⟩ :: s.refs } := by
  have hcount := BioSys.count_of_cons
    (t := { s.setBuf i x with refs := ⟨who, i, .waiting⟩ :: s.refs }) rfl
  refine h.of_set rfl rfl rfl ⟨hunique, ?_, fun _ _ => rfl, ?_, ?_⟩
  · intro j phase hj
    rw [hcount, if_neg fun hx => hj hx.1.symm]
    rfl
  · rw [hx, h.refcnt i, ← BitVec.ofNat_add]
    refine congrArg _ (Eq.symm ?_)
    exact BioSys.references_of_cons (r := ⟨who, i, .waiting⟩) rfl rfl
  · rw [hlock, hcount]
    simpa using h.lock i

/-- A call with a reference takes or gives back the lock of buffer `i`. -/
theorem BioInv.goto {p q : Phase} {l : Option Nat} (hr : ⟨who, i, p⟩ ∈ s.refs)
    (hlock : s.count i .holding + (if q = .holding then 1 else 0) =
      (if l = none then 0 else 1) + if p = .holding then 1 else 0) :
    BioInv ((s.setBuf i { s.buf i with lock := l }).goto ⟨who, i, p⟩ q) := by
  have hcount := BioSys.count_of_goto hr
    (t := (s.setBuf i { s.buf i with lock := l }).goto ⟨who, i, p⟩ q) rfl
  have hh := hcount i .holding
  simp only [true_and] at hh
  refine h.of_set rfl rfl rfl ⟨h.only, ?_, fun _ _ => rfl, ?_, ?_⟩
  · intro j phase hj
    have hj' := hcount j phase
    rwa [if_neg fun hx => hj hx.1.symm, if_neg fun hx => hj hx.1.symm] at hj'
  · refine (h.refcnt i).trans (congrArg _ (Eq.symm ?_))
    exact BioSys.references_of_goto hr rfl rfl
  · dsimp only
    omega

/-- The calls stay as they are; `bpin` and `bunpin` change the pins. -/
theorem BioInv.keep {m : Nat}
    (hx : x.refcnt + BitVec.ofNat 32 (s.pins i) = (s.buf i).refcnt + BitVec.ofNat 32 m)
    (hlock : x.lock = (s.buf i).lock) (hdev : x.dev = (s.buf i).dev)
    (hblockno : x.blockno = (s.buf i).blockno) :
    BioInv { s.setBuf i x with pins := update s.pins i m } := by
  have hrefcnt := h.refcnt i
  refine h.of_set rfl rfl rfl ⟨?_, fun _ _ _ => rfl, fun _ hj => update_of_ne hj _ _, ?_, ?_⟩
  · intro j hj hne his
    unfold Buf.Is at his
    rw [hdev, hblockno] at his
    exact h.only j hj (hdev ▸ hne) his
  · have href := BioSys.references_of_pins
      (t := { s.setBuf i x with pins := update s.pins i m }) (s := s) rfl i
    dsimp only at href
    rw [update_self] at href
    bv_omega
  · rw [hlock]
    exact h.lock i

/-- The references after `brelse` drops one. -/
theorem BioInv.of_dropRef (hr : ⟨who, i, .releasing⟩ ∈ s.refs)
    (hcache : t.cache = s.cache.dropRef i)
    (hlist : ∃ b : Bcache, t.cache.Abs b ∧ b.lru.Pairwise t.Newer)
    (hclock : ∀ j, t.stamp j ≤ t.clock)
    (hrefs : t.refs = s.refs.erase ⟨who, i, .releasing⟩) (hpins : t.pins = s.pins) : BioInv t := by
  have hcount := BioSys.count_of_erase hr hrefs
  have hh := hcount i .holding
  simp only [true_and, reduceCtorEq, if_false, Nat.add_zero] at hh
  have hrefcnt := h.refcnt i
  refine h.of_buf (x := { s.buf i with refcnt := (s.buf i).refcnt - 1 }) hlist hclock ?_
    ⟨h.only, ?_, fun j _ => congrFun hpins j, ?_, ?_⟩
  · intro j
    unfold BioSys.buf
    rw [hcache]
    exact s.cache.buf_dropRef i j
  · intro j phase hj
    have hj' := hcount j phase
    rw [if_neg fun hx => hj hx.1.symm] at hj'
    exact hj'.symm
  · show (s.buf i).refcnt - 1 = _
    have href := BioSys.references_of_erase hr hrefs hpins
    bv_omega
  · rw [← hh]
    exact h.lock i

theorem BioInv.dropZero (hr : ⟨who, i, .releasing⟩ ∈ s.refs) (hz : (s.buf i).refcnt - 1 = 0) :
    BioInv { s with
      refs := s.refs.erase ⟨who, i, .releasing⟩
      cache := s.cache.dropRef i
      clock := s.clock + 1
      stamp := update s.stamp i (s.clock + 1) } := by
  have hother : ∀ j, j ≠ i → update s.stamp i (s.clock + 1) j = s.stamp j :=
    fun _ hj => update_of_ne hj _ _
  refine h.of_dropRef hr rfl ?_ ?_ rfl rfl
  · obtain ⟨b, habs, hsorted⟩ := h.list
    obtain ⟨b', habs', hlru⟩ := habs.dropRef i
    have hlru := hlru.trans (if_pos hz)
    refine ⟨b', habs', ?_⟩
    have hne : ∀ j ∈ b.lru.erase i, j ≠ i := fun j hj =>
      ((b.lru_perm.nodup_iff.mpr (nodup_finRange NBUF)).mem_erase_iff.mp hj).1
    -- `i` has the newest stamp, the others have theirs and their order
    rw [hlru, pairwise_cons]
    refine ⟨?_, (hsorted.sublist erase_sublist).imp_of_mem ?_⟩
    · intro j hj
      refine Or.inl ?_
      dsimp only
      rw [update_self, hother j (hne j hj)]
      exact Nat.lt_succ_of_le (h.clock j)
    · intro j k hj hk hjk
      unfold BioSys.Newer
      dsimp only
      rw [hother j (hne j hj), hother k (hne k hk)]
      exact hjk
  · intro j
    dsimp only
    by_cases hj : j = i
    · rw [hj, update_self]
    · rw [hother j hj]
      exact Nat.le_succ_of_le (h.clock j)

theorem BioInv.drop (hr : ⟨who, i, .releasing⟩ ∈ s.refs) (hz : (s.buf i).refcnt - 1 ≠ 0) :
    BioInv { s with refs := s.refs.erase ⟨who, i, .releasing⟩, cache := s.cache.dropRef i } := by
  refine h.of_dropRef hr rfl ?_ h.clock rfl rfl
  obtain ⟨b, habs, hsorted⟩ := h.list
  obtain ⟨b', habs', hlru⟩ := habs.dropRef i
  refine ⟨b', habs', ?_⟩
  rw [hlru.trans (if_neg hz)]
  exact hsorted

theorem BioInv.step {a : BioAct} (hstep : s.step a = some t) : BioInv t := by
  cases h.step_eff hstep with
  | hit who dev blockno i hi => exact h.get rfl rfl h.only
  | recycle who dev blockno i hi hno hlru =>
    refine h.get ?_ rfl ?_
    · rw [hi]
      rfl
    · exact fun j _ _ his => hno j ⟨his.1.symm, his.2.symm⟩
  | acquire who i hr hfree =>
    refine h.goto hr ?_
    rw [h.lock i, if_pos hfree]
    rfl
  | read i data =>
    have hkeep := h.keep (x := { s.buf i with valid := true, data := data }) rfl rfl rfl rfl
    rwa [update_eq_self] at hkeep
  | release who i hr hlock =>
    refine h.goto hr ?_
    rw [h.lock i, if_neg (by simp [hlock])]
    rfl
  | dropZero who i hr hz => exact h.dropZero hr hz
  | drop who i hr hz => exact h.drop hr hz
  | pin i =>
    refine h.keep ?_ rfl rfl rfl
    show (s.buf i).refcnt + 1 + _ = (s.buf i).refcnt + _
    bv_omega
  | unpin i hi =>
    refine h.keep ?_ rfl rfl rfl
    show (s.buf i).refcnt - 1 + _ = (s.buf i).refcnt + _
    bv_omega

end step

/-! ## Runs -/

/-- `binit` puts each buffer at the front. -/
theorem foldl_insert_rep (xs ys : List (Fin NBUF)) (L : Links (Fin NBUF)) (h : Rep L ys)
    (hnodup : (xs.reverse ++ ys).Nodup) : Rep (xs.foldl Links.insert L) (xs.reverse ++ ys) := by
  induction xs generalizing ys L with
  | nil => exact h
  | cons x xs ih =>
    rw [reverse_cons, append_assoc] at hnodup ⊢
    refine ih (x :: ys) (L.insert x) (h.insert ?_) hnodup
    exact (nodup_cons.mp (nodup_append.mp hnodup).2.1).1

theorem BioInv.init : BioInv .init := by
  refine ⟨?_, fun _ => Nat.le_refl 0, fun i j hdev => absurd rfl hdev, fun _ => rfl, fun _ => rfl⟩
  have hnodup : ((finRange NBUF).reverse ++ []).Nodup := by
    exact nodup_reverse.mpr (nodup_finRange NBUF)
  refine ⟨⟨Cache.binit.buf, (finRange NBUF).reverse, reverse_perm _⟩, ⟨rfl, ?_⟩, ?_⟩
  · have hrep := foldl_insert_rep (finRange NBUF) [] Links.empty .empty hnodup
    rwa [append_nil] at hrep
  · rw [pairwise_reverse]
    exact (pairwise_lt_finRange NBUF).imp fun hlt => Or.inr ⟨rfl, rfl, hlt⟩

/-- A buffer in use keeps its block. -/
theorem BioEff.keeps {s t : BioSys} (h : BioEff s t) {i : Fin NBUF} (hi : (s.buf i).refcnt ≠ 0) :
    (t.buf i).Is (s.buf i).dev (s.buf i).blockno := by
  have hset : ∀ (j : Fin NBUF) (x : Buf), x.Is (s.buf j).dev (s.buf j).blockno →
      ((s.cache.set j x).buf i).Is (s.buf i).dev (s.buf i).blockno := by
    intro j x hx
    rw [Cache.buf_set]
    split
    · rename_i hij
      rw [hij]
      exact hx
    · exact ⟨rfl, rfl⟩
  have hdrop : ∀ j, ((s.cache.dropRef j).buf i).Is (s.buf i).dev (s.buf i).blockno := by
    intro j
    rw [Cache.buf_dropRef, ← Cache.buf_set]
    exact hset j _ ⟨rfl, rfl⟩
  cases h with
  | recycle who dev blockno j hj hno hlru =>
    have hne : i ≠ j := by
      rintro rfl
      exact hi hj
    unfold BioSys.buf BioSys.setBuf
    rw [Cache.buf_set, if_neg hne]
    exact ⟨rfl, rfl⟩
  | dropZero _ j | drop _ j => exact hdrop j
  | hit _ _ _ j | acquire _ j | read j | release _ j | pin j | unpin j => exact hset j _ ⟨rfl, rfl⟩

theorem bioInv_of_run {acts : List BioAct} {s t : BioSys} (h : BioInv s)
    (hrun : s.run acts = some t) : BioInv t := by
  induction acts generalizing s with
  | nil =>
    cases hrun
    exact h
  | cons a acts ih =>
    simp only [BioSys.run] at hrun
    split at hrun
    · rename_i u hstep
      exact ih (h.step hstep) hrun
    · cases hrun

/-- In every run: each buffer is on the list once, in both directions, and those not in use are in the
    order in which `brelse` last released them; a block is in one buffer; `refcnt` counts the calls
    with a reference, waiting or not, and the pins, if these are fewer than `2^32`. In every step from
    there, a buffer in use keeps its block; and `bget` takes the buffer of the block or the unused one
    that was released first. -/
theorem buffer_cache (acts : List BioAct) (s : BioSys) (hrun : BioSys.init.run acts = some s) :
    (∃ xs : List (Fin NBUF), xs.Perm (finRange NBUF) ∧
      (∀ fuel, NBUF ≤ fuel →
        s.cache.links.forward fuel = xs ∧ s.cache.links.backward fuel = xs.reverse) ∧
      (xs.filter fun i => (s.buf i).refcnt = 0).Pairwise s.Newer) ∧
    (∀ i j, (s.buf i).dev ≠ 0 → (s.buf i).Is (s.buf j).dev (s.buf j).blockno → i = j) ∧
    (∀ i, s.references i < 2 ^ 32 → (s.buf i).refcnt.toNat = s.references i) ∧
    ∀ a t, s.step a = some t →
      (∀ i, (s.buf i).refcnt ≠ 0 → (t.buf i).Is (s.buf i).dev (s.buf i).blockno) ∧
      ∀ who dev blockno, a = .bget who dev blockno →
        ∃ i, t.refs = ⟨who, i, .waiting⟩ :: s.refs ∧ (t.buf i).Is dev blockno ∧
          ((s.buf i).Is dev blockno ∨
            (s.buf i).refcnt = 0 ∧ ∀ j, (s.buf j).refcnt = 0 → j ≠ i → s.Newer j i) := by
  have h := bioInv_of_run .init hrun
  obtain ⟨b, habs, hsorted⟩ := h.list
  refine ⟨⟨b.lru, b.lru_perm, ?_, hsorted.sublist filter_sublist⟩, h.unique, ?_, ?_⟩
  · exact fun fuel hfuel => ⟨habs.forward hfuel, habs.backward hfuel⟩
  · intro i hi
    rw [h.refcnt i, BitVec.toNat_ofNat, Nat.mod_eq_of_lt hi]
  · intro a t hstep
    refine ⟨fun i hi => (h.step_eff hstep).keeps hi, ?_⟩
    rintro who dev blockno rfl
    simp only [BioSys.step] at hstep
    split at hstep
    · rename_i i c hscan
      cases hstep
      refine ⟨i, rfl, ?_⟩
      unfold BioSys.buf
      rcases h.scan hscan with ⟨hi, rfl⟩ | ⟨hi, _, hlru, rfl⟩
      · rw [Cache.buf_set, if_pos rfl]
        exact ⟨hi, Or.inl hi⟩
      · rw [Cache.buf_set, if_pos rfl]
        exact ⟨⟨rfl, rfl⟩, Or.inr ⟨hi, hlru⟩⟩
    · cases hstep

/-- Block 7 is released while another call waits for it; both are done, and block 8 comes. -/
theorem buffer_cache_two :
    ∃ s, BioSys.init.run [.bget 1 1 7, .acquiresleep 1 0, .bget 2 1 7, .releasesleep 1 0,
        .drop 1 0, .acquiresleep 2 0, .bpin 0, .releasesleep 2 0, .drop 2 0, .bunpin 0,
        .bget 1 1 8] = some s ∧
      ∀ i, s.references i < 2 ^ 32 ∧ (s.buf i).refcnt.toNat = s.references i := by
  have hrun : (BioSys.init.run [.bget 1 1 7, .acquiresleep 1 0, .bget 2 1 7, .releasesleep 1 0,
      .drop 1 0, .acquiresleep 2 0, .bpin 0, .releasesleep 2 0, .drop 2 0, .bunpin 0,
      .bget 1 1 8]).any (fun s => decide (∀ i, s.references i < 2 ^ 32)) = true := by decide +kernel
  obtain ⟨s, hs, hfew⟩ := (Option.any_eq_true _ _).mp hrun
  have hfew := of_decide_eq_true hfew
  exact ⟨s, hs, fun i => ⟨hfew i, (buffer_cache _ s hs).2.2.1 i (hfew i)⟩⟩

/-! ## Too many references -/

theorem BioSys.run_append (s : BioSys) (as bs : List BioAct) :
    s.run (as ++ bs) = (s.run as).bind fun t => t.run bs := by
  induction as generalizing s with
  | nil => rfl
  | cons a as ih =>
    simp only [cons_append, run]
    split
    · exact ih _
    · rfl

/-- Buffer `i` with `k` more pins. -/
def BioSys.pinned (s : BioSys) (i : Fin NBUF) (k : Nat) : BioSys :=
  { s.setBuf i { s.buf i with refcnt := (s.buf i).refcnt + BitVec.ofNat 32 k } with
    pins := update s.pins i (s.pins i + k) }

theorem BioSys.pinned_zero (s : BioSys) (i : Fin NBUF) : s.pinned i 0 = s := by
  simp [pinned, setBuf, Cache.set, buf]

theorem BioSys.pinned_pinned (s : BioSys) (i : Fin NBUF) (j k : Nat) :
    (s.pinned i j).pinned i k = s.pinned i (j + k) := by
  simp [pinned, setBuf, Cache.set, buf, BitVec.ofNat_add, BitVec.add_assoc, Nat.add_assoc]

theorem BioSys.run_bpin (s : BioSys) (i : Fin NBUF) (k : Nat) :
    s.run (replicate k (.bpin i)) = some (s.pinned i k) := by
  induction k generalizing s with
  | zero =>
    rw [pinned_zero]
    rfl
  | succ k ih =>
    rw [replicate_succ, Nat.add_comm k 1, ← pinned_pinned]
    exact ih (s.pinned i 1)

/-- A call has block 7, and then so many pins come to its buffer that `refcnt` is zero. -/
def wrapRun : List BioAct := [.bget 1 1 7, .acquiresleep 1 0] ++ replicate (2 ^ 32 - 1) (.bpin 0)

/-- The buffer has `2^32` references and `refcnt` is zero; `bget` gives it to another block. -/
theorem bpin_wraps : ∃ s t, BioSys.init.run wrapRun = some s ∧ s.references 0 = 2 ^ 32 ∧
    (s.buf 0).refcnt = 0 ∧ s.step (.bget 2 1 8) = some t ∧ ⟨1, 0, .holding⟩ ∈ t.refs ∧
    (s.buf 0).Is 1 7 ∧ (t.buf 0).Is 1 8 := by
  have hrun : (BioSys.init.run [.bget 1 1 7, .acquiresleep 1 0]).any (fun s₀ =>
      let s := s₀.pinned 0 (2 ^ 32 - 1)
      (s.step (.bget 2 1 8)).any fun t => decide (s.references 0 = 2 ^ 32 ∧
        (s.buf 0).refcnt = 0 ∧ ⟨1, 0, .holding⟩ ∈ t.refs ∧ (s.buf 0).Is 1 7 ∧ (t.buf 0).Is 1 8)) =
      true := by decide +kernel
  obtain ⟨s₀, hs₀, hwrap⟩ := (Option.any_eq_true _ _).mp hrun
  obtain ⟨t, ht, hwrap⟩ := (Option.any_eq_true _ _).mp hwrap
  obtain ⟨hrefs, hzero, hheld, hold, hnew⟩ := of_decide_eq_true hwrap
  refine ⟨s₀.pinned 0 (2 ^ 32 - 1), t, ?_, hrefs, hzero, ht, hheld, hold, hnew⟩
  rw [wrapRun, BioSys.run_append, hs₀, Option.bind_some, BioSys.run_bpin]

end Xv6
