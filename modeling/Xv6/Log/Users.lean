/-
  Processes that use the buffer cache and the log.

  Up to `NPROC` processes call `bread`, `log_write`, `brelse`, `begin_op` and `end_op` in any
  interleaving of their atomic actions; an operation logs at most `MAXOPBLOCKS` distinct blocks.  A
  panic carries the state in which it happens.

  `CacheOk` says what the buffers are like: a block is in one buffer, `refcnt` counts the references of
  processes and the pin, and a pinned block keeps its buffer.
-/
import Xv6.Log.Spec
import Xv6.Lib.Threads
import Mathlib.Algebra.BigOperators.Ring.Finset
import Mathlib.Algebra.Order.BigOperators.Group.Finset
import Mathlib.Data.Fintype.BigOperators

namespace Xv6.Buffers

open Lib Finset Function
open Lib.Prog hiding update

/-! ## The system -/

/-- What a process knows of its own calls. -/
structure Local where
  /-- In an operation, the blocks that it has logged. -/
  op : Option (Finset Nat)
  held : List (Fin NBUF)
  /-- In a call of `bread` or `brelse`. -/
  busy : Bool

/-- The process has a buffer or is about to get or to give back one. -/
def Local.holds (x : Local) : Bool := x.busy || !x.held.isEmpty

structure Sys (n : Nat) where
  io : Io
  loc : Fin n → Local

/-- Programs whose panics carry the state. -/
abbrev SysM (n : Nat) := Prog (Panic × Sys n) (Sys n)

variable {n : Nat} {α β : Type}

/-- A program of the buffer cache and the log. -/
def lift : IoM α → SysM n α
  | .ret a => .ret a
  | .act f k => .act
      (fun s => match f s.io with
        | .ok b io => .ok b { s with io := io }
        | .panic m => .panic (m, s)
        | .block => .block)
      fun b => lift (k b)

/-- A process changes what it knows. -/
def note (t : Fin n) (g : Local → Local) : SysM n Unit :=
  Prog.update fun s => { s with loc := update s.loc t (g (s.loc t)) }

inductive Call where
  | beginOp
  | bread (b : Nat)
  | modify (i : Fin NBUF) (f : Block → Block)
  | logWrite (i : Fin NBUF)
  | brelse (i : Fin NBUF)
  | endOp

/-- The file system reads no block of the log, logs what it holds, and ends an operation without
    buffers. -/
def ready (t : Fin n) (x : Call) (s : Sys n) : Bool :=
  match x with
  | .beginOp => (s.loc t).op.isNone
  | .bread b => decide (Home s.io.log.start b)
  | .modify i _ => decide (i ∈ (s.loc t).held)
  | .logWrite i =>
    decide (i ∈ (s.loc t).held) &&
      (s.loc t).op.any fun written => decide ((insert (s.io.buf i).blockno written).card ≤ MAXOPBLOCKS)
  | .brelse i => decide (i ∈ (s.loc t).held)
  | .endOp => (s.loc t).op.isSome && (s.loc t).held.isEmpty

def code (t : Fin n) : Call → SysM n Unit
  | .beginOp => do
    lift beginOp
    note t fun x => { x with op := some ∅ }
  | .bread b => do
    note t fun x => { x with busy := true }
    let i ← lift (bread t ROOTDEV b)
    note t fun x => { x with held := i :: x.held, busy := false }
  | .modify i f => lift (modifyData i f)
  | .logWrite i => do
    let b ← look fun s => (s.io.buf i).blockno
    lift (logWrite i)
    note t fun x => { x with op := x.op.map (insert b) }
  | .brelse i => do
    note t fun x => { x with held := x.held.erase i, busy := true }
    lift (brelse t i)
    note t fun x => { x with busy := false }
  | .endOp => do
    lift (endOp t)
    note t fun x => { x with op := none }

def machine (n : Nat) : Machine (Fin n) (Panic × Sys n) (Sys n) Call Unit where
  code := code
  ready := ready

abbrev System (n : Nat) := Conf (Fin n) (Panic × Sys n) (Sys n) Unit

/-- The processes of a system that has just booted. -/
def start (io : Io) : System n where
  shared := ⟨io, fun _ => ⟨none, [], false⟩⟩
  todo := fun _ => .ret ()

/-- Nothing is cached twice, referenced or logged. -/
structure Fresh (io : Io) : Prop where
  uniq : io.Uniq
  refcnt : ∀ i, (io.buf i).refcnt = 0
  log : io.log = ⟨io.log.start, 0, false, []⟩

/-- No process has a buffer. -/
def Sys.Free (s : Sys n) : Prop := ∀ t, (s.loc t).holds = false

instance (s : Sys n) : Decidable s.Free := inferInstanceAs (Decidable (∀ _, _))

/-! ## The cache -/

/-- `u` counts the references that processes have, `P` lists the pinned blocks. -/
structure CacheOk (u : Fin NBUF → Nat) (P : List Nat) (s : Io) : Prop where
  uniq : s.Uniq
  refcnt : ∀ i, (s.buf i).refcnt.toNat = u i + (s.buf i).pins P
  pinned : ∀ b ∈ P, ∃ i, (s.buf i).Is ROOTDEV b

section cache

variable {m : Panic} {u : Fin NBUF → Nat} {P : List Nat} {s t : Io} {i : Fin NBUF} {b : Nat}

theorem uniq_setBuf (h : s.Uniq) {x : Buf}
    (hx : ∀ c, x.Is ROOTDEV c → ∀ j, j ≠ i → ¬ (s.buf j).Is ROOTDEV c) : (s.setBuf i x).Uniq := by
  intro j k c hj hk
  rw [Io.setBuf_buf] at hj hk
  by_cases hji : j = i
  · by_cases hki : k = i
    · rw [hji, hki]
    · rw [if_pos hji] at hj
      rw [if_neg hki] at hk
      exact absurd hk (hx c hj k hki)
  · rw [if_neg hji] at hj
    by_cases hki : k = i
    · rw [if_pos hki] at hk
      exact absurd hj (hx c hk j hji)
    · rw [if_neg hki] at hk
      exact h j k c hj hk

theorem is_setBuf {x : Buf} (hx : ∀ c, x.Is ROOTDEV c ↔ (s.buf i).Is ROOTDEV c) (j : Fin NBUF)
    (c : Nat) : ((s.setBuf i x).buf j).Is ROOTDEV c ↔ (s.buf j).Is ROOTDEV c := by
  rw [Io.setBuf_buf]
  split
  · rename_i hj
    rw [hj]
    exact hx c
  · rfl

theorem lock_setBuf {x : Buf} (hx : x.lock = (s.buf i).lock) (j : Fin NBUF) :
    ((s.setBuf i x).buf j).lock = (s.buf j).lock := by
  rw [Io.setBuf_buf]
  split
  · rename_i hj
    rw [hj]
    exact hx
  · rfl

/-- Buffer `i` gets another count and the rest stays. -/
theorem CacheOk.setRefcnt {P' : List Nat} {u' : Fin NBUF → Nat} {x : Buf} (h : CacheOk u P s)
    (hx : ∀ c, x.Is ROOTDEV c ↔ (s.buf i).Is ROOTDEV c) (hu : ∀ j, j ≠ i → u' j = u j)
    (hcount : x.refcnt.toNat = u' i + x.pins P')
    (hP : ∀ j, j ≠ i → (s.buf j).pins P' = (s.buf j).pins P)
    (hpinned : ∀ c ∈ P', c ∈ P ∨ (s.buf i).Is ROOTDEV c) : CacheOk u' P' (s.setBuf i x) := by
  have his := is_setBuf hx
  refine ⟨?_, ?_, ?_⟩
  · intro j k c hj hk
    exact h.uniq j k c ((his j c).mp hj) ((his k c).mp hk)
  · intro j
    rw [Io.setBuf_buf]
    split
    · rename_i hj
      rw [hj]
      exact hcount
    · rename_i hj
      rw [hu j hj, hP j hj]
      exact h.refcnt j
  · intro c hc
    rcases hpinned c hc with hc | hc
    · obtain ⟨j, hj⟩ := h.pinned c hc
      exact ⟨j, (his j c).mpr hj⟩
    · exact ⟨i, (his i c).mpr hc⟩

/-- One more reference to buffer `i`. -/
def add (u : Fin NBUF → Nat) (i : Fin NBUF) : Fin NBUF → Nat := update u i (u i + 1)

/-- What `bget` does under `bcache.lock`. -/
structure Scanned (u : Fin NBUF → Nat) (P : List Nat) (b : Nat) (s : Io) (i : Fin NBUF) (t : Io) : Prop where
  ok : CacheOk (add u i) P t
  is : (t.buf i).Is ROOTDEV b
  keep : ∀ j c, u j ≠ 0 → (s.buf j).Is ROOTDEV c → (t.buf j).Is ROOTDEV c
  lock : ∀ j, (t.buf j).lock = (s.buf j).lock
  log : t.log = s.log

theorem CacheOk.scan (h : CacheOk u P s) (hfew : ∀ i, u i ≤ 2 * NPROC)
    (hscan : bgetScan ROOTDEV b s = .ok i t) :
    Scanned u P b s i t := by
  rcases bgetScan_cases ROOTDEV b s with ⟨j, hj, heq⟩ | ⟨hnone, ⟨j, hj, heq⟩ | ⟨_, heq⟩⟩
  · rw [heq] at hscan
    cases hscan
    have hcount := h.refcnt i
    refine ⟨?_, ?_, ?_, ?_, rfl⟩
    · refine h.setRefcnt (fun _ => Iff.rfl) (fun k hk => update_of_ne hk _ _) ?_
        (fun _ _ => rfl) fun c hc => Or.inl hc
      show ((s.buf i).refcnt + 1).toNat = update u i (u i + 1) i + (s.buf i).pins P
      have hi := hfew i
      have hpins := (s.buf i).pins_le P
      unfold NPROC at hi
      rw [update_self]
      bv_omega
    · rw [Io.setBuf_buf_same]
      exact hj
    · intro k c _ hk
      refine (is_setBuf ?_ k c).mpr hk
      exact fun _ => Iff.rfl
    · exact lock_setBuf rfl
  · rw [heq] at hscan
    cases hscan
    have hcount := h.refcnt i
    have hunpinned : ∀ c ∈ P, ¬ (s.buf i).Is ROOTDEV c := by
      intro c hc his
      rw [Buf.pins_of_mem his hc] at hcount
      bv_omega
    refine ⟨⟨?_, ?_, ?_⟩, ?_, ?_, ?_, rfl⟩
    · refine uniq_setBuf h.uniq ?_
      rintro c ⟨_, rfl⟩ k _
      exact hnone k
    · intro k
      rw [Io.setBuf_buf]
      split
      · rename_i hki
        have hb : b ∉ P := by
          intro hb
          obtain ⟨l, hl⟩ := h.pinned b hb
          exact hnone l hl
        rw [hki, Buf.pins_of_not_mem rfl hb]
        show 1 = update u i (u i + 1) i + 0
        rw [update_self]
        bv_omega
      · rename_i hki
        rw [add, update_of_ne hki]
        exact h.refcnt k
    · intro c hc
      obtain ⟨k, hk⟩ := h.pinned c hc
      refine ⟨k, ?_⟩
      rw [Io.setBuf_buf, if_neg]
      · exact hk
      · rintro rfl
        exact hunpinned c hc hk
    · rw [Io.setBuf_buf_same]
      exact ⟨rfl, rfl⟩
    · intro k c hk his
      rw [Io.setBuf_buf, if_neg]
      · exact his
      · rintro rfl
        bv_omega
    · exact lock_setBuf rfl
  · rw [heq] at hscan
    cases hscan

/-- Without a buffer for the block, every buffer is in use and none has the block. -/
theorem bgetScan_panic (h : bgetScan ROOTDEV b s = .panic m) :
    m = .bgetNoBuffers ∧ (∀ j, ¬ (s.buf j).Is ROOTDEV b) ∧ ∀ j, (s.buf j).refcnt ≠ 0 := by
  rcases bgetScan_cases ROOTDEV b s with ⟨j, hj, heq⟩ | ⟨hnone, ⟨j, hj, heq⟩ | ⟨hall, heq⟩⟩
  · rw [heq] at h
    cases h
  · rw [heq] at h
    cases h
  · rw [heq] at h
    cases h
    exact ⟨rfl, hnone, hall⟩

theorem CacheOk.pinned_of_refcnt (h : CacheOk u P s) (hu : u i = 0) (hi : (s.buf i).refcnt ≠ 0) :
    (s.buf i).dev = ROOTDEV ∧ (s.buf i).blockno ∈ P := by
  by_contra hno
  have hcount := h.refcnt i
  rw [Buf.pins, if_neg hno] at hcount
  bv_omega

/-- If nothing but pins keeps the buffers, there are at least as many pinned blocks. -/
theorem CacheOk.le_pinned (h : CacheOk u P s) (hu : ∀ i, u i = 0) (hall : ∀ i, (s.buf i).refcnt ≠ 0) :
    NBUF ≤ P.length := by
  have hpin := fun i => h.pinned_of_refcnt (hu i) (hall i)
  have hmaps : ∀ i ∈ (univ : Finset (Fin NBUF)), (s.buf i).blockno ∈ P.toFinset := by
    intro i _
    exact List.mem_toFinset.mpr (hpin i).2
  have hinj : ∀ i ∈ (univ : Finset (Fin NBUF)), ∀ j ∈ (univ : Finset (Fin NBUF)),
      (s.buf i).blockno = (s.buf j).blockno → i = j := by
    intro i _ j _ hij
    exact h.uniq i j (s.buf i).blockno ⟨(hpin i).1, rfl⟩ ⟨(hpin j).1, hij.symm⟩
  have hcard := card_le_card_of_injOn _ hmaps hinj
  exact hcard.trans (List.toFinset_card_le P)

/-- As many pinned blocks as buffers leave no buffer for another block. -/
theorem CacheOk.all_pinned (h : CacheOk u P s) (hP : P.Nodup) (hlen : NBUF ≤ P.length) (i : Fin NBUF) :
    ∃ b ∈ P, (s.buf i).Is ROOTDEV b := by
  classical
  choose! f hf using h.pinned
  have hinj : ∀ b ∈ P.toFinset, ∀ c ∈ P.toFinset, f b = f c → b = c := by
    intro b hb c hc heq
    have hb := hf b (List.mem_toFinset.mp hb)
    have hc := hf c (List.mem_toFinset.mp hc)
    rw [heq] at hb
    exact hb.inj hc
  have hcard : NBUF ≤ (P.toFinset.image f).card := by
    rw [card_image_of_injOn hinj, List.toFinset_card_of_nodup hP]
    exact hlen
  have hall : P.toFinset.image f = univ := by
    refine eq_univ_of_card _ (le_antisymm (card_le_univ _) ?_)
    exact hcard
  have hi : i ∈ P.toFinset.image f := by
    rw [hall]
    exact mem_univ i
  obtain ⟨b, hb, rfl⟩ := mem_image.mp hi
  exact ⟨b, List.mem_toFinset.mp hb, hf b (List.mem_toFinset.mp hb)⟩

theorem CacheOk.scan_panics (h : CacheOk u P s) (hP : P.Nodup) (hlen : NBUF ≤ P.length) (hb : b ∉ P) :
    bgetScan ROOTDEV b s = .panic .bgetNoBuffers := by
  rcases bgetScan_cases ROOTDEV b s with ⟨j, hj, _⟩ | ⟨_, ⟨j, hj, _⟩ | ⟨_, heq⟩⟩
  · obtain ⟨c, hc, his⟩ := h.all_pinned hP hlen j
    rw [his.inj hj] at hc
    exact absurd hc hb
  · obtain ⟨c, hc, his⟩ := h.all_pinned hP hlen j
    have hcount := h.refcnt j
    rw [Buf.pins_of_mem his hc] at hcount
    bv_omega
  · exact heq

/-- One reference less. -/
theorem CacheOk.dropRef (h : CacheOk (add u i) P s) : CacheOk u P (dropRef i s) := by
  have hcount := h.refcnt i
  rw [add, update_self] at hcount
  have hset : CacheOk u P (s.setBuf i { s.buf i with refcnt := (s.buf i).refcnt - 1 }) := by
    refine h.setRefcnt (fun _ => Iff.rfl) (fun j hj => (update_of_ne hj _ _).symm) ?_
      (fun _ _ => rfl) fun c hc => Or.inl hc
    show ((s.buf i).refcnt - 1).toNat = u i + (s.buf i).pins P
    bv_omega
  unfold Xv6.dropRef
  dsimp only
  split
  · exact ⟨hset.uniq, hset.refcnt, hset.pinned⟩
  · exact hset

theorem CacheOk.bpin (h : CacheOk u P s) (hfew : u i ≤ 2 * NPROC) (hi : (s.buf i).Is ROOTDEV b)
    (hb : b ∉ P) :
    CacheOk u (P ++ [b]) (bpin i s) := by
  have hcount := h.refcnt i
  rw [Buf.pins_of_not_mem hi.2 hb] at hcount
  refine h.setRefcnt (fun _ => Iff.rfl) (fun _ _ => rfl) ?_ ?_ ?_
  · show ((s.buf i).refcnt + 1).toNat = u i + (s.buf i).pins (P ++ [b])
    rw [Buf.pins_of_mem hi (List.mem_append_right P (List.mem_singleton_self b))]
    unfold NPROC at hfew
    bv_omega
  · intro j hj
    refine if_congr (and_congr_right ?_) rfl rfl
    intro hdev
    rw [List.mem_append, List.mem_singleton, or_iff_left]
    intro hjb
    exact hj (h.uniq j i b ⟨hdev, hjb⟩ hi)
  · intro c hc
    rcases List.mem_append.mp hc with hc | hc
    · exact Or.inl hc
    · rw [List.mem_singleton.mp hc]
      exact Or.inr hi

theorem CacheOk.bunpin (h : CacheOk u (b :: P) s) (hi : (s.buf i).Is ROOTDEV b) (hb : b ∉ P) :
    CacheOk u P (bunpin i s) := by
  have hcount := h.refcnt i
  rw [Buf.pins_of_mem hi List.mem_cons_self] at hcount
  refine h.setRefcnt (fun _ => Iff.rfl) (fun _ _ => rfl) ?_ ?_ fun c hc => Or.inl (List.mem_cons_of_mem b hc)
  · show ((s.buf i).refcnt - 1).toNat = u i + (s.buf i).pins P
    rw [Buf.pins_of_not_mem hi.2 hb]
    bv_omega
  · intro j hj
    refine if_congr (and_congr_right ?_) rfl rfl
    intro hdev
    rw [List.mem_cons, or_iff_right]
    intro hjb
    exact hj (h.uniq j i b ⟨hdev, hjb⟩ hi)

end cache

end Xv6.Buffers
