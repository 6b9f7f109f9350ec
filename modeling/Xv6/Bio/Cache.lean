/-
  The list of buffers as it is in memory, and the buffer cache under concurrent calls.

  `Cache` has the `prev` and `next` pointers of `struct buf`; its operations follow the pointers and
  splice them as `kernel/bio.c` does.  `Cache.Abs` relates it to `Bcache`, where the list is a list:
  `Cache.Abs.set` and `Cache.Abs.move` say that the two levels change together.

  `BioSys` is the cache with the calls that are in progress.  A call of `bget` takes a reference under
  `bcache.lock` and waits for the sleep lock; `brelse` gives up the sleep lock and drops the reference
  later.  `stamp` records when a buffer was last released to zero by `brelse`; no step reads it.
-/
import Xv6.Bio.Model
import Xv6.Lib.Dll

namespace Xv6

open Lib Lib.Dll Function

/-! ## The cache with its pointers -/

structure Cache where
  buf : Fin NBUF → Buf
  links : Links (Fin NBUF)

namespace Cache

def set (c : Cache) (i : Fin NBUF) (x : Buf) : Cache := { c with buf := update c.buf i x }

def binit : Cache where
  buf := fun _ => ⟨false, 0, 0, 0, none, Bytes.zero⟩
  links := (List.finRange NBUF).foldl Links.insert Links.empty

/-- The part of `bget` under `bcache.lock`. There is no result if it panics. -/
def bgetScan (c : Cache) (dev blockno : Nat) : Option (Fin NBUF × Cache) :=
  match (c.links.forward NBUF).find? fun i => decide ((c.buf i).Is dev blockno) with
  | some i => some (i, c.set i { c.buf i with refcnt := (c.buf i).refcnt + 1 })
  | none =>
    match (c.links.backward NBUF).find? fun i => decide ((c.buf i).refcnt = 0) with
    | some i =>
      some (i, c.set i { c.buf i with dev := dev, blockno := blockno, valid := false, refcnt := 1 })
    | none => none

/-- The part of `brelse` under `bcache.lock`. -/
def dropRef (c : Cache) (i : Fin NBUF) : Cache :=
  let c := c.set i { c.buf i with refcnt := (c.buf i).refcnt - 1 }
  if (c.buf i).refcnt = 0 then { c with links := (c.links.unlink i).insert i } else c

def bpin (c : Cache) (i : Fin NBUF) : Cache := c.set i { c.buf i with refcnt := (c.buf i).refcnt + 1 }

def bunpin (c : Cache) (i : Fin NBUF) : Cache :=
  c.set i { c.buf i with refcnt := (c.buf i).refcnt - 1 }

/-- The pointers spell the list of the abstract cache. -/
structure Abs (c : Cache) (b : Bcache) : Prop where
  buf : c.buf = b.buf
  rep : Rep c.links b.lru

end Cache

/-! ## The two levels agree -/

theorem Bcache.length_lru (b : Bcache) : b.lru.length = NBUF := by
  rw [b.lru_perm.length_eq, List.length_finRange]

theorem Bcache.mem_lru (b : Bcache) (i : Fin NBUF) : i ∈ b.lru :=
  b.lru_perm.mem_iff.mpr (List.mem_finRange i)

variable {c : Cache} {b : Bcache}

theorem Cache.Abs.forward (h : c.Abs b) {fuel : Nat} (hfuel : NBUF ≤ fuel) :
    c.links.forward fuel = b.lru :=
  h.rep.forward (b.length_lru.trans_le hfuel)

theorem Cache.Abs.backward (h : c.Abs b) {fuel : Nat} (hfuel : NBUF ≤ fuel) :
    c.links.backward fuel = b.lru.reverse :=
  h.rep.backward (b.length_lru.trans_le hfuel)

theorem Bcache.buf_set (b : Bcache) (i : Fin NBUF) (x : Buf) :
    (b.set i x).buf = update b.buf i x := by
  funext j
  rw [update_apply]
  rfl

theorem Cache.Abs.set (h : c.Abs b) (i : Fin NBUF) (x : Buf) : (c.set i x).Abs (b.set i x) := by
  refine ⟨?_, h.rep⟩
  rw [Bcache.buf_set, ← h.buf]
  rfl

theorem Cache.Abs.move (h : c.Abs b) (i : Fin NBUF) :
    Cache.Abs { c with links := (c.links.unlink i).insert i } (b.moveFront i) :=
  ⟨h.buf, h.rep.move (b.mem_lru i)⟩

/-! ## Calls in progress -/

/-- Where a call with a reference to a buffer is: in `bget` before the sleep lock, between `bget` and
    `brelse`, in `brelse` after the sleep lock. -/
inductive Phase where
  | waiting
  | holding
  | releasing
  deriving DecidableEq

structure Ref where
  who : Nat
  buf : Fin NBUF
  phase : Phase
  deriving DecidableEq

structure BioSys where
  cache : Cache
  refs : List Ref
  /-- `bpin` without the matching `bunpin`. -/
  pins : Fin NBUF → Nat
  clock : Nat
  stamp : Fin NBUF → Nat

inductive BioAct where
  /-- `bget` up to the release of `bcache.lock`. -/
  | bget (who dev blockno : Nat)
  | acquiresleep (who : Nat) (i : Fin NBUF)
  /-- `bread` finds the buffer invalid and reads the block. -/
  | read (who : Nat) (i : Fin NBUF) (data : Block)
  /-- `brelse` up to `releasesleep`. -/
  | releasesleep (who : Nat) (i : Fin NBUF)
  /-- The rest of `brelse`. -/
  | drop (who : Nat) (i : Fin NBUF)
  | bpin (i : Fin NBUF)
  | bunpin (i : Fin NBUF)

namespace BioSys

def buf (s : BioSys) (i : Fin NBUF) : Buf := s.cache.buf i

def setBuf (s : BioSys) (i : Fin NBUF) (x : Buf) : BioSys := { s with cache := s.cache.set i x }

/-- A call goes from one phase to the next. -/
def goto (s : BioSys) (r : Ref) (phase : Phase) : BioSys :=
  { s with refs := { r with phase := phase } :: s.refs.erase r }

/-- One step; none if it is not possible or panics. -/
def step (s : BioSys) : BioAct → Option BioSys
  | .bget who dev blockno =>
    match s.cache.bgetScan dev blockno with
    | some (i, c) => some { s with cache := c, refs := ⟨who, i, .waiting⟩ :: s.refs }
    | none => none
  | .acquiresleep who i =>
    if ⟨who, i, .waiting⟩ ∈ s.refs ∧ (s.buf i).lock = none then
      some ((s.setBuf i { s.buf i with lock := some who }).goto ⟨who, i, .waiting⟩ .holding)
    else none
  | .read who i data =>
    if ⟨who, i, .holding⟩ ∈ s.refs ∧ (s.buf i).valid = false then
      some (s.setBuf i { s.buf i with valid := true, data := data })
    else none
  | .releasesleep who i =>
    -- panic("brelse") without the lock
    if ⟨who, i, .holding⟩ ∈ s.refs ∧ (s.buf i).lock = some who then
      some ((s.setBuf i { s.buf i with lock := none }).goto ⟨who, i, .holding⟩ .releasing)
    else none
  | .drop who i =>
    if ⟨who, i, .releasing⟩ ∈ s.refs then
      let s := { s with refs := s.refs.erase ⟨who, i, .releasing⟩, cache := s.cache.dropRef i }
      if (s.buf i).refcnt = 0 then
        some { s with clock := s.clock + 1, stamp := update s.stamp i (s.clock + 1) }
      else some s
    else none
  | .bpin i =>
    some { s with cache := s.cache.bpin i, pins := update s.pins i (s.pins i + 1) }
  | .bunpin i =>
    if 0 < s.pins i then
      some { s with cache := s.cache.bunpin i, pins := update s.pins i (s.pins i - 1) }
    else none

def run : BioSys → List BioAct → Option BioSys
  | s, [] => some s
  | s, a :: acts =>
    match s.step a with
    | some t => run t acts
    | none => none

/-- After `binit`. -/
def init : BioSys where
  cache := .binit
  refs := []
  pins := fun _ => 0
  clock := 0
  stamp := fun _ => 0

/-- The calls that have a reference to the buffer and are in the phase. -/
def count (s : BioSys) (i : Fin NBUF) (phase : Phase) : Nat :=
  s.refs.countP fun r => decide (r.buf = i ∧ r.phase = phase)

/-- The calls that have a reference to the buffer, and the pins. -/
def references (s : BioSys) (i : Fin NBUF) : Nat :=
  s.count i .waiting + s.count i .holding + s.count i .releasing + s.pins i

end BioSys

end Xv6
