/-
  The memory allocator of user programs (`user/umalloc.c`).

  Addresses are counted in bytes, the fields `size` in headers of 16 bytes; `size` is a `uint`.  The
  free list is a circular list through the static header `base`.  `sbrk` is any function of the calls
  made so far.  The program calls `malloc` and `free` and writes into its blocks, also over what the
  allocator had there.  The loops are given fuel.
-/
import Mathlib.Algebra.Group.Nat.Defs
import Mathlib.Data.Set.Basic
import Mathlib.Logic.Function.Basic

namespace Xv6.User

/-! ## Model -/

/-- The headers in memory, and `freep`. -/
structure Heap where
  ptr : Nat → Nat
  size : Nat → Nat
  freep : Nat

/-- A call of `sbrk` and where the region starts, if it succeeds. -/
abbrev Call := Int × Option Nat

/-- `live` has the headers of the blocks that the program holds, with the sizes asked for. -/
structure State where
  heap : Heap
  calls : List Call
  live : Nat → Option Nat

namespace Heap

def setPtr (h : Heap) (p q : Nat) : Heap := { h with ptr := Function.update h.ptr p q }

def setSize (h : Heap) (p n : Nat) : Heap := { h with size := Function.update h.size p (n % 2 ^ 32) }

/-- The search of `free`, from `p` on. -/
def search (h : Heap) (bp : Nat) : Nat → Nat → Option Nat
  | 0, _ => none
  | fuel + 1, p =>
    if bp > p ∧ bp < h.ptr p then some p
    else if p ≥ h.ptr p ∧ (bp > p ∨ bp < h.ptr p) then some p
    else h.search bp fuel (h.ptr p)

/-- Link `bp` in after `p`. -/
def link (h : Heap) (bp p : Nat) : Heap :=
  let h :=
    if bp + 16 * h.size bp = h.ptr p then
      let h := h.setSize bp (h.size bp + h.size (h.ptr p))
      h.setPtr bp (h.ptr (h.ptr p))
    else h.setPtr bp (h.ptr p)
  let h :=
    if p + 16 * h.size p = bp then
      let h := h.setSize p (h.size p + h.size bp)
      h.setPtr p (h.ptr bp)
    else h.setPtr p bp
  { h with freep := p }

def free (h : Heap) (fuel ap : Nat) : Option Heap :=
  (h.search (ap - 16) fuel h.freep).bind fun p => some (h.link (ap - 16) p)

/-- Take `nunits` headers from block `p`, which `prevp` points to. -/
def take (h : Heap) (nunits prevp p : Nat) : Heap × Nat :=
  if h.size p = nunits then ({ h.setPtr prevp (h.ptr p) with freep := prevp }, p + 16)
  else
    let h := h.setSize p (h.size p - nunits)
    let p := p + 16 * h.size p
    ({ h.setSize p nunits with freep := prevp }, p + 16)

end Heap

/-- An `unsigned long` as the `int` argument of `sbrk`. -/
def toInt (n : Nat) : Int := (BitVec.ofNat 32 n).toInt

section model

variable (sbrk : List Call → Int → Option Nat) (base : Nat)

/-- `morecore`: the new `freep`, or 0. -/
def morecore (s : State) (fuel nu : Nat) : Option (State × Nat) :=
  let nu := if nu < 4096 then 4096 else nu
  let n := toInt (nu * 16)
  let p := sbrk s.calls n
  let s := { s with calls := (n, p) :: s.calls }
  match p with
  | none => some (s, 0)
  | some p =>
    let h := s.heap.setSize p nu
    (h.free fuel (p + 16)).bind fun h => some ({ s with heap := h }, h.freep)

def mallocLoop (nunits : Nat) : Nat → State → Nat → Nat → Option (State × Nat)
  | 0, _, _, _ => none
  | fuel + 1, s, prevp, p =>
    if s.heap.size p ≥ nunits then
      let (h, r) := s.heap.take nunits prevp p
      some ({ s with heap := h }, r)
    else if p = s.heap.freep then
      (morecore sbrk s fuel nunits).bind fun (s, p) =>
        if p = 0 then some (s, 0) else mallocLoop nunits fuel s p (s.heap.ptr p)
    else mallocLoop nunits fuel s p (s.heap.ptr p)

/-- `nunits` in `malloc`. -/
def nunits (nbytes : Nat) : Nat := ((nbytes + 16 - 1) / 16 + 1) % 2 ^ 32

/-- The first call makes the list of `base` alone. -/
def State.start (s : State) : State :=
  if s.heap.freep = 0 then
    { s with heap := { (s.heap.setPtr base base).setSize base 0 with freep := base } }
  else s

def malloc (s : State) (fuel nbytes : Nat) : Option (State × Nat) :=
  let s := s.start base
  mallocLoop sbrk (nunits nbytes) fuel s s.heap.freep (s.heap.ptr s.heap.freep)

/-! ## Runs -/

inductive Act where
  | malloc (nbytes : Nat)
  | free (p : Nat)
  | store (b a ptr size : Nat)

def State.give (s : State) (b n : Nat) : State := { s with live := Function.update s.live b (some n) }

/-- The program asks for at most 2^30 bytes, frees what it holds, and writes into what it holds. -/
def step (fuel : Nat) (s : State) : Act → Option State
  | .malloc n =>
    if n ≤ 2 ^ 30 then
      (malloc sbrk base s fuel n).bind fun (s, p) =>
        some (if p = 0 then s else s.give (p - 16) n)
    else none
  | .free p =>
    match s.live (p - 16) with
    | some _ =>
      (s.heap.free fuel p).bind fun h =>
        some { s with heap := h, live := Function.update s.live (p - 16) none }
    | none => none
  | .store b a ptr size =>
    match s.live b with
    | some _ =>
      if b < a ∧ a < b + 16 * s.heap.size b then
        some { s with heap := (s.heap.setPtr a ptr).setSize a size }
      else none
    | none => none

def run (fuel : Nat) : State → List Act → Option State
  | s, [] => some s
  | s, a :: acts => (step sbrk base fuel s a).bind fun s => run fuel s acts

end model

/-- The program has made no call; its memory is arbitrary otherwise. -/
def State.init (ptr size : Nat → Nat) : State := ⟨⟨ptr, size, 0⟩, [], fun _ => none⟩

/-- The end of the last region, and at first the break of the program. -/
def brk (start : Nat) : List Call → Nat
  | [] => start
  | (n, some a) :: _ => a + n.toNat
  | (_, none) :: calls => brk start calls

/-- What `sbrk` gave. -/
def obtained (calls : List Call) : Set Nat :=
  { x | ∃ n a, (n, some a) ∈ calls ∧ a ≤ x ∧ x < a + n.toNat }

def total : List Call → Nat
  | [] => 0
  | (n, some _) :: calls => total calls + n.toNat
  | (_, none) :: calls => total calls

end Xv6.User
