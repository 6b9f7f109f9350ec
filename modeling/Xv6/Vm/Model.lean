/-
  Physical pages and user page tables (`kernel/kalloc.c`, `kernel/vm.c`).

  A page frame is named by its physical address.  Memory is word-addressed: `mem pa i` is the
  `i`-th 64-bit word of the frame at `pa`, so page-table pages live in the same memory as
  everything else, and a page that is freed or not yet cleared holds the junk that `kfree` and
  `kalloc` write.  `kmem.freelist` is a list; `kfree` also stores the link to the page that was
  first on it, in the first word of the page that it frees.  `fails` says which of the coming calls of `kalloc`
  fail although the list is not empty; results are for every such list.

  Addresses are natural numbers, and sums that can pass 64 bits are cut explicitly.
-/
import Xv6.Lib.Prog
import Xv6.Param
import Mathlib.Algebra.Group.Int.Defs
import Mathlib.Algebra.Group.Nat.Defs
import Mathlib.Logic.Function.Basic

namespace Xv6

open Lib Lib.Prog

/-! ## Constants of `riscv.h` and `memlayout.h` -/

abbrev PTE_V : Nat := 1

abbrev PTE_R : Nat := 2

abbrev PTE_W : Nat := 4

abbrev PTE_X : Nat := 8

abbrev PTE_U : Nat := 16

/-- One beyond the highest possible virtual address. -/
abbrev MAXVA : Nat := 2 ^ 38

abbrev TRAMPOLINE : Nat := MAXVA - PGSIZE

abbrev TRAPFRAME : Nat := TRAMPOLINE - PGSIZE

abbrev KERNBASE : Nat := 0x40000000

abbrev PHYSTOP : Nat := KERNBASE + 512 * 1024 * 1024

def PGROUNDUP (sz : Nat) : Nat := (sz + PGSIZE - 1) / PGSIZE * PGSIZE

def PGROUNDDOWN (a : Nat) : Nat := a / PGSIZE * PGSIZE

def PA2PTE (pa : Nat) : Nat := pa / 4096 * 1024

def PTE2PA (pte : Nat) : Nat := pte / 1024 * 4096

def PTE_FLAGS (pte : Nat) : Nat := pte % 1024

/-- The 9-bit page-table index of `va` at a level. -/
def PX (level va : Nat) : Nat := va / 2 ^ (12 + 9 * level) % 512

/-- The panics of the memory system and the process table, one for each message of the source.
    `freewalkDepth` stands for a recursion below the last level, which the model does not follow,
    `nullPte` for the use of a null `pte_t *`. -/
inductive VmPanic where
  | kfree
  | walk
  | mappagesVa
  | mappagesSizeAlign
  | mappagesSize
  | mappagesRemap
  | uvmunmap
  | freewalkLeaf
  | freewalkDepth
  | nullPte
  | uvmclear
  | loadseg
  | exec
  | initExiting
  | filedup
  | fileclose
  deriving DecidableEq, Repr

/-! ## State -/

/-- Memory and the page allocator. `kend` is the first address after the kernel and `trampoline`
    the address of its trampoline page, as the linker sets them. -/
structure Mach where
  kend : Nat
  trampoline : Nat
  mem : Nat → Nat → Nat
  freelist : List Nat
  fails : List Bool

abbrev MachM := Prog VmPanic Mach

/-- The page at `pa` is overwritten. -/
def Mach.setPage (s : Mach) (pa : Nat) (page : Nat → Nat) : Mach :=
  { s with mem := fun f => if f = pa then page else s.mem f }

/-- `memset(pa, c, PGSIZE)`. -/
def Mach.memset (s : Mach) (pa c : Nat) : Mach := s.setPage pa fun _ => c * 0x0101010101010101

/-- A pointer to a word: the frame and the index in it. -/
structure Ptr where
  page : Nat
  idx : Nat

def Mach.store (s : Mach) (p : Ptr) (w : Nat) : Mach :=
  s.setPage p.page fun i => if i = p.idx then w else s.mem p.page i

def load (p : Ptr) : MachM Nat := look fun s => s.mem p.page p.idx

def store (p : Ptr) (w : Nat) : MachM Unit := update fun s => s.store p w

def memset (pa c : Nat) : MachM Unit := update fun s => s.memset pa c

/-! ## `kalloc.c` -/

/-- The page is filled with junk, linked and put on the free list. -/
def Mach.kfree (s : Mach) (pa : Nat) : Mach :=
  { (s.memset pa 1).store ⟨pa, 0⟩ (s.freelist.headD 0) with freelist := pa :: s.freelist }

def kfree (pa : Nat) : MachM Unit := atomic fun s =>
  if pa % PGSIZE ≠ 0 ∨ pa < s.kend ∨ pa ≥ PHYSTOP then .panic .kfree
  else .ok () (s.kfree pa)

/-- One call of `kalloc`: the page taken, if any, and the state after it. -/
def Mach.kalloc (s : Mach) : Option Nat × Mach :=
  match s.fails, s.freelist with
  | true :: fails, _ => (none, { s with fails := fails })
  | fails, [] => (none, { s with fails := fails.tail })
  | fails, r :: rest => (some r, { s.memset r 5 with freelist := rest, fails := fails.tail })

def kalloc : MachM (Option Nat) := atomic fun s => .ok s.kalloc.1 s.kalloc.2

/-! ## `vm.c` -/

/-- One round of the loop of `walk`: the page-table page of the next level. -/
def walkLevel (pagetable va level : Nat) (alloc : Bool) : MachM (Option Nat) := do
  let pte ← load ⟨pagetable, PX level va⟩
  if pte.testBit 0 then pure (some (PTE2PA pte))
  else if alloc then
    match ← kalloc with
    | none => pure none
    | some pa => do
      memset pa 0
      store ⟨pagetable, PX level va⟩ (PA2PTE pa ||| PTE_V)
      pure (some pa)
  else pure none

def walk (pagetable va : Nat) (alloc : Bool) : MachM (Option Ptr) := do
  if va ≥ MAXVA then panic .walk
  else
    match ← walkLevel pagetable va 2 alloc with
    | none => pure none
    | some pt1 =>
      match ← walkLevel pt1 va 1 alloc with
      | none => pure none
      | some pt0 => pure (some ⟨pt0, PX 0 va⟩)

/-- The physical address, or `none` where the source returns 0. -/
def walkaddr (pagetable va : Nat) : MachM (Option Nat) := do
  if va ≥ MAXVA then pure none
  else
    match ← walk pagetable va false with
    | none => pure none
    | some p => do
      let pte ← load p
      if ¬ pte.testBit 0 then pure none
      else if ¬ pte.testBit 4 then pure none
      else pure (some (PTE2PA pte))

/-- One round of the loop of `mappages`. -/
def mapPage (pagetable a pa perm : Nat) : MachM Bool := do
  match ← walk pagetable a true with
  | none => pure false
  | some p => do
    let pte ← load p
    if pte.testBit 0 then panic .mappagesRemap
    else do
      store p (PA2PTE pa ||| perm ||| PTE_V)
      pure true

/-- The loop of `mappages`, for `n + 1` pages. -/
def mappagesLoop (pagetable perm : Nat) : Nat → Nat → Nat → MachM Bool
  | 0, a, pa => mapPage pagetable a pa perm
  | n + 1, a, pa => do
    if ← mapPage pagetable a pa perm then
      mappagesLoop pagetable perm n (a + PGSIZE) (pa + PGSIZE)
    else pure false

/-- `true` is the return value 0. -/
def mappages (pagetable va size pa perm : Nat) : MachM Bool := do
  if va % PGSIZE ≠ 0 then panic .mappagesVa
  else if size % PGSIZE ≠ 0 then panic .mappagesSizeAlign
  else if size = 0 then panic .mappagesSize
  else mappagesLoop pagetable perm (size / PGSIZE - 1) va pa

def uvmcreate : MachM (Option Nat) := do
  match ← kalloc with
  | none => pure none
  | some pagetable => do
    memset pagetable 0
    pure (some pagetable)

/-- One round of `uvmunmap`. -/
def unmapPage (pagetable a : Nat) (doFree : Bool) : MachM Unit := do
  match ← walk pagetable a false with
  | none => pure ()
  | some p => do
    let pte ← load p
    if pte.testBit 0 then do
      if doFree then kfree (PTE2PA pte) else pure ()
      store p 0
    else pure ()

def uvmunmap (pagetable va npages : Nat) (doFree : Bool) : MachM Unit := do
  if va % PGSIZE ≠ 0 then panic .uvmunmap
  else upto npages fun k => unmapPage pagetable (va + k * PGSIZE) doFree

def uvmdealloc (pagetable oldsz newsz : Nat) : MachM Nat := do
  if newsz ≥ oldsz then pure oldsz
  else do
    if PGROUNDUP newsz < PGROUNDUP oldsz then
      uvmunmap pagetable (PGROUNDUP newsz) ((PGROUNDUP oldsz - PGROUNDUP newsz) / PGSIZE) true
    else pure ()
    pure newsz

/-- The loop of `uvmalloc` over the remaining `n` pages, from address `a` on. -/
def uvmallocLoop (pagetable oldsz xperm : Nat) : Nat → Nat → MachM Bool
  | 0, _ => pure true
  | n + 1, a => do
    match ← kalloc with
    | none => do
      let _ ← uvmdealloc pagetable a oldsz
      pure false
    | some mem => do
      memset mem 0
      if ← mappages pagetable a PGSIZE mem (PTE_R ||| PTE_U ||| xperm) then
        uvmallocLoop pagetable oldsz xperm n (a + PGSIZE)
      else do
        kfree mem
        let _ ← uvmdealloc pagetable a oldsz
        pure false

/-- The new size, or 0 on error. -/
def uvmalloc (pagetable oldsz newsz xperm : Nat) : MachM Nat := do
  if newsz < oldsz then pure oldsz
  else do
    let n := (newsz - PGROUNDUP oldsz + PGSIZE - 1) / PGSIZE
    if ← uvmallocLoop pagetable (PGROUNDUP oldsz) xperm n (PGROUNDUP oldsz) then pure newsz
    else pure 0

/-- `freewalk` of a page-table page with `level` levels below it. -/
def freewalk : Nat → Nat → MachM Unit
  | level, pagetable => do
    upto 512 fun i => do
      let pte ← load ⟨pagetable, i⟩
      if pte.testBit 0 ∧ ¬ (pte.testBit 1 ∨ pte.testBit 2 ∨ pte.testBit 3) then
        match level with
        | 0 => panic .freewalkDepth
        | level + 1 => do
          freewalk level (PTE2PA pte)
          store ⟨pagetable, i⟩ 0
      else if pte.testBit 0 then panic .freewalkLeaf
      else pure ()
    kfree pagetable

def uvmfree (pagetable sz : Nat) : MachM Unit := do
  if sz > 0 then uvmunmap pagetable 0 (PGROUNDUP sz / PGSIZE) true else pure ()
  freewalk 2 pagetable

/-- The loop of `uvmcopy` over the remaining `n` pages, from address `i` on. -/
def uvmcopyLoop (old new : Nat) : Nat → Nat → MachM Bool
  | 0, _ => pure true
  | n + 1, i => do
    match ← walk old i false with
    | none => uvmcopyLoop old new n (i + PGSIZE)
    | some p => do
      let pte ← load p
      if pte.testBit 0 then
        match ← kalloc with
        | none => do
          uvmunmap new 0 (i / PGSIZE) true
          pure false
        | some mem => do
          -- memmove(mem, pa, PGSIZE)
          update fun s => s.setPage mem (s.mem (PTE2PA pte))
          if ← mappages new i PGSIZE mem (PTE_FLAGS pte) then uvmcopyLoop old new n (i + PGSIZE)
          else do
            kfree mem
            uvmunmap new 0 (i / PGSIZE) true
            pure false
      else uvmcopyLoop old new n (i + PGSIZE)

def uvmcopy (old new sz : Nat) : MachM Bool :=
  uvmcopyLoop old new ((sz + PGSIZE - 1) / PGSIZE) 0

def uvmclear (pagetable va : Nat) : MachM Unit := do
  match ← walk pagetable va false with
  | none => panic .uvmclear
  | some p => do
    let pte ← load p
    -- *pte &= ~PTE_U
    store p (pte ^^^ (pte &&& PTE_U))

def ismapped (pagetable va : Nat) : MachM Bool := do
  match ← walk pagetable va false with
  | none => pure false
  | some p => do
    let pte ← load p
    pure (pte.testBit 0)

/-- `vmfault` of a process with size `sz` and page table `own`. -/
def vmfault (own sz pagetable va : Nat) : MachM (Option Nat) := do
  if va ≥ sz then pure none
  else do
    let va := PGROUNDDOWN va
    if ← ismapped pagetable va then pure none
    else
      match ← kalloc with
      | none => pure none
      | some mem => do
        memset mem 0
        if ← mappages own va PGSIZE mem (PTE_W ||| PTE_U ||| PTE_R) then pure (some mem)
        else do
          kfree mem
          pure none

/-- The frame behind a user page, faulted in if need be. -/
def userPage (own sz pagetable va0 : Nat) : MachM (Option Nat) := do
  match ← walkaddr pagetable va0 with
  | some pa0 => pure (some pa0)
  | none => vmfault own sz pagetable va0

/-- `copyout` of `len` bytes. `data` is what the bytes make of a page: its old contents and the
    address of the first byte to the new contents. `fuel` bounds the number of pages. -/
def copyoutLoop (own sz pagetable : Nat) (data : Nat → (Nat → Nat) → Nat → Nat) :
    Nat → Nat → Nat → MachM Bool
  | 0, _, _ => pure true
  | fuel + 1, dstva, len =>
    if len = 0 then pure true
    else do
      let va0 := PGROUNDDOWN dstva
      if va0 ≥ MAXVA then pure false
      else
        match ← userPage own sz pagetable va0 with
        | none => pure false
        | some pa0 => do
          match ← walk pagetable va0 false with
          | none => panic .nullPte
          | some p => do
            let pte ← load p
            if ¬ pte.testBit 2 then pure false
            else do
              let n := min (PGSIZE - (dstva - va0)) len
              update fun s => s.setPage pa0 (data dstva (s.mem pa0))
              copyoutLoop own sz pagetable data fuel (va0 + PGSIZE) (len - n)

def copyout (own sz pagetable dstva len : Nat) (data : Nat → (Nat → Nat) → Nat → Nat) :
    MachM Bool :=
  copyoutLoop own sz pagetable data len dstva len

/-- `copyin` of `len` bytes; what is read is not modelled, only which pages it faults in. -/
def copyinLoop (own sz pagetable : Nat) : Nat → Nat → Nat → MachM Bool
  | 0, _, _ => pure true
  | fuel + 1, srcva, len =>
    if len = 0 then pure true
    else do
      let va0 := PGROUNDDOWN srcva
      match ← userPage own sz pagetable va0 with
      | none => pure false
      | some _ =>
        copyinLoop own sz pagetable fuel (va0 + PGSIZE) (len - min (PGSIZE - (srcva - va0)) len)

def copyin (own sz pagetable srcva len : Nat) : MachM Bool :=
  copyinLoop own sz pagetable len srcva len

end Xv6
