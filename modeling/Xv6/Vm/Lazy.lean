/-
  Lazy allocation is not seen by user programs.

  `session` runs requests of processes one after the other: `sbrk`, loads and stores, copies into
  and out of the kernel, and `fork`.  What can be observed are the answers and the sizes of all
  processes after each request.  `Users` is an abstract kernel whose processes have all their
  memory at once, and where `SBRK_EAGER` and `SBRK_LAZY` mean the same.  As long as `kalloc` does
  not fail, the kernel gives the answers of the abstract one (`given_session`), so two runs that
  differ in these flags cannot be told apart (`lazy_allocation_invisible`).
-/
import Xv6.Vm.Access
import Xv6.Vm.Runs

namespace Xv6

open Lib Function Multiset
open Lib.Prog hiding update

/-! ## Requests -/

/-- What a process asks for. -/
inductive Request where
  | sbrk (n : BitVec 32) (eager : Bool)
  | load (va : Nat)
  | store (va b : Nat)
  | copyin (va len : Nat)
  | copyout (va : Nat) (src : List Nat)
  | fork

/-- What it gets. `loaded none` and `stored false` are page faults that `usertrap` does not
    handle. -/
inductive Answer where
  | skipped
  | returned (o : Option Nat)
  | loaded (o : Option Nat)
  | stored (ok : Bool)
  | copiedIn (ok : Bool) (bytes : List Nat)
  | copiedOut (ok : Bool)
  deriving DecidableEq

/-- The process is killed. -/
def Answer.kills : Answer → Bool
  | .loaded none => true
  | .stored false => true
  | _ => false

/-- Run a function on the page table of process `p`. -/
def onUser {α : Type} (p : Nat) (f : Nat → Nat → MachM α) : KernelM α := do
  let pr ← getProc p
  match pr.pagetable with
  | none => panic .nullPte
  | some pagetable => onMach (f pagetable pr.sz)

def Request.prog (p : Nat) : Request → KernelM Answer
  | .sbrk n eager => do
    let o ← sysSbrk p n.toInt eager
    pure (.returned o)
  | .load va => do
    let o ← onUser p fun pagetable sz => loadByte pagetable sz va
    pure (.loaded o)
  | .store va b => do
    let ok ← onUser p fun pagetable sz => storeByte pagetable sz va b
    pure (.stored ok)
  | .copyin va len => do
    let res ← onUser p fun pagetable sz => copyinBytes pagetable sz pagetable va len
    pure (.copiedIn res.1 res.2)
  | .copyout va src => do
    let ok ← onUser p fun pagetable sz =>
      Xv6.copyout pagetable sz pagetable va src.length (copyData va src)
    pure (.copiedOut ok)
  | .fork => do
    let o ← kfork p
    pure (.returned o)

/-- Loads and stores are at addresses below the size. -/
def Request.inBounds (sz : Nat) : Request → Bool
  | .load va => decide (va < sz)
  | .store va _ => decide (va < sz)
  | _ => true

def Kernel.sizes (k : Kernel) : List Nat := (List.range NPROC).map fun q => (k.proc q).sz

/-- A process in `killed` makes no request any more, nor does one that does not exist; accesses are
    only made below the size. -/
def Request.attempt (killed : List Nat) (p : Nat) (req : Request) : KernelM Answer := do
  let runs ← look fun k => decide (p ∉ killed ∧ k.CanRun p) && req.inBounds (k.proc p).sz
  if runs then req.prog p else pure .skipped

/-- The requests, each with the process that makes it. -/
def session : List Nat → List (Nat × Request) → KernelM (List (Answer × List Nat))
  | _, [] => pure []
  | killed, (p, req) :: rest => do
    let ans ← req.attempt killed p
    let sizes ← look Kernel.sizes
    let obs ← session (if ans.kills then p :: killed else killed) rest
    pure ((ans, sizes) :: obs)

/-- The request without the flag of `sbrk`. -/
def Request.flagless : Request → Request
  | .sbrk n _ => .sbrk n false
  | req => req

/-! ## The abstract kernel -/

/-- Memory as a process sees it. -/
structure UserMem where
  sz : Nat
  page : Nat → Nat × (Nat → Nat)

structure Users where
  state : Nat → ProcState
  mem : Nat → UserMem

def Users.setMem (U : Users) (p : Nat) (m : UserMem) : Users :=
  { U with mem := update U.mem p m }

def Users.unusedSlot (U : Users) : Option Nat :=
  (List.range NPROC).find? fun p => U.state p = .unused

/-- The child has the memory of its parent. -/
def Users.fork (U : Users) (p np : Nat) : Users :=
  { state := update U.state np .runnable, mem := update U.mem np (U.mem p) }

/-- `sbrk`: the pages above the new size are gone. -/
def UserMem.resize (m : UserMem) (n : Int) : UserMem :=
  ⟨sbrkSize m.sz n, freshFrom (npages (sbrkSize m.sz n)) m.page⟩

def Users.request (U : Users) (p : Nat) : Request → Answer × Users
  | .sbrk n _ =>
    if 0 ≤ n.toInt ∧ TRAPFRAME < (U.mem p).sz + n.toInt.toNat then (.returned none, U)
    else (.returned (some (U.mem p).sz), U.setMem p ((U.mem p).resize n.toInt))
  | .load va => (.loaded (loadSeen (U.mem p).page va), U)
  | .store va b =>
    let res := storeSeen (U.mem p).page va b
    (.stored res.1, U.setMem p ⟨(U.mem p).sz, res.2⟩)
  | .copyin va len =>
    let res := copyinSeen (U.mem p).sz (U.mem p).page len va len
    (.copiedIn res.1 res.2, U)
  | .copyout va src =>
    let res := copyoutSeen (U.mem p).sz (copyData va src) src.length va src.length (U.mem p).page
    (.copiedOut res.1, U.setMem p ⟨(U.mem p).sz, res.2⟩)
  | .fork =>
    match U.unusedSlot with
    | none => (.returned none, U)
    | some np => (.returned (some np), U.fork p np)

def Users.sizes (U : Users) : List Nat := (List.range NPROC).map fun q => (U.mem q).sz

def Users.attempt (U : Users) (killed : List Nat) (p : Nat) (req : Request) : Answer × Users :=
  if p ∉ killed ∧ p < NPROC ∧ U.state p = .runnable ∧ req.inBounds (U.mem p).sz = true then
    U.request p req
  else (.skipped, U)

def Users.session (U : Users) : List Nat → List (Nat × Request) → List (Answer × List Nat)
  | _, [] => []
  | killed, (p, req) :: rest =>
    let res := U.attempt killed p req
    (res.1, res.2.sizes) ::
      res.2.session (if res.1.kills then p :: killed else killed) rest

/-- Its answers do not depend on the flags of `sbrk`. -/
theorem Users.attempt_flagless (U : Users) (killed : List Nat) (p : Nat) (req : Request) :
    U.attempt killed p req.flagless = U.attempt killed p req := by
  cases req <;> rfl

theorem Users.session_flagless (acts : List (Nat × Request)) :
    ∀ (U : Users) (killed : List Nat),
      U.session killed (acts.map fun a => (a.1, a.2.flagless)) = U.session killed acts := by
  induction acts with
  | nil =>
    intro U killed
    rfl
  | cons a acts ih =>
    intro U killed
    simp only [List.map_cons, Users.session, Users.attempt_flagless, ih]

/-! ## The kernel and the abstract kernel -/

/-- The memory of a process. -/
def Kernel.user (k : Kernel) (p : Nat) : UserMem :=
  ⟨(k.proc p).sz, match (k.proc p).pagetable with
    | none => fun _ => freshPage
    | some r => seen k.mach (treeOf k.mach.mem r)⟩

/-- The kernel shows its processes what the abstract kernel has. -/
def Shows (k : Kernel) (U : Users) : Prop :=
  ∀ q, q < NPROC → (k.proc q).state = U.state q ∧ k.user q = U.mem q

def Kernel.users (k : Kernel) : Users := ⟨fun q => (k.proc q).state, k.user⟩

theorem Kernel.shows (k : Kernel) : Shows k k.users := fun _ _ => ⟨rfl, rfl⟩

section lazily

variable {c k k' : Kernel} {U : Users} {p q : Nat} {t : Mach}

theorem user_live {r : Nat} {T : Tree} (hpt : (k.proc p).pagetable = some r)
    (hrep : Rep k.mach.mem r T) : k.user p = ⟨(k.proc p).sz, seen k.mach T⟩ := by
  unfold Kernel.user
  rw [hpt]
  dsimp only
  rw [hrep.treeOf_eq]

/-- A process whose frames are not written sees the same. -/
theorem user_congr {tramp : Nat} (hinv : ProcInv k.mach.mem tramp (k.proc q))
    (hproc : k'.proc q = k.proc q)
    (hk : Keeps (procFrames k.mach.mem (k.proc q)) k.mach k'.mach) : k'.user q = k.user q := by
  cases hinv with
  | free hfree =>
    unfold Kernel.user
    rw [hproc, hfree]
    rfl
  | @live r tf T _ pagetable trapframe rep _ =>
    rw [procFrames_live pagetable trapframe rep] at hk
    have hrep' : Rep k'.mach.mem r T := by
      refine rep.congr ?_
      intro f hf
      exact hk f (mem_cons_of_mem (tree_mem_own hf))
    have hpt' : (k'.proc q).pagetable = some r := by
      rw [hproc]
      exact pagetable
    rw [user_live pagetable rep, user_live hpt' hrep', hproc]
    refine congrArg (UserMem.mk _) (seen_congr rfl ?_)
    refine hk.mono fun f hf => mem_cons_of_mem (mem_cons_of_mem ?_)
    exact mem_add.mpr (Or.inr hf)

/-- A change of the memory of `p` leaves the frames of the other processes alone. -/
theorem KInv.keeps_other (h : KInv c k) (hp : p < NPROC) {r tf : Nat} {T T' : Tree}
    (hpt : (k.proc p).pagetable = some r) (htf : (k.proc p).trapframe = some tf)
    (hrep : Rep k.mach.mem r T) (g : Goes r k.mach T {tf} t T' {tf}) (hq : q < NPROC)
    (hne : q ≠ p) : Keeps (procFrames k.mach.mem (k.proc q)) k.mach t := by
  intro f hf
  refine g.mem f ?_
  have hno := h.sys.other_not_mem hp hq hne hf
  rw [procFrames_live hpt htf hrep, add_zero] at hno
  rw [foot_add, add_comm (Own r T)]
  exact hno

/-- `p` has new memory. -/
theorem Shows.setMem (hU : Shows k U) {m : UserMem}
    (hstate : ∀ q, (k'.proc q).state = (k.proc q).state)
    (hothers : ∀ q, q < NPROC → q ≠ p → k'.user q = k.user q) (hm : k'.user p = m) :
    Shows k' (U.setMem p m) := by
  intro q hq
  refine ⟨(hstate q).trans (hU q hq).1, ?_⟩
  show k'.user q = update U.mem p m q
  rcases eq_or_ne q p with heq | hne
  · rw [heq, update_self, hm]
  · rw [update_of_ne hne, hothers q hq hne, (hU q hq).2]

theorem Users.setMem_self (U : Users) (p : Nat) : U.setMem p (U.mem p) = U := by
  unfold Users.setMem
  rw [update_eq_self]

/-- A function on the page table of `p`: it may fault pages in and write to the user's pages. What
    it returns and the pages it leaves are `g`. -/
theorem given_onUser {α : Type} {f : Nat → Nat → MachM α} {ans : α → Answer}
    {g : α × (Nat → Nat × (Nat → Nat))} (h : KInv c k) (hp : k.CanRun p) (hU : Shows k U)
    (hf : ∀ {r tf : Nat} {T : Tree},
      Mem k.mach r T {tf} (k.proc p).sz (k.proc p).guard k.mach.trampoline tf →
      U.mem p = ⟨(k.proc p).sz, seen k.mach T⟩ →
      granted (fun a t => ∃ T', FaultsTo r k.mach T {tf} (k.proc p).sz t T' ∧ (a, seen t T') = g)
        (f r (k.proc p).sz) k.mach) :
    given GrantedK Crit.total (fun x k' => KInv c k' ∧ x = ans g.1 ∧
      Shows k' (U.setMem p ⟨(U.mem p).sz, g.2⟩)) (onUser p f >>= fun a => pure (ans a)) k := by
  obtain ⟨r, tf, T, hpt, htf, hrep, hsp, hh⟩ := h.live hp
  have hmem : U.mem p = ⟨(k.proc p).sz, seen k.mach T⟩ := by
    rw [← (hU p hp.1).2]
    exact user_live hpt hrep
  refine (given_bind _ _).mpr ((given_bind _ _).mpr (given_look trivial ?_))
  rw [hpt]
  refine given_onMach (given_mono (hf ⟨hh, hsp⟩ hmem) ?_)
  rintro a t ⟨T', hf', rfl⟩
  have g := hf'.goes
  refine ⟨h.goes hp hpt htf hrep g (hsp.faulted hf'.faulted), rfl, ?_⟩
  refine hU.setMem (fun _ => rfl) ?_ ?_
  · intro q hq hne
    exact user_congr (h.sys.procs q hq) rfl (h.keeps_other hp.1 hpt htf hrep g hq hne)
  · rw [hmem]
    exact user_live hpt g.rep

theorem given_sbrk {n : BitVec 32} {eager : Bool} (h : KInv c k) (hp : k.CanRun p)
    (hU : Shows k U) :
    given GrantedK Crit.total (fun ans k' => KInv c k' ∧
      ans = (U.request p (.sbrk n eager)).1 ∧ Shows k' (U.request p (.sbrk n eager)).2)
      ((Request.sbrk n eager).prog p) k := by
  obtain ⟨r, tf, T, hpt, htf, hrep, hsp, hh⟩ := h.live hp
  have hmem : U.mem p = ⟨(k.proc p).sz, seen k.mach T⟩ := by
    rw [← (hU p hp.1).2]
    exact user_live hpt hrep
  have hn : n.toInt < 2 ^ 31 := by
    have := BitVec.toInt_lt (x := n)
    omega
  -- the three ways it can end
  have hends : wp Crit.total (fun o k' =>
      (o = none ∧ k' = k ∧ 0 ≤ n.toInt ∧ TRAPFRAME < (k.proc p).sz + n.toInt.toNat) ∨
      (o = none ∧ 0 < n.toInt ∧ (k.proc p).sz + n.toInt.toNat ≤ TRAPFRAME) ∨
      ∃ t T', o = some (k.proc p).sz ∧ Goes r k.mach T {tf} t T' {tf} ∧ KInv c k' ∧
        k' = k.put p t { k.proc p with sz := sbrkSize (k.proc p).sz n.toInt } ∧
        seen t T' = freshFrom (npages (sbrkSize (k.proc p).sz n.toInt)) (seen k.mach T) ∧
        (0 ≤ n.toInt → (k.proc p).sz + n.toInt.toNat ≤ TRAPFRAME)) (sysSbrk p n.toInt eager) k := by
    refine wp_sysSbrk_seen h hp hn hpt htf hrep hsp hh ?_ ?_ ?_
    · intro h0 hlt
      exact Or.inl ⟨rfl, rfl, h0, hlt⟩
    · intro t _ hpos hle _ _ _ _
      exact Or.inr (Or.inl ⟨rfl, hpos, hle⟩)
    · intro t T' g hk' hseen hle _
      exact Or.inr (Or.inr ⟨t, T', rfl, g, hk', rfl, hseen, hle⟩)
  have hreq : U.request p (.sbrk n eager) =
      if 0 ≤ n.toInt ∧ TRAPFRAME < (k.proc p).sz + n.toInt.toNat then (.returned none, U)
      else (.returned (some (k.proc p).sz), U.setMem p ((U.mem p).resize n.toInt)) := by
    rw [show (k.proc p).sz = (U.mem p).sz by rw [hmem]]
    rfl
  rw [hreq]
  refine given_seq (given_and_wp servedK_sysSbrk hends) ?_
  rintro o k' ⟨hno, ⟨rfl, rfl, h0, hlt⟩ | ⟨rfl, hpos, hle⟩ | ⟨t, T', rfl, g, hk', rfl, hseen, hle⟩⟩
  · rw [if_pos ⟨h0, hlt⟩]
    exact ⟨h, rfl, hU⟩
  · -- out of memory: not in these runs
    have hsum := add64_nonneg hsp.size (Int.le_of_lt hpos) hn
    have := (hno rfl).2
    omega
  · have hneg : ¬ (0 ≤ n.toInt ∧ TRAPFRAME < (k.proc p).sz + n.toInt.toNat) :=
      fun hc => absurd (hle hc.1) (Nat.not_le.mpr hc.2)
    rw [if_neg hneg]
    refine ⟨hk', rfl, hU.setMem ?_ ?_ ?_⟩
    · intro q
      show (update k.proc p _ q).state = _
      rcases eq_or_ne q p with heq | hne
      · rw [heq, update_self]
      · rw [update_of_ne hne]
    · intro q hq hne
      refine user_congr (h.sys.procs q hq) (update_of_ne hne _ _) ?_
      exact h.keeps_other hp.1 hpt htf hrep g hq hne
    · have hself : (k.put p t { k.proc p with sz := sbrkSize (k.proc p).sz n.toInt }).proc p =
          { k.proc p with sz := sbrkSize (k.proc p).sz n.toInt } := update_self _ _ _
      have hpt' : ((k.put p t { k.proc p with sz := sbrkSize (k.proc p).sz n.toInt }).proc
          p).pagetable = some r := by
        rw [hself]
        exact hpt
      rw [user_live hpt' g.rep, hself, hmem]
      exact congrArg (UserMem.mk _) hseen

theorem Shows.unusedSlot (hU : Shows k U) : U.unusedSlot = k.unusedSlot := by
  unfold Users.unusedSlot Kernel.unusedSlot
  rw [← List.head?_filter, ← List.head?_filter]
  refine congrArg _ (List.filter_congr ?_)
  intro q hq
  rw [(hU q (List.mem_range.mp hq)).1]

theorem given_fork (h : KInv c k) (hp : k.CanRun p) (hU : Shows k U) :
    given GrantedK Crit.total (fun ans k' => KInv c k' ∧
      ans = (U.request p .fork).1 ∧ Shows k' (U.request p .fork).2) (Request.fork.prog p) k := by
  obtain ⟨r, tf, T, hpt, htf, hrep, hsp, hh⟩ := h.live hp
  have hfree : ∀ {t : Mach} {F : Multiset Nat}, Moves k.mach 0 t F → ∀ q, q < NPROC →
      Keeps (procFrames k.mach.mem (k.proc q)) k.mach t := by
    intro t F m q hq f hf
    exact m.mem f (h.sys.not_free hq hf)
  have hends : wp Crit.total (fun o k' =>
      (o = none ∧ KInv c k' ∧ Shows k' U) ∨
      ∃ np, o = some np ∧ k.unusedSlot = some np ∧ KInv c k' ∧ Shows k' (U.fork p np))
      (kfork p) k := by
    refine wp_kfork_seen h hp hpt htf hrep hsp ?_ ?_
    · intro t m ht
      refine Or.inl ⟨rfl, ht, ?_⟩
      intro q hq
      refine ⟨(hU q hq).1, ?_⟩
      rw [← (hU q hq).2]
      exact user_congr (h.sys.procs q hq) rfl (hfree m q hq)
    · intro np nr ntf k' T' pr hslot hk' m hproc hstate hsz hpt' hrep' hseen
      refine Or.inr ⟨np, rfl, hslot, hk', ?_⟩
      intro q hq
      unfold Users.fork
      dsimp only
      rcases eq_or_ne q np with heq | hne
      · have hself : k'.proc np = pr := by
          rw [hproc, update_self]
        rw [heq, update_self, update_self, hself, ← (hU p hp.1).2,
          user_live hpt hrep]
        refine ⟨hstate, ?_⟩
        rw [← hself] at hpt' hsz
        rw [user_live hpt' hrep', hseen, hsz]
      · have hsame : k'.proc q = k.proc q := by
          rw [hproc, update_of_ne hne]
        rw [update_of_ne hne, update_of_ne hne, hsame, ← (hU q hq).2]
        exact ⟨(hU q hq).1, user_congr (h.sys.procs q hq) hsame (hfree m q hq)⟩
  have hreq : U.request p .fork = match k.unusedSlot with
      | none => (.returned none, U)
      | some np => (.returned (some np), U.fork p np) := by
    rw [← hU.unusedSlot]
    rfl
  rw [hreq]
  refine given_seq (given_and_wp servedK_kfork hends) ?_
  rintro o k' ⟨hno, ⟨rfl, hk', hU'⟩ | ⟨np, rfl, hslot, hk', hU'⟩⟩
  · rw [hno rfl]
    exact ⟨hk', rfl, hU'⟩
  · rw [hslot]
    exact ⟨hk', rfl, hU'⟩

/-- One request: the answer of the abstract kernel, and its memory. -/
theorem given_request (req : Request) (h : KInv c k) (hp : k.CanRun p) (hU : Shows k U)
    (hb : req.inBounds (k.proc p).sz = true) :
    given GrantedK Crit.total (fun ans k' => KInv c k' ∧ ans = (U.request p req).1 ∧
      Shows k' (U.request p req).2) (req.prog p) k := by
  have hself := U.setMem_self p
  cases req with
  | sbrk n eager => exact given_sbrk h hp hU
  | fork => exact given_fork h hp hU
  | load va =>
    refine given_mono (given_onUser (g := (loadSeen (U.mem p).page va, (U.mem p).page)) h hp hU
      fun hm hmem => ?_) fun _ _ hk => ⟨hk.1, hk.2.1, hself ▸ hk.2.2⟩
    rw [hmem]
    refine given_mono (granted_loadByte hm (of_decide_eq_true hb)) ?_
    rintro o t ⟨T', hf, hseen, ho⟩
    exact ⟨T', hf, Prod.ext ho hseen⟩
  | store va b =>
    refine given_onUser h hp hU fun hm hmem => ?_
    rw [hmem]
    exact granted_storeByte hm (of_decide_eq_true hb)
  | copyin va len =>
    refine given_mono (given_onUser (g := (copyinSeen (U.mem p).sz (U.mem p).page len va len,
      (U.mem p).page)) h hp hU fun hm hmem => ?_) fun _ _ hk => ⟨hk.1, hk.2.1, hself ▸ hk.2.2⟩
    rw [hmem]
    refine given_mono (granted_copyinBytes hm) ?_
    rintro res t ⟨T', hf, hseen, hres⟩
    exact ⟨T', hf, Prod.ext hres hseen⟩
  | copyout va src =>
    refine given_onUser h hp hU fun hm hmem => ?_
    rw [hmem]
    exact granted_copyout hm

theorem Shows.sizes (hU : Shows k U) : k.sizes = U.sizes := by
  refine List.map_congr_left ?_
  intro q hq
  rw [← (hU q (List.mem_range.mp hq)).2]
  rfl

theorem given_attempt {killed : List Nat} (req : Request) (h : KInv c k) (hU : Shows k U) :
    given GrantedK Crit.total (fun ans k' => KInv c k' ∧ ans = (U.attempt killed p req).1 ∧
      Shows k' (U.attempt killed p req).2) (req.attempt killed p) k := by
  have hiff : (decide (p ∉ killed ∧ k.CanRun p) && req.inBounds (k.proc p).sz) = true ↔
      p ∉ killed ∧ p < NPROC ∧ U.state p = .runnable ∧ req.inBounds (U.mem p).sz = true := by
    rw [Bool.and_eq_true, decide_eq_true_eq, Kernel.CanRun, and_assoc, and_assoc]
    refine and_congr_right fun _ => and_congr_right fun hp => ?_
    rw [(hU p hp).1, ← (hU p hp).2]
    exact Iff.rfl
  unfold Request.attempt Users.attempt
  refine (given_bind _ _).mpr (given_look trivial ?_)
  by_cases hc : p ∉ killed ∧ p < NPROC ∧ U.state p = .runnable ∧ req.inBounds (U.mem p).sz = true
  · obtain ⟨hcan, hb⟩ := Bool.and_eq_true_iff.mp (hiff.mpr hc)
    rw [if_pos hc, if_pos (hiff.mpr hc)]
    exact given_request req h (of_decide_eq_true hcan).2 hU hb
  · rw [if_neg hc, if_neg fun hc' => hc (hiff.mp hc')]
    exact ⟨h, rfl, hU⟩

/-- The kernel answers like the abstract kernel as long as `kalloc` does not fail. -/
theorem given_session (acts : List (Nat × Request)) :
    ∀ {k : Kernel} {U : Users} {killed : List Nat}, KInv c k → Shows k U →
      given GrantedK Crit.total (fun obs _ => obs = U.session killed acts)
        (session killed acts) k := by
  induction acts with
  | nil =>
    intro k U killed _ _
    rfl
  | cons a acts ih =>
    intro k U killed h hU
    obtain ⟨p, req⟩ := a
    refine given_seq (given_attempt req h hU) ?_
    rintro ans k' ⟨h', rfl, hU'⟩
    refine (given_bind _ _).mpr (given_look trivial ?_)
    rw [hU'.sizes]
    refine given_seq (ih h' hU') ?_
    rintro obs k'' rfl
    rfl

/-- Two runs of the same requests that differ in the flags of `sbrk` only: if `kalloc` does not
    fail in either, every request has the same answer, and all sizes are the same after it. -/
theorem lazy_allocation_invisible (hb : Boot c) (hr : Reach c k) {acts acts' : List (Nat × Request)}
    (hsame : (acts.map fun a => (a.1, a.2.flagless)) = acts'.map fun a => (a.1, a.2.flagless))
    (hok : Always GrantedK (session [] acts) k) (hok' : Always GrantedK (session [] acts') k) :
    ∃ obs t t', (session [] acts).run k = .done obs t ∧ (session [] acts').run k = .done obs t' := by
  have h := hr.inv hb
  obtain ⟨obs, t, hrun, hobs⟩ := given_run (given_session acts h k.shows) hok
  obtain ⟨obs', t', hrun', hobs'⟩ := given_run (given_session acts' h k.shows) hok'
  refine ⟨obs, t, t', hrun, ?_⟩
  rw [hrun', hobs, hobs', ← Users.session_flagless acts, hsame, Users.session_flagless]

end lazily

/-- Growth that ends inside a page, and a store that a child finds. -/
def lazySample (eager : Bool) : List (Nat × Request) :=
  [(0, .sbrk 4000 eager), (0, .store 10 7), (0, .fork), (1, .load 10)]

theorem lazy_allocation_invisible_small : ∃ k, Reach smallBoot k ∧ ∃ obs t t',
    (session [] (lazySample true)).run k = .done obs t ∧
      (session [] (lazySample false)).run k = .done obs t' := by
  have hrun : (smallBoot.after userinit).any (fun k =>
      (session [] (lazySample true)).checks (fun k => k.mach.kalloc.1.isSome) k &&
        (session [] (lazySample false)).checks (fun k => k.mach.kalloc.1.isSome) k) = true := by
    decide +kernel
  have hgranted : ∀ (β : Type) (f : Kernel → Outcome VmPanic Kernel β) (k : Kernel),
      k.mach.kalloc.1.isSome = true → GrantedK β f k := by
    intro β f k hk _
    exact Option.isSome_iff_ne_none.mp hk
  obtain ⟨k, hk, hchecks⟩ := (Option.any_eq_true _ _).mp hrun
  obtain ⟨h1, h2⟩ := Bool.and_eq_true_iff.mp hchecks
  have hreach : Reach smallBoot k := .boot (run_of_after hk)
  exact ⟨k, hreach, lazy_allocation_invisible smallBoot_boot hreach rfl
    (always_of_checks hgranted h1) (always_of_checks hgranted h2)⟩

end Xv6
