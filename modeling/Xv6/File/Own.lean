/-
  Who owns which reference.

  A `Token` is one reference: to an entry of the file table, to an inode, or to one end of a pipe; and
  the duty to free the page of a pipe is one too.  A `struct file` owns the inode or the end of the pipe
  that it was opened for.  A process owns what its descriptors and its `cwd` refer to, and what it has in
  hand during a call.  `Inv` says that the counts in the state are those of the tokens.

  The theorems about actions say how an action moves tokens; `fileclose_spec` is where the last reference
  to a file hands on what the file owned.
-/
import Xv6.File.Model
import Xv6.Lib.Sum
import Mathlib.Algebra.Order.BigOperators.Group.Finset
import Mathlib.Data.Fintype.Basic

namespace Xv6.Ftable

open Lib Finset Function
open Lib.Prog hiding update
open Multiset (count count_add count_pos count_singleton count_singleton_self count_zero mem_add)

/-! ## Tokens -/

inductive Token where
  | file (f : Fin NFILE)
  | inode (ip : Nat)
  | side (pg : Nat) (writable : Bool)
  | page (pg : Nat)
  deriving DecidableEq

/-- What an open file has a reference to. -/
def File.owns (x : File) : Multiset Token :=
  match x.type with
  | .none => 0
  | .pipe => {.side x.pipe x.writable}
  | .inode => {.inode x.ip}
  | .device => {.inode x.ip}

def slotTokens (o : Option (Fin NFILE)) : Multiset Token :=
  match o with
  | none => 0
  | some f => {.file f}

def ofileTokens (ofile : Fin NOFILE → Option (Fin NFILE)) : Multiset Token :=
  ∑ fd, slotTokens (ofile fd)

def cwdTokens (cwd : Option Nat) : Multiset Token :=
  match cwd with
  | none => 0
  | some ip => {.inode ip}

def Proc.tokens (x : Proc) : Multiset Token := ofileTokens x.ofile + cwdTokens x.cwd

def Pipe.isOpen (pi : Pipe) (writable : Bool) : Bool := if writable then pi.writeopen else pi.readopen

/-- How many references of each kind there are. -/
def Sys.supply (s : Sys) : Token → Nat
  | .file f => (s.file f).ref
  | .inode ip => s.iref ip
  | .side pg w => if (s.pipe pg).any fun pi => pi.isOpen w then 1 else 0
  | .page pg => if s.pipe pg = some ⟨false, false⟩ then 1 else 0

/-- What a live process owns. Between calls `own` and `ownCwd` are its descriptors and its `cwd`; in a
    call a descriptor may be without its reference. -/
structure Held where
  self : Proc
  own : Fin NOFILE → Option (Fin NFILE)
  ownCwd : Option Nat
  hand : Multiset Token
  /-- Files just allocated, which nobody else refers to. -/
  fresh : List (Fin NFILE)
  /-- The child that `fork` is making. -/
  child : Option (Fin NPROC × Proc)

def Held.tokens (r : Held) : Multiset Token := ofileTokens r.own + cwdTokens r.ownCwd + r.hand

/-- The tokens of slot `p` of the process table, live or not. -/
def tokensOf (O : Fin NPROC → Option Held) (s : Sys) (p : Fin NPROC) : Multiset Token :=
  match O p with
  | some r => r.tokens
  | none => (s.proc p).tokens

structure Held.Idle (r : Held) : Prop where
  own : r.own = r.self.ofile
  ownCwd : r.ownCwd = r.self.cwd
  hand : r.hand = 0
  fresh : r.fresh = []
  child : r.child = none
  cwd : r.self.cwd ≠ none

def Held.idle (x : Proc) : Held := ⟨x, x.ofile, x.cwd, 0, [], none⟩

/-! ## The invariant -/

/-- The process table. -/
structure Procs (O : Fin NPROC → Option Held) (s : Sys) : Prop where
  live : ∀ p r, O p = some r → s.proc p = r.self ∧ r.self.state = .runnable
  dead : ∀ p, O p = none → (s.proc p).state ≠ .runnable
  closed : ∀ p, (s.proc p).state = .unused ∨ (s.proc p).state = .zombie →
    (s.proc p).ofile = (fun _ => none) ∧ (s.proc p).cwd = none
  child : ∀ p r np x, O p = some r → r.child = some (np, x) → s.proc np = x ∧ x.state = .used
  child_inj : ∀ p q r r' np x y, O p = some r → O q = some r' → r.child = some (np, x) →
    r'.child = some (np, y) → p = q

/-- The file table, the pipes and the inodes. -/
structure Table (O : Fin NPROC → Option Held) (s : Sys) : Prop where
  supply : ∀ k, s.supply k =
    ∑ f, (s.file f).owns.count k + ∑ p, (tokensOf O s p).count k
  closed : ∀ f, (s.file f).ref = 0 → (s.file f).type = .none
  fresh : ∀ p r f, O p = some r → f ∈ r.fresh →
    (s.file f).type = .none ∧ (s.file f).ref = 1 ∧ Token.file f ∈ r.tokens

structure Inv (O : Fin NPROC → Option Held) (s : Sys) : Prop where
  procs : Procs O s
  table : Table O s

/-- Only `exit` of the first process may panic. -/
def logic : Logic (Fin NPROC) Panic Sys Held where
  inv := Inv
  idle := Held.Idle
  tolerated := fun m => m = .initExiting

/-! ## Moving tokens -/

theorem ofileTokens_update (o : Fin NOFILE → Option (Fin NFILE)) (fd : Fin NOFILE)
    (x : Option (Fin NFILE)) :
    ofileTokens (update o fd x) + slotTokens (o fd) = ofileTokens o + slotTokens x :=
  sum_update_add (mem_univ fd) (fun _ => slotTokens) o x

theorem ofileTokens_none : ofileTokens (fun _ => none) = 0 := sum_const_zero

theorem slotTokens_le (o : Fin NOFILE → Option (Fin NFILE)) (fd : Fin NOFILE) :
    slotTokens (o fd) ≤ ofileTokens o :=
  single_le_sum (f := fun fd => slotTokens (o fd)) (fun _ _ => Multiset.zero_le _) (mem_univ fd)

variable {f : Fin NFILE}

theorem mem_tokens_of_own {r : Held} {fd : Fin NOFILE} (h : r.own fd = some f) :
    Token.file f ∈ r.tokens := by
  have hle := slotTokens_le r.own fd
  rw [h] at hle
  have hmem := Multiset.mem_of_le hle (Multiset.mem_singleton_self (Token.file f))
  exact mem_add.mpr (Or.inl (mem_add.mpr (Or.inl hmem)))

section change

variable {O O' : Fin NPROC → Option Held} {s s' : Sys} {t : Fin NPROC} {r r' : Held}

theorem tokensOf_some (hO : O t = some r) : tokensOf O s t = r.tokens := by
  unfold tokensOf
  rw [hO]

variable {p : Fin NPROC}

theorem update_live {q : Held} (h : update O t (some r') p = some q) :
    p = t ∧ q = r' ∨ p ≠ t ∧ O p = some q := by
  by_cases hp : p = t
  · rw [hp, update_self] at h
    cases h
    exact Or.inl ⟨hp, rfl⟩
  · rw [update_of_ne hp] at h
    exact Or.inr ⟨hp, h⟩

theorem update_dead (h : update O t (some r') p = none) : O p = none := by
  by_cases hp : p = t
  · rw [hp, update_self] at h
    cases h
  · rwa [update_of_ne hp] at h

/-- Of the processes only those in `T` change what they own, of the files only those in `F`. -/
theorem supply_change (T : Finset (Fin NPROC)) (F : Finset (Fin NFILE))
    (h : ∀ k, s.supply k = ∑ f, (s.file f).owns.count k + ∑ p, (tokensOf O s p).count k)
    (hT : ∀ p, p ∉ T → tokensOf O' s' p = tokensOf O s p)
    (hF : ∀ f, f ∉ F → (s'.file f).owns = (s.file f).owns)
    (hk : ∀ k, s'.supply k + ∑ f ∈ F, (s.file f).owns.count k + ∑ p ∈ T, (tokensOf O s p).count k =
      s.supply k + ∑ f ∈ F, (s'.file f).owns.count k + ∑ p ∈ T, (tokensOf O' s' p).count k)
    (k : Token) :
    s'.supply k = ∑ f, (s'.file f).owns.count k + ∑ p, (tokensOf O' s' p).count k := by
  have hp := sum_change T (fun p => (tokensOf O s p).count k) (fun p => (tokensOf O' s' p).count k)
    fun p hp => by rw [hT p hp]
  have hf := sum_change F (fun f => (s.file f).owns.count k) (fun f => (s'.file f).owns.count k)
    fun f hf => by rw [hF f hf]
  have hk := hk k
  have h := h k
  omega

/-- A process owns no more than there is. -/
theorem Table.supply_pos (h : Table O s) {k : Token} (hk : k ∈ tokensOf O s t) :
    0 < s.supply k := by
  have hle := single_le_sum (f := fun p => (tokensOf O s p).count k) (fun _ _ => Nat.zero_le _)
    (mem_univ t)
  have hpos := count_pos.mpr hk
  have hsum := h.supply k
  omega

/-- A new file is referred to by its process alone. -/
theorem Table.fresh_only (h : Table O s) {u : Fin NPROC} {ru : Held} (hu : O u = some ru)
    (hf : f ∈ ru.fresh) (ht : Token.file f ∈ tokensOf O s t) : u = t := by
  by_contra hne
  obtain ⟨_, href, hmem⟩ := h.fresh u ru f hu hf
  have hsum := h.supply (.file f)
  have hle : ∑ p ∈ {u, t}, (tokensOf O s p).count (.file f) ≤
      ∑ p, (tokensOf O s p).count (.file f) :=
    sum_le_sum_of_subset (subset_univ _)
  rw [sum_pair hne, tokensOf_some hu] at hle
  have h1 := count_pos.mpr hmem
  have h2 := count_pos.mpr ht
  have hone : s.supply (.file f) = 1 := href
  omega

/-- Slot `p` changes, and nobody but `t` has it as the child that it sets up. -/
theorem Procs.change {x : Proc} (h : Procs O s)
    (hproc : ∀ q, s'.proc q = if q = p then x else s.proc q)
    (hself : ∀ q rq, q ≠ p → O' q = some rq → ∃ r₀, O q = some r₀ ∧ rq.self = r₀.self)
    (hdead : ∀ q, q ≠ p → O' q = none → O q = none)
    (hlive : ∀ rp, O' p = some rp → rp.self = x ∧ x.state = .runnable)
    (hnone : O' p = none → x.state ≠ .runnable)
    (hclosed : x.state = .unused ∨ x.state = .zombie → x.ofile = (fun _ => none) ∧ x.cwd = none)
    (hchild : ∀ q rq c y, O' q = some rq → rq.child = some (c, y) →
      q = t ∧ c = p ∧ y = x ∧ x.state = .used ∨
      c ≠ p ∧ ∃ r₀, O q = some r₀ ∧ r₀.child = some (c, y)) : Procs O' s' := by
  refine ⟨?_, ?_, ?_, ?_, ?_⟩
  · intro q rq hq
    rw [hproc]
    by_cases hqp : q = p
    · subst hqp
      obtain ⟨hx, hrun⟩ := hlive rq hq
      rw [if_pos rfl, hx]
      exact ⟨rfl, hrun⟩
    · obtain ⟨r₀, hr₀, hsame⟩ := hself q rq hqp hq
      rw [if_neg hqp, hsame]
      exact h.live q r₀ hr₀
  · intro q hq
    rw [hproc]
    by_cases hqp : q = p
    · subst hqp
      rw [if_pos rfl]
      exact hnone hq
    · rw [if_neg hqp]
      exact h.dead q (hdead q hqp hq)
  · intro q hq
    rw [hproc] at hq ⊢
    by_cases hqp : q = p
    · rw [if_pos hqp] at hq ⊢
      exact hclosed hq
    · rw [if_neg hqp] at hq ⊢
      exact h.closed q hq
  · intro q rq c y hq hc
    rw [hproc]
    rcases hchild q rq c y hq hc with ⟨_, hcp, rfl, hused⟩ | ⟨hcp, r₀, hr₀, hc₀⟩
    · rw [if_pos hcp]
      exact ⟨rfl, hused⟩
    · rw [if_neg hcp]
      exact h.child q r₀ c y hr₀ hc₀
  · intro q q' rq rq' c y z hq hq' hy hz
    rcases hchild q rq c y hq hy with ⟨hqt, hcp, _⟩ | ⟨hcp, r₀, hr₀, hc₀⟩
    · rcases hchild q' rq' c z hq' hz with ⟨hqt', _⟩ | ⟨hno, _⟩
      · exact hqt.trans hqt'.symm
      · exact absurd hcp hno
    · rcases hchild q' rq' c z hq' hz with ⟨_, hyes, _⟩ | ⟨_, r₁, hr₁, hc₁⟩
      · exact absurd hyes hcp
      · exact h.child_inj q q' r₀ r₁ c y z hr₀ hr₁ hc₀ hc₁

/-- A process that runs is nobody's child in this sense. -/
theorem Procs.child_ne (h : Procs O s) (hO : O t = some r) {q c : Fin NPROC} {rq : Held} {y : Proc}
    (hq : O q = some rq) (hc : rq.child = some (c, y)) : c ≠ t := by
  rintro rfl
  obtain ⟨hproc, hused⟩ := h.child q rq c y hq hc
  obtain ⟨hself, hrun⟩ := h.live c r hO
  rw [← hself, hproc, hused] at hrun
  cases hrun

/-- The process changes its own slot. -/
theorem Procs.self {x : Proc} (h : Procs O s) (hO : O t = some r)
    (hproc : ∀ q, s'.proc q = if q = t then x else s.proc q) (hx : x.state = .runnable)
    (hself : r'.self = x) (hchild : r'.child = r.child) :
    Procs (update O t (some r')) s' := by
  refine h.change (t := t) hproc ?_ ?_ ?_ ?_ ?_ ?_
  · intro q rq hq hrq
    rw [update_of_ne hq] at hrq
    exact ⟨rq, hrq, rfl⟩
  · intro q hq hnone
    rwa [update_of_ne hq] at hnone
  · intro rp hrp
    rw [update_self] at hrp
    cases hrp
    exact ⟨hself, hx⟩
  · intro hnone
    rw [update_self] at hnone
    cases hnone
  · rw [hx]
    rintro (hno | hno) <;> cases hno
  · intro q rq c y hq hc
    obtain ⟨r₀, hr₀, hc₀⟩ : ∃ r₀, O q = some r₀ ∧ r₀.child = some (c, y) := by
      rcases update_live hq with ⟨rfl, rfl⟩ | ⟨_, hq⟩
      · exact ⟨r, hO, hchild ▸ hc⟩
      · exact ⟨rq, hq, hc⟩
    exact Or.inr ⟨h.child_ne hO hr₀ hc₀, r₀, hr₀, hc₀⟩

theorem Procs.hold (h : Procs O s) (hO : O t = some r) (hproc : s'.proc = s.proc)
    (hself : r'.self = r.self) (hchild : r'.child = r.child) :
    Procs (update O t (some r')) s' := by
  obtain ⟨hold, hrun⟩ := h.live t r hO
  refine h.self hO ?_ hrun hself hchild
  intro q
  rw [hproc]
  split
  · rename_i hq
    rw [hq, hold]
  · rfl

/-- An action of process `t` that changes the files in `F` at most. -/
theorem Table.hold (h : Table O s) (hO : O t = some r) (F : Finset (Fin NFILE))
    (hproc : s'.proc = s.proc) (hfile : ∀ g, g ∉ F → s'.file g = s.file g)
    (hk : ∀ k, s'.supply k + ∑ g ∈ F, (s.file g).owns.count k + r.tokens.count k =
      s.supply k + ∑ g ∈ F, (s'.file g).owns.count k + r'.tokens.count k)
    (hclosed : ∀ g ∈ F, (s'.file g).ref = 0 → (s'.file g).type = .none)
    (hmine : ∀ g ∈ F, Token.file g ∈ r.tokens ∨ (s.file g).ref = 0)
    (hfresh : ∀ g ∈ r'.fresh, (s'.file g).type = .none ∧ (s'.file g).ref = 1 ∧
      Token.file g ∈ r'.tokens) :
    Table (update O t (some r')) s' := by
  refine ⟨?_, ?_, ?_⟩
  · refine supply_change {t} F h.supply ?_ ?_ ?_
    · intro p hp
      rw [mem_singleton] at hp
      unfold tokensOf
      rw [update_of_ne hp, hproc]
    · intro g hg
      rw [hfile g hg]
    · intro k
      rw [sum_singleton, sum_singleton, tokensOf_some hO,
        tokensOf_some (update_self t (some r') O)]
      exact hk k
  · intro g
    by_cases hg : g ∈ F
    · exact hclosed g hg
    · rw [hfile g hg]
      exact h.closed g
  · intro p q g hp hq
    rcases update_live hp with ⟨_, rfl⟩ | ⟨hpt, hp⟩
    · exact hfresh g hq
    · have hold := h.fresh p q g hp hq
      by_cases hg : g ∈ F
      · -- the new files of others are not in the hands of `t`
        rcases hmine g hg with hmem | hz
        · exact absurd (h.fresh_only hp hq (by rwa [tokensOf_some hO])) hpt
        · omega
      · rw [hfile g hg]
        exact hold

/-- An action that leaves the file table. -/
theorem Inv.keep (h : Inv O s) (hO : O t = some r) (hproc : s'.proc = s.proc)
    (hfile : s'.file = s.file) (hself : r'.self = r.self) (hchild : r'.child = r.child)
    (hfresh : r'.fresh = r.fresh)
    (hk : ∀ k, s'.supply k + r.tokens.count k = s.supply k + r'.tokens.count k) :
    Inv (update O t (some r')) s' := by
  refine ⟨h.procs.hold hO hproc hself hchild, h.table.hold hO ∅ hproc ?_ hk ?_ ?_ ?_⟩
  · exact fun g _ => congrFun hfile g
  · exact fun g hg => absurd hg (notMem_empty g)
  · exact fun g hg => absurd hg (notMem_empty g)
  · intro g hg
    rw [hfresh] at hg
    obtain ⟨htype, href, hmem⟩ := h.table.fresh t r g hO hg
    rw [hfile]
    refine ⟨htype, href, ?_⟩
    have hcount := hk (.file g)
    have hsupply : s'.supply (.file g) = s.supply (.file g) := congrArg File.ref (congrFun hfile g)
    have hpos := count_pos.mpr hmem
    exact count_pos.mp (by omega)

end change

/-! ## Counts after a change of the state -/

section supply

variable (s : Sys) (k : Token)

theorem supply_setFile (f : Fin NFILE) (x : File) :
    (s.setFile f x).supply k = if k = .file f then x.ref else s.supply k := by
  cases k with
  | file g =>
    simp only [Sys.supply, Sys.setFile, update_apply, Token.file.injEq]
    split <;> rfl
  | inode | side | page => rfl

theorem supply_setFile_same {x : File} (h : x.ref = (s.file f).ref) :
    (s.setFile f x).supply k = s.supply k := by
  rw [supply_setFile]
  split
  · rename_i hk
    rw [hk, h]
    rfl
  · rfl

theorem supply_setIref (ip n : Nat) :
    (s.setIref ip n).supply k = if k = .inode ip then n else s.supply k := by
  cases k with
  | inode j =>
    simp only [Sys.supply, Sys.setIref, update_apply, Token.inode.injEq]
  | file | side | page => rfl

end supply

theorem file_setFile (s : Sys) (f g : Fin NFILE) (x : File) :
    (s.setFile f x).file g = if g = f then x else s.file g := update_apply s.file f x g

/-- A file owns no other file. -/
theorem count_file_owns (x : File) (f : Fin NFILE) : x.owns.count (.file f) = 0 := by
  unfold File.owns
  split <;> simp

/-! ## Actions -/

section actions

variable {t : Fin NPROC} {r : Held}

/-- Tokens come into the hand. -/
def Held.take (r : Held) (M : Multiset Token) : Held := { r with hand := M + r.hand }

theorem Held.tokens_take (r : Held) (M : Multiset Token) : (r.take M).tokens = M + r.tokens :=
  add_left_comm _ _ _

theorem Held.count_take (r : Held) (M : Multiset Token) (k : Token) :
    (r.take M).tokens.count k = M.count k + r.tokens.count k := by
  rw [tokens_take, count_add]

theorem Held.take_zero (r : Held) : r.take 0 = r := by
  unfold take
  rw [zero_add]

variable {O : Fin NPROC → Option Held}

theorem Table.supply_pos_take {s : Sys} {k : Token}
    (h : Table O s) (hO : O t = some (r.take {k})) : 0 < s.supply k := by
  refine h.supply_pos (t := t) ?_
  rw [tokensOf_some hO, Held.tokens_take]
  exact mem_add.mpr (Or.inl (Multiset.mem_singleton_self k))

/-! ### Inodes -/

variable {Q : Unit → Option Held → Prop} {w : Bool} {pg : Nat}

theorem iget_spec {ip : Nat} (hQ : Q () (some (r.take {.inode ip}))) :
    logic.wp t Q (iget ip) (some r) := by
  refine Logic.wp_atomic fun O s hO hinv => ⟨r.take {.inode ip}, ?_, hQ⟩
  refine hinv.keep hO rfl rfl rfl rfl rfl ?_
  intro k
  rw [supply_setIref, Held.count_take, count_singleton]
  split
  · rename_i hk
    rw [hk]
    show s.iref ip + 1 + _ = s.iref ip + _
    omega
  · omega

theorem iput_spec {ip : Nat} (hQ : Q () (some r)) :
    logic.wp t Q (iput ip) (some (r.take {.inode ip})) := by
  refine Logic.wp_atomic fun O s hO hinv => ⟨r, ?_, hQ⟩
  have hpos : 0 < s.iref ip := hinv.table.supply_pos_take hO
  refine hinv.keep hO rfl rfl rfl rfl rfl ?_
  intro k
  rw [supply_setIref, Held.count_take, count_singleton]
  split
  · rename_i hk
    rw [hk]
    show s.iref ip - 1 + _ = s.iref ip + _
    omega
  · omega

/-! ### Pipes -/

/-- What there is of a pipe. -/
def pipeSupply (pi : Option Pipe) (pg : Nat) : Token → Nat
  | .side q w => if q = pg ∧ (pi.any fun pi => pi.isOpen w) then 1 else 0
  | .page q => if q = pg ∧ pi = some ⟨false, false⟩ then 1 else 0
  | _ => 0

theorem supply_setPipe (s : Sys) (pg : Nat) (x : Option Pipe) (k : Token) :
    (s.setPipe pg x).supply k + pipeSupply (s.pipe pg) pg k = s.supply k + pipeSupply x pg k := by
  cases k with
  | file f => rfl
  | inode ip => rfl
  | side q w | page q =>
    simp only [Sys.supply, Sys.setPipe, pipeSupply, update_apply]
    by_cases hq : q = pg
    · simp only [hq, if_true, true_and]
      omega
    · simp [hq]

theorem pipeSupply_none (pg : Nat) (k : Token) : pipeSupply none pg k = 0 := by
  cases k <;> simp [pipeSupply]

/-- A pipe with both ends. -/
theorem pipeSupply_both (pg : Nat) (k : Token) : pipeSupply (some ⟨true, true⟩) pg k =
    count k {.side pg false} + count k {.side pg true} := by
  cases k with
  | file | inode | page => simp [pipeSupply]
  | side q w => cases w <;> simp [pipeSupply, Pipe.isOpen, count_singleton]

/-- Closing an end gives up its token, or turns it into the duty to free the page. -/
theorem pipeSupply_shut {pi : Pipe} (pg : Nat) (h : pi.isOpen w = true) (k : Token) :
    pipeSupply (some (pi.shut w)) pg k + count k {.side pg w} =
      pipeSupply (some pi) pg k + if decide ((pi.shut w).readopen = false ∧
        (pi.shut w).writeopen = false) then count k {.page pg} else 0 := by
  obtain ⟨ro, wo⟩ := pi
  cases k with
  | file | inode => simp [pipeSupply]
  | side q w' =>
    by_cases hq : q = pg
    · cases w <;> cases w' <;> cases ro <;> cases wo <;>
        simp_all [pipeSupply, Pipe.shut, Pipe.isOpen]
    · simp [pipeSupply, hq]
  | page q =>
    by_cases hq : q = pg
    · cases w <;> cases ro <;> cases wo <;>
        simp_all [pipeSupply, Pipe.shut, Pipe.isOpen]
    · simp [pipeSupply, hq]

theorem shutPipe_spec {Q : Bool → Option Held → Prop} (hfirst : Q false (some r))
    (hlast : Q true (some (r.take {.page pg}))) :
    logic.wp t Q (atomic (shutPipe pg w)) (some (r.take {.side pg w})) := by
  refine Logic.wp_atomic fun O s hO hinv => ?_
  have hpos : 0 < s.supply (.side pg w) := hinv.table.supply_pos_take hO
  cases hpi : s.pipe pg with
  | none =>
    simp [Sys.supply, hpi] at hpos
  | some pi =>
    have hopen : pi.isOpen w = true := by
      by_contra hno
      simp [Sys.supply, hpi, hno] at hpos
    have hsupply : ∀ k, (s.setPipe pg (some (pi.shut w))).supply k + count k {.side pg w} =
        s.supply k + if decide ((pi.shut w).readopen = false ∧ (pi.shut w).writeopen = false) then
          count k {.page pg} else 0 := by
      intro k
      have h1 := supply_setPipe s pg (some (pi.shut w)) k
      have h2 := pipeSupply_shut pg hopen k
      rw [hpi] at h1
      omega
    simp only [shutPipe, hpi]
    cases hboth : decide ((pi.shut w).readopen = false ∧ (pi.shut w).writeopen = false) with
    | true =>
      refine ⟨r.take {.page pg}, hinv.keep hO rfl rfl rfl rfl rfl ?_, hlast⟩
      intro k
      have hk := hsupply k
      rw [hboth, if_pos rfl] at hk
      rw [Held.count_take, Held.count_take]
      omega
    | false =>
      refine ⟨r, hinv.keep hO rfl rfl rfl rfl rfl ?_, hfirst⟩
      intro k
      have hk := hsupply k
      rw [hboth, if_neg Bool.false_ne_true] at hk
      rw [Held.count_take]
      omega

theorem freePipe_spec (hQ : Q () (some r)) :
    logic.wp t Q (atomic (freePipe pg)) (some (r.take {.page pg})) := by
  refine Logic.wp_atomic fun O s hO hinv => ?_
  have hpos : 0 < s.supply (.page pg) := hinv.table.supply_pos_take hO
  have hpi : s.pipe pg = some ⟨false, false⟩ := by
    by_contra hno
    simp [Sys.supply, hno] at hpos
  simp only [freePipe, hpi]
  refine ⟨r, hinv.keep hO rfl rfl rfl rfl rfl ?_, hQ⟩
  intro k
  have hk := supply_setPipe s pg none k
  rw [Held.count_take]
  rw [hpi] at hk
  have hpipe : pipeSupply (some ⟨false, false⟩) pg k = count k {.page pg} := by
    cases k <;> simp [pipeSupply, Pipe.isOpen, count_singleton]
  have hnone := pipeSupply_none pg k
  omega

theorem pipeclose_spec (hQ : Q () (some r)) :
    logic.wp t Q (pipeclose pg w) (some (r.take {.side pg w})) := by
  refine Logic.wp_bind (shutPipe_spec ?_ ?_)
  · exact hQ
  · exact freePipe_spec hQ

/-! ### Files -/

/-- File `f` is new. -/
def Held.addFresh (r : Held) (f : Fin NFILE) : Held := { r with fresh := f :: r.fresh }

/-- File `f` is not new any more. -/
def Held.unfresh (r : Held) (f : Fin NFILE) : Held :=
  { r with fresh := r.fresh.filter fun g => g ≠ f }

theorem Held.unfresh_of_not_mem (h : f ∉ r.fresh) : r.unfresh f = r := by
  have hfilter : (r.fresh.filter fun g => g ≠ f) = r.fresh := by
    rw [List.filter_eq_self]
    intro g hg
    exact decide_eq_true fun heq => h (heq ▸ hg)
  unfold unfresh
  rw [hfilter]

theorem Held.unfresh_addFresh (r : Held) (f : Fin NFILE) : (r.addFresh f).unfresh f = r.unfresh f := by
  unfold unfresh addFresh
  rw [List.filter_cons_of_neg (by simp)]

theorem Held.mem_unfresh {g : Fin NFILE} : g ∈ (r.unfresh f).fresh ↔ g ∈ r.fresh ∧ g ≠ f := by
  simp [unfresh]

/-- An action of process `t` on file `f`, to which it has a reference or nobody has. -/
theorem Inv.setFile {s : Sys} {r' : Held} {x : File} (h : Inv O s)
    (hO : O t = some r) (hself : r'.self = r.self) (hchild : r'.child = r.child)
    (hx : x.ref = 0 → x.type = .none) (hmine : Token.file f ∈ r.tokens ∨ (s.file f).ref = 0)
    (href : x.ref + r.tokens.count (.file f) = (s.file f).ref + r'.tokens.count (.file f))
    (hk : ∀ k, k ≠ .file f → (s.file f).owns.count k + r.tokens.count k =
      x.owns.count k + r'.tokens.count k)
    (hfresh : ∀ g ∈ r'.fresh, (g ∈ r.fresh ∧ g ≠ f ∨ g = f ∧ x.type = .none ∧ x.ref = 1) ∧
      Token.file g ∈ r'.tokens) : Inv (update O t (some r')) (s.setFile f x) := by
  have hself_file : (s.setFile f x).file f = x := by rw [file_setFile, if_pos rfl]
  refine ⟨h.procs.hold hO rfl hself hchild, h.table.hold hO {f} rfl ?_ ?_ ?_ ?_ ?_⟩
  · intro g hg
    rw [file_setFile, if_neg (by rwa [mem_singleton] at hg)]
  · intro k
    rw [sum_singleton, sum_singleton, hself_file, supply_setFile]
    split
    · rename_i hkf
      rw [hkf, count_file_owns, count_file_owns]
      exact href
    · rename_i hkf
      have hk := hk k hkf
      omega
  · intro g hg
    rw [mem_singleton.mp hg, hself_file]
    exact hx
  · intro g hg
    rw [mem_singleton.mp hg]
    exact hmine
  · intro g hg
    obtain ⟨hcase, hmem⟩ := hfresh g hg
    rw [file_setFile]
    rcases hcase with ⟨hold, hne⟩ | ⟨heq, htype, href⟩
    · rw [if_neg hne]
      obtain ⟨htype, href, _⟩ := h.table.fresh t r g hO hold
      exact ⟨htype, href, hmem⟩
    · rw [if_pos heq]
      exact ⟨htype, href, hmem⟩

/-- An action that changes nothing. -/
theorem Inv.same {s : Sys} (h : Inv O s) (hO : O t = some r) :
    Inv (update O t (some r)) s := by
  rwa [← hO, update_eq_self]

theorem filealloc_spec {Q : Option (Fin NFILE) → Option Held → Prop} (hnone : Q none (some r))
    (hsome : ∀ f, f ∉ r.fresh → Q (some f) (some ((r.addFresh f).take {.file f}))) :
    logic.wp t Q filealloc (some r) := by
  refine Logic.wp_atomic fun O s hO hinv => ?_
  cases hfind : (List.finRange NFILE).find? fun f => decide ((s.file f).ref = 0) with
  | none =>
    simp only [allocFile, hfind]
    exact ⟨r, hinv.same hO, hnone⟩
  | some f =>
    simp only [allocFile, hfind]
    have hdec := List.find?_some hfind
    have hz : (s.file f).ref = 0 := of_decide_eq_true hdec
    have hnew : f ∉ r.fresh := by
      intro hf
      have href := (hinv.table.fresh t r f hO hf).2.1
      omega
    have htokens : ((r.addFresh f).take {.file f}).tokens = {.file f} + r.tokens :=
      (r.addFresh f).tokens_take {.file f}
    refine ⟨_, hinv.setFile hO ?_ ?_ ?_ (Or.inr hz) ?_ ?_ ?_, hsome f hnew⟩
    · rfl
    · rfl
    · intro h1
      cases h1
    · rw [htokens, count_add, count_singleton_self, hz, Nat.zero_add]
    · intro k hk
      rw [htokens, count_add, count_singleton, if_neg hk, Nat.zero_add]
      rfl
    · intro g hg
      rw [htokens, mem_add, Multiset.mem_singleton]
      rcases List.mem_cons.mp hg with rfl | hold
      · exact ⟨Or.inr ⟨rfl, hinv.table.closed g hz, rfl⟩, Or.inl rfl⟩
      · obtain ⟨_, _, hmem⟩ := hinv.table.fresh t r g hO hold
        exact ⟨Or.inl ⟨hold, fun heq => hnew (heq ▸ hold)⟩, Or.inr hmem⟩

theorem filedup_spec (hf : Token.file f ∈ r.tokens) (hfresh : f ∉ r.fresh)
    (hQ : Q () (some (r.take {.file f}))) : logic.wp t Q (filedup f) (some r) := by
  refine Logic.wp_atomic fun O s hO hinv => ?_
  have hpos : 0 < (s.file f).ref := by
    have hmem : Token.file f ∈ tokensOf O s t := by rwa [tokensOf_some hO]
    exact hinv.table.supply_pos hmem
  simp only [dupFile, if_neg (Nat.not_lt.mpr hpos)]
  refine ⟨r.take {.file f}, hinv.setFile hO rfl rfl ?_ (Or.inl hf) ?_ ?_ ?_, hQ⟩
  · intro h0
    cases h0
  · rw [Held.count_take, count_singleton_self, ← Nat.add_assoc]
  · intro k hk
    rw [Held.count_take, count_singleton, if_neg hk, Nat.zero_add]
    rfl
  · intro g hg
    obtain ⟨_, _, hmem⟩ := hinv.table.fresh t r g hO hg
    rw [Held.tokens_take, mem_add]
    exact ⟨Or.inl ⟨hg, fun heq => hfresh (heq ▸ hg)⟩, Or.inr hmem⟩

/-- The last reference to a file hands on what the file owned. -/
theorem dropFile_spec {Q : Option File → Option Held → Prop} (hnone : Q none (some (r.unfresh f)))
    (hlast : ∀ ff : File, Q (some ff) (some ((r.unfresh f).take ff.owns))) :
    logic.wp t Q (atomic (dropFile f)) (some (r.take {.file f})) := by
  refine Logic.wp_atomic fun O s hO hinv => ?_
  have hpos : 0 < (s.file f).ref := hinv.table.supply_pos_take hO
  have hmine : Token.file f ∈ (r.take {.file f}).tokens := by
    rw [Held.tokens_take]
    exact mem_add.mpr (Or.inl (Multiset.mem_singleton_self _))
  have htokens : ∀ M : Multiset Token, ((r.unfresh f).take M).tokens = M + r.tokens :=
    fun M => (r.unfresh f).tokens_take M
  -- another new file is still referred to
  have hfresh : ∀ g ∈ (r.unfresh f).fresh,
      (g ∈ (r.take {.file f}).fresh ∧ g ≠ f) ∧ Token.file g ∈ r.tokens := by
    intro g hg
    obtain ⟨hg, hne⟩ := Held.mem_unfresh.mp hg
    obtain ⟨_, _, hmem⟩ := hinv.table.fresh t _ g hO hg
    rw [Held.tokens_take, mem_add, Multiset.mem_singleton] at hmem
    refine ⟨⟨hg, hne⟩, hmem.resolve_left ?_⟩
    intro heq
    cases heq
    exact hne rfl
  simp only [dropFile, if_neg (Nat.not_lt.mpr hpos)]
  by_cases hmore : (s.file f).ref - 1 > 0
  · rw [if_pos hmore]
    refine ⟨r.unfresh f, hinv.setFile hO rfl rfl ?_ (Or.inl hmine) ?_ ?_ ?_, hnone⟩
    · intro h0
      dsimp only at h0
      omega
    · rw [Held.count_take, count_singleton_self]
      show (s.file f).ref - 1 + _ = _ + r.tokens.count (.file f)
      omega
    · intro k hk
      rw [Held.count_take, count_singleton, if_neg hk, Nat.zero_add]
      rfl
    · exact fun g hg => ⟨Or.inl (hfresh g hg).1, (hfresh g hg).2⟩
  · rw [if_neg hmore]
    refine ⟨(r.unfresh f).take (s.file f).owns, hinv.setFile hO rfl rfl ?_ (Or.inl hmine) ?_ ?_ ?_,
      hlast (s.file f)⟩
    · exact fun _ => rfl
    · rw [Held.count_take, count_singleton_self, htokens, count_add,
        count_file_owns]
      show 0 + _ = _
      omega
    · intro k hk
      have howns : File.owns { s.file f with ref := 0, type := .none } = 0 := rfl
      rw [Held.count_take, count_singleton, if_neg hk, htokens, count_add, howns,
        count_zero, Nat.zero_add, Nat.zero_add]
    · intro g hg
      rw [htokens, mem_add]
      exact ⟨Or.inl (hfresh g hg).1, Or.inr (hfresh g hg).2⟩

theorem fileclose_spec (hQ : Q () (some (r.unfresh f))) :
    logic.wp t Q (fileclose f) (some (r.take {.file f})) := by
  refine Logic.wp_bind (dropFile_spec hQ ?_)
  intro ff
  unfold File.owns
  cases htype : ff.type with
  | none =>
    rw [Held.take_zero]
    simpa [htype] using hQ
  | pipe =>
    simp only [htype]
    exact pipeclose_spec hQ
  | inode | device =>
    simp only [htype]
    exact iput_spec hQ

/-- `open` gives its inode to the new file. -/
theorem fillFile_spec {x : Found} {omode : Nat} (hf : f ∈ r.fresh)
    (hQ : Q () (some (r.unfresh f))) :
    logic.wp t Q (Prog.update (fillFile f x omode)) (some (r.take {.inode x.ip})) := by
  refine Logic.wp_atomic fun O s hO hinv => ?_
  obtain ⟨htype, href, hmine⟩ := hinv.table.fresh t _ f hO hf
  have howns : (s.file f).owns = 0 := by
    unfold File.owns
    rw [htype]
  -- the new contents of the entry
  obtain ⟨y, hy, hyref, hyowns⟩ : ∃ y : File, fillFile f x omode s = s.setFile f y ∧ y.ref = 1 ∧
      y.owns = {.inode x.ip} := by
    unfold fillFile
    split
    · exact ⟨_, rfl, href, rfl⟩
    · exact ⟨_, rfl, href, rfl⟩
  rw [hy]
  have hsame : (r.unfresh f).tokens = r.tokens := rfl
  refine ⟨r.unfresh f, hinv.setFile hO rfl rfl ?_ (Or.inl hmine) ?_ ?_ ?_, hQ⟩
  · intro h0
    omega
  · rw [hsame, hyref, href, Held.count_take, count_singleton, if_neg nofun, Nat.zero_add]
  · intro k _
    rw [howns, hyowns, hsame, Held.count_take, count_zero, Nat.zero_add]
  · intro g hg
    obtain ⟨hg, hne⟩ := Held.mem_unfresh.mp hg
    obtain ⟨_, _, hmem⟩ := hinv.table.fresh t _ g hO hg
    rw [Held.tokens_take, mem_add] at hmem
    exact ⟨Or.inl ⟨hg, hne⟩, hmem.resolve_left nofun⟩

/-- The two new files become the ends of the pipe. -/
theorem initPipe_spec {f0 f1 : Fin NFILE} (h0 : f0 ∈ r.fresh) (h1 : f1 ∈ r.fresh) (hne : f0 ≠ f1)
    (hQ : Q () (some ((r.unfresh f0).unfresh f1))) :
    logic.wp t Q (atomic (initPipe pg f0 f1)) (some r) := by
  refine Logic.wp_atomic fun O s hO hinv => ?_
  obtain ⟨htype0, href0, hmine0⟩ := hinv.table.fresh t r f0 hO h0
  obtain ⟨htype1, href1, hmine1⟩ := hinv.table.fresh t r f1 hO h1
  simp only [initPipe]
  by_cases hpi : s.pipe pg = none
  · rw [if_pos hpi]
    generalize hx0 : (s.file f0).pipeEnd pg false = x0
    generalize hx1 : (s.file f1).pipeEnd pg true = x1
    have howns : x0.owns = {.side pg false} ∧ x1.owns = {.side pg true} := by
      rw [← hx0, ← hx1]
      exact ⟨rfl, rfl⟩
    have href : x0.ref = 1 ∧ x1.ref = 1 := by
      rw [← hx0, ← hx1]
      exact ⟨href0, href1⟩
    have hfile0 : (((s.setPipe pg (some ⟨true, true⟩)).setFile f0 x0).setFile f1 x1).file f0 = x0 := by
      rw [file_setFile, if_neg hne, file_setFile, if_pos rfl]
    have hfile1 : (((s.setPipe pg (some ⟨true, true⟩)).setFile f0 x0).setFile f1 x1).file f1 = x1 := by
      rw [file_setFile, if_pos rfl]
    have hsupply : ∀ k, (((s.setPipe pg (some ⟨true, true⟩)).setFile f0 x0).setFile f1 x1).supply k =
        s.supply k + (count k {.side pg false} + count k {.side pg true}) := by
      intro k
      have hpipe := supply_setPipe s pg (some ⟨true, true⟩) k
      rw [hpi, pipeSupply_none, pipeSupply_both] at hpipe
      rw [supply_setFile_same, supply_setFile_same]
      · exact hpipe
      · exact href.1.trans href0.symm
      · rw [file_setFile, if_neg hne.symm]
        exact href.2.trans href1.symm
    refine ⟨(r.unfresh f0).unfresh f1, ⟨hinv.procs.hold hO rfl rfl rfl, ?_⟩, hQ⟩
    refine hinv.table.hold hO {f0, f1} rfl ?_ ?_ ?_ ?_ ?_
    · intro g hg
      rw [mem_insert, mem_singleton, not_or] at hg
      rw [file_setFile, if_neg hg.2, file_setFile, if_neg hg.1]
      rfl
    · intro k
      rw [sum_pair hne, sum_pair hne, hfile0, hfile1, hsupply]
      have howns0 : (s.file f0).owns = 0 := by
        unfold File.owns
        rw [htype0]
      have howns1 : (s.file f1).owns = 0 := by
        unfold File.owns
        rw [htype1]
      have hsame : ((r.unfresh f0).unfresh f1).tokens = r.tokens := rfl
      rw [howns0, howns1, howns.1, howns.2, hsame, count_zero]
      omega
    · intro g hg hz
      rw [mem_insert, mem_singleton] at hg
      rcases hg with rfl | rfl
      · rw [hfile0, href.1] at hz
        cases hz
      · rw [hfile1, href.2] at hz
        cases hz
    · intro g hg
      rw [mem_insert, mem_singleton] at hg
      rcases hg with rfl | rfl
      · exact Or.inl hmine0
      · exact Or.inl hmine1
    · intro g hg
      obtain ⟨hg, hg1⟩ := Held.mem_unfresh.mp hg
      obtain ⟨hg, hg0⟩ := Held.mem_unfresh.mp hg
      rw [file_setFile, if_neg hg1, file_setFile, if_neg hg0]
      exact hinv.table.fresh t r g hO hg
  · rw [if_neg hpi]
    trivial

end actions

end Xv6.Ftable
