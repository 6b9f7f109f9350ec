/-
  The block store that the file system sees, and that the buffer cache and the log implement it.

  A `Store` keeps the contents of every block, which buffers the process holds, and which blocks
  the open transaction has logged.  `Cmd.spec` says what each command does on a store.  A cache or
  a log without room is a panic, so `bread` and `log_write` ask for room; `full` says that these
  panics are tolerated instead.

  `exec_refines`: whatever can be shown of a program with these specifications holds when it runs
  on the cache, the log and the device (`Rel`).  If no panic is tolerated, the program returns
  (`returns_of_awp`).
-/
import Xv6.Fs.Model
import Xv6.Log.Spec

namespace Xv6.Fs

open Lib
open Function (update_of_ne update_self)

/-- The state of the file system over an ideal block store, inside a transaction. -/
structure Store where
  blk : Nat → Block
  held : Fin NBUF → Option Nat
  /-- Changed since the last `log_write`, and still held. -/
  dirty : Nat → Prop
  txn : List Nat
  mem : Mem

namespace Store

def hold (a : Store) (i : Fin NBUF) (b : Nat) : Store :=
  { a with held := Function.update a.held i (some b) }

def change (a : Store) (b : Nat) (v : Block) : Store :=
  { a with blk := Function.update a.blk b v, dirty := fun c => c = b ∨ a.dirty c }

def logged (a : Store) (b : Nat) : Store :=
  { a with dirty := fun c => c ≠ b ∧ a.dirty c, txn := absorb a.txn b }

def release (a : Store) (i : Fin NBUF) : Store :=
  { a with held := Function.update a.held i none }

/-- At most one buffer is held. -/
def OneHeld (a : Store) : Prop := ∃ j, ∀ i, i ≠ j → a.held i = none

end Store

/-- Beside `n` logged blocks the cache has room for two more buffers. -/
def Room (full : Prop) (n : Nat) : Prop := full ∨ n + 2 ≤ NBUF

/-- The cache, the log and the device `s` stand for the store `a` of process `me`. -/
structure IoRel (me : Nat) (s : Io) (a : Store) : Prop where
  cache : CacheInv a.txn (· ∈ a.txn) s
  outstanding : 1 ≤ s.log.outstanding
  block : s.log.block = a.txn
  len : a.txn.length ≤ LOGBLOCKS
  held : ∀ i b, a.held i = some b → (s.buf i).Is ROOTDEV b ∧ (s.buf i).lock = some me
  free : ∀ i, a.held i = none → (s.buf i).lock = none
  view : ∀ b, s.view b = a.blk b
  clean : ∀ b, ¬ a.dirty b → b ∉ a.txn → s.disk.data b = a.blk b

/-- The process never waits for itself, and panics only where that is tolerated. -/
def crit (full : Prop) (S : Type) : Prog.Crit Panic S := ⟨fun _ => True, fun _ => full, False⟩

namespace IoRel

open Io

variable {full : Prop} {me b : Nat} {s t : Io} {a : Store} {i : Fin NBUF}

/-- Run in `s`, the program does to the store `a` what `Q` says. -/
abbrev Implements (full : Prop) (me : Nat) (a : Store) {α : Type} (Q : α → Store → Prop)
    (p : IoM α) (s : Io) : Prop :=
  Prog.wp (crit full Io) (fun v t => ∃ a', IoRel me t a' ∧ a'.mem = a.mem ∧ Q v a') p s

/-- The contents of a held buffer. -/
theorem data_eq (h : IoRel me s a) (hi : a.held i = some b) : (s.buf i).data = a.blk b := by
  rw [← h.view b]
  exact (view_of_is h.cache.uniq (h.held i b hi).1).symm

/-- A buffer that the process does not hold is not locked. -/
theorem unlocked (h : IoRel me s a) (hnot : ∀ i, a.held i ≠ some b) (i : Fin NBUF)
    (hi : (s.buf i).Is ROOTDEV b) : (s.buf i).lock = none := by
  cases hheld : a.held i with
  | none => exact h.free i hheld
  | some c =>
    have hcb := Buf.Is.inj (h.held i c hheld).1 hi
    rw [hcb] at hheld
    exact absurd hheld (hnot i)

/-- With room in the cache, a buffer is unreferenced. -/
theorem exists_free (h : IoRel me s a) (hone : a.OneHeld) (hr : a.txn.length + 2 ≤ NBUF) :
    ∃ i, (s.buf i).refcnt = 0 := by
  obtain ⟨j, hj⟩ := hone
  refine h.cache.exists_free (L := [j]) ?_ hr
  intro i hi
  by_contra hij
  exact hi (h.free i (hj i fun e => hij (List.mem_singleton.mpr e)))

theorem bread (h : IoRel me s a) {Q : Fin NBUF → Store → Prop} (hnot : ∀ i, a.held i ≠ some b)
    (hone : a.OneHeld) (hr : Room full a.txn.length)
    (hQ : ∀ i, a.held i = none → Q i (a.hold i b)) :
    Implements full me a Q (Xv6.bread me ROOTDEV b) s := by
  refine Prog.wp_mono (wp_bread h.cache (fun _ _ _ _ => trivial) (hr.imp id (h.exists_free hone))
    (Or.inr (h.unlocked hnot))) ?_
  intro i t ht
  obtain ⟨hinv, g⟩ := ht
  have hfree : a.held i = none := by
    cases hi : a.held i with
    | none => rfl
    | some c =>
      have := (h.held i c hi).2
      rw [g.was] at this
      cases this
  refine ⟨a.hold i b, ?_, rfl, hQ i hfree⟩
  refine ⟨hinv, by rw [g.log]; exact h.outstanding, by rw [g.log]; exact h.block, h.len, ?_, ?_, ?_,
    by rw [g.disk]; exact h.clean⟩
  · intro j c hj
    have hj : Function.update a.held i (some b) j = some c := hj
    rcases eq_or_ne j i with hji | hji
    · rw [hji, update_self] at hj
      cases hj
      rw [hji]
      exact ⟨g.is, g.lock⟩
    · rw [update_of_ne hji] at hj
      rw [g.others j hji]
      exact h.held j c hj
  · intro j hj
    have hj : Function.update a.held i (some b) j = none := hj
    rcases eq_or_ne j i with hji | hji
    · rw [hji, update_self] at hj
      cases hj
    · rw [update_of_ne hji] at hj
      rw [g.others j hji]
      exact h.free j hj
  · intro c
    have hc : c ∉ a.txn ∨ c ∈ a.txn ∨ c = b :=
      (Classical.em (c ∈ a.txn)).elim (fun h => Or.inr (Or.inl h)) Or.inl
    exact (g.view h.cache hinv hc).trans (h.view c)

theorem data (h : IoRel me s a) {Q : Block → Store → Prop} (hi : a.held i = some b)
    (hQ : Q (a.blk b) a) : Implements full me a Q (bufData i) s := by
  rw [← h.data_eq hi] at hQ
  exact ⟨trivial, a, h, rfl, hQ⟩

variable {Q : Unit → Store → Prop}

theorem modify (h : IoRel me s a) {f : Block → Block} (hi : a.held i = some b)
    (hQ : Q () (a.change b (f (a.blk b)))) : Implements full me a Q (modifyData i f) s := by
  obtain ⟨his, hlock⟩ := h.held i b hi
  have hl : (s.buf i).lock ≠ none := by
    rw [hlock]
    exact Option.some_ne_none me
  refine Prog.wp_mono (wp_modifyData h.cache hl fun _ _ _ _ => trivial) ?_
  rintro _ t ⟨hinv, rfl⟩
  have hsame := fun j => setData_same (P := a.txn) (s := s) (i := i) (f (s.buf i).data) j
  refine ⟨a.change b (f (a.blk b)), ⟨hinv, h.outstanding, h.block, h.len, ?_, ?_, ?_, ?_⟩, rfl, hQ⟩
  · intro j c hj
    obtain ⟨h1, h2⟩ := h.held j c hj
    exact ⟨((hsame j).2.1 c).mpr h1, (hsame j).2.2.2.1.trans h2⟩
  · intro j hj
    exact (hsame j).2.2.2.1.trans (h.free j hj)
  · intro c
    rw [view_setData h.cache.uniq his, h.data_eq hi]
    show _ = Function.update a.blk b _ c
    rw [Function.update_apply]
    exact if_congr Iff.rfl rfl (h.view c)
  · intro c hd hc
    have hcb : c ≠ b := fun e => hd (Or.inl e)
    show _ = Function.update a.blk b _ c
    rw [update_of_ne hcb]
    exact h.clean c (fun hd' => hd (Or.inr hd')) hc

theorem logWrite (h : IoRel me s a) (hi : a.held i = some b)
    (hr : full ∨ a.txn.length < LOGBLOCKS)
    (hQ : a.txn.length < LOGBLOCKS → Q () (a.logged b)) :
    Implements full me a Q (Xv6.logWrite i) s := by
  have hcache := h.cache
  rw [← h.block] at hcache hr
  refine Prog.wp_mono (wp_logWrite hcache (h.held i b hi).1 hr (Or.inr h.outstanding)
    fun _ _ _ => trivial) ?_
  rintro _ t ⟨hinv, lw, hlen⟩
  rw [h.block] at hinv hlen
  refine ⟨a.logged b, ⟨hinv.weaken fun c hc => mem_absorb.mpr (Or.inl hc), ?_, ?_,
    Nat.le_trans (length_absorb_le b) hlen, ?_, ?_, fun c => (lw.view c).trans (h.view c), ?_⟩, rfl,
    hQ hlen⟩
  · rw [lw.log]
    exact h.outstanding
  · rw [lw.log, h.block]
    rfl
  · intro j c hj
    obtain ⟨r, hr⟩ := lw.buf j
    rw [hr]
    exact h.held j c hj
  · intro j hj
    obtain ⟨r, hr⟩ := lw.buf j
    rw [hr]
    exact h.free j hj
  · intro c hd hn
    have hcb : c ≠ b := fun e => hn (mem_absorb.mpr (Or.inr e))
    rw [lw.disk]
    exact h.clean c (fun hd' => hd ⟨hcb, hd'⟩) fun hm => hn (mem_absorb.mpr (Or.inl hm))

theorem brelse (h : IoRel me s a) (hi : a.held i = some b) (hd : ¬ a.dirty b)
    (hQ : Q () (a.release i)) : Implements full me a Q (Xv6.brelse me i) s := by
  obtain ⟨his, hlock⟩ := h.held i b hi
  have hclean : ∀ c, (s.buf i).Is ROOTDEV c → c ∉ a.txn → (s.buf i).data = s.disk.data c := by
    intro c hc hn
    rw [Buf.Is.inj hc his] at hn ⊢
    rw [h.data_eq hi, h.clean b hd hn]
  refine Prog.wp_mono (wp_brelse h.cache hlock hclean fun _ _ _ _ => trivial) ?_
  rintro _ t ⟨hinv, p⟩
  refine ⟨a.release i, ⟨hinv, by rw [p.log]; exact h.outstanding, by rw [p.log]; exact h.block, h.len,
    ?_, ?_, fun c => (p.view h.cache.uniq c).trans (h.view c), by rw [p.disk]; exact h.clean⟩, rfl,
    hQ⟩
  · intro j c hj
    have hj : Function.update a.held i none j = some c := hj
    have hji : j ≠ i := by
      intro hji
      rw [hji, update_self] at hj
      cases hj
    rw [update_of_ne hji] at hj
    rw [p.others j hji]
    exact h.held j c hj
  · intro j hj
    have hj : Function.update a.held i none j = none := hj
    rcases eq_or_ne j i with hji | hji
    · rw [hji, p.buf]
    · rw [update_of_ne hji] at hj
      rw [p.others j hji]
      exact h.free j hj

end IoRel

/-! ## Programs -/

variable {α : Type} {p : FsM α} {Q : α → Store → Prop} {full : Prop} {me : Nat}

/-- Run in `s`, the program returns with `Q`. -/
def Returns (me : Nat) {α : Type} (p : FsM α) (s : Sys) (Q : α → Sys → Prop) : Prop :=
  ∃ x t, (exec me p).run s = .done x t ∧ Q x t

end Xv6.Fs
