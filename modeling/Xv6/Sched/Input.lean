/-
  What the console delivers.

  `Tty` is the input as a user sees it: everything committed since boot, the line that is being
  edited, and how far it has been read.  `Shows cons t` says that the circular buffer holds the part
  of it that has not been read; `Shows.key` and `Shows.take` are its two steps.

  `transcript` goes along a run of the kernel and writes down what the keys made of the input, what
  the calls of `consoleread` stored, in the order in which they held the lock, and what each call has
  looked at.  `console_delivery` is the result, for runs in which each byte is taken in turn: no copy
  to a reader's buffer fails, and no reader overtakes one that went to sleep in the middle of its
  call.  `lost_byte` is a run in which a copy fails: the byte that could not be copied is gone.
-/
import Xv6.Sched.Console

namespace Xv6.Sched

open Lib
open Function (update_of_ne update_self)
open List (length_append length_singleton)

/-! ## Input as a user sees it -/

/-- All the input committed since boot, the line being edited, and the read position. -/
structure Tty where
  committed : List (BitVec 8)
  line : List (BitVec 8)
  pos : Nat

/-- A key: erase, kill, and the others with carriage return as newline. -/
def Tty.key (t : Tty) (c : BitVec 8) : Tty :=
  if c = 16 then t
  else if c = 21 then { t with line := [] }
  else if c = 8 ∨ c = 127 then { t with line := t.line.dropLast }
  else if c ≠ 0 ∧ t.committed.length + t.line.length < t.pos + INPUT_BUF_SIZE then
    let c := if c = 13 then 10 else c
    if c = 10 ∨ c = 4 ∨ t.committed.length + t.line.length + 1 = t.pos + INPUT_BUF_SIZE then
      { t with committed := t.committed ++ (t.line ++ [c]), line := [] }
    else { t with line := t.line ++ [c] }
  else t

/-- The cell of the buffer for the byte at position `j` of the input. -/
def cell (j : Nat) : Fin INPUT_BUF_SIZE := Fin.ofNat INPUT_BUF_SIZE j

structure Shows (cons : Cons) (t : Tty) : Prop where
  pos : t.pos ≤ t.committed.length
  size : t.committed.length + t.line.length ≤ t.pos + INPUT_BUF_SIZE
  r : cons.r = BitVec.ofNat 32 t.pos
  w : cons.w = BitVec.ofNat 32 t.committed.length
  e : cons.e = BitVec.ofNat 32 (t.committed.length + t.line.length)
  bytes : ∀ j b, t.pos ≤ j → (t.committed ++ t.line)[j]? = some b → cons.buf (cell j) = b
  line : ∀ b ∈ t.line, b ≠ 10 ∧ b ≠ 4

theorem slot_ofNat (j : Nat) : Ring.slot INPUT_BUF_SIZE (BitVec.ofNat 32 j) = cell j := by
  apply Fin.ext
  show (BitVec.ofNat 32 j).toNat % 128 = j % 128
  rw [BitVec.toNat_ofNat]
  omega

theorem cell_ne {i j : Nat} (hij : i < j) (hlt : j < i + INPUT_BUF_SIZE) : cell i ≠ cell j := by
  intro h
  have hval : i % 128 = j % 128 := congrArg Fin.val h
  simp only [INPUT_BUF_SIZE] at hlt
  omega

theorem toNat_sub_ofNat {a b : Nat} (hle : b ≤ a) (hlt : a < b + 2 ^ 32) :
    (BitVec.ofNat 32 a - BitVec.ofNat 32 b).toNat = a - b := by
  rw [BitVec.toNat_sub, BitVec.toNat_ofNat, BitVec.toNat_ofNat]
  omega

theorem ofNat_ne {a b : Nat} (hlt : a < b) (hb : b < a + 2 ^ 32) :
    BitVec.ofNat 32 a ≠ BitVec.ofNat 32 b := by
  intro h
  have hval := congrArg BitVec.toNat h
  rw [BitVec.toNat_ofNat, BitVec.toNat_ofNat] at hval
  omega

theorem ofNat_succ (a : Nat) : BitVec.ofNat 32 (a + 1) = BitVec.ofNat 32 a + 1 :=
  BitVec.ofNat_add a 1

theorem ofNat_succ_sub_one (a : Nat) : BitVec.ofNat 32 (a + 1) - 1 = BitVec.ofNat 32 a := by
  rw [ofNat_succ]
  exact add_sub_cancel_right _ _

theorem Shows.init : Shows ⟨fun _ => 0, 0, 0, 0⟩ ⟨[], [], 0⟩ := by
  refine ⟨Nat.le_refl _, by decide, rfl, rfl, rfl, ?_, nofun⟩
  intro j b _ hb
  simp at hb

namespace Shows

variable {cons : Cons} {t : Tty}

/-- The test `cons.e != cons.w`. -/
theorem editing (h : Shows cons t) : cons.e ≠ cons.w ↔ t.line ≠ [] := by
  have hsize := h.size
  have hpos := h.pos
  rw [h.e, h.w]
  constructor
  · intro hne hnil
    rw [hnil] at hne
    exact hne rfl
  · intro hne
    have hlen := List.length_pos_iff.mpr hne
    simp only [INPUT_BUF_SIZE] at hsize
    exact (ofNat_ne (by omega) (by omega)).symm

/-- `e` goes back over the line. -/
theorem erase (h : Shows cons t) (hne : t.line ≠ []) :
    Shows { cons with e := cons.e - 1 } { t with line := t.line.dropLast } := by
  obtain ⟨l, b, hl⟩ := List.eq_nil_or_concat t.line |>.resolve_left hne
  obtain ⟨hpos, hsize, hr, hw, he, hbytes, hline⟩ := h
  rw [hl] at hsize he hbytes hline ⊢
  rw [List.concat_eq_append] at hsize he hbytes hline ⊢
  rw [length_append, length_singleton] at hsize he
  rw [List.dropLast_concat]
  refine ⟨hpos, ?_, hr, hw, ?_, ?_, ?_⟩
  · dsimp only
    omega
  · rw [he, ← Nat.add_assoc, ofNat_succ_sub_one]
  · intro j x hj hx
    refine hbytes j x hj ?_
    rw [← List.append_assoc, List.getElem?_append_left ?_]
    · exact hx
    · exact (List.getElem?_eq_some_iff.mp hx).1
  · intro x hx
    exact hline x (List.mem_append_left _ hx)

/-- The last byte of the line. -/
theorem last (h : Shows cons t) {l : List (BitVec 8)} {b : BitVec 8} (hl : t.line = l ++ [b]) :
    cons.buf (Ring.slot INPUT_BUF_SIZE (cons.e - 1)) = b := by
  rw [h.e, hl, length_append, length_singleton, ← Nat.add_assoc, ofNat_succ_sub_one,
    slot_ofNat]
  refine h.bytes _ b ?_ ?_
  · have := h.pos
    omega
  · rw [hl, ← List.append_assoc, ← length_append, List.getElem?_concat_length]

/-- The loop of `C('U')` takes the whole line away: there is no newline in it. -/
theorem killLine (fuel : Nat) : ∀ {cons : Cons} {t : Tty}, Shows cons t → t.line.length = fuel →
    Shows (cons.killLine fuel) { t with line := [] } := by
  induction fuel with
  | zero =>
    intro cons t h hlen
    rw [← List.length_eq_zero_iff.mp hlen]
    exact h
  | succ fuel ih =>
    intro cons t h hlen
    have hne : t.line ≠ [] := by
      intro hnil
      rw [hnil] at hlen
      cases hlen
    obtain ⟨l, b, hl⟩ := List.eq_nil_or_concat t.line |>.resolve_left hne
    rw [List.concat_eq_append] at hl
    have hb : b ≠ 10 := (h.line b (by rw [hl]; simp)).1
    unfold Cons.killLine
    rw [if_pos ⟨h.editing.mpr hne, by rw [h.last hl]; exact hb⟩]
    have hrest : t.line.dropLast.length = fuel := by
      rw [List.length_dropLast, hlen]
      rfl
    exact @ih _ { t with line := t.line.dropLast } (h.erase hne) hrest

/-- A byte is put behind the line. -/
theorem put (h : Shows cons t) (c : BitVec 8)
    (hroom : t.committed.length + t.line.length < t.pos + INPUT_BUF_SIZE) {j : Nat} {b : BitVec 8}
    (hj : t.pos ≤ j) (hb : (t.committed ++ (t.line ++ [c]))[j]? = some b) :
    Function.update cons.buf (Ring.slot INPUT_BUF_SIZE cons.e) c (cell j) = b := by
  rw [h.e, slot_ofNat, ← List.append_assoc] at *
  have hlen : (t.committed ++ t.line).length = t.committed.length + t.line.length :=
    length_append
  rcases Nat.lt_or_ge j (t.committed.length + t.line.length) with hlt | hge
  · rw [update_of_ne (cell_ne hlt (by omega))]
    rw [List.getElem?_append_left (by omega)] at hb
    exact h.bytes j b hj hb
  · have hjlen := (List.getElem?_eq_some_iff.mp hb).1
    rw [length_append, length_singleton] at hjlen
    have hjeq : j = (t.committed ++ t.line).length := by omega
    rw [hjeq, List.getElem?_concat_length] at hb
    rw [hjeq, hlen, update_self]
    exact Option.some.inj hb

theorem key (h : Shows cons t) (c : BitVec 8) : Shows (cons.intr c) (t.key c) := by
  have hpos := h.pos
  have hsize := h.size
  have hcount : (cons.e - cons.r).toNat = t.committed.length + t.line.length - t.pos := by
    rw [h.e, h.r]
    simp only [INPUT_BUF_SIZE] at hsize
    exact toNat_sub_ofNat (by omega) (by omega)
  have hline : (cons.e - cons.w).toNat = t.line.length := by
    rw [h.e, h.w, toNat_sub_ofNat (by omega) ?_]
    · omega
    · omega
  have hsucc : cons.e + 1 = BitVec.ofNat 32 (t.committed.length + t.line.length + 1) := by
    rw [h.e, ofNat_succ]
  unfold Cons.intr Tty.key
  by_cases h16 : c = 16
  · rw [if_pos h16, if_pos h16]
    exact h
  rw [if_neg h16, if_neg h16]
  by_cases h21 : c = 21
  · rw [if_pos h21, if_pos h21, hline]
    exact killLine _ h rfl
  rw [if_neg h21, if_neg h21]
  by_cases hdel : c = 8 ∨ c = 127
  · rw [if_pos hdel, if_pos hdel]
    by_cases hne : cons.e ≠ cons.w
    · rw [if_pos hne]
      exact h.erase (h.editing.mp hne)
    · rw [if_neg hne]
      have hnil : t.line = [] := by
        by_contra hc
        exact hne (h.editing.mpr hc)
      rw [hnil, List.dropLast_nil, ← hnil]
      exact h
  rw [if_neg hdel, if_neg hdel]
  have hroomiff : (cons.e - cons.r).toNat < INPUT_BUF_SIZE ↔
      t.committed.length + t.line.length < t.pos + INPUT_BUF_SIZE := by
    omega
  by_cases hroom : c ≠ 0 ∧ t.committed.length + t.line.length < t.pos + INPUT_BUF_SIZE
  · rw [if_pos ⟨hroom.1, hroomiff.mpr hroom.2⟩]
    generalize (if c = 13 then 10 else c) = ch
    have hfull : (cons.e + 1 - cons.r).toNat = INPUT_BUF_SIZE ↔
        t.committed.length + t.line.length + 1 = t.pos + INPUT_BUF_SIZE := by
      rw [hsucc, h.r, toNat_sub_ofNat (by omega) ?_]
      · omega
      · have := hroom.2
        simp only [INPUT_BUF_SIZE] at this
        omega
    simp only [hfull]
    split
    · refine ⟨?_, ?_, h.r, ?_, ?_, ?_, fun _ hb => absurd hb List.not_mem_nil⟩
      · dsimp only
        rw [length_append]
        omega
      · simp only [length_append, length_singleton, List.length_nil]
        omega
      · simp only [length_append, length_singleton]
        rw [hsucc, Nat.add_assoc]
      · simp only [length_append]
        rw [hsucc]
        rfl
      · intro j b hj hb
        rw [List.append_nil] at hb
        exact h.put ch hroom.2 hj hb
    · rename_i hend
      rw [not_or, not_or] at hend
      refine ⟨hpos, ?_, h.r, h.w, ?_, ?_, ?_⟩
      · simp only [length_append, length_singleton]
        omega
      · simp only [length_append, length_singleton]
        rw [hsucc, Nat.add_assoc]
      · intro j b hj hb
        exact h.put ch hroom.2 hj hb
      · intro b hb
        rcases List.mem_append.mp hb with hb | hb
        · exact h.line b hb
        · rw [List.mem_singleton.mp hb]
          exact ⟨hend.1, hend.2.1⟩
  · rw [if_neg fun hc => hroom ⟨hc.1, hroomiff.mp hc.2⟩, if_neg hroom]
    exact h

/-- There is something to take. -/
theorem unread (h : Shows cons t) (hne : cons.r ≠ cons.w) : t.pos < t.committed.length := by
  refine Nat.lt_of_le_of_ne h.pos ?_
  intro heq
  rw [h.r, h.w, heq] at hne
  exact hne rfl

/-- The byte at the read position. -/
theorem next (h : Shows cons t) (hlt : t.pos < t.committed.length) :
    cons.buf (Ring.slot INPUT_BUF_SIZE cons.r) = t.committed[t.pos] := by
  rw [h.r, slot_ofNat]
  refine h.bytes t.pos _ (Nat.le_refl _) ?_
  rw [List.getElem?_append_left hlt, List.getElem?_eq_getElem hlt]

/-- A reader takes a byte. -/
theorem take (h : Shows cons t) (hlt : t.pos < t.committed.length) :
    Shows { cons with r := cons.r + 1 } { t with pos := t.pos + 1 } := by
  refine ⟨hlt, ?_, ?_, h.w, h.e, ?_, h.line⟩
  · have := h.size
    dsimp only
    omega
  · rw [h.r, ofNat_succ]
  · intro j b hj hb
    exact h.bytes j b (Nat.le_of_succ_le hj) hb

end Shows

/-! ## Runs -/

/-- The byte that `consoleread` is at. -/
def Cons.head (cons : Cons) : BitVec 8 := cons.buf (Ring.slot INPUT_BUF_SIZE cons.r)

structure Transcript where
  tty : Tty
  /-- What the calls of `consoleread` have stored, in lock order. -/
  stored : List (BitVec 8)
  /-- What the latest call of each process has looked at. -/
  seen : Nat → List (BitVec 8)

namespace Transcript

def init : Transcript := ⟨⟨[], [], 0⟩, [], fun _ => []⟩

/-- Process `p` is at the byte `b`: a control-D is put back if the call has stored something, any
    other byte is copied out, which succeeds or not. -/
def take (g : Transcript) (p : Nat) (b : BitVec 8) (putBack ok : Bool) : Transcript where
  tty := { g.tty with pos := if b = 4 ∧ putBack then g.tty.pos else g.tty.pos + 1 }
  stored := if b ≠ 4 ∧ ok then g.stored ++ [b] else g.stored
  seen := Function.update g.seen p (g.seen p ++ [b])

end Transcript

/-- Did the copy succeed? -/
def KIn.landed : KIn → Bool
  | .copy ok _ => ok
  | _ => false

section run

variable {κ : Type} [DecidableEq κ] {n : Nat} {s t : Sys κ KLock KChan KData KPt} {c : κ}
  {a : Act KChan KIn KPt} {p : Nat} {g : Transcript}

/-- What a step of CPU `c` adds. -/
def Transcript.next (g : Transcript) (s : Sys κ KLock KChan KData KPt) (c : κ)
    (a : Act KChan KIn KPt) : Transcript :=
  match a, (s.cpu c).code with
  | .device (.key k), _ => { g with tty := g.tty.key k }
  | .input x, .thread p (.client (.consoleread target (.take n))) =>
    g.take p s.mem.data.cons.head (n < target) x.landed
  -- a call that has just got the lock has seen nothing
  | .run, .thread p (.client (.consoleread _ .acquire)) =>
    { g with seen := Function.update g.seen p [] }
  | _, _ => g

def transcript (n : Nat) : Sys κ KLock KChan KData KPt → List (κ × Act KChan KIn KPt) →
    Transcript → Transcript
  | _, [], g => g
  | s, (c, a) :: acts, g =>
    match step kernel n s c a with
    | some t => transcript n t acts (g.next s c a)
    | none => g

/-- The loop of `consoleread`: from here the call may still take a byte. -/
def KPt.reading : KPt → Prop
  | .consoleread _ .acquire => False
  | .consoleread _ (.release _) => False
  | .consoleread _ _ => True
  | _ => False

def Wait.reading : Wait KLock KChan KPt → Prop
  | .client _ _ next => next.reading
  | .kwait _ => False

def Pc.Reading : Pc KLock KChan KPt → Prop
  | .client l => l.reading
  | .sleep _ w => w.reading
  | .wakeup _ _ (.client next) => next.reading
  | .yield _ k => k.Reading
  | _ => False

/-- Process `p` takes a byte, as it should: the copy to its buffer succeeds, and no other call that
    has looked at input is still in its loop. -/
structure InTurn (s : Sys κ KLock KChan KData KPt) (g : Transcript) (p : Nat) (x : KIn) : Prop where
  lands : s.mem.data.cons.head ≠ 4 → x.landed = true
  alone : ∀ q pc, q ≠ p → s.At q pc → pc.Reading → g.seen q = []

/-- Every byte that is taken in a run is taken in turn. -/
def Orderly (n : Nat) : Sys κ KLock KChan KData KPt → List (κ × Act KChan KIn KPt) →
    Transcript → Prop
  | _, [], _ => True
  | s, (c, a) :: acts, g =>
    (∀ p target k x, (s.cpu c).code = .thread p (.client (.consoleread target (.take k))) →
      a = .input x → InTurn s g p x) ∧
    ∀ t, step kernel n s c a = some t → Orderly n t acts (g.next s c a)

/-! ### Steps -/

/-- The loop is entered with the lock. -/
theorem reading_of_leads {l next : KPt} (h : Leads next (kernelCode l)) (hr : next.reading) :
    l.reading ∨ ∃ target, l = .consoleread target .acquire := by
  have hheld : KLock.cons ∈ next.held := by
    cases next with
    | consoleread target pt =>
      cases pt with
      | acquire => exact hr.elim
      | _ => exact List.mem_cons_self
    | _ => exact hr.elim
  have hlock := kernel_leads h hheld
  cases l with
  | consoleread target pt =>
    cases pt with
    | acquire => exact Or.inr ⟨target, rfl⟩
    | release ret =>
      cases h
      exact hr.elim
    | _ => exact Or.inl trivial
  | _ => cases hlock

theorem threadStep_reading {m m' : Mem κ KLock KChan KData KPt} {pc pc' : Pc KLock KChan KPt}
    (h : threadStep kernel n c p a m pc = some (m', .go pc')) (hr : pc'.Reading) :
    pc.Reading ∨ ∃ target, pc = .client (.consoleread target .acquire) := by
  cases threadStep_eff h with
  | user heff =>
    cases heff with
    | enter l hl =>
      -- a call starts outside the loop
      cases l with
      | consoleread target pt =>
        cases pt with
        | acquire => exact hr.elim
        | _ => cases hl
      | _ => exact hr.elim
    | _ => exact hr.elim
  | client l heff =>
    have hlead : ∀ next, Leads next (kernelCode l) → next.reading →
        l.reading ∨ ∃ target, Pc.client l = (.client (.consoleread target .acquire) : Pc KLock KChan KPt) := by
      intro next hl hn
      rcases reading_of_leads hl hn with hl | ⟨target, rfl⟩
      · exact Or.inl hl
      · exact Or.inr ⟨target, rfl⟩
    cases heff with
    | acquire _ next hcode | release _ next hcode | sleep _ _ next hcode | wakeup _ next hcode =>
      exact hlead next (by rw [show kernelCode l = _ from hcode]; rfl) hr
    | killed next hcode =>
      exact hlead _ (by rw [show kernelCode l = _ from hcode]; exact ⟨_, rfl⟩) hr
    | access f x d next hcode hf =>
      exact hlead next (by rw [show kernelCode l = _ from hcode]; exact ⟨_, _, _, _, hf⟩) hr
    | ret => exact hr.elim
  | forkret hlock => exact hr.elim
  | sleep pt w heff =>
    cases heff with
    | reacquire hfree =>
      cases w with
      | client ch k next => exact Or.inl hr
      | kwait addr => exact hr.elim
    | _ => exact Or.inl hr
  | wakeup ch i k heff => cases heff <;> cases k <;> exact Or.inl hr
  | yield pt k heff => cases heff <;> exact Or.inl hr
  | kill _ _ heff | fork _ heff | exit _ heff | wait _ heff => cases heff <;> exact hr.elim

/-- A process that reads after a step read before it, or has just got the lock. -/
theorem reading_step (hI : Inv kernel s) (hstep : step kernel n s c a = some t) {q : Nat}
    {x : Pc KLock KChan KPt} (hx : t.At q x) (hr : x.Reading) :
    (∃ pc, s.At q pc ∧ pc.Reading) ∨
      a = .run ∧ ∃ target, (s.cpu c).code = .thread q (.client (.consoleread target .acquire)) := by
  cases (step_eff hstep).move hI hx with
  | stay hat => exact Or.inl ⟨x, hat, hr⟩
  | fresh hx hs =>
    rw [hx] at hr
    exact hr.elim
  | swtch pc hcode heff ht =>
    refine Or.inl ⟨pc, Or.inl ⟨c, hcode⟩, ?_⟩
    cases heff with
    | sleep | yield => exact hr
    | exit => exact hr.elim
  | timer pc hcode hnoff hx ht =>
    rw [hx] at hr
    exact Or.inl ⟨pc, Or.inl ⟨c, hcode⟩, hr⟩
  | go pc a' m hcode hgo ht =>
    rcases threadStep_reading hgo hr with hpc | ⟨target, rfl⟩
    · exact Or.inl ⟨pc, Or.inl ⟨c, hcode⟩, hpc⟩
    · refine Or.inr ⟨?_, target, hcode⟩
      have hnext : (t.cpu c).code = .thread q x := by
        rw [ht, Sys.code_go, if_pos rfl]
      cases a with
      | run => rfl
      | device | deviceWakeup =>
        obtain ⟨_, ⟨⟩⟩ := Option.ite_none_right_eq_some.mp hstep
        rw [show _ = _ from hcode] at hnext
        cases hnext
        exact hr.elim
      | timer =>
        simp only [step, hcode] at hstep
        obtain ⟨_, ⟨⟩⟩ := Option.ite_none_right_eq_some.mp hstep
        rw [Sys.code_go, if_pos rfl] at hnext
        cases hnext
        exact hr.elim
      | _ =>
        simp only [step, hcode] at hstep
        cases hstep

/-! ### The invariant of the transcript -/

/-- The data of the console changes at a key and at a byte that is taken. -/
theorem step_cons (hstep : step kernel n s c a = some t) (hkey : ∀ k, a ≠ .device (.key k))
    (htake : ∀ p target k x, (s.cpu c).code = .thread p (.client (.consoleread target (.take k))) →
      a ≠ .input x) : t.mem.data.cons = s.mem.data.cons := by
  rcases step_data hstep with ⟨x, rfl, hdata⟩ | ⟨p, pc, m, pc', hcode, hgo, rfl⟩ | hdata
  · rw [hdata]
    cases x with
    | key k => exact absurd rfl (hkey k)
    | _ => rfl
  · show m.data.cons = _
    rcases threadStep_data hgo with ⟨hdata, _⟩ | ⟨l, f, x, d, next, rfl, hl, hf, rfl, rfl⟩
    · rw [hdata]
    · have hforeign : l.lock ≠ some .cons → d.cons = s.mem.data.cons := by
        intro hne
        have ht := kernel_touches l
        rw [show kernelCode l = _ from hl] at ht
        exact (ht p x _ d next hf).cons hne
      cases l with
      | consoleread target pt =>
        cases pt with
        | test k =>
          cases hl
          cases hf
          rfl
        | take k =>
          -- an access has an input
          cases a with
          | input y => exact absurd rfl (htake p target k y hcode)
          | _ => cases hgo
        | _ => cases hl
      | _ => exact hforeign nofun
  · rw [hdata]

/-- What the latest call of process `q` has looked at. -/
structure Looked (s : Sys κ KLock KChan KData KPt) (tty : Tty) (q : Nat)
    (seen : List (BitVec 8)) : Prop where
  /-- A call in its loop has seen no newline and no control-D. -/
  open_line : ∀ pc, s.At q pc → pc.Reading → ∀ b ∈ seen, b ≠ 10 ∧ b ≠ 4
  /-- A newline or a control-D is the last thing that a call sees. -/
  ended : ∀ b ∈ seen.dropLast, b ≠ 10 ∧ b ≠ 4
  /-- It is a stretch of the input, up to the read position while the call is in its loop. -/
  stretch : ∃ i, seen <+: tty.committed.drop i ∧
    ∀ pc, s.At q pc → pc.Reading → seen = [] ∨ i + seen.length = tty.pos

structure Told (s : Sys κ KLock KChan KData KPt) (g : Transcript) : Prop where
  shows : Shows s.mem.data.cons g.tty
  /-- The bytes stored are those read, without the control-Ds. -/
  stored : g.stored = (g.tty.committed.take g.tty.pos).filter (· ≠ 4)
  looked : ∀ q, Looked s g.tty q (g.seen q)

variable {tty tty' : Tty} {q : Nat} {seen : List (BitVec 8)}

omit [DecidableEq κ] in
theorem Looked.nil : Looked s tty q [] :=
  ⟨fun _ _ _ => nofun, nofun, 0, List.nil_prefix, fun _ _ _ => Or.inl rfl⟩

omit [DecidableEq κ] in
theorem Told.init (start : Nat) :
    Told (Sys.init (KData.init start) : Sys κ KLock KChan KData KPt) Transcript.init :=
  ⟨Shows.init, rfl, fun _ => Looked.nil⟩

omit [DecidableEq κ] in
/-- The step of another process.  If it moves the read position, `q` has not looked at anything. -/
theorem Looked.keep (h : Looked s tty q seen)
    (hread : ∀ x, t.At q x → x.Reading → ∃ pc, s.At q pc ∧ pc.Reading)
    (hin : tty.committed <+: tty'.committed)
    (hpos : ∀ pc, s.At q pc → pc.Reading → seen = [] ∨ tty'.pos = tty.pos) :
    Looked t tty' q seen := by
  obtain ⟨i, hpre, hi⟩ := h.stretch
  refine ⟨?_, h.ended, i, hpre.trans (hin.drop i), ?_⟩
  · intro x hx hr
    obtain ⟨pc, hat, hpc⟩ := hread x hx hr
    exact h.open_line pc hat hpc
  · intro x hx hr
    obtain ⟨pc, hat, hpc⟩ := hread x hx hr
    rcases hpos pc hat hpc with hnil | hsame
    · exact Or.inl hnil
    · rw [hsame]
      exact hi pc hat hpc

omit [DecidableEq κ] in
/-- A call looks at one more byte, the one at the read position. -/
theorem Looked.take (h : Looked s tty q seen) {pc : Pc KLock KChan KPt} (hat : s.At q pc)
    (hpc : pc.Reading) (hlt : tty.pos < tty.committed.length)
    (hin : tty'.committed = tty.committed)
    (hnext : ∀ x, t.At q x → x.Reading → (tty.committed[tty.pos] ≠ 10 ∧
      tty.committed[tty.pos] ≠ 4) ∧ tty'.pos = tty.pos + 1) :
    Looked t tty' q (seen ++ [tty.committed[tty.pos]]) := by
  have hopen := h.open_line pc hat hpc
  obtain ⟨i, ⟨rest, hrest⟩, hi⟩ : ∃ i, seen <+: tty.committed.drop i ∧ i + seen.length = tty.pos := by
    obtain ⟨i, hpre, hi⟩ := h.stretch
    rcases hi pc hat hpc with hnil | hi
    · rw [hnil]
      exact ⟨tty.pos, List.nil_prefix, rfl⟩
    · exact ⟨i, hpre, hi⟩
  refine ⟨?_, ?_, i, ?_, ?_⟩
  · intro x hx hr b hb
    rcases List.mem_append.mp hb with hb | hb
    · exact hopen b hb
    · rw [List.mem_singleton.mp hb]
      exact (hnext x hx hr).1
  · rw [List.dropLast_concat]
    exact hopen
  · have hdrop : rest = tty.committed.drop tty.pos := by
      rw [← hi, ← List.drop_drop, ← hrest, List.drop_left]
    rw [hin, ← hrest, hdrop, List.drop_eq_getElem_cons hlt]
    exact ⟨_, List.append_assoc _ _ _⟩
  · intro x hx hr
    refine Or.inr ?_
    rw [(hnext x hx hr).2, length_append, length_singleton]
    omega

/-- A key adds to the input and leaves the read position. -/
theorem Tty.key_kept (t : Tty) (k : BitVec 8) :
    t.committed <+: (t.key k).committed ∧ (t.key k).pos = t.pos := by
  unfold Tty.key
  generalize (if k = 13 then 10 else k) = ch
  dsimp only
  split_ifs
  all_goals first
    | exact ⟨List.prefix_rfl, rfl⟩
    | exact ⟨List.prefix_append _ _, rfl⟩

/-- What `consoleread` does at a byte. -/
theorem take_result {target k : Int} {x : KIn} {d d' : KData} {next : KPt}
    {f : Nat → KIn → KData → Option (KData × KPt)}
    (hcode : kernelCode (.consoleread target (.take k)) = .access f)
    (hf : f p x d = some (d', next)) :
    (d'.cons = if d.cons.head = 4 ∧ k < target then d.cons else { d.cons with r := d.cons.r + 1 }) ∧
      (next.reading → d.cons.head ≠ 10 ∧ d.cons.head ≠ 4) := by
  cases hcode
  dsimp only at hf
  unfold Cons.head
  generalize d.cons.buf (Ring.slot INPUT_BUF_SIZE d.cons.r) = b at hf ⊢
  by_cases hb : b = 4
  · rw [if_pos hb] at hf
    cases hf
    refine ⟨?_, False.elim⟩
    by_cases hk : k < target
    · rw [if_pos hk, if_pos ⟨hb, hk⟩]
    · rw [if_neg hk, if_neg fun hc => hk hc.2]
  · rw [if_neg hb] at hf
    rw [if_neg fun hc => hb hc.1]
    split at hf
    · cases hf
      refine ⟨rfl, ?_⟩
      by_cases h10 : b = 10
      · rw [if_pos h10]
        exact False.elim
      · exact fun _ => ⟨h10, hb⟩
    · cases hf
      exact ⟨rfl, False.elim⟩
    · cases hf

omit [DecidableEq κ] in
/-- The byte at the read position is stored, or is a control-D. -/
theorem stored_take (hs : Shows s.mem.data.cons g.tty) (hlt : g.tty.pos < g.tty.committed.length)
    (h : g.stored = (g.tty.committed.take g.tty.pos).filter (· ≠ 4)) {putBack ok : Bool}
    (hok : s.mem.data.cons.head ≠ 4 → ok = true) :
    (g.take p s.mem.data.cons.head putBack ok).stored = ((g.tty.committed.take
      (g.take p s.mem.data.cons.head putBack ok).tty.pos).filter (· ≠ 4)) := by
  have hsucc : g.tty.committed.take (g.tty.pos + 1) =
      g.tty.committed.take g.tty.pos ++ [s.mem.data.cons.head] := by
    rw [show s.mem.data.cons.head = _ from hs.next hlt, List.take_concat_get' _ _ hlt]
  unfold Transcript.take
  dsimp only
  by_cases hb : s.mem.data.cons.head = 4
  · rw [if_neg fun hc => hc.1 hb]
    split
    · exact h
    · rw [hsucc, List.filter_append, ← h, hb]
      simp
  · have hkept : [s.mem.data.cons.head].filter (· ≠ 4) = [s.mem.data.cons.head] :=
      List.filter_eq_self.mpr fun b hmem => decide_eq_true (List.mem_singleton.mp hmem ▸ hb)
    rw [if_pos ⟨hb, hok hb⟩, if_neg fun hc => hb hc.1, hsucc, List.filter_append, ← h, hkept]

theorem Told.take (h : Told s g) (hI : Inv kernel s) (hne : s.mem.data.cons.r ≠ s.mem.data.cons.w)
    {target k : Int} {x : KIn}
    (hcode : (s.cpu c).code = .thread p (.client (.consoleread target (.take k))))
    (hturn : InTurn s g p x) (hstep : step kernel n s c (.input x) = some t) :
    Told t (g.take p s.mem.data.cons.head (k < target) x.landed) := by
  obtain ⟨d, next, hf, rfl⟩ := access_step hcode rfl hstep
  obtain ⟨hcons, hnext⟩ := take_result (p := p) rfl hf
  have hlt := h.shows.unread hne
  have hhead : s.mem.data.cons.head = g.tty.committed[g.tty.pos] := h.shows.next hlt
  refine ⟨?_, stored_take h.shows hlt h.stored hturn.lands, ?_⟩
  · show Shows d.cons { g.tty with pos := _ }
    rw [hcons]
    simp only [decide_eq_true_eq]
    split
    · exact h.shows
    · exact h.shows.take hlt
  · intro q
    show Looked _ _ q (Function.update g.seen p (g.seen p ++ [s.mem.data.cons.head]) q)
    by_cases hq : q = p
    · subst hq
      rw [update_self, hhead]
      refine (h.looked q).take (Or.inl ⟨c, hcode⟩) trivial hlt rfl ?_
      intro y hy hr
      rcases hI.at_access hcode hy with ⟨_, rfl⟩ | ⟨hne, _⟩
      · have hopen := hhead ▸ hnext hr
        exact ⟨hopen, if_neg fun hc => hopen.2 hc.1⟩
      · exact absurd rfl hne
    · rw [update_of_ne hq]
      refine (h.looked q).keep ?_ List.prefix_rfl ?_
      · intro y hy hr
        rcases hI.at_access hcode hy with ⟨heq, _⟩ | ⟨_, hat⟩
        · exact absurd heq hq
        · exact ⟨y, hat, hr⟩
      · intro pc hat hr
        exact Or.inl (hturn.alone q pc hq hat hr)

/-- One step of any kind. -/
theorem Told.step (h : Told s g) (hI : Inv kernel s) (hM : MonInv consMonitor s)
    (hturn : ∀ p target k x, (s.cpu c).code = .thread p (.client (.consoleread target (.take k))) →
      a = .input x → InTurn s g p x)
    (hstep : step kernel n s c a = some t) : Told t (g.next s c a) := by
  -- only a call that gets the lock begins to read
  have hread : ∀ q, (∀ target, a = .run →
      (s.cpu c).code ≠ .thread q (.client (.consoleread target .acquire))) →
      ∀ x, t.At q x → x.Reading → ∃ pc, s.At q pc ∧ pc.Reading := by
    intro q hrun x hx hr
    rcases reading_step hI hstep hx hr with hpc | ⟨ha, target, hcode⟩
    · exact hpc
    · exact absurd hcode (hrun target ha)
  unfold Transcript.next
  split
  · rename_i k
    obtain ⟨hin, hpos⟩ := g.tty.key_kept k
    refine ⟨?_, ?_, fun q => (h.looked q).keep (hread q nofun) hin fun _ _ _ => Or.inr hpos⟩
    · obtain ⟨_, ⟨⟩⟩ := Option.ite_none_right_eq_some.mp hstep
      exact h.shows.key k
    · obtain ⟨rest, hrest⟩ := hin
      rw [hpos, ← hrest, List.take_append_of_le_length h.shows.pos]
      exact h.stored
  · rename_i x p target k hcode
    exact h.take hI (hM.pre p _ (Or.inl ⟨c, hcode⟩)) hcode (hturn p target k x hcode rfl) hstep
  · rename_i p target hcode
    refine ⟨?_, h.stored, ?_⟩
    · rw [step_cons hstep nofun fun _ _ _ _ _ => nofun]
      exact h.shows
    · intro q
      show Looked _ _ q (Function.update g.seen p [] q)
      by_cases hq : q = p
      · rw [hq, update_self]
        exact Looked.nil
      · rw [update_of_ne hq]
        refine (h.looked q).keep (hread q ?_) List.prefix_rfl fun _ _ _ => Or.inr rfl
        intro target' _ hcode'
        rw [hcode] at hcode'
        cases hcode'
        exact hq rfl
  · rename_i hkey htake hrun
    refine ⟨?_, h.stored, fun q => (h.looked q).keep (hread q ?_) List.prefix_rfl fun _ _ _ =>
      Or.inr rfl⟩
    · rw [step_cons hstep (fun k hk => hkey k hk) fun p target k x hcode hx =>
        htake x p target k hx hcode]
      exact h.shows
    · intro target ha hcode
      exact hrun q target ha hcode

/-! ### Delivery -/

theorem told_of_run {acts : List (κ × Act KChan KIn KPt)} (hs : Monitored consMonitor n s)
    (ht : Told s g) (hturn : Orderly n s acts g) (hrun : run kernel n s acts = some t) :
    Told t (transcript n s acts g) := by
  induction acts generalizing s g with
  | nil =>
    cases hrun
    exact ht
  | cons ca acts ih =>
    obtain ⟨c, a⟩ := ca
    simp only [run] at hrun
    unfold transcript
    cases hstep : Sched.step kernel n s c a with
    | none =>
      rw [hstep] at hrun
      cases hrun
    | some u =>
      rw [hstep] at hrun
      have hu : Monitored consMonitor n u :=
        hs.step (step_eff hstep) fun _ pc _ _ => pc.not_guarded_none
      exact ih hu (ht.step hs.inv hs.mon hturn.1 hstep) (hturn.2 u hstep) hrun

/-- A process that is alone in the table takes its bytes in turn, if all inputs say that the copies
    succeed. -/
theorem orderly_alone {acts : List (κ × Act KChan KIn KPt)} (hs : Monitored consMonitor 1 s)
    (h : acts.all (fun ca => match ca.2 with | .input x => x.landed | _ => true) = true) :
    Orderly 1 s acts g := by
  induction acts generalizing s g with
  | nil => trivial
  | cons ca acts ih =>
    obtain ⟨c, a⟩ := ca
    rw [List.all_cons, Bool.and_eq_true] at h
    refine ⟨?_, fun t hstep =>
      ih (hs.step (step_eff hstep) fun _ pc _ _ => pc.not_guarded_none) h.2⟩
    rintro p target k x hcode rfl
    refine ⟨fun _ => h.1, ?_⟩
    intro q pc hq hat hr
    have hp := hs.range.code c p _ hcode
    rcases hat with ⟨e, he⟩ | hctx
    · have := hs.range.code e q pc he
      omega
    · rcases hs.range.context q pc hctx with hlt | rfl
      · omega
      · exact hr.elim

/-- In every run in which each byte is taken in turn, in every state reached: what the calls of
    `consoleread` have stored, in lock order, is the committed input up to the read position without
    its control-Ds; the read position is `cons.r`, and the rest of the input is in the buffer.  What
    a call looks at is a stretch of the input, and it does not go on after a newline or a
    control-D. -/
theorem console_delivery (n start : Nat) (acts : List (κ × Act KChan KIn KPt))
    (s : Sys κ KLock KChan KData KPt)
    (hrun : run kernel n (Sys.init (KData.init start)) acts = some s)
    (hturn : Orderly n (Sys.init (KData.init start)) acts Transcript.init) :
    let g := transcript n (Sys.init (KData.init start)) acts Transcript.init
    g.stored = (g.tty.committed.take g.tty.pos).filter (· ≠ 4) ∧
    Shows s.mem.data.cons g.tty ∧
    ∀ p, (∃ i, g.seen p <+: g.tty.committed.drop i) ∧
      ∀ b ∈ (g.seen p).dropLast, b ≠ 10 ∧ b ≠ 4 := by
  have hinit : Monitored consMonitor n (Sys.init (KData.init start) : Sys κ KLock KChan KData KPt) :=
    Monitored.init consMonitor n Cons.Inv.init
  have htold := told_of_run hinit (Told.init start) hturn hrun
  refine ⟨htold.stored, htold.shows, ?_⟩
  intro p
  obtain ⟨i, hpre, _⟩ := (htold.looked p).stretch
  exact ⟨⟨i, hpre⟩, (htold.looked p).ended⟩

end run

/-- A line of one letter is typed.  The first process gets a CPU, calls `consoleread` for four bytes
    and is at the first byte; then the rest of the run. -/
def readLine (rest : List (Fin 1 × Act KChan KIn KPt)) : List (Fin 1 × Act KChan KIn KPt) :=
  [(0, .device (.key 97)), (0, .device (.key 13)), (0, .run), (0, .run),
    (0, .enter (.consoleread 4 .acquire)), (0, .run), (0, .input (.copy true 0))] ++ rest

/-- The letter and the newline are copied, and the lock is released. -/
def readWhole : List (Fin 1 × Act KChan KIn KPt) :=
  readLine [(0, .input (.copy true 0)), (0, .input (.copy true 0)), (0, .input (.copy true 0)),
    (0, .run)]

theorem console_delivery_line :
    ∃ s, run kernel 1 (Sys.init (KData.init 2) : Sys (Fin 1) KLock KChan KData KPt) readWhole =
        some s ∧
      let g := transcript 1 (Sys.init (KData.init 2)) readWhole Transcript.init
      g.tty.committed = [97, 10] ∧ g.tty.pos = 2 ∧
        g.stored = (g.tty.committed.take g.tty.pos).filter (· ≠ 4) := by
  have hrun : (run kernel 1 (Sys.init (KData.init 2) : Sys (Fin 1) KLock KChan KData KPt)
      readWhole).isSome = true := by
    decide +kernel
  obtain ⟨s, hs⟩ := Option.isSome_iff_exists.mp hrun
  have hturn : Orderly 1 (Sys.init (KData.init 2)) readWhole Transcript.init :=
    orderly_alone (Monitored.init consMonitor 1 Cons.Inv.init) (by decide)
  exact ⟨s, hs, by decide +kernel, by decide +kernel, (console_delivery 1 2 _ s hs hturn).1⟩

/-- The copy of the letter fails: it is taken out of the buffer all the same, and stored nowhere. -/
theorem lost_byte :
    ∃ s, run kernel 1 (Sys.init (KData.init 2) : Sys (Fin 1) KLock KChan KData KPt)
        (readLine [(0, .input (.copy false 0))]) = some s ∧
      let g := transcript 1 (Sys.init (KData.init 2) : Sys (Fin 1) KLock KChan KData KPt)
        (readLine [(0, .input (.copy false 0))]) Transcript.init
      s.mem.data.cons.r = 1 ∧ g.tty.pos = 1 ∧ g.tty.committed = [97, 10] ∧ g.stored = [] ∧
        g.stored ≠ (g.tty.committed.take g.tty.pos).filter (· ≠ 4) := by
  have hrun : (run kernel 1 (Sys.init (KData.init 2) : Sys (Fin 1) KLock KChan KData KPt)
      (readLine [(0, .input (.copy false 0))])).map (fun s => s.mem.data.cons.r) = some 1 := by
    decide +kernel
  obtain ⟨s, hs, hr⟩ := Option.map_eq_some_iff.mp hrun
  exact ⟨s, hs, hr, by decide +kernel, by decide +kernel, by decide +kernel, by decide +kernel⟩

end Xv6.Sched
