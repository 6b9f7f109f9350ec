/-
  The input buffer of the console.

  `Cons.Inv` is the invariant of the three counters of `cons`: between `r` and `e`, in this order, lie
  the bytes that a reader may take, up to `w`, and the line that is being edited.  The line never holds
  what would have committed it, a newline or a control-D, and if the buffer is full then there is none.

  `console_indices` is the invariant in every run of readers and interrupts, over any amount of input.
-/
import Xv6.Sched.Kernel

namespace Xv6.Sched

open Lib

/-! ## The invariant of the buffer -/

namespace Cons

variable {cons : Cons}

/-- The byte `j` places behind a counter. -/
def byte (cons : Cons) (x : BitVec 32) (j : Nat) : BitVec 8 :=
  cons.buf (Ring.slot INPUT_BUF_SIZE (x + BitVec.ofNat 32 j))

structure Inv (cons : Cons) : Prop where
  order : Ring.count cons.r cons.w ≤ Ring.count cons.r cons.e
  size : Ring.count cons.r cons.e ≤ INPUT_BUF_SIZE
  /-- Not a newline, and not C('D'). -/
  line : ∀ j < Ring.count cons.w cons.e, cons.byte cons.w j ≠ 10 ∧ cons.byte cons.w j ≠ 4
  full : Ring.count cons.r cons.e = INPUT_BUF_SIZE → cons.w = cons.e

theorem Inv.init : Inv ⟨fun _ => 0, 0, 0, 0⟩ :=
  ⟨Nat.le_refl _, Nat.zero_le _, nofun, fun _ => rfl⟩

theorem Inv.split (h : cons.Inv) :
    Ring.count cons.r cons.e = Ring.count cons.r cons.w + Ring.count cons.w cons.e :=
  Ring.count_split h.order

/-- `e` goes back over the line. -/
theorem Inv.erase (h : cons.Inv) (hne : cons.e ≠ cons.w) : Inv { cons with e := cons.e - 1 } := by
  have hsplit := h.split
  have hsize := h.size
  have hline := Ring.count_drop hne.symm
  have hre : cons.r ≠ cons.e := by
    intro heq
    rw [Ring.count_eq_zero.mpr heq] at hsplit
    omega
  have hall := Ring.count_drop hre
  refine ⟨?_, ?_, ?_, ?_⟩
  · dsimp only
    omega
  · dsimp only
    omega
  · intro j hj
    dsimp only at hj
    exact h.line j (by omega)
  · dsimp only
    intro hfull
    omega

theorem Inv.killLine (h : cons.Inv) (fuel : Nat) : (cons.killLine fuel).Inv := by
  induction fuel generalizing cons with
  | zero => exact h
  | succ fuel ih =>
    unfold Cons.killLine
    split
    · rename_i hc
      exact ih (h.erase hc.1)
    · exact h

/-- The cell behind the line is not one of those in use. -/
theorem byte_store (cons : Cons) (x : BitVec 32) (c : BitVec 8) {j : Nat} (hj : j < Ring.count x cons.e)
    (hroom : Ring.count x cons.e < INPUT_BUF_SIZE) :
    byte { cons with
      buf := Function.update cons.buf (Ring.slot INPUT_BUF_SIZE cons.e) c, e := cons.e + 1 } x j =
    cons.byte x j := by
  have hne := Ring.slot_ne (by decide : INPUT_BUF_SIZE ∣ 2 ^ 32) x hj hroom
  rw [Ring.add_count] at hne
  exact Function.update_of_ne hne c cons.buf

theorem count_succ (hroom : Ring.count cons.r cons.e < INPUT_BUF_SIZE) :
    Ring.count cons.r (cons.e + 1) = Ring.count cons.r cons.e + 1 := by
  refine Ring.count_put ?_
  have hsize : INPUT_BUF_SIZE = 128 := rfl
  omega

/-- A byte is stored that does not end the line. -/
theorem Inv.store (h : cons.Inv) {c : BitVec 8} (hc : c ≠ 10 ∧ c ≠ 4)
    (hroom : Ring.count cons.r cons.e + 1 < INPUT_BUF_SIZE) :
    Inv { cons with
      buf := Function.update cons.buf (Ring.slot INPUT_BUF_SIZE cons.e) c, e := cons.e + 1 } := by
  have hsplit := h.split
  have hall := count_succ (Nat.lt_of_succ_lt hroom)
  have hline : Ring.count cons.w (cons.e + 1) = Ring.count cons.w cons.e + 1 := by
    have hsize : INPUT_BUF_SIZE = 128 := rfl
    exact Ring.count_put (by omega)
  refine ⟨?_, ?_, ?_, ?_⟩
  · dsimp only
    omega
  · dsimp only
    omega
  · intro j hj
    rw [hline] at hj
    rcases Nat.lt_succ_iff_lt_or_eq.mp hj with hj | rfl
    · rw [byte_store cons _ _ hj (by omega)]
      exact h.line j hj
    · have hlast : byte { cons with
          buf := Function.update cons.buf (Ring.slot INPUT_BUF_SIZE cons.e) c, e := cons.e + 1 }
          cons.w (Ring.count cons.w cons.e) = c := by
        unfold byte
        rw [Ring.add_count]
        dsimp only
        rw [Function.update_self]
      rw [hlast]
      exact hc
  · dsimp only
    intro hfull
    omega

/-- A byte is stored and the line committed. -/
theorem Inv.commit {c : BitVec 8} (hroom : Ring.count cons.r cons.e < INPUT_BUF_SIZE) :
    Inv { cons with
      buf := Function.update cons.buf (Ring.slot INPUT_BUF_SIZE cons.e) c, e := cons.e + 1
      w := cons.e + 1 } := by
  refine ⟨Nat.le_refl _, ?_, ?_, fun _ => rfl⟩
  · rw [count_succ hroom]
    exact hroom
  · intro j hj
    rw [Ring.count_eq_zero.mpr rfl] at hj
    cases hj

theorem Inv.intr (h : cons.Inv) (c : BitVec 8) : (cons.intr c).Inv := by
  unfold Cons.intr
  split
  · exact h
  split
  · exact h.killLine _
  split
  · split
    · rename_i hne
      exact h.erase hne
    · exact h
  split
  · rename_i hroom
    dsimp only
    generalize (if c = 13 then 10 else c) = ch
    split
    · exact Inv.commit hroom.2
    · rename_i hend
      rw [not_or, not_or] at hend
      refine h.store ⟨hend.1, hend.2.1⟩ ?_
      have hlt : Ring.count cons.r cons.e < INPUT_BUF_SIZE := hroom.2
      have hne : Ring.count cons.r (cons.e + 1) ≠ INPUT_BUF_SIZE := hend.2.2
      rw [count_succ hlt] at hne
      omega
  · exact h

/-- A reader takes a byte. -/
theorem Inv.take (h : cons.Inv) (hne : cons.r ≠ cons.w) : Inv { cons with r := cons.r + 1 } := by
  have horder := h.order
  have hsize := h.size
  have hread := Ring.count_take hne
  have hre : cons.r ≠ cons.e := by
    intro heq
    rw [Ring.count_eq_zero.mpr heq] at horder
    omega
  have hall := Ring.count_take hre
  refine ⟨?_, ?_, h.line, ?_⟩
  · dsimp only
    omega
  · dsimp only
    omega
  · dsimp only
    intro hfull
    omega

theorem killLine_frame (fuel : Nat) : (cons.killLine fuel).buf = cons.buf ∧
    (cons.killLine fuel).w = cons.w ∧ (cons.killLine fuel).r = cons.r ∧
    Ring.count cons.w (cons.killLine fuel).e ≤ Ring.count cons.w cons.e := by
  induction fuel generalizing cons with
  | zero => exact ⟨rfl, rfl, rfl, Nat.le_refl _⟩
  | succ fuel ih =>
    unfold killLine
    split
    · rename_i hc
      obtain ⟨hbuf, hw, hr, hle⟩ := @ih { cons with e := cons.e - 1 }
      refine ⟨hbuf, hw, hr, Nat.le_trans hle ?_⟩
      dsimp only
      have hline := Ring.count_drop hc.1.symm
      omega
    · exact ⟨rfl, rfl, rfl, Nat.le_refl _⟩

/-- What is committed and not read stays. -/
theorem Inv.intr_unread (h : cons.Inv) (c : BitVec 8) {j : Nat} (hj : j < Ring.count cons.r cons.w) :
    (cons.intr c).byte cons.r j = cons.byte cons.r j := by
  have horder := h.order
  unfold Cons.intr
  split
  · rfl
  split
  · unfold byte
    rw [(killLine_frame _).1]
  split
  · split <;> rfl
  split
  · rename_i hroom
    dsimp only
    generalize (if c = 13 then 10 else c) = ch
    have hbyte := fun c => byte_store cons cons.r c (Nat.lt_of_lt_of_le hj horder) hroom.2
    split
    · exact hbyte _
    · exact hbyte _
  · rfl

/-- C('H'), the delete key and C('U'). -/
def erases (c : BitVec 8) : Prop := c = 8 ∨ c = 127 ∨ c = 21

/-- Erasing changes `e` only, and not beyond `w`. -/
theorem intr_erases {c : BitVec 8} (hc : erases c) :
    (cons.intr c).w = cons.w ∧ (cons.intr c).r = cons.r ∧
    Ring.count cons.w (cons.intr c).e ≤ Ring.count cons.w cons.e := by
  have hback : ∀ d : BitVec 8, d = 8 ∨ d = 127 → d ≠ 16 → d ≠ 21 → (cons.intr d).w = cons.w ∧
      (cons.intr d).r = cons.r ∧ Ring.count cons.w (cons.intr d).e ≤ Ring.count cons.w cons.e := by
    intro d hd h16 h21
    unfold Cons.intr
    rw [if_neg h16, if_neg h21, if_pos hd]
    split
    · rename_i hne
      refine ⟨rfl, rfl, ?_⟩
      have hline := Ring.count_drop hne.symm
      dsimp only
      omega
    · exact ⟨rfl, rfl, Nat.le_refl _⟩
  rcases hc with rfl | rfl | rfl
  · exact hback 8 (Or.inl rfl) (by decide) (by decide)
  · exact hback 127 (Or.inr rfl) (by decide) (by decide)
  · exact (killLine_frame _).2

end Cons

/-! ## Annotation -/

/-- Past the test there is something to take. -/
def consPre : KPt → KData → Prop
  | .consoleread _ (.take _), d => d.cons.r ≠ d.cons.w
  | _, _ => True

def consNotes : Annotation kernel where
  inv := fun d => d.cons.Inv
  cond := fun _ _ => False
  lock := lockOf
  pre := consPre
  owes := fun _ _ => False
  guard := .none kernel

variable {l next : KPt} {d d' : KData} {f : Nat → KIn → KData → Option (KData × KPt)}

theorem consPre_frame (h : .cons ∈ l.held → d'.cons = d.cons) (hl : consPre l d) : consPre l d' := by
  cases l with
  | consoleread target pt =>
    cases pt with
    | take n =>
      show d'.cons.r ≠ d'.cons.w
      rw [h List.mem_cons_self]
      exact hl
    | _ => trivial
  | _ => trivial

/-- A change of `cons` under its lock. -/
theorem cons_access (hl : l.held = [.cons]) (hd : d'.cons.Inv) (hnext : consPre next d') :
    consNotes.Access l d d' next := by
  refine ⟨hd, hnext, fun _ => False.elim, ?_⟩
  intro l' hdisj
  refine consPre_frame ?_
  intro hmem
  refine absurd hmem (hdisj _ ?_)
  show KLock.cons ∈ l.held
  rw [hl]
  exact List.mem_cons_self

theorem consoleread_cons (target : Int) (pt : ConsolereadPt) :
    consNotes.Keeps (.consoleread target pt) (consoleread target pt) := by
  cases pt with
  | test n =>
    rintro me x d d' next ⟨⟩ hd _
    refine cons_access rfl hd ?_
    split
    · dsimp only
      split
      · trivial
      · rename_i hne
        exact hne
    · trivial
  | killed n =>
    refine ⟨?_, fun _ h => False.elim h⟩
    intro b d _ _
    cases b <;> trivial
  | sleep n => exact ⟨rfl, fun _ _ _ => id, fun _ _ => trivial, fun _ h => False.elim h⟩
  | take n =>
    intro me x d d' next h hd hne
    have htake : Cons.Inv { d.cons with r := d.cons.r + 1 } := Cons.Inv.take hd hne
    dsimp only at h
    split at h
    · cases h
      refine cons_access rfl ?_ trivial
      split
      · exact hd
      · exact htake
    · split at h <;> cases h
      · refine cons_access rfl htake ?_
        split <;> trivial
      · exact cons_access rfl htake trivial
  | _ => exact ⟨fun _ _ _ => trivial, fun _ h => False.elim h⟩

theorem cons_quiet (l : KPt) (h : ∀ k ∈ l.held, ¬ k = .cons) : consNotes.Quiet l := by
  refine ⟨?_, fun _ => id⟩
  intro d
  cases l with
  | consoleread target pt =>
    cases pt with
    | take n => exact absurd rfl (h .cons List.mem_cons_self)
    | _ => trivial
  | _ => trivial

theorem cons_unseen (h : d'.cons = d.cons) : consNotes.Unseen d d' := by
  refine ⟨?_, fun _ => id, fun l => consPre_frame fun _ => h⟩
  intro hd
  show d'.cons.Inv
  rw [h]
  exact hd

theorem cons_keeps (l : KPt) : consNotes.Keeps l (kernelCode l) := by
  cases l with
  | consoleread target pt => exact consoleread_cons target pt
  | _ =>
    refine keeps_of_foreign cons_quiet rfl (fun _ _ _ => id) ?_ ?_
    · intro k hk
      cases hk <;> exact nofun
    · intro d d' hf
      exact cons_unseen (hf.cons nofun)

def consMonitor : Monitor kernel where
  toAnnotation := consNotes
  owes_held := fun _ _ => False.elim
  entry := by
    intro l d hl _
    refine (cons_quiet l ?_).1 d
    rw [KPt.held_of_entry hl]
    exact nofun
  keeps := cons_keeps
  device := by
    intro x d hd
    cases x with
    | key c =>
      refine ⟨Cons.Inv.intr hd c, fun _ => id, ?_⟩
      intro l hl
      exact consPre_frame fun hmem => absurd hmem hl
    | _ => exact ⟨hd, fun _ => id, fun l _ => consPre_frame fun _ => rfl⟩

/-! ## Steps -/

/-- What a step can do to the buffer. -/
inductive ConsEff (cons : Cons) : Cons → Prop
  | same : ConsEff cons cons
  | intr (c : BitVec 8) : ConsEff cons (cons.intr c)
  | take : ConsEff cons { cons with r := cons.r + 1 }

theorem consoleread_eff {target : Int} {pt : ConsolereadPt} {me : Nat} {x : KIn}
    (hcode : consoleread target pt = .access f) (hf : f me x d = some (d', next)) :
    ConsEff d.cons d'.cons := by
  cases pt with
  | test n =>
    cases hcode
    cases hf
    exact .same
  | take n =>
    cases hcode
    dsimp only at hf
    split at hf
    · cases hf
      split
      · exact .same
      · exact .take
    · split at hf <;> cases hf <;> exact .take
  | _ => cases hcode

theorem access_eff {me : Nat} {x : KIn} (hcode : kernelCode l = .access f)
    (hf : f me x d = some (d', next)) : ConsEff d.cons d'.cons := by
  have hforeign : l.lock ≠ some .cons → ConsEff d.cons d'.cons := by
    intro hl
    have ht := kernel_touches l
    rw [hcode] at ht
    rw [(ht me x d d' next hf).cons hl]
    exact .same
  cases l with
  | consoleread target pt => exact consoleread_eff hcode hf
  | _ => exact hforeign nofun

section run

variable {κ : Type} [DecidableEq κ] {n : Nat} {s t : Sys κ KLock KChan KData KPt} {c : κ}

theorem StepEff.cons (heff : StepEff kernel n s c t) : ConsEff s.mem.data.cons t.mem.data.cons := by
  cases heff with
  | go p pc pc' a m hcode hstep =>
    rcases threadStep_data hstep with ⟨hdata, _⟩ | ⟨l, f, x, d, next, rfl, hl, hf, rfl, rfl⟩
    · show ConsEff s.mem.data.cons m.data.cons
      rw [hdata]
      exact .same
    · exact access_eff hl hf
  | device x hfree =>
    cases x with
    | key k => exact .intr k
    | _ => exact .same
  | wake ch q hfree =>
    rw [Mem.data_wake]
    exact .same
  | _ => exact .same

/-! ## Result -/

/-- In every state that any number of readers, on any number of CPUs, and any input can reach: the
    counters are in order and at most INPUT_BUF_SIZE apart; there is no newline and no control-D in
    the line that is being edited; and if the buffer is full then all of it is committed, so that a
    reader does not wait.  No step changes a byte that is committed and not read, and erasing does
    not move `e` below `w`. -/
theorem console_indices (n start : Nat) (acts : List (κ × Act KChan KIn KPt))
    (s : Sys κ KLock KChan KData KPt)
    (hrun : run kernel n (Sys.init (KData.init start)) acts = some s) :
    let cons := s.mem.data.cons
    (cons.w - cons.r).toNat ≤ (cons.e - cons.r).toNat ∧
    (cons.e - cons.r).toNat ≤ INPUT_BUF_SIZE ∧
    (∀ j < (cons.e - cons.w).toNat, cons.byte cons.w j ≠ 10 ∧ cons.byte cons.w j ≠ 4) ∧
    ((cons.e - cons.r).toNat = INPUT_BUF_SIZE → cons.w = cons.e ∧ cons.r ≠ cons.w) ∧
    ∀ c a t, step kernel n s c a = some t →
      (∀ j < (cons.w - cons.r).toNat, t.mem.data.cons.byte cons.r j = cons.byte cons.r j) ∧
      ∀ key, a = .device (.key key) → Cons.erases key →
        t.mem.data.cons.w = cons.w ∧ t.mem.data.cons.r = cons.r ∧
        (t.mem.data.cons.e - cons.w).toNat ≤ (cons.e - cons.w).toNat := by
  have hinv : s.mem.data.cons.Inv :=
    (monInv_of_run consMonitor (d := KData.init start) Cons.Inv.init (meets_none acts _) hrun).2.inv
  refine ⟨hinv.order, hinv.size, hinv.line, ?_, ?_⟩
  · intro hfull
    have hw := hinv.full hfull
    refine ⟨hw, ?_⟩
    intro hr
    rw [← hw, ← hr, BitVec.sub_self] at hfull
    exact absurd hfull (by decide)
  · intro c a t hstep
    constructor
    · intro j hj
      generalize hcons : t.mem.data.cons = cons'
      have heff := (step_eff hstep).cons
      rw [hcons] at heff
      cases heff with
      | same => rfl
      | intr k => exact hinv.intr_unread k hj
      | take => rfl
    · rintro key rfl hkey
      simp only [step] at hstep
      split at hstep
      · cases hstep
        exact Cons.intr_erases hkey
      · cases hstep

end run

/-- A line is typed and half of it erased. -/
theorem console_indices_line :
    ∃ s, run kernel 1 (Sys.init (KData.init 2) : Sys (Fin 1) KLock KChan KData KPt)
        [(0, .device (.key 97)), (0, .device (.key 13)), (0, .device (.key 98)),
          (0, .device (.key 8)), (0, .device (.key 99))] = some s ∧
      (s.mem.data.cons.r, s.mem.data.cons.w, s.mem.data.cons.e) = (0, 2, 3) ∧
      ∀ j < (s.mem.data.cons.e - s.mem.data.cons.w).toNat,
        s.mem.data.cons.byte s.mem.data.cons.w j ≠ 10 ∧ s.mem.data.cons.byte s.mem.data.cons.w j ≠ 4 := by
  have hrun : (run kernel 1 (Sys.init (KData.init 2) : Sys (Fin 1) KLock KChan KData KPt)
      [(0, .device (.key 97)), (0, .device (.key 13)), (0, .device (.key 98)),
        (0, .device (.key 8)), (0, .device (.key 99))]).map
        (fun s => (s.mem.data.cons.r, s.mem.data.cons.w, s.mem.data.cons.e)) = some (0, 2, 3) := by
    decide +kernel
  obtain ⟨s, hs, hproj⟩ := Option.map_eq_some_iff.mp hrun
  exact ⟨s, hs, hproj, (console_indices 1 2 _ s hs).2.2.1⟩

end Xv6.Sched
