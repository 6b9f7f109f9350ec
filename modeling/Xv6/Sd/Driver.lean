/-
  The SD-card driver behind the buffer cache (`virtio_disk_rw` of `kernel/sdhci.c`) against the
  block store that the file system is written for.

  The two layers do not use the same unit.  mkfs and the buffer cache lay out blocks of `BSIZE`
  bytes, block `b` at byte `b * BSIZE`.  The driver hands the block number to the card as a command
  argument, once, so a call moves 512 bytes at sector `b` of a high-capacity card or at byte `b` of
  a standard-capacity card.  Both places lie before block `b` unless `b = 0`
  (`Card.select_before`), and the upper half of the buffer takes no part in the transfer.

  `virtioDiskRw_implements_iff` says for every sequence of calls exactly when this goes unnoticed.
-/
import Xv6.Bio.Model

namespace Xv6

open Lib

/-! ## The card -/

/-- An SD card. -/
structure Card where
  highCapacity : Bool
  bytes : Nat → Byte

/-- The card location that a read or write command with argument `k` selects: a sector number on a
    high-capacity card, a byte address on a standard-capacity card. -/
def Card.select (c : Card) (k : Nat) : Nat := if c.highCapacity then k * 512 else k

/-- `sdhci_read_block`, when it succeeds: 512 bytes from the card into `buf`. -/
def sdhciReadBlock (c : Card) (block : Nat) (buf : Block) : Block :=
  buf.store 0 512 fun j => c.bytes (c.select block + j)

/-- `sdhci_write_block`, when it succeeds: 512 bytes of `buf` onto the card. -/
def sdhciWriteBlock (c : Card) (block : Nat) (buf : Block) : Card :=
  { c with
    bytes := fun a =>
      if c.select block ≤ a ∧ a < c.select block + 512 then buf.byte (a - c.select block)
      else c.bytes a }

def virtioDiskRw (c : Card) (b : Buf) (write : Bool) : Card × Buf :=
  if write then (sdhciWriteBlock c b.blockno b.data, b)
  else (c, { b with data := sdhciReadBlock c b.blockno b.data })

/-! ## The block store -/

/-- Byte `a` of the card belongs to block `b`, in the layout of mkfs's `wsect`. -/
def InBlock (b a : Nat) : Prop := b * BSIZE ≤ a ∧ a < b * BSIZE + BSIZE

instance (b a : Nat) : Decidable (InBlock b a) := inferInstanceAs (Decidable (_ ∧ _))

/-- The blocks of an image. -/
def Card.image (c : Card) (b : Nat) : Block := fun i => c.bytes (b * BSIZE + i.val)

/-- One call of `virtio_disk_rw`. -/
structure Call where
  buf : Buf
  write : Bool

/-- The blocks after a call: a write replaces its block. -/
def Call.store (call : Call) (m : Nat → Block) (b : Nat) : Block :=
  if call.write ∧ b = call.buf.blockno then call.buf.data else m b

/-- A call does what a block store with the contents `m` does: a read fills the buffer with its
    block, a write changes no byte of another block. -/
def Meets (c : Card) (m : Nat → Block) (call : Call) : Prop :=
  if call.write then
    ∀ a, ¬ InBlock call.buf.blockno a → (virtioDiskRw c call.buf true).1.bytes a = c.bytes a
  else (virtioDiskRw c call.buf false).2.data = m call.buf.blockno

/-- Every call of a sequence does what the block store does. -/
def ImplementsFrom : Card → (Nat → Block) → List Call → Prop
  | _, _, [] => True
  | c, m, call :: calls =>
    Meets c m call ∧ ImplementsFrom (virtioDiskRw c call.buf call.write).1 (call.store m) calls

/-- The driver on the card `c` implements the block store whose initial contents are the card's
    image. -/
def Implements (c : Card) (calls : List Call) : Prop := ImplementsFrom c c.image calls

/-! ## When the driver gets away with it -/

/-- The 512 bytes at the place the driver selects for block `b` are the lower half of `d`. -/
def Card.Lower (c : Card) (b : Nat) (d : Block) : Prop :=
  ∀ j, j < 512 → c.bytes (c.select b + j) = d.byte j

/-- The upper halves of `d` and `e` agree. -/
def SameUpper (d e : Block) : Prop := ∀ j, 512 ≤ j → j < BSIZE → d.byte j = e.byte j

/-- A write goes to block 0 or finds its lower half where the driver puts it. A read of a block
    other than 0 finds the block's lower half at the place selected, and any read gets a buffer
    that already holds the upper half. -/
def Fits (c : Card) (m : Nat → Block) (call : Call) : Prop :=
  if call.write then call.buf.blockno = 0 ∨ c.Lower call.buf.blockno call.buf.data
  else (call.buf.blockno = 0 ∨ c.Lower call.buf.blockno (m call.buf.blockno)) ∧
    SameUpper call.buf.data (m call.buf.blockno)

def FitsFrom : Card → (Nat → Block) → List Call → Prop
  | _, _, [] => True
  | c, m, call :: calls =>
    Fits c m call ∧ FitsFrom (virtioDiskRw c call.buf call.write).1 (call.store m) calls

/-- The place selected for a block other than 0 ends before the block begins. -/
theorem Card.select_before (c : Card) {b : Nat} (hb : b ≠ 0) : c.select b + 512 ≤ b * BSIZE := by
  unfold Card.select BSIZE
  split <;> omega

theorem Card.select_zero (c : Card) : c.select 0 = 0 := by
  unfold Card.select
  split <;> rfl

theorem sdhciWriteBlock_select (c : Card) (b : Nat) (d : Block) {j : Nat} (hj : j < 512) :
    (sdhciWriteBlock c b d).bytes (c.select b + j) = d.byte j := by
  show (if _ then _ else _) = _
  rw [if_pos (by omega), Nat.add_sub_cancel_left]

theorem sdhciWriteBlock_other (c : Card) (b : Nat) (d : Block) {a : Nat}
    (ha : a < c.select b ∨ c.select b + 512 ≤ a) :
    (sdhciWriteBlock c b d).bytes a = c.bytes a := by
  show (if _ then _ else _) = _
  rw [if_neg (by omega)]

/-- A write that finds its lower half in place changes nothing. -/
theorem sdhciWriteBlock_lower {c : Card} {b : Nat} {d : Block} (h : c.Lower b d) (a : Nat) :
    (sdhciWriteBlock c b d).bytes a = c.bytes a := by
  rcases Nat.lt_or_ge a (c.select b) with ha | ha
  · exact sdhciWriteBlock_other c b d (Or.inl ha)
  rcases Nat.lt_or_ge a (c.select b + 512) with ha' | ha'
  · have hj : a - c.select b < 512 := by omega
    have hw := sdhciWriteBlock_select c b d hj
    have hl := h (a - c.select b) hj
    rw [show c.select b + (a - c.select b) = a by omega] at hw hl
    rw [hw, hl]
  · exact sdhciWriteBlock_other c b d (Or.inr ha')

theorem write_meets_iff (c : Card) (m : Nat → Block) (b : Buf) :
    Meets c m ⟨b, true⟩ ↔ Fits c m ⟨b, true⟩ := by
  show (∀ a, ¬ InBlock b.blockno a → (sdhciWriteBlock c b.blockno b.data).bytes a = c.bytes a) ↔
    (b.blockno = 0 ∨ c.Lower b.blockno b.data)
  constructor
  · intro h
    rcases Nat.eq_zero_or_pos b.blockno with hb | hb
    · exact Or.inl hb
    · right
      intro j hj
      -- the place written lies in another block, so it must not change
      have hbefore := c.select_before (Nat.pos_iff_ne_zero.mp hb)
      have hout : ¬ InBlock b.blockno (c.select b.blockno + j) := by
        intro hin
        have := hin.1
        omega
      rw [← h _ hout, sdhciWriteBlock_select c _ _ hj]
  · intro h a ha
    rcases h with hb | hl
    · refine sdhciWriteBlock_other c _ _ (Or.inr ?_)
      rw [hb] at ha ⊢
      rw [c.select_zero]
      unfold InBlock BSIZE at ha
      omega
    · exact sdhciWriteBlock_lower hl a

theorem read_meets_iff (c : Card) (m : Nat → Block) (b : Buf) (h0 : c.Lower 0 (m 0)) :
    Meets c m ⟨b, false⟩ ↔ Fits c m ⟨b, false⟩ := by
  show sdhciReadBlock c b.blockno b.data = m b.blockno ↔
    ((b.blockno = 0 ∨ c.Lower b.blockno (m b.blockno)) ∧ SameUpper b.data (m b.blockno))
  have hlow : ∀ j, j < 512 →
      (sdhciReadBlock c b.blockno b.data).byte j = c.bytes (c.select b.blockno + j) := by
    intro j hj
    unfold sdhciReadBlock
    rw [Bytes.byte_store _ _ _ _ (by unfold BSIZE; omega), if_pos (by omega), Nat.sub_zero]
  have hup : ∀ j, 512 ≤ j → (sdhciReadBlock c b.blockno b.data).byte j = b.data.byte j := by
    intro j hj
    exact Bytes.byte_store_outside _ _ _ _ (Or.inr (by omega))
  constructor
  · intro h
    refine ⟨Or.inr ?_, ?_⟩
    · intro j hj
      rw [← hlow j hj, h]
    · intro j hj _
      rw [← hup j hj, h]
  · intro h
    obtain ⟨hl, hu⟩ := h
    have hl' : c.Lower b.blockno (m b.blockno) := by
      rcases hl with hb | hl
      · rw [hb]; exact h0
      · exact hl
    apply Bytes.ext_byte
    intro j hj
    rcases Nat.lt_or_ge j 512 with hj' | hj'
    · rw [hlow j hj', hl' j hj']
    · rw [hup j hj', hu j hj' hj]

/-- Block 0 is where the driver looks for it, and calls that fit keep it there. -/
theorem Fits.lower_zero {c : Card} {m : Nat → Block} {call : Call} (h : Fits c m call)
    (h0 : c.Lower 0 (m 0)) :
    (virtioDiskRw c call.buf call.write).1.Lower 0 (call.store m 0) := by
  obtain ⟨b, write⟩ := call
  cases write with
  | false => exact h0
  | true =>
    show (sdhciWriteBlock c b.blockno b.data).Lower 0 (if true ∧ 0 = b.blockno then b.data else m 0)
    intro j hj
    show (sdhciWriteBlock c b.blockno b.data).bytes (c.select 0 + j) = _
    rcases h with hb | hl
    · rw [hb, sdhciWriteBlock_select c 0 _ hj]
      simp
    · rw [sdhciWriteBlock_lower hl, h0 j hj]
      split
      · rename_i h00
        rw [← h00.2] at hl
        rw [← hl j hj, h0 j hj]
      · rfl

theorem implementsFrom_iff (calls : List Call) :
    ∀ (c : Card) (m : Nat → Block), c.Lower 0 (m 0) →
      (ImplementsFrom c m calls ↔ FitsFrom c m calls) := by
  induction calls with
  | nil =>
    intro c m _
    exact Iff.rfl
  | cons call calls ih =>
    intro c m h0
    have hcall : Meets c m call ↔ Fits c m call := by
      obtain ⟨b, write⟩ := call
      cases write with
      | false => exact read_meets_iff c m b h0
      | true => exact write_meets_iff c m b
    show Meets c m call ∧ _ ↔ Fits c m call ∧ _
    rw [hcall]
    exact and_congr_right fun hf => ih _ _ (hf.lower_zero h0)

/-- For every card and every sequence of calls, the driver implements the block store exactly if
    every call fits the state it finds. -/
theorem virtioDiskRw_implements_iff (c : Card) (calls : List Call) :
    Implements c calls ↔ FitsFrom c c.image calls := by
  refine implementsFrom_iff calls c c.image ?_
  intro j hj
  rw [c.select_zero, Bytes.byte_of_lt _ (show j < BSIZE by unfold BSIZE; omega)]
  rfl

/-- On a blank card of either class, one write of ones to block 1 lands in block 0. -/
theorem virtioDiskRw_write_one_clobbers :
    ¬ Implements ⟨true, fun _ => 0⟩ [⟨⟨true, ROOTDEV, 1, 1, some 1, fun _ => 1⟩, true⟩] ∧
      ¬ Implements ⟨false, fun _ => 0⟩ [⟨⟨true, ROOTDEV, 1, 1, some 1, fun _ => 1⟩, true⟩] := by
  refine ⟨?_, ?_⟩
  · intro h
    have h512 := h.1 512 (by decide)
    revert h512
    decide
  · intro h
    have h1 := h.1 1 (by decide)
    revert h1
    decide

end Xv6
