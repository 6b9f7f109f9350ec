/-
  Transfers of sectors, against a host controller as the SDHCI specification has it.

  `Ctrl` is the controller with a high-capacity card in it.  It has a data phase only for a command whose
  word has the data-present bit; in it words move through the buffer register, and at its end DATA_END
  is raised.  What the driver polls for comes after any number of reads below the driver's limits.

  With the data-present bit every sequence of calls does what it should (`transfers_of_data`).  The
  driver does not set the bit, so no call ever gets its data (`sector_transfers_iff`).
-/
import Xv6.Sd.Sdhci
import Mathlib.Data.List.FinRange
import Mathlib.Tactic.Common

namespace Xv6.Sdhci

open Function List
open Lib.Prog hiding update

/-! ## The controller -/

inductive Phase where
  | idle
  /-- The response is outstanding; `data` is whether a data phase follows it. -/
  | command (data : Bool)
  | reading (block : BitVec 32) (i : Nat)
  | writing (block : BitVec 32) (i : Nat)
  /-- All words have been moved. -/
  | ending

structure Ctrl where
  /-- The contents of the card. -/
  sector : BitVec 32 → Sector
  blockSize : BitVec 32
  blockCount : BitVec 32
  argument : BitVec 32
  transferMode : BitVec 32
  status : BitVec 32
  phase : Phase
  /-- How many reads the next answer is away. -/
  timer : Nat
  cmdDelay : Nat → Nat
  dataDelay : Nat → Nat
  /-- The number of delays used up. -/
  turn : Nat

namespace Ctrl

/-- Start to wait for the answer to a command. -/
def waitCmd (d : Ctrl) (phase : Phase) : Ctrl :=
  { d with phase := phase, timer := d.cmdDelay d.turn, turn := d.turn + 1 }

/-- Start to wait for data. -/
def waitData (d : Ctrl) (phase : Phase) : Ctrl :=
  { d with phase := phase, timer := d.dataDelay d.turn, turn := d.turn + 1 }

/-- The number of words of a transfer. -/
def words (d : Ctrl) : Nat := d.blockCount.toNat * d.blockSize.toNat / 4

/-- Word `i` of a transfer that starts at a sector. -/
def place (block : BitVec 32) (i : Nat) : BitVec 32 × Fin 128 :=
  (block + BitVec.ofNat 32 (i / 128), ⟨i % 128, Nat.mod_lt i (by decide)⟩)

/-- The phase after the response. -/
def respond (d : Ctrl) (data : Bool) : Ctrl :=
  if data then
    d.waitData (if d.transferMode &&& SDHCI_TRNS_READ ≠ 0 then .reading d.argument 0
      else .writing d.argument 0)
  else d.waitCmd .idle

/-- One word of a data phase has been moved. -/
def moved (d : Ctrl) (i : Nat) (phase : Phase) : Ctrl :=
  d.waitData (if i + 1 = d.words then .ending else phase)

def readStatus (d : Ctrl) : BitVec 32 × Ctrl :=
  match d.phase, d.timer with
  | .command data, 0 =>
    let d := { d with status := d.status ||| SDHCI_INT_RESPONSE }
    (d.status, d.respond data)
  | .ending, 0 =>
    let d := { d with status := d.status ||| SDHCI_INT_DATA_END }
    (d.status, d.waitCmd .idle)
  | .command _, t + 1 => (d.status, { d with timer := t })
  | .ending, t + 1 => (d.status, { d with timer := t })
  | _, _ => (d.status, d)

def readPresent (d : Ctrl) : BitVec 32 × Ctrl :=
  match d.phase, d.timer with
  | .idle, 0 => (SDHCI_CARD_PRESENT, d)
  | .reading _ _, 0 => (SDHCI_CARD_PRESENT ||| SDHCI_DATA_INHIBIT ||| SDHCI_DATA_AVAILABLE, d)
  | .writing _ _, 0 => (SDHCI_CARD_PRESENT ||| SDHCI_DATA_INHIBIT ||| SDHCI_SPACE_AVAILABLE, d)
  | .idle, t + 1 =>
    (SDHCI_CARD_PRESENT ||| SDHCI_CMD_INHIBIT ||| SDHCI_DATA_INHIBIT, { d with timer := t })
  | .reading _ _, t + 1 => (SDHCI_CARD_PRESENT ||| SDHCI_DATA_INHIBIT, { d with timer := t })
  | .writing _ _, t + 1 => (SDHCI_CARD_PRESENT ||| SDHCI_DATA_INHIBIT, { d with timer := t })
  | .command _, _ => (SDHCI_CARD_PRESENT ||| SDHCI_CMD_INHIBIT ||| SDHCI_DATA_INHIBIT, d)
  | .ending, _ => (SDHCI_CARD_PRESENT ||| SDHCI_DATA_INHIBIT, d)

def readBuffer (d : Ctrl) : BitVec 32 × Ctrl :=
  match d.phase, d.timer with
  | .reading block i, 0 =>
    let (b, j) := place block i
    (d.sector b j, d.moved i (.reading block (i + 1)))
  | _, _ => (0, d)

def writeBuffer (d : Ctrl) (v : BitVec 32) : Ctrl :=
  match d.phase, d.timer with
  | .writing block i, 0 =>
    let (b, j) := place block i
    let d := { d with sector := update d.sector b (update (d.sector b) j v) }
    d.moved i (.writing block (i + 1))
  | _, _ => d

def writeCommand (d : Ctrl) (v : BitVec 32) : Ctrl :=
  match d.phase, d.timer with
  | .idle, 0 => d.waitCmd (.command (v &&& SDHCI_CMD_DATA.setWidth 32 ≠ 0))
  | _, _ => d

end Ctrl

/-- Registers that transfers do not use read as zero. -/
def ctrlDev : Device Ctrl where
  read := fun reg d =>
    match reg with
    | .intStatus => d.readStatus
    | .presentState => d.readPresent
    | .buffer => d.readBuffer
    | _ => (0, d)
  write := fun reg val d =>
    match reg with
    | .blockSize => { d with blockSize := val }
    | .blockCount => { d with blockCount := val }
    | .argument => { d with argument := val }
    | .transferMode => { d with transferMode := val }
    | .command => d.writeCommand val
    | .intStatus => { d with status := d.status &&& ~~~val }
    | .buffer => d.writeBuffer val
    | _ => d

/-! ## Calls -/

inductive Call where
  | read (block : BitVec 32) (buf : Sector)
  | write (block : BitVec 32) (buf : Sector)

/-- A call, with its result and the buffer after it. -/
def Call.prog (data : BitVec 16) : Call → SdM Ctrl (Int × Sector)
  | .read block buf => sdhciReadBlock ctrlDev data block buf
  | .write block buf => do
    let result ← sdhciWriteBlock ctrlDev data block buf
    pure (result, buf)

def runCalls (data : BitVec 16) : List Call → SdM Ctrl (List (Int × Sector))
  | [] => pure []
  | c :: cs => do
    let r ← c.prog data
    let rs ← runCalls data cs
    pure (r :: rs)

/-- What a call does to the sectors. -/
def Call.apply (sector : BitVec 32 → Sector) : Call → BitVec 32 → Sector
  | .read _ _ => sector
  | .write block buf => update sector block buf

/-- What the calls return: a read the last data written. -/
def expected (sector : BitVec 32 → Sector) : List Call → List (Int × Sector)
  | [] => []
  | .read block buf :: cs => (0, sector block) :: expected ((Call.read block buf).apply sector) cs
  | .write block buf :: cs => (0, buf) :: expected ((Call.write block buf).apply sector) cs

/-- The calls move the data that they should. -/
def Transfers (data : BitVec 16) (s : Host Ctrl) (calls : List Call) : Prop :=
  ∃ s', (runCalls data calls).run s = .done (expected s.dev.sector calls) s' ∧
    s'.dev.sector = calls.foldl Call.apply s.dev.sector

/-- The controller answers in time and is not busy. -/
structure Ctrl.InTime (d : Ctrl) : Prop where
  cmdDelay : ∀ k, d.cmdDelay k < SDHCI_CMD_TIMEOUT * 10
  dataDelay : ∀ k, d.dataDelay k < SDHCI_DATA_TIMEOUT * 10
  idle : d.phase = .idle
  timer : d.timer < SDHCI_CMD_TIMEOUT * 10

/-! ## Polling -/

variable {mask : BitVec 32} {n : Nat}

/-- What comes after `t` reads is seen within more than `t` polls. -/
theorem wp_poll {D : Type} (dev : Device D) (reg : Reg) {value : BitVec 32} (st : Nat → D) (d : D)
    (busy v : BitVec 32) (hbusy : ∀ t, dev.read reg (st (t + 1)) = (busy, st t))
    (hb : busy &&& mask ≠ value) (hdone : dev.read reg (st 0) = (v, d)) (hv : v &&& mask = value)
    {t : Nat} (ht : t < n) {c : SdCard} {Q : Int → Host D → Prop} (hQ : Q 0 ⟨d, c⟩) :
    wp Crit.total Q (pollReg dev reg mask value n) ⟨st t, c⟩ := by
  induction n generalizing t with
  | zero => cases ht
  | succ n ih =>
    unfold pollReg
    rw [wp_bind, wp_readReg]
    cases t with
    | zero =>
      rw [hdone, if_pos hv]
      exact hQ
    | succ t =>
      rw [hbusy, if_neg hb]
      exact ih (Nat.lt_of_succ_lt_succ ht)

/-- What never comes is not seen. -/
theorem wp_poll_never {D : Type} {dev : Device D} {reg : Reg} {value : BitVec 32} {I : D → Prop}
    (hI : ∀ d, I d → (dev.read reg d).1 &&& mask ≠ value ∧ I (dev.read reg d).2) {d : D} (hd : I d)
    {c : SdCard} {Q : Int → Host D → Prop} (hQ : ∀ d, I d → Q (-1) ⟨d, c⟩) :
    wp Crit.total Q (pollReg dev reg mask value n) ⟨d, c⟩ := by
  induction n generalizing d with
  | zero => exact hQ d hd
  | succ n ih =>
    obtain ⟨hv, hd'⟩ := hI d hd
    unfold pollReg
    rw [wp_bind, wp_readReg, if_neg hv]
    exact ih hd'

/-! ## Commands -/

/-- The controller after a command that has been answered. -/
def Ctrl.issued (d : Ctrl) (arg : BitVec 32) (data : Bool) : Ctrl :=
  { d with argument := arg, status := 0, turn := d.turn + 1 }.respond data

section calls

variable {d : Ctrl} {c : SdCard}

theorem wp_sendCmd (data : BitVec 16) (cmd : Cmd) {arg : BitVec 32} (hd : d.InTime)
    {Q : Option (Nat → BitVec 32) → Host Ctrl → Prop} (more : Bool)
    (hmore : decide ((cmd.number <<< 8 ||| Rsp.r1.flags ||| data).setWidth 32 &&&
      SDHCI_CMD_DATA.setWidth 32 ≠ 0) = more)
    (hQ : Q (some fun _ => 0) ⟨d.issued arg more, c⟩) :
    wp Crit.total Q (sdhciSendCmd ctrlDev data cmd arg .r1 false) ⟨d, c⟩ := by
  have hstart : d = { d with phase := .idle, timer := d.timer } := by
    rw [← hd.idle]
  have hclear : d.status &&& ~~~(0xFFFFFFFF : BitVec 32) = 0 := by
    exact BitVec.and_zero
  have hsent : ctrlDev.write .command
        ((cmd.number <<< 8 ||| Rsp.r1.flags ||| data).setWidth 32)
        (ctrlDev.write .argument arg (ctrlDev.write .intStatus 0xFFFFFFFF
          { d with phase := .idle, timer := 0 })) =
      { d with
        argument := arg, status := 0, phase := .command more, timer := d.cmdDelay d.turn
        turn := d.turn + 1 } := by
    simp only [ctrlDev, Ctrl.writeCommand, Ctrl.waitCmd, hclear, hmore]
  -- the state when the response is there
  let d₁ : Ctrl := { d with argument := arg, status := SDHCI_INT_RESPONSE, turn := d.turn + 1 }.respond more
  have hraised : ctrlDev.read .intStatus { d with
        argument := arg, status := 0, phase := .command more, timer := 0, turn := d.turn + 1 } =
      (SDHCI_INT_RESPONSE, d₁) := by
    simp only [ctrlDev, Ctrl.readStatus]
    cases more <;> rfl
  have hstatus : ctrlDev.read .intStatus d₁ = (SDHCI_INT_RESPONSE, d₁) := by
    simp only [d₁, Ctrl.respond]
    split
    · split <;> rfl
    · rfl
  have hended : ctrlDev.write .intStatus SDHCI_INT_RESPONSE d₁ = d.issued arg more := by
    have hzero : SDHCI_INT_RESPONSE &&& ~~~SDHCI_INT_RESPONSE = 0 := by decide
    simp only [ctrlDev, d₁, Ctrl.respond, Ctrl.issued]
    split
    · split <;> simp only [Ctrl.waitData, hzero]
    · simp only [Ctrl.waitCmd, hzero]
  unfold sdhciSendCmd sdhciWaitFor
  rw [wp_bind, hstart]
  refine wp_poll ctrlDev .presentState (fun t => { d with phase := .idle, timer := t })
    { d with phase := .idle, timer := 0 }
    (SDHCI_CARD_PRESENT ||| SDHCI_CMD_INHIBIT ||| SDHCI_DATA_INHIBIT) SDHCI_CARD_PRESENT
    (fun _ => rfl) (by decide) rfl (by decide) hd.timer ?_
  rw [if_neg (by decide), wp_bind, wp_writeReg, wp_bind, wp_writeReg, wp_bind, wp_writeReg, wp_bind]
  rw [hsent]
  refine wp_poll ctrlDev .intStatus (fun t => { d with
      argument := arg, status := 0, phase := .command more, timer := t, turn := d.turn + 1 })
    d₁ 0 SDHCI_INT_RESPONSE (fun _ => rfl) (by decide) hraised (by decide) (hd.cmdDelay _) ?_
  rw [if_neg (by decide), wp_bind, wp_readReg]
  rw [hstatus]
  refine (if_neg (by decide : ¬ SDHCI_INT_RESPONSE &&& SDHCI_INT_ERROR_MASK ≠ 0)).symm ▸ ?_
  rw [wp_bind]
  show wp Crit.total _ (pure fun _ => 0) _
  rw [wp_pure, wp_bind, wp_writeReg]
  rw [hended]
  exact hQ

variable {Q : Int → Host Ctrl → Prop}

/-- A controller that is idle has no data and no space for data. -/
theorem wp_wait_idle (hd : d.phase = .idle) (hfree : SDHCI_CARD_PRESENT &&& mask ≠ mask)
    (hbusy : (SDHCI_CARD_PRESENT ||| SDHCI_CMD_INHIBIT ||| SDHCI_DATA_INHIBIT) &&& mask ≠ mask) (hQ : ∀ d, Q (-1) ⟨d, c⟩) :
    wp Crit.total Q (sdhciWaitFor ctrlDev .presentState mask mask n) ⟨d, c⟩ := by
  refine wp_poll_never (I := fun d => d.phase = .idle) ?_ hd fun d _ => hQ d
  intro d hd
  show d.readPresent.1 &&& mask ≠ mask ∧ d.readPresent.2.phase = .idle
  unfold Ctrl.readPresent
  rw [hd]
  cases d.timer with
  | zero => exact ⟨hfree, hd⟩
  | succ t => exact ⟨hbusy, rfl⟩

theorem exists_finRange : ∃ i is, finRange 128 = i :: is := ⟨_, _, finRange_succ⟩

/-- The controller before the command of a transfer. -/
def Ctrl.setup (d : Ctrl) (mode : BitVec 32) : Ctrl :=
  { d with blockSize := 512, blockCount := 1, transferMode := mode }

theorem Ctrl.InTime.setup (hd : d.InTime) (mode : BitVec 32) : (d.setup mode).InTime :=
  ⟨hd.cmdDelay, hd.dataDelay, hd.idle, hd.timer⟩

variable {buf : Sector}

/-- A read, once its command has been answered. -/
theorem wp_readBlock {data : BitVec 16} {block : BitVec 32} (hd : d.InTime)
    (hc : c.initialized = true) (more : Bool)
    (hmore : decide ((Cmd.readSingleBlock.number <<< 8 ||| Rsp.r1.flags ||| data).setWidth 32 &&&
      SDHCI_CMD_DATA.setWidth 32 ≠ 0) = more) {Q : Int × Sector → Host Ctrl → Prop}
    (hrest : wp Crit.total (fun r s => wp Crit.total Q
      (if r.1 < 0 then pure (-1, r.2)
      else do
        let result ← endTransfer ctrlDev
        pure (result, r.2)) s)
      (readWords ctrlDev (finRange 128) buf) ⟨(d.setup SDHCI_TRNS_READ).issued block more, c⟩)
    :
    wp Crit.total Q (sdhciReadBlock ctrlDev data block buf) ⟨d, c⟩ := by
  unfold sdhciReadBlock
  rw [wp_bind, wp_state, hc, if_neg (by decide), wp_bind, wp_writeReg, wp_bind, wp_writeReg, wp_bind,
    wp_writeReg, wp_bind]
  refine wp_sendCmd data .readSingleBlock (hd.setup _) more hmore ?_
  rw [wp_bind]
  exact hrest

/-- A write, once its command has been answered. -/
theorem wp_writeBlock {data : BitVec 16} {block : BitVec 32} (hd : d.InTime)
    (hc : c.initialized = true) (more : Bool)
    (hmore : decide ((Cmd.writeBlock.number <<< 8 ||| Rsp.r1.flags ||| data).setWidth 32 &&&
      SDHCI_CMD_DATA.setWidth 32 ≠ 0) = more)
    (hrest : wp Crit.total (fun r s => wp Crit.total Q
      (if r < 0 then pure (-1) else endTransfer ctrlDev) s)
      (writeWords ctrlDev buf (finRange 128)) ⟨(d.setup 0).issued block more, c⟩) :
    wp Crit.total Q (sdhciWriteBlock ctrlDev data block buf) ⟨d, c⟩ := by
  unfold sdhciWriteBlock
  rw [wp_bind, wp_state, hc, if_neg (by decide), wp_bind, wp_writeReg, wp_bind, wp_writeReg, wp_bind,
    wp_writeReg, wp_bind]
  refine wp_sendCmd data .writeBlock (hd.setup _) more hmore ?_
  rw [wp_bind]
  exact hrest

theorem readBlock_fails (hd : d.InTime) (hc : c.initialized = true) (block : BitVec 32) (buf : Sector) :
    wp Crit.total (fun r _ => r.1 = -1) (sdhciReadBlock ctrlDev 0 block buf) ⟨d, c⟩ := by
  obtain ⟨i, is, hrange⟩ := exists_finRange
  refine wp_readBlock hd hc false (by decide) ?_
  rw [hrange]
  unfold readWords
  rw [wp_bind]
  refine wp_wait_idle rfl (by decide) (by decide) ?_
  intro d
  rfl

theorem writeBlock_fails (hd : d.InTime) (hc : c.initialized = true) (block : BitVec 32) (buf : Sector) :
    wp Crit.total (fun r _ => r = -1) (sdhciWriteBlock ctrlDev 0 block buf) ⟨d, c⟩ := by
  obtain ⟨i, is, hrange⟩ := exists_finRange
  refine wp_writeBlock hd hc false (by decide) ?_
  rw [hrange]
  unfold writeWords
  rw [wp_bind]
  refine wp_wait_idle rfl (by decide) (by decide) ?_
  intro d
  rfl

theorem Call.fails (hd : d.InTime) (hc : c.initialized = true) (call : Call) :
    wp Crit.total (fun r _ => r.1 = -1) (call.prog 0) ⟨d, c⟩ := by
  cases call with
  | read block buf => exact readBlock_fails hd hc block buf
  | write block buf =>
    unfold Call.prog
    rw [wp_bind]
    exact writeBlock_fails hd hc block buf

/-! ## With the data-present bit -/

/-- The controller during a data phase. -/
structure Ctrl.Busy (d : Ctrl) (sector : BitVec 32 → Sector) (phase : Phase) : Prop where
  cmdDelay : ∀ k, d.cmdDelay k < SDHCI_CMD_TIMEOUT * 10
  dataDelay : ∀ k, d.dataDelay k < SDHCI_DATA_TIMEOUT * 10
  phase : d.phase = phase
  timer : d.timer < SDHCI_DATA_TIMEOUT * 10
  words : d.words = 128
  status : d.status = 0
  sector : d.sector = sector

variable {sector : BitVec 32 → Sector} {block : BitVec 32} {i : Nat}

theorem Ctrl.Busy.moved {sector' : BitVec 32 → Sector} {phase next : Phase} (hd : d.Busy sector phase) :
    ({ d with phase := phase, timer := 0, sector := sector' }.moved i next).Busy sector'
      (if i + 1 = 128 then .ending else next) := by
  have hwords : { d with phase := phase, timer := 0, sector := sector' }.words = 128 := hd.words
  unfold Ctrl.moved
  rw [hwords]
  exact ⟨hd.cmdDelay, hd.dataDelay, rfl, hd.dataDelay _, hd.words, hd.status, rfl⟩

theorem Ctrl.setup_words (mode : BitVec 32) : (d.setup mode).words = 128 := by
  show (1 : BitVec 32).toNat * (512 : BitVec 32).toNat / 4 = 128
  decide

theorem Ctrl.InTime.issued_read (hd : d.InTime) :
    ((d.setup SDHCI_TRNS_READ).issued block true).Busy d.sector (.reading block 0) :=
  have hread : SDHCI_TRNS_READ &&& SDHCI_TRNS_READ ≠ 0 := by decide
  ⟨hd.cmdDelay, hd.dataDelay, if_pos hread, hd.dataDelay _, Ctrl.setup_words (d := d) SDHCI_TRNS_READ, rfl, rfl⟩

theorem Ctrl.InTime.issued_write (hd : d.InTime) :
    ((d.setup 0).issued block true).Busy d.sector (.writing block 0) :=
  have hwrite : ¬ (0 : BitVec 32) &&& SDHCI_TRNS_READ ≠ 0 := by decide
  ⟨hd.cmdDelay, hd.dataDelay, if_neg hwrite, hd.dataDelay _, Ctrl.setup_words (d := d) 0, rfl, rfl⟩

/-- The words of a transfer of one sector are the words of that sector. -/
theorem Ctrl.place_lt (hi : i < 128) : Ctrl.place block i = (block, ⟨i, hi⟩) := by
  have hdiv : i / 128 = 0 := Nat.div_eq_of_lt hi
  have hmod : i % 128 = i := Nat.mod_eq_of_lt hi
  simp only [Ctrl.place, hdiv, hmod]
  exact Prod.ext (BitVec.add_zero _) rfl

/-- In a data phase the next word can be moved within the time that the driver waits. -/
theorem wp_wait_data {phase : Phase} {v : BitVec 32} (hd : d.Busy sector phase)
    (hbusy : ∀ t, ctrlDev.read .presentState { d with phase := phase, timer := t + 1 } =
      (SDHCI_CARD_PRESENT ||| SDHCI_DATA_INHIBIT, { d with phase := phase, timer := t }))
    (hb : (SDHCI_CARD_PRESENT ||| SDHCI_DATA_INHIBIT) &&& mask ≠ mask)
    (hdone : ctrlDev.read .presentState { d with phase := phase, timer := 0 } =
      (v, { d with phase := phase, timer := 0 })) (hv : v &&& mask = mask) (hQ : Q 0 ⟨{ d with phase := phase, timer := 0 }, c⟩) :
    wp Crit.total Q (sdhciWaitFor ctrlDev .presentState mask mask SDHCI_DATA_TIMEOUT) ⟨d, c⟩ := by
  have hstart : d = { d with phase := phase, timer := d.timer } := by
    rw [← hd.phase]
  unfold sdhciWaitFor
  rw [hstart]
  exact wp_poll ctrlDev .presentState (fun t => { d with phase := phase, timer := t }) _ _ v hbusy hb
    hdone hv hd.timer hQ

theorem drop_finRange (hi : i < 128) :
    (finRange 128).drop i = ⟨i, hi⟩ :: (finRange 128).drop (i + 1) := by
  rw [drop_eq_getElem_cons (by rwa [length_finRange])]
  simp

/-- The words before `i` have been read. -/
theorem wp_readWords (n : Nat) (hi : i + n = 128)
    (hd : d.Busy sector (if i = 128 then .ending else .reading block i))
    (hbuf : ∀ j : Fin 128, j.val < i → buf j = sector block j) {Q : Int × Sector → Host Ctrl → Prop}
    (hQ : ∀ d : Ctrl, d.Busy sector .ending → Q (0, sector block) ⟨d, c⟩) :
    wp Crit.total Q (readWords ctrlDev ((finRange 128).drop i) buf) ⟨d, c⟩ := by
  induction n generalizing i d buf with
  | zero =>
    obtain rfl : i = 128 := hi
    have hall : buf = sector block := funext fun j => hbuf j j.isLt
    rw [hall]
    exact hQ d hd
  | succ n ih =>
    have hlt : i < 128 := by omega
    rw [if_neg hlt.ne] at hd
    rw [drop_finRange hlt]
    unfold readWords
    rw [wp_bind]
    refine wp_wait_data hd (fun _ => rfl) (by decide) rfl (by decide) ?_
    rw [if_neg (by decide), wp_bind, wp_readReg]
    have hread : ctrlDev.read .buffer { d with phase := .reading block i, timer := 0 } =
        (sector block ⟨i, hlt⟩, { d with phase := .reading block i, timer := 0, sector := sector }.moved i
          (.reading block (i + 1))) := by
      rw [← hd.sector]
      show ((d.sector (Ctrl.place block i).1 (Ctrl.place block i).2), _) = _
      rw [Ctrl.place_lt hlt]
    rw [hread]
    refine ih (by omega) hd.moved ?_
    intro j hj
    by_cases hji : j = ⟨i, hlt⟩
    · rw [hji, update_self]
    · rw [update_of_ne hji]
      refine hbuf j ?_
      have : j.val ≠ i := fun h => hji (Fin.ext h)
      omega

/-- A sector of which the words before `i` have been written. -/
def written (old buf : Sector) (i : Nat) : Sector := fun j => if j.val < i then buf j else old j

theorem written_zero (old buf : Sector) : written old buf 0 = old :=
  funext fun _ => if_neg (Nat.not_lt_zero _)

theorem written_all (old buf : Sector) : written old buf 128 = buf := funext fun j => if_pos j.isLt

theorem written_succ (old buf : Sector) (hi : i < 128) :
    update (written old buf i) ⟨i, hi⟩ (buf ⟨i, hi⟩) = written old buf (i + 1) := by
  funext j
  by_cases hj : j = ⟨i, hi⟩
  · rw [hj, update_self, written, if_pos (Nat.lt_succ_self i)]
  · have : j.val ≠ i := fun h => hj (Fin.ext h)
    rw [update_of_ne hj]
    unfold written
    congr 1
    exact propext (by omega)

/-- The words before `i` have been written. -/
theorem wp_writeWords (n : Nat) (hi : i + n = 128)
    (hd : d.Busy (update sector block (written (sector block) buf i))
      (if i = 128 then .ending else .writing block i))
    (hQ : ∀ d : Ctrl, d.Busy (update sector block buf) .ending → Q 0 ⟨d, c⟩) :
    wp Crit.total Q (writeWords ctrlDev buf ((finRange 128).drop i)) ⟨d, c⟩ := by
  induction n generalizing i d with
  | zero =>
    obtain rfl : i = 128 := hi
    rw [written_all] at hd
    exact hQ d hd
  | succ n ih =>
    have hlt : i < 128 := by omega
    rw [if_neg hlt.ne] at hd
    rw [drop_finRange hlt]
    unfold writeWords
    rw [wp_bind]
    refine wp_wait_data hd (fun _ => rfl) (by decide) rfl (by decide) ?_
    rw [if_neg (by decide), wp_bind, wp_writeReg]
    have hwrite : ctrlDev.write .buffer (buf ⟨i, hlt⟩) { d with phase := .writing block i, timer := 0 } =
        { d with
          phase := .writing block i, timer := 0
          sector := update sector block (written (sector block) buf (i + 1)) }.moved i
          (.writing block (i + 1)) := by
      have hsector : update d.sector block
            (update (d.sector block) ⟨i, hlt⟩ (buf ⟨i, hlt⟩)) =
          update sector block (written (sector block) buf (i + 1)) := by
        rw [hd.sector, update_idem, update_self, written_succ]
      rw [← hsector]
      show Ctrl.moved { d with
        phase := .writing block i, timer := 0
        sector := update d.sector (Ctrl.place block i).1
          (update (d.sector (Ctrl.place block i).1) (Ctrl.place block i).2 (buf ⟨i, hlt⟩)) } i _ = _
      rw [Ctrl.place_lt hlt]
    rw [hwrite]
    exact ih (by omega) hd.moved

theorem wp_endTransfer (hd : d.Busy sector .ending)
    (hQ : ∀ d : Ctrl, d.InTime → d.sector = sector → Q 0 ⟨d, c⟩) :
    wp Crit.total Q (endTransfer ctrlDev) ⟨d, c⟩ := by
  have hstart : d = { d with phase := .ending, timer := d.timer, status := 0 } := by
    rw [← hd.phase, ← hd.status]
  let d₁ : Ctrl := { d with status := SDHCI_INT_DATA_END }.waitCmd .idle
  unfold endTransfer sdhciWaitFor
  rw [wp_bind, hstart]
  refine wp_poll ctrlDev .intStatus (fun t => { d with phase := .ending, timer := t, status := 0 })
    d₁ 0 SDHCI_INT_DATA_END (fun _ => rfl) (by decide) ?_ (by decide) hd.timer ?_
  · simp only [ctrlDev, Ctrl.readStatus]
    rfl
  · rw [if_neg (by decide), wp_bind, wp_readReg]
    refine (if_neg (by decide : ¬ SDHCI_INT_DATA_END &&& SDHCI_INT_ERROR_MASK ≠ 0)).symm ▸ ?_
    rw [wp_bind, wp_writeReg]
    exact hQ _ ⟨hd.cmdDelay, hd.dataDelay, rfl, hd.cmdDelay _⟩ hd.sector

/-- A call with the data-present bit does what it should. -/
theorem Call.transfers (hd : d.InTime) (hc : c.initialized = true) (call : Call) :
    wp Crit.total (fun r s => [r] = expected d.sector [call] ∧ s.dev.InTime ∧
      s.dev.sector = call.apply d.sector ∧ s.sdcard = c) (call.prog SDHCI_CMD_DATA) ⟨d, c⟩ := by
  cases call with
  | read block buf =>
    refine wp_readBlock hd hc true (by decide) ?_
    refine wp_readWords 128 rfl hd.issued_read (fun j hj => absurd hj (Nat.not_lt_zero _)) ?_
    intro d₁ hd₁
    rw [if_neg (show ¬ (0 : Int) < 0 by decide), wp_bind]
    refine wp_endTransfer hd₁ ?_
    intro d₂ hd₂ hsector
    exact ⟨rfl, hd₂, hsector, rfl⟩
  | write block buf =>
    unfold Call.prog
    rw [wp_bind]
    refine wp_writeBlock hd hc true (by decide) ?_
    have hstart : update d.sector block (written (d.sector block) buf 0) = d.sector := by
      rw [written_zero, update_eq_self]
    refine wp_writeWords 128 rfl (hstart.symm ▸ hd.issued_write) ?_
    intro d₁ hd₁
    refine wp_endTransfer hd₁ ?_
    intro d₂ hd₂ hsector
    exact ⟨rfl, hd₂, hsector, rfl⟩

end calls

theorem expected_cons (sector : BitVec 32 → Sector) (call : Call) (calls : List Call) :
    expected sector (call :: calls) = expected sector [call] ++ expected (call.apply sector) calls := by
  cases call <;> rfl

/-- With the data-present bit in its command words the driver moves the data of every sequence of calls. -/
theorem transfers_of_data (s : Host Ctrl) (hs : s.dev.InTime) (hinit : s.sdcard.initialized = true)
    (calls : List Call) : Transfers SDHCI_CMD_DATA s calls := by
  suffices hwp : wp Crit.total (fun rs s' => rs = expected s.dev.sector calls ∧
      s'.dev.sector = calls.foldl Call.apply s.dev.sector) (runCalls SDHCI_CMD_DATA calls) s by
    obtain ⟨rs, s', hrun, hrs, hsector⟩ := wp_run_total hwp
    exact ⟨s', hrs ▸ hrun, hsector⟩
  induction calls generalizing s with
  | nil => exact ⟨rfl, rfl⟩
  | cons call calls ih =>
    unfold runCalls
    rw [wp_bind]
    refine wp_mono (call.transfers hs hinit) ?_
    rintro r s₁ ⟨hr, hs₁, hsector, hcard⟩
    rw [wp_bind]
    refine wp_mono (ih s₁ hs₁ (hcard ▸ hinit)) ?_
    rintro rs s₂ ⟨hrs, hsector₂⟩
    rw [hsector] at hrs hsector₂
    refine ⟨?_, hsector₂⟩
    rw [expected_cons, ← hr, ← hrs]
    rfl

/-- Without the data-present bit the controller has no data phase, and the first call fails. -/
theorem sector_transfers_iff (s : Host Ctrl) (hs : s.dev.InTime) (hinit : s.sdcard.initialized = true)
    (calls : List Call) : Transfers 0 s calls ↔ calls = [] := by
  constructor
  · rintro ⟨s', hrun, _⟩
    cases calls with
    | nil => rfl
    | cons call calls =>
      have hwp : wp Crit.partialC (fun rs _ => ∃ r rest, rs = r :: rest ∧ r.1 = -1)
          (runCalls 0 (call :: calls)) s := by
        unfold runCalls
        rw [wp_bind]
        have hfirst := call.fails hs hinit
        refine wp_mono (wp_crit hfirst (fun _ _ => trivial) (fun _ _ => trivial) fun _ => trivial) ?_
        intro r s₁ hr
        rw [wp_bind]
        refine wp_mono (wp_true _) ?_
        intro rest _ _
        exact ⟨r, rest, rfl, hr⟩
      obtain ⟨r, rest, heq, hr⟩ := wp_run_done hwp hrun
      have hhead : ∃ r rest, expected s.dev.sector (call :: calls) = r :: rest ∧ r.1 = 0 := by
        cases call <;> exact ⟨_, _, rfl, rfl⟩
      obtain ⟨r', rest', heq', hr'⟩ := hhead
      rw [heq'] at heq
      cases heq
      rw [hr'] at hr
      cases hr
  · rintro rfl
    exact ⟨s, rfl, rfl⟩

/-- A controller that answers at once, with an empty card. -/
def promptCtrl : Ctrl where
  sector := fun _ _ => 0
  blockSize := 0
  blockCount := 0
  argument := 0
  transferMode := 0
  status := 0
  phase := .idle
  timer := 0
  cmdDelay := fun _ => 0
  dataDelay := fun _ => 0
  turn := 0

def promptHost : Host Ctrl := ⟨promptCtrl,
  { present := true, initialized := true, rca := 0, capacity := 0, high_capacity := true }⟩

theorem promptCtrl_inTime : promptCtrl.InTime where
  cmdDelay := fun _ => show 0 < _ by decide
  dataDelay := fun _ => show 0 < _ by decide
  idle := rfl
  timer := by decide

theorem sector_transfers_iff_prompt : Transfers 0 promptHost [] :=
  (sector_transfers_iff promptHost promptCtrl_inTime rfl []).mpr rfl

/-- The first write after the initialisation times out. -/
theorem sdhciWriteBlock_times_out :
    ∃ s, (sdhciWriteBlock ctrlDev 0 0 fun _ => 0).run promptHost = .done (-1) s := by
  obtain ⟨r, s, hrun, rfl⟩ := wp_run_total
    (writeBlock_fails promptCtrl_inTime (c := promptHost.sdcard) rfl 0 fun _ => 0)
  exact ⟨s, hrun⟩

end Xv6.Sdhci
