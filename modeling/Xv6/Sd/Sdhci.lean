/-
  The driver of the SD host controller (`kernel/sdhci.c`), down to its register accesses.

  The driver polls: it knows of the controller only what the registers return.  So the controller is
  a parameter, a `Device` with a state of its own that answers reads and takes writes.  Messages and
  delays have no effect on either side and are left out.  A result is 0 or -1 as in the source; a
  response is returned where the source fills an array, and only where it does.

  `data` are the bits that the command word of a transfer gets beyond those of its response type.  The
  source has none.
-/
import Xv6.Lib.Prog
import Mathlib.Data.BitVec
import Xv6.Param

namespace Xv6.Sdhci

open Lib Lib.Prog

/-! ## Registers -/

/-- The registers that the driver uses. -/
inductive Reg where
  | blockSize
  | blockCount
  | argument
  | transferMode
  | command
  | response (i : Nat)
  | buffer
  | presentState
  | powerControl
  | clockControl
  | timeoutControl
  | softwareReset
  | intStatus
  | intEnable
  | signalEnable
  deriving DecidableEq

abbrev SDHCI_TRNS_READ : BitVec 32 := 0x10

abbrev SDHCI_CMD_CRC : BitVec 16 := 0x08
abbrev SDHCI_CMD_INDEX : BitVec 16 := 0x10
abbrev SDHCI_CMD_DATA : BitVec 16 := 0x20
abbrev SDHCI_CMD_RESP_NONE : BitVec 16 := 0x00
abbrev SDHCI_CMD_RESP_LONG : BitVec 16 := 0x01
abbrev SDHCI_CMD_RESP_SHORT : BitVec 16 := 0x02

abbrev SDHCI_CMD_INHIBIT : BitVec 32 := 0x00000001
abbrev SDHCI_DATA_INHIBIT : BitVec 32 := 0x00000002
abbrev SDHCI_SPACE_AVAILABLE : BitVec 32 := 0x00000400
abbrev SDHCI_DATA_AVAILABLE : BitVec 32 := 0x00000800
abbrev SDHCI_CARD_PRESENT : BitVec 32 := 0x00010000

abbrev SDHCI_POWER_ON : BitVec 32 := 0x01
abbrev SDHCI_POWER_330 : BitVec 32 := 0x0E

abbrev SDHCI_CLOCK_CARD_EN : BitVec 32 := 0x0004
abbrev SDHCI_CLOCK_INT_STABLE : BitVec 32 := 0x0002
abbrev SDHCI_CLOCK_INT_EN : BitVec 32 := 0x0001

abbrev SDHCI_RESET_ALL : BitVec 32 := 0x01

abbrev SDHCI_INT_RESPONSE : BitVec 32 := 0x00000001
abbrev SDHCI_INT_DATA_END : BitVec 32 := 0x00000002
abbrev SDHCI_INT_ERROR_MASK : BitVec 32 := 0xFFFF8000

abbrev SD_OCR_CCS : BitVec 32 := 0x40000000
abbrev SD_OCR_BUSY : BitVec 32 := 0x80000000

abbrev SDHCI_CMD_TIMEOUT : Nat := 100
abbrev SDHCI_DATA_TIMEOUT : Nat := 1000

/-- `SD_CMD_*` and `SD_ACMD_SD_SEND_OP_COND`. -/
inductive Cmd where
  | goIdleState
  | allSendCid
  | sendRelativeAddr
  | selectCard
  | sendIfCond
  | sendCsd
  | setBlocklen
  | readSingleBlock
  | writeBlock
  | appCmd
  | sdSendOpCond

def Cmd.number : Cmd → BitVec 16
  | .goIdleState => 0
  | .allSendCid => 2
  | .sendRelativeAddr => 3
  | .selectCard => 7
  | .sendIfCond => 8
  | .sendCsd => 9
  | .setBlocklen => 16
  | .readSingleBlock => 17
  | .writeBlock => 24
  | .appCmd => 55
  | .sdSendOpCond => 41

/-- `SD_RSP_*`. -/
inductive Rsp where
  | none
  | r1
  | r2
  | r3
  | r6
  | r7
  deriving DecidableEq

def Rsp.flags : Rsp → BitVec 16
  | .none => SDHCI_CMD_RESP_NONE
  | .r1 => SDHCI_CMD_RESP_SHORT ||| SDHCI_CMD_CRC ||| SDHCI_CMD_INDEX
  | .r6 => SDHCI_CMD_RESP_SHORT ||| SDHCI_CMD_CRC ||| SDHCI_CMD_INDEX
  | .r7 => SDHCI_CMD_RESP_SHORT ||| SDHCI_CMD_CRC ||| SDHCI_CMD_INDEX
  | .r2 => SDHCI_CMD_RESP_LONG ||| SDHCI_CMD_CRC
  | .r3 => SDHCI_CMD_RESP_SHORT

/-! ## State -/

/-- A controller. -/
structure Device (D : Type) where
  read : Reg → D → BitVec 32 × D
  write : Reg → BitVec 32 → D → D

/-- `sdcard`. -/
structure SdCard where
  present : Bool
  initialized : Bool
  rca : BitVec 32
  capacity : BitVec 32
  high_capacity : Bool

structure Host (D : Type) where
  dev : D
  sdcard : SdCard

/-- The driver does not panic. -/
abbrev SdM (D : Type) := Prog Empty (Host D)

section driver

variable {D : Type} (dev : Device D)

def readReg (reg : Reg) : SdM D (BitVec 32) := atomic fun s =>
  let (v, d) := dev.read reg s.dev
  .ok v { s with dev := d }

def writeReg (reg : Reg) (val : BitVec 32) : SdM D Unit :=
  update fun s => { s with dev := dev.write reg val s.dev }

def setCard (f : SdCard → SdCard) : SdM D Unit := update fun s => { s with sdcard := f s.sdcard }

section rules

variable {dev} {α : Type} {s : Host D}

theorem wp_readReg {reg : Reg} {Q : BitVec 32 → Host D → Prop} :
    wp Crit.total Q (readReg dev reg) s ↔
      Q (dev.read reg s.dev).1 { s with dev := (dev.read reg s.dev).2 } := by
  unfold readReg
  exact ⟨And.right, And.intro trivial⟩

theorem wp_writeReg {reg : Reg} {val : BitVec 32} {Q : Unit → Host D → Prop} :
    wp Crit.total Q (writeReg dev reg val) s ↔ Q () { s with dev := dev.write reg val s.dev } := by
  unfold writeReg
  exact ⟨And.right, And.intro trivial⟩

theorem wp_state {f : Host D → α} {Q : α → Host D → Prop} :
    wp Crit.total Q (look f : SdM D α) s ↔ Q (f s) s := by
  exact ⟨And.right, And.intro trivial⟩

end rules

/-! ## Commands -/

/-- The loop of `sdhci_wait_for`, at most `count` times. -/
def pollReg (reg : Reg) (mask value : BitVec 32) : Nat → SdM D Int
  | 0 => pure (-1)
  | count + 1 => do
    let v ← readReg dev reg
    if v &&& mask = value then pure 0 else pollReg reg mask value count

def sdhciWaitFor (reg : Reg) (mask value : BitVec 32) (timeoutMs : Nat) : SdM D Int :=
  pollReg dev reg mask value (timeoutMs * 10)

/-- The response, if the caller wants it; what a short response does not fill is never looked at. -/
def readResponse (respType : Rsp) (want : Bool) : SdM D (Nat → BitVec 32) :=
  if want = true ∧ respType ≠ .none then
    if respType = .r2 then do
      let r0 ← readReg dev (.response 0)
      let r1 ← readReg dev (.response 1)
      let r2 ← readReg dev (.response 2)
      let r3 ← readReg dev (.response 3)
      pure fun i => if i = 0 then r0 else if i = 1 then r1 else if i = 2 then r2 else r3
    else do
      let r0 ← readReg dev (.response 0)
      pure fun _ => r0
  else pure fun _ => 0

/-- None where the source returns -1; `want` is whether it is given an array for the response. -/
def sdhciSendCmd (data : BitVec 16) (cmd : Cmd) (arg : BitVec 32) (respType : Rsp) (want : Bool) :
    SdM D (Option (Nat → BitVec 32)) := do
  if (← sdhciWaitFor dev .presentState (SDHCI_CMD_INHIBIT ||| SDHCI_DATA_INHIBIT) 0
      SDHCI_CMD_TIMEOUT) < 0 then
    pure none
  else
    writeReg dev .intStatus 0xFFFFFFFF
    writeReg dev .argument arg
    writeReg dev .command ((cmd.number <<< 8 ||| respType.flags ||| data).setWidth 32)
    if (← sdhciWaitFor dev .intStatus SDHCI_INT_RESPONSE SDHCI_INT_RESPONSE SDHCI_CMD_TIMEOUT) < 0 then
      pure none
    else
      let status ← readReg dev .intStatus
      if status &&& SDHCI_INT_ERROR_MASK ≠ 0 then pure none
      else
        let response ← readResponse dev respType want
        writeReg dev .intStatus status
        pure (some response)

def sdhciSendAcmd (acmd : Cmd) (arg : BitVec 32) (respType : Rsp) (want : Bool) :
    SdM D (Option (Nat → BitVec 32)) := do
  let sdcard ← look fun s => s.sdcard
  match ← sdhciSendCmd dev 0 .appCmd (sdcard.rca <<< 16) .r1 false with
  | none => pure none
  | some _ => sdhciSendCmd dev 0 acmd arg respType want

/-! ## Initialisation -/

/-- The loop of `sdhci_reset`; returns what is left of `timeout`. -/
def awaitReset (mask : BitVec 32) : Nat → SdM D Nat
  | 0 => do
    let _ ← readReg dev .softwareReset
    pure 0
  | timeout + 1 => do
    let v ← readReg dev .softwareReset
    if v &&& mask ≠ 0 then awaitReset mask timeout else pure (timeout + 1)

def sdhciReset (mask : BitVec 32) : SdM D Int := do
  writeReg dev .softwareReset mask
  let timeout ← awaitReset dev mask 100
  if timeout = 0 then pure (-1) else pure 0

/-- The divider and the internal clock for a frequency. -/
def clockBits (clockHz : Nat) : BitVec 32 :=
  let baseClock := 50000000
  let div := if clockHz ≥ baseClock then 1 else baseClock / clockHz
  let div := if div > 256 then 256 else div
  (BitVec.ofNat 32 div &&& 0xFF) <<< 8 ||| SDHCI_CLOCK_INT_EN

def sdhciSetClock (clockHz : Nat) : SdM D Int := do
  writeReg dev .clockControl 0
  writeReg dev .clockControl (clockBits clockHz)
  if (← sdhciWaitFor dev .clockControl SDHCI_CLOCK_INT_STABLE SDHCI_CLOCK_INT_STABLE 10) < 0 then
    pure (-1)
  else
    writeReg dev .clockControl (clockBits clockHz ||| SDHCI_CLOCK_CARD_EN)
    pure 0

/-- The loop for ACMD41; false if it ends the function. -/
def awaitReady : Nat → SdM D Bool
  | 0 => pure false
  | retries + 1 => do
    match ← sdhciSendAcmd dev .sdSendOpCond 0x40FF8000 .r3 true with
    | none => pure false
    | some response =>
      if response 0 &&& SD_OCR_BUSY ≠ 0 then
        setCard fun c => { c with high_capacity := response 0 &&& SD_OCR_CCS ≠ 0 }
        pure true
      else awaitReady retries

/-- CMD8; false if it ends the function. -/
def checkVoltage : SdM D Bool := do
  match ← sdhciSendCmd dev 0 .sendIfCond 0x1AA .r7 true with
  | none => pure true
  | some response => pure (response 0 &&& 0xFF = 0xAA)

/-- The capacity that CMD9 reports. -/
def capacityOf (sdcard : SdCard) (response : Nat → BitVec 32) : BitVec 32 :=
  if sdcard.high_capacity then
    (((response 1 &&& 0x3F) <<< 16 ||| response 2 >>> 16) + 1) * 1024
  else 0

/-- The commands of `sdhci_card_init`, up to CMD16. -/
def identify : SdM D Bool := do
  match ← sdhciSendCmd dev 0 .goIdleState 0 .none false with
  | none => pure false
  | some _ =>
  if !(← checkVoltage dev) then pure false else
  if !(← awaitReady dev 100) then pure false else
  match ← sdhciSendCmd dev 0 .allSendCid 0 .r2 true with
  | none => pure false
  | some _ =>
  match ← sdhciSendCmd dev 0 .sendRelativeAddr 0 .r6 true with
  | none => pure false
  | some response =>
  setCard fun c => { c with rca := response 0 >>> 16 }
  let sdcard ← look fun s => s.sdcard
  match ← sdhciSendCmd dev 0 .sendCsd (sdcard.rca <<< 16) .r2 true with
  | none => pure false
  | some response =>
  setCard fun c => { c with capacity := capacityOf c response }
  match ← sdhciSendCmd dev 0 .selectCard (sdcard.rca <<< 16) .r1 false with
  | none => pure false
  | some _ =>
  match ← sdhciSendCmd dev 0 .setBlocklen 512 .r1 false with
  | none => pure false
  | some _ => pure true

def sdhciCardInit : SdM D Int := do
  if ← identify dev then
    -- the result is not looked at
    let _ ← sdhciSetClock dev 25000000
    setCard fun c => { c with initialized := true }
    pure 0
  else pure (-1)

/-- What comes before the call of `sdhci_card_init`; false if it ends the function. -/
def powerUp : SdM D Bool := do
  if (← sdhciReset dev SDHCI_RESET_ALL) < 0 then pure false
  else
    let presentState ← readReg dev .presentState
    if presentState &&& SDHCI_CARD_PRESENT = 0 then pure false
    else
      setCard fun c => { c with present := true }
      writeReg dev .powerControl (SDHCI_POWER_330 ||| SDHCI_POWER_ON)
      writeReg dev .timeoutControl 0x0E
      writeReg dev .intEnable 0xFFFFFFFF
      writeReg dev .signalEnable 0
      if (← sdhciSetClock dev 400000) < 0 then pure false else pure true

def sdhciInit : SdM D Unit := do
  setCard fun c => { c with present := false, initialized := false, rca := 0 }
  if ← powerUp dev then
    let _ ← sdhciCardInit dev
    pure ()
  else pure ()

/-! ## Transfers -/

/-- A sector, as `sdhci_read_block` and `sdhci_write_block` move it: 512 bytes in words. -/
abbrev Sector := Fin 128 → BitVec 32

/-- What follows the last word: wait for the end of the transfer and look for errors. -/
def endTransfer : SdM D Int := do
  if (← sdhciWaitFor dev .intStatus SDHCI_INT_DATA_END SDHCI_INT_DATA_END SDHCI_DATA_TIMEOUT) < 0 then
    pure (-1)
  else
    let status ← readReg dev .intStatus
    if status &&& SDHCI_INT_ERROR_MASK ≠ 0 then pure (-1)
    else
      writeReg dev .intStatus status
      pure 0

/-- The loop over the words of a read. The result is 0 if it comes to its end. -/
def readWords : List (Fin 128) → Sector → SdM D (Int × Sector)
  | [], buf => pure (0, buf)
  | i :: is, buf => do
    if (← sdhciWaitFor dev .presentState SDHCI_DATA_AVAILABLE SDHCI_DATA_AVAILABLE
        SDHCI_DATA_TIMEOUT) < 0 then
      pure (-1, buf)
    else
      let v ← readReg dev .buffer
      readWords is (Function.update buf i v)

/-- Returns the buffer as well. -/
def sdhciReadBlock (data : BitVec 16) (block : BitVec 32) (buf : Sector) : SdM D (Int × Sector) := do
  let sdcard ← look fun s => s.sdcard
  if !sdcard.initialized then pure (-1, buf)
  else
    writeReg dev .blockSize 512
    writeReg dev .blockCount 1
    writeReg dev .transferMode SDHCI_TRNS_READ
    match ← sdhciSendCmd dev data .readSingleBlock block .r1 false with
    | none => pure (-1, buf)
    | some _ =>
      let (result, buf) ← readWords dev (List.finRange 128) buf
      if result < 0 then pure (-1, buf)
      else
        let result ← endTransfer dev
        pure (result, buf)

/-- The loop over the words of a write. -/
def writeWords (buf : Sector) : List (Fin 128) → SdM D Int
  | [] => pure 0
  | i :: is => do
    if (← sdhciWaitFor dev .presentState SDHCI_SPACE_AVAILABLE SDHCI_SPACE_AVAILABLE
        SDHCI_DATA_TIMEOUT) < 0 then
      pure (-1)
    else
      writeReg dev .buffer (buf i)
      writeWords buf is

def sdhciWriteBlock (data : BitVec 16) (block : BitVec 32) (buf : Sector) : SdM D Int := do
  let sdcard ← look fun s => s.sdcard
  if !sdcard.initialized then pure (-1)
  else
    writeReg dev .blockSize 512
    writeReg dev .blockCount 1
    writeReg dev .transferMode 0
    match ← sdhciSendCmd dev data .writeBlock block .r1 false with
    | none => pure (-1)
    | some _ =>
      let result ← writeWords dev buf (List.finRange 128)
      if result < 0 then pure (-1)
      else endTransfer dev

end driver

end Xv6.Sdhci
