/-
  When the driver declares the card ready.

  Nothing is assumed of the controller: every read of a register returns the next value of an arbitrary
  stream.  The accesses of `sdhci_init` are recorded, and `Ready` says of such a record that every
  step of the initialisation has succeeded, with the values that the controller has returned.

  A program `Emits R` if its result and the accesses that it adds are related by `R`; the record of
  `sdhci_init` is put together from the records of its calls (`Splits`).  The return value of the last
  `sdhci_set_clock` is the only one that is not looked at, and `sdhci_ready_iff` says for which streams
  it should have been.
-/
import Xv6.Sd.Sdhci
import Mathlib.Tactic.Common

namespace Xv6.Sdhci

open Lib Lib.Prog List

/-! ## A controller that returns anything -/

inductive Ev where
  | read (reg : Reg) (val : BitVec 32)
  | write (reg : Reg) (val : BitVec 32)
  deriving DecidableEq

structure Stream where
  /-- What the reads return, one after the other. -/
  reads : Nat → BitVec 32
  pos : Nat
  trace : List Ev

def streamDev : Device Stream where
  read := fun reg d =>
    (d.reads d.pos,
      { d with pos := d.pos + 1, trace := d.trace ++ [.read reg (d.reads d.pos)] })
  write := fun reg val d => { d with trace := d.trace ++ [.write reg val] }

/-- Before `sdhci_init`. -/
def start (reads : Nat → BitVec 32) (sdcard : SdCard) : Host Stream := ⟨⟨reads, 0, []⟩, sdcard⟩

/-! ## Records of successful steps -/

/-- The record consists of parts with these properties, in this order. -/
inductive Splits : List (List Ev → Prop) → List Ev → Prop
  | nil : Splits [] []
  | cons {P : List Ev → Prop} {Ps : List (List Ev → Prop)} {seg rest : List Ev} (h : P seg)
      (hrest : Splits Ps rest) : Splits (P :: Ps) (seg ++ rest)

/-- The register is read until it has the value. -/
def Polled (reg : Reg) (mask value : BitVec 32) (seg : List Ev) : Prop :=
  ∃ before v, seg = before ++ [.read reg v] ∧ (∀ e ∈ before, ∃ u, e = .read reg u) ∧ v &&& mask = value

def ResetDone (seg : List Ev) : Prop :=
  ∃ polls, seg = .write .softwareReset SDHCI_RESET_ALL :: polls ∧
    Polled .softwareReset SDHCI_RESET_ALL 0 polls

def CardPresent (seg : List Ev) : Prop :=
  ∃ v, seg = [.read .presentState v] ∧ v &&& SDHCI_CARD_PRESENT ≠ 0

def PoweredOn (seg : List Ev) : Prop :=
  seg = [.write .powerControl (SDHCI_POWER_330 ||| SDHCI_POWER_ON), .write .timeoutControl 0x0E,
    .write .intEnable 0xFFFFFFFF, .write .signalEnable 0]

/-- The clock is stable and then given to the card. -/
def ClockOn (clockHz : Nat) (seg : List Ev) : Prop :=
  ∃ polls, seg = .write .clockControl 0 :: .write .clockControl (clockBits clockHz) :: polls ++
      [.write .clockControl (clockBits clockHz ||| SDHCI_CLOCK_CARD_EN)] ∧
    Polled .clockControl SDHCI_CLOCK_INT_STABLE SDHCI_CLOCK_INT_STABLE polls

/-- The command has been sent, its response has arrived, and no error was reported.  `answer` are the
    reads of the response. -/
def Completed (cmd : Cmd) (respType : Rsp) (answer : List Ev → Prop) (seg : List Ev) : Prop :=
  ∃ arg ready wait status reply,
    seg = ready ++ .write .intStatus 0xFFFFFFFF :: .write .argument arg ::
      .write .command ((cmd.number <<< 8 ||| respType.flags).setWidth 32) ::
      (wait ++ .read .intStatus status :: (reply ++ [.write .intStatus status])) ∧
    Polled .presentState (SDHCI_CMD_INHIBIT ||| SDHCI_DATA_INHIBIT) 0 ready ∧
    Polled .intStatus SDHCI_INT_RESPONSE SDHCI_INT_RESPONSE wait ∧
    status &&& SDHCI_INT_ERROR_MASK = 0 ∧ answer reply

/-- ACMD41 has been sent, possibly several times, until the card was ready. -/
def CardReady (seg : List Ev) : Prop :=
  ∃ before last, seg = before ++ last ∧
    Splits [Completed .appCmd .r1 fun _ => True,
      Completed .sdSendOpCond .r3 fun reply =>
        ∃ v, reply = [.read (.response 0) v] ∧ v &&& SD_OCR_BUSY ≠ 0] last

/-- Every step of `sdhci_init` has succeeded. CMD8 may fail. -/
def Ready : List Ev → Prop := Splits
  [ResetDone, CardPresent, PoweredOn, ClockOn 400000,
    Completed .goIdleState .none fun _ => True,
    fun _ => True,
    CardReady,
    Completed .allSendCid .r2 fun _ => True,
    Completed .sendRelativeAddr .r6 fun _ => True,
    Completed .sendCsd .r2 fun _ => True,
    Completed .selectCard .r1 fun _ => True,
    Completed .setBlocklen .r1 fun _ => True,
    ClockOn 25000000]

variable {Ps : List (List Ev → Prop)} {P : List Ev → Prop} {seg : List Ev}

theorem Splits.append {Qs : List (List Ev → Prop)} {a b : List Ev} (ha : Splits Ps a)
    (hb : Splits Qs b) : Splits (Ps ++ Qs) (a ++ b) := by
  induction ha with
  | nil => exact hb
  | cons h _ ih =>
    rw [append_assoc]
    exact .cons h ih

theorem Splits.single {a : List Ev} (h : P a) : Splits [P] a := by
  have hsplit := Splits.cons h .nil
  rwa [append_nil] at hsplit

theorem Splits.last {t : List Ev} (h : Splits Ps t) (hlast : Ps.getLast? = some P) :
    ∃ a b, t = a ++ b ∧ P b := by
  induction h with
  | nil => cases hlast
  | @cons P' Ps seg rest hP hrest ih =>
    cases Ps with
    | nil =>
      cases hlast
      cases hrest
      exact ⟨[], seg, append_nil seg, hP⟩
    | cons P'' Ps =>
      obtain ⟨a, b, rfl, hb⟩ := ih hlast
      exact ⟨seg ++ a, b, (append_assoc seg a b).symm, hb⟩

/-! ## What programs add to the record -/

/-- The program adds accesses that are related to its result, and does not declare the card ready. -/
def Emits {α : Type} (p : SdM Stream α) (R : α → List Ev → Prop) : Prop :=
  ∀ s, wp Crit.total (fun a s' => s'.dev.reads = s.dev.reads ∧
    s'.sdcard.initialized = s.sdcard.initialized ∧
    ∃ seg, s'.dev.trace = s.dev.trace ++ seg ∧ R a seg) p s

namespace Emits

variable {α β : Type} {p : SdM Stream α} {g : α → SdM Stream β} {R R' : α → List Ev → Prop}
  {T : β → List Ev → Prop}

theorem mono (h : Emits p R) (hR : ∀ a seg, R a seg → R' a seg) : Emits p R' := by
  intro s
  refine wp_mono (h s) ?_
  rintro a s' ⟨hreads, hinit, seg, htrace, hseg⟩
  exact ⟨hreads, hinit, seg, htrace, hR a seg hseg⟩

theorem pure {a : α} (h : R a []) : Emits (Pure.pure a) R := fun _ =>
  ⟨rfl, rfl, [], (append_nil _).symm, h⟩

theorem bind (hp : Emits p R) (hg : ∀ a, Emits (g a) fun b rest => ∀ seg, R a seg → T b (seg ++ rest)) :
    Emits (p >>= g) T := by
  intro s
  refine wp_seq (hp s) ?_
  rintro a s' ⟨hreads, hinit, seg, htrace, hseg⟩
  refine wp_mono (hg a s') ?_
  rintro b s'' ⟨hreads', hinit', rest, htrace', hrest⟩
  refine ⟨hreads'.trans hreads, hinit'.trans hinit, seg ++ rest, ?_, hrest seg hseg⟩
  rw [htrace', htrace, append_assoc]

theorem readReg (reg : Reg) : Emits (readReg streamDev reg) fun v seg => seg = [.read reg v] := by
  intro s
  exact ⟨trivial, rfl, rfl, _, rfl, rfl⟩

theorem writeReg (reg : Reg) (val : BitVec 32) :
    Emits (writeReg streamDev reg val) fun _ seg => seg = [.write reg val] := by
  intro s
  exact ⟨trivial, rfl, rfl, _, rfl, rfl⟩

theorem setCard {f : SdCard → SdCard} (hf : ∀ c, (f c).initialized = c.initialized) :
    Emits (setCard f) fun _ seg => seg = [] := by
  intro s
  exact ⟨trivial, rfl, hf s.sdcard, [], (append_nil _).symm, rfl⟩

theorem look {f : Host Stream → α} : Emits (Prog.look f) fun _ seg => seg = [] := by
  intro s
  exact ⟨trivial, rfl, rfl, [], (append_nil _).symm, rfl⟩

theorem assign {g : Unit → SdM Stream β} {f : SdCard → SdCard}
    (hf : ∀ c, (f c).initialized = c.initialized) (hg : Emits (g ()) T) :
    Emits (Sdhci.setCard f >>= g) T := by
  refine (setCard hf).bind fun _ => hg.mono ?_
  rintro b rest hrest seg rfl
  exact hrest

/-- A part that adds nothing. -/
theorem skip (hp : Emits p fun _ seg => seg = []) (hg : ∀ a, Emits (g a) T) : Emits (p >>= g) T := by
  refine hp.bind ?_
  intro a
  refine (hg a).mono ?_
  rintro b rest hrest seg rfl
  exact hrest

/-- A step of an initialisation that goes on if it has succeeded. -/
theorem step {g : α → SdM Stream Bool} (hp : Emits p R)
    (hg : ∀ a, Emits (g a) (fun ok _ => ok = false) ∨
      (∀ seg, R a seg → P seg) ∧ Emits (g a) fun ok seg => ok = true → Splits Ps seg) :
    Emits (p >>= g) fun ok seg => ok = true → Splits (P :: Ps) seg := by
  refine hp.bind ?_
  intro a
  rcases hg a with hfail | ⟨hP, hrest⟩
  · refine hfail.mono ?_
    rintro ok rest rfl seg _ hok
    cases hok
  · refine hrest.mono ?_
    intro ok rest hsplit seg hseg hok
    exact .cons (hP seg hseg) (hsplit hok)

theorem stop : Emits (Pure.pure false : SdM Stream Bool) fun ok _ => ok = false := .pure rfl

end Emits

/-! ## The steps -/

theorem pollReg_emits (reg : Reg) (mask value : BitVec 32) (count : Nat) :
    Emits (pollReg streamDev reg mask value count)
      fun a seg => a < 0 ∨ ¬ a < 0 ∧ Polled reg mask value seg := by
  induction count with
  | zero => exact .pure (Or.inl (by decide))
  | succ count ih =>
    refine (Emits.readReg reg).bind ?_
    intro v
    split
    · rename_i hv
      refine .pure ?_
      rintro seg rfl
      exact Or.inr ⟨by decide, [], v, rfl, nofun, hv⟩
    · refine ih.mono ?_
      rintro a rest hrest seg rfl
      rcases hrest with hneg | ⟨hneg, before, u, rfl, hbefore, hu⟩
      · exact Or.inl hneg
      · refine Or.inr ⟨hneg, .read reg v :: before, u, rfl, ?_, hu⟩
        intro e he
        rcases mem_cons.mp he with rfl | he
        · exact ⟨v, rfl⟩
        · exact hbefore e he

theorem sdhciWaitFor_emits (reg : Reg) (mask value : BitVec 32) (timeoutMs : Nat) :
    Emits (sdhciWaitFor streamDev reg mask value timeoutMs)
      fun a seg => a < 0 ∨ ¬ a < 0 ∧ Polled reg mask value seg :=
  pollReg_emits reg mask value _

/-- The response that is returned is the one that was read. -/
def Replied (respType : Rsp) (want : Bool) (response : Nat → BitVec 32) (reply : List Ev) : Prop :=
  want = true → respType ≠ .none → respType ≠ .r2 → reply = [.read (.response 0) (response 0)]

theorem readResponse_emits (respType : Rsp) (want : Bool) :
    Emits (readResponse streamDev respType want) (Replied respType want) := by
  unfold readResponse
  split
  · split
    · rename_i hr2
      refine (Emits.readReg _).bind fun _ => (Emits.readReg _).bind fun _ =>
        (Emits.readReg _).bind fun _ => (Emits.readReg _).bind fun _ => .pure ?_
      intro _ _ _ _ _ _ _ _ _ _ hne
      exact absurd hr2 hne
    · refine (Emits.readReg _).bind fun r0 => .pure ?_
      rintro seg rfl _ _ _
      rfl
  · rename_i hno
    refine .pure ?_
    intro hwant hne
    exact absurd ⟨hwant, hne⟩ hno

theorem sdhciSendCmd_emits (cmd : Cmd) (arg : BitVec 32) (respType : Rsp) (want : Bool) :
    Emits (sdhciSendCmd streamDev 0 cmd arg respType want) fun r seg =>
      ∀ response, r = some response → Completed cmd respType (Replied respType want response) seg := by
  refine (sdhciWaitFor_emits _ _ _ _).bind ?_
  intro a
  split
  · exact .pure nofun
  rename_i ha
  refine (Emits.writeReg _ _).bind fun _ => (Emits.writeReg _ _).bind fun _ =>
    (Emits.writeReg _ _).bind fun _ => (sdhciWaitFor_emits _ _ _ _).bind ?_
  intro b
  split
  · exact .pure nofun
  rename_i hb
  refine (Emits.readReg _).bind ?_
  intro status
  split
  · exact .pure nofun
  rename_i hstatus
  refine (readResponse_emits _ want).bind fun response => (Emits.writeReg _ _).bind fun _ => .pure ?_
  rintro _ rfl reply hreply _ rfl wait hwait _ rfl _ rfl _ rfl ready hready _ ⟨⟩
  rcases hready with hready | ⟨_, hready⟩
  · exact absurd hready ha
  rcases hwait with hwait | ⟨_, hwait⟩
  · exact absurd hwait hb
  refine ⟨arg, ready, wait, status, reply, ?_, hready, hwait, of_not_not hstatus, hreply⟩
  have hword : cmd.number <<< 8 ||| respType.flags ||| (0 : BitVec 16) = cmd.number <<< 8 ||| respType.flags :=
    BitVec.or_zero
  rw [hword]
  rfl

theorem Completed.weaken {cmd : Cmd} {respType : Rsp} {answer answer' : List Ev → Prop}
    (h : Completed cmd respType answer seg) (hle : ∀ reply, answer reply → answer' reply) :
    Completed cmd respType answer' seg := by
  obtain ⟨arg, ready, wait, status, reply, hseg, hready, hwait, hstatus, hreply⟩ := h
  exact ⟨arg, ready, wait, status, reply, hseg, hready, hwait, hstatus, hle reply hreply⟩

/-- A command, and what follows if it has completed. -/
theorem sdhciSendCmd_step {cmd : Cmd} {arg : BitVec 32} {respType : Rsp} {want : Bool}
    {k : (Nat → BitVec 32) → SdM Stream Bool}
    (hk : ∀ response, Emits (k response) fun ok seg => ok = true → Splits Ps seg) :
    Emits (do
      match ← sdhciSendCmd streamDev 0 cmd arg respType want with
      | none => Pure.pure false
      | some response => k response)
      fun ok seg => ok = true → Splits (Completed cmd respType (fun _ => True) :: Ps) seg := by
  refine (sdhciSendCmd_emits cmd arg respType want).step ?_
  intro r
  cases r with
  | none => exact Or.inl .stop
  | some response =>
    refine Or.inr ⟨?_, hk response⟩
    intro seg hseg
    exact (hseg response rfl).weaken fun _ _ => trivial

theorem awaitReset_emits (mask : BitVec 32) (timeout : Nat) :
    Emits (awaitReset streamDev mask timeout)
      fun left seg => left ≠ 0 → Polled .softwareReset mask 0 seg := by
  induction timeout with
  | zero =>
    refine (Emits.readReg _).bind fun _ => .pure ?_
    intro _ _ hne
    exact absurd rfl hne
  | succ timeout ih =>
    refine (Emits.readReg _).bind ?_
    intro v
    split
    · refine ih.mono ?_
      rintro left rest hrest seg rfl hne
      obtain ⟨before, u, rfl, hbefore, hu⟩ := hrest hne
      refine ⟨.read .softwareReset v :: before, u, rfl, ?_, hu⟩
      intro e he
      rcases mem_cons.mp he with rfl | he
      · exact ⟨v, rfl⟩
      · exact hbefore e he
    · rename_i hv
      refine .pure ?_
      rintro seg rfl _
      exact ⟨[], v, rfl, nofun, of_not_not hv⟩

theorem sdhciReset_emits : Emits (sdhciReset streamDev SDHCI_RESET_ALL)
    fun a seg => a < 0 ∨ ¬ a < 0 ∧ ResetDone seg := by
  refine (Emits.writeReg _ _).bind fun _ => (awaitReset_emits _ _).bind ?_
  intro left
  split
  · refine .pure ?_
    intro _ _ _ _
    exact Or.inl (by decide)
  · rename_i hne
    refine .pure ?_
    rintro polls hpolls _ rfl
    rw [append_nil]
    exact Or.inr ⟨by decide, polls, rfl, hpolls hne⟩

theorem sdhciSetClock_emits (clockHz : Nat) : Emits (sdhciSetClock streamDev clockHz)
    fun a seg => a < 0 ∨ ¬ a < 0 ∧ ClockOn clockHz seg := by
  refine (Emits.writeReg _ _).bind fun _ => (Emits.writeReg _ _).bind fun _ =>
    (sdhciWaitFor_emits _ _ _ _).bind ?_
  intro a
  split
  · refine .pure ?_
    intro _ _ _ _ _ _
    exact Or.inl (by decide)
  · rename_i ha
    refine (Emits.writeReg _ _).bind fun _ => .pure ?_
    rintro _ rfl polls hpolls _ rfl _ rfl
    rcases hpolls with hneg | ⟨_, hpolls⟩
    · exact absurd hneg ha
    · exact Or.inr ⟨by decide, polls, rfl, hpolls⟩

theorem sdhciSendAcmd_emits (acmd : Cmd) (arg : BitVec 32) (respType : Rsp) (want : Bool) :
    Emits (sdhciSendAcmd streamDev acmd arg respType want) fun r seg =>
      ∀ response, r = some response → Splits [Completed .appCmd .r1 fun _ => True,
        Completed acmd respType (Replied respType want response)] seg := by
  refine Emits.look.skip fun _ => (sdhciSendCmd_emits _ _ _ _).bind ?_
  intro r
  cases r with
  | none => exact .pure nofun
  | some r =>
    refine (sdhciSendCmd_emits acmd arg respType want).mono ?_
    intro r' rest hrest seg hseg response hr'
    exact .cons ((hseg r rfl).weaken fun _ _ => trivial) (.single (hrest response hr'))

/-- A busy round comes before the others. -/
theorem CardReady.cons {rest : List Ev} (h : CardReady rest) : CardReady (seg ++ rest) := by
  obtain ⟨before, last, rfl, hlast⟩ := h
  exact ⟨seg ++ before, last, (append_assoc seg before last).symm, hlast⟩

theorem CardReady.of_busy {response : Nat → BitVec 32}
    (h : Splits [Completed .appCmd .r1 fun _ => True,
      Completed .sdSendOpCond .r3 (Replied .r3 true response)] seg)
    (hbusy : response 0 &&& SD_OCR_BUSY ≠ 0) : CardReady seg := by
  refine ⟨[], seg, rfl, ?_⟩
  rcases h with _ | ⟨happ, hop⟩
  rcases hop with _ | ⟨hop, hnil⟩
  refine .cons happ (.cons (hop.weaken ?_) hnil)
  intro reply hreply
  exact ⟨response 0, hreply rfl nofun nofun, hbusy⟩

theorem awaitReady_emits (retries : Nat) :
    Emits (awaitReady streamDev retries) fun ok seg => ok = true → CardReady seg := by
  induction retries with
  | zero => exact .pure nofun
  | succ retries ih =>
    refine (sdhciSendAcmd_emits _ _ _ _).bind ?_
    intro r
    cases r with
    | none => exact .pure nofun
    | some response =>
      dsimp only
      split
      · rename_i hbusy
        refine Emits.assign (fun _ => rfl) (.pure ?_)
        intro seg hseg _
        rw [append_nil]
        exact .of_busy (hseg response rfl) hbusy
      · refine ih.mono ?_
        intro ok rest hrest seg _ hok
        exact (hrest hok).cons

theorem checkVoltage_emits : Emits (checkVoltage streamDev) fun _ _ => True := by
  refine (sdhciSendCmd_emits _ _ _ _).bind ?_
  intro r
  cases r with
  | none | some => exact .pure fun _ _ => trivial

/-- The parts of the record that `identify` adds. -/
def identifySteps : List (List Ev → Prop) :=
  [Completed .goIdleState .none fun _ => True,
    fun _ => True,
    CardReady,
    Completed .allSendCid .r2 fun _ => True,
    Completed .sendRelativeAddr .r6 fun _ => True,
    Completed .sendCsd .r2 fun _ => True,
    Completed .selectCard .r1 fun _ => True,
    Completed .setBlocklen .r1 fun _ => True]

theorem identify_emits :
    Emits (identify streamDev) fun ok seg => ok = true → Splits identifySteps seg := by
  refine sdhciSendCmd_step fun _ => checkVoltage_emits.step ?_
  intro ok
  cases ok with
  | false => exact Or.inl .stop
  | true =>
  refine Or.inr ⟨fun _ _ => trivial, (awaitReady_emits 100).step ?_⟩
  intro ok
  cases ok with
  | false => exact Or.inl .stop
  | true =>
  refine Or.inr ⟨fun seg hseg => hseg rfl, ?_⟩
  refine sdhciSendCmd_step fun _ => sdhciSendCmd_step fun _ => ?_
  refine Emits.assign (fun _ => rfl) (Emits.look.skip fun _ => ?_)
  refine sdhciSendCmd_step fun _ => Emits.assign (fun _ => rfl) ?_
  refine sdhciSendCmd_step fun _ => sdhciSendCmd_step fun _ => ?_
  exact .pure fun _ => .nil

/-- The parts of the record that `powerUp` adds. -/
def powerUpSteps : List (List Ev → Prop) := [ResetDone, CardPresent, PoweredOn, ClockOn 400000]

theorem powerUp_emits :
    Emits (powerUp streamDev) fun ok seg => ok = true → Splits powerUpSteps seg := by
  refine sdhciReset_emits.step ?_
  intro a
  split
  · exact Or.inl .stop
  rename_i ha
  refine Or.inr ⟨fun seg hseg => (hseg.resolve_left ha).2, (Emits.readReg _).step ?_⟩
  intro v
  split
  · exact Or.inl .stop
  rename_i hv
  refine Or.inr ⟨fun seg hseg => ⟨v, hseg, hv⟩, Emits.assign (fun _ => rfl) ?_⟩
  refine (Emits.writeReg _ _).bind fun _ => (Emits.writeReg _ _).bind fun _ =>
    (Emits.writeReg _ _).bind fun _ => (Emits.writeReg _ _).bind fun _ =>
    (sdhciSetClock_emits _).bind ?_
  intro a
  split
  · exact .pure nofun
  rename_i ha
  refine .pure ?_
  rintro clock hclock _ rfl _ rfl _ rfl _ rfl _
  have hsplit : Splits [PoweredOn, ClockOn 400000]
      ([.write .powerControl (SDHCI_POWER_330 ||| SDHCI_POWER_ON), .write .timeoutControl 0x0E,
        .write .intEnable 0xFFFFFFFF, .write .signalEnable 0] ++ (clock ++ [])) :=
    .cons rfl (.cons (hclock.resolve_left ha).2 .nil)
  exact hsplit

/-! ## The last clock -/

/-- `sdhci_init` up to CMD16. -/
def upToBlocklen : SdM Stream Bool := do
  setCard fun c => { c with present := false, initialized := false, rca := 0 }
  if ← powerUp streamDev then identify streamDev else pure false

/-- How many reads the initialisation takes up to CMD16, if it comes that far. -/
def identified (reads : Nat → BitVec 32) (sdcard : SdCard) : Option Nat :=
  match upToBlocklen.run (start reads sdcard) with
  | .done true s => some s.dev.pos
  | _ => none

theorem upToBlocklen_wp (s : Host Stream) : wp Crit.total (fun ok s' => s'.dev.reads = s.dev.reads ∧
    s'.sdcard.initialized = false ∧
    ∃ seg, s'.dev.trace = s.dev.trace ++ seg ∧
      (ok = true → Splits (powerUpSteps ++ identifySteps) seg)) upToBlocklen s := by
  have hrest : Emits (do if ← powerUp streamDev then identify streamDev else pure false)
      fun ok seg => ok = true → Splits (powerUpSteps ++ identifySteps) seg := by
    refine powerUp_emits.bind ?_
    intro ok
    cases ok with
    | false => exact .pure nofun
    | true =>
      refine identify_emits.mono ?_
      intro ok rest hrest seg hseg hok
      exact (hseg rfl).append (hrest hok)
  unfold upToBlocklen
  refine ⟨trivial, ?_⟩
  exact hrest _

/-- The clock is seen to be stable in one of the 100 reads from `pos` on. -/
def StableFrom (reads : Nat → BitVec 32) (pos : Nat) : Prop :=
  ∃ i < 100, reads (pos + i) &&& SDHCI_CLOCK_INT_STABLE = SDHCI_CLOCK_INT_STABLE

/-- What polling finds in the stream. -/
theorem pollReg_wp (reg : Reg) (mask value : BitVec 32) (count : Nat) (s : Host Stream) :
    wp Crit.total (fun a s' => s'.sdcard = s.sdcard ∧
      (¬ a < 0 ↔ ∃ i < count, s.dev.reads (s.dev.pos + i) &&& mask = value) ∧
      ∃ seg, s'.dev.trace = s.dev.trace ++ seg ∧ (¬ a < 0 → Polled reg mask value seg) ∧
        (∀ e ∈ seg, ∃ v, e = .read reg v) ∧ (0 < count → seg ≠ []))
      (pollReg streamDev reg mask value count) s := by
  induction count generalizing s with
  | zero =>
    refine ⟨rfl, ?_, [], (append_nil _).symm, ?_, nofun, nofun⟩
    · constructor
      · intro h
        exact absurd (by decide) h
      · rintro ⟨i, hi, _⟩
        cases hi
    · intro h
      exact absurd (by decide) h
  | succ count ih =>
    unfold pollReg
    rw [wp_bind]
    refine ⟨trivial, ?_⟩
    rw [wp_ret]
    split
    · rename_i hv
      refine ⟨rfl, ?_, [.read reg (s.dev.reads s.dev.pos)], rfl, ?_, ?_, nofun⟩
      · exact ⟨fun _ => ⟨0, Nat.succ_pos count, hv⟩, fun _ => by decide⟩
      · exact fun _ => ⟨[], _, rfl, nofun, hv⟩
      · intro e he
        exact ⟨_, mem_singleton.mp he⟩
    · rename_i hv
      refine wp_mono (ih _) ?_
      rintro a s' ⟨hcard, hhit, seg, htrace, hpolled, hreads, _⟩
      have hall : ∀ e ∈ Ev.read reg (s.dev.reads s.dev.pos) :: seg, ∃ v, e = .read reg v := by
        intro e he
        rcases mem_cons.mp he with rfl | he
        · exact ⟨_, rfl⟩
        · exact hreads e he
      refine ⟨hcard, hhit.trans ?_, .read reg (s.dev.reads s.dev.pos) :: seg, ?_, ?_, hall, nofun⟩
      · constructor
        · rintro ⟨i, hi, hval⟩
          refine ⟨i + 1, Nat.succ_lt_succ hi, ?_⟩
          rw [← hval, Nat.add_assoc, Nat.add_comm 1 i]
        · rintro ⟨i, hi, hval⟩
          cases i with
          | zero => exact absurd hval hv
          | succ i =>
            refine ⟨i, Nat.lt_of_succ_lt_succ hi, ?_⟩
            rw [← hval, Nat.add_assoc, Nat.add_comm 1 i]
      · rw [htrace]
        exact append_assoc _ [_] seg
      · intro ha
        obtain ⟨before, u, rfl, _, hu⟩ := hpolled ha
        refine ⟨_ :: before, u, rfl, ?_, hu⟩
        intro e he
        exact hall e (mem_append_left [_] he)

/-- What is left of `sdhci_init` after CMD16. -/
def finish : SdM Stream Unit := do
  let _ ← sdhciSetClock streamDev 25000000
  setCard fun c => { c with initialized := true }

theorem finish_wp (s : Host Stream) : wp Crit.total (fun _ s' => s'.sdcard.initialized = true ∧
    ((StableFrom s.dev.reads s.dev.pos ∧
        ∃ seg, s'.dev.trace = s.dev.trace ++ seg ∧ ClockOn 25000000 seg) ∨
      ¬ StableFrom s.dev.reads s.dev.pos ∧
        ∃ before v, s'.dev.trace = before ++ [.read .clockControl v])) finish s := by
  unfold finish sdhciSetClock
  rw [wp_bind, wp_bind]
  refine ⟨trivial, ?_⟩
  rw [wp_ret, wp_bind]
  refine ⟨trivial, ?_⟩
  rw [wp_ret, wp_bind]
  refine wp_mono (pollReg_wp .clockControl _ _ _ _) ?_
  rintro a s₁ ⟨_, hhit, seg, htrace, hpolled, hreads, hne⟩
  split
  · rename_i ha
    refine ⟨trivial, rfl, Or.inr ⟨?_, ?_⟩⟩
    · intro hstable
      exact absurd ha (hhit.mpr hstable)
    · -- the record ends with the last poll
      obtain ⟨before, e, rfl⟩ := (eq_nil_or_concat' seg).resolve_left (hne (by decide))
      obtain ⟨v, rfl⟩ := hreads e (mem_append_right before (mem_singleton_self e))
      refine ⟨s.dev.trace ++ [.write .clockControl 0, .write .clockControl (clockBits 25000000)] ++
        before, v, ?_⟩
      rw [htrace]
      simp only [streamDev, append_assoc, cons_append, nil_append]
  · rename_i ha
    refine ⟨trivial, trivial, rfl, Or.inl ⟨hhit.mp ha, ?_⟩⟩
    refine ⟨.write .clockControl 0 :: .write .clockControl (clockBits 25000000) :: seg ++
      [.write .clockControl (clockBits 25000000 ||| SDHCI_CLOCK_CARD_EN)], ?_, seg, rfl, hpolled ha⟩
    show s₁.dev.trace ++ _ = _
    rw [htrace]
    simp only [streamDev, append_assoc, cons_append, nil_append]

/-- A record that ends with a read is not one of success. -/
theorem not_ready_of_read {before : List Ev} {reg : Reg} {v : BitVec 32} :
    ¬ Ready (before ++ [.read reg v]) := by
  intro h
  obtain ⟨a, b, heq, polls, rfl, _⟩ := Splits.last h rfl
  rw [← append_assoc] at heq
  have hlast := (append_inj' heq rfl).2
  cases hlast

/-! ## Result -/

/-- The card is declared ready only when it is, and otherwise left alone. -/
def DeclaredRight (s : Host Stream) : Prop :=
  (s.sdcard.initialized = true → Ready s.dev.trace) ∧
  (s.sdcard.initialized = false → ∀ block buf,
    (sdhciReadBlock streamDev 0 block buf).run s = .done (-1, buf) s ∧
    (sdhciWriteBlock streamDev 0 block buf).run s = .done (-1) s)

theorem sdhciInit_wp {Q : Unit → Host Stream → Prop} {s : Host Stream}
    (h : wp Crit.total (fun ok s' => if ok = true then wp Crit.total Q finish s' else Q () s')
      upToBlocklen s) : wp Crit.total Q (sdhciInit streamDev) s := by
  unfold upToBlocklen at h
  unfold sdhciInit
  rw [wp_bind] at h ⊢
  refine ⟨trivial, ?_⟩
  have hrest := h.2
  rw [wp_ret, wp_bind] at hrest ⊢
  refine wp_mono hrest ?_
  intro ok s' hok
  cases ok with
  | false => exact hok
  | true =>
    rw [if_pos rfl] at hok ⊢
    unfold sdhciCardInit
    rw [wp_bind, wp_bind]
    refine wp_mono hok ?_
    intro ok s₂ hok
    cases ok with
    | false => exact hok
    | true =>
      rw [if_pos rfl] at hok ⊢
      unfold finish at hok
      rw [wp_bind] at hok ⊢
      refine wp_mono hok ?_
      intro _ s₃ hset
      exact hset

/-- A card that is not declared ready is left alone. -/
theorem transfer_refused {s : Host Stream} (hinit : s.sdcard.initialized = false) (block : BitVec 32)
    (buf : Sector) : (sdhciReadBlock streamDev 0 block buf).run s = .done (-1, buf) s ∧
      (sdhciWriteBlock streamDev 0 block buf).run s = .done (-1) s := by
  constructor
  · unfold sdhciReadBlock
    show Prog.run (if (!s.sdcard.initialized) = true then _ else _) s = _
    rw [hinit]
    rfl
  · unfold sdhciWriteBlock
    show Prog.run (if (!s.sdcard.initialized) = true then _ else _) s = _
    rw [hinit]
    rfl

/-- For every stream of register values: the card is declared ready only when it is exactly if the
initialisation does not come as far as CMD16, or the clock is seen to be stable within the 100 polls
that follow. -/
theorem sdhci_ready_iff (reads : Nat → BitVec 32) (sdcard : SdCard) :
    ∃ s, (sdhciInit streamDev).run (start reads sdcard) = .done () s ∧
      (DeclaredRight s ↔ ∀ k, identified reads sdcard = some k → StableFrom reads k) := by
  obtain ⟨ok, s₁, hrun, hreads, hinit, seg, htrace, hsteps⟩ :=
    wp_run_total (upToBlocklen_wp (start reads sdcard))
  have hwp : wp Crit.total (fun _ s => DeclaredRight s ↔
      ∀ k, identified reads sdcard = some k → StableFrom reads k) (sdhciInit streamDev)
      (start reads sdcard) := by
    refine sdhciInit_wp (wp_of_run hrun ?_)
    cases ok with
    | false =>
      have hnone : identified reads sdcard = none := by
        unfold identified
        rw [hrun]
      rw [hnone]
      refine ⟨fun _ => nofun, fun _ => ⟨?_, fun _ block buf => ?_⟩⟩
      · intro htrue
        rw [hinit] at htrue
        cases htrue
      · exact transfer_refused hinit block buf
    | true =>
      have hsome : identified reads sdcard = some s₁.dev.pos := by
        unfold identified
        rw [hrun]
      rw [hsome]
      refine wp_mono (finish_wp s₁) ?_
      rintro _ s ⟨hset, hcase⟩
      rw [hreads] at hcase
      rcases hcase with ⟨hstable, clock, hclock, hon⟩ | ⟨hunstable, before, v, hread⟩
      · have hready : Ready s.dev.trace := by
          rw [hclock, htrace]
          exact (hsteps rfl).append (.single hon)
        refine ⟨fun _ k hk => ?_, fun _ => ⟨fun _ => hready, fun hfalse => ?_⟩⟩
        · cases hk
          exact hstable
        · rw [hset] at hfalse
          cases hfalse
      · refine ⟨fun hright => ?_, fun hall => absurd (hall _ rfl) hunstable⟩
        have hready := hright.1 hset
        rw [hread] at hready
        exact absurd hready not_ready_of_read
  obtain ⟨a, s, hs, hiff⟩ := wp_run_total hwp
  exact ⟨s, hs, hiff⟩

/-- The values read when every step succeeds up to CMD16. -/
def goodReads : List (BitVec 32) :=
  -- reset, card present, clock
  [0, 0x10000, 2,
  -- CMD0, CMD8
    0, 1, 1, 0, 1, 1, 0x1AA,
  -- CMD55, ACMD41
    0, 1, 1, 0, 1, 1, 0xC0000000,
  -- CMD2, CMD3, CMD9
    0, 1, 1, 0, 0, 0, 0, 0, 1, 1, 0x10000, 0, 1, 1, 0, 0, 0, 0,
  -- CMD7, CMD16
    0, 1, 1, 0, 1, 1]

/-- The clock never gets stable after CMD16; the card is declared ready with its clock off. -/
theorem sdhci_init_ignores_clock :
    ∃ s, (sdhciInit streamDev).run (start (fun k => goodReads.getD k 0) ⟨false, false, 0, 0, false⟩) =
        .done () s ∧ s.sdcard.initialized = true ∧
      s.dev.trace.getLast? = some (.read .clockControl 0) ∧ ¬ DeclaredRight s := by
  have hrun : ((sdhciInit streamDev).result
      (start (fun k => goodReads.getD k 0) ⟨false, false, 0, 0, false⟩)).any (fun r =>
        r.2.sdcard.initialized = true ∧
          r.2.dev.trace.getLast? = some (.read .clockControl 0)) = true := by
    decide +kernel
  obtain ⟨⟨_, s⟩, hs, hr⟩ := (Option.any_eq_true _ _).mp hrun
  obtain ⟨hinit, hlast⟩ := of_decide_eq_true hr
  refine ⟨s, Prog.run_of_result hs, hinit, hlast, ?_⟩
  intro hright
  obtain ⟨before, hbefore⟩ := getLast?_eq_some_iff.mp hlast
  have hready := hright.1 hinit
  rw [hbefore] at hready
  exact not_ready_of_read hready

end Xv6.Sdhci
