/-
  Two fields that the driver puts together from bits.

  The clock.  The divider is a byte, and 0 in it stands for the base clock itself.  The driver limits
  the divider to 256 and writes that as 0: `clock_at_most_iff` says for which frequencies this happens.

  The capacity.  The response registers hold the CSD from its bit 8 on, so that C_SIZE lies in the second
  of them.  The driver takes bits of the second and of the third, and multiplies in 32 bits:
  `capacity_iff` says for which registers the result is right all the same.
-/
import Xv6.Sd.Init

namespace Xv6.Sdhci

open Lib.Prog

/-! ## The clock -/

/-- By what a value of the clock register divides the base clock. -/
def divisor (v : BitVec 32) : Nat :=
  if (v >>> 8 &&& 0xFF).toNat = 0 then 1 else 2 * (v >>> 8 &&& 0xFF).toNat

/-- The base clock of 50 MHz, divided, is at most `clockHz`. -/
def AtMost (v : BitVec 32) (clockHz : Nat) : Prop := 50000000 ≤ clockHz * divisor v

/-- The divider that the driver computes. -/
def clockDiv (clockHz : Nat) : Nat :=
  let div := if clockHz ≥ 50000000 then 1 else 50000000 / clockHz
  if div > 256 then 256 else div

/-- The fields of the value that is left in the register. -/
theorem clockBits_fields (clockHz : Nat) :
    (clockBits clockHz ||| SDHCI_CLOCK_CARD_EN) &&& ~~~0xFF00 =
        SDHCI_CLOCK_CARD_EN ||| SDHCI_CLOCK_INT_EN ∧
      ((clockBits clockHz ||| SDHCI_CLOCK_CARD_EN) >>> 8 &&& 0xFF).toNat = clockDiv clockHz % 256 := by
  have hall : ∀ d : Fin 257,
      ((BitVec.ofNat 32 d &&& 0xFF) <<< 8 ||| SDHCI_CLOCK_INT_EN ||| SDHCI_CLOCK_CARD_EN) &&&
          ~~~0xFF00 = SDHCI_CLOCK_CARD_EN ||| SDHCI_CLOCK_INT_EN ∧
        (((BitVec.ofNat 32 d &&& 0xFF) <<< 8 ||| SDHCI_CLOCK_INT_EN ||| SDHCI_CLOCK_CARD_EN) >>> 8 &&&
          0xFF).toNat = d % 256 := by
    decide +kernel
  have hlt : clockDiv clockHz < 257 := by
    unfold clockDiv
    dsimp only
    split
    · decide
    · split <;> omega
  exact hall ⟨clockDiv clockHz, hlt⟩

/-- Twice the quotient is enough, as it is not 0. -/
theorem clockDiv_fast {clockHz : Nat} (h : 195313 ≤ clockHz) : clockDiv clockHz ≠ 0 ∧
    clockDiv clockHz < 256 ∧ 50000000 ≤ clockHz * (2 * clockDiv clockHz) := by
  unfold clockDiv
  split
  · rw [if_neg (by decide)]
    omega
  · have hpos : 0 < clockHz := by omega
    have hlt : 50000000 / clockHz < 256 := (Nat.div_lt_iff_lt_mul hpos).mpr (by omega)
    have hge : 0 < 50000000 / clockHz := Nat.div_pos (by omega) hpos
    rw [if_neg (by omega)]
    refine ⟨hge.ne', hlt, ?_⟩
    calc 50000000 ≤ 50000000 / clockHz * clockHz + clockHz := (Nat.lt_div_mul_add hpos).le
      _ ≤ 50000000 / clockHz * clockHz + 50000000 / clockHz * clockHz :=
        Nat.add_le_add_left (Nat.le_mul_of_pos_left clockHz hge) _
      _ = clockHz * (2 * (50000000 / clockHz)) := by
        rw [← Nat.two_mul, Nat.mul_comm clockHz, Nat.mul_assoc]

theorem clockDiv_slow {clockHz : Nat} (hpos : 0 < clockHz) (h : clockHz < 195313) :
    clockDiv clockHz = 256 := by
  have hge : 256 ≤ 50000000 / clockHz := (Nat.le_div_iff_mul_le hpos).mpr (by omega)
  unfold clockDiv
  dsimp only
  rw [if_neg (show ¬ clockHz ≥ 50000000 by omega)]
  split <;> omega

/-- A divider of 256 is lost. -/
theorem atMost_iff {clockHz : Nat} (hpos : 0 < clockHz) :
    AtMost (clockBits clockHz ||| SDHCI_CLOCK_CARD_EN) clockHz ↔ 195313 ≤ clockHz := by
  unfold AtMost divisor
  rw [(clockBits_fields clockHz).2]
  by_cases hfast : 195313 ≤ clockHz
  · obtain ⟨hne, hlt, henough⟩ := clockDiv_fast hfast
    rw [Nat.mod_eq_of_lt hlt, if_neg hne]
    exact iff_of_true henough hfast
  · rw [clockDiv_slow hpos (not_le.mp hfast), if_pos (by decide)]
    omega

/-- A call that returns 0 leaves a value in the register with both enable bits and no other bit
    outside of the divider field; and the clock is as slow as asked for exactly from 195313 Hz on. -/
theorem clock_at_most_iff (clockHz : Nat) (hpos : 0 < clockHz) (s t : Host Stream)
    (hrun : (sdhciSetClock streamDev clockHz).run s = .done 0 t) :
    ∃ v, t.dev.trace.getLast? = some (.write .clockControl v) ∧
      v &&& ~~~0xFF00 = SDHCI_CLOCK_CARD_EN ||| SDHCI_CLOCK_INT_EN ∧
      (AtMost v clockHz ↔ 195313 ≤ clockHz) := by
  obtain ⟨_, _, seg, htrace, hseg⟩ := wp_run_done (sdhciSetClock_emits clockHz s) hrun
  obtain ⟨polls, rfl, _⟩ := (hseg.resolve_left (by decide)).2
  refine ⟨_, ?_, (clockBits_fields clockHz).1, atMost_iff hpos⟩
  rw [htrace, ← List.append_assoc, List.getLast?_concat]

/-- The frequency of the initialisation. -/
theorem clock_at_most_400000 : ∃ s t : Host Stream,
    (sdhciSetClock streamDev 400000).run s = .done 0 t ∧
      ∃ v, t.dev.trace.getLast? = some (.write .clockControl v) ∧
        v &&& ~~~0xFF00 = SDHCI_CLOCK_CARD_EN ||| SDHCI_CLOCK_INT_EN ∧
        (AtMost v 400000 ↔ 195313 ≤ 400000) := by
  obtain ⟨t, hrun⟩ : ∃ t, (sdhciSetClock streamDev 400000).run
      (start (fun _ => SDHCI_CLOCK_INT_STABLE) ⟨true, false, 0, 0, false⟩) = .done 0 t := ⟨_, rfl⟩
  exact ⟨_, t, hrun, clock_at_most_iff 400000 (by decide) _ t hrun⟩

/-- For 100 kHz the card is given 50 MHz. -/
theorem clock_100000_undivided : ∃ s t : Host Stream,
    (sdhciSetClock streamDev 100000).run s = .done 0 t ∧
      t.dev.trace.getLast? = some (.write .clockControl 5) ∧ divisor 5 = 1 ∧ ¬ AtMost 5 100000 :=
  ⟨start (fun _ => SDHCI_CLOCK_INT_STABLE) ⟨true, false, 0, 0, false⟩, _, rfl, by decide +kernel,
    by decide, by unfold AtMost; decide⟩

/-! ## The capacity -/

/-- The response registers after CMD9. -/
def csdWord (csd : BitVec 128) (i : Nat) : BitVec 32 := csd.extractLsb' (8 + 32 * i) 32

/-- The field C_SIZE. -/
def cSize (csd : BitVec 128) : BitVec 22 := csd.extractLsb' 48 22

/-- What the driver takes for it. -/
def readSize (csd : BitVec 128) : BitVec 22 := csd.extractLsb' 40 6 ++ csd.extractLsb' 88 16

/-- Version 2. -/
def Version2 (csd : BitVec 128) : Prop := csd.extractLsb' 126 2 = 1

/-- The controller gives the card's CSD as the response to CMD9. `J` holds of it from then on, while its
    registers are only read. -/
structure AnswersCsd {D : Type} (dev : Device D) (csd : BitVec 128) (J : D → Prop) : Prop where
  sent : ∀ d, J (dev.write .command ((Cmd.sendCsd.number <<< 8 ||| Rsp.r2.flags).setWidth 32) d)
  read : ∀ reg d, J d → J (dev.read reg d).2
  response : ∀ i d, i < 4 → J d → (dev.read (.response i) d).1 = csdWord csd i

theorem size_bits (csd : BitVec 128) :
    (csdWord csd 1 &&& 0x3F) <<< 16 ||| csdWord csd 2 >>> 16 = (readSize csd).setWidth 32 := by
  unfold csdWord readSize
  refine BitVec.eq_of_getLsbD_eq ?_
  intro i hi
  simp only [BitVec.getLsbD_or, BitVec.getLsbD_shiftLeft, BitVec.getLsbD_and, BitVec.getLsbD_setWidth, BitVec.getLsbD_append]
  by_cases hlow : i < 16
  · have hi' : 16 + i < 32 := by omega
    simp [hi, hlow, hi', ← Nat.add_assoc]
  · have hmask : ∀ k : Fin 32, BitVec.getLsbD (63 : BitVec 32) k = decide (k.val < 6) := by decide
    have hi' : ¬ 16 + i < 32 := by omega
    have hk : i - 16 < 32 := by omega
    rw [show BitVec.getLsbD (63 : BitVec 32) (i - 16) = decide (i - 16 < 6) from hmask ⟨i - 16, hk⟩]
    simp [hlow, hi', hk, Bool.and_comm]

theorem capacityOf_toNat (csd : BitVec 128) {c : SdCard} (hc : c.high_capacity = true) :
    (capacityOf c (csdWord csd)).toNat = ((cSize csd).toNat + 1) * 1024 ↔
      readSize csd = cSize csd ∧ (cSize csd).toNat + 1 < 2 ^ 22 := by
  unfold capacityOf
  rw [if_pos hc, size_bits, ← BitVec.toNat_inj]
  simp only [BitVec.toNat_mul, BitVec.toNat_add, BitVec.toNat_setWidth]
  rw [show BitVec.toNat (1 : BitVec 32) = 1 from rfl, show BitVec.toNat (1024 : BitVec 32) = 1024 from rfl]
  omega

section runs

variable {D : Type} {dev : Device D}

/-- Reads keep what every single read keeps. -/
theorem pollReg_keeps {J : Host D → Prop}
    (hread : ∀ reg s, J s → J { s with dev := (dev.read reg s.dev).2 }) (reg : Reg)
    (mask value : BitVec 32) (count : Nat) {s : Host D} (h : J s) :
    wp Crit.partialC (fun _ t => J t) (pollReg dev reg mask value count) s := by
  induction count generalizing s with
  | zero => exact h
  | succ count ih =>
    simp only [pollReg, readReg, wp_bind, wp_atomic]
    refine ⟨trivial, ?_⟩
    split
    · exact hread reg s h
    · exact ih (hread reg s h)

/-- Reads keep the record of the card. -/
theorem pollReg_card (reg : Reg) (mask value : BitVec 32) (count : Nat) {c : SdCard} {s : Host D}
    (h : s.sdcard = c) :
    wp Crit.partialC (fun _ t => t.sdcard = c) (pollReg dev reg mask value count) s :=
  pollReg_keeps (J := fun t => t.sdcard = c) (fun _ _ => id) reg mask value count h

theorem sdhciSetClock_card (clockHz : Nat) (s : Host D) :
    wp Crit.partialC (fun _ t => t.sdcard = s.sdcard) (sdhciSetClock dev clockHz) s := by
  unfold sdhciSetClock
  simp only [writeReg, wp_bind, wp_update]
  refine ⟨trivial, trivial, wp_mono (pollReg_card _ _ _ _ rfl) ?_⟩
  intro a t ht
  split
  · exact ht
  · exact ⟨trivial, ht⟩

variable {csd : BitVec 128} {J : D → Prop}

theorem readResponse_csd (hdev : AnswersCsd dev csd J) (respType : Rsp) (want : Bool) (s : Host D) :
    wp Crit.partialC (fun response t => t.sdcard = s.sdcard ∧
      (respType = .r2 → want = true → J s.dev → ∀ i, i < 4 → response i = csdWord csd i))
      (readResponse dev respType want) s := by
  unfold readResponse
  split
  · split
    · refine ⟨trivial, trivial, trivial, trivial, rfl, ?_⟩
      intro _ _ h₀ i hi
      have h₁ := hdev.read (.response 0) _ h₀
      have h₂ := hdev.read (.response 1) _ h₁
      have h₃ := hdev.read (.response 2) _ h₂
      match i, hi with
      | 0, hi => exact hdev.response 0 _ hi h₀
      | 1, hi => exact hdev.response 1 _ hi h₁
      | 2, hi => exact hdev.response 2 _ hi h₂
      | 3, hi => exact hdev.response 3 _ hi h₃
    · rename_i hr
      exact ⟨trivial, rfl, fun h => absurd h hr⟩
  · rename_i hwant
    refine ⟨rfl, ?_⟩
    rintro rfl rfl
    exact absurd ⟨rfl, by decide⟩ hwant

/-- A command keeps the record of the card, and CMD9 returns the CSD. -/
theorem sdhciSendCmd_csd (hdev : AnswersCsd dev csd J) (cmd : Cmd) (arg : BitVec 32) (respType : Rsp)
    (want : Bool) (s : Host D) :
    wp Crit.partialC (fun r t => t.sdcard = s.sdcard ∧ (cmd = .sendCsd → respType = .r2 → want = true →
      ∀ response, r = some response → ∀ i, i < 4 → response i = csdWord csd i))
      (sdhciSendCmd dev 0 cmd arg respType want) s := by
  unfold sdhciSendCmd
  refine wp_seq (pollReg_card _ _ _ _ rfl) ?_
  intro a s₁ hs₁
  split
  · exact ⟨hs₁, nofun⟩
  simp only [writeReg, readReg, wp_bind, wp_update]
  refine ⟨trivial, trivial, trivial, ?_⟩
  -- from here on the registers are only read
  let K : Host D → Prop := fun t => t.sdcard = s.sdcard ∧ (cmd = .sendCsd → respType = .r2 → J t.dev)
  have hK : ∀ reg t, K t → K { t with dev := (dev.read reg t.dev).2 } :=
    fun reg t h => ⟨h.1, fun hcmd hr => hdev.read reg t.dev (h.2 hcmd hr)⟩
  refine wp_mono (pollReg_keeps hK _ _ _ _ ⟨hs₁, ?_⟩) ?_
  · rintro rfl rfl
    exact hdev.sent _
  intro b s₂ hs₂
  split
  · exact ⟨hs₂.1, nofun⟩
  simp only [wp_bind, wp_atomic]
  refine ⟨trivial, ?_⟩
  split
  · exact ⟨hs₂.1, nofun⟩
  refine wp_seq (readResponse_csd hdev respType want _) ?_
  intro response s₃ hs₃
  refine ⟨trivial, hs₃.1.trans hs₂.1, ?_⟩
  rintro hcmd hr hwant _ ⟨⟩
  exact hs₃.2 hr hwant (hdev.read _ _ (hs₂.2 hcmd hr))

/-- A command that is not CMD9. -/
theorem sdhciSendCmd_card (hdev : AnswersCsd dev csd J) (cmd : Cmd) (arg : BitVec 32) (respType : Rsp)
    (want : Bool) (s : Host D) :
    wp Crit.partialC (fun _ t => t.sdcard = s.sdcard) (sdhciSendCmd dev 0 cmd arg respType want) s :=
  wp_mono (sdhciSendCmd_csd hdev cmd arg respType want s) fun _ _ h => h.1

/-- Whatever comes before CMD9, the capacity is computed from the CSD. -/
theorem identify_capacity (hdev : AnswersCsd dev csd J) (s : Host D) :
    wp Crit.partialC (fun ok t => ok = true → t.sdcard.capacity = capacityOf t.sdcard (csdWord csd))
      (identify dev) s := by
  unfold identify
  -- CMD0, CMD8 and the steps up to CMD3 fail, or leave some state
  iterate 5
    refine wp_seq (wp_true _) ?_
    rintro (_ | _) _ _
    · exact nofun
  refine wp_seq (wp_true _) ?_
  rintro _ s₂ _
  refine wp_seq (wp_true _) ?_
  rintro sdcard s₃ _
  refine wp_seq (sdhciSendCmd_csd hdev _ _ _ _ s₃) ?_
  rintro (_ | response) s₄ ⟨_, hcsd⟩
  · exact nofun
  have hresponse := hcsd rfl rfl rfl response rfl
  have hcapacity : ∀ c : SdCard, capacityOf c response = capacityOf c (csdWord csd) := by
    intro c
    unfold capacityOf
    rw [hresponse 1 (by decide), hresponse 2 (by decide)]
  have hset : wp Crit.partialC (fun _ t => t.sdcard.capacity = capacityOf t.sdcard (csdWord csd))
      (setCard fun c => { c with capacity := capacityOf c response }) s₄ :=
    ⟨trivial, hcapacity s₄.sdcard⟩
  refine wp_seq hset ?_
  rintro _ s₅ hs₅
  refine wp_seq (sdhciSendCmd_card hdev _ _ _ _ s₅) ?_
  rintro (_ | _) s₆ hs₆
  · exact nofun
  refine wp_seq (sdhciSendCmd_card hdev _ _ _ _ s₆) ?_
  rintro (_ | _) s₇ hs₇
  · exact nofun
  intro _
  rw [hs₇, hs₆]
  exact hs₅

theorem sdhciCardInit_capacity (hdev : AnswersCsd dev csd J) (s : Host D) :
    wp Crit.partialC (fun a t => a = 0 → t.sdcard.capacity = capacityOf t.sdcard (csdWord csd))
      (sdhciCardInit dev) s := by
  unfold sdhciCardInit
  refine wp_seq (identify_capacity hdev s) ?_
  intro ok s₁ hs₁
  split
  · rename_i hok
    refine wp_seq (sdhciSetClock_card _ s₁) ?_
    intro _ s₂ hs₂
    rw [← hs₂] at hs₁
    exact ⟨trivial, fun _ => hs₁ hok⟩
  · intro hzero
    cases hzero

end runs

/-- The capacity of a high-capacity card is right exactly if the bits that the driver takes agree with
    C_SIZE, and C_SIZE is not the largest there is. -/
theorem capacity_iff {D : Type} (dev : Device D) (csd : BitVec 128) (J : D → Prop)
    (hdev : AnswersCsd dev csd J) (s t : Host D) (hrun : (sdhciCardInit dev).run s = .done 0 t)
    (hhigh : t.sdcard.high_capacity = true) :
    t.sdcard.capacity.toNat = ((cSize csd).toNat + 1) * 1024 ↔
      readSize csd = cSize csd ∧ (cSize csd).toNat + 1 < 2 ^ 22 := by
  rw [wp_run_done (sdhciCardInit_capacity hdev s) hrun rfl]
  exact capacityOf_toNat csd hhigh

/-- A controller that is always ready and has a high-capacity card; its state is the last command. -/
def cardDev (csd : BitVec 128) : Device (BitVec 32) where
  read := fun reg d =>
    (match reg with
      | .intStatus => SDHCI_INT_RESPONSE
      | .clockControl => SDHCI_CLOCK_INT_STABLE
      | .response i =>
        if d = (Cmd.sendCsd.number <<< 8 ||| Rsp.r2.flags).setWidth 32 then csdWord csd i
        else SD_OCR_BUSY ||| SD_OCR_CCS ||| 0xAA
      | _ => 0, d)
  write := fun reg val d => if reg = .command then val else d

theorem cardDev_answers (csd : BitVec 128) : AnswersCsd (cardDev csd) csd fun d =>
    d = (Cmd.sendCsd.number <<< 8 ||| Rsp.r2.flags).setWidth 32 where
  sent _ := rfl
  read _ _ h := h
  response _ _ _ h := if_pos h

/-- A card whose C_SIZE is 0, as are the bits that the driver takes. -/
theorem capacity_of_smallest : ∃ csd, Version2 csd ∧ ∃ s t : Host (BitVec 32),
    (sdhciCardInit (cardDev csd)).run s = .done 0 t ∧
      (t.sdcard.capacity.toNat = ((cSize csd).toNat + 1) * 1024 ↔
        readSize csd = cSize csd ∧ (cSize csd).toNat + 1 < 2 ^ 22) := by
  obtain ⟨t, hrun, hhigh⟩ : ∃ t, (sdhciCardInit (cardDev (1 <<< 126))).run
      ⟨0, false, false, 0, 0, false⟩ = .done 0 t ∧ t.sdcard.high_capacity = true := ⟨_, rfl, rfl⟩
  exact ⟨1 <<< 126, rfl, _, t, hrun, capacity_iff _ _ _ (cardDev_answers _) _ t hrun hhigh⟩

/-- A card of 2048 blocks is taken for one of 1024. -/
theorem capacity_misread : ∃ csd, Version2 csd ∧ cSize csd = 1 ∧ ∃ s t : Host (BitVec 32),
    (sdhciCardInit (cardDev csd)).run s = .done 0 t ∧ t.sdcard.high_capacity = true ∧
      t.sdcard.capacity = 1024 :=
  ⟨1 <<< 126 ||| 1 <<< 48, rfl, rfl, ⟨0, false, false, 0, 0, false⟩, _, rfl, rfl, rfl⟩

end Xv6.Sdhci
