import EzPacker.RiscV.FormatFields

/-!
# When an encoding is faithful

The encoder is faithful to what fits, format by format. An immediate of the upper bits is
taken as the field when its low 32 bits are below `2 ^ 20` and as the shifted number
otherwise.
-/

namespace EzPacker.RiscV

open BitVec Option

/-! ## Upper immediates -/

section

variable {imm : BitVec 64}

theorem low_le_iff : imm.setWidth 32 ≤ 0xFFFFF#32 ↔ FitsUnsigned 20 (imm.setWidth 32) := by
  unfold FitsUnsigned
  rw [le_def]
  exact Nat.lt_succ_iff.symm

theorem readsField_of_low (h : FitsUnsigned 20 (imm.setWidth 32)) :
    ((imm.setWidth 20).setWidth 64 = imm ∨ (imm.setWidth 20).signExtend 64 = imm) ↔
      FitsUnsigned 20 imm ∨ imm = -1 := by
  rw [setWidth_setWidth_iff (by decide), signExtend_setWidth_iff (by decide) (by decide)]
  constructor
  · rintro (hfits | hfits)
    · exact .inl hfits
    · have hsigned : FitsSigned 32 imm := hfits.mono (by decide)
      exact .inl (hsigned.unsigned (by decide) (by decide) (by decide) h)
  · rintro (hfits | rfl)
    · exact .inl hfits
    · exact absurd h (by decide)

/-- All bits of the number are its bit 31. -/
theorem eq_zero_or_neg_one (h : ∀ i < 64, imm.getLsbD i = imm.getLsbD 31) : imm = 0 ∨ imm = -1 := by
  cases hbit : imm.getLsbD 31 with
  | false =>
    left
    apply eq_of_getLsbD_eq
    intro i hi
    rw [h i hi, hbit]
    exact (getLsbD_zero).symm
  | true =>
    right
    apply eq_of_getLsbD_eq
    intro i hi
    rw [h i hi, hbit]
    exact (getLsbD_allOnes ▸ (decide_eq_true hi).symm : _ = (allOnes 64).getLsbD i)

theorem readsField_of_high (h : ¬FitsUnsigned 20 (imm.setWidth 32)) :
    (((imm >>> 12).setWidth 20).setWidth 64 = imm ∨
        ((imm >>> 12).setWidth 20).signExtend 64 = imm) ↔
      FitsUnsigned 20 imm ∨ imm = -1 := by
  constructor
  · rintro (hzero | hsign)
    · have hfits := fitsUnsigned_of_setWidth (w := 64) (by decide) ((imm >>> 12).setWidth 20)
      rw [hzero] at hfits
      exact .inl hfits
    · have hhigh : ∀ i, 20 ≤ i → i < 64 → imm.getLsbD i = imm.getLsbD 31 := by
        intro i hle hlt
        conv_lhs => rw [← hsign]
        rw [getLsbD_signExtend, msb_eq_getLsbD_last, if_neg (Nat.not_lt.mpr hle)]
        simp [hlt]
      have hlow : ∀ i, i < 20 → imm.getLsbD i = imm.getLsbD (i + 12) := by
        intro i hlt
        conv_lhs => rw [← hsign]
        rw [getLsbD_signExtend, if_pos hlt]
        simp [hlt, Nat.add_comm 12 i, Nat.lt_trans hlt (by decide : 20 < 64)]
      rcases eq_zero_or_neg_one fun i hi => by
        rcases Nat.lt_or_ge i 20 with hi20 | hi20
        · rw [hlow i hi20]
          rcases Nat.lt_or_ge (i + 12) 20 with hi8 | hi8
          · rw [hlow _ hi8]
            exact hhigh _ (by omega) (by omega)
          · exact hhigh _ hi8 (by omega)
        · exact hhigh i hi20 hi with rfl | rfl
      · exact absurd (by decide : FitsUnsigned 20 ((0 : BitVec 64).setWidth 32)) h
      · exact .inr rfl
  · rintro (hfits | rfl)
    · exact absurd (hfits.setWidth 32) h
    · exact .inr (by decide)

theorem readsShifted_of_low (h : FitsUnsigned 20 (imm.setWidth 32)) :
    ((imm.setWidth 20).setWidth 32 <<< 12).signExtend 64 = imm ↔
      imm = 0 ∨ FitsSigned 32 imm ∧ imm.setWidth 12 = 0#12 ∧ ¬FitsUnsigned 20 imm := by
  have hlow : (imm.setWidth 20).setWidth 32 = imm.setWidth 32 := by
    have hcut := (setWidth_setWidth_iff (n := 20) (by decide) (imm.setWidth 32)).mpr h
    rwa [setWidth_setWidth_of_le imm (by decide)] at hcut
  rw [signExtend_eq_iff (by decide) (by decide), hlow]
  constructor
  · intro ⟨hfits, hshift⟩
    have hzero : imm.setWidth 32 = 0#32 := by
      have hnat := congrArg BitVec.toNat hshift
      rw [toNat_shiftLeft, Nat.shiftLeft_eq] at hnat
      unfold FitsUnsigned at h
      apply eq_of_toNat_eq
      rw [toNat_zero]
      omega
    have hsign := signExtend_setWidth_of_fits (by decide) (by decide) hfits
    rw [hzero] at hsign
    exact .inl (hsign.symm.trans (by decide))
  · rintro (rfl | ⟨hfits, -, hlarge⟩)
    · decide
    · exact absurd (hfits.unsigned (by decide) (by decide) (by decide) h) hlarge

theorem readsShifted_of_high (h : ¬FitsUnsigned 20 (imm.setWidth 32)) :
    (((imm >>> 12).setWidth 20).setWidth 32 <<< 12).signExtend 64 = imm ↔
      imm = 0 ∨ FitsSigned 32 imm ∧ imm.setWidth 12 = 0#12 ∧ ¬FitsUnsigned 20 imm := by
  rw [signExtend_eq_iff (by decide) (by decide)]
  have hlarge : ¬FitsUnsigned 20 imm := fun hfits => h (hfits.setWidth 32)
  have hzero : imm ≠ 0 := by
    rintro rfl
    exact h (by decide)
  rw [or_iff_right hzero, and_iff_left hlarge]
  refine and_congr_right fun _ => ?_
  constructor
  · intro hshift
    apply eq_of_getLsbD_eq
    intro i hi
    have hat := congrArg (fun x => x.getLsbD i) hshift
    clear hshift
    interval_cases i <;> simp_all
  · intro hlow
    apply eq_of_getLsbD_eq
    intro i hi
    have hat := congrArg (fun x => x.getLsbD i) hlow
    clear hlow
    interval_cases i <;> simp_all

theorem readsUpper_iff (reading : UpperReading) (imm : BitVec 64) (rd opcode : BitVec 8) :
    ReadsUpper reading (uTypeWord imm rd opcode) imm ↔ UpperFits reading imm := by
  obtain ⟨-, -, hfield⟩ := fields_uTypeWord imm rd opcode
  unfold ReadsUpper UpperFits
  rw [hfield]
  unfold upperOf
  by_cases h : FitsUnsigned 20 (imm.setWidth 32)
  · rw [if_pos (low_le_iff.mpr h)]
    cases reading with
    | field => exact readsField_of_low h
    | shifted => exact readsShifted_of_low h
  · rw [if_neg (mt low_le_iff.mp h)]
    cases reading with
    | field => exact readsField_of_high h
    | shifted => exact readsShifted_of_high h

end

/-! ## The formats -/

section

variable {reading : UpperReading} {desc : EncodingDesc} {operands : List ResolvedOperand}
  {word : BitVec 32}

theorem opcode_field_iff (x : BitVec 8) : (x.setWidth 7).setWidth 8 = x ↔ FitsUnsigned 7 x :=
  setWidth_setWidth_iff (by decide) x

theorem funct3_field_iff (x : BitVec 8) : (x.setWidth 3).setWidth 8 = x ↔ FitsUnsigned 3 x :=
  setWidth_setWidth_iff (by decide) x

theorem signed12_iff (imm : BitVec 64) :
    (imm.setWidth 12).signExtend 64 = imm ↔ FitsSigned 12 imm :=
  signExtend_setWidth_iff (by decide) (by decide) imm

theorem even13_iff (imm : BitVec 64) : (imm.setWidth 13 &&& ~~~1).signExtend 64 = imm ↔
      imm.getLsbD 0 = false ∧ FitsSigned 13 imm :=
  signExtend_setWidth_even_iff (by decide) (by decide) imm

theorem even21_iff (imm : BitVec 64) : (imm.setWidth 21 &&& ~~~1).signExtend 64 = imm ↔
      imm.getLsbD 0 = false ∧ FitsSigned 21 imm :=
  signExtend_setWidth_even_iff (by decide) (by decide) imm

theorem says_iff (h : encodeForm desc (collect desc operands) = some word) :
    Says reading desc operands word ↔ Fits reading desc operands := by
  unfold encodeForm at h
  unfold Says Fits
  rw [rd_collect, rs1_collect, rs2_collect, imm_collect] at h
  cases hform : desc.form with
  | None | Pseudo =>
    rw [hform] at h
    cases h
  | RType =>
    rw [hform] at h
    obtain rfl := some.inj h
    simp only [fields_rTypeWord, register_field_iff, opcode_field_iff, funct3_field_iff]
  | IType =>
    rw [hform] at h
    obtain rfl := some.inj h
    simp only [fields_iTypeWord, register_field_iff, opcode_field_iff, funct3_field_iff,
      readsImmediate_iff]
  | SType =>
    rw [hform] at h
    obtain rfl := some.inj h
    simp only [fields_sTypeWord, register_field_iff, opcode_field_iff, funct3_field_iff,
      signed12_iff]
  | BType =>
    rw [hform] at h
    obtain rfl := some.inj h
    simp only [fields_bTypeWord, register_field_iff, opcode_field_iff, funct3_field_iff, even13_iff]
  | UType =>
    rw [hform] at h
    obtain rfl := some.inj h
    simp only [fields_uTypeWord, register_field_iff, opcode_field_iff, readsUpper_iff]
  | JType =>
    rw [hform] at h
    obtain rfl := some.inj h
    simp only [fields_jTypeWord, register_field_iff, opcode_field_iff, even21_iff]

theorem wordBytes_injective {word word' : BitVec 32} (h : wordBytes word = wordBytes word') :
    word = word' := by
  rw [← wordOf_wordBytes word, ← wordOf_wordBytes word']
  unfold wordBytes at h
  simp only [List.cons.injEq, and_true] at h
  rw [h.1, h.2.1, h.2.2.1, h.2.2.2]

theorem emitWord_injective {out : List UInt8} {word word' : BitVec 32}
    (h : emitWord out word = emitWord out word') : word = word' :=
  wordBytes_injective (List.append_cancel_left h)

theorem encodedFaithfully_iff_word (hnone : desc.form ≠ .None) (hpseudo : desc.form ≠ .Pseudo)
    (hword : encodeForm desc (collect desc operands) = some word) (out : List UInt8) :
    EncodedFaithfully reading desc operands out ↔ Says reading desc operands word := by
  have hencode : ∃ result, encode desc operands out = (true, emitWord out word, result) := by
    unfold encode
    rw [if_neg hnone, if_neg hpseudo]
    dsimp only
    rw [hword]
    exact ⟨_, rfl⟩
  obtain ⟨result, hencode⟩ := hencode
  unfold EncodedFaithfully
  rw [hencode]
  constructor
  · rintro (hfails | ⟨word', result', heq, hsays⟩)
    · cases hfails
    · rw [emitWord_injective (congrArg (fun r => r.2.1) heq)]
      exact hsays
  · exact fun hsays => .inr ⟨word, result, rfl, hsays⟩

/-- The encoder is faithful to a format exactly when its fields fit. -/
theorem encodedFaithfully_iff (reading : UpperReading) (desc : EncodingDesc)
    (operands : List ResolvedOperand) (out : List UInt8) (h : desc.form ≠ .Pseudo) :
    EncodedFaithfully reading desc operands out ↔ Fits reading desc operands := by
  by_cases hnone : desc.form = .None
  · have hfails : (encode desc operands out).1 = false := by
      unfold encode
      rw [if_pos hnone]
    have hfits : Fits reading desc operands := by
      unfold Fits
      rw [hnone]
      trivial
    exact ⟨fun _ => hfits, fun _ => .inl hfails⟩
  · have hword : ∃ word, encodeForm desc (collect desc operands) = some word := by
      unfold encodeForm
      cases hform : desc.form with
      | None => exact absurd hform hnone
      | Pseudo => exact absurd hform h
      | _ => exact ⟨_, rfl⟩
    obtain ⟨word, hword⟩ := hword
    exact (encodedFaithfully_iff_word hnone h hword out).trans (says_iff hword)

end

/-! ## ADDI64ri -/

theorem covers_zero (imm : BitVec 64) : Covers imm 0 := by
  intro i _ hbit
  exact absurd hbit (Bool.eq_false_iff.mp getLsbD_zero)


/-- The row of `addi`. -/
def addi64ri : EncodingDesc where
  form := .IType
  opcode := 0x13
  funct3 := 0
  funct7 := 0
  operands := [⟨.Rd, 0⟩, ⟨.Rs1, 1⟩, ⟨.Imm12Signed, 2⟩]
  relocOperand := 0xFF
  operandCount_le := by decide

def registerOperand (reg : BitVec 8) : ResolvedOperand :=
  ⟨.Register, reg, 0, ⟨0xFF, 0, false⟩, false⟩

def immediateOperand (imm : BitVec 64) : ResolvedOperand :=
  ⟨.Immediate, 0, imm, ⟨0xFF, 0, false⟩, false⟩

/-- `addi sp, sp, -16` is encoded faithfully. -/
theorem encodedFaithfully_iff_addi : EncodedFaithfully .field addi64ri
      [registerOperand 2, registerOperand 2, immediateOperand (-16)] [] :=
  (encodedFaithfully_iff .field addi64ri _ [] (by decide)).mpr
    ⟨by decide, by decide, by decide, by decide, by decide, covers_zero _⟩

/-- `addi sp, sp, 4096` is encoded as `addi sp, sp, 0`. -/
theorem addi_large_not_faithful : ¬EncodedFaithfully .field addi64ri
      [registerOperand 2, registerOperand 2, immediateOperand 4096] [] := by
  have hword : encodeForm addi64ri (collect addi64ri
      [registerOperand 2, registerOperand 2, immediateOperand 4096]) = some 0x00010113 := rfl
  rw [encodedFaithfully_iff_word (by decide) (by decide) hword]
  intro ⟨_, _, _, _, himm⟩
  exact absurd himm (by decide : (iImm 0x00010113).signExtend 64 ≠ 4096)

end EzPacker.RiscV
