import EzPacker.X86.Encoder

/-!
# Immediates of x86-64 instructions

The processor finds the immediate of an instruction behind the prefixes, the opcode and the
addressing byte, and extends it to the operand size. The encoder picks the width of the
immediate by range tests, and does not refuse a number that no width holds.
-/

namespace EzPacker.X86

open List Option

/-! ## Decoding -/

def isLegacyPrefix (byte : UInt8) : Bool :=
  byte = 0xF0 ∨ byte = 0xF2 ∨ byte = 0xF3 ∨ byte = 0x66 ∨ byte = 0x67

/-- Whether the operand size prefix is there, and the bytes behind the legacy prefixes. -/
def decodePrefixes : List UInt8 → Bool × List UInt8
  | [] => (false, [])
  | byte :: rest =>
    if isLegacyPrefix byte then
      (byte = 0x66 || (decodePrefixes rest).1, (decodePrefixes rest).2)
    else (false, byte :: rest)

def isRexByte (byte : UInt8) : Bool := byte &&& 0xF0 = 0x40

def decodeRexPrefix : List UInt8 → Rex × List UInt8
  | [] => (decodeRex [], [])
  | byte :: rest =>
    if isRexByte byte then (decodeRex [byte], rest) else (decodeRex [], byte :: rest)

def operandSize (w size16 : Bool) : ℕ := if w then 8 else if size16 then 2 else 4

/-- Whether an addressing byte follows the opcode, and how long the immediate is. The shifts by
one have none. -/
def immediateLayout (size : ℕ) (opcode : UInt8) : Option (Bool × ℕ) :=
  if opcode &&& 0xF8 = 0xB0 then some (false, 1)
  else if opcode &&& 0xF8 = 0xB8 then some (false, size)
  else if opcode = 0x80 ∨ opcode = 0x83 ∨ opcode = 0xC0 ∨ opcode = 0xC1 then some (true, 1)
  else if opcode = 0x81 ∨ opcode = 0xC7 then some (true, min size 4)
  else if opcode = 0xD0 ∨ opcode = 0xD1 then some (true, 0)
  else none

/-- The bytes behind the addressing byte of a register. -/
def skipModRM : List UInt8 → Option (List UInt8)
  | [] => none
  | modrm :: rest => if modOf modrm = 3 then some rest else none

def readImmediate (layout : Bool × ℕ) (rest : List UInt8) : Option (List UInt8) :=
  (if layout.1 then skipModRM rest else some rest).bind fun field =>
    if field.length = layout.2 then some (if layout.2 = 0 then [1] else field) else none

/-- The bytes of the immediate of an instruction that acts on a register. -/
def decodeImmediate (bytes : List UInt8) : Option (List UInt8) :=
  match (decodeRexPrefix (decodePrefixes bytes).2).2 with
  | [] => none
  | opcode :: rest =>
    (immediateLayout
      (operandSize (decodeRexPrefix (decodePrefixes bytes).2).1.w (decodePrefixes bytes).1)
      opcode).bind fun layout => readImmediate layout rest

/-- How an immediate becomes an operand. -/
inductive Extension
  | signed
  | unsigned
  deriving DecidableEq, Repr

def Extension.extend (extension : Extension) (field : List UInt8) : BitVec 64 :=
  match extension with
  | .signed => (immField field.length field).signExtend 64
  | .unsigned => (immField field.length field).setWidth 64

/-! ## Immediate forms -/

/-- The operand that the form takes as its immediate. -/
def immediateOperand (desc : EncodingDesc) (operands : List ResolvedOperand) :
    Option ResolvedOperand :=
  match desc.form with
  | .Ri => resolveFirst desc operands [.Imm8Signed, .Imm32]
  | .MovRI => resolveFirst desc operands [.Imm8, .Imm16, .Imm32, .Imm64]
  | .Shift => resolveFirst desc operands [.Imm8, .Imm8Signed]
  | _ => none

/-- The register operand of an immediate form. -/
def registerOperand (desc : EncodingDesc) (operands : List ResolvedOperand) :
    Option ResolvedOperand :=
  (resolve desc operands (if desc.form = .MovRI then .Reg else .RmReg)).filter
    fun op => op.kind = .Register

/-- The forms with an immediate, and how they extend it. A shift count is read either way. -/
def TakesImmediate (extension : Extension) (desc : EncodingDesc) : Prop :=
  ((desc.form = .Ri ∨ desc.form = .MovRI) ∧ extension = .signed) ∨
    (desc.form = .Shift ∧ desc.shiftByCL = false)

def sizeBits (desc : EncodingDesc) (operands : List ResolvedOperand) : ℕ :=
  8 * (resolveSize desc operands).toNat

/-- The encoder fails and leaves the output, or the immediate it emits is the operand's. -/
def ImmediateExact (extension : Extension) (desc : EncodingDesc)
    (operands : List ResolvedOperand) : Prop :=
  ∀ out, ((encode desc operands out).1 = false ∧ (encode desc operands out).2.1 = out) ∨
    ((encode desc operands out).1 = true ∧ ∃ bytes field immOp,
      (encode desc operands out).2.1 = out ++ bytes ∧ decodeImmediate bytes = some field ∧
        immediateOperand desc operands = some immOp ∧
          (extension.extend field).signExtend (sizeBits desc operands) =
            immOp.imm.signExtend (sizeBits desc operands))

/-- The immediates that a form can hold. -/
def ImmediateFits (extension : Extension) (desc : EncodingDesc)
    (operands : List ResolvedOperand) (imm : BitVec 64) : Prop :=
  let sizeBytes := resolveSize desc operands
  let operand := imm.signExtend (sizeBits desc operands)
  match desc.form with
  | .Ri =>
    sizeBytes = 1 ∨ FitsSigned 8 imm ∨ (sizeBytes = 2 ∧ rexWanted desc.rexW sizeBytes = false) ∨
        (sizeBytes ≠ 2 ∧ FitsSigned 32 operand ∧
          (rexWanted desc.rexW sizeBytes = true ∨ desc.prefixes &&& EncPrefix66 = 0))
  | .MovRI => sizeBytes = 2 ∨ sizeBytes = 4 ∨ sizeBytes = 8 ∨ FitsSigned 8 operand
  | _ =>
    match extension with
    | .signed => FitsSigned 8 operand
    | .unsigned => FitsUnsigned 8 operand

/-! ## Prefixes are read back -/

theorem decodePrefixes_emit (prefixes : BitVec 8) (size16 : Bool) {rest : List UInt8}
    (hrest : decodePrefixes rest = (false, rest)) :
    decodePrefixes (emitLegacyPrefixes prefixes size16 ++ rest) =
      (decide (prefixes &&& EncPrefix66 ≠ 0 ∨ size16 = true), rest) := by
  have hcons (byte : UInt8) (hbyte : isLegacyPrefix byte = true) (c : Bool) (tail : List UInt8) :
      decodePrefixes ((if c then [byte] else []) ++ tail) =
        ((c && decide (byte = 0x66)) || (decodePrefixes tail).1, (decodePrefixes tail).2) := by
    cases c with
    | true => simp [decodePrefixes, hbyte]
    | false => rfl
  have hdecide (P : Prop) [Decidable P] (byte : UInt8) :
      (if P then [byte] else []) = if decide P = true then [byte] else [] := by
    by_cases h : P <;> simp [h]
  unfold emitLegacyPrefixes
  rw [hdecide, hdecide (_ ≠ 0) 0xF2, hdecide (_ ≠ 0) 0xF3, hdecide _ 0x66, hdecide _ 0x67]
  simp only [append_assoc]
  rw [hcons _ rfl, hcons _ rfl, hcons _ rfl, hcons _ rfl, hcons _ rfl, hrest]
  simp

theorem isLegacyPrefix_of_rex {byte : UInt8} (h : isRexByte byte = true) :
    isLegacyPrefix byte = false := by
  obtain ⟨bits⟩ := byte
  revert bits
  decide +kernel

theorem decodePrefixes_cons {byte : UInt8} (h : isLegacyPrefix byte = false)
    (rest : List UInt8) : decodePrefixes (byte :: rest) = (false, byte :: rest) := by
  unfold decodePrefixes
  rw [h]
  rfl

theorem isRexByte_encode (rex : Rex) : isRexByte rex.encode = true := by
  obtain ⟨w, r, x, b⟩ := rex
  cases w <;> cases r <;> cases x <;> cases b <;> rfl

theorem decodeRexPrefix_emitRex (rex : Rex) (forceRex : Bool) {opcode : UInt8}
    (h : isRexByte opcode = false) (rest : List UInt8) :
    decodeRexPrefix (emitRex rex forceRex ++ opcode :: rest) = (rex, opcode :: rest) := by
  have hread := decodeRex_emitRex rex forceRex
  unfold emitRex at *
  split at hread
  next hc =>
    rw [if_pos hc]
    simp only [cons_append, nil_append, decodeRexPrefix, isRexByte_encode, if_true]
    rw [hread]
  next hc =>
    rw [if_neg hc]
    simp only [nil_append, decodeRexPrefix, h]
    rw [hread]
    rfl

theorem decodeImmediate_emit (prefixes : BitVec 8) (size16 : Bool) (rex : Rex) (forceRex : Bool)
    {opcode : UInt8} (hrex : isRexByte opcode = false) (hlegacy : isLegacyPrefix opcode = false)
    (rest : List UInt8) :
    decodeImmediate (emitLegacyPrefixes prefixes size16 ++
        (emitRex rex forceRex ++ opcode :: rest)) =
      (immediateLayout (operandSize rex.w (decide (prefixes &&& EncPrefix66 ≠ 0 ∨ size16 = true)))
        opcode).bind fun layout => readImmediate layout rest := by
  have hhead : decodePrefixes (emitRex rex forceRex ++ opcode :: rest) =
      (false, emitRex rex forceRex ++ opcode :: rest) := by
    unfold emitRex
    split
    · exact decodePrefixes_cons (isLegacyPrefix_of_rex (isRexByte_encode rex)) _
    · exact decodePrefixes_cons hlegacy _
  unfold decodeImmediate
  rw [decodePrefixes_emit prefixes size16 hhead, decodeRexPrefix_emitRex rex forceRex hrex]

/-! ## What an immediate field holds -/

/-- The immediate that is read in the bytes is the operand's. -/
def HoldsImmediate (extension : Extension) (size : ℕ) (imm : BitVec 64) (bytes : List UInt8) :
    Prop :=
  ∃ field, decodeImmediate bytes = some field ∧
    (extension.extend field).signExtend size = imm.signExtend size

theorem extend_emitImm_signed (imm : BitVec 64) (n : ℕ) :
    Extension.signed.extend (emitImm imm n) = (imm.setWidth (8 * n)).signExtend 64 := by
  have hfield := immField_emitImm imm n []
  rw [append_nil] at hfield
  unfold Extension.extend
  dsimp only
  rw [length_emitImm, hfield]

theorem extend_emitImm_unsigned (imm : BitVec 64) (n : ℕ) :
    Extension.unsigned.extend (emitImm imm n) = (imm.setWidth (8 * n)).setWidth 64 := by
  have hfield := immField_emitImm imm n []
  rw [append_nil] at hfield
  unfold Extension.extend
  dsimp only
  rw [length_emitImm, hfield]

section Holds

variable {imm : BitVec 64} {bytes : List UInt8} {n : ℕ}

theorem holdsImmediate_signed_iff (hn : 0 < n) (hw : 8 * n ≤ 64)
    (h : decodeImmediate bytes = some (emitImm imm n)) (size : ℕ) :
    HoldsImmediate .signed size imm bytes ↔ FitsSigned (8 * n) (imm.signExtend size) := by
  rw [← signExtend_low_eq_iff (by omega) hw, ← extend_emitImm_signed]
  constructor
  · rintro ⟨field, hfield, heq⟩
    rw [h] at hfield
    rw [some.inj hfield]
    exact heq
  · intro heq
    exact ⟨_, h, heq⟩

theorem holdsImmediate_unsigned_iff (hw : 8 * n < 64)
    (h : decodeImmediate bytes = some (emitImm imm n)) (size : ℕ) :
    HoldsImmediate .unsigned size imm bytes ↔ FitsUnsigned (8 * n) (imm.signExtend size) := by
  rw [← setWidth_low_eq_iff hw, ← extend_emitImm_unsigned]
  constructor
  · rintro ⟨field, hfield, heq⟩
    rw [h] at hfield
    rw [some.inj hfield]
    exact heq
  · intro heq
    exact ⟨_, h, heq⟩

section

variable (hn : 0 < n) (hw : 8 * n ≤ 64) (h : decodeImmediate bytes = some (emitImm imm n))
include hn hw h

/-- An immediate as wide as the operand is exact. -/
theorem holdsImmediate_of_le {size : ℕ} (hsize : size ≤ 8 * n) :
    HoldsImmediate .signed size imm bytes :=
  (holdsImmediate_signed_iff hn hw h size).mpr (fitsSigned_of_le hsize _)

theorem holdsImmediate_of_fits (hfits : FitsSigned (8 * n) imm) (size : ℕ) :
    HoldsImmediate .signed size imm bytes := by
  refine ⟨_, h, ?_⟩
  rw [extend_emitImm_signed, signExtend_setWidth_of_fits (by omega) hw hfits]

end

theorem not_holdsImmediate (extension : Extension) (h : decodeImmediate bytes = none) (size : ℕ) :
    ¬HoldsImmediate extension size imm bytes := by
  rintro ⟨field, hfield, -⟩
  rw [h] at hfield
  cases hfield

end Holds

theorem readImmediate_modRM (digit reg : BitVec 8) (imm : BitVec 64) {n : ℕ} (hn : n ≠ 0) (m : ℕ) :
    readImmediate (true, m) (encodeModRM 3 digit reg :: emitImm imm n) =
      if n = m then some (emitImm imm n) else none := by
  obtain ⟨hmod, -, -⟩ := fields_encodeModRM 3 digit reg
  simp only [readImmediate, skipModRM, if_true]
  rw [hmod, if_pos (by decide), bind_some, length_emitImm]
  by_cases h : n = m
  · rw [if_pos h, if_pos h, if_neg fun hm => hn (h.trans hm)]
  · rw [if_neg h, if_neg h]

theorem readImmediate_one (digit reg : BitVec 8) :
    readImmediate (true, 0) [encodeModRM 3 digit reg] = some [1] := by
  obtain ⟨hmod, -, -⟩ := fields_encodeModRM 3 digit reg
  simp only [readImmediate, skipModRM, if_true]
  rw [hmod]
  rfl

theorem emitImm_one (imm : BitVec 64) : emitImm imm 1 = [⟨imm.setWidth 8⟩] := by
  have hlow : BitVec.ofNat 8 imm.toNat = imm.setWidth 8 := by
    apply BitVec.eq_of_toNat_eq
    rw [BitVec.toNat_ofNat, BitVec.toNat_setWidth]
  rw [← hlow]
  rfl

theorem fitsImm8_iff (imm : BitVec 64) : fitsImm8 imm = true ↔ FitsSigned 8 imm := by
  unfold fitsImm8 FitsSigned
  rw [decide_eq_true_iff]
  norm_num
  omega

theorem fitsImm32_iff (imm : BitVec 64) : fitsImm32 imm = true ↔ FitsSigned 32 imm := by
  unfold fitsImm32 FitsSigned
  rw [decide_eq_true_iff]
  norm_num
  omega

theorem decodeImmediate_modRM (prefixes : BitVec 8) (size16 : Bool) (rex : Rex) (forceRex : Bool)
    (opcode : UInt8) (hrex : isRexByte opcode = false) (hlegacy : isLegacyPrefix opcode = false)
    (digit reg : BitVec 8) (imm : BitVec 64) {n m : ℕ} (hn : n ≠ 0)
    (hlayout : immediateLayout
      (operandSize rex.w (decide (prefixes &&& EncPrefix66 ≠ 0 ∨ size16 = true))) opcode =
        some (true, m)) :
    decodeImmediate (emitLegacyPrefixes prefixes size16 ++ emitRex rex forceRex ++
        [opcode, encodeModRM 3 digit reg] ++ emitImm imm n) =
      if n = m then some (emitImm imm n) else none := by
  have hdecode := decodeImmediate_emit prefixes size16 rex forceRex hrex hlegacy
    (encodeModRM 3 digit reg :: emitImm imm n)
  rw [hlayout, bind_some, readImmediate_modRM digit reg imm hn m] at hdecode
  rw [← hdecode]
  simp only [append_assoc, cons_append, nil_append]

theorem shortOpcode_wide (reg : BitVec 8) :
    shortOpcode 0xB8 reg &&& 0xF8 = 0xB8 ∧ isRexByte (shortOpcode 0xB8 reg) = false ∧
      isLegacyPrefix (shortOpcode 0xB8 reg) = false := by
  revert reg
  decide +kernel

theorem shortOpcode_byte (reg : BitVec 8) :
    shortOpcode 0xB0 reg &&& 0xF8 = 0xB0 ∧ isRexByte (shortOpcode 0xB0 reg) = false ∧
      isLegacyPrefix (shortOpcode 0xB0 reg) = false := by
  revert reg
  decide +kernel

theorem readImmediate_short (imm : BitVec 64) {n : ℕ} (hn : n ≠ 0) :
    readImmediate (false, n) (emitImm imm n) = some (emitImm imm n) := by
  unfold readImmediate
  simp [hn]

theorem decodeImmediate_short (size16 : Bool) (rex : Rex) (forceRex : Bool) (reg : BitVec 8)
    (imm : BitVec 64) {n : ℕ} (hsize : operandSize rex.w size16 = n) (hn : n ≠ 0) :
    decodeImmediate (emitLegacyPrefixes 0 size16 ++
        (emitRex rex forceRex ++ shortOpcode 0xB8 reg :: emitImm imm n)) =
      some (emitImm imm n) := by
  obtain ⟨hmask, hrex, hlegacy⟩ := shortOpcode_wide reg
  have hbits : decide ((0 : BitVec 8) &&& EncPrefix66 ≠ 0 ∨ size16 = true) = size16 := by
    cases size16 <;> rfl
  rw [decodeImmediate_emit 0 size16 rex forceRex hrex hlegacy, hbits, hsize]
  unfold immediateLayout
  rw [hmask, if_neg (by decide), if_pos rfl]
  exact readImmediate_short imm hn

theorem decodeImmediate_byte (rex : Rex) (forceRex : Bool) (reg : BitVec 8) (imm : BitVec 64) :
    decodeImmediate (emitLegacyPrefixes 0 false ++
        (emitRex rex forceRex ++ shortOpcode 0xB0 reg :: emitImm imm 1)) =
      some (emitImm imm 1) := by
  obtain ⟨hmask, hrex, hlegacy⟩ := shortOpcode_byte reg
  rw [decodeImmediate_emit 0 false rex forceRex hrex hlegacy]
  unfold immediateLayout
  rw [hmask, if_pos rfl]
  exact readImmediate_short imm Nat.one_ne_zero

/-! ## The forms -/

section Forms

variable (desc : EncodingDesc) (operands : List ResolvedOperand)

theorem encodeAluImmForm_holds (regOp immOp : ResolvedOperand) (hform : desc.form = .Ri)
    (hreg : resolve desc operands .RmReg = some regOp) (hkind : regOp.kind = .Register)
    (himm : resolveFirst desc operands [.Imm8Signed, .Imm32] = some immOp) :
    ∃ bytes, encodeAluImmForm desc operands = some bytes ∧
      (HoldsImmediate .signed (sizeBits desc operands) immOp.imm bytes ↔
        ImmediateFits .signed desc operands immOp.imm) := by
  unfold encodeAluImmForm ImmediateFits sizeBits
  rw [hreg, himm, hform]
  dsimp only
  rw [if_pos hkind]
  refine ⟨_, rfl, ?_⟩
  generalize hsize : resolveSize desc operands = sizeBytes
  by_cases hbyte : sizeBytes = 1
  · subst hbyte
    refine iff_of_true ?_ (Or.inl rfl)
    exact holdsImmediate_of_le (by decide) (by decide)
      ((decodeImmediate_modRM desc.prefixes false _ _ 0x80 rfl rfl desc.digit _ immOp.imm
        (by decide) rfl).trans (if_pos rfl)) (by decide)
  have hne : ¬(sizeBytes = 1 ∨ fitsImm8 immOp.imm = true) ↔ fitsImm8 immOp.imm ≠ true := by
    rw [or_iff_right hbyte]
  rw [if_neg hbyte]
  by_cases hshort : FitsSigned 8 immOp.imm
  · refine iff_of_true ?_ (Or.inr (Or.inl hshort))
    have hfits := (fitsImm8_iff immOp.imm).mpr hshort
    rw [if_pos hfits, if_pos (Or.inr hfits)]
    exact holdsImmediate_of_fits (by decide) (by decide)
      ((decodeImmediate_modRM desc.prefixes _ _ _ 0x83 rfl rfl desc.digit _ immOp.imm
        (by decide) rfl).trans (if_pos rfl)) hshort _
  · have hfits : ¬fitsImm8 immOp.imm = true := fun h => hshort ((fitsImm8_iff immOp.imm).mp h)
    rw [if_neg hfits, if_neg (hne.mpr hfits)]
    simp only [hbyte, hshort, false_or]
    have hwide (n : ℕ) (hn : n ≠ 0) (size16 : Bool) (rex : Rex) (forceRex : Bool) :=
      decodeImmediate_modRM desc.prefixes size16 rex forceRex 0x81 rfl rfl desc.digit
        (low3 regOp.reg) immOp.imm hn rfl
    by_cases htwo : sizeBytes = 2
    · subst htwo
      have hdecode := hwide 2 (by decide) true
      cases hw : rexWanted desc.rexW 2 with
      | true =>
        refine iff_of_false (not_holdsImmediate _ ((hdecode _ _).trans ?_) _) (by simp)
        exact if_neg (by simp [operandSize])
      | false =>
        refine iff_of_true ?_ (Or.inl ⟨rfl, rfl⟩)
        exact holdsImmediate_of_le (by decide) (by decide)
          ((hdecode _ _).trans (if_pos (by simp [operandSize]))) (by decide)
    · have hdecode := hwide 4 (by decide) false
      simp only [htwo, decide_false, false_and, false_or, if_false, ne_eq, not_false_eq_true,
        true_and]
      by_cases hagree : rexWanted desc.rexW sizeBytes = true ∨ desc.prefixes &&& EncPrefix66 = 0
      · rw [and_iff_left hagree]
        refine holdsImmediate_signed_iff (by decide) (by decide) ((hdecode _ _).trans (if_pos ?_)) _
        rcases hagree with hw | h66
        · simp [operandSize, hw]
        · by_cases hw : rexWanted desc.rexW sizeBytes = true <;> simp [operandSize, hw, h66]
      · refine iff_of_false (not_holdsImmediate _ ((hdecode _ _).trans (if_neg ?_)) _)
          fun h => hagree h.2
        obtain ⟨hw, h66⟩ := not_or.mp hagree
        have hlegacy : ¬desc.prefixes &&& EncPrefix66 = 0#8 := h66
        simp [operandSize, hw, hlegacy]

theorem decode_encodeShiftForm (regOp immOp : ResolvedOperand) (hcl : desc.shiftByCL = false)
    (hreg : resolve desc operands .RmReg = some regOp) (hkind : regOp.kind = .Register)
    (himm : resolveFirst desc operands [.Imm8, .Imm8Signed] = some immOp) :
    ∃ bytes, encodeShiftForm desc operands = some bytes ∧
      decodeImmediate bytes = some (emitImm immOp.imm 1) := by
  have hamount : emitImm immOp.imm 1 = [⟨immOp.imm.setWidth 8⟩] := emitImm_one immOp.imm
  unfold encodeShiftForm
  rw [hreg, himm]
  dsimp only
  rw [if_pos hkind, hcl]
  simp only [Bool.false_eq_true, if_false, map_some]
  refine ⟨_, rfl, ?_⟩
  have hdecode (opcode : UInt8) (rest : List UInt8) (n : ℕ)
      (hrex : isRexByte opcode = false) (hlegacy : isLegacyPrefix opcode = false)
      (hlayout : ∀ size, immediateLayout size opcode = some (true, n)) :=
    (decodeImmediate_emit desc.prefixes (decide (resolveSize desc operands = 2))
      ⟨rexWanted desc.rexW (resolveSize desc operands), false, false, extBit regOp.reg⟩
      (forcesRex desc (resolveSize desc operands) regOp.reg) hrex hlegacy
      (encodeModRM 3 desc.digit (low3 regOp.reg) :: rest)).trans
        (congrArg (fun layout => layout.bind fun l =>
          readImmediate l (encodeModRM 3 desc.digit (low3 regOp.reg) :: rest)) (hlayout _))
  split
  next hone =>
    rw [hamount, hone, append_assoc]
    split
    · exact (hdecode 0xD0 [] 0 rfl rfl fun _ => rfl).trans (readImmediate_one desc.digit _)
    · exact (hdecode 0xD1 [] 0 rfl rfl fun _ => rfl).trans (readImmediate_one desc.digit _)
  next hone =>
    have hfield := readImmediate_modRM desc.digit (low3 regOp.reg) immOp.imm (by decide : 1 ≠ 0) 1
    rw [if_pos rfl, hamount] at hfield
    rw [hamount, append_assoc]
    split
    · exact (hdecode 0xC0 _ 1 rfl rfl fun _ => rfl).trans hfield
    · exact (hdecode 0xC1 _ 1 rfl rfl fun _ => rfl).trans hfield

theorem encodeShiftForm_holds (extension : Extension) (regOp immOp : ResolvedOperand)
    (hform : desc.form = .Shift) (hcl : desc.shiftByCL = false)
    (hreg : resolve desc operands .RmReg = some regOp) (hkind : regOp.kind = .Register)
    (himm : resolveFirst desc operands [.Imm8, .Imm8Signed] = some immOp) :
    ∃ bytes, encodeShiftForm desc operands = some bytes ∧
      (HoldsImmediate extension (sizeBits desc operands) immOp.imm bytes ↔
        ImmediateFits extension desc operands immOp.imm) := by
  obtain ⟨bytes, hbytes, hdecode⟩ :=
    decode_encodeShiftForm desc operands regOp immOp hcl hreg hkind himm
  refine ⟨bytes, hbytes, ?_⟩
  unfold ImmediateFits
  rw [hform]
  cases extension with
  | signed => exact holdsImmediate_signed_iff (by decide) (by decide) hdecode _
  | unsigned => exact holdsImmediate_unsigned_iff (by decide) hdecode _

theorem encodeMovImmForm_holds (regOp immOp : ResolvedOperand) (hform : desc.form = .MovRI)
    (hreg : resolve desc operands .Reg = some regOp) (hkind : regOp.kind = .Register)
    (himm : resolveFirst desc operands [.Imm8, .Imm16, .Imm32, .Imm64] = some immOp) :
    ∃ bytes, encodeMovImmForm desc operands = some bytes ∧
      (HoldsImmediate .signed (sizeBits desc operands) immOp.imm bytes ↔
        ImmediateFits .signed desc operands immOp.imm) := by
  unfold encodeMovImmForm ImmediateFits sizeBits
  rw [hreg, himm, hform]
  dsimp only
  rw [if_pos hkind]
  generalize resolveSize desc operands = sizeBytes
  -- A REX prefix with the extension of the register alone.
  have hextension : (if extBit regOp.reg = true then [rexByte false false false true] else []) =
      emitRex ⟨false, false, false, extBit regOp.reg⟩ false := by
    cases extBit regOp.reg <;> rfl
  rw [hextension]
  by_cases height : sizeBytes = 8
  · subst height
    rw [if_pos (rfl : (8 : BitVec 8) = 8)]
    split
    next hfits =>
      refine ⟨_, rfl, iff_of_true ?_ (Or.inr (Or.inr (Or.inl rfl)))⟩
      refine holdsImmediate_of_fits (n := 4) (by decide) (by decide) ?_
        ((fitsImm32_iff _).mp hfits) _
      exact (decodeImmediate_modRM 0 false ⟨true, false, false, extBit regOp.reg⟩ false 0xC7
        rfl rfl 0 _ immOp.imm (by decide) rfl).trans (if_pos rfl)
    next =>
      refine ⟨_, rfl, iff_of_true ?_ (Or.inr (Or.inr (Or.inl rfl)))⟩
      exact holdsImmediate_of_le (by decide) (by decide)
        (decodeImmediate_short (n := 8) false ⟨true, false, false, extBit regOp.reg⟩ false
          regOp.reg immOp.imm rfl (by decide)) (by decide)
  · rw [if_neg height]
    by_cases hfour : sizeBytes = 4
    · subst hfour
      rw [if_pos (rfl : (4 : BitVec 8) = 4)]
      refine ⟨_, rfl, iff_of_true ?_ (Or.inr (Or.inl rfl))⟩
      rw [append_assoc]
      exact holdsImmediate_of_le (by decide) (by decide)
        (decodeImmediate_short (n := 4) false ⟨false, false, false, extBit regOp.reg⟩ false
          regOp.reg immOp.imm rfl (by decide)) (by decide)
    · rw [if_neg hfour]
      by_cases htwo : sizeBytes = 2
      · subst htwo
        rw [if_pos (rfl : (2 : BitVec 8) = 2)]
        refine ⟨_, rfl, iff_of_true ?_ (Or.inl rfl)⟩
        rw [append_assoc, append_assoc]
        exact holdsImmediate_of_le (by decide) (by decide)
          (decodeImmediate_short (n := 2) true ⟨false, false, false, extBit regOp.reg⟩ false
            regOp.reg immOp.imm rfl (by decide)) (by decide)
      · rw [if_neg htwo]
        refine ⟨_, rfl, ?_⟩
        simp only [height, hfour, htwo, false_or]
        have hrex : (if extBit regOp.reg = true ∨ 4 ≤ low4 regOp.reg then
            [rexByte false false false (extBit regOp.reg)] else []) =
            emitRex ⟨false, false, false, extBit regOp.reg⟩ (decide (4 ≤ low4 regOp.reg)) := by
          unfold emitRex Rex.isNeeded
          simp only [Bool.false_or, Bool.or_eq_true, decide_eq_true_eq]
          rfl
        rw [hrex, append_assoc]
        exact holdsImmediate_signed_iff (by decide) (by decide)
          (decodeImmediate_byte _ _ regOp.reg immOp.imm) _

end Forms

/-! ## Exactness -/

section Exactness

variable (extension : Extension) (desc : EncodingDesc) (operands : List ResolvedOperand)

theorem encodeForm_ri {desc : EncodingDesc} (h : desc.form = .Ri)
    (operands : List ResolvedOperand) :
    encodeForm desc operands = (encodeAluImmForm desc operands).map fun b => (b, .empty) := by
  unfold encodeForm
  rw [h]

theorem encodeForm_movRI {desc : EncodingDesc} (h : desc.form = .MovRI)
    (operands : List ResolvedOperand) :
    encodeForm desc operands = (encodeMovImmForm desc operands).map fun b => (b, .empty) := by
  unfold encodeForm
  rw [h]

theorem encodeForm_shift {desc : EncodingDesc} (h : desc.form = .Shift)
    (operands : List ResolvedOperand) :
    encodeForm desc operands = (encodeShiftForm desc operands).map fun b => (b, .empty) := by
  unfold encodeForm
  rw [h]

theorem kind_ne_register {op : Option ResolvedOperand} {regOp : ResolvedOperand}
    (hnone : (op.filter fun o => decide (o.kind = .Register)) = none) (hop : op = some regOp) :
    regOp.kind ≠ .Register := by
  intro hregister
  rw [hop] at hnone
  simp [hregister] at hnone

theorem encodeForm_holds (hform : TakesImmediate extension desc) (regOp immOp : ResolvedOperand)
    (hreg : registerOperand desc operands = some regOp)
    (himm : immediateOperand desc operands = some immOp) :
    ∃ bytes, encodeForm desc operands = some (bytes, .empty) ∧
      (HoldsImmediate extension (sizeBits desc operands) immOp.imm bytes ↔
        ImmediateFits extension desc operands immOp.imm) := by
  unfold registerOperand at hreg
  obtain ⟨hreg, hkind⟩ := filter_eq_some_iff.mp hreg
  rw [decide_eq_true_iff] at hkind
  unfold immediateOperand at himm
  rcases hform with ⟨hri | hmov, rfl⟩ | ⟨hshift, hcl⟩
  · rw [hri] at himm hreg
    obtain ⟨bytes, hbytes, hholds⟩ :=
      encodeAluImmForm_holds desc operands regOp immOp hri hreg hkind himm
    rw [encodeForm_ri hri, hbytes]
    exact ⟨bytes, rfl, hholds⟩
  · rw [hmov] at himm hreg
    obtain ⟨bytes, hbytes, hholds⟩ :=
      encodeMovImmForm_holds desc operands regOp immOp hmov hreg hkind himm
    rw [encodeForm_movRI hmov, hbytes]
    exact ⟨bytes, rfl, hholds⟩
  · rw [hshift] at himm hreg
    obtain ⟨bytes, hbytes, hholds⟩ :=
      encodeShiftForm_holds desc operands extension regOp immOp hshift hcl hreg hkind himm
    rw [encodeForm_shift hshift, hbytes]
    exact ⟨bytes, rfl, hholds⟩

theorem encodeForm_missing (hform : TakesImmediate extension desc)
    (h : registerOperand desc operands = none ∨ immediateOperand desc operands = none) :
    encodeForm desc operands = none := by
  unfold registerOperand immediateOperand at h
  rcases hform with ⟨hri | hmov, rfl⟩ | ⟨hshift, hcl⟩
  · rw [hri] at h
    rw [encodeForm_ri hri, map_eq_none_iff]
    unfold encodeAluImmForm
    cases hreg : resolve desc operands .RmReg with
    | none => rfl
    | some regOp =>
      cases himm : resolveFirst desc operands [.Imm8Signed, .Imm32] with
      | none => rfl
      | some immOp =>
        exact if_neg (kind_ne_register (h.resolve_right fun hn => by simp [himm] at hn) hreg)
  · rw [hmov] at h
    rw [encodeForm_movRI hmov, map_eq_none_iff]
    unfold encodeMovImmForm
    cases hreg : resolve desc operands .Reg with
    | none => rfl
    | some regOp =>
      cases himm : resolveFirst desc operands [.Imm8, .Imm16, .Imm32, .Imm64] with
      | none => rfl
      | some immOp =>
        exact if_neg (kind_ne_register (h.resolve_right fun hn => by simp [himm] at hn) hreg)
  · rw [hshift] at h
    rw [encodeForm_shift hshift, map_eq_none_iff]
    unfold encodeShiftForm
    cases hreg : resolve desc operands .RmReg with
    | none => rfl
    | some regOp =>
      cases himm : resolveFirst desc operands [.Imm8, .Imm8Signed] with
      | none => simp [hcl]
      | some immOp =>
        exact if_neg (kind_ne_register (h.resolve_right fun hn => by simp [himm] at hn) hreg)

variable {extension desc operands} in
theorem ImmediateExact.holds (h : ImmediateExact extension desc operands) {bytes : List UInt8}
    {result : EncodeResult} (hbytes : encodeForm desc operands = some (bytes, result))
    {immOp : ResolvedOperand} (himm : immediateOperand desc operands = some immOp) :
    HoldsImmediate extension (sizeBits desc operands) immOp.imm bytes := by
  have hencode : encode desc operands [] = (true, bytes, result) := by
    unfold encode
    rw [hbytes]
    rfl
  rcases h [] with ⟨hfail, -⟩ | ⟨-, bytes', field, immOp', hout, hdecode, himm', heq⟩
  · rw [hencode] at hfail
    cases hfail
  · rw [hencode] at hout
    have hsame : bytes = bytes' := hout
    rw [himm] at himm'
    obtain rfl := some.inj himm'
    exact ⟨field, hsame ▸ hdecode, heq⟩

/-- The immediate forms are exact on the immediates that they can hold, and only on them. -/
theorem immediateExact_iff (hform : TakesImmediate extension desc) :
    ImmediateExact extension desc operands ↔
      ∀ regOp immOp, registerOperand desc operands = some regOp →
        immediateOperand desc operands = some immOp →
          ImmediateFits extension desc operands immOp.imm := by
  constructor
  · intro h regOp immOp hreg himm
    obtain ⟨bytes, hbytes, hholds⟩ :=
      encodeForm_holds extension desc operands hform regOp immOp hreg himm
    exact hholds.mp (h.holds hbytes himm)
  · intro h out
    unfold encode
    cases hreg : registerOperand desc operands with
    | none =>
      rw [encodeForm_missing extension desc operands hform (Or.inl hreg)]
      exact Or.inl ⟨rfl, rfl⟩
    | some regOp =>
      cases himm : immediateOperand desc operands with
      | none =>
        rw [encodeForm_missing extension desc operands hform (Or.inr himm)]
        exact Or.inl ⟨rfl, rfl⟩
      | some immOp =>
        obtain ⟨bytes, hbytes, hholds⟩ :=
          encodeForm_holds extension desc operands hform regOp immOp hreg himm
        obtain ⟨field, hdecode, heq⟩ := hholds.mpr (h regOp immOp hreg himm)
        rw [hbytes]
        exact Or.inr ⟨rfl, bytes, field, immOp, rfl, hdecode, rfl, heq⟩

end Exactness

/-- The description of a 64-bit addition of an immediate. -/
def ADD64ri : EncodingDesc where
  form := .Ri
  prefixes := 0
  rexW := 1
  digit := 0
  opcode := [0x83]
  operands := [⟨.RmReg, 0⟩, ⟨.Imm8Signed, 2⟩]
  sizeOperand := 0
  shiftByCL := false
  byteRex := false
  condCode := 0
  hasSseVariant := false
  ssePrefixes := 0
  sseOpcode := []
  vexL := 0xFF
  vexW := 0

def registerRAX : ResolvedOperand :=
  ⟨.Register, 0, false, 8, 0, ⟨NoReg, NoReg, 1, 0, false, false⟩, false⟩

def immediateOf (imm : BitVec 64) : ResolvedOperand :=
  ⟨.Immediate, 0, false, 8, imm, ⟨NoReg, NoReg, 1, 0, false, false⟩, false⟩

theorem immediateExact_iff_add : TakesImmediate .signed ADD64ri ∧
      (ImmediateExact .signed ADD64ri [registerRAX, registerRAX, immediateOf 5] ↔ ∀ regOp immOp,
          registerOperand ADD64ri [registerRAX, registerRAX, immediateOf 5] = some regOp →
          immediateOperand ADD64ri [registerRAX, registerRAX, immediateOf 5] = some immOp →
            ImmediateFits .signed ADD64ri [registerRAX, registerRAX, immediateOf 5] immOp.imm) :=
  ⟨Or.inl ⟨Or.inl rfl, rfl⟩, immediateExact_iff .signed ADD64ri _ (Or.inl ⟨Or.inl rfl, rfl⟩)⟩

/-- Adding 2 ^ 31 emits a field that is extended to -2 ^ 31. -/
theorem add_large_not_exact : TakesImmediate .signed ADD64ri ∧ ¬ImmediateExact .signed ADD64ri
        [registerRAX, registerRAX, immediateOf 0x80000000] := by
  refine ⟨Or.inl ⟨Or.inl rfl, rfl⟩, fun h => ?_⟩
  obtain ⟨bytes, hbytes, hholds⟩ := encodeForm_holds .signed ADD64ri
    [registerRAX, registerRAX, immediateOf 0x80000000] (Or.inl ⟨Or.inl rfl, rfl⟩)
    registerRAX (immediateOf 0x80000000) (by decide) (by decide)
  have hfits := hholds.mp (h.holds hbytes (by decide))
  rcases hfits with hbyte | hshort | ⟨htwo, -⟩ | ⟨-, hwide, -⟩
  · exact absurd hbyte (by decide)
  · exact absurd hshort (by decide)
  · exact absurd htwo (by decide)
  · exact absurd hwide (by decide)

end EzPacker.X86
