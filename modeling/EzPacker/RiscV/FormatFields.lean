import EzPacker.Lib.Correspondence
import EzPacker.RiscV.Words

/-!
# The fields of the formats

Reading the fields of a word that the encoder put together. A field gives back the low
bits of what was put in it.
-/

namespace EzPacker.RiscV

open BitVec

/-! ## Immediates of the formats -/

def iImm (word : BitVec 32) : BitVec 12 := word.extractLsb' 20 12

def sImm (word : BitVec 32) : BitVec 12 :=
  ((word.extractLsb' 25 7).setWidth 12 <<< 5) ||| (word.extractLsb' 7 5).setWidth 12

def uImm (word : BitVec 32) : BitVec 20 := word.extractLsb' 12 20

def shamt5Of (word : BitVec 32) : BitVec 5 := word.extractLsb' 20 5

def shamt6Of (word : BitVec 32) : BitVec 6 := word.extractLsb' 20 6

def funct6Of (word : BitVec 32) : BitVec 6 := word.extractLsb' 26 6

/-! ## Words with their fields -/

section

variable (imm : BitVec 64) (funct7 rs2 rs1 funct3 rd opcode : BitVec 8)

theorem fields_rTypeWord :
    opcodeOf (rTypeWord funct7 rs2 rs1 funct3 rd opcode) = opcode.setWidth 7 ∧
      rdOf (rTypeWord funct7 rs2 rs1 funct3 rd opcode) = rd.setWidth 5 ∧
      funct3Of (rTypeWord funct7 rs2 rs1 funct3 rd opcode) = funct3.setWidth 3 ∧
      rs1Of (rTypeWord funct7 rs2 rs1 funct3 rd opcode) = rs1.setWidth 5 ∧
      rs2Of (rTypeWord funct7 rs2 rs1 funct3 rd opcode) = rs2.setWidth 5 ∧
      funct7Of (rTypeWord funct7 rs2 rs1 funct3 rd opcode) = funct7.setWidth 7 := by
  unfold rTypeWord opcodeOf rdOf funct3Of rs1Of rs2Of funct7Of
  refine ⟨?_, ?_, ?_, ?_, ?_, ?_⟩ <;>
    · apply eq_of_getLsbD_eq
      intro i hi
      interval_cases i <;> simp

/-- The function field is put over the immediate. -/
theorem iTypeWord_eq : iTypeWord imm funct7 rs1 funct3 rd opcode =
      ((imm.setWidth 32 &&& 0xFFF) <<< 20) |||
      ((rs1.setWidth 32 &&& 0x1F) <<< 15) |||
      ((funct3.setWidth 32 &&& 0x7) <<< 12) |||
      ((rd.setWidth 32 &&& 0x1F) <<< 7) |||
      (opcode.setWidth 32 &&& 0x7F) ||| ((funct7.setWidth 32 &&& 0x7F) <<< 25) := by
  unfold iTypeWord
  dsimp only
  by_cases h : funct7 = 0
  · subst h
    rw [if_neg (by decide)]
    exact (or_zero).symm
  · exact if_pos h

theorem fields_iTypeWord :
    opcodeOf (iTypeWord imm funct7 rs1 funct3 rd opcode) = opcode.setWidth 7 ∧
      rdOf (iTypeWord imm funct7 rs1 funct3 rd opcode) = rd.setWidth 5 ∧
      funct3Of (iTypeWord imm funct7 rs1 funct3 rd opcode) = funct3.setWidth 3 ∧
      rs1Of (iTypeWord imm funct7 rs1 funct3 rd opcode) = rs1.setWidth 5 := by
  rw [iTypeWord_eq]
  unfold opcodeOf rdOf funct3Of rs1Of
  refine ⟨?_, ?_, ?_, ?_⟩ <;>
    · apply eq_of_getLsbD_eq
      intro i hi
      interval_cases i <;> simp

theorem iImm_iTypeWord : iImm (iTypeWord imm funct7 rs1 funct3 rd opcode) =
      imm.setWidth 12 ||| (funct7.setWidth 12 <<< 5) := by
  rw [iTypeWord_eq]
  unfold iImm
  apply eq_of_getLsbD_eq
  intro i hi
  interval_cases i <;> simp

theorem shamt5Of_iTypeWord :
    shamt5Of (iTypeWord imm funct7 rs1 funct3 rd opcode) = imm.setWidth 5 := by
  rw [iTypeWord_eq]
  unfold shamt5Of
  apply eq_of_getLsbD_eq
  intro i hi
  interval_cases i <;> simp

theorem funct7Of_iTypeWord : funct7Of (iTypeWord imm funct7 rs1 funct3 rd opcode) =
      (imm >>> 5).setWidth 7 ||| funct7.setWidth 7 := by
  rw [iTypeWord_eq]
  unfold funct7Of
  apply eq_of_getLsbD_eq
  intro i hi
  interval_cases i <;> simp

theorem shamt6Of_iTypeWord : shamt6Of (iTypeWord imm funct7 rs1 funct3 rd opcode) =
      imm.setWidth 6 ||| (funct7.setWidth 6 <<< 5) := by
  rw [iTypeWord_eq]
  unfold shamt6Of
  apply eq_of_getLsbD_eq
  intro i hi
  interval_cases i <;> simp

theorem funct6Of_iTypeWord : funct6Of (iTypeWord imm funct7 rs1 funct3 rd opcode) =
      (imm >>> 6).setWidth 6 ||| (funct7 >>> 1).setWidth 6 := by
  rw [iTypeWord_eq]
  unfold funct6Of
  apply eq_of_getLsbD_eq
  intro i hi
  interval_cases i <;> simp

theorem fields_sTypeWord : opcodeOf (sTypeWord imm rs2 rs1 funct3 opcode) = opcode.setWidth 7 ∧
      funct3Of (sTypeWord imm rs2 rs1 funct3 opcode) = funct3.setWidth 3 ∧
      rs1Of (sTypeWord imm rs2 rs1 funct3 opcode) = rs1.setWidth 5 ∧
      rs2Of (sTypeWord imm rs2 rs1 funct3 opcode) = rs2.setWidth 5 ∧
      sImm (sTypeWord imm rs2 rs1 funct3 opcode) = imm.setWidth 12 := by
  unfold sTypeWord opcodeOf funct3Of rs1Of rs2Of sImm
  refine ⟨?_, ?_, ?_, ?_, ?_⟩ <;>
    · apply eq_of_getLsbD_eq
      intro i hi
      interval_cases i <;> simp

theorem fields_bTypeWord : opcodeOf (bTypeWord imm rs2 rs1 funct3 opcode) = opcode.setWidth 7 ∧
      funct3Of (bTypeWord imm rs2 rs1 funct3 opcode) = funct3.setWidth 3 ∧
      rs1Of (bTypeWord imm rs2 rs1 funct3 opcode) = rs1.setWidth 5 ∧
      rs2Of (bTypeWord imm rs2 rs1 funct3 opcode) = rs2.setWidth 5 ∧
      branchDisp (bTypeWord imm rs2 rs1 funct3 opcode) = imm.setWidth 13 &&& ~~~1 := by
  unfold bTypeWord encodeBImm opcodeOf funct3Of rs1Of rs2Of branchDisp
  refine ⟨?_, ?_, ?_, ?_, ?_⟩ <;>
    · apply eq_of_getLsbD_eq
      intro i hi
      interval_cases i <;> simp

theorem fields_jTypeWord : opcodeOf (jTypeWord imm rd opcode) = opcode.setWidth 7 ∧
      rdOf (jTypeWord imm rd opcode) = rd.setWidth 5 ∧
      jumpDisp (jTypeWord imm rd opcode) = imm.setWidth 21 &&& ~~~1 := by
  unfold jTypeWord encodeJImm opcodeOf rdOf jumpDisp
  refine ⟨?_, ?_, ?_⟩ <;>
    · apply eq_of_getLsbD_eq
      intro i hi
      interval_cases i <;> simp

/-- The value that is put in the upper bits. -/
def upperOf (imm : BitVec 64) : BitVec 20 :=
  if imm.setWidth 32 ≤ 0xFFFFF#32 then imm.setWidth 20 else (imm >>> 12).setWidth 20

theorem fields_uTypeWord : opcodeOf (uTypeWord imm rd opcode) = opcode.setWidth 7 ∧
      rdOf (uTypeWord imm rd opcode) = rd.setWidth 5 ∧
      uImm (uTypeWord imm rd opcode) = upperOf imm := by
  unfold uTypeWord opcodeOf rdOf uImm upperOf
  split <;>
    · refine ⟨?_, ?_, ?_⟩ <;>
        · apply eq_of_getLsbD_eq
          intro i hi
          interval_cases i <;> simp

end

/-!
## What an encoded instruction says

The fields of an encoded word are the registers, the function fields and the immediate
of the operands exactly when all of them fit. The encoder cuts off what does not fit and
puts the function field of a shift over the bits above its amount.
-/

/-! ## The operands of an instruction -/

def ResolvedOperand.register (op : ResolvedOperand) (slot : EncSlotKind) : BitVec 8 :=
  if slot = .Rs1 ∧ op.kind = .Memory then op.mem.base else op.reg

/-- The register that is bound to a slot, the last one if there are several. -/
def registerOf (desc : EncodingDesc) (operands : List ResolvedOperand) (slot : EncSlotKind) :
    BitVec 8 :=
  (((boundOperands desc operands).reverse.find? (·.1.slot = slot)).map (·.2.register slot)).getD 0

/-- The binding brings an immediate; a memory operand brings its displacement. -/
def givesImmediate (b : EncOperandBinding × ResolvedOperand) : Bool :=
  match b.1.slot with
  | .Rs1 => b.2.kind = .Memory
  | .Rd | .Rs2 | .Rs3 | .None => false
  | _ => true

def immediateIn (b : EncOperandBinding × ResolvedOperand) : BitVec 64 :=
  match b.1.slot with
  | .Imm12Branch | .Imm20Jump | .Rel | .Imm20Upper => b.2.imm
  | _ => if b.2.kind = .Memory then b.2.mem.disp else b.2.imm

def immediateBinding (desc : EncodingDesc) (operands : List ResolvedOperand) :
    Option (EncOperandBinding × ResolvedOperand) :=
  (boundOperands desc operands).reverse.find? givesImmediate

def immediateOf (desc : EncodingDesc) (operands : List ResolvedOperand) : BitVec 64 :=
  ((immediateBinding desc operands).map immediateIn).getD 0

def immediateSlot (desc : EncodingDesc) (operands : List ResolvedOperand) : EncSlotKind :=
  ((immediateBinding desc operands).map (·.1.slot)).getD .None

section

variable (desc : EncodingDesc) (operands : List ResolvedOperand)

/-! One binding sets the value of its slot. -/

section

variable (values : SlotValues) (b : EncOperandBinding × ResolvedOperand)
include values b

theorem rd_bind : (values.bind desc b).rd =
      if b.1.slot = .Rd then b.2.register .Rd &&& 0x1F else values.rd := by
  obtain ⟨⟨slot, index⟩, op⟩ := b
  unfold SlotValues.bind ResolvedOperand.register
  cases slot <;> by_cases hmem : op.kind = .Memory <;> simp [hmem]

theorem rs1_bind : (values.bind desc b).rs1 =
      if b.1.slot = .Rs1 then b.2.register .Rs1 &&& 0x1F else values.rs1 := by
  obtain ⟨⟨slot, index⟩, op⟩ := b
  unfold SlotValues.bind ResolvedOperand.register
  cases slot <;> by_cases hmem : op.kind = .Memory <;> simp [hmem]

theorem rs2_bind : (values.bind desc b).rs2 =
      if b.1.slot = .Rs2 then b.2.register .Rs2 &&& 0x1F else values.rs2 := by
  obtain ⟨⟨slot, index⟩, op⟩ := b
  unfold SlotValues.bind ResolvedOperand.register
  cases slot <;> by_cases hmem : op.kind = .Memory <;> simp [hmem]

theorem imm_bind : (values.bind desc b).imm =
      if givesImmediate b then immediateIn b else values.imm := by
  obtain ⟨⟨slot, index⟩, op⟩ := b
  unfold SlotValues.bind givesImmediate immediateIn
  cases slot <;> by_cases hmem : op.kind = .Memory <;> simp [hmem]

end

theorem collect_register {slot : EncSlotKind} {get : SlotValues → BitVec 8}
    (hbind : ∀ (values : SlotValues) (b : EncOperandBinding × ResolvedOperand),
      get (values.bind desc b) =
        if b.1.slot = slot then b.2.register slot &&& 0x1F else get values)
    (hinitial : get .initial = 0) :
    get (collect desc operands) = registerOf desc operands slot &&& 0x1F := by
  have hlast := LastWrite.val_foldl (SlotValues.bind desc) get
    (fun b : EncOperandBinding × ResolvedOperand => decide (b.1.slot = slot))
    (fun b => b.2.register slot &&& 0x1F)
    (List.forall₂_same.mpr fun b (_ : b ∈ boundOperands desc operands) values => by
      rw [hbind]
      by_cases h : b.1.slot = slot <;> simp [h]) .initial
  unfold collect registerOf
  rw [hlast, hinitial]
  cases (boundOperands desc operands).reverse.find? _ with
  | none => exact (zero_and).symm
  | some b => rfl

theorem rd_collect : (collect desc operands).rd = registerOf desc operands .Rd &&& 0x1F :=
  collect_register desc operands (rd_bind desc) rfl

theorem rs1_collect : (collect desc operands).rs1 = registerOf desc operands .Rs1 &&& 0x1F :=
  collect_register desc operands (rs1_bind desc) rfl

theorem rs2_collect : (collect desc operands).rs2 = registerOf desc operands .Rs2 &&& 0x1F :=
  collect_register desc operands (rs2_bind desc) rfl

theorem imm_collect : (collect desc operands).imm = immediateOf desc operands :=
  LastWrite.val_foldl (SlotValues.bind desc) SlotValues.imm givesImmediate immediateIn
    (List.forall₂_same.mpr fun b _ values => imm_bind desc values b) .initial

end

/-! ## What a word says -/

/-- The immediate of the upper bits is the field itself or the number whose upper bits they
are. -/
inductive UpperReading
  | field
  | shifted
  deriving DecidableEq, Repr

def ReadsUpper (reading : UpperReading) (word : BitVec 32) (imm : BitVec 64) : Prop :=
  match reading with
  | .field => (uImm word).setWidth 64 = imm ∨ (uImm word).signExtend 64 = imm
  | .shifted => ((uImm word).setWidth 32 <<< 12).signExtend 64 = imm

/-- The immediate of the I format, of which a shift has the amount and a function field. -/
def ReadsImmediate (slot : EncSlotKind) (funct7 : BitVec 8) (word : BitVec 32)
    (imm : BitVec 64) : Prop :=
  match slot with
  | .Shamt5 => (shamt5Of word).setWidth 64 = imm ∧ (funct7Of word).setWidth 8 = funct7
  | .Shamt6 => (shamt6Of word).setWidth 64 = imm ∧ (funct6Of word).setWidth 8 <<< 1 = funct7
  | .Csr => (iImm word).setWidth 64 = imm
  | _ => (iImm word).signExtend 64 = imm

def Says (reading : UpperReading) (desc : EncodingDesc) (operands : List ResolvedOperand)
    (word : BitVec 32) : Prop :=
  let reg := registerOf desc operands
  let imm := immediateOf desc operands
  let opcode := (opcodeOf word).setWidth 8 = desc.opcode
  let funct3 := (funct3Of word).setWidth 8 = desc.funct3
  let rd := (rdOf word).setWidth 8 = reg .Rd
  let rs1 := (rs1Of word).setWidth 8 = reg .Rs1
  let rs2 := (rs2Of word).setWidth 8 = reg .Rs2
  match desc.form with
  | .RType => opcode ∧ rd ∧ funct3 ∧ rs1 ∧ rs2 ∧ (funct7Of word).setWidth 8 = desc.funct7
  | .IType => opcode ∧ rd ∧ funct3 ∧ rs1 ∧
      ReadsImmediate (immediateSlot desc operands) desc.funct7 word imm
  | .SType => opcode ∧ funct3 ∧ rs1 ∧ rs2 ∧ (sImm word).signExtend 64 = imm
  | .BType => opcode ∧ funct3 ∧ rs1 ∧ rs2 ∧ (branchDisp word).signExtend 64 = imm
  | .UType => opcode ∧ rd ∧ ReadsUpper reading word imm
  | .JType => opcode ∧ rd ∧ (jumpDisp word).signExtend 64 = imm
  | .None | .Pseudo => False

/-- The encoder fails, or it appends a word that says what was given. -/
def EncodedFaithfully (reading : UpperReading) (desc : EncodingDesc)
    (operands : List ResolvedOperand) (out : List UInt8) : Prop :=
  (encode desc operands out).1 = false ∨ ∃ word result,
    encode desc operands out = (true, emitWord out word, result) ∧ Says reading desc operands word

/-! ## What fits in a word -/

/-- The function field has no bit that the immediate under it has not. -/
def Covers (imm : BitVec 64) (funct7 : BitVec 8) : Prop :=
  ∀ i < 7, funct7.getLsbD i = true → imm.getLsbD (i + 5) = true

def ImmediateFits (slot : EncSlotKind) (funct7 : BitVec 8) (imm : BitVec 64) : Prop :=
  match slot with
  | .Shamt5 => FitsUnsigned 5 imm ∧ FitsUnsigned 7 funct7
  | .Shamt6 => FitsUnsigned 6 imm ∧ FitsUnsigned 7 funct7 ∧ funct7.getLsbD 0 = false
  | .Csr => FitsUnsigned 12 imm ∧ Covers imm funct7
  | _ => FitsSigned 12 imm ∧ Covers imm funct7

/-- The field is below `2 ^ 20` or it is -1; a shifted one is zero, or it has 32 bits, the low
ones zero, and is not below `2 ^ 20`. -/
def UpperFits (reading : UpperReading) (imm : BitVec 64) : Prop :=
  match reading with
  | .field => FitsUnsigned 20 imm ∨ imm = -1
  | .shifted => imm = 0 ∨
      FitsSigned 32 imm ∧ imm.setWidth 12 = 0#12 ∧ ¬FitsUnsigned 20 imm

def Fits (reading : UpperReading) (desc : EncodingDesc) (operands : List ResolvedOperand) : Prop :=
  let reg := registerOf desc operands
  let imm := immediateOf desc operands
  let opcode := FitsUnsigned 7 desc.opcode
  let funct3 := FitsUnsigned 3 desc.funct3
  let rd := FitsUnsigned 5 (reg .Rd)
  let rs1 := FitsUnsigned 5 (reg .Rs1)
  let rs2 := FitsUnsigned 5 (reg .Rs2)
  match desc.form with
  | .RType => opcode ∧ rd ∧ funct3 ∧ rs1 ∧ rs2 ∧ FitsUnsigned 7 desc.funct7
  | .IType => opcode ∧ rd ∧ funct3 ∧ rs1 ∧
      ImmediateFits (immediateSlot desc operands) desc.funct7 imm
  | .SType => opcode ∧ funct3 ∧ rs1 ∧ rs2 ∧ FitsSigned 12 imm
  | .BType => opcode ∧ funct3 ∧ rs1 ∧ rs2 ∧ imm.getLsbD 0 = false ∧ FitsSigned 13 imm
  | .UType => opcode ∧ rd ∧ UpperFits reading imm
  | .JType => opcode ∧ rd ∧ imm.getLsbD 0 = false ∧ FitsSigned 21 imm
  | .None | .Pseudo => True

section

variable (imm : BitVec 64) (funct7 rs1 funct3 rd opcode : BitVec 8)

theorem register_field_iff (x : BitVec 8) :
    ((x &&& 0x1F).setWidth 5).setWidth 8 = x ↔ FitsUnsigned 5 x := by
  have hlow : (x &&& 0x1F).setWidth 5 = x.setWidth 5 := by
    apply eq_of_getLsbD_eq
    intro i hi
    interval_cases i <;> simp
  rw [hlow]
  exact setWidth_setWidth_iff (by decide) x

/-- The immediate under the function field is left when it covers it. -/
theorem covers_iff :
    imm.setWidth 12 ||| (funct7.setWidth 12 <<< 5) = imm.setWidth 12 ↔ Covers imm funct7 := by
  constructor
  · intro h i hi hbit
    have hat := congrArg (fun x => x.getLsbD (i + 5)) h
    clear h
    interval_cases i <;> simp_all
  · intro h
    apply eq_of_getLsbD_eq
    intro i hi
    have hat := h (i - 5)
    interval_cases i <;> simp_all

/-- A field put over an immediate that fits changes it or is covered. -/
theorem extend_or_iff (extend : BitVec 12 → BitVec 64) (hlow : ∀ x, (extend x).setWidth 12 = x) :
    extend (imm.setWidth 12 ||| (funct7.setWidth 12 <<< 5)) = imm ↔
      extend (imm.setWidth 12) = imm ∧ Covers imm funct7 := by
  rw [← covers_iff]
  constructor
  · intro h
    have hcovers := congrArg (setWidth 12) h
    rw [hlow] at hcovers
    exact ⟨hcovers ▸ h, hcovers⟩
  · intro ⟨h, hcovers⟩
    rw [hcovers]
    exact h

theorem readsShamt5_iff : (imm.setWidth 5).setWidth 64 = imm ∧
        ((imm >>> 5).setWidth 7 ||| funct7.setWidth 7).setWidth 8 = funct7 ↔
      FitsUnsigned 5 imm ∧ FitsUnsigned 7 funct7 := by
  rw [setWidth_setWidth_iff (by decide)]
  refine and_congr_right fun himm => ?_
  have hzero : (imm >>> 5).setWidth 7 = 0#7 := by
    apply eq_of_getLsbD_eq
    intro i hi
    simp [himm.getLsbD]
  rw [hzero, zero_or, setWidth_setWidth_iff (by decide)]

theorem readsShamt6_iff : (imm.setWidth 6 ||| (funct7.setWidth 6 <<< 5)).setWidth 64 = imm ∧
        ((imm >>> 6).setWidth 6 ||| (funct7 >>> 1).setWidth 6).setWidth 8 <<< 1 = funct7 ↔
      FitsUnsigned 6 imm ∧ FitsUnsigned 7 funct7 ∧ funct7.getLsbD 0 = false := by
  constructor
  · intro ⟨himm, hfunct⟩
    have hfits : FitsUnsigned 6 imm := by
      rw [← setWidth_setWidth_iff (by decide), ← himm]
      simp
    have heven : funct7.getLsbD 0 = false := by
      rw [← hfunct]
      simp
    refine ⟨hfits, ?_, heven⟩
    rw [← setWidth_setWidth_iff (by decide), ← hfunct]
    apply eq_of_getLsbD_eq
    intro i hi
    interval_cases i <;> simp
  · intro ⟨himm, hfunct, heven⟩
    have hhigh : (imm >>> 6).setWidth 6 = 0#6 := by
      apply eq_of_getLsbD_eq
      intro i hi
      simp [himm.getLsbD]
    have hlow : funct7.setWidth 6 <<< 5 = 0#6 := by
      apply eq_of_getLsbD_eq
      intro i hi
      interval_cases i <;> simp_all
    rw [hhigh, hlow, zero_or, or_zero, setWidth_setWidth_iff (by decide)]
    refine ⟨himm, ?_⟩
    have htop := hfunct.getLsbD (i := 7) (by decide)
    apply eq_of_getLsbD_eq
    intro i hi
    interval_cases i <;> simp_all

theorem readsImmediate_iff (slot : EncSlotKind) :
    ReadsImmediate slot funct7 (iTypeWord imm funct7 rs1 funct3 rd opcode) imm ↔
      ImmediateFits slot funct7 imm := by
  have hsigned := extend_or_iff imm funct7 (signExtend 64) (setWidth_signExtend_of_le (by decide))
  have hunsigned := extend_or_iff imm funct7 (setWidth 64) fun x => by simp
  rw [signExtend_setWidth_iff (by decide) (by decide)] at hsigned
  rw [setWidth_setWidth_iff (by decide)] at hunsigned
  unfold ReadsImmediate ImmediateFits
  rw [shamt5Of_iTypeWord, funct7Of_iTypeWord, shamt6Of_iTypeWord, funct6Of_iTypeWord,
    iImm_iTypeWord]
  cases slot with
  | Shamt5 => exact readsShamt5_iff imm funct7
  | Shamt6 => exact readsShamt6_iff imm funct7
  | Csr => exact hunsigned
  | _ => exact hsigned

end

/-!
## Straight-line code on the registers

The integer registers, of which `zero` is constant, and what the words of the upper immediate, of
the immediate operations and of the register operations that the selector uses do to them.
-/

abbrev Registers := BitVec 5 → BitVec 64

def Registers.read (regs : Registers) (reg : BitVec 5) : BitVec 64 :=
  if reg = 0 then 0 else regs reg

def Registers.write (regs : Registers) (reg : BitVec 5) (value : BitVec 64) : Registers :=
  if reg = 0 then regs else Function.update regs reg value

theorem Registers.read_zero (regs : Registers) : regs.read 0 = 0 := if_pos rfl

theorem Registers.read_write_self (regs : Registers) {reg : BitVec 5} (h : reg ≠ 0)
    (value : BitVec 64) : (regs.write reg value).read reg = value := by
  rw [read, write, if_neg h, if_neg h, Function.update_self]

theorem Registers.read_write_of_ne (regs : Registers) {reg reg' : BitVec 5} (h : reg' ≠ reg)
    (value : BitVec 64) : (regs.write reg value).read reg' = regs.read reg' := by
  unfold read write
  by_cases hzero : reg = 0
  · rw [if_pos hzero]
  · rw [if_neg hzero, Function.update_of_ne h]

def flag (b : Bool) : BitVec 64 := if b then 1 else 0

def opImm (funct3 : BitVec 3) (x imm : BitVec 64) : Option (BitVec 64) :=
  if funct3 = 0 then some (x + imm)
  else if funct3 = 2 then some (flag (x.slt imm))
  else if funct3 = 3 then some (flag (x.ult imm))
  else if funct3 = 4 then some (x ^^^ imm)
  else none

def op (funct7 : BitVec 7) (funct3 : BitVec 3) (x y : BitVec 64) : Option (BitVec 64) :=
  if funct7 = 0x20 ∧ funct3 = 0 then some (x - y)
  else if funct7 = 0 ∧ funct3 = 2 then some (flag (x.slt y))
  else if funct7 = 0 ∧ funct3 = 3 then some (flag (x.ult y))
  else none

/-- The operations on the low 32 bits sign-extend their result. -/
def op32 (funct7 : BitVec 7) (funct3 : BitVec 3) (x y : BitVec 64) : Option (BitVec 64) :=
  if funct7 = 0x20 ∧ funct3 = 0 then some (((x - y).setWidth 32).signExtend 64) else none

def resultOf (word : BitVec 32) (regs : Registers) : Option (BitVec 64) :=
  let x := regs.read (rs1Of word)
  let y := regs.read (rs2Of word)
  if opcodeOf word = 0x37 then some (((uImm word).setWidth 32 <<< 12).signExtend 64)
  else if opcodeOf word = 0x13 then opImm (funct3Of word) x ((iImm word).signExtend 64)
  else if opcodeOf word = 0x33 then op (funct7Of word) (funct3Of word) x y
  else if opcodeOf word = 0x3B then op32 (funct7Of word) (funct3Of word) x y
  else none

def executeWord (word : BitVec 32) (regs : Registers) : Option Registers :=
  (resultOf word regs).map (regs.write (rdOf word))

def runCode : List UInt8 → Registers → Option Registers
  | [], regs => some regs
  | b₀ :: b₁ :: b₂ :: b₃ :: rest, regs =>
    (executeWord (wordOf b₀ b₁ b₂ b₃) regs).bind (runCode rest)
  | _, _ => none

theorem runCode_wordBytes (word : BitVec 32) (rest : List UInt8) (regs : Registers) :
    runCode (wordBytes word ++ rest) regs = (executeWord word regs).bind (runCode rest) := by
  show (executeWord (wordOf _ _ _ _) regs).bind _ = _
  rw [wordOf_wordBytes]
  rfl

section

variable (imm : BitVec 64) (regs : Registers) (rs2 rs1 funct3 rd : BitVec 8)

theorem executeWord_lui : executeWord (uTypeWord imm rd 0x37) regs =
    some (regs.write (rd.setWidth 5) (((upperOf imm).setWidth 32 <<< 12).signExtend 64)) := by
  obtain ⟨hopcode, hrd, himm⟩ := fields_uTypeWord imm rd 0x37
  rw [executeWord, resultOf, hopcode, hrd, himm]
  rfl

theorem executeWord_opImm : executeWord (iTypeWord imm 0 rs1 funct3 rd 0x13) regs =
    (opImm (funct3.setWidth 3) (regs.read (rs1.setWidth 5)) ((imm.setWidth 12).signExtend 64)).map
      (regs.write (rd.setWidth 5)) := by
  obtain ⟨hopcode, hrd, hfunct3, hrs1⟩ := fields_iTypeWord imm 0 rs1 funct3 rd 0x13
  have himm := iImm_iTypeWord imm 0 rs1 funct3 rd 0x13
  have hzero : (0 : BitVec 8).setWidth 12 <<< 5 = 0#12 := by decide
  rw [hzero, or_zero] at himm
  rw [executeWord, resultOf, hopcode, hrd, hfunct3, hrs1, himm]
  rfl

theorem executeWord_op (funct7 : BitVec 8) :
    executeWord (rTypeWord funct7 rs2 rs1 funct3 rd 0x33) regs =
      (op (funct7.setWidth 7) (funct3.setWidth 3) (regs.read (rs1.setWidth 5))
        (regs.read (rs2.setWidth 5))).map (regs.write (rd.setWidth 5)) := by
  obtain ⟨hopcode, hrd, hfunct3, hrs1, hrs2, hfunct7⟩ :=
    fields_rTypeWord funct7 rs2 rs1 funct3 rd 0x33
  rw [executeWord, resultOf, hopcode, hrd, hfunct3, hrs1, hrs2, hfunct7]
  rfl

theorem executeWord_op32 (funct7 : BitVec 8) :
    executeWord (rTypeWord funct7 rs2 rs1 funct3 rd 0x3B) regs =
      (op32 (funct7.setWidth 7) (funct3.setWidth 3) (regs.read (rs1.setWidth 5))
        (regs.read (rs2.setWidth 5))).map (regs.write (rd.setWidth 5)) := by
  obtain ⟨hopcode, hrd, hfunct3, hrs1, hrs2, hfunct7⟩ :=
    fields_rTypeWord funct7 rs2 rs1 funct3 rd 0x3B
  rw [executeWord, resultOf, hopcode, hrd, hfunct3, hrs1, hrs2, hfunct7]
  rfl

end

end EzPacker.RiscV
