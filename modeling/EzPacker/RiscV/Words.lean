import EzPacker.Lib.Bytes
import EzPacker.Lib.SignExtension

/-!
# RISC-V instruction words

The encoder emits words of 32 bits, the least significant byte first. The displacement of
a branch and of a jump is scattered over the word, without its lowest bit; the decoders
read the fields the way the base formats place them.
-/

namespace EzPacker.RiscV

open BitVec

/-! ## Words in the text -/

def byteOf (word : BitVec 32) (i : ℕ) : UInt8 := ⟨((word >>> (8 * i)) &&& 0xFF).setWidth 8⟩

def wordBytes (word : BitVec 32) : List UInt8 :=
  [byteOf word 0, byteOf word 1, byteOf word 2, byteOf word 3]

def emitWord (out : List UInt8) (word : BitVec 32) : List UInt8 := out ++ wordBytes word

def wordOf (b₀ b₁ b₂ b₃ : UInt8) : BitVec 32 :=
  b₀.toBitVec.setWidth 32 ||| (b₁.toBitVec.setWidth 32 <<< 8) |||
    (b₂.toBitVec.setWidth 32 <<< 16) ||| (b₃.toBitVec.setWidth 32 <<< 24)

/-- The word at an offset, `none` past the end of the text. -/
def readWord (bytes : List UInt8) (offset : ℕ) : Option (BitVec 32) := do
  let b₀ ← bytes[offset]?
  let b₁ ← bytes[offset + 1]?
  let b₂ ← bytes[offset + 2]?
  let b₃ ← bytes[offset + 3]?
  return wordOf b₀ b₁ b₂ b₃

/-- The text with a word at an offset, `none` past its end. -/
def writeWord (bytes : List UInt8) (offset : ℕ) (word : BitVec 32) : Option (List UInt8) :=
  if offset + 4 ≤ bytes.length then some (memcpy bytes offset (wordBytes word)) else none

theorem wordOf_wordBytes (word : BitVec 32) :
    wordOf (byteOf word 0) (byteOf word 1) (byteOf word 2) (byteOf word 3) = word := by
  apply eq_of_getLsbD_eq
  intro i hi
  unfold wordOf byteOf
  interval_cases i <;> simp

variable {bytes : List UInt8} {offset : ℕ}

theorem readWord_eq_some {word : BitVec 32} (h : readWord bytes offset = some word) :
    offset + 4 ≤ bytes.length := by
  simp only [readWord, Option.bind_eq_bind, Option.bind_eq_some_iff] at h
  obtain ⟨-, -, -, -, -, -, b₃, hb, -⟩ := h
  exact (List.getElem?_eq_some_iff.mp hb).1

theorem readWord_of_slice {word : BitVec 32} (h : slice bytes offset 4 = wordBytes word) :
    readWord bytes offset = some word := by
  have hget : ∀ i, i < 4 → bytes[offset + i]? = (wordBytes word)[i]? := by
    intro i hi
    rw [← h, slice, List.getElem?_take_of_lt hi, List.getElem?_drop]
  have h₀ := hget 0 (by decide)
  rw [Nat.add_zero] at h₀
  simp only [readWord, h₀, hget 1 (by decide), hget 2 (by decide), hget 3 (by decide)]
  exact congrArg some (wordOf_wordBytes word)

/-- The texts differ in the word at an offset only. -/
structure WordWritten (bytes : List UInt8) (offset : ℕ) (word : BitVec 32)
    (bytes' : List UInt8) : Prop where
  length : bytes'.length = bytes.length
  word : readWord bytes' offset = some word
  frame : ∀ i, i < offset ∨ offset + 4 ≤ i → bytes'[i]? = bytes[i]?

theorem wordWritten_memcpy (h : offset + 4 ≤ bytes.length) (word : BitVec 32) :
    WordWritten bytes offset word (memcpy bytes offset (wordBytes word)) where
  length := length_memcpy h
  word := readWord_of_slice (slice_memcpy_self h)
  frame _ hi := getElem?_memcpy h hi

theorem writeWord_of_le (h : offset + 4 ≤ bytes.length) (word : BitVec 32) :
    writeWord bytes offset word = some (memcpy bytes offset (wordBytes word)) := if_pos h

/-! ## Fields of a word -/

def opcodeOf (word : BitVec 32) : BitVec 7 := word.extractLsb' 0 7

def rdOf (word : BitVec 32) : BitVec 5 := word.extractLsb' 7 5

def funct3Of (word : BitVec 32) : BitVec 3 := word.extractLsb' 12 3

def rs1Of (word : BitVec 32) : BitVec 5 := word.extractLsb' 15 5

def rs2Of (word : BitVec 32) : BitVec 5 := word.extractLsb' 20 5

def funct7Of (word : BitVec 32) : BitVec 7 := word.extractLsb' 25 7

def branchDisp (word : BitVec 32) : BitVec 13 :=
  ((word.extractLsb' 31 1).setWidth 13 <<< 12) ||| ((word.extractLsb' 7 1).setWidth 13 <<< 11) |||
    ((word.extractLsb' 25 6).setWidth 13 <<< 5) ||| ((word.extractLsb' 8 4).setWidth 13 <<< 1)

def jumpDisp (word : BitVec 32) : BitVec 21 :=
  ((word.extractLsb' 31 1).setWidth 21 <<< 20) ||| ((word.extractLsb' 12 8).setWidth 21 <<< 12) |||
    ((word.extractLsb' 20 1).setWidth 21 <<< 11) |||
    ((word.extractLsb' 21 10).setWidth 21 <<< 1)

/-! ## The displacements that the encoder places -/

def encodeBImm (offset : BitVec 32) : BitVec 32 :=
  let imm := offset
  let imm12 := (imm >>> 12) &&& 0x1
  let imm10_5 := (imm >>> 5) &&& 0x3F
  let imm4_1 := (imm >>> 1) &&& 0xF
  let imm11 := (imm >>> 11) &&& 0x1
  (imm12 <<< 31) ||| (imm10_5 <<< 25) ||| (imm4_1 <<< 8) ||| (imm11 <<< 7)

def encodeJImm (offset : BitVec 32) : BitVec 32 :=
  let imm := offset
  let imm20 := (imm >>> 20) &&& 0x1
  let imm10_1 := (imm >>> 1) &&& 0x3FF
  let imm11 := (imm >>> 11) &&& 0x1
  let imm19_12 := (imm >>> 12) &&& 0xFF
  (imm20 <<< 31) ||| (imm10_1 <<< 21) ||| (imm11 <<< 20) ||| (imm19_12 <<< 12)

section

variable (a b word offset : BitVec 32)

/-! A field of words put together is put together of the fields. -/

theorem branchDisp_or : branchDisp (a ||| b) = branchDisp a ||| branchDisp b := by
  apply eq_of_getLsbD_eq
  intro i hi
  unfold branchDisp
  interval_cases i <;> simp

theorem jumpDisp_or : jumpDisp (a ||| b) = jumpDisp a ||| jumpDisp b := by
  apply eq_of_getLsbD_eq
  intro i hi
  unfold jumpDisp
  interval_cases i <;> simp

/-- The decoder reads the low bits but the lowest. -/
theorem branchDisp_encodeBImm : branchDisp (encodeBImm offset) = offset.setWidth 13 &&& ~~~1 := by
  apply eq_of_getLsbD_eq
  intro i hi
  unfold branchDisp encodeBImm
  interval_cases i <;> simp

theorem jumpDisp_encodeJImm : jumpDisp (encodeJImm offset) = offset.setWidth 21 &&& ~~~1 := by
  apply eq_of_getLsbD_eq
  intro i hi
  unfold jumpDisp encodeJImm
  interval_cases i <;> simp

theorem branchDisp_and_mask : branchDisp (word &&& ~~~0xFE000F80) = 0#13 := by
  apply eq_of_getLsbD_eq
  intro i hi
  unfold branchDisp
  interval_cases i <;> simp

theorem jumpDisp_and_mask : jumpDisp (word &&& ~~~0xFFFFF000) = 0#21 := by
  apply eq_of_getLsbD_eq
  intro i hi
  unfold jumpDisp
  interval_cases i <;> simp

end

/-! ## Displacements of 64 bits -/

section

variable (disp : BitVec 64)

theorem branchDisp_exact_iff : (branchDisp (encodeBImm (disp.setWidth 32))).signExtend 64 = disp ↔
      disp.getLsbD 0 = false ∧ FitsSigned 13 disp := by
  rw [branchDisp_encodeBImm, setWidth_setWidth_of_le disp (by decide)]
  exact signExtend_setWidth_even_iff (by decide) (by decide) disp

theorem jumpDisp_exact_iff : (jumpDisp (encodeJImm (disp.setWidth 32))).signExtend 64 = disp ↔
      disp.getLsbD 0 = false ∧ FitsSigned 21 disp := by
  rw [jumpDisp_encodeJImm, setWidth_setWidth_of_le disp (by decide)]
  exact signExtend_setWidth_even_iff (by decide) (by decide) disp

end

/-!
## The RISC-V instruction encoder

A row of the encoding table names a format, its opcode and function fields, and the slot
that each operand of the instruction goes to. The encoder collects the operands of the
slots and puts the fields of the format together.
-/

/-! ## Encoding descriptions -/

inductive EncSlotKind
  | None
  | Rd
  | Rs1
  | Rs2
  | Rs3
  | Imm12Signed
  | Imm12Store
  | Imm12Branch
  | Imm20Upper
  | Imm20Jump
  | Shamt5
  | Shamt6
  | Rel
  | Csr
  deriving DecidableEq, Repr

inductive EncForm
  | None
  | RType
  | IType
  | SType
  | BType
  | UType
  | JType
  | Pseudo
  deriving DecidableEq, Repr

structure EncOperandBinding where
  slot : EncSlotKind
  operandIndex : BitVec 8
  deriving DecidableEq, Repr

structure EncodingDesc where
  form : EncForm
  opcode : BitVec 8
  funct3 : BitVec 8
  funct7 : BitVec 8
  operands : List EncOperandBinding
  relocOperand : BitVec 8
  /-- The table has room for four bindings. -/
  operandCount_le : operands.length ≤ 4

structure EncMemory where
  base : BitVec 8
  disp : BitVec 64
  needsReloc : Bool
  deriving DecidableEq, Repr

inductive ResolvedOperandKind
  | None
  | Register
  | Immediate
  | Memory
  deriving DecidableEq, Repr

structure ResolvedOperand where
  kind : ResolvedOperandKind
  reg : BitVec 8
  imm : BitVec 64
  mem : EncMemory
  needsReloc : Bool
  deriving DecidableEq, Repr

structure EncodeResult where
  hasReloc : Bool
  relocOffset : ℕ
  relocBits : ℕ
  isBranch : Bool
  deriving DecidableEq, Repr

def EncodeResult.initial : EncodeResult := ⟨false, 0, 32, false⟩

/-! ## Collecting the operands -/

structure SlotValues where
  rd : BitVec 8
  rs1 : BitVec 8
  rs2 : BitVec 8
  rs3 : BitVec 8
  imm : BitVec 64
  hasReloc : Bool
  deriving DecidableEq, Repr

def SlotValues.initial : SlotValues := ⟨0, 0, 0, 0, 0, false⟩

def SlotValues.bind (desc : EncodingDesc) (values : SlotValues)
    (b : EncOperandBinding × ResolvedOperand) : SlotValues :=
  let (binding, op) := b
  match binding.slot with
  | .Rd => { values with rd := op.reg &&& 0x1F }
  | .Rs1 =>
    if op.kind = .Memory then
      { values with
        rs1 := op.mem.base &&& 0x1F
        imm := op.mem.disp
        hasReloc := values.hasReloc || op.mem.needsReloc }
    else { values with rs1 := op.reg &&& 0x1F }
  | .Rs2 => { values with rs2 := op.reg &&& 0x1F }
  | .Rs3 => { values with rs3 := op.reg &&& 0x1F }
  | .Imm12Signed | .Imm12Store | .Shamt5 | .Shamt6 | .Csr =>
    if op.kind = .Memory then
      { values with
        imm := op.mem.disp
        hasReloc := values.hasReloc || op.mem.needsReloc }
    else { values with imm := op.imm, hasReloc := values.hasReloc || op.needsReloc }
  | .Imm12Branch | .Imm20Jump | .Rel =>
    { values with
      imm := op.imm
      hasReloc := op.needsReloc || binding.operandIndex == desc.relocOperand }
  | .Imm20Upper => { values with imm := op.imm, hasReloc := values.hasReloc || op.needsReloc }
  | .None => values

/-- The bindings of operands that are there, the others are skipped. -/
def boundOperands (desc : EncodingDesc) (operands : List ResolvedOperand) :
    List (EncOperandBinding × ResolvedOperand) :=
  desc.operands.filterMap fun binding =>
    operands[binding.operandIndex.toNat]?.map fun op => (binding, op)

def collect (desc : EncodingDesc) (operands : List ResolvedOperand) : SlotValues :=
  (boundOperands desc operands).foldl (SlotValues.bind desc) .initial

/-! ## The words of the formats -/

def rTypeWord (funct7 rs2 rs1 funct3 rd opcode : BitVec 8) : BitVec 32 :=
  ((funct7.setWidth 32 &&& 0x7F) <<< 25) ||| ((rs2.setWidth 32 &&& 0x1F) <<< 20) |||
    ((rs1.setWidth 32 &&& 0x1F) <<< 15) |||
    ((funct3.setWidth 32 &&& 0x7) <<< 12) |||
    ((rd.setWidth 32 &&& 0x1F) <<< 7) |||
    (opcode.setWidth 32 &&& 0x7F)

def iTypeWord (imm : BitVec 64) (funct7 rs1 funct3 rd opcode : BitVec 8) : BitVec 32 :=
  let imm12 := imm.setWidth 32 &&& 0xFFF
  let word := (imm12 <<< 20) ||| ((rs1.setWidth 32 &&& 0x1F) <<< 15) |||
    ((funct3.setWidth 32 &&& 0x7) <<< 12) |||
    ((rd.setWidth 32 &&& 0x1F) <<< 7) |||
    (opcode.setWidth 32 &&& 0x7F)
  if funct7 ≠ 0 then word ||| ((funct7.setWidth 32 &&& 0x7F) <<< 25) else word

def sTypeWord (imm : BitVec 64) (rs2 rs1 funct3 opcode : BitVec 8) : BitVec 32 :=
  let imm12 := imm.setWidth 32 &&& 0xFFF
  let imm11_5 := (imm12 >>> 5) &&& 0x7F
  let imm4_0 := imm12 &&& 0x1F
  (imm11_5 <<< 25) ||| ((rs2.setWidth 32 &&& 0x1F) <<< 20) |||
    ((rs1.setWidth 32 &&& 0x1F) <<< 15) |||
    ((funct3.setWidth 32 &&& 0x7) <<< 12) |||
    (imm4_0 <<< 7) |||
    (opcode.setWidth 32 &&& 0x7F)

def bTypeWord (imm : BitVec 64) (rs2 rs1 funct3 opcode : BitVec 8) : BitVec 32 :=
  encodeBImm (imm.setWidth 32) ||| ((rs2.setWidth 32 &&& 0x1F) <<< 20) |||
    ((rs1.setWidth 32 &&& 0x1F) <<< 15) |||
    ((funct3.setWidth 32 &&& 0x7) <<< 12) |||
    (opcode.setWidth 32 &&& 0x7F)

def uTypeWord (imm : BitVec 64) (rd opcode : BitVec 8) : BitVec 32 :=
  let uval :=
    if imm.setWidth 32 ≤ 0xFFFFF#32 then (imm.setWidth 32 &&& 0xFFFFF) <<< 12
    else imm.setWidth 32 &&& 0xFFFFF000
  uval ||| ((rd.setWidth 32 &&& 0x1F) <<< 7) ||| (opcode.setWidth 32 &&& 0x7F)

def jTypeWord (imm : BitVec 64) (rd opcode : BitVec 8) : BitVec 32 :=
  encodeJImm (imm.setWidth 32) ||| ((rd.setWidth 32 &&& 0x1F) <<< 7) |||
    (opcode.setWidth 32 &&& 0x7F)

def encodeForm (desc : EncodingDesc) (values : SlotValues) : Option (BitVec 32) :=
  match desc.form with
  | .RType =>
    some (rTypeWord desc.funct7 values.rs2 values.rs1 desc.funct3 values.rd desc.opcode)
  | .IType =>
    some (iTypeWord values.imm desc.funct7 values.rs1 desc.funct3 values.rd desc.opcode)
  | .SType => some (sTypeWord values.imm values.rs2 values.rs1 desc.funct3 desc.opcode)
  | .BType => some (bTypeWord values.imm values.rs2 values.rs1 desc.funct3 desc.opcode)
  | .UType => some (uTypeWord values.imm values.rd desc.opcode)
  | .JType => some (jTypeWord values.imm values.rd desc.opcode)
  | .None | .Pseudo => none

/-! ## The encoder -/

/-- The word of a pseudo instruction without a relocation. -/
def pseudoWord (desc : EncodingDesc) : Option (BitVec 32) :=
  if desc.opcode = 0 ∧ desc.funct3 = 0 ∧ desc.operands.length = 0 then some 0x00008067
  else if desc.opcode = 0x73 then
    if desc.funct3 = 0 ∧ desc.funct7 = 0x00 then some 0x00000073
    else if desc.funct3 = 0 ∧ desc.funct7 = 0x01 then some 0x00100073
    else if desc.funct3 = 0 ∧ desc.funct7 = 0x02 then some 0x00200073
    else if desc.funct3 = 0x02 ∧ desc.funct7 = 0x08 then some 0x10200073
    else if desc.funct3 = 0x02 ∧ desc.funct7 = 0x18 then some 0x30200073
    else if desc.funct3 = 0x05 ∧ desc.funct7 = 0x08 then some 0x10500073
    else none
  else if desc.opcode = 0x0F then
    if desc.funct3 = 0 then some 0x0FF0000F
    else if desc.funct3 = 1 then some 0x0000100F
    else none
  else none

def encodePseudo (desc : EncodingDesc) (operands : List ResolvedOperand) (out : List UInt8) :
    Bool × List UInt8 × EncodeResult :=
  match pseudoWord desc with
  | some word => (true, emitWord out word, .initial)
  | none =>
    if desc.relocOperand ≠ 0xFF ∨ operands.head?.any (·.needsReloc) then
      let jalRa : BitVec 32 := (1 <<< 7) ||| 0x6F
      (true, emitWord out jalRa, ⟨true, 0, 32, true⟩)
    else (false, out, .initial)

def encode (desc : EncodingDesc) (operands : List ResolvedOperand) (out : List UInt8) :
    Bool × List UInt8 × EncodeResult :=
  if desc.form = .None then (false, out, .initial)
  else if desc.form = .Pseudo then encodePseudo desc operands out
  else
    let values := collect desc operands
    match encodeForm desc values with
    | none => (false, out, .initial)
    | some word =>
      let result : EncodeResult :=
        if values.hasReloc then
          ⟨true, 0, 32, desc.form = .BType || desc.form = .JType⟩
        else .initial
      (true, emitWord out word, result)

end EzPacker.RiscV
