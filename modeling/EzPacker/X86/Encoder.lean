import EzPacker.X86.MemoryOperand

/-!
# The instruction encoder

A description of an instruction names the shape of its encoding and binds operands to the
slots of that shape. The encoder stages the bytes of a shape, and appends them when the shape
has all of its operands.
-/

namespace EzPacker.X86

/-! ## Descriptions and operands -/

inductive EncSlotKind
  | None | Reg | RmReg | RmMem | Imm8 | Imm16 | Imm32 | Imm64 | Imm8Signed | Rel8 | Rel32
  | CondCode | VexReg
  deriving DecidableEq, Repr

inductive EncForm
  | None | Rr | Rm | Mr | Ri | MovRI | Movzx | Movsx | Lea | Unary | Test | Shift | ImulRR
  | ImulRI | Div | Jcc | Jmp | Call | Ret | Push | Pop | Nop | Syscall | Setcc | Sse | Cvt | Vex
  deriving DecidableEq, Repr

structure EncOperandBinding where
  slot : EncSlotKind
  operandIndex : BitVec 8
  deriving DecidableEq, Repr

/-- A description, its opcodes and its operands listed up to their counts. -/
structure EncodingDesc where
  form : EncForm
  prefixes : BitVec 8
  rexW : BitVec 8
  digit : BitVec 8
  opcode : List UInt8
  operands : List EncOperandBinding
  sizeOperand : BitVec 8
  shiftByCL : Bool
  byteRex : Bool
  condCode : BitVec 8
  hasSseVariant : Bool
  ssePrefixes : BitVec 8
  sseOpcode : List UInt8
  vexL : BitVec 8
  vexW : BitVec 8
  deriving DecidableEq, Repr

def EncPrefix66 : BitVec 8 := 1 <<< 0

def EncPrefix67 : BitVec 8 := 1 <<< 1

def EncPrefixF2 : BitVec 8 := 1 <<< 2

def EncPrefixF3 : BitVec 8 := 1 <<< 3

def EncPrefixF0 : BitVec 8 := 1 <<< 4

inductive OperandKind
  | None | Register | Immediate | Memory
  deriving DecidableEq, Repr

structure ResolvedOperand where
  kind : OperandKind
  reg : BitVec 8
  isFpr : Bool
  sizeBytes : BitVec 8
  imm : BitVec 64
  mem : EncMemory
  needsReloc : Bool
  deriving DecidableEq, Repr

structure EncodeResult where
  hasReloc : Bool
  relocOffset : ℕ
  relocBits : ℕ
  isBranch : Bool
  deriving DecidableEq, Repr

def EncodeResult.empty : EncodeResult := ⟨false, 0, 32, false⟩

def findBinding (desc : EncodingDesc) (slot : EncSlotKind) : Option EncOperandBinding :=
  desc.operands.find? fun binding => binding.slot = slot

def resolve (desc : EncodingDesc) (operands : List ResolvedOperand) (slot : EncSlotKind) :
    Option ResolvedOperand :=
  (findBinding desc slot).bind fun binding => operands[binding.operandIndex.toNat]?

def bindsSize (operands : List ResolvedOperand) (binding : EncOperandBinding) : Bool :=
  (binding.slot = .Reg ∨ binding.slot = .RmReg) ∧
    (operands[binding.operandIndex.toNat]?).map ResolvedOperand.kind = some .Register

def resolveSize (desc : EncodingDesc) (operands : List ResolvedOperand) : BitVec 8 :=
  if desc.sizeOperand ≠ 0xFF ∧ desc.sizeOperand.toNat < operands.length then
    ((operands[desc.sizeOperand.toNat]?).map ResolvedOperand.sizeBytes).getD 8
  else
    (((desc.operands.find? (bindsSize operands)).bind fun binding =>
      operands[binding.operandIndex.toNat]?).map ResolvedOperand.sizeBytes).getD 8

/-! ## Shapes -/

def emitLegacyPrefixes (prefixes : BitVec 8) (size16 : Bool) : List UInt8 :=
  (if prefixes &&& EncPrefixF0 ≠ 0 then [0xF0] else []) ++
  (if prefixes &&& EncPrefixF2 ≠ 0 then [0xF2] else []) ++
  (if prefixes &&& EncPrefixF3 ≠ 0 then [0xF3] else []) ++
  (if prefixes &&& EncPrefix66 ≠ 0 ∨ size16 then [0x66] else []) ++
  (if prefixes &&& EncPrefix67 ≠ 0 then [0x67] else [])

def rexWanted (rexWPolicy sizeBytes : BitVec 8) : Bool :=
  if rexWPolicy = 1 then true else if rexWPolicy = 2 then sizeBytes = 8 else false

/-- A byte register that is only addressable behind a REX prefix. -/
def forcesRex (desc : EncodingDesc) (sizeBytes reg : BitVec 8) : Bool :=
  sizeBytes = 1 ∧ desc.byteRex ∧ 4 ≤ low4 reg

/-- The operand of the r/m field, and whether it is the operand of the memory slot. -/
def resolveRm (desc : EncodingDesc) (operands : List ResolvedOperand) :
    Option (ResolvedOperand × Bool) :=
  let memIndex := (findBinding desc .RmMem).map EncOperandBinding.operandIndex
  match resolve desc operands .RmReg with
  | some op =>
    some (op, memIndex.isSome ∧
      memIndex = (findBinding desc .RmReg).map EncOperandBinding.operandIndex)
  | none => (resolve desc operands .RmMem).map fun op => (op, true)

def isRm (op : ResolvedOperand) : Bool := op.kind = .Register ∨ op.kind = .Memory

def buildModRM (regField : BitVec 8) (rmOp : ResolvedOperand) (rmIsMemory : Bool) (rex : Rex) :
    ModRMPlan × Rex :=
  if rmIsMemory then buildMemoryModRM regField rmOp.mem rex
  else buildRegisterModRM regField rmOp.reg rex

def ModRMPlan.result (plan : ModRMPlan) (planStart : ℕ) : EncodeResult :=
  if plan.hasReloc then ⟨true, planStart + plan.relocOffsetWithin, plan.relocBits, false⟩
  else .empty

/-- The byte forms of an opcode are one below the others. -/
def byteForm (form : EncForm) : Bool := form = .Rr ∨ form = .Rm ∨ form = .Mr ∨ form = .Test

def decrementLast (opcode : List UInt8) : List UInt8 :=
  opcode.dropLast ++ (opcode.getLast?.map fun byte => byte - 1).toList

def encodeModRMForm (desc : EncodingDesc) (operands : List ResolvedOperand) :
    Option (List UInt8 × EncodeResult) :=
  match resolve desc operands .Reg, resolveRm desc operands with
  | some regOp, some (rmOp, rmIsMemory) =>
    if regOp.kind = .Register ∧ isRm rmOp then
      let useSse := desc.hasSseVariant && regOp.isFpr
      let sizeBytes := resolveSize desc operands
      let w := if useSse then false else rexWanted desc.rexW sizeBytes
      let (plan, rex) :=
        buildModRM (low3 regOp.reg) rmOp rmIsMemory ⟨w, extBit regOp.reg, false, false⟩
      let forceRex := forcesRex desc sizeBytes regOp.reg ||
        (!rmIsMemory && forcesRex desc sizeBytes rmOp.reg)
      let opcode := if useSse then desc.sseOpcode else desc.opcode
      let opcode :=
        if !useSse && sizeBytes = 1 && byteForm desc.form then decrementLast opcode else opcode
      let head :=
        emitLegacyPrefixes (if useSse then desc.ssePrefixes else desc.prefixes)
            (!useSse && sizeBytes = 2) ++
          emitRex rex forceRex ++ opcode
      some (head ++ plan.bytes, plan.result head.length)
    else none
  | _, _ => none

def fitsImm8 (imm : BitVec 64) : Bool := -128 ≤ imm.toInt ∧ imm.toInt ≤ 127

def resolveFirst (desc : EncodingDesc) (operands : List ResolvedOperand)
    (slots : List EncSlotKind) : Option ResolvedOperand :=
  slots.findSome? (resolve desc operands)

def encodeAluImmForm (desc : EncodingDesc) (operands : List ResolvedOperand) :
    Option (List UInt8) :=
  match resolve desc operands .RmReg, resolveFirst desc operands [.Imm8Signed, .Imm32] with
  | some rmOp, some immOp =>
    if rmOp.kind = .Register then
      let sizeBytes := resolveSize desc operands
      let imm := immOp.imm
      let opcode : UInt8 := if sizeBytes = 1 then 0x80 else if fitsImm8 imm then 0x83 else 0x81
      let width := if sizeBytes = 1 ∨ fitsImm8 imm then 1 else if sizeBytes = 2 then 2 else 4
      some (emitLegacyPrefixes desc.prefixes (sizeBytes = 2) ++
        emitRex ⟨rexWanted desc.rexW sizeBytes, false, false, extBit rmOp.reg⟩
          (forcesRex desc sizeBytes rmOp.reg) ++
        [opcode, encodeModRM 3 desc.digit (low3 rmOp.reg)] ++ emitImm imm width)
    else none
  | _, _ => none

def encodeImulImmForm (desc : EncodingDesc) (operands : List ResolvedOperand) :
    Option (List UInt8) :=
  match resolve desc operands .Reg, resolve desc operands .RmReg,
      resolveFirst desc operands [.Imm8Signed, .Imm32] with
  | some regOp, some rmOp, some immOp =>
    if regOp.kind = .Register ∧ rmOp.kind = .Register then
      let sizeBytes := resolveSize desc operands
      let imm := immOp.imm
      let width := if fitsImm8 imm then 1 else if sizeBytes = 2 then 2 else 4
      some (emitLegacyPrefixes desc.prefixes (sizeBytes = 2) ++
        emitRex ⟨rexWanted desc.rexW sizeBytes, extBit regOp.reg, false, extBit rmOp.reg⟩ false ++
        [if fitsImm8 imm then 0x6B else 0x69,
          encodeModRM 3 (low3 regOp.reg) (low3 rmOp.reg)] ++ emitImm imm width)
    else none
  | _, _, _ => none

def shortOpcode (base : UInt8) (reg : BitVec 8) : UInt8 := base + ⟨low3 reg⟩

def fitsImm32 (imm : BitVec 64) : Bool := -2147483648 ≤ imm.toInt ∧ imm.toInt ≤ 2147483647

def encodeMovImmForm (desc : EncodingDesc) (operands : List ResolvedOperand) :
    Option (List UInt8) :=
  match resolve desc operands .Reg,
      resolveFirst desc operands [.Imm8, .Imm16, .Imm32, .Imm64] with
  | some regOp, some immOp =>
    if regOp.kind = .Register then
      let sizeBytes := resolveSize desc operands
      let imm := immOp.imm
      let extended := extBit regOp.reg
      let extension := if extended then [rexByte false false false true] else []
      if sizeBytes = 8 then
        if fitsImm32 imm then
          some ([rexByte true false false extended, 0xC7, encodeModRM 3 0 (low3 regOp.reg)] ++
            emitImm imm 4)
        else
          some ([rexByte true false false extended, shortOpcode 0xB8 regOp.reg] ++ emitImm imm 8)
      else if sizeBytes = 4 then
        some (extension ++ [shortOpcode 0xB8 regOp.reg] ++ emitImm imm 4)
      else if sizeBytes = 2 then
        some ([0x66] ++ extension ++ [shortOpcode 0xB8 regOp.reg] ++ emitImm imm 2)
      else
        some ((if extended ∨ 4 ≤ low4 regOp.reg then [rexByte false false false extended]
            else []) ++ [shortOpcode 0xB0 regOp.reg] ++ emitImm imm 1)
    else none
  | _, _ => none

def encodeUnaryForm (desc : EncodingDesc) (operands : List ResolvedOperand) : Option (List UInt8) :=
  match resolve desc operands .RmReg with
  | some regOp =>
    if regOp.kind = .Register then
      let sizeBytes := resolveSize desc operands
      some (emitLegacyPrefixes desc.prefixes (sizeBytes = 2) ++
        emitRex ⟨rexWanted desc.rexW sizeBytes, false, false, extBit regOp.reg⟩
          (forcesRex desc sizeBytes regOp.reg) ++
        [if sizeBytes = 1 then 0xF6 else 0xF7, encodeModRM 3 desc.digit (low3 regOp.reg)])
    else none
  | none => none

def encodeShiftForm (desc : EncodingDesc) (operands : List ResolvedOperand) : Option (List UInt8) :=
  match resolve desc operands .RmReg with
  | some regOp =>
    if regOp.kind = .Register then
      let sizeBytes := resolveSize desc operands
      let head := emitLegacyPrefixes desc.prefixes (sizeBytes = 2) ++
        emitRex ⟨rexWanted desc.rexW sizeBytes, false, false, extBit regOp.reg⟩
          (forcesRex desc sizeBytes regOp.reg)
      let modrm := encodeModRM 3 desc.digit (low3 regOp.reg)
      if desc.shiftByCL then some (head ++ [if sizeBytes = 1 then 0xD2 else 0xD3, modrm])
      else
        (resolveFirst desc operands [.Imm8, .Imm8Signed]).map fun immOp =>
          let amount : UInt8 := ⟨immOp.imm.setWidth 8⟩
          if amount = 1 then head ++ [if sizeBytes = 1 then 0xD0 else 0xD1, modrm]
          else head ++ [if sizeBytes = 1 then 0xC0 else 0xC1, modrm, amount]
    else none
  | none => none

def encodeSetccForm (desc : EncodingDesc) (operands : List ResolvedOperand) : Option (List UInt8) :=
  match resolve desc operands .RmReg with
  | some regOp =>
    if regOp.kind = .Register then
      some ((if 4 ≤ low4 regOp.reg then [rexByte false false false (extBit regOp.reg)]
          else []) ++
        [0x0F, ⟨0x90 ||| (desc.condCode &&& 0x0F)⟩, encodeModRM 3 0 (low3 regOp.reg)])
    else none
  | none => none

/-- The condition code goes into the last byte of the opcode. -/
def foldCondCode (opcode : List UInt8) (condCode : BitVec 8) : List UInt8 :=
  opcode.dropLast ++
    (opcode.getLast?.map fun byte => (⟨byte.toBitVec ||| (condCode &&& 0x0F)⟩ : UInt8)).toList

def encodeBranchForm (desc : EncodingDesc) (operands : List ResolvedOperand)
    (isJcc allowRegister : Bool) : Option (List UInt8 × EncodeResult) :=
  match resolveFirst desc operands [.Rel32, .Reg, .Imm32] with
  | some op =>
    if allowRegister ∧ op.kind = .Register then
      some (emitRex ⟨false, false, false, extBit op.reg⟩ false ++
        [0xFF, encodeModRM 3 desc.digit (low3 op.reg)], .empty)
    else
      let opcode := if isJcc then foldCondCode desc.opcode desc.condCode else desc.opcode
      let disp := if op.kind = .Immediate then op.imm else 0
      some (opcode ++ emitImm disp 4,
        if op.needsReloc then ⟨true, opcode.length, 32, true⟩ else .empty)
  | none => none

/-! ## Vector instructions -/

def vexMap : List UInt8 → BitVec 8 × UInt8
  | [0x0F, 0x38, op] => (2, op)
  | [0x0F, 0x3A, op] => (3, op)
  | opcode => (1, opcode.getLastD 0)

def vexPp (prefixes : BitVec 8) : BitVec 8 :=
  if prefixes &&& EncPrefix66 ≠ 0 then 1
  else if prefixes &&& EncPrefixF3 ≠ 0 then 2
  else if prefixes &&& EncPrefixF2 ≠ 0 then 3
  else 0

def invertedBit (bit : Bool) : BitVec 8 := if bit then 0 else 1

def vexPrefix (map pp vexL vexW vvvv : BitVec 8) (rex : Rex) : List UInt8 :=
  let last := (vvvv <<< 3) ||| (vexL <<< 2) ||| pp
  if map = 1 ∧ rex.x = false ∧ rex.b = false ∧ vexW = 0 then
    [0xC5, ⟨(invertedBit rex.r <<< 7) ||| last⟩]
  else
    [0xC4, ⟨(invertedBit rex.r <<< 7) ||| (invertedBit rex.x <<< 6) |||
      (invertedBit rex.b <<< 5) ||| (map &&& 0x1F)⟩, ⟨(vexW <<< 7) ||| last⟩]

def encodeVexForm (desc : EncodingDesc) (operands : List ResolvedOperand) :
    Option (List UInt8 × EncodeResult) :=
  match resolve desc operands .Reg, resolveRm desc operands with
  | some regOp, some (rmOp, rmIsMemory) =>
    if regOp.kind = .Register ∧ isRm rmOp then
      let vexL :=
        if desc.vexL ≠ 0xFF then desc.vexL
        else if resolveSize desc operands = 32 then 1 else 0
      let (plan, rex) :=
        buildModRM (low3 regOp.reg) rmOp rmIsMemory ⟨false, extBit regOp.reg, false, false⟩
      let vvvv :=
        match resolve desc operands .VexReg with
        | some vexOp => if vexOp.kind = .Register then ~~~low4 vexOp.reg &&& 0x0F else 0x0F
        | none => 0x0F
      let head :=
        vexPrefix (vexMap desc.opcode).1 (vexPp desc.prefixes) vexL desc.vexW vvvv rex ++
          [(vexMap desc.opcode).2]
      let imm :=
        match resolveFirst desc operands [.Imm8, .Imm8Signed] with
        | some immOp => if immOp.kind = .Immediate then emitImm immOp.imm 1 else []
        | none => []
      some (head ++ plan.bytes ++ imm, plan.result head.length)
    else none
  | _, _ => none

/-! ## Instructions -/

def encodePushPop (desc : EncodingDesc) (operands : List ResolvedOperand) : Option (List UInt8) :=
  match resolve desc operands .Reg with
  | some regOp =>
    if regOp.kind = .Register then
      some (emitRex ⟨false, false, false, extBit regOp.reg⟩ false ++
        [shortOpcode (desc.opcode.headD 0) regOp.reg])
    else none
  | none => none

/-- The staged bytes of an instruction. -/
def encodeForm (desc : EncodingDesc) (operands : List ResolvedOperand) :
    Option (List UInt8 × EncodeResult) :=
  let plain (bytes : Option (List UInt8)) := bytes.map fun b => (b, EncodeResult.empty)
  match desc.form with
  | .Rr | .Rm | .Mr | .Test | .Movzx | .Movsx | .Lea | .Sse | .Cvt | .ImulRR =>
    encodeModRMForm desc operands
  | .Ri => plain (encodeAluImmForm desc operands)
  | .ImulRI => plain (encodeImulImmForm desc operands)
  | .MovRI => plain (encodeMovImmForm desc operands)
  | .Unary | .Div => plain (encodeUnaryForm desc operands)
  | .Shift => plain (encodeShiftForm desc operands)
  | .Setcc => plain (encodeSetccForm desc operands)
  | .Jcc => encodeBranchForm desc operands true false
  | .Jmp | .Call => encodeBranchForm desc operands false true
  | .Push | .Pop => plain (encodePushPop desc operands)
  | .Ret | .Nop | .Syscall => if desc.opcode = [] then none else some (desc.opcode, .empty)
  | .Vex => encodeVexForm desc operands
  | .None => none

/-- Success, the output with the instruction appended, and the relocation of the instruction. -/
def encode (desc : EncodingDesc) (operands : List ResolvedOperand) (out : List UInt8) :
    Bool × List UInt8 × EncodeResult :=
  match encodeForm desc operands with
  | some (bytes, result) => (true, out ++ bytes, result)
  | none => (false, out, .empty)

end EzPacker.X86
