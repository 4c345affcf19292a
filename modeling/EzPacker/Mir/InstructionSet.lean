import Mathlib.Algebra.Group.Int.Defs
import EzPacker.Lib.DefUse
import Mathlib.Algebra.Group.Nat.Defs

/-!
# The generic instruction set

The opcode table of the MIR: for every opcode its operand slots, each with the kind
of operand it accepts and how it accesses it, and its behavioural flags. The table
is generated from the instruction definition file; mnemonics, categories and tiers
are left out, since nothing that is modelled reads them.
-/

namespace EzPacker.Mir

open DefUse Function

/-- How an instruction accesses an operand. -/
inductive MirOperandFlag
  | None | Read | Write | ReadWrite
  deriving DecidableEq, Repr

namespace MirOperandFlag

def isRead : MirOperandFlag → Bool
  | Read | ReadWrite => true
  | None | Write => false

def isWrite : MirOperandFlag → Bool
  | Write | ReadWrite => true
  | None | Read => false

end MirOperandFlag

/-- The kind of operand a slot accepts. -/
inductive ExpectedOperandType
  | Register | Integer | Reference | VariadicArgs | RegIntImm | RegImm
  | AddressSource | AnyValue
  deriving DecidableEq, Repr

inductive MirInstructionFlag
  | SizeMatch | DestLarger | DestSmaller | ReadsMemory | WritesMemory | IsTerminator
  | IsBranch | IsCall | IsReturn | HasSideEffect | IsCommutative | ReadsCPUFlags
  | WritesCPUFlags | TreatAsSigned | VariadicArgs | IsMove
  deriving DecidableEq, Repr

structure MirOperandMetadata where
  type : ExpectedOperandType
  flags : MirOperandFlag
  deriving DecidableEq, Repr

structure MirInstructionMetadata where
  operandMeta : List MirOperandMetadata
  flags : List MirInstructionFlag
  deriving DecidableEq, Repr

inductive MirInstructionOpCode
  | MOV | MOV_ADDR | PHI | PUSH_ARG | PUSH_RET | POP_ARG | END_ARG | POP_RET
  | MERGE_VALUES | UNMERGE_VALUES | SELECT | LOAD | STORE | PUSH | POP | ALLOC | DALLOC
  | ADD | SUB | UADDO | UADDE | USUBO | USUBE | UMULH | SMULH | MUL | IMUL | DIV | IDIV
  | SDIV | UDIV | REM | NEG | FADD | FSUB | FMUL | FDIV | AND | OR | XOR | NOT | SHL
  | SHR | SAR | CMP_EQ | CMP_NE | CMP_SLT | CMP_SLE | CMP_SGT | CMP_SGE | CMP_ULT
  | CMP_ULE | CMP_UGT | CMP_UGE | FCMP | JMP | BR_COND | CALL | RET | TRY | CATCH
  | THROW | PUSH_REGS | POP_REGS | TRUNC | ZEXT | SEXT | FPEXT | FPTRUNC | SITOFP
  | FPTOSI | BITCAST | SYSCALL | NOP | HALT | TARGET_INST | VADD | VSUB | VMUL | VDIV
  | VNEG | VAND | VOR | VXOR | VNOT | VANDN | VMIN | VMAX | VHADD | VHSUB | VLOAD
  | VSTORE | VSHUFFLE | VEXTRACT | VINSERT | VBROADCAST
  deriving DecidableEq, Repr

def getMeta : MirInstructionOpCode → MirInstructionMetadata
  | .MOV => ⟨[⟨.Register, .Write⟩, ⟨.AnyValue, .Read⟩], []⟩
  | .MOV_ADDR => ⟨[⟨.Register, .Write⟩, ⟨.AddressSource, .Read⟩], []⟩
  | .PHI => ⟨[⟨.Register, .Write⟩, ⟨.VariadicArgs, .Read⟩], [.VariadicArgs]⟩
  | .PUSH_ARG => ⟨[⟨.Register, .Read⟩, ⟨.Register, .Read⟩], [.HasSideEffect]⟩
  | .PUSH_RET => ⟨[⟨.Register, .Read⟩, ⟨.Register, .Read⟩], [.HasSideEffect]⟩
  | .POP_ARG => ⟨[⟨.Register, .Read⟩, ⟨.Register, .Write⟩], [.HasSideEffect]⟩
  | .END_ARG => ⟨[⟨.Register, .Read⟩], [.HasSideEffect]⟩
  | .POP_RET => ⟨[⟨.Register, .Read⟩, ⟨.Register, .Write⟩], [.HasSideEffect]⟩
  | .MERGE_VALUES => ⟨[⟨.Register, .Write⟩, ⟨.VariadicArgs, .Read⟩], [.VariadicArgs]⟩
  | .UNMERGE_VALUES => ⟨[⟨.VariadicArgs, .Write⟩, ⟨.Register, .Read⟩], [.VariadicArgs]⟩
  | .SELECT =>
    ⟨[⟨.Register, .Write⟩, ⟨.Register, .Read⟩, ⟨.AnyValue, .Read⟩, ⟨.AnyValue, .Read⟩], []⟩
  | .LOAD => ⟨[⟨.Register, .Write⟩, ⟨.AddressSource, .Read⟩], [.ReadsMemory]⟩
  | .STORE =>
    ⟨[⟨.AddressSource, .Read⟩, ⟨.AnyValue, .Read⟩], [.WritesMemory, .HasSideEffect]⟩
  | .PUSH => ⟨[⟨.Register, .Read⟩], [.ReadsMemory, .HasSideEffect]⟩
  | .POP => ⟨[⟨.Register, .Write⟩], [.WritesMemory, .HasSideEffect]⟩
  | .ALLOC => ⟨[⟨.Register, .Write⟩], [.HasSideEffect]⟩
  | .DALLOC => ⟨[⟨.Register, .Write⟩, ⟨.Register, .Read⟩], [.HasSideEffect]⟩
  | .ADD =>
    ⟨[⟨.Register, .Write⟩, ⟨.Register, .Read⟩, ⟨.RegImm, .Read⟩], [.SizeMatch, .IsCommutative]⟩
  | .SUB => ⟨[⟨.Register, .Write⟩, ⟨.Register, .Read⟩, ⟨.RegImm, .Read⟩], [.SizeMatch]⟩
  | .UADDO =>
    ⟨[⟨.Register, .Write⟩, ⟨.Register, .Write⟩, ⟨.Register, .Read⟩, ⟨.RegIntImm, .Read⟩],
      [.IsCommutative]⟩
  | .UADDE =>
    ⟨[⟨.Register, .Write⟩, ⟨.Register, .Write⟩, ⟨.Register, .Read⟩, ⟨.RegIntImm, .Read⟩,
      ⟨.Register, .Read⟩],
      []⟩
  | .USUBO =>
    ⟨[⟨.Register, .Write⟩, ⟨.Register, .Write⟩, ⟨.Register, .Read⟩, ⟨.RegIntImm, .Read⟩],
      [.IsCommutative]⟩
  | .USUBE =>
    ⟨[⟨.Register, .Write⟩, ⟨.Register, .Write⟩, ⟨.Register, .Read⟩, ⟨.RegIntImm, .Read⟩,
      ⟨.Register, .Read⟩],
      []⟩
  | .UMULH =>
    ⟨[⟨.Register, .Write⟩, ⟨.Register, .Read⟩, ⟨.RegIntImm, .Read⟩], [.SizeMatch, .IsCommutative]⟩
  | .SMULH =>
    ⟨[⟨.Register, .Write⟩, ⟨.Register, .Read⟩, ⟨.RegIntImm, .Read⟩],
      [.SizeMatch, .IsCommutative, .TreatAsSigned]⟩
  | .MUL =>
    ⟨[⟨.Register, .Write⟩, ⟨.Register, .Read⟩, ⟨.RegImm, .Read⟩], [.SizeMatch, .IsCommutative]⟩
  | .IMUL =>
    ⟨[⟨.Register, .Write⟩, ⟨.Register, .Read⟩, ⟨.RegImm, .Read⟩],
      [.SizeMatch, .IsCommutative, .TreatAsSigned]⟩
  | .DIV => ⟨[⟨.Register, .Write⟩, ⟨.Register, .Read⟩, ⟨.RegImm, .Read⟩], [.SizeMatch]⟩
  | .IDIV =>
    ⟨[⟨.Register, .Write⟩, ⟨.Register, .Read⟩, ⟨.RegImm, .Read⟩], [.SizeMatch, .TreatAsSigned]⟩
  | .SDIV =>
    ⟨[⟨.Register, .Write⟩, ⟨.Register, .Read⟩, ⟨.RegImm, .Read⟩], [.SizeMatch, .TreatAsSigned]⟩
  | .UDIV => ⟨[⟨.Register, .Write⟩, ⟨.Register, .Read⟩, ⟨.RegImm, .Read⟩], [.SizeMatch]⟩
  | .REM => ⟨[⟨.Register, .Write⟩, ⟨.Register, .Read⟩, ⟨.RegIntImm, .Read⟩], [.SizeMatch]⟩
  | .NEG => ⟨[⟨.Register, .Write⟩, ⟨.Register, .Read⟩], []⟩
  | .FADD =>
    ⟨[⟨.Register, .Write⟩, ⟨.Register, .Read⟩, ⟨.RegImm, .Read⟩], [.SizeMatch, .IsCommutative]⟩
  | .FSUB => ⟨[⟨.Register, .Write⟩, ⟨.Register, .Read⟩, ⟨.RegImm, .Read⟩], [.SizeMatch]⟩
  | .FMUL =>
    ⟨[⟨.Register, .Write⟩, ⟨.Register, .Read⟩, ⟨.RegImm, .Read⟩], [.SizeMatch, .IsCommutative]⟩
  | .FDIV => ⟨[⟨.Register, .Write⟩, ⟨.Register, .Read⟩, ⟨.RegImm, .Read⟩], [.SizeMatch]⟩
  | .AND =>
    ⟨[⟨.Register, .Write⟩, ⟨.Register, .Read⟩, ⟨.RegIntImm, .Read⟩], [.SizeMatch, .IsCommutative]⟩
  | .OR =>
    ⟨[⟨.Register, .Write⟩, ⟨.Register, .Read⟩, ⟨.RegIntImm, .Read⟩], [.SizeMatch, .IsCommutative]⟩
  | .XOR =>
    ⟨[⟨.Register, .Write⟩, ⟨.Register, .Read⟩, ⟨.RegIntImm, .Read⟩], [.SizeMatch, .IsCommutative]⟩
  | .NOT => ⟨[⟨.Register, .Write⟩, ⟨.Register, .Read⟩], []⟩
  | .SHL => ⟨[⟨.Register, .Write⟩, ⟨.Register, .Read⟩, ⟨.RegIntImm, .Read⟩], []⟩
  | .SHR => ⟨[⟨.Register, .Write⟩, ⟨.Register, .Read⟩, ⟨.RegIntImm, .Read⟩], []⟩
  | .SAR =>
    ⟨[⟨.Register, .Write⟩, ⟨.Register, .Read⟩, ⟨.RegIntImm, .Read⟩], [.TreatAsSigned]⟩
  | .CMP_EQ =>
    ⟨[⟨.Register, .Write⟩, ⟨.Register, .Read⟩, ⟨.RegImm, .Read⟩], [.SizeMatch, .IsCommutative]⟩
  | .CMP_NE =>
    ⟨[⟨.Register, .Write⟩, ⟨.Register, .Read⟩, ⟨.RegImm, .Read⟩], [.SizeMatch, .IsCommutative]⟩
  | .CMP_SLT =>
    ⟨[⟨.Register, .Write⟩, ⟨.Register, .Read⟩, ⟨.RegImm, .Read⟩], [.SizeMatch, .TreatAsSigned]⟩
  | .CMP_SLE =>
    ⟨[⟨.Register, .Write⟩, ⟨.Register, .Read⟩, ⟨.RegImm, .Read⟩], [.SizeMatch, .TreatAsSigned]⟩
  | .CMP_SGT =>
    ⟨[⟨.Register, .Write⟩, ⟨.Register, .Read⟩, ⟨.RegImm, .Read⟩], [.SizeMatch, .TreatAsSigned]⟩
  | .CMP_SGE =>
    ⟨[⟨.Register, .Write⟩, ⟨.Register, .Read⟩, ⟨.RegImm, .Read⟩], [.SizeMatch, .TreatAsSigned]⟩
  | .CMP_ULT =>
    ⟨[⟨.Register, .Write⟩, ⟨.Register, .Read⟩, ⟨.RegImm, .Read⟩], [.SizeMatch]⟩
  | .CMP_ULE =>
    ⟨[⟨.Register, .Write⟩, ⟨.Register, .Read⟩, ⟨.RegImm, .Read⟩], [.SizeMatch]⟩
  | .CMP_UGT =>
    ⟨[⟨.Register, .Write⟩, ⟨.Register, .Read⟩, ⟨.RegImm, .Read⟩], [.SizeMatch]⟩
  | .CMP_UGE =>
    ⟨[⟨.Register, .Write⟩, ⟨.Register, .Read⟩, ⟨.RegImm, .Read⟩], [.SizeMatch]⟩
  | .FCMP => ⟨[⟨.Register, .Write⟩, ⟨.Register, .Read⟩, ⟨.RegImm, .Read⟩], [.SizeMatch]⟩
  | .JMP => ⟨[⟨.Reference, .Read⟩], [.IsTerminator, .IsBranch]⟩
  | .BR_COND =>
    ⟨[⟨.Register, .Read⟩, ⟨.Reference, .Read⟩, ⟨.Reference, .Read⟩], [.IsTerminator, .IsBranch]⟩
  | .CALL =>
    ⟨[⟨.Register, .Write⟩, ⟨.AnyValue, .Read⟩, ⟨.VariadicArgs, .Read⟩],
      [.IsCall, .HasSideEffect, .VariadicArgs]⟩
  | .RET => ⟨[⟨.AnyValue, .Read⟩], [.IsTerminator, .IsReturn, .HasSideEffect]⟩
  | .TRY =>
    ⟨[⟨.Reference, .Read⟩, ⟨.Reference, .Read⟩], [.IsTerminator, .IsBranch, .HasSideEffect]⟩
  | .CATCH =>
    ⟨[⟨.Register, .Write⟩, ⟨.VariadicArgs, .Read⟩], [.HasSideEffect, .VariadicArgs]⟩
  | .THROW =>
    ⟨[⟨.AnyValue, .Read⟩, ⟨.VariadicArgs, .Read⟩], [.IsTerminator, .HasSideEffect, .VariadicArgs]⟩
  | .PUSH_REGS => ⟨[⟨.VariadicArgs, .Read⟩], [.HasSideEffect, .VariadicArgs]⟩
  | .POP_REGS => ⟨[⟨.VariadicArgs, .Write⟩], [.HasSideEffect, .VariadicArgs]⟩
  | .TRUNC => ⟨[⟨.Register, .Write⟩, ⟨.Register, .Read⟩], [.DestSmaller]⟩
  | .ZEXT => ⟨[⟨.Register, .Write⟩, ⟨.Register, .Read⟩], [.DestLarger]⟩
  | .SEXT => ⟨[⟨.Register, .Write⟩, ⟨.Register, .Read⟩], [.DestLarger]⟩
  | .FPEXT => ⟨[⟨.Register, .Write⟩, ⟨.Register, .Read⟩], [.DestLarger]⟩
  | .FPTRUNC => ⟨[⟨.Register, .Write⟩, ⟨.Register, .Read⟩], [.DestSmaller]⟩
  | .SITOFP => ⟨[⟨.Register, .Write⟩, ⟨.Register, .Read⟩], []⟩
  | .FPTOSI => ⟨[⟨.Register, .Write⟩, ⟨.Register, .Read⟩], []⟩
  | .BITCAST => ⟨[⟨.Register, .Write⟩, ⟨.Register, .Read⟩], [.SizeMatch]⟩
  | .SYSCALL => ⟨[⟨.AnyValue, .Read⟩], [.HasSideEffect]⟩
  | .NOP => ⟨[], []⟩
  | .HALT => ⟨[], [.IsTerminator, .HasSideEffect]⟩
  | .TARGET_INST => ⟨[], [.HasSideEffect]⟩
  | .VADD =>
    ⟨[⟨.Register, .Write⟩, ⟨.Register, .Read⟩, ⟨.Register, .Read⟩], [.SizeMatch, .IsCommutative]⟩
  | .VSUB => ⟨[⟨.Register, .Write⟩, ⟨.Register, .Read⟩, ⟨.Register, .Read⟩], [.SizeMatch]⟩
  | .VMUL =>
    ⟨[⟨.Register, .Write⟩, ⟨.Register, .Read⟩, ⟨.Register, .Read⟩], [.SizeMatch, .IsCommutative]⟩
  | .VDIV => ⟨[⟨.Register, .Write⟩, ⟨.Register, .Read⟩, ⟨.Register, .Read⟩], [.SizeMatch]⟩
  | .VNEG => ⟨[⟨.Register, .Write⟩, ⟨.Register, .Read⟩], [.SizeMatch]⟩
  | .VAND =>
    ⟨[⟨.Register, .Write⟩, ⟨.Register, .Read⟩, ⟨.Register, .Read⟩], [.SizeMatch, .IsCommutative]⟩
  | .VOR =>
    ⟨[⟨.Register, .Write⟩, ⟨.Register, .Read⟩, ⟨.Register, .Read⟩], [.SizeMatch, .IsCommutative]⟩
  | .VXOR =>
    ⟨[⟨.Register, .Write⟩, ⟨.Register, .Read⟩, ⟨.Register, .Read⟩], [.SizeMatch, .IsCommutative]⟩
  | .VNOT => ⟨[⟨.Register, .Write⟩, ⟨.Register, .Read⟩], [.SizeMatch]⟩
  | .VANDN =>
    ⟨[⟨.Register, .Write⟩, ⟨.Register, .Read⟩, ⟨.Register, .Read⟩], [.SizeMatch]⟩
  | .VMIN => ⟨[⟨.Register, .Write⟩, ⟨.Register, .Read⟩, ⟨.Register, .Read⟩], [.SizeMatch]⟩
  | .VMAX => ⟨[⟨.Register, .Write⟩, ⟨.Register, .Read⟩, ⟨.Register, .Read⟩], [.SizeMatch]⟩
  | .VHADD =>
    ⟨[⟨.Register, .Write⟩, ⟨.Register, .Read⟩, ⟨.Register, .Read⟩], [.SizeMatch]⟩
  | .VHSUB =>
    ⟨[⟨.Register, .Write⟩, ⟨.Register, .Read⟩, ⟨.Register, .Read⟩], [.SizeMatch]⟩
  | .VLOAD => ⟨[⟨.Register, .Write⟩, ⟨.AddressSource, .Read⟩], [.ReadsMemory]⟩
  | .VSTORE =>
    ⟨[⟨.AddressSource, .Read⟩, ⟨.Register, .Read⟩], [.WritesMemory, .HasSideEffect]⟩
  | .VSHUFFLE =>
    ⟨[⟨.Register, .Write⟩, ⟨.Register, .Read⟩, ⟨.Register, .Read⟩, ⟨.Integer, .Read⟩], []⟩
  | .VEXTRACT => ⟨[⟨.Register, .Write⟩, ⟨.Register, .Read⟩, ⟨.Integer, .Read⟩], []⟩
  | .VINSERT =>
    ⟨[⟨.Register, .Write⟩, ⟨.Register, .Read⟩, ⟨.AnyValue, .Read⟩, ⟨.Integer, .Read⟩], []⟩
  | .VBROADCAST => ⟨[⟨.Register, .Write⟩, ⟨.AnyValue, .Read⟩], []⟩

/-!
## Operands and instructions

Instructions, blocks and functions are referred to by number, which stands for
their pointer. A register reference names a virtual register, or a physical one of
a register class; register classes that share a bank share hardware registers.

How an instruction accesses an operand is decided by `getOperandFlag`, from the
target descriptor of a selected instruction and from the opcode table otherwise,
where a variadic slot expands to the number of operands that are present.
-/

structure MirRegisterClass where
  id : ℕ
  bank : ℕ
  deriving DecidableEq, Repr

structure MirRegisterRef where
  isVirtual : Bool
  regClass : Option MirRegisterClass
  id : ℕ
  deriving DecidableEq, Repr

/-- Virtual registers match by number; physical ones must also match in class. -/
def MirRegisterRef.same (a b : MirRegisterRef) : Bool :=
  a.isVirtual == b.isVirtual && a.id == b.id && (a.isVirtual || a.regClass == b.regClass)

inductive MirReferenceType
  | Invalid | Block | Function | GlobalVar | StackFrameObject
  deriving DecidableEq, Repr

structure MirReference where
  refType : MirReferenceType
  refId : ℕ
  offset : ℕ
  deriving DecidableEq, Repr

structure MirMemory where
  base : Option MirRegisterRef
  displ : Option ℤ
  index : Option MirRegisterRef
  scale : ℕ
  deriving DecidableEq, Repr

/-- An operand. The value of a floating-point operand is its bit pattern. -/
inductive MirOperand
  | register (reg : MirRegisterRef)
  | memory (mem : MirMemory)
  | integer (value : ℤ)
  | floatingPoint (bits : ℕ)
  | reference (ref : MirReference)
  | runtimeSymbol (name : String)
  deriving DecidableEq, Repr

def MirOperand.isRegister : MirOperand → Bool
  | register _ => true
  | _ => false

/-- The registers an operand refers to with their access: a register operand has
the access of its slot, the registers of an address are read. -/
def visitOperandRegisters (operand : MirOperand) (flag : MirOperandFlag) :
    List (MirRegisterRef × MirOperandFlag) :=
  match operand with
  | .register reg => [(reg, flag)]
  | .memory mem =>
    mem.base.toList.map (·, .Read) ++ mem.index.toList.map (·, .Read)
  | _ => []

/-- The descriptor of a target instruction. -/
structure MirTargetInstructionDesc where
  id : ℕ
  operandsFlags : List MirOperandFlag
  implicitDefs : List MirRegisterRef
  implicitUses : List MirRegisterRef
  targetFlags : List MirInstructionFlag
  deriving DecidableEq, Repr

structure MirInstruction where
  opcode : MirInstructionOpCode
  targetDesc : Option MirTargetInstructionDesc
  operands : List MirOperand
  deriving DecidableEq, Repr

namespace MirInstruction

def getMetadata (inst : MirInstruction) : MirInstructionMetadata :=
  getMeta inst.opcode

def selectedDesc (inst : MirInstruction) : Option MirTargetInstructionDesc :=
  if inst.opcode = .TARGET_INST then inst.targetDesc else none

def isSelected (inst : MirInstruction) : Bool := inst.selectedDesc.isSome

/-- The flag of the slot at a position, none behind the last one. -/
def slotFlag (slots : List MirOperandMetadata) (index : ℕ) : MirOperandFlag :=
  (slots[index]?.map MirOperandMetadata.flags).getD .None

def variadicFlag (slots : List MirOperandMetadata) (varSlot totalOperands index : ℕ) :
    MirOperandFlag :=
  let metaCount := slots.length
  let trailingFixedCount := metaCount - 1 - varSlot
  if totalOperands < metaCount - 1 then
    if index < metaCount then slotFlag slots index else .None
  else if index < varSlot then slotFlag slots index
  else if index ≥ totalOperands - trailingFixedCount then
    slotFlag slots (metaCount - (totalOperands - index))
  else slotFlag slots varSlot

def getOperandFlag (inst : MirInstruction) (index : ℕ) : MirOperandFlag :=
  match inst.selectedDesc with
  | some desc => (desc.operandsFlags[index]?).getD .Read
  | none =>
    let slots := inst.getMetadata.operandMeta
    let totalOperands := inst.operands.length
    if slots.length = 0 ∨ index ≥ totalOperands then .None
    else if inst.opcode = .CALL ∧
        ¬ (inst.operands[0]?.map MirOperand.isRegister).getD false then .Read
    else
      match slots.findIdx? fun slot => slot.type = .VariadicArgs with
      | some varSlot => variadicFlag slots varSlot totalOperands index
      | none =>
        if index < slots.length then slotFlag slots index
        else if .VariadicArgs ∈ inst.getMetadata.flags then .Read
        else .None

def visitsAt (inst : MirInstruction) (index : ℕ) : List (MirRegisterRef × MirOperandFlag) :=
  match inst.operands[index]? with
  | some operand => visitOperandRegisters operand (inst.getOperandFlag index)
  | none => []

/-- All register accesses of the explicit operands, in operand order. -/
def visits (inst : MirInstruction) : List (MirRegisterRef × MirOperandFlag) :=
  (List.range inst.operands.length).flatMap inst.visitsAt

def getDefinedRegisters (inst : MirInstruction) : List MirRegisterRef :=
  (inst.visits.filter fun v => v.2.isWrite).map Prod.fst ++
    (inst.targetDesc.map MirTargetInstructionDesc.implicitDefs).getD []

def getUsedRegisters (inst : MirInstruction) : List MirRegisterRef :=
  (inst.visits.filter fun v => v.2.isRead).map Prod.fst ++
    (inst.targetDesc.map MirTargetInstructionDesc.implicitUses).getD []

end MirInstruction

/-- The flags of the descriptor, none without one. -/
def targetFlags (inst : MirInstruction) : List MirInstructionFlag :=
  (inst.targetDesc.map MirTargetInstructionDesc.targetFlags).getD []

def isCall (inst : MirInstruction) : Bool :=
  inst.opcode = .CALL || .IsCall ∈ targetFlags inst

def isMove (inst : MirInstruction) : Bool :=
  inst.opcode = .MOV || .IsMove ∈ targetFlags inst

/-!
## Register bookkeeping of a function

`MirFunctionRegisterInfo` maps a virtual register to its defining instruction and
its use sites; an entry is created when something is first recorded for it. Its
`view` as a def-use table forgets which entries exist. Registering the accesses of
an operand is `DefUse.recordAll` on the view and unregistering is
`DefUse.forgetAll`.
-/

/-- The defining instruction and the use sites (instruction, operand index). -/
structure MirVRegData where
  defInst : Option ℕ
  uses : List (ℕ × ℕ)
  deriving DecidableEq, Repr

structure MirFunctionRegisterInfo where
  vregs : ℕ → Option MirVRegData

namespace MirFunctionRegisterInfo

def empty : MirFunctionRegisterInfo := ⟨fun _ => none⟩

def getDef (info : MirFunctionRegisterInfo) (regId : ℕ) : Option ℕ :=
  (info.vregs regId).bind MirVRegData.defInst

def getUses (info : MirFunctionRegisterInfo) (regId : ℕ) : Option (List (ℕ × ℕ)) :=
  (info.vregs regId).map MirVRegData.uses

def getUseCount (info : MirFunctionRegisterInfo) (regId : ℕ) : ℕ :=
  ((info.getUses regId).map List.length).getD 0

def hasOneUse (info : MirFunctionRegisterInfo) (regId : ℕ) : Bool :=
  info.getUseCount regId == 1

def set (info : MirFunctionRegisterInfo) (regId : ℕ) (data : MirVRegData) :
    MirFunctionRegisterInfo :=
  ⟨update info.vregs regId (some data)⟩

/-- The entry of a register, created when there is none. -/
def entry (info : MirFunctionRegisterInfo) (regId : ℕ) : MirVRegData :=
  (info.vregs regId).getD ⟨none, []⟩

def clearDef (info : MirFunctionRegisterInfo) (regId inst : ℕ) : MirFunctionRegisterInfo :=
  match info.vregs regId with
  | none => info
  | some data =>
    if data.defInst = some inst then info.set regId { data with defInst := none }
    else info

def recordDef (info : MirFunctionRegisterInfo) (regId inst : ℕ) : MirFunctionRegisterInfo :=
  info.set regId { info.entry regId with defInst := some inst }

def recordUse (info : MirFunctionRegisterInfo) (regId inst opIndex : ℕ) : MirFunctionRegisterInfo :=
  info.set regId { info.entry regId with
    uses := (info.entry regId).uses ++ [(inst, opIndex)] }

def removeUse (info : MirFunctionRegisterInfo) (regId inst : ℕ) : MirFunctionRegisterInfo :=
  match info.vregs regId with
  | none => info
  | some data =>
    info.set regId { data with uses := data.uses.filter fun u => u.1 ≠ inst }

def registerAccess (info : MirFunctionRegisterInfo) (inst index : ℕ)
    (v : MirRegisterRef × MirOperandFlag) : MirFunctionRegisterInfo :=
  if v.1.isVirtual then
    let info := if v.2.isWrite then info.recordDef v.1.id inst else info
    if v.2.isRead then info.recordUse v.1.id inst index else info
  else info

def unregisterAccess (info : MirFunctionRegisterInfo) (inst : ℕ)
    (v : MirRegisterRef × MirOperandFlag) : MirFunctionRegisterInfo :=
  if v.1.isVirtual then
    let info := if v.2.isWrite then info.clearDef v.1.id inst else info
    if v.2.isRead then info.removeUse v.1.id inst else info
  else info

/-- The table without the distinction between an unknown and an empty entry. -/
def view (info : MirFunctionRegisterInfo) : DefUse ℕ ℕ ℕ where
  defOf := info.getDef
  uses r := (info.getUses r).getD []

section

variable (info : MirFunctionRegisterInfo)
include info

theorem getUseCount_eq (r : ℕ) : info.getUseCount r = (info.view.uses r).length := by
  cases h : info.getUses r with
  | none | some uses => simp [getUseCount, view, h]

@[simp] theorem getDef_entry (r : ℕ) : (info.entry r).defInst = info.getDef r := by
  cases h : info.vregs r with
  | none | some data => simp [entry, getDef, h]

@[simp] theorem uses_entry (r : ℕ) : (info.entry r).uses = info.view.uses r := by
  cases h : info.vregs r with
  | none | some data => simp [entry, view, getUses, h]

theorem view_set (r : ℕ) (data : MirVRegData) :
    (info.set r data).view = ⟨update info.view.defOf r data.defInst,
        update info.view.uses r data.uses⟩ := by
  have hdef : (info.set r data).view.defOf = update info.view.defOf r data.defInst := by
    funext q
    by_cases hq : q = r
    · subst hq
      simp [view, getDef, set]
    · simp [view, getDef, set, hq]
  have huses : (info.set r data).view.uses = update info.view.uses r data.uses := by
    funext q
    by_cases hq : q = r
    · subst hq
      simp [view, getUses, set]
    · simp [view, getUses, set, hq]
  rw [← hdef, ← huses]

theorem view_recordDef (r inst : ℕ) :
    (info.recordDef r inst).view = ⟨update info.view.defOf r (some inst), info.view.uses⟩ := by
  rw [recordDef, view_set]
  simp

theorem view_recordUse (r inst index : ℕ) : (info.recordUse r inst index).view = ⟨info.view.defOf,
        update info.view.uses r (info.view.uses r ++ [(inst, index)])⟩ := by
  have hdef : info.getDef r = info.view.defOf r := rfl
  rw [recordUse, view_set]
  simp [hdef]

theorem view_clearDef (r inst : ℕ) : (info.clearDef r inst).view =
      ⟨if info.view.defOf r = some inst then update info.view.defOf r none
        else info.view.defOf, info.view.uses⟩ := by
  cases h : info.vregs r with
  | none => simp [clearDef, view, getDef, h]
  | some data =>
    have hdef : info.view.defOf r = data.defInst := by simp [view, getDef, h]
    have huses : info.view.uses r = data.uses := by simp [view, getUses, h]
    by_cases hd : data.defInst = some inst
    · simp [clearDef, h, hd, view_set, hdef, ← huses]
    · simp [clearDef, h, hd, hdef]

theorem view_removeUse (r inst : ℕ) :
    (info.removeUse r inst).view = ⟨info.view.defOf, update info.view.uses r
        ((info.view.uses r).filter fun u => u.1 ≠ inst)⟩ := by
  cases h : info.vregs r with
  | none =>
    have huses : info.view.uses r = [] := by simp [view, getUses, h]
    have hself : update info.view.uses r [] = info.view.uses := by
      rw [← huses, update_eq_self]
    simp [removeUse, h, huses, hself]
  | some data =>
    have hdef : data.defInst = info.view.defOf r := by simp [view, getDef, h]
    have huses : info.view.uses r = data.uses := by simp [view, getUses, h]
    simp [removeUse, h, view_set, huses, hdef]

end

end MirFunctionRegisterInfo

def virtualAccesses (index : ℕ) (vs : List (MirRegisterRef × MirOperandFlag)) : List (Access ℕ ℕ) :=
  (vs.filter fun v => v.1.isVirtual).map fun v =>
    ⟨index, v.1.id, v.2.isRead, v.2.isWrite⟩

namespace MirFunctionRegisterInfo

section

variable (info : MirFunctionRegisterInfo) (inst index : ℕ)
include info inst index

theorem view_registerAccess (v : MirRegisterRef × MirOperandFlag) :
    (info.registerAccess inst index v).view =
      info.view.recordAll inst (virtualAccesses index [v]) := by
  by_cases hv : v.1.isVirtual
  · by_cases hw : v.2.isWrite = true
    · by_cases hr : v.2.isRead = true
      · simp [registerAccess, virtualAccesses, recordAll, record, hv, hw,
          hr, view_recordUse, view_recordDef]
      · simp [registerAccess, virtualAccesses, recordAll, record, hv, hw,
          hr, view_recordDef]
    · by_cases hr : v.2.isRead = true
      · simp [registerAccess, virtualAccesses, recordAll, record, hv, hw,
          hr, view_recordUse]
      · simp [registerAccess, virtualAccesses, recordAll, record, hv, hw, hr]
  · simp [registerAccess, virtualAccesses, recordAll, hv]

theorem view_unregisterAccess (v : MirRegisterRef × MirOperandFlag) :
    (info.unregisterAccess inst v).view = info.view.forgetAll inst (virtualAccesses index [v]) := by
  by_cases hv : v.1.isVirtual
  · by_cases hw : v.2.isWrite = true
    · by_cases hr : v.2.isRead = true
      · simp [unregisterAccess, virtualAccesses, forgetAll, forget, hv, hw,
          hr, view_removeUse, view_clearDef]
      · simp [unregisterAccess, virtualAccesses, forgetAll, forget, hv, hw,
          hr, view_clearDef]
    · by_cases hr : v.2.isRead = true
      · simp [unregisterAccess, virtualAccesses, forgetAll, forget, hv, hw,
          hr, view_removeUse]
      · simp [unregisterAccess, virtualAccesses, forgetAll, forget, hv, hw, hr]
  · simp [unregisterAccess, virtualAccesses, forgetAll, hv]

theorem view_registerAccesses (vs : List (MirRegisterRef × MirOperandFlag)) :
    (vs.foldl (fun info v => info.registerAccess inst index v) info).view =
      info.view.recordAll inst (virtualAccesses index vs) := by
  induction vs generalizing info with
  | nil => rfl
  | cons v vs ih =>
    have happend : virtualAccesses index (v :: vs) =
        virtualAccesses index [v] ++ virtualAccesses index vs := by
      simp [virtualAccesses, List.filter_cons]
      split <;> rfl
    rw [List.foldl_cons, ih, view_registerAccess, happend]
    simp [recordAll]

theorem view_unregisterAccesses (vs : List (MirRegisterRef × MirOperandFlag)) :
    (vs.foldl (fun info v => info.unregisterAccess inst v) info).view =
      info.view.forgetAll inst (virtualAccesses index vs) := by
  induction vs generalizing info with
  | nil => rfl
  | cons v vs ih =>
    have happend : virtualAccesses index (v :: vs) =
        virtualAccesses index [v] ++ virtualAccesses index vs := by
      simp [virtualAccesses, List.filter_cons]
      split <;> rfl
    rw [List.foldl_cons, ih, view_unregisterAccess info inst index, happend]
    simp [forgetAll]

end

end MirFunctionRegisterInfo

end EzPacker.Mir
