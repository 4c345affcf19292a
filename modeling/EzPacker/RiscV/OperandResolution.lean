import EzPacker.RiscV.EncodingExact
import EzPacker.RiscV.Relocation

/-!
# Operands of the emitter

The emitter resolves the operands of an instruction to registers, immediates and memory operands
for the encoder, and records a relocation for a reference to a symbol. A word says the operands
when its registers are theirs, and its base register and immediate are their address.
-/

namespace EzPacker.RiscV

open BitVec Option

/-! ## Operands -/

inductive RegisterFile
  | GPR
  | FPR
  | VR
  deriving DecidableEq, Repr

/-- A register before or after allocation, in the file that its class belongs to. -/
structure MirRegister where
  isVirtual : Bool
  file : RegisterFile
  id : ℕ
  deriving DecidableEq, Repr

inductive MirReferenceType
  | Invalid
  | Block
  | GlobalVar
  | Function
  | StackFrameObject
  deriving DecidableEq, Repr

structure MirReference where
  refType : MirReferenceType
  refId : ℕ
  offset : BitVec 64
  deriving DecidableEq, Repr

/-- `Other` is an operand that is not there, or of a kind that the emitter passes over. -/
inductive MirOperand
  | Register (reg : MirRegister)
  | Integer (value : BitVec 64)
  | Memory (base index : Option MirRegister) (scale : ℕ) (displacement : Option (BitVec 64))
  | Reference (ref : MirReference)
  | Other
  deriving DecidableEq, Repr

/-- The offsets of the objects in the frame of the current function. -/
abbrev StackFrame := ℕ → Option (BitVec 64)

/-- The instructions without operands that have a word of their own. -/
inductive SystemInstruction
  | RET
  | ECALL
  | EBREAK
  | URET
  | SRET
  | MRET
  | WFI
  | FENCE
  | FENCE_I
  deriving DecidableEq, Repr

/-- The opcode and the function fields. -/
def SystemInstruction.fields : SystemInstruction → BitVec 7 × BitVec 3 × BitVec 7
  | RET => (0, 0, 0)
  | ECALL => (0x73, 0x0, 0x00)
  | EBREAK => (0x73, 0x0, 0x01)
  | URET => (0x73, 0x0, 0x02)
  | SRET => (0x73, 0x2, 0x08)
  | MRET => (0x73, 0x2, 0x18)
  | WFI => (0x73, 0x5, 0x08)
  | FENCE => (0x0F, 0x0, 0x00)
  | FENCE_I => (0x0F, 0x1, 0x00)

/-- The instructions that have an encoding, by the shape of their rows: the fields that are fixed,
and the files of the registers. -/
inductive TargetInstruction
  | register (opcode funct7 : BitVec 7) (funct3 : BitVec 3) (rd rs1 rs2 : RegisterFile)
  | registerUnary (opcode funct7 : BitVec 7) (funct3 : BitVec 3) (rd rs1 : RegisterFile)
  | immediate (opcode : BitVec 7) (funct3 : BitVec 3) (rd : RegisterFile)
  | shift5 (opcode funct7 : BitVec 7) (funct3 : BitVec 3)
  | shift6 (opcode : BitVec 7) (funct6 : BitVec 6) (funct3 : BitVec 3)
  | MV
  | NOP
  | store (opcode : BitVec 7) (funct3 : BitVec 3) (rs2 : RegisterFile)
  | branch (funct3 : BitVec 3)
  | upper (opcode : BitVec 7)
  | JAL
  | CALL
  | system (inst : SystemInstruction)
  deriving DecidableEq, Repr

namespace TargetInstruction

/-- The slots of the operands in their order, with the files of the registers there. -/
def slots : TargetInstruction → List (EncSlotKind × RegisterFile)
  | register _ _ _ rd rs1 rs2 => [(.Rd, rd), (.Rs1, rs1), (.Rs2, rs2)]
  | registerUnary _ _ _ rd rs1 => [(.Rd, rd), (.Rs1, rs1)]
  | immediate _ _ rd => [(.Rd, rd), (.Rs1, .GPR), (.Imm12Signed, .GPR)]
  | shift5 _ _ _ => [(.Rd, .GPR), (.Rs1, .GPR), (.Shamt5, .GPR)]
  | shift6 _ _ _ => [(.Rd, .GPR), (.Rs1, .GPR), (.Shamt6, .GPR)]
  | MV => [(.Rd, .GPR), (.Rs1, .GPR)]
  | NOP => []
  | store _ _ rs2 => [(.Rs2, rs2), (.Rs1, .GPR), (.Imm12Store, .GPR)]
  | branch _ => [(.Rs1, .GPR), (.Rs2, .GPR), (.Imm12Branch, .GPR)]
  | upper _ => [(.Rd, .GPR), (.Imm20Upper, .GPR)]
  | JAL => [(.Rd, .GPR), (.Imm20Jump, .GPR)]
  | CALL => [(.Rel, .GPR)]
  | system _ => []

def form : TargetInstruction → EncForm
  | register _ _ _ _ _ _ | registerUnary _ _ _ _ _ => .RType
  | immediate _ _ _ | shift5 _ _ _ | shift6 _ _ _ | MV | NOP => .IType
  | store _ _ _ => .SType
  | branch _ => .BType
  | upper _ => .UType
  | JAL => .JType
  | CALL | system _ => .Pseudo

def opcode : TargetInstruction → BitVec 7
  | register opcode _ _ _ _ _ | registerUnary opcode _ _ _ _ | immediate opcode _ _
  | shift5 opcode _ _ | shift6 opcode _ _ | store opcode _ _ | upper opcode => opcode
  | MV | NOP => 0x13
  | branch _ => 0x63
  | JAL => 0x6F
  | CALL => 0
  | system inst => inst.fields.1

def funct3 : TargetInstruction → BitVec 3
  | register _ _ funct3 _ _ _ | registerUnary _ _ funct3 _ _ | immediate _ funct3 _
  | shift5 _ _ funct3 | shift6 _ _ funct3 | store _ funct3 _ | branch funct3 => funct3
  | MV | NOP | upper _ | JAL | CALL => 0
  | system inst => inst.fields.2.1

def funct7 : TargetInstruction → BitVec 8
  | register _ funct7 _ _ _ _ | registerUnary _ funct7 _ _ _ | shift5 _ funct7 _ =>
    funct7.setWidth 8
  | shift6 _ funct6 _ => funct6.setWidth 8 <<< 1
  | system inst => inst.fields.2.2.setWidth 8
  | _ => 0

/-- The operand of a target is the last one. -/
def relocOperand : TargetInstruction → BitVec 8
  | branch _ => 2
  | JAL => 1
  | CALL => 0
  | _ => 0xFF

/-- Operands are bound to the slots in their order. -/
def bindings : List (EncSlotKind × RegisterFile) → ℕ → List EncOperandBinding
  | [], _ => []
  | slot :: slots, index => ⟨slot.1, BitVec.ofNat 8 index⟩ :: bindings slots (index + 1)

theorem bindings_length_le (inst : TargetInstruction) : (bindings inst.slots 0).length ≤ 4 := by
  cases inst <;> exact Nat.le_of_ble_eq_true rfl

/-- The row of the encoding table. -/
def desc (inst : TargetInstruction) : EncodingDesc where
  form := inst.form
  opcode := inst.opcode.setWidth 8
  funct3 := inst.funct3.setWidth 8
  funct7 := inst.funct7
  operands := bindings inst.slots 0
  relocOperand := inst.relocOperand
  operandCount_le := bindings_length_le inst

end TargetInstruction

/-! ## Resolution -/

def mapRegister (reg : Option MirRegister) : BitVec 8 :=
  match reg with
  | some reg => if reg.id < 32 then BitVec.ofNat 8 reg.id else 0xFF
  | none => 0xFF

def EncMemory.initial : EncMemory := ⟨0xFF, 0, false⟩

def usesMemorySlot (enc : EncodingDesc) (index : ℕ) : Bool :=
  enc.operands.any fun binding => binding.operandIndex.toNat = index ∧
    (binding.slot = .Imm12Store ∨ binding.slot = .Imm12Signed)

/-- The offset of a reference to the frame; an object that is not there counts as zero. -/
def frameOffset (frame : StackFrame) (ref : MirReference) : BitVec 64 :=
  ref.offset + (frame ref.refId).getD 0

/-- One operand for the encoder. -/
def resolveOperand (frame : StackFrame) (memorySlot : Bool) : MirOperand → ResolvedOperand
  | .Register reg => ⟨.Register, mapRegister (some reg), 0, .initial, false⟩
  | .Integer value => ⟨.Immediate, 0, value, .initial, false⟩
  | .Memory base _ _ displacement =>
    ⟨.Memory, 0, 0, ⟨mapRegister base, displacement.getD 0, false⟩, false⟩
  | .Reference ref =>
    if ref.refType = .StackFrameObject then
      ⟨.Immediate, 0, frameOffset frame ref, .initial, false⟩
    else if memorySlot then
      ⟨.Memory, 0, 0, ⟨0xFF, 0, ref.refType = .GlobalVar ∨ ref.refType = .Function⟩, false⟩
    else ⟨.Immediate, 0, 0, .initial, true⟩
  | .Other => ⟨.None, 0, 0, .initial, false⟩

def buildResolvedOperands (frame : StackFrame) (enc : EncodingDesc) (operands : List MirOperand) :
    List ResolvedOperand :=
  operands.zipIdx.map fun op => resolveOperand frame (usesMemorySlot enc op.2) op.1

/-! ## Emission -/

structure CodeRelocation where
  type : TargetCodeRelocationType
  srcRef : MirReference
  address : ℕ
  deriving DecidableEq, Repr

structure Emission where
  bytes : List UInt8
  relocs : List CodeRelocation
  deriving DecidableEq, Repr

/-- The reference of the first operand that needs a relocation. -/
def relocRef : List MirOperand → List ResolvedOperand → Option MirReference
  | op :: operands, out :: resolved =>
    match op with
    | .Reference ref =>
      if out.needsReloc ∨ (out.kind = .Memory ∧ out.mem.needsReloc) then some ref
      else relocRef operands resolved
    | _ => relocRef operands resolved
  | _, _ => none

/-- The bytes of an instruction at `start` and its relocations. -/
def tryEmitTableDriven (frame : StackFrame) (enc : EncodingDesc) (operands : List MirOperand)
    (start : ℕ) : Option Emission :=
  let resolved := buildResolvedOperands frame enc operands
  match encode enc resolved [] with
  | (false, _, _) => none
  | (true, bytes, result) =>
    match if result.hasReloc then relocRef operands resolved else none with
    | none => some ⟨bytes, []⟩
    | some ref =>
      if result.isBranch then some ⟨bytes, [⟨.BranchRel32, ref, start⟩]⟩
      else some ⟨bytes, [⟨.PCRel32, ref, start + result.relocOffset⟩]⟩

/-- An instruction that has no encoding is an error. -/
def emitInst (frame : StackFrame) (enc : Option EncodingDesc) (operands : List MirOperand)
    (start : ℕ) : Option Emission :=
  match enc with
  | none => none
  | some enc =>
    if enc.form = .None then none else tryEmitTableDriven frame enc operands start

/-! ## What the operands say -/

/-- An allocated register of a file has a number there. -/
def MirRegister.InFile (reg : MirRegister) (file : RegisterFile) : Prop :=
  reg.isVirtual = false ∧ reg.file = file ∧ reg.id < 32

instance (reg : MirRegister) (file : RegisterFile) : Decidable (reg.InFile file) :=
  inferInstanceAs (Decidable (_ ∧ _ ∧ _))

/-- What an operand says in its slot. -/
inductive Meaning
  | register (number : BitVec 5)
  | address (base : BitVec 5) (disp : BitVec 64)
  | immediate (value : BitVec 64)
  | symbol (ref : MirReference)
  deriving DecidableEq, Repr

/-- An address is in the base register alone where the instruction has no other registers and no
immediate. -/
def TargetInstruction.HasBase : TargetInstruction → Bool
  | .immediate _ _ _ | .store _ _ _ | .registerUnary _ _ _ _ _ | .MV => true
  | _ => false

def registerMeaning (file : RegisterFile) (reg : MirRegister) : Option Meaning :=
  if reg.InFile file then some (.register (BitVec.ofNat 5 reg.id)) else none

/-- A memory operand without an index, whose base is allocated. -/
def memoryMeaning (base index : Option MirRegister) (displacement : Option (BitVec 64)) :
    Option Meaning :=
  match base, index with
  | some base, none =>
    if base.InFile .GPR then some (.address (BitVec.ofNat 5 base.id) (displacement.getD 0))
    else none
  | _, _ => none

/-- A reference in the place of an address: an object of the frame is behind the frame pointer. -/
def referenceMeaning (frame : StackFrame) (ref : MirReference) : Option Meaning :=
  match ref.refType with
  | .StackFrameObject => (frame ref.refId).map fun offset => .address 8 (ref.offset + offset)
  | .Invalid => none
  | _ => some (.symbol ref)

/-- An operand that the slot cannot express has no meaning. -/
def meaning (frame : StackFrame) (inst : TargetInstruction) (slot : EncSlotKind × RegisterFile)
    (op : MirOperand) : Option Meaning :=
  match slot.1, op with
  | .Rd, .Register reg | .Rs1, .Register reg | .Rs2, .Register reg => registerMeaning slot.2 reg
  | .Rs1, .Memory base index _ displacement =>
    if inst.HasBase then memoryMeaning base index displacement else none
  | .Imm12Signed, .Memory base index _ displacement
  | .Imm12Store, .Memory base index _ displacement => memoryMeaning base index displacement
  | .Imm12Signed, .Reference ref | .Imm12Store, .Reference ref => referenceMeaning frame ref
  | .Imm12Branch, .Reference ref | .Imm20Upper, .Reference ref | .Imm20Jump, .Reference ref
  | .Rel, .Reference ref =>
    if ref.refType = .Invalid ∨ ref.refType = .StackFrameObject then none
    else some (.symbol ref)
  | .Imm12Signed, .Integer value | .Imm12Store, .Integer value | .Imm12Branch, .Integer value
  | .Imm20Upper, .Integer value | .Imm20Jump, .Integer value | .Shamt5, .Integer value
  | .Shamt6, .Integer value | .Rel, .Integer value => some (.immediate value)
  | _, _ => none

/-! ## What a word says -/

/-- The register in a slot of the word. -/
def fieldOf (slot : EncSlotKind) (word : BitVec 32) : BitVec 5 :=
  match slot with
  | .Rs1 => rs1Of word
  | .Rs2 => rs2Of word
  | _ => rdOf word

/-- The immediate of the word; an instruction without one has zero. -/
def SaysImmediate (reading : UpperReading) (inst : TargetInstruction) (word : BitVec 32)
    (imm : BitVec 64) : Prop :=
  match inst with
  | .register _ _ _ _ _ _ | .registerUnary _ _ _ _ _ | .system _ => imm = 0
  | .shift5 _ _ _ => ReadsImmediate .Shamt5 inst.funct7 word imm
  | .shift6 _ _ _ => ReadsImmediate .Shamt6 inst.funct7 word imm
  | .immediate _ _ _ | .MV | .NOP => (iImm word).signExtend 64 = imm
  | .store _ _ _ => (sImm word).signExtend 64 = imm
  | .branch _ => (branchDisp word).signExtend 64 = imm
  | .upper _ => ReadsUpper reading word imm
  | .JAL | .CALL => (jumpDisp word).signExtend 64 = imm

/-- How far behind its symbol the target is that the linker obtains from a relocation. The label
of a block is written into the branch or jump, or into the upper immediate of a word relative to the
program counter. For any other symbol the object file has a relocation of the upper immediate with
the addend -4, or one for a pair of words. -/
def obtainedOffset (inst : TargetInstruction) (type : TargetCodeRelocationType)
    (ref : MirReference) : Option (BitVec 64) :=
  match inst, type, ref.refType with
  | .branch _, .BranchRel32, .Block | .JAL, .BranchRel32, .Block
  | .CALL, .BranchRel32, .Block => some 0
  | .upper opcode, .PCRel32, .Block => if opcode = 0x17 then some 0 else none
  | .upper opcode, .PCRel32, .GlobalVar | .upper opcode, .PCRel32, .Function =>
    if opcode = 0x17 then some (-4) else none
  | _, _, _ => none

/-- One relocation at the word, from which the linker obtains the reference. -/
def SaysSymbol (inst : TargetInstruction) (relocs : List CodeRelocation) (start : ℕ)
    (ref : MirReference) : Prop :=
  ∃ type, relocs = [⟨type, ref, start⟩] ∧ obtainedOffset inst type ref = some ref.offset

def SaysMeaning (reading : UpperReading) (inst : TargetInstruction) (word : BitVec 32)
    (relocs : List CodeRelocation) (start : ℕ) (slot : EncSlotKind) : Meaning → Prop
  | .register number => fieldOf slot word = number
  | .address base disp => rs1Of word = base ∧ SaysImmediate reading inst word disp
  | .immediate value => SaysImmediate reading inst word value
  | .symbol ref => SaysSymbol inst relocs start ref

/-- The emitter fails, or it emits a word that says every operand. -/
def EmittedFaithfully (reading : UpperReading) (frame : StackFrame) (inst : TargetInstruction)
    (operands : List MirOperand) (start : ℕ) : Prop :=
  ∀ emission, emitInst frame (some inst.desc) operands start = some emission →
    ∃ word, emission.bytes = wordBytes word ∧
      List.Forall₂ (fun slot op => ∃ m, meaning frame inst slot op = some m ∧
        SaysMeaning reading inst word emission.relocs start slot.1 m) inst.slots operands

/-! ## What fits -/

/-- A base register and the immediate behind it say one address. -/
def AddressFits : Meaning → Meaning → Prop
  | .register _, .immediate value => FitsSigned 12 value
  | .register number, .address base disp => base = number ∧ FitsSigned 12 disp
  | .address _ disp, .immediate value => disp = value ∧ FitsSigned 12 value
  | .address number disp, .address base disp' =>
    base = number ∧ disp = disp' ∧ FitsSigned 12 disp'
  | _, _ => False

/-- A block in the place of a target. -/
def IsLabel (ref : MirReference) : Prop := ref.refType = .Block ∧ ref.offset = 0

/-- What the operands say fits the word. -/
def MeaningsFit (reading : UpperReading) : TargetInstruction → List Meaning → Prop
  | .register _ _ _ _ _ _, [.register _, .register _, .register _] => True
  | .registerUnary _ _ _ _ _, [.register _, .register _] => True
  | .registerUnary _ _ _ _ _, [.register _, .address _ disp] => disp = 0
  | .immediate _ _ _, [.register _, base, imm] => AddressFits base imm
  | .store _ _ _, [.register _, base, imm] => AddressFits base imm
  | .shift5 _ _ _, [.register _, .register _, .immediate value] => FitsUnsigned 5 value
  | .shift6 _ _ _, [.register _, .register _, .immediate value] => FitsUnsigned 6 value
  | .MV, [.register _, .register _] => True
  | .MV, [.register _, .address _ disp] => FitsSigned 12 disp
  | .branch _, [.register _, .register _, .immediate value] =>
    value.getLsbD 0 = false ∧ FitsSigned 13 value
  | .branch _, [.register _, .register _, .symbol ref] => IsLabel ref
  | .upper _, [.register _, .immediate value] => UpperFits reading value
  | .upper opcode, [.register _, .symbol ref] =>
    opcode = 0x17 ∧ ref.offset = if ref.refType = .Block then 0 else -4
  | .JAL, [.register _, .immediate value] => value.getLsbD 0 = false ∧ FitsSigned 21 value
  | .JAL, [.register _, .symbol ref] => IsLabel ref
  | .CALL, [.immediate value] => value = 0
  | .CALL, [.symbol ref] => IsLabel ref
  | .NOP, [] => True
  | .system _, [] => True
  | _, _ => False

/-- What the operands say, one for each slot. -/
def meanings (frame : StackFrame) (inst : TargetInstruction) :
    List (EncSlotKind × RegisterFile) → List MirOperand → Option (List Meaning)
  | [], [] => some []
  | slot :: slots, op :: operands =>
    (meaning frame inst slot op).bind fun m =>
      (meanings frame inst slots operands).map fun rest => m :: rest
  | _, _ => none

def Expressible (reading : UpperReading) (frame : StackFrame) (inst : TargetInstruction)
    (operands : List MirOperand) : Prop :=
  ∃ ms, meanings frame inst inst.slots operands = some ms ∧ MeaningsFit reading inst ms

/-! ## The emitted word -/

variable {file : RegisterFile} {m : Meaning} {op : MirOperand} {slot : EncSlotKind}

section Emission

variable {frame : StackFrame} {inst : TargetInstruction} {operands : List MirOperand} {start : ℕ}

/-- The relocation for a reference that the encoder asks for one. -/
def recorded (inst : TargetInstruction) (operands : List MirOperand)
    (resolved : List ResolvedOperand) (start : ℕ) : List CodeRelocation :=
  match if (collect inst.desc resolved).hasReloc then relocRef operands resolved else none with
  | none => []
  | some ref =>
    [⟨if inst.form = .BType ∨ inst.form = .JType then .BranchRel32 else .PCRel32, ref, start⟩]

variable {word : BitVec 32}

theorem emitInst_of_form (hnone : inst.form ≠ .None) (hpseudo : inst.form ≠ .Pseudo) (hword :
      encodeForm inst.desc (collect inst.desc (buildResolvedOperands frame inst.desc operands)) =
      some word) : emitInst frame (some inst.desc) operands start = some ⟨wordBytes word,
      recorded inst operands (buildResolvedOperands frame inst.desc operands) start⟩ := by
  have hnone' : ¬inst.desc.form = .None := hnone
  have hpseudo' : ¬inst.desc.form = .Pseudo := hpseudo
  unfold emitInst
  dsimp only
  rw [if_neg hnone']
  unfold tryEmitTableDriven encode recorded
  dsimp only
  rw [if_neg hnone', if_neg hpseudo', hword]
  dsimp only
  cases hreloc : (collect inst.desc (buildResolvedOperands frame inst.desc operands)).hasReloc with
  | false => rfl
  | true =>
    rw [if_pos rfl, if_pos rfl]
    cases relocRef operands (buildResolvedOperands frame inst.desc operands) with
    | none => rfl
    | some ref =>
      change (if (inst.form = .BType) || (inst.form = .JType) then _ else _) = _
      by_cases hbranch : inst.form = .BType ∨ inst.form = .JType
      · rw [if_pos hbranch, if_pos (by simpa using hbranch)]
        rfl
      · rw [if_neg hbranch, if_neg (by simpa using hbranch)]
        rfl

theorem exists_word (hnone : inst.form ≠ .None) (hpseudo : inst.form ≠ .Pseudo)
    (resolved : List ResolvedOperand) :
    ∃ word, encodeForm inst.desc (collect inst.desc resolved) = some word := by
  have hnone' : inst.desc.form ≠ .None := hnone
  have hpseudo' : inst.desc.form ≠ .Pseudo := hpseudo
  unfold encodeForm
  cases hform : inst.desc.form with
  | None => exact absurd hform hnone'
  | Pseudo => exact absurd hform hpseudo'
  | _ => exact ⟨_, rfl⟩

theorem forall₂_meaning_iff (P : EncSlotKind × RegisterFile → Meaning → Prop)
    (slots : List (EncSlotKind × RegisterFile)) (operands : List MirOperand) :
    List.Forall₂ (fun slot op => ∃ m, meaning frame inst slot op = some m ∧ P slot m) slots
        operands ↔
      ∃ ms, meanings frame inst slots operands = some ms ∧ List.Forall₂ P slots ms := by
  induction slots generalizing operands with
  | nil =>
    cases operands with
    | nil => exact ⟨fun _ => ⟨[], rfl, .nil⟩, fun _ => .nil⟩
    | cons op operands =>
      constructor
      · rintro ⟨⟩
      · rintro ⟨ms, hms, -⟩
        cases hms
  | cons slot slots ih =>
    cases operands with
    | nil =>
      constructor
      · rintro ⟨⟩
      · rintro ⟨ms, hms, -⟩
        cases hms
    | cons op operands =>
      rw [List.forall₂_cons, ih]
      constructor
      · rintro ⟨⟨m, hm, hP⟩, ms, hms, hrest⟩
        refine ⟨m :: ms, ?_, .cons hP hrest⟩
        rw [meanings, hm, hms]
        rfl
      · rintro ⟨ms, hms, hall⟩
        obtain ⟨m, hm, hrest⟩ := bind_eq_some_iff.mp hms
        obtain ⟨rest, hrest', rfl⟩ := map_eq_some_iff.mp hrest
        obtain ⟨hP, hall⟩ := List.forall₂_cons.mp hall
        exact ⟨⟨m, hm, hP⟩, rest, hrest', hall⟩

/-- An instruction that is emitted is faithful when its word says what the operands say. -/
theorem emittedFaithfully_iff_meanings {reading : UpperReading} {relocs : List CodeRelocation}
    (h : emitInst frame (some inst.desc) operands start = some ⟨wordBytes word, relocs⟩) :
    EmittedFaithfully reading frame inst operands start ↔
      ∃ ms, meanings frame inst inst.slots operands = some ms ∧
        List.Forall₂ (fun slot m => SaysMeaning reading inst word relocs start slot.1 m) inst.slots
          ms := by
  rw [← forall₂_meaning_iff]
  unfold EmittedFaithfully
  constructor
  · intro hfaithful
    obtain ⟨word', hbytes, hsaid⟩ := hfaithful _ h
    rw [wordBytes_injective hbytes]
    exact hsaid
  · intro hsaid emission hemission
    rw [← some.inj (h.symm.trans hemission)]
    exact ⟨word, rfl, hsaid⟩

/-! ## Registers and addresses -/

theorem mapRegister_field {reg : MirRegister} (h : reg.id < 32) :
    (mapRegister (some reg) &&& 0x1F).setWidth 5 = BitVec.ofNat 5 reg.id := by
  unfold mapRegister
  dsimp only
  rw [if_pos h]
  apply eq_of_toNat_eq
  rw [toNat_setWidth, toNat_and, toNat_ofNat, toNat_ofNat]
  have hmask : (0x1F : BitVec 8).toNat = 2 ^ 5 - 1 := by decide
  rw [hmask, Nat.and_two_pow_sub_one_eq_mod]
  omega

theorem registerMeaning_eq_some {reg : MirRegister} (h : registerMeaning file reg = some m) :
    m = .register (BitVec.ofNat 5 reg.id) ∧ reg.id < 32 := by
  unfold registerMeaning at h
  split_ifs at h with hfile
  exact ⟨(some.inj h).symm, hfile.2.2⟩

/-- The operand of a slot for a register, where there is no address. -/
theorem register_of_meaning
    (hslot : slot = .Rd ∨ slot = .Rs2 ∨ (slot = .Rs1 ∧ inst.HasBase = false))
    (h : meaning frame inst (slot, file) op = some m) :
    ∃ reg, op = .Register reg ∧ m = .register (BitVec.ofNat 5 reg.id) ∧ reg.id < 32 := by
  rcases hslot with rfl | rfl | ⟨rfl, hbase⟩
  · cases op <;> first | exact ⟨_, rfl, registerMeaning_eq_some h⟩ | cases h
  · cases op <;> first | exact ⟨_, rfl, registerMeaning_eq_some h⟩ | cases h
  · cases op with
    | Register reg => exact ⟨reg, rfl, registerMeaning_eq_some h⟩
    | Memory base index scale displacement =>
      unfold meaning at h
      rw [hbase] at h
      cases h
    | Integer value | Reference ref | Other => cases h

theorem memoryMeaning_eq_some {base index : Option MirRegister} {displacement : Option (BitVec 64)}
    (h : memoryMeaning base index displacement = some m) : ∃ reg, base = some reg ∧ reg.id < 32 ∧
      m = .address (BitVec.ofNat 5 reg.id) (displacement.getD 0) := by
  cases base with
  | none => cases h
  | some reg =>
    cases index with
    | some index => cases h
    | none =>
      unfold memoryMeaning at h
      dsimp only at h
      split_ifs at h with hfile
      exact ⟨reg, rfl, hfile.2.2, (some.inj h).symm⟩

/-- What is resolved for the operand of the base register. -/
theorem base_of_meaning (memorySlot : Bool) (h : meaning frame inst (.Rs1, file) op = some m) :
    ∃ number, ((resolveOperand frame memorySlot op).register .Rs1 &&& 0x1F).setWidth 5 = number ∧
      ((m = .register number ∧ (resolveOperand frame memorySlot op).kind ≠ .Memory) ∨
        (m = .address number (resolveOperand frame memorySlot op).mem.disp ∧
          (resolveOperand frame memorySlot op).kind = .Memory)) := by
  cases op with
  | Register reg =>
    obtain ⟨rfl, hid⟩ := registerMeaning_eq_some h
    exact ⟨_, mapRegister_field hid, .inl ⟨rfl, nofun⟩⟩
  | Memory base index scale displacement =>
    unfold meaning at h
    dsimp only at h
    split_ifs at h with hbase
    obtain ⟨reg, rfl, hid, rfl⟩ := memoryMeaning_eq_some h
    exact ⟨_, mapRegister_field hid, .inr ⟨rfl, rfl⟩⟩
  | Integer value | Reference ref | Other => cases h

/-- What is resolved for the operand of a signed immediate. -/
theorem immediate_of_meaning (hslot : slot = .Imm12Signed ∨ slot = .Imm12Store) (index : BitVec 8)
    (h : meaning frame inst (slot, file) op = some m) :
    m = .immediate (immediateIn (⟨slot, index⟩, resolveOperand frame true op)) ∨
      (∃ base, m = .address base (immediateIn (⟨slot, index⟩, resolveOperand frame true op))) ∨
        ∃ ref, m = .symbol ref := by
  have hin (out : ResolvedOperand) : immediateIn (⟨slot, index⟩, out) =
      if out.kind = .Memory then out.mem.disp else out.imm := by
    rcases hslot with rfl | rfl <;> rfl
  rw [hin]
  cases op with
  | Register reg | Other => rcases hslot with rfl | rfl <;> cases h
  | Integer value =>
    left
    rcases hslot with rfl | rfl <;> exact (some.inj h).symm
  | Memory base index scale displacement =>
    have hmem : memoryMeaning base index displacement = some m := by
      rcases hslot with rfl | rfl <;> exact h
    obtain ⟨reg, -, -, rfl⟩ := memoryMeaning_eq_some hmem
    exact .inr (.inl ⟨_, rfl⟩)
  | Reference ref =>
    have href : referenceMeaning frame ref = some m := by
      rcases hslot with rfl | rfl <;> exact h
    unfold referenceMeaning at href
    by_cases hstack : ref.refType = .StackFrameObject
    · rw [hstack] at href
      obtain ⟨offset, hoffset, rfl⟩ := map_eq_some_iff.mp href
      have hout : resolveOperand frame true (.Reference ref) =
          ⟨.Immediate, 0, ref.offset + offset, .initial, false⟩ := by
        unfold resolveOperand frameOffset
        dsimp only
        rw [if_pos hstack, hoffset]
        rfl
      rw [hout]
      exact .inr (.inl ⟨8, rfl⟩)
    · refine .inr (.inr ⟨ref, ?_⟩)
      cases htype : ref.refType with
      | StackFrameObject => exact absurd htype hstack
      | Invalid =>
        rw [htype] at href
        cases href
      | _ =>
        rw [htype] at href
        exact (some.inj href).symm

/-- The base register and the immediate of a word say the two operands of an address. -/
theorem saysAddress_iff {reading : UpperReading} (relocs : List CodeRelocation) (start : ℕ)
    (slot : EncSlotKind) {number : BitVec 5} {value : BitVec 64} (hrs1 : rs1Of word = number)
    (himm : ∀ imm, SaysImmediate reading inst word imm ↔ (value.setWidth 12).signExtend 64 = imm)
    (hsymbol : ∀ type ref, obtainedOffset inst type ref = none) {base imm : Meaning}
    (hbase : base = .register number ∨ ∃ disp, base = .address number disp) (hvalue : imm =
      .immediate value ∨ (∃ number', imm = .address number' value) ∨ ∃ ref, imm = .symbol ref) :
    SaysMeaning reading inst word relocs start .Rs1 base ∧
        SaysMeaning reading inst word relocs start slot imm ↔ AddressFits base imm := by
  have hfits := signed12_iff value
  have hnone (ref : MirReference) : ¬SaysSymbol inst relocs start ref := by
    rintro ⟨type, -, hoffset⟩
    rw [hsymbol] at hoffset
    cases hoffset
  rcases hbase with rfl | ⟨disp, rfl⟩ <;> rcases hvalue with rfl | ⟨number', rfl⟩ | ⟨ref, rfl⟩
  · exact ⟨fun h => hfits.mp ((himm value).mp h.2),
      fun h => ⟨hrs1, (himm value).mpr (hfits.mpr h)⟩⟩
  · exact ⟨fun h => ⟨h.2.1.symm.trans hrs1, hfits.mp ((himm value).mp h.2.2)⟩,
      fun h => ⟨hrs1, hrs1.trans h.1.symm, (himm value).mpr (hfits.mpr h.2)⟩⟩
  · exact ⟨fun h => hnone ref h.2, fun h => h.elim⟩
  · constructor
    · rintro ⟨⟨-, hdisp⟩, hvalue⟩
      have hvalue' := (himm value).mp hvalue
      exact ⟨((himm disp).mp hdisp).symm.trans hvalue', hfits.mp hvalue'⟩
    · rintro ⟨rfl, h⟩
      have hsaid := (himm disp).mpr (hfits.mpr h)
      exact ⟨⟨hrs1, hsaid⟩, hsaid⟩
  · constructor
    · rintro ⟨⟨-, hdisp⟩, hnumber, hvalue⟩
      have hvalue' := (himm value).mp hvalue
      exact ⟨hnumber.symm.trans hrs1, ((himm disp).mp hdisp).symm.trans hvalue', hfits.mp hvalue'⟩
    · rintro ⟨rfl, rfl, h⟩
      have hsaid := (himm disp).mpr (hfits.mpr h)
      exact ⟨⟨hrs1, hsaid⟩, hrs1, hsaid⟩
  · exact ⟨fun h => hnone ref h.2, fun h => h.elim⟩

/-! ## Lists of operands -/

theorem meanings_cons {slot : EncSlotKind × RegisterFile}
    {slots : List (EncSlotKind × RegisterFile)} {ms : List Meaning}
    (h : meanings frame inst (slot :: slots) operands = some ms) :
    ∃ op rest m ms', operands = op :: rest ∧ ms = m :: ms' ∧
      meaning frame inst slot op = some m ∧ meanings frame inst slots rest = some ms' := by
  cases operands with
  | nil => cases h
  | cons op rest =>
    obtain ⟨m, hm, hrest⟩ := bind_eq_some_iff.mp h
    obtain ⟨ms', hms', rfl⟩ := map_eq_some_iff.mp hrest
    exact ⟨op, rest, m, ms', rfl, rfl, hm, hms'⟩

theorem meanings_nil {ms : List Meaning} (h : meanings frame inst [] operands = some ms) :
    operands = [] ∧ ms = [] := by
  cases operands with
  | nil => exact ⟨rfl, (some.inj h).symm⟩
  | cons op rest => cases h

end Emission

/-! ## The fields of the formats -/

section Fields

variable {desc : EncodingDesc} {resolved : List ResolvedOperand} {word : BitVec 32}

theorem fields_of_rType (hform : desc.form = .RType)
    (h : encodeForm desc (collect desc resolved) = some word) :
    rdOf word = (registerOf desc resolved .Rd &&& 0x1F).setWidth 5 ∧
      rs1Of word = (registerOf desc resolved .Rs1 &&& 0x1F).setWidth 5 ∧
      rs2Of word = (registerOf desc resolved .Rs2 &&& 0x1F).setWidth 5 := by
  unfold encodeForm at h
  rw [hform, rd_collect, rs1_collect, rs2_collect] at h
  obtain rfl := some.inj h
  obtain ⟨-, hrd, -, hrs1, hrs2, -⟩ := fields_rTypeWord desc.funct7
    (registerOf desc resolved .Rs2 &&& 0x1F) (registerOf desc resolved .Rs1 &&& 0x1F) desc.funct3
    (registerOf desc resolved .Rd &&& 0x1F) desc.opcode
  exact ⟨hrd, hrs1, hrs2⟩

theorem fields_of_iType (hform : desc.form = .IType)
    (h : encodeForm desc (collect desc resolved) = some word) :
    rdOf word = (registerOf desc resolved .Rd &&& 0x1F).setWidth 5 ∧
      rs1Of word = (registerOf desc resolved .Rs1 &&& 0x1F).setWidth 5 ∧
      ∃ rd rs1, word =
        iTypeWord (immediateOf desc resolved) desc.funct7 rs1 desc.funct3 rd desc.opcode := by
  unfold encodeForm at h
  rw [hform, rd_collect, rs1_collect, imm_collect] at h
  obtain rfl := some.inj h
  obtain ⟨-, hrd, -, hrs1⟩ := fields_iTypeWord (immediateOf desc resolved) desc.funct7
    (registerOf desc resolved .Rs1 &&& 0x1F) desc.funct3 (registerOf desc resolved .Rd &&& 0x1F)
    desc.opcode
  exact ⟨hrd, hrs1, _, _, rfl⟩

theorem fields_of_sType (hform : desc.form = .SType)
    (h : encodeForm desc (collect desc resolved) = some word) :
    rs1Of word = (registerOf desc resolved .Rs1 &&& 0x1F).setWidth 5 ∧
      rs2Of word = (registerOf desc resolved .Rs2 &&& 0x1F).setWidth 5 ∧
      sImm word = (immediateOf desc resolved).setWidth 12 := by
  unfold encodeForm at h
  rw [hform, rs1_collect, rs2_collect, imm_collect] at h
  obtain rfl := some.inj h
  obtain ⟨-, -, hrs1, hrs2, himm⟩ := fields_sTypeWord (immediateOf desc resolved)
    (registerOf desc resolved .Rs2 &&& 0x1F) (registerOf desc resolved .Rs1 &&& 0x1F) desc.funct3
    desc.opcode
  exact ⟨hrs1, hrs2, himm⟩

theorem fields_of_bType (hform : desc.form = .BType)
    (h : encodeForm desc (collect desc resolved) = some word) :
    rs1Of word = (registerOf desc resolved .Rs1 &&& 0x1F).setWidth 5 ∧
      rs2Of word = (registerOf desc resolved .Rs2 &&& 0x1F).setWidth 5 ∧
      branchDisp word = (immediateOf desc resolved).setWidth 13 &&& ~~~1 := by
  unfold encodeForm at h
  rw [hform, rs1_collect, rs2_collect, imm_collect] at h
  obtain rfl := some.inj h
  obtain ⟨-, -, hrs1, hrs2, himm⟩ := fields_bTypeWord (immediateOf desc resolved)
    (registerOf desc resolved .Rs2 &&& 0x1F) (registerOf desc resolved .Rs1 &&& 0x1F) desc.funct3
    desc.opcode
  exact ⟨hrs1, hrs2, himm⟩

theorem fields_of_uType (hform : desc.form = .UType)
    (h : encodeForm desc (collect desc resolved) = some word) :
    rdOf word = (registerOf desc resolved .Rd &&& 0x1F).setWidth 5 ∧
      ∃ rd, word = uTypeWord (immediateOf desc resolved) rd desc.opcode := by
  unfold encodeForm at h
  rw [hform, rd_collect, imm_collect] at h
  obtain rfl := some.inj h
  obtain ⟨-, hrd, -⟩ := fields_uTypeWord (immediateOf desc resolved)
    (registerOf desc resolved .Rd &&& 0x1F) desc.opcode
  rw [hrd]
  exact ⟨rfl, _, rfl⟩

theorem fields_of_jType (hform : desc.form = .JType)
    (h : encodeForm desc (collect desc resolved) = some word) :
    rdOf word = (registerOf desc resolved .Rd &&& 0x1F).setWidth 5 ∧
      jumpDisp word = (immediateOf desc resolved).setWidth 21 &&& ~~~1 := by
  unfold encodeForm at h
  rw [hform, rd_collect, imm_collect] at h
  obtain rfl := some.inj h
  obtain ⟨-, hrd, himm⟩ := fields_jTypeWord (immediateOf desc resolved)
    (registerOf desc resolved .Rd &&& 0x1F) desc.opcode
  exact ⟨hrd, himm⟩

end Fields

/-! ## The instructions -/

section Instructions

variable {reading : UpperReading} {frame : StackFrame} {inst : TargetInstruction}
  {operands : List MirOperand} {start : ℕ} {word : BitVec 32} {relocs : List CodeRelocation}
  {ms : List Meaning}

/-- The word of a format for the operands. -/
def IsWord (frame : StackFrame) (inst : TargetInstruction) (operands : List MirOperand)
    (word : BitVec 32) : Prop :=
  encodeForm inst.desc
    (collect inst.desc (buildResolvedOperands frame inst.desc operands)) = some word

def SaysMeanings (reading : UpperReading) (inst : TargetInstruction) (word : BitVec 32)
    (relocs : List CodeRelocation) (start : ℕ) (ms : List Meaning) : Prop :=
  List.Forall₂ (fun slot m => SaysMeaning reading inst word relocs start slot.1 m) inst.slots ms

/-- The word of a format says what the operands say exactly when that fits. -/
def SaysFitting (reading : UpperReading) (frame : StackFrame) (inst : TargetInstruction)
    (operands : List MirOperand) (start : ℕ) : Prop :=
  ∀ ms word, meanings frame inst inst.slots operands = some ms → IsWord frame inst operands word →
    (SaysMeanings reading inst word
        (recorded inst operands (buildResolvedOperands frame inst.desc operands) start) start ms ↔
      MeaningsFit reading inst ms)

variable {a b : EncSlotKind × RegisterFile} {m₀ : Meaning} {funct3 : BitVec 3}
  {funct7 opcode : BitVec 7} {rd : RegisterFile} {ref : MirReference}

/-- Where the other slots are said it is up to the last one. -/
theorem saysMeanings_two {m₁ : Meaning} (hslots : inst.slots = [a, b])
    (h₀ : SaysMeaning reading inst word relocs start a.1 m₀) :
    SaysMeanings reading inst word relocs start [m₀, m₁] ↔
      SaysMeaning reading inst word relocs start b.1 m₁ := by
  unfold SaysMeanings
  rw [hslots, List.forall₂_cons, List.forall₂_cons]
  exact (and_iff_right h₀).trans (and_iff_left .nil)

theorem saysMeanings_three {c : EncSlotKind × RegisterFile} {m₁ m₂ : Meaning}
    (hslots : inst.slots = [a, b, c]) (h₀ : SaysMeaning reading inst word relocs start a.1 m₀)
    (h₁ : SaysMeaning reading inst word relocs start b.1 m₁) :
    SaysMeanings reading inst word relocs start [m₀, m₁, m₂] ↔
      SaysMeaning reading inst word relocs start c.1 m₂ := by
  unfold SaysMeanings
  rw [hslots, List.forall₂_cons, List.forall₂_cons, List.forall₂_cons]
  exact (and_iff_right h₀).trans ((and_iff_right h₁).trans (and_iff_left .nil))

theorem meanings_two (h : meanings frame inst [a, b] operands = some ms) :
    ∃ op₀ op₁ m₀ m₁, operands = [op₀, op₁] ∧ ms = [m₀, m₁] ∧
      meaning frame inst a op₀ = some m₀ ∧ meaning frame inst b op₁ = some m₁ := by
  obtain ⟨_, _, _, _, rfl, rfl, h₀, h⟩ := meanings_cons h
  obtain ⟨_, _, _, _, rfl, rfl, h₁, h⟩ := meanings_cons h
  obtain ⟨rfl, rfl⟩ := meanings_nil h
  exact ⟨_, _, _, _, rfl, rfl, h₀, h₁⟩

theorem meanings_three {c : EncSlotKind × RegisterFile}
    (h : meanings frame inst [a, b, c] operands = some ms) :
    ∃ op₀ op₁ op₂ m₀ m₁ m₂, operands = [op₀, op₁, op₂] ∧ ms = [m₀, m₁, m₂] ∧
      meaning frame inst a op₀ = some m₀ ∧ meaning frame inst b op₁ = some m₁ ∧
        meaning frame inst c op₂ = some m₂ := by
  obtain ⟨_, _, _, _, rfl, rfl, h₀, h⟩ := meanings_cons h
  obtain ⟨_, _, _, _, rfl, rfl, h₁, h₂⟩ := meanings_two h
  exact ⟨_, _, _, _, _, _, rfl, rfl, h₀, h₁, h₂⟩

theorem says_register {rs1 rs2 : RegisterFile} :
    SaysFitting reading frame (.register opcode funct7 funct3 rd rs1 rs2) operands start := by
  intro ms word hms hword
  obtain ⟨_, _, _, _, _, _, rfl, rfl, h₀, h₁, h₂⟩ := meanings_three hms
  obtain ⟨r₀, rfl, rfl, hr₀⟩ := register_of_meaning (.inl rfl) h₀
  obtain ⟨r₁, rfl, rfl, hr₁⟩ := register_of_meaning (.inr (.inr ⟨rfl, rfl⟩)) h₁
  obtain ⟨r₂, rfl, rfl, hr₂⟩ := register_of_meaning (.inr (.inl rfl)) h₂
  obtain ⟨hrd, hrs1, hrs2⟩ := fields_of_rType rfl hword
  refine iff_of_true (.cons ?_ (.cons ?_ (.cons ?_ .nil))) trivial
  · exact hrd.trans (mapRegister_field hr₀)
  · exact hrs1.trans (mapRegister_field hr₁)
  · exact hrs2.trans (mapRegister_field hr₂)

/-- Where there is no immediate the address is in the base register. -/
theorem says_registerUnary {rs1 : RegisterFile} :
    SaysFitting reading frame (.registerUnary opcode funct7 funct3 rd rs1) operands start := by
  intro ms word hms hword
  obtain ⟨_, _, _, _, rfl, rfl, h₀, h₁⟩ := meanings_two hms
  obtain ⟨r₀, rfl, rfl, hr₀⟩ := register_of_meaning (.inl rfl) h₀
  obtain ⟨number, hnumber, hm⟩ := base_of_meaning false h₁
  obtain ⟨hrd, hrs1, -⟩ := fields_of_rType rfl hword
  refine Iff.trans (saysMeanings_two rfl (hrd.trans (mapRegister_field hr₀))) ?_
  rcases hm with ⟨rfl, -⟩ | ⟨rfl, -⟩
  · exact iff_of_true (hrs1.trans hnumber) trivial
  · exact and_iff_right (hrs1.trans hnumber)

/-- The immediate of a word without a function field over it. -/
theorem iImm_of_iType {imm : BitVec 64} {rs1 funct3 rd opcode : BitVec 8} :
    iImm (iTypeWord imm 0 rs1 funct3 rd opcode) = imm.setWidth 12 := by
  rw [iImm_iTypeWord]
  exact BitVec.or_zero

/-- A register in the first slot, and an address in the base register and the immediate. -/
theorem saysMemory_iff {first : EncSlotKind} {file₀ file₁ file₂ : RegisterFile} {base imm : Meaning}
    {op₁ op₂ : MirOperand} (hslots : inst.slots = [(first, file₀), (.Rs1, file₁), (slot, file₂)])
    (hslot : slot = .Imm12Signed ∨ slot = .Imm12Store)
    (hfirst : SaysMeaning reading inst word relocs start first m₀)
    (hrs1 : rs1Of word = ((resolveOperand frame false op₁).register .Rs1 &&& 0x1F).setWidth 5)
      (hsaid : ∀ value, SaysImmediate reading inst word value ↔ ((immediateIn (⟨slot, 2⟩,
      resolveOperand frame true op₂)).setWidth 12).signExtend 64 = value)
    (hsymbol : ∀ type ref, obtainedOffset inst type ref = none)
    (h₁ : meaning frame inst (.Rs1, file₁) op₁ = some base)
    (h₂ : meaning frame inst (slot, file₂) op₂ = some imm) :
    SaysMeanings reading inst word relocs start [m₀, base, imm] ↔ AddressFits base imm := by
  obtain ⟨number, hnumber, hm⟩ := base_of_meaning false h₁
  have haddress := saysAddress_iff relocs start slot (hrs1.trans hnumber) hsaid hsymbol
    (hm.imp (·.1) fun h => ⟨_, h.1⟩) (immediate_of_meaning hslot 2 h₂)
  unfold SaysMeanings
  rw [hslots, List.forall₂_cons, List.forall₂_cons, List.forall₂_cons]
  exact (and_iff_right hfirst).trans ((and_congr_right' (and_iff_left .nil)).trans haddress)

theorem says_immediate :
    SaysFitting reading frame (.immediate opcode funct3 rd) operands start := by
  intro ms word hms hword
  obtain ⟨_, op₁, op₂, _, _, _, rfl, rfl, h₀, h₁, h₂⟩ := meanings_three hms
  obtain ⟨r₀, rfl, rfl, hr₀⟩ := register_of_meaning (.inl rfl) h₀
  obtain ⟨hrd, hrs1, _, _, hword⟩ := fields_of_iType rfl hword
  have himm : iImm word =
      (immediateIn (⟨.Imm12Signed, 2⟩, resolveOperand frame true op₂)).setWidth 12 := by
    rw [hword]
    exact iImm_of_iType
  refine saysMemory_iff rfl (.inl rfl) (hrd.trans (mapRegister_field hr₀)) hrs1 (fun value => ?_)
    (fun type _ => by cases type <;> rfl) h₁ h₂
  rw [← himm]
  rfl

theorem says_store {rs2 : RegisterFile} :
    SaysFitting reading frame (.store opcode funct3 rs2) operands start := by
  intro ms word hms hword
  obtain ⟨_, op₁, op₂, _, _, _, rfl, rfl, h₀, h₁, h₂⟩ := meanings_three hms
  obtain ⟨r₀, rfl, rfl, hr₀⟩ := register_of_meaning (.inr (.inl rfl)) h₀
  obtain ⟨hrs1, hrs2, himm⟩ := fields_of_sType rfl hword
  have himm : sImm word =
      (immediateIn (⟨.Imm12Store, 2⟩, resolveOperand frame true op₂)).setWidth 12 := himm
  refine saysMemory_iff rfl (.inr rfl) (hrs2.trans (mapRegister_field hr₀)) hrs1 (fun value => ?_)
    (fun type _ => by cases type <;> rfl) h₁ h₂
  rw [← himm]
  rfl

theorem integer_of_meaning (hslot : slot = .Shamt5 ∨ slot = .Shamt6)
    (h : meaning frame inst (slot, file) op = some m) :
    ∃ value, op = .Integer value ∧ m = .immediate value := by
  rcases hslot with rfl | rfl <;> cases op <;>
    first | exact ⟨_, rfl, (some.inj h).symm⟩ | cases h

theorem says_shift5 : SaysFitting reading frame (.shift5 opcode funct7 funct3) operands start := by
  intro ms word hms hword
  obtain ⟨_, _, _, _, _, _, rfl, rfl, h₀, h₁, h₂⟩ := meanings_three hms
  obtain ⟨r₀, rfl, rfl, hr₀⟩ := register_of_meaning (.inl rfl) h₀
  obtain ⟨r₁, rfl, rfl, hr₁⟩ := register_of_meaning (.inr (.inr ⟨rfl, rfl⟩)) h₁
  obtain ⟨value, rfl, rfl⟩ := integer_of_meaning (.inl rfl) h₂
  obtain ⟨hrd, hrs1, rs1, rd, hword⟩ := fields_of_iType rfl hword
  refine Iff.trans (saysMeanings_three rfl (hrd.trans (mapRegister_field hr₀))
    (hrs1.trans (mapRegister_field hr₁))) ?_
  have himm : SaysImmediate reading (.shift5 opcode funct7 funct3) word value ↔
      FitsUnsigned 5 value ∧ FitsUnsigned 7 (funct7.setWidth 8) := by
    rw [hword]
    exact readsImmediate_iff value (funct7.setWidth 8) _ _ _ _ .Shamt5
  exact himm.trans (and_iff_left (fitsUnsigned_of_setWidth (by decide) funct7))

theorem says_shift6 {funct6 : BitVec 6} :
    SaysFitting reading frame (.shift6 opcode funct6 funct3) operands start := by
  intro ms word hms hword
  obtain ⟨_, _, _, _, _, _, rfl, rfl, h₀, h₁, h₂⟩ := meanings_three hms
  obtain ⟨r₀, rfl, rfl, hr₀⟩ := register_of_meaning (.inl rfl) h₀
  obtain ⟨r₁, rfl, rfl, hr₁⟩ := register_of_meaning (.inr (.inr ⟨rfl, rfl⟩)) h₁
  obtain ⟨value, rfl, rfl⟩ := integer_of_meaning (.inr rfl) h₂
  obtain ⟨hrd, hrs1, rs1, rd, hword⟩ := fields_of_iType rfl hword
  refine Iff.trans (saysMeanings_three rfl (hrd.trans (mapRegister_field hr₀))
    (hrs1.trans (mapRegister_field hr₁))) ?_
  have himm : SaysImmediate reading (.shift6 opcode funct6 funct3) word value ↔
      FitsUnsigned 6 value ∧ FitsUnsigned 7 (funct6.setWidth 8 <<< 1) ∧
        (funct6.setWidth 8 <<< 1).getLsbD 0 = false := by
    rw [hword]
    exact readsImmediate_iff value (funct6.setWidth 8 <<< 1) _ _ _ _ .Shamt6
  have hfunct : FitsUnsigned 7 (funct6.setWidth 8 <<< 1) := by
    unfold FitsUnsigned
    rw [toNat_shiftLeft, toNat_setWidth, Nat.shiftLeft_eq]
    have hlt := funct6.isLt
    omega
  have heven : (funct6.setWidth 8 <<< 1).getLsbD 0 = false := by
    rw [getLsbD_shiftLeft]
    rfl
  exact himm.trans (and_iff_left ⟨hfunct, heven⟩)

/-- The displacement of an address is the immediate of a move. -/
theorem says_MV : SaysFitting reading frame .MV operands start := by
  intro ms word hms hword
  obtain ⟨_, op, _, _, rfl, rfl, h₀, h₁⟩ := meanings_two hms
  obtain ⟨r₀, rfl, rfl, hr₀⟩ := register_of_meaning (.inl rfl) h₀
  obtain ⟨number, hnumber, hm⟩ := base_of_meaning false h₁
  obtain ⟨hrd, hrs1, _, _, hword⟩ := fields_of_iType rfl hword
  have hrs1 : rs1Of word = number := hrs1.trans hnumber
  refine Iff.trans (saysMeanings_two rfl (hrd.trans (mapRegister_field hr₀))) ?_
  rcases hm with ⟨rfl, -⟩ | ⟨rfl, hmem⟩
  · exact iff_of_true hrs1 trivial
  · have himm : iImm word = (resolveOperand frame false op).mem.disp.setWidth 12 := by
      cases op with
      | Memory base index scale displacement =>
        rw [hword]
        exact iImm_of_iType
      | Register reg | Integer value | Other => cases hmem
      | Reference ref => cases h₁
    have hsaid : SaysImmediate reading .MV word (resolveOperand frame false op).mem.disp ↔
        FitsSigned 12 (resolveOperand frame false op).mem.disp := by
      rw [← signed12_iff, ← himm]
      rfl
    exact (and_iff_right hrs1).trans hsaid

/-! A target is a number or a symbol. -/

theorem target_of_meaning
    (hslot : slot = .Imm12Branch ∨ slot = .Imm20Upper ∨ slot = .Imm20Jump ∨ slot = .Rel)
    (h : meaning frame inst (slot, file) op = some m) :
    (∃ value, op = .Integer value ∧ m = .immediate value) ∨
      ∃ ref, op = .Reference ref ∧ m = .symbol ref ∧ ref.refType ≠ .Invalid ∧
        ref.refType ≠ .StackFrameObject := by
  have href (ref : MirReference) (h : (if ref.refType = .Invalid ∨ ref.refType = .StackFrameObject
      then none else some (Meaning.symbol ref)) = some m) :
      m = .symbol ref ∧ ref.refType ≠ .Invalid ∧ ref.refType ≠ .StackFrameObject := by
    split_ifs at h with htype
    exact ⟨(some.inj h).symm, not_or.mp htype⟩
  cases op with
  | Integer value =>
    left
    rcases hslot with rfl | rfl | rfl | rfl <;> exact ⟨_, rfl, (some.inj h).symm⟩
  | Reference ref =>
    right
    rcases hslot with rfl | rfl | rfl | rfl <;> exact ⟨_, rfl, href ref h⟩
  | Register reg | Memory base index scale displacement | Other =>
    rcases hslot with rfl | rfl | rfl | rfl <;> cases h

/-- A symbol is said by its own relocation at the word. -/
theorem saysSymbol_iff (start : ℕ) {inst : TargetInstruction} {type : TargetCodeRelocationType} :
    SaysSymbol inst [⟨type, ref, start⟩] start ref ↔
      obtainedOffset inst type ref = some ref.offset := by
  constructor
  · rintro ⟨type', hrelocs, hoffset⟩
    cases hrelocs
    exact hoffset
  · exact fun hoffset => ⟨type, rfl, hoffset⟩

/-- The label of a block is a target, another symbol has a pair of words. -/
theorem obtained_iff_isLabel {inst : TargetInstruction}
    (hinst : (∃ funct3, inst = .branch funct3) ∨ inst = .JAL ∨ inst = .CALL)
    (hinvalid : ref.refType ≠ .Invalid) (hstack : ref.refType ≠ .StackFrameObject) :
    obtainedOffset inst .BranchRel32 ref = some ref.offset ↔ IsLabel ref := by
  obtain ⟨refType, refId, offset⟩ := ref
  cases refType with
  | Invalid => exact absurd rfl hinvalid
  | StackFrameObject => exact absurd rfl hstack
  | Block =>
    have hzero : obtainedOffset inst .BranchRel32 ⟨.Block, refId, offset⟩ = some 0 := by
      rcases hinst with ⟨funct3, rfl⟩ | rfl | rfl <;> rfl
    rw [hzero]
    exact ⟨fun h => ⟨rfl, (some.inj h).symm⟩, fun h => congrArg some h.2.symm⟩
  | GlobalVar | Function =>
    rcases hinst with ⟨funct3, rfl⟩ | rfl | rfl <;>
      exact ⟨fun h => (some_ne_none _ h.symm).elim, fun h => nomatch h.1⟩

theorem says_branch : SaysFitting reading frame (.branch funct3) operands start := by
  intro ms word hms hword
  obtain ⟨_, _, _, _, _, _, rfl, rfl, h₀, h₁, h₂⟩ := meanings_three hms
  obtain ⟨r₀, rfl, rfl, hr₀⟩ := register_of_meaning (.inr (.inr ⟨rfl, rfl⟩)) h₀
  obtain ⟨r₁, rfl, rfl, hr₁⟩ := register_of_meaning (.inr (.inl rfl)) h₁
  obtain ⟨hrs1, hrs2, himm⟩ := fields_of_bType rfl hword
  refine Iff.trans (saysMeanings_three rfl (hrs1.trans (mapRegister_field hr₀))
    (hrs2.trans (mapRegister_field hr₁))) ?_
  rcases target_of_meaning (.inl rfl) h₂ with ⟨value, rfl, rfl⟩ | ⟨ref, rfl, rfl, hinvalid, hstack⟩
  · have himm : branchDisp word = value.setWidth 13 &&& ~~~1 := himm
    refine Iff.trans ?_ (even13_iff value)
    rw [← himm]
    rfl
  · have hrecorded : recorded (.branch funct3) [.Register r₀, .Register r₁, .Reference ref]
        (buildResolvedOperands frame (TargetInstruction.branch funct3).desc
          [.Register r₀, .Register r₁, .Reference ref]) start = [⟨.BranchRel32, ref, start⟩] := by
      obtain ⟨refType, refId, offset⟩ := ref
      cases refType with
      | StackFrameObject => exact absurd rfl hstack
      | _ => rfl
    rw [hrecorded]
    exact (saysSymbol_iff start).trans (obtained_iff_isLabel (.inl ⟨funct3, rfl⟩) hinvalid hstack)

theorem says_JAL : SaysFitting reading frame .JAL operands start := by
  intro ms word hms hword
  obtain ⟨_, _, _, _, rfl, rfl, h₀, h₁⟩ := meanings_two hms
  obtain ⟨r₀, rfl, rfl, hr₀⟩ := register_of_meaning (.inl rfl) h₀
  obtain ⟨hrd, himm⟩ := fields_of_jType rfl hword
  refine Iff.trans (saysMeanings_two rfl (hrd.trans (mapRegister_field hr₀))) ?_
  rcases target_of_meaning (.inr (.inr (.inl rfl))) h₁ with
    ⟨value, rfl, rfl⟩ | ⟨ref, rfl, rfl, hinvalid, hstack⟩
  · have himm : jumpDisp word = value.setWidth 21 &&& ~~~1 := himm
    refine Iff.trans ?_ (even21_iff value)
    rw [← himm]
    rfl
  · have hrecorded : recorded .JAL [.Register r₀, .Reference ref]
        (buildResolvedOperands frame TargetInstruction.JAL.desc [.Register r₀, .Reference ref])
          start = [⟨.BranchRel32, ref, start⟩] := by
      obtain ⟨refType, refId, offset⟩ := ref
      cases refType with
      | StackFrameObject => exact absurd rfl hstack
      | _ => rfl
    rw [hrecorded]
    exact (saysSymbol_iff start).trans (obtained_iff_isLabel (.inr (.inl rfl)) hinvalid hstack)

/-- The offset of a symbol in an upper immediate is the one that the linker assumes. -/
theorem obtained_upper_iff (opcode : BitVec 7) (hinvalid : ref.refType ≠ .Invalid)
    (hstack : ref.refType ≠ .StackFrameObject) :
    obtainedOffset (.upper opcode) .PCRel32 ref = some ref.offset ↔
      opcode = 0x17 ∧ ref.offset = if ref.refType = .Block then 0 else -4 := by
  obtain ⟨refType, refId, offset⟩ := ref
  have hiff (value : BitVec 64) : (if opcode = 0x17 then some value else none) = some offset ↔
      opcode = 0x17 ∧ offset = value := by
    split_ifs with hopcode
    · exact ⟨fun h => ⟨hopcode, (some.inj h).symm⟩, fun h => congrArg some h.2.symm⟩
    · exact ⟨fun h => h.elim, fun h => absurd h.1 hopcode⟩
  cases refType with
  | Invalid => exact absurd rfl hinvalid
  | StackFrameObject => exact absurd rfl hstack
  | Block => exact hiff 0
  | GlobalVar | Function => exact hiff (-4)

theorem says_upper : SaysFitting reading frame (.upper opcode) operands start := by
  intro ms word hms hword
  obtain ⟨_, _, _, _, rfl, rfl, h₀, h₁⟩ := meanings_two hms
  obtain ⟨r₀, rfl, rfl, hr₀⟩ := register_of_meaning (.inl rfl) h₀
  obtain ⟨hrd, rd, hword⟩ := fields_of_uType rfl hword
  refine Iff.trans (saysMeanings_two rfl (hrd.trans (mapRegister_field hr₀))) ?_
  rcases target_of_meaning (.inr (.inl rfl)) h₁ with
    ⟨value, rfl, rfl⟩ | ⟨ref, rfl, rfl, hinvalid, hstack⟩
  · have hvalue : SaysImmediate reading (.upper opcode) word value ↔ UpperFits reading value := by
      rw [hword]
      exact readsUpper_iff reading value rd _
    exact hvalue
  · have hrecorded : recorded (.upper opcode) [.Register r₀, .Reference ref]
        (buildResolvedOperands frame (TargetInstruction.upper opcode).desc
          [.Register r₀, .Reference ref]) start = [⟨.PCRel32, ref, start⟩] := by
      obtain ⟨refType, refId, offset⟩ := ref
      cases refType with
      | StackFrameObject => exact absurd rfl hstack
      | _ => rfl
    rw [hrecorded]
    exact (saysSymbol_iff start).trans (obtained_upper_iff opcode hinvalid hstack)

theorem says_NOP : SaysFitting reading frame .NOP operands start := by
  intro ms word hms _
  obtain ⟨-, rfl⟩ := meanings_nil hms
  exact iff_of_true .nil trivial

end Instructions

/-! ## The pseudo instructions -/

def SystemInstruction.word : SystemInstruction → BitVec 32
  | RET => 0x00008067
  | ECALL => 0x00000073
  | EBREAK => 0x00100073
  | URET => 0x00200073
  | SRET => 0x10200073
  | MRET => 0x30200073
  | WFI => 0x10500073
  | FENCE => 0x0FF0000F
  | FENCE_I => 0x0000100F

section Pseudo

variable {reading : UpperReading} {frame : StackFrame} {operands : List MirOperand} {start : ℕ}
  {word : BitVec 32} {relocs : List CodeRelocation} {ms : List Meaning}

theorem emitInst_system (inst : SystemInstruction) :
    emitInst frame (some (TargetInstruction.system inst).desc) operands start =
      some ⟨wordBytes inst.word, []⟩ := by
  cases inst <;> rfl

theorem says_system {inst : SystemInstruction}
    (hms : meanings frame (.system inst) (TargetInstruction.system inst).slots operands = some ms) :
    SaysMeanings reading (.system inst) word relocs start ms ↔
      MeaningsFit reading (.system inst) ms := by
  obtain ⟨-, rfl⟩ := meanings_nil hms
  exact iff_of_true .nil trivial

/-- `jal ra, 0` -/
def jalRa : BitVec 32 := (1 <<< 7) ||| 0x6F

theorem emitInst_CALL : emitInst frame (some TargetInstruction.CALL.desc) operands start =
      some ⟨wordBytes jalRa, (relocRef operands (buildResolvedOperands frame
        TargetInstruction.CALL.desc operands)).toList.map fun ref =>
          ⟨.BranchRel32, ref, start⟩⟩ := by
  change (match if true then relocRef operands (buildResolvedOperands frame
      TargetInstruction.CALL.desc operands) else none with
    | none => some (⟨wordBytes jalRa, []⟩ : Emission)
    | some ref => some ⟨wordBytes jalRa, [⟨.BranchRel32, ref, start⟩]⟩) = _
  rw [if_pos rfl]
  cases relocRef operands (buildResolvedOperands frame TargetInstruction.CALL.desc operands) <;> rfl

theorem says_CALL (hms : meanings frame .CALL TargetInstruction.CALL.slots operands = some ms) :
    SaysMeanings reading .CALL jalRa ((relocRef operands (buildResolvedOperands frame
        TargetInstruction.CALL.desc operands)).toList.map fun ref =>
          ⟨.BranchRel32, ref, start⟩) start ms ↔
      MeaningsFit reading .CALL ms := by
  obtain ⟨_, _, _, _, rfl, rfl, h₀, hms⟩ := meanings_cons hms
  obtain ⟨rfl, rfl⟩ := meanings_nil hms
  rcases target_of_meaning (.inr (.inr (.inr rfl))) h₀ with
    ⟨value, rfl, rfl⟩ | ⟨ref, rfl, rfl, hinvalid, hstack⟩
  · have hzero : (jumpDisp jalRa).signExtend 64 = 0 := by decide
    constructor
    · rintro (_ | ⟨h, -⟩)
      exact h.symm.trans hzero
    · exact fun h => .cons (hzero.trans h.symm) .nil
  · have hrelocs : (relocRef [.Reference ref] (buildResolvedOperands frame
        TargetInstruction.CALL.desc [.Reference ref])).toList.map
          (fun ref => (⟨.BranchRel32, ref, start⟩ : CodeRelocation)) =
        [⟨.BranchRel32, ref, start⟩] := by
      obtain ⟨refType, refId, offset⟩ := ref
      cases refType with
      | StackFrameObject => exact absurd rfl hstack
      | _ => rfl
    rw [hrelocs]
    have hsymbol := (saysSymbol_iff start).trans
      (obtained_iff_isLabel (.inr (.inr rfl)) hinvalid hstack)
    constructor
    · rintro (_ | ⟨h, -⟩)
      exact hsymbol.mp h
    · exact fun h => .cons (hsymbol.mpr h) .nil

end Pseudo

/-! ## When an emission is faithful -/

section

variable {reading : UpperReading} {frame : StackFrame} {inst : TargetInstruction}
  {operands : List MirOperand} {start : ℕ}

/-- A format is faithful when its words say what fits. -/
theorem emittedFaithfully_of_says (hnone : inst.form ≠ .None) (hpseudo : inst.form ≠ .Pseudo)
    (hsaid : SaysFitting reading frame inst operands start) :
    EmittedFaithfully reading frame inst operands start ↔
      Expressible reading frame inst operands := by
  obtain ⟨word, hword⟩ := exists_word hnone hpseudo (buildResolvedOperands frame inst.desc operands)
  rw [emittedFaithfully_iff_meanings (emitInst_of_form hnone hpseudo hword)]
  exact exists_congr fun ms => and_congr_right fun hms => hsaid ms word hms hword

end

/-! A load whose address has an index is emitted without it. -/

def loadInstruction : TargetInstruction := .immediate 0x03 3 .GPR

def gpr (id : ℕ) : MirRegister := ⟨false, .GPR, id⟩

end EzPacker.RiscV
