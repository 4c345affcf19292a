import EzPacker.Lib.ByteMemory
import EzPacker.RiscV.ComparedConstants

/-!
# Types narrower than a register

The instructions that comparisons, conversions, arithmetic, moves and loads of integers are
selected to. A number of a narrow type is in a register with its sign extended, which is what the
operations on the low 32 bits and the loads leave there, and what comparisons expect.
-/

namespace EzPacker.RiscV

open BitVec Option

open Mir (MirInstructionOpCode)

/-! ## Rows of the instruction table -/

/-- A row of the I format. -/
def iRow (opcode funct3 : BitVec 8) : EncodingDesc where
  form := .IType
  opcode := opcode
  funct3 := funct3
  funct7 := 0
  operands := [⟨.Rd, 0⟩, ⟨.Rs1, 1⟩, ⟨.Imm12Signed, 2⟩]
  relocOperand := 0xFF
  operandCount_le := addi64ri.operandCount_le

def ADD32rr : EncodingDesc := opRow 0x3B 0x0 0x00

def ADDI32ri : EncodingDesc := iRow 0x1B 0x0

def AND32rr : EncodingDesc := opRow 0x33 0x7 0x00

def AND32ri : EncodingDesc := iRow 0x13 0x7

def OR32rr : EncodingDesc := opRow 0x33 0x6 0x00

def OR32ri : EncodingDesc := iRow 0x13 0x6

def XOR32rr : EncodingDesc := opRow 0x33 0x4 0x00

def XOR32ri : EncodingDesc := iRow 0x13 0x4

def MUL32rr : EncodingDesc := opRow 0x3B 0x0 0x01

def DIV32rr : EncodingDesc := opRow 0x3B 0x4 0x01

def DIVU32rr : EncodingDesc := opRow 0x3B 0x5 0x01

def REM32rr : EncodingDesc := opRow 0x3B 0x6 0x01

def LB : EncodingDesc := iRow 0x03 0x0

def LH : EncodingDesc := iRow 0x03 0x1

def LW : EncodingDesc := iRow 0x03 0x2

def LD : EncodingDesc := iRow 0x03 0x3

theorem mv_operandCount_le : [(⟨.Rd, 0⟩ : EncOperandBinding), ⟨.Rs1, 1⟩].length ≤ 4 := by
  decide

def MV : EncodingDesc where
  form := .IType
  opcode := 0x13
  funct3 := 0
  funct7 := 0
  operands := [⟨.Rd, 0⟩, ⟨.Rs1, 1⟩]
  relocOperand := 0xFF
  operandCount_le := mv_operandCount_le

/-! ## Selection -/

/-- The instructions on integers. The left side of an operation is a register, and so is the
address of a load. -/
inductive IntegerInstruction
  | CMP (opcode : MirInstructionOpCode) (w : ℕ) (rhs : SelectedOperand)
  | TRUNC (w srcBits : ℕ) (src : SelectedOperand)
  | ZEXT (w srcBits : ℕ) (src : SelectedOperand)
  | SEXT (w srcBits : ℕ) (src : SelectedOperand)
  | binary (opcode : MirInstructionOpCode) (rhs : SelectedOperand)
  | MOV (w : ℕ) (src : SelectedOperand)
  | LOAD (w : ℕ)
  deriving DecidableEq, Repr

/-- The patterns of the operations on the type `i32`. -/
def selectBinary (opcode : MirInstructionOpCode) (rhs : SelectedOperand) :
    Option (List SelectedInstruction) :=
  match rhs with
  | .Register _ =>
    match opcode with
    | .ADD => some [⟨ADD32rr, [dst, lhs, rhs]⟩]
    | .SUB => some [⟨SUB32rr, [dst, lhs, rhs]⟩]
    | .AND => some [⟨AND32rr, [dst, lhs, rhs]⟩]
    | .OR => some [⟨OR32rr, [dst, lhs, rhs]⟩]
    | .XOR => some [⟨XOR32rr, [dst, lhs, rhs]⟩]
    | .MUL | .IMUL => some [⟨MUL32rr, [dst, lhs, rhs]⟩]
    | .SDIV => some [⟨DIV32rr, [dst, lhs, rhs]⟩]
    | .UDIV => some [⟨DIVU32rr, [dst, lhs, rhs]⟩]
    | .REM => some [⟨REM32rr, [dst, lhs, rhs]⟩]
    | _ => none
  | .Integer value =>
    if isImm12 value then
      match opcode with
      | .ADD => some [⟨ADDI32ri, [dst, lhs, rhs]⟩]
      | .AND => some [⟨AND32ri, [dst, lhs, rhs]⟩]
      | .OR => some [⟨OR32ri, [dst, lhs, rhs]⟩]
      | .XOR => some [⟨XOR32ri, [dst, lhs, rhs]⟩]
      | _ => none
    else none

def selectTRUNC (src : SelectedOperand) : List SelectedInstruction :=
  match src with
  | .Integer _ => [⟨ADDI64ri, [dst, zeroReg, src]⟩]
  | .Register _ => [⟨ADDI64ri, [dst, src, .Integer 0]⟩]

/-- The patterns of the types `i32` and `i64`, and the moves of the other types. -/
def selectMove (w : ℕ) (src : SelectedOperand) : List SelectedInstruction :=
  match src with
  | .Register _ =>
    if w = 32 ∨ w = 64 then [⟨MV, [dst, src]⟩] else [⟨ADDI64ri, [dst, src, .Integer 0]⟩]
  | .Integer value => selectMOV value

def selectLOAD (w : ℕ) : List SelectedInstruction :=
  let loadOp := if w ≤ 8 then LB else if w ≤ 16 then LH else if w ≤ 32 then LW else LD
  [⟨loadOp, [dst, lhs, .Integer 0]⟩]

/-- There is no selection for the extensions. -/
def select : IntegerInstruction → Option (List SelectedInstruction)
  | .CMP opcode w rhs => selectCMP opcode (w = 64) rhs
  | .TRUNC _ _ src => some (selectTRUNC src)
  | .ZEXT _ _ _ => none
  | .SEXT _ _ _ => none
  | .binary opcode rhs => selectBinary opcode rhs
  | .MOV w src => some (selectMove w src)
  | .LOAD w => some (selectLOAD w)

/-! ## The words of the rows -/

def logic (funct3 : BitVec 3) (x y : BitVec 64) : Option (BitVec 64) :=
  if funct3 = 4 then some (x ^^^ y)
  else if funct3 = 6 then some (x ||| y)
  else if funct3 = 7 then some (x &&& y)
  else none

/-- The division of the machine has a result for zero. -/
def arithmetic32 (funct7 : BitVec 7) (funct3 : BitVec 3) (x y : BitVec 32) : Option (BitVec 32) :=
  if funct7 = 0 ∧ funct3 = 0 then some (x + y)
  else if funct7 = 1 ∧ funct3 = 0 then some (x * y)
  else if funct7 = 1 ∧ funct3 = 4 then some (if y = 0 then -1 else x.sdiv y)
  else if funct7 = 1 ∧ funct3 = 5 then some (if y = 0 then -1 else x.udiv y)
  else if funct7 = 1 ∧ funct3 = 6 then some (if y = 0 then x else x.srem y)
  else none

def loaded (mem : ByteMemory) (funct3 : BitVec 3) (addr : BitVec 64) : Option (BitVec 64) :=
  if funct3 = 0 then some ((BitVec.ofNat 8 (mem.load addr 1)).signExtend 64)
  else if funct3 = 1 then some ((BitVec.ofNat 16 (mem.load addr 2)).signExtend 64)
  else if funct3 = 2 then some ((BitVec.ofNat 32 (mem.load addr 4)).signExtend 64)
  else if funct3 = 3 then some (BitVec.ofNat 64 (mem.load addr 8))
  else none

/-- The words that the constants do not need. -/
def furtherResultOf (mem : ByteMemory) (word : BitVec 32) (regs : Registers) : Option (BitVec 64) :=
  let x := regs.read (rs1Of word)
  let y := regs.read (rs2Of word)
  let imm := (iImm word).signExtend 64
  if opcodeOf word = 0x13 then logic (funct3Of word) x imm
  else if opcodeOf word = 0x33 ∧ funct7Of word = 0 then logic (funct3Of word) x y
  else if opcodeOf word = 0x1B ∧ funct3Of word = 0 then
    some (((x + imm).setWidth 32).signExtend 64)
  else if opcodeOf word = 0x3B then
    (arithmetic32 (funct7Of word) (funct3Of word) (x.setWidth 32) (y.setWidth 32)).map
      (signExtend 64)
  else if opcodeOf word = 0x03 then loaded mem (funct3Of word) (x + imm)
  else none

def executeWith (mem : ByteMemory) (word : BitVec 32) (regs : Registers) : Option Registers :=
  ((resultOf word regs).or (furtherResultOf mem word regs)).map (regs.write (rdOf word))

def runWith (alloc : Allocation) (mem : ByteMemory) :
    List SelectedInstruction → Registers → Option Registers
  | [], regs => some regs
  | inst :: insts, regs =>
    (wordOfInstruction alloc inst).bind fun word =>
      (executeWith mem word regs).bind fun regs => runWith alloc mem insts regs

/-! ## The values of the instructions -/

/-- The register holds a number of `w` bits with its sign extended. -/
def Represents (w : ℕ) (x : BitVec 64) : Prop := (x.setWidth w).signExtend 64 = x

instance (w : ℕ) (x : BitVec 64) : Decidable (Represents w x) :=
  inferInstanceAs (Decidable (_ = _))

def operandValue (alloc : Allocation) (regs : Registers) : SelectedOperand → BitVec 64
  | .Register reg => regs.read (alloc.number reg)
  | .Integer value => value

/-- What an instruction has to leave in the destination. -/
def expected (alloc : Allocation) (mem : ByteMemory) (regs : Registers) :
    IntegerInstruction → Option (BitVec 64)
  | .CMP opcode w rhs =>
    (Mir.compare opcode ((regs.read (alloc.number .lhs)).setWidth w)
      ((operandValue alloc regs rhs).setWidth w)).map flag
  | .TRUNC w _ src => some (((operandValue alloc regs src).setWidth w).signExtend 64)
  | .ZEXT w srcBits src =>
    some ((((operandValue alloc regs src).setWidth srcBits).setWidth w).signExtend 64)
  | .SEXT w srcBits src =>
    some ((((operandValue alloc regs src).setWidth srcBits).signExtend w).signExtend 64)
  | .binary opcode rhs =>
    (Mir.arithmetic opcode ((regs.read (alloc.number .lhs)).setWidth 32)
      ((operandValue alloc regs rhs).setWidth 32)).map (signExtend 64)
  | .MOV w src => some (((operandValue alloc regs src).setWidth w).signExtend 64)
  | .LOAD w =>
    some ((BitVec.ofNat w (mem.load (regs.read (alloc.number .lhs)) (w / 8))).signExtend 64)

/-- The code leaves the number in the destination. -/
def LeavesWith (alloc : Allocation) (mem : ByteMemory) (insts : List SelectedInstruction)
    (regs : Registers) (value : BitVec 64) : Prop :=
  ∃ regs', runWith alloc mem insts regs = some regs' ∧ regs'.read (alloc.number .dst) = value

/-- The instruction is selected, and its code leaves what it has to. -/
def Exact (alloc : Allocation) (mem : ByteMemory) (regs : Registers)
    (inst : IntegerInstruction) : Prop :=
  ∃ insts, select inst = some insts ∧
    ∀ value, expected alloc mem regs inst = some value → LeavesWith alloc mem insts regs value

/-! ## What the rows do -/

section Rows

variable (mem : ByteMemory) (regs : Registers) (imm : BitVec 64) (rs2 rs1 funct3 rd : BitVec 8)

theorem executeWith_of_some {word : BitVec 32} {regs' : Registers}
    (h : executeWord word regs = some regs') : executeWith mem word regs = some regs' := by
  obtain ⟨value, hvalue, hregs⟩ := map_eq_some_iff.mp h
  rw [executeWith, hvalue, some_or, map_some, hregs]

theorem executeWith_iType : executeWith mem (iTypeWord imm 0 rs1 funct3 rd 0x13) regs =
        ((opImm (funct3.setWidth 3) (regs.read (rs1.setWidth 5))
          ((imm.setWidth 12).signExtend 64)).or
        (logic (funct3.setWidth 3) (regs.read (rs1.setWidth 5))
          ((imm.setWidth 12).signExtend 64))).map (regs.write (rd.setWidth 5)) ∧
      executeWith mem (iTypeWord imm 0 rs1 0 rd 0x1B) regs =
        some (regs.write (rd.setWidth 5) (((regs.read (rs1.setWidth 5) +
          (imm.setWidth 12).signExtend 64).setWidth 32).signExtend 64)) ∧
      executeWith mem (iTypeWord imm 0 rs1 funct3 rd 0x03) regs =
        (loaded mem (funct3.setWidth 3) (regs.read (rs1.setWidth 5) +
          (imm.setWidth 12).signExtend 64)).map (regs.write (rd.setWidth 5)) := by
  have hzero : (0 : BitVec 8).setWidth 12 <<< 5 = 0#12 := by decide
  refine ⟨?_, ?_, ?_⟩
  · obtain ⟨hopcode, hrd, hfunct3, hrs1⟩ := fields_iTypeWord imm 0 rs1 funct3 rd 0x13
    have himm := iImm_iTypeWord imm 0 rs1 funct3 rd 0x13
    rw [hzero, or_zero] at himm
    rw [executeWith, resultOf, furtherResultOf, hopcode, hrd, hfunct3, hrs1, himm]
    rfl
  · obtain ⟨hopcode, hrd, hfunct3, hrs1⟩ := fields_iTypeWord imm 0 rs1 0 rd 0x1B
    have himm := iImm_iTypeWord imm 0 rs1 0 rd 0x1B
    rw [hzero, or_zero] at himm
    rw [executeWith, resultOf, furtherResultOf, hopcode, hrd, hfunct3, hrs1, himm]
    rfl
  · obtain ⟨hopcode, hrd, hfunct3, hrs1⟩ := fields_iTypeWord imm 0 rs1 funct3 rd 0x03
    have himm := iImm_iTypeWord imm 0 rs1 funct3 rd 0x03
    rw [hzero, or_zero] at himm
    rw [executeWith, resultOf, furtherResultOf, hopcode, hrd, hfunct3, hrs1, himm]
    rfl

theorem executeWith_rType (funct7 : BitVec 8) :
    executeWith mem (rTypeWord 0 rs2 rs1 funct3 rd 0x33) regs =
        ((op 0 (funct3.setWidth 3) (regs.read (rs1.setWidth 5)) (regs.read (rs2.setWidth 5))).or
        (logic (funct3.setWidth 3) (regs.read (rs1.setWidth 5))
          (regs.read (rs2.setWidth 5)))).map (regs.write (rd.setWidth 5)) ∧
      executeWith mem (rTypeWord funct7 rs2 rs1 funct3 rd 0x3B) regs =
        ((op32 (funct7.setWidth 7) (funct3.setWidth 3) (regs.read (rs1.setWidth 5))
          (regs.read (rs2.setWidth 5))).or
        ((arithmetic32 (funct7.setWidth 7) (funct3.setWidth 3)
          ((regs.read (rs1.setWidth 5)).setWidth 32)
          ((regs.read (rs2.setWidth 5)).setWidth 32)).map (signExtend 64))).map
            (regs.write (rd.setWidth 5)) := by
  constructor
  · obtain ⟨hopcode, hrd, hfunct3, hrs1, hrs2, hfunct7⟩ :=
      fields_rTypeWord 0 rs2 rs1 funct3 rd 0x33
    rw [executeWith, resultOf, furtherResultOf, hopcode, hrd, hfunct3, hrs1, hrs2, hfunct7]
    rfl
  · obtain ⟨hopcode, hrd, hfunct3, hrs1, hrs2, hfunct7⟩ :=
      fields_rTypeWord funct7 rs2 rs1 funct3 rd 0x3B
    rw [executeWith, resultOf, furtherResultOf, hopcode, hrd, hfunct3, hrs1, hrs2, hfunct7]
    rfl

end Rows

/-! ## What the instructions leave -/

variable {funct3 : BitVec 8} {value : BitVec 64}

section Leaving

variable {alloc : Allocation} {mem : ByteMemory} {insts : List SelectedInstruction}
  {regs : Registers} {value : BitVec 64}

theorem LeavesWith.unique {value' : BitVec 64} (h : LeavesWith alloc mem insts regs value)
    (h' : LeavesWith alloc mem insts regs value') : value = value' := by
  obtain ⟨regs', hrun, hread⟩ := h
  obtain ⟨regs'', hrun', hread'⟩ := h'
  rw [hrun] at hrun'
  cases hrun'
  exact hread.symm.trans hread'

/-- What the code of the constants leaves is left. -/
theorem Leaves.leavesWith (mem : ByteMemory) (h : Leaves alloc insts regs value) :
    LeavesWith alloc mem insts regs value := by
  obtain ⟨fs, regs', hdoes, hrun, hread⟩ := h
  refine ⟨regs', ?_, hread⟩
  clear hread
  induction hdoes generalizing regs with
  | nil => exact hrun
  | cons hfirst _ ih =>
    obtain ⟨word, ⟨-, -, hword⟩, hexecute⟩ := hfirst
    rw [List.foldlM_cons] at hrun
    obtain ⟨between, hbetween, hrest⟩ := bind_eq_some_iff.mp hrun
    rw [runWith, hword, bind_some,
      executeWith_of_some mem regs ((hexecute regs).trans hbetween), bind_some]
    exact ih hrest

theorem leavesWith_one {inst : SelectedInstruction} {word : BitVec 32}
    (hword : wordOfInstruction alloc inst = some word)
    (h : executeWith mem word regs = some (regs.write (alloc.number .dst) value)) :
    LeavesWith alloc mem [inst] regs value := by
  refine ⟨regs.write (alloc.number .dst) value, ?_, Registers.read_write_self _ alloc.dst_ne _⟩
  rw [runWith, hword, bind_some, h]
  rfl

variable (alloc mem regs)

theorem leavesWith_logicImm (s : SelectedRegister) (imm : BitVec 64) (h : (opImm (funct3.setWidth 3)
      (regs.read (alloc.number s)) ((imm.setWidth 12).signExtend 64)).or (logic (funct3.setWidth 3)
      (regs.read (alloc.number s)) ((imm.setWidth 12).signExtend 64)) = some value) :
    LeavesWith alloc mem [⟨iRow 0x13 funct3, [dst, .Register s, .Integer imm]⟩] regs value := by
  have hexecute := (executeWith_iType mem regs imm (alloc.field s) funct3 (alloc.field .dst)).1
  rw [alloc.setWidth_field, alloc.setWidth_field, h] at hexecute
  exact leavesWith_one rfl hexecute

theorem leavesWith_addImm32 (s : SelectedRegister) (imm : BitVec 64) :
    LeavesWith alloc mem [⟨ADDI32ri, [dst, .Register s, .Integer imm]⟩] regs
      (((regs.read (alloc.number s) + (imm.setWidth 12).signExtend 64).setWidth 32).signExtend
        64) := by
  have hexecute := (executeWith_iType mem regs imm (alloc.field s) 0 (alloc.field .dst)).2.1
  rw [alloc.setWidth_field, alloc.setWidth_field] at hexecute
  exact leavesWith_one rfl hexecute

theorem leavesWith_load (s : SelectedRegister)
    (h : loaded mem (funct3.setWidth 3) (regs.read (alloc.number s)) = some value) :
    LeavesWith alloc mem [⟨iRow 0x03 funct3, [dst, .Register s, .Integer 0]⟩] regs value := by
  have hexecute := (executeWith_iType mem regs 0 (alloc.field s) funct3 (alloc.field .dst)).2.2
  have hzero : ((0 : BitVec 64).setWidth 12).signExtend 64 = 0 := by decide
  rw [alloc.setWidth_field, alloc.setWidth_field, hzero] at hexecute
  have haddress : regs.read (alloc.number s) + 0 = regs.read (alloc.number s) :=
    add_zero _
  rw [haddress, h] at hexecute
  exact leavesWith_one rfl hexecute

theorem leavesWith_logic (s t : SelectedRegister) (h : (op 0 (funct3.setWidth 3) (regs.read
      (alloc.number s)) (regs.read (alloc.number t))).or (logic (funct3.setWidth 3) (regs.read
      (alloc.number s)) (regs.read (alloc.number t))) = some value) :
    LeavesWith alloc mem [⟨opRow 0x33 funct3 0, [dst, .Register s, .Register t]⟩] regs value := by
  have hexecute := (executeWith_rType mem regs (alloc.field t) (alloc.field s) funct3
    (alloc.field .dst) 0).1
  rw [alloc.setWidth_field, alloc.setWidth_field, alloc.setWidth_field, h] at hexecute
  exact leavesWith_one rfl hexecute

theorem leavesWith_op32 {funct7 : BitVec 8} (s t : SelectedRegister) (h : (op32 (funct7.setWidth 7)
      (funct3.setWidth 3) (regs.read (alloc.number s)) (regs.read (alloc.number t))).or
      ((arithmetic32 (funct7.setWidth 7) (funct3.setWidth 3) ((regs.read (alloc.number s)).setWidth
      32) ((regs.read (alloc.number t)).setWidth 32)).map (signExtend 64)) = some value) :
    LeavesWith alloc mem [⟨opRow 0x3B funct3 funct7, [dst, .Register s, .Register t]⟩] regs
      value := by
  have hexecute := (executeWith_rType mem regs (alloc.field t) (alloc.field s) funct3
    (alloc.field .dst) funct7).2
  rw [alloc.setWidth_field, alloc.setWidth_field, alloc.setWidth_field, h] at hexecute
  exact leavesWith_one rfl hexecute

theorem leavesWith_mv (s : SelectedRegister) :
    LeavesWith alloc mem [⟨MV, [dst, .Register s]⟩] regs (regs.read (alloc.number s)) ∧
      LeavesWith alloc mem [⟨ADDI64ri, [dst, .Register s, .Integer 0]⟩] regs
        (regs.read (alloc.number s)) := by
  have hexecute := (executeWith_iType mem regs 0 (alloc.field s) 0 (alloc.field .dst)).1
  have hadd : (opImm ((0 : BitVec 8).setWidth 3) (regs.read (alloc.number s))
      (((0 : BitVec 64).setWidth 12).signExtend 64)) = some (regs.read (alloc.number s)) :=
    congrArg some (add_zero _)
  rw [alloc.setWidth_field, alloc.setWidth_field, hadd] at hexecute
  exact ⟨leavesWith_one rfl hexecute, leavesWith_one rfl hexecute⟩

end Leaving

/-! ## Narrow numbers -/

section Numbers

variable {w : ℕ} {x y : BitVec 64}

theorem represents_iff (hw : 0 < w) (hle : w ≤ 64) : Represents w x ↔ FitsSigned w x :=
  signExtend_setWidth_iff hw hle x

/-- Two numbers of different widths are the same when the wider one has no more bits. -/
theorem signExtend_setWidth_eq_iff {n : ℕ} (hn : 0 < n) (hle : n ≤ w) (hw : w ≤ 64)
    (value : BitVec 64) :
    (value.setWidth n).signExtend 64 = (value.setWidth w).signExtend 64 ↔
      FitsSigned n (value.setWidth w) := by
  have hlow : (value.setWidth w).setWidth n = value.setWidth n :=
    setWidth_setWidth_of_le value hle
  have hwide : (value.setWidth n).signExtend 64 = ((value.setWidth n).signExtend w).signExtend 64 :=
    (signExtend_signExtend (hle.trans hw) hle _).symm
  rw [← signExtend_setWidth_iff hn hle, hlow, hwide]
  constructor
  · intro h
    have hnarrow := congrArg (setWidth w) h
    rwa [setWidth_signExtend_of_le hw, setWidth_signExtend_of_le hw] at hnarrow
  · exact congrArg _

theorem logic_represents (hx : Represents 32 x) (hy : Represents 32 y) :
    ((x.setWidth 32 &&& y.setWidth 32).signExtend 64 = x &&& y) ∧
      ((x.setWidth 32 ||| y.setWidth 32).signExtend 64 = x ||| y) ∧
      ((x.setWidth 32 ^^^ y.setWidth 32).signExtend 64 = x ^^^ y) := by
  rw [signExtend_and, signExtend_or, signExtend_xor, hx, hy]
  exact ⟨rfl, rfl, rfl⟩

/-- The immediate of the I format is the constant, which is a number of 32 bits. -/
theorem isImm12.signExtend_eq (h : isImm12 value = true) :
    (value.setWidth 12).signExtend 64 = value ∧ Represents 32 value := by
  have hfits := (isImm12_iff value).mp h
  exact ⟨(signExtend_setWidth_iff (by decide) (by decide) value).mpr hfits,
    (represents_iff (by decide) (by decide)).mpr (hfits.mono (by decide))⟩

theorem setWidth_sub_thirtyTwo (x y : BitVec 64) :
    (x - y).setWidth 32 = x.setWidth 32 - y.setWidth 32 := by
  rw [sub_eq_add_neg, setWidth_add _ _ (by decide),
    setWidth_neg_of_le (by decide), ← sub_eq_add_neg]

end Numbers

/-! ## When the code is exact -/

section Exactness

variable {alloc : Allocation} {mem : ByteMemory} {regs : Registers}

variable {inst : IntegerInstruction} {opcode : MirInstructionOpCode} {w : ℕ}

/-- Exactness of an instruction whose code and number are known. -/
theorem exact_iff {insts : List SelectedInstruction} {result : BitVec 64}
    (hselect : select inst = some insts) (hleaves : LeavesWith alloc mem insts regs value)
    (hexpected : expected alloc mem regs inst = some result) :
    Exact alloc mem regs inst ↔ value = result := by
  constructor
  · rintro ⟨insts', hinsts, h⟩
    rw [hselect] at hinsts
    cases hinsts
    exact hleaves.unique (h result hexpected)
  · rintro rfl
    refine ⟨insts, hselect, fun value' hvalue => ?_⟩
    rw [hexpected] at hvalue
    cases hvalue
    exact hleaves

theorem exact_CMP (hw : w ∈ [32, 64]) (hopcode : opcode ∈ predicates)
    (hlhs : Represents w (regs.read (alloc.number .lhs)))
    (hrhs : Represents w (regs.read (alloc.number .rhs))) :
    Exact alloc mem regs (.CMP opcode w (.Register .rhs)) := by
  obtain ⟨insts, hinsts⟩ :
      ∃ insts, selectCompare opcode (w = 64) (.Register .rhs) = some insts := by
    unfold predicates at hopcode
    fin_cases hopcode <;> exact ⟨_, rfl⟩
  obtain ⟨b, hb, hleaves⟩ := leaves_selectCompare hinsts alloc regs
  rw [← hlhs, ← hrhs, comparedRegisters_signExtend (by simpa using hw)] at hb
  have hselect : select (.CMP opcode w (.Register .rhs)) = some insts := hinsts
  have hexpected : expected alloc mem regs (.CMP opcode w (.Register .rhs)) = some (flag b) :=
    congrArg (Option.map flag) hb
  exact (exact_iff hselect (hleaves.leavesWith mem) hexpected).mpr rfl

/-- Comparisons with a constant are exact for every left side when the constant is an immediate. -/
theorem exact_CMP_constant_iff (hw : w ∈ [32, 64]) (hopcode : opcode ∈ predicates)
    (value : BitVec 64) : (∀ (alloc : Allocation) (mem : ByteMemory) (regs : Registers),
        Represents w (regs.read (alloc.number .lhs)) →
          Exact alloc mem regs (.CMP opcode w (.Integer value))) ↔
      FitsSigned 12 (value.setWidth w) := by
  have hwidth : w = 32 ∨ w = 64 := by simpa using hw
  have hle : w ≤ 64 := by omega
  rw [← comparesExactly_iff hwidth hopcode]
  constructor
  · intro h insts hinsts alloc regs left hleft
    obtain ⟨b, hb, hleaves⟩ := leaves_selectCMP hinsts alloc regs
    have hlow : (regs.read (alloc.number .lhs)).setWidth w = left := by
      rw [hleft, setWidth_signExtend_of_le hle]
    obtain ⟨insts', hinsts', hexact⟩ := h alloc (fun _ => 0) regs (by rw [Represents, hlow, hleft])
    rw [show insts' = insts from some.inj (hinsts'.symm.trans hinsts)] at hexact
    obtain ⟨regs', hrun, hread⟩ := hleaves.run
    refine ⟨regs', hrun, ?_⟩
    obtain ⟨b', hb'⟩ := ne_none_iff_exists'.mp (compare_ne_none hopcode left (value.setWidth w))
    have hexpected : expected alloc (fun _ => 0) regs (.CMP opcode w (.Integer value)) =
        some (flag b') := by
      change (Mir.compare opcode ((regs.read (alloc.number .lhs)).setWidth w) _).map flag = _
      rw [hlow]
      exact congrArg (Option.map flag) hb'
    rw [hb', hread, (hleaves.leavesWith _).unique (hexact _ hexpected)]
    rfl
  · intro h alloc mem regs hlhs
    obtain ⟨insts, hinsts⟩ := exists_selectCMP hopcode (w = 64) value
    obtain ⟨regs', hrun, hresult⟩ := h insts hinsts alloc regs _ hlhs.symm
    obtain ⟨b, hb, hleaves⟩ := leaves_selectCMP hinsts alloc regs
    obtain ⟨regs'', hrun', hread⟩ := hleaves.run
    rw [show regs' = regs'' from some.inj (hrun.symm.trans hrun'), hread] at hresult
    have hselect : select (.CMP opcode w (.Integer value)) = some insts := hinsts
    exact (exact_iff hselect (hleaves.leavesWith mem) hresult).mpr rfl

/-- A truncation is a move, which is exact where there is nothing to cut off. -/
theorem exact_TRUNC_iff {srcBits : ℕ} (hw : w ∈ [8, 16, 32]) (s : SelectedRegister) :
    Exact alloc mem regs (.TRUNC w srcBits (.Register s)) ↔
      FitsSigned w (regs.read (alloc.number s)) := by
  have hrange : 0 < w ∧ w ≤ 64 := by fin_cases hw <;> decide
  rw [exact_iff rfl (leavesWith_mv alloc mem regs s).2 rfl, eq_comm]
  exact represents_iff hrange.1 hrange.2

theorem exact_TRUNC_constant_iff {srcBits : ℕ} (hw : w ∈ [8, 16, 32]) (value : BitVec 64) :
    Exact alloc mem regs (.TRUNC w srcBits (.Integer value)) ↔
      FitsSigned (min 12 w) (value.setWidth (max 12 w)) := by
  have hadd : (opImm ((0x0 : BitVec 8).setWidth 3) (regs.read (alloc.number .zeroReg))
      ((value.setWidth 12).signExtend 64)).or (logic ((0x0 : BitVec 8).setWidth 3)
      (regs.read (alloc.number .zeroReg)) ((value.setWidth 12).signExtend 64)) =
      some ((value.setWidth 12).signExtend 64) := by
    rw [alloc.zeroReg_eq, Registers.read_zero]
    exact congrArg some (zero_add _)
  rw [exact_iff rfl (leavesWith_logicImm alloc mem regs .zeroReg value hadd) rfl]
  change (value.setWidth 12).signExtend 64 = (value.setWidth w).signExtend 64 ↔ _
  by_cases height : w = 8
  · rw [height, eq_comm]
    exact signExtend_setWidth_eq_iff (by decide) (by decide) (by decide) value
  · have hle : 12 ≤ w ∧ w ≤ 64 := by
      fin_cases hw <;> first | exact absurd rfl height | decide
    rw [min_eq_left hle.1, max_eq_right hle.1]
    exact signExtend_setWidth_eq_iff (by decide) hle.1 hle.2 value

theorem exact_of_leavesWith {insts : List SelectedInstruction} (hselect : select inst = some insts)
    (hleaves : LeavesWith alloc mem insts regs value)
    (hexpected : ∀ result, expected alloc mem regs inst = some result → value = result) :
    Exact alloc mem regs inst :=
  ⟨insts, hselect, fun _ hresult => hexpected _ hresult ▸ hleaves⟩

/-- A division by zero is undefined, and has a result in the machine. -/
theorem exact_division {r : SelectedRegister} {atZero quotient : BitVec 32}
    (hselect : select inst = some [⟨opRow 0x3B funct3 0x01, [dst, lhs, .Register r]⟩]) (hrow : (op32
      1 (funct3.setWidth 3) (regs.read (alloc.number .lhs)) (regs.read (alloc.number r))).or
      ((arithmetic32 1 (funct3.setWidth 3) ((regs.read (alloc.number .lhs)).setWidth 32) ((regs.read
      (alloc.number r)).setWidth 32)).map (signExtend 64)) = some ((if (regs.read (alloc.number
      r)).setWidth 32 = 0 then atZero else quotient).signExtend 64)) (hexpected : expected alloc mem
      regs inst = (if (regs.read (alloc.number r)).setWidth 32 = 0 then none else some quotient).map
      (signExtend 64)) : Exact alloc mem regs inst := by
  refine exact_of_leavesWith hselect (leavesWith_op32 alloc mem regs .lhs r hrow)
    fun result hresult => ?_
  rw [hexpected] at hresult
  by_cases hzero : (regs.read (alloc.number r)).setWidth 32 = 0
  · rw [if_pos hzero] at hresult
    cases hresult
  · rw [if_neg hzero] at hresult ⊢
    exact some.inj hresult

theorem exact_binary_register {r : SelectedRegister} (h : selectBinary opcode (.Register r) ≠ none)
    (hlhs : Represents 32 (regs.read (alloc.number .lhs)))
    (hrhs : Represents 32 (regs.read (alloc.number r))) :
    Exact alloc mem regs (.binary opcode (.Register r)) := by
  obtain ⟨hand, hor, hxor⟩ := logic_represents hlhs hrhs
  unfold selectBinary at h
  dsimp only at h
  cases opcode <;> try exact absurd rfl h
  case ADD =>
      exact exact_of_leavesWith rfl (leavesWith_op32 alloc mem regs .lhs r rfl)
        fun result hresult => some.inj hresult
  case SUB =>
      refine exact_of_leavesWith rfl (leavesWith_op32 alloc mem regs .lhs r rfl)
        fun result hresult => ?_
      rw [setWidth_sub_thirtyTwo]
      exact some.inj hresult
  case AND =>
      exact exact_of_leavesWith rfl (leavesWith_logic alloc mem regs .lhs r rfl)
        fun result hresult => hand.symm.trans (some.inj hresult)
  case OR =>
      exact exact_of_leavesWith rfl (leavesWith_logic alloc mem regs .lhs r rfl)
        fun result hresult => hor.symm.trans (some.inj hresult)
  case XOR =>
      exact exact_of_leavesWith rfl (leavesWith_logic alloc mem regs .lhs r rfl)
        fun result hresult => hxor.symm.trans (some.inj hresult)
  case MUL =>
      exact exact_of_leavesWith rfl (leavesWith_op32 alloc mem regs .lhs r rfl)
        fun result hresult => some.inj hresult
  case IMUL =>
      exact exact_of_leavesWith rfl (leavesWith_op32 alloc mem regs .lhs r rfl)
        fun result hresult => some.inj hresult
  case SDIV => exact exact_division rfl rfl rfl
  case UDIV => exact exact_division rfl rfl rfl
  case REM => exact exact_division rfl rfl rfl

/-- The operations on a register and an immediate. -/
theorem exact_binary_constant (h : selectBinary opcode (.Integer value) ≠ none)
    (hlhs : Represents 32 (regs.read (alloc.number .lhs))) :
    Exact alloc mem regs (.binary opcode (.Integer value)) := by
  unfold selectBinary at h
  dsimp only at h
  split_ifs at h with himm
  · obtain ⟨hvalue, hrepresents⟩ := isImm12.signExtend_eq himm
    obtain ⟨hand, hor, hxor⟩ := logic_represents hlhs hrepresents
    have hselect (row : EncodingDesc) :
        (if isImm12 value then some [⟨row, [dst, lhs, .Integer value]⟩] else none) =
          some [(⟨row, [dst, lhs, .Integer value]⟩ : SelectedInstruction)] := if_pos himm
    cases opcode <;> try exact absurd rfl h
    case ADD =>
        refine exact_of_leavesWith (hselect ADDI32ri)
          (leavesWith_addImm32 alloc mem regs .lhs value) fun result hresult => ?_
        rw [hvalue, setWidth_add _ _ (by decide)]
        exact some.inj hresult
    case AND =>
        refine exact_of_leavesWith (hselect AND32ri)
          (leavesWith_logicImm alloc mem regs .lhs value rfl) fun result hresult => ?_
        rw [hvalue, ← hand]
        exact some.inj hresult
    case OR =>
        refine exact_of_leavesWith (hselect OR32ri)
          (leavesWith_logicImm alloc mem regs .lhs value rfl) fun result hresult => ?_
        rw [hvalue, ← hor]
        exact some.inj hresult
    case XOR =>
        refine exact_of_leavesWith (hselect XOR32ri)
          (leavesWith_logicImm alloc mem regs .lhs value rfl) fun result hresult => ?_
        rw [hvalue, ← hxor]
        exact some.inj hresult
  · exact absurd rfl h

theorem exact_MOV {s : SelectedRegister} (hsrc : Represents w (regs.read (alloc.number s))) :
    Exact alloc mem regs (.MOV w (.Register s)) := by
  obtain ⟨hmv, haddi⟩ := leavesWith_mv alloc mem regs s
  have hleaves : LeavesWith alloc mem (selectMove w (.Register s)) regs
      (regs.read (alloc.number s)) := by
    unfold selectMove
    dsimp only
    split_ifs
    · exact hmv
    · exact haddi
  exact (exact_iff rfl hleaves rfl).mpr hsrc.symm

theorem leaves_selectMOV (alloc : Allocation) (regs : Registers) (value : BitVec 64) :
    Leaves alloc (selectMOV value) regs (movedValue value) := by
  unfold selectMOV movedValue
  split_ifs with himm
  · have hadd : opImm ((0x0 : BitVec 8).setWidth 3) (regs.read (alloc.number .zeroReg))
        ((value.setWidth 12).signExtend 64) = some value := by
      rw [(isImm12.signExtend_eq himm).1, alloc.zeroReg_eq, Registers.read_zero]
      exact congrArg some (zero_add _)
    exact leaves_one (does_opImm alloc .dst .zeroReg value 0x0) (congrArg (Option.map _) hadd)
  · refine Leaves.cons (leaves_one (does_opImm alloc .dst .dst _ 0x0) ?_)
      (does_lui alloc .dst _) rfl
    rw [Registers.read_write_self _ alloc.dst_ne]
    rfl

theorem exact_MOV_constant_iff (hw : 0 < w ∧ w ≤ 64) (value : BitVec 64) :
    Exact alloc mem regs (.MOV w (.Integer value)) ↔
      FitsSigned w (movedValue value) ∧ (movedValue value).setWidth w = value.setWidth w := by
  rw [exact_iff rfl ((leaves_selectMOV alloc regs value).leavesWith mem) rfl, eq_comm]
  exact signExtend_eq_iff hw.1 hw.2 _ _

/-- For each type, by the low 32 bits of the constant. -/
theorem exact_MOV_constants_iff (value : BitVec 64) :
    (Exact alloc mem regs (.MOV 8 (.Integer value)) ↔ FitsSigned 8 (value.setWidth 32)) ∧
      (Exact alloc mem regs (.MOV 16 (.Integer value)) ↔
        (0 ≤ roundedValue value ∧ roundedValue value < 2 ^ 15 + 2048) ∨ (roundedValue value < 0 ∧
            -2 ^ 15 + 2048 ≤ roundedValue value / 2 ^ 24 * 4096 + roundedValue value % 4096 ∧
            (16 : ℤ) ∣ roundedValue value / 4096 - roundedValue value / 2 ^ 24)) ∧
      (Exact alloc mem regs (.MOV 32 (.Integer value)) ↔
        -6144 ≤ (value.setWidth 32).toInt ∧ (value.setWidth 32).toInt < 2 ^ 31 - 2048) ∧
      (Exact alloc mem regs (.MOV 64 (.Integer value)) ↔
        -6144 ≤ value.toInt ∧ value.toInt < 2 ^ 31 - 2048) := by
  have hlow : -2 ^ 31 ≤ roundedValue value := le_toInt _
  have hhigh : roundedValue value < 2 ^ 31 := toInt_lt
  have hmoved := toInt_movedValue value
  have hrounded := roundedValue_eq value
  rw [Int.bmod_def] at hrounded
  have hnarrow : (value.setWidth 32).toInt = value.toInt.bmod (2 ^ 32) := by
    rw [toInt_eq_toNat_cond value, toInt_setWidth, Int.bmod_def, Int.bmod_def]
    omega
  rw [Int.bmod_def] at hnarrow
  unfold placedUpper at hmoved
  refine ⟨?_, ?_, ?_, ?_⟩
  · rw [exact_MOV_constant_iff (by decide), setWidth_eq_setWidth_iff (by decide)]
    unfold FitsSigned
    omega
  · rw [exact_MOV_constant_iff (by decide), setWidth_eq_setWidth_iff (by decide)]
    unfold FitsSigned
    omega
  · rw [exact_MOV_constant_iff (by decide), ← materialises_thirtyTwo_iff,
      materialises_iff_movedValue, and_iff_right_iff_imp, ← materialises_iff_movedValue,
      materialises_thirtyTwo_iff]
    unfold FitsSigned
    omega
  · rw [exact_MOV_constant_iff (by decide), ← materialises_sixtyFour_iff,
      materialises_iff_movedValue, and_iff_right_iff_imp]
    exact fun _ => fitsSigned_of_le (by decide) _

theorem exact_LOAD (hw : w ∈ [8, 16, 32, 64]) : Exact alloc mem regs (.LOAD w) := by
  fin_cases hw
  · exact (exact_iff rfl (leavesWith_load alloc mem regs .lhs rfl) rfl).mpr rfl
  · exact (exact_iff rfl (leavesWith_load alloc mem regs .lhs rfl) rfl).mpr rfl
  · exact (exact_iff rfl (leavesWith_load alloc mem regs .lhs rfl) rfl).mpr rfl
  · exact (exact_iff rfl (leavesWith_load alloc mem regs .lhs rfl) rfl).mpr (signExtend_eq _).symm

theorem not_exact_extension (w srcBits : ℕ) (src : SelectedOperand) :
    ¬ Exact alloc mem regs (.ZEXT w srcBits src) ∧
      ¬ Exact alloc mem regs (.SEXT w srcBits src) := by
  constructor
  · rintro ⟨insts, hselect, -⟩
    cases hselect
  · rintro ⟨insts, hselect, -⟩
    cases hselect

end Exactness

/-- Registers hold the numbers of their types: comparisons of registers, arithmetic, moves of
registers and loads are exact. A truncation and a constant are exact where the number fits what the
code does with it, and an extension never is. -/
theorem narrow_exact_iff (alloc : Allocation) (mem : ByteMemory) (regs : Registers) :
    ((∀ w ∈ [32, 64], ∀ opcode ∈ predicates, Represents w (regs.read (alloc.number .lhs)) →
        Represents w (regs.read (alloc.number .rhs)) →
          Exact alloc mem regs (.CMP opcode w (.Register .rhs))) ∧
      (∀ opcode rhs, selectBinary opcode rhs ≠ none →
        Represents 32 (regs.read (alloc.number .lhs)) →
          (∀ r, rhs = .Register r → Represents 32 (regs.read (alloc.number r))) →
            Exact alloc mem regs (.binary opcode rhs)) ∧
      (∀ w s, Represents w (regs.read (alloc.number s)) →
        Exact alloc mem regs (.MOV w (.Register s))) ∧
      (∀ w ∈ [8, 16, 32, 64], Exact alloc mem regs (.LOAD w)) ∧
      (∀ w ∈ [8, 16, 32], ∀ srcBits s, Exact alloc mem regs (.TRUNC w srcBits (.Register s)) ↔
          FitsSigned w (regs.read (alloc.number s))) ∧
      (∀ w ∈ [8, 16, 32], ∀ srcBits value,
        Exact alloc mem regs (.TRUNC w srcBits (.Integer value)) ↔
          FitsSigned (min 12 w) (value.setWidth (max 12 w))) ∧
      (∀ w srcBits src, ¬ Exact alloc mem regs (.ZEXT w srcBits src) ∧
        ¬ Exact alloc mem regs (.SEXT w srcBits src)) ∧
      ∀ value, (Exact alloc mem regs (.MOV 8 (.Integer value)) ↔ FitsSigned 8 (value.setWidth 32)) ∧
        (Exact alloc mem regs (.MOV 16 (.Integer value)) ↔
          (0 ≤ roundedValue value ∧ roundedValue value < 2 ^ 15 + 2048) ∨ (roundedValue value < 0 ∧
              -2 ^ 15 + 2048 ≤ roundedValue value / 2 ^ 24 * 4096 + roundedValue value % 4096 ∧
              (16 : ℤ) ∣ roundedValue value / 4096 - roundedValue value / 2 ^ 24)) ∧
        (Exact alloc mem regs (.MOV 32 (.Integer value)) ↔
          -6144 ≤ (value.setWidth 32).toInt ∧ (value.setWidth 32).toInt < 2 ^ 31 - 2048) ∧
        (Exact alloc mem regs (.MOV 64 (.Integer value)) ↔
          -6144 ≤ value.toInt ∧ value.toInt < 2 ^ 31 - 2048)) ∧
    ∀ w ∈ [32, 64], ∀ opcode ∈ predicates, ∀ value,
      (∀ (alloc : Allocation) (mem : ByteMemory) (regs : Registers),
          Represents w (regs.read (alloc.number .lhs)) →
            Exact alloc mem regs (.CMP opcode w (.Integer value))) ↔
        FitsSigned 12 (value.setWidth w) := by
  refine ⟨⟨?_, ?_, ?_, ?_, ?_, ?_, ?_, ?_⟩, ?_⟩
  · exact fun w hw opcode hopcode hlhs hrhs => exact_CMP hw hopcode hlhs hrhs
  · intro opcode rhs hselect hlhs hrhs
    cases rhs with
    | Register r => exact exact_binary_register hselect hlhs (hrhs r rfl)
    | Integer value => exact exact_binary_constant hselect hlhs
  · exact fun w s hsrc => exact_MOV hsrc
  · exact fun w hw => exact_LOAD hw
  · exact fun w hw srcBits s => exact_TRUNC_iff hw s
  · exact fun w hw srcBits value => exact_TRUNC_constant_iff hw value
  · exact fun w srcBits src => not_exact_extension w srcBits src
  · exact exact_MOV_constants_iff
  · exact fun w hw opcode hopcode value => exact_CMP_constant_iff hw hopcode value

/-- The left side in the register 10, the other ones in the register 11. -/
def twoRegisters : Allocation :=
  ⟨fun | .zeroReg => 0 | .lhs => 10 | _ => 11, rfl, by decide, by decide, by decide, by decide⟩

theorem small_narrow_exact :
    Exact twoRegisters (fun _ => 0) (fun _ => 7) (.TRUNC 32 64 (.Register .lhs)) ∧
      Exact twoRegisters (fun _ => 0) (fun _ => 7) (.CMP .CMP_SLT 32 (.Register .rhs)) := by
  obtain ⟨hcompare, -, -, -, htrunc, -⟩ :=
    (narrow_exact_iff twoRegisters (fun _ => 0) (fun _ => 7)).1
  exact ⟨(htrunc 32 (by decide) 64 .lhs).mpr (by decide),
    hcompare 32 (by decide) .CMP_SLT (by decide) (by decide) (by decide)⟩

/-- A number with the bit 31 is truncated to 32 bits without its sign, and is above zero for the
comparison that follows. -/
theorem truncated_not_exact :
    ¬ Exact twoRegisters (fun _ => 0) (fun _ => 0x80000000) (.TRUNC 32 64 (.Register .lhs)) ∧
      ¬ Exact twoRegisters (fun _ => 0) (fun _ => 0x80000000) (.CMP .CMP_SLT 32 (.Integer 0)) ∧
      ¬ Exact twoRegisters (fun _ => 0) (fun _ => 7) (.SEXT 64 32 (.Register .lhs)) := by
  refine ⟨fun h => ?_, fun h => ?_, (not_exact_extension 64 32 _).2⟩
  · exact absurd ((exact_TRUNC_iff (by decide) .lhs).mp h) (by decide)
  · obtain ⟨insts, hinsts, hexact⟩ := h
    have hselect : selectCMP .CMP_SLT false (.Integer 0) = some insts := hinsts
    obtain ⟨b, hb, hleaves⟩ := leaves_selectCMP hselect twoRegisters fun _ => 0x80000000
    have hfalse : b = false := some.inj (hb.symm.trans (by decide))
    rw [hfalse] at hleaves
    have hvalue := (hleaves.leavesWith fun _ => 0).unique (hexact 1 (by decide))
    exact absurd hvalue (by decide)

end EzPacker.RiscV
