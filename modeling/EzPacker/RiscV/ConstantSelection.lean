import EzPacker.Mir.ScalarOperations
import EzPacker.RiscV.EncodingExact

/-!
# Selecting constants

The instructions that a move of a constant and a comparison with a constant are selected to, with
the rows of the instruction table that they name, and the bytes that they are emitted as.
-/

namespace EzPacker.RiscV

open List BitVec

open Mir (MirInstructionOpCode)

/-! ## Rows of the instruction table -/

/-- An operation on a register and an immediate. -/
def opImmRow (funct3 : BitVec 8) : EncodingDesc where
  form := .IType
  opcode := 0x13
  funct3 := funct3
  funct7 := 0
  operands := [⟨.Rd, 0⟩, ⟨.Rs1, 1⟩, ⟨.Imm12Signed, 2⟩]
  relocOperand := 0xFF
  operandCount_le := addi64ri.operandCount_le

/-- An operation on two registers. -/
def opRow (opcode funct3 funct7 : BitVec 8) : EncodingDesc where
  form := .RType
  opcode := opcode
  funct3 := funct3
  funct7 := funct7
  operands := [⟨.Rd, 0⟩, ⟨.Rs1, 1⟩, ⟨.Rs2, 2⟩]
  relocOperand := 0xFF
  operandCount_le := addi64ri.operandCount_le

def ADDI64ri : EncodingDesc := opImmRow 0x0

def SLTI64ri : EncodingDesc := opImmRow 0x2

def SLTIU64ri : EncodingDesc := opImmRow 0x3

def XORI64ri : EncodingDesc := opImmRow 0x4

def SUB64rr : EncodingDesc := opRow 0x33 0x0 0x20

def SUB32rr : EncodingDesc := opRow 0x3B 0x0 0x20

def SLT64rr : EncodingDesc := opRow 0x33 0x2 0x00

def SLTU64rr : EncodingDesc := opRow 0x33 0x3 0x00

theorem lui_operandCount_le : [(⟨.Rd, 0⟩ : EncOperandBinding), ⟨.Imm20Upper, 1⟩].length ≤ 4 := by
  decide

def LUI : EncodingDesc where
  form := .UType
  opcode := 0x37
  funct3 := 0
  funct7 := 0
  operands := [⟨.Rd, 0⟩, ⟨.Imm20Upper, 1⟩]
  relocOperand := 0xFF
  operandCount_le := lui_operandCount_le

/-! ## Selected instructions -/

/-- The registers that the selector names. -/
inductive SelectedRegister
  | zeroReg | dst | lhs | rhs | tmpRhs | tmp
  deriving DecidableEq, Repr

inductive SelectedOperand
  | Register (reg : SelectedRegister)
  | Integer (value : BitVec 64)
  deriving DecidableEq, Repr

structure SelectedInstruction where
  desc : EncodingDesc
  operands : List SelectedOperand

open SelectedRegister

def zeroReg : SelectedOperand := .Register .zeroReg

def dst : SelectedOperand := .Register .dst

def lhs : SelectedOperand := .Register .lhs

def tmp : SelectedOperand := .Register .tmp

/-- The constant is one of the immediates of the I format. -/
def isImm12 (value : BitVec 64) : Bool := -2048 ≤ value.toInt ∧ value.toInt ≤ 2047

/-- The rounded upper part of the low 32 bits, in the arithmetic of `int32_t`. -/
def hi20 (value : BitVec 64) : BitVec 32 := (value.setWidth 32 + 0x800).sshiftRight 12

def lo12 (value : BitVec 64) : BitVec 32 := value.setWidth 32 - hi20 value <<< 12

/-- A move of a constant. -/
def selectMOV (value : BitVec 64) : List SelectedInstruction :=
  if isImm12 value then [⟨ADDI64ri, [dst, zeroReg, .Integer value]⟩]
  else
    [⟨LUI, [dst, .Integer ((hi20 value).signExtend 64)]⟩,
      ⟨ADDI64ri, [dst, dst, .Integer ((lo12 value).signExtend 64)]⟩]

/-- The comparison with a register on the right. -/
def selectCompare (opcode : MirInstructionOpCode) (is64 : Bool) (effectiveRhs : SelectedOperand) :
    Option (List SelectedInstruction) :=
  let subOp := if is64 then SUB64rr else SUB32rr
  match opcode with
  | .CMP_SLT => some [⟨SLT64rr, [dst, lhs, effectiveRhs]⟩]
  | .CMP_ULT => some [⟨SLTU64rr, [dst, lhs, effectiveRhs]⟩]
  | .CMP_SGT => some [⟨SLT64rr, [dst, effectiveRhs, lhs]⟩]
  | .CMP_UGT => some [⟨SLTU64rr, [dst, effectiveRhs, lhs]⟩]
  | .CMP_EQ =>
    some [⟨subOp, [tmp, lhs, effectiveRhs]⟩, ⟨SLTIU64ri, [dst, tmp, .Integer 1]⟩]
  | .CMP_NE => some [⟨subOp, [tmp, lhs, effectiveRhs]⟩, ⟨SLTU64rr, [dst, zeroReg, tmp]⟩]
  | .CMP_SLE =>
    some [⟨SLT64rr, [tmp, effectiveRhs, lhs]⟩, ⟨XORI64ri, [dst, tmp, .Integer 1]⟩]
  | .CMP_SGE =>
    some [⟨SLT64rr, [tmp, lhs, effectiveRhs]⟩, ⟨XORI64ri, [dst, tmp, .Integer 1]⟩]
  | .CMP_ULE =>
    some [⟨SLTU64rr, [tmp, effectiveRhs, lhs]⟩, ⟨XORI64ri, [dst, tmp, .Integer 1]⟩]
  | .CMP_UGE =>
    some [⟨SLTU64rr, [tmp, lhs, effectiveRhs]⟩, ⟨XORI64ri, [dst, tmp, .Integer 1]⟩]
  | _ => none

def selectCMP (opcode : MirInstructionOpCode) (is64 : Bool) (rhs : SelectedOperand) :
    Option (List SelectedInstruction) :=
  match rhs with
  | .Register _ => selectCompare opcode is64 rhs
  | .Integer value =>
    if opcode = .CMP_SLT ∧ isImm12 value then some [⟨SLTI64ri, [dst, lhs, rhs]⟩]
    else if opcode = .CMP_ULT ∧ isImm12 value then some [⟨SLTIU64ri, [dst, lhs, rhs]⟩]
    else
      (selectCompare opcode is64 (.Register .tmpRhs)).map fun insts =>
        ⟨ADDI64ri, [.Register .tmpRhs, zeroReg, rhs]⟩ :: insts

/-! ## Emission -/

/-- The numbers of the registers. The temporary of the constant is defined while the left side is
live. -/
structure Allocation where
  number : SelectedRegister → BitVec 5
  zeroReg_eq : number .zeroReg = 0
  dst_ne : number .dst ≠ 0
  tmp_ne : number .tmp ≠ 0
  tmpRhs_ne : number .tmpRhs ≠ 0
  tmpRhs_ne_lhs : number .lhs ≠ number .tmpRhs

def Allocation.resolve (alloc : Allocation) : SelectedOperand → ResolvedOperand
  | .Register reg => registerOperand ((alloc.number reg).setWidth 8)
  | .Integer value => immediateOperand value

def emit (alloc : Allocation) : List SelectedInstruction → List UInt8 → Option (List UInt8)
  | [], out => some out
  | inst :: insts, out =>
    match encode inst.desc (inst.operands.map alloc.resolve) out with
    | (true, out, _) => emit alloc insts out
    | (false, _, _) => none

/-- The registers after the emitted code. -/
def runSelected (alloc : Allocation) (insts : List SelectedInstruction) (regs : Registers) :
    Option Registers :=
  (emit alloc insts []).bind fun code => runCode code regs

/-! ## The registers after the code -/

def wordOfInstruction (alloc : Allocation) (inst : SelectedInstruction) : Option (BitVec 32) :=
  encodeForm inst.desc (collect inst.desc (inst.operands.map alloc.resolve))

/-- The rows have a format with a word. -/
def HasWord (alloc : Allocation) (inst : SelectedInstruction) (word : BitVec 32) : Prop :=
  inst.desc.form ≠ .None ∧ inst.desc.form ≠ .Pseudo ∧ wordOfInstruction alloc inst = some word

variable {alloc : Allocation} {insts : List SelectedInstruction}

theorem emit_cons {inst : SelectedInstruction} {word : BitVec 32} (h : HasWord alloc inst word)
    (insts : List SelectedInstruction) (out : List UInt8) :
    emit alloc (inst :: insts) out = emit alloc insts (emitWord out word) := by
  obtain ⟨hnone, hpseudo, hword⟩ := h
  unfold wordOfInstruction at hword
  have hencode : ∃ result, encode inst.desc (inst.operands.map alloc.resolve) out =
      (true, emitWord out word, result) := by
    unfold encode
    rw [if_neg hnone, if_neg hpseudo]
    dsimp only
    rw [hword]
    exact ⟨_, rfl⟩
  obtain ⟨result, hencode⟩ := hencode
  rw [emit, hencode]

theorem emit_eq {words : List (BitVec 32)} (h : Forall₂ (HasWord alloc) insts words)
    (out : List UInt8) : emit alloc insts out = some (out ++ words.flatMap wordBytes) := by
  induction h generalizing out with
  | nil => rw [emit, flatMap_nil, append_nil]
  | cons hfirst _ ih =>
    rw [emit_cons hfirst, ih, emitWord, List.flatMap_cons, List.append_assoc]

theorem runCode_flatMap (words : List (BitVec 32)) (regs : Registers) :
    runCode (words.flatMap wordBytes) regs = words.foldlM (fun regs word => executeWord word regs)
      regs := by
  induction words generalizing regs with
  | nil => rfl
  | cons word words ih =>
    rw [flatMap_cons, runCode_wordBytes, foldlM_cons]
    cases executeWord word regs with
    | none => rfl
    | some regs' => exact ih regs'

theorem runSelected_eq {words : List (BitVec 32)} (h : Forall₂ (HasWord alloc) insts words)
    (regs : Registers) :
    runSelected alloc insts regs = words.foldlM (fun regs word => executeWord word regs) regs := by
  rw [runSelected, emit_eq h, Option.bind_some, nil_append, runCode_flatMap]

/-!
## When constants are exact

A moved constant arrives when the encoder places its upper part, and a comparison takes the constant
when it is an immediate of the I format.
-/

/-! ## What the selected instructions do -/

/-- The word of the instruction changes the registers by `f`. -/
def Does (alloc : Allocation) (inst : SelectedInstruction)
    (f : Registers → Option Registers) : Prop :=
  ∃ word, HasWord alloc inst word ∧ ∀ regs, executeWord word regs = f regs

theorem runSelected_of_does {fs : List (Registers → Option Registers)}
    (h : Forall₂ (Does alloc) insts fs) (regs : Registers) :
    runSelected alloc insts regs = fs.foldlM (fun regs f => f regs) regs := by
  have hwords : ∃ words, Forall₂ (HasWord alloc) insts words ∧
      ∀ regs, words.foldlM (fun regs word => executeWord word regs) regs =
        fs.foldlM (fun regs f => f regs) regs := by
    clear regs
    induction h with
    | nil => exact ⟨[], .nil, fun _ => rfl⟩
    | cons hfirst _ ih =>
      obtain ⟨word, hword, hexecute⟩ := hfirst
      obtain ⟨words, hwords, hrun⟩ := ih
      refine ⟨word :: words, .cons hword hwords, fun regs => ?_⟩
      rw [foldlM_cons, foldlM_cons, hexecute]
      exact congrArg _ (funext hrun)
  obtain ⟨words, hwords, hrun⟩ := hwords
  rw [runSelected_eq hwords, hrun]

section Does

variable (alloc : Allocation) (d s t : SelectedRegister) (value : BitVec 64)

/-- What the encoder places for a register. -/
def Allocation.field (reg : SelectedRegister) : BitVec 8 :=
  (alloc.number reg).setWidth 8 &&& 0x1F

theorem Allocation.setWidth_field (reg : SelectedRegister) :
    (alloc.field reg).setWidth 5 = alloc.number reg := by
  unfold Allocation.field
  apply eq_of_getLsbD_eq
  intro i hi
  interval_cases i <;> simp

theorem does_lui : Does alloc ⟨LUI, [.Register d, .Integer value]⟩ fun regs =>
    some (regs.write (alloc.number d) (((upperOf value).setWidth 32 <<< 12).signExtend 64)) := by
  refine ⟨uTypeWord value (alloc.field d) 0x37, ⟨nofun, nofun, rfl⟩, fun regs => ?_⟩
  rw [executeWord_lui, alloc.setWidth_field]

theorem does_opImm (funct3 : BitVec 8) :
    Does alloc ⟨opImmRow funct3, [.Register d, .Register s, .Integer value]⟩ fun regs =>
      (opImm (funct3.setWidth 3) (regs.read (alloc.number s))
        ((value.setWidth 12).signExtend 64)).map (regs.write (alloc.number d)) := by
  refine ⟨iTypeWord value 0 (alloc.field s) funct3 (alloc.field d) 0x13, ⟨nofun, nofun, rfl⟩,
    fun regs => ?_⟩
  rw [executeWord_opImm, alloc.setWidth_field, alloc.setWidth_field]

theorem does_op (funct3 funct7 : BitVec 8) :
    Does alloc ⟨opRow 0x33 funct3 funct7, [.Register d, .Register s, .Register t]⟩ fun regs =>
      (op (funct7.setWidth 7) (funct3.setWidth 3) (regs.read (alloc.number s))
        (regs.read (alloc.number t))).map (regs.write (alloc.number d)) := by
  refine ⟨rTypeWord funct7 (alloc.field t) (alloc.field s) funct3 (alloc.field d) 0x33,
    ⟨nofun, nofun, rfl⟩, fun regs => ?_⟩
  rw [executeWord_op, alloc.setWidth_field, alloc.setWidth_field, alloc.setWidth_field]

theorem does_op32 (funct3 funct7 : BitVec 8) :
    Does alloc ⟨opRow 0x3B funct3 funct7, [.Register d, .Register s, .Register t]⟩ fun regs =>
      (op32 (funct7.setWidth 7) (funct3.setWidth 3) (regs.read (alloc.number s))
        (regs.read (alloc.number t))).map (regs.write (alloc.number d)) := by
  refine ⟨rTypeWord funct7 (alloc.field t) (alloc.field s) funct3 (alloc.field d) 0x3B,
    ⟨nofun, nofun, rfl⟩, fun regs => ?_⟩
  rw [executeWord_op32, alloc.setWidth_field, alloc.setWidth_field, alloc.setWidth_field]

end Does

/-! ## Moved constants -/

/-- The emitted code leaves the constant in the low bits of the destination. -/
def Materialises (w : ℕ) (value : BitVec 64) : Prop :=
  ∀ (alloc : Allocation) (regs : Registers), ∃ regs',
    runSelected alloc (selectMOV value) regs = some regs' ∧
      (regs'.read (alloc.number .dst)).setWidth w = value.setWidth w

/-- What the code leaves in the destination. -/
def movedValue (value : BitVec 64) : BitVec 64 :=
  if isImm12 value then value
  else ((upperOf ((hi20 value).signExtend 64)).setWidth 32 <<< 12).signExtend 64 +
    (((lo12 value).signExtend 64).setWidth 12).signExtend 64

theorem isImm12_iff (value : BitVec 64) : isImm12 value = true ↔ FitsSigned 12 value := by
  unfold isImm12 FitsSigned
  rw [decide_eq_true_eq]
  omega

theorem run_selectMOV (alloc : Allocation) (value : BitVec 64) (regs : Registers) :
    ∃ regs', runSelected alloc (selectMOV value) regs = some regs' ∧
      regs'.read (alloc.number .dst) = movedValue value := by
  have hdst := alloc.dst_ne
  unfold selectMOV movedValue
  by_cases himm : isImm12 value
  · rw [if_pos himm, if_pos himm]
    have hrun : runSelected alloc [⟨ADDI64ri, [dst, zeroReg, .Integer value]⟩] regs = _ :=
      runSelected_of_does (.cons (does_opImm alloc .dst .zeroReg value 0) .nil) regs
    rw [hrun]
    refine ⟨_, rfl, ?_⟩
    have hvalue := (signExtend_setWidth_iff (by decide) (by decide) value).mpr
      ((isImm12_iff value).mp himm)
    rw [Registers.read_write_self _ hdst, alloc.zeroReg_eq, Registers.read_zero, hvalue]
    exact BitVec.zero_add value
  · rw [if_neg himm, if_neg himm]
    have hrun : runSelected alloc [⟨LUI, [dst, .Integer ((hi20 value).signExtend 64)]⟩,
        ⟨ADDI64ri, [dst, dst, .Integer ((lo12 value).signExtend 64)]⟩] regs = _ :=
      runSelected_of_does (.cons (does_lui alloc .dst _)
        (.cons (does_opImm alloc .dst .dst _ 0) .nil)) regs
    rw [hrun]
    refine ⟨_, rfl, ?_⟩
    rw [Registers.read_write_self _ hdst, Registers.read_write_self _ hdst]

theorem materialises_iff_movedValue (w : ℕ) (value : BitVec 64) :
    Materialises w value ↔ (movedValue value).setWidth w = value.setWidth w := by
  constructor
  · intro h
    let alloc : Allocation :=
      ⟨fun | .zeroReg => 0 | .lhs => 1 | _ => 2, rfl, by decide, by decide, by decide, by decide⟩
    obtain ⟨regs', hrun, hvalue⟩ := h alloc fun _ => 0
    obtain ⟨moved, hmoved, hread⟩ := run_selectMOV alloc value fun _ => 0
    rw [hrun] at hmoved
    cases hmoved
    rw [← hread, hvalue]
  · intro h alloc regs
    obtain ⟨regs', hrun, hread⟩ := run_selectMOV alloc value regs
    exact ⟨regs', hrun, hread ▸ h⟩

/-! ## The moved number -/

/-- The constant, rounded up to the pages of the upper part. -/
def roundedValue (value : BitVec 64) : ℤ := (value.setWidth 32 + 0x800#32).toInt

theorem roundedValue_eq (value : BitVec 64) :
    roundedValue value = (value.toInt + 2048).bmod (2 ^ 32) := by
  unfold roundedValue
  have hconst : (0x800#32).toInt = 2048 := by decide
  have hnat := toInt_eq_toNat_cond value
  rw [toInt_add, toInt_setWidth, hconst]
  simp only [Int.bmod_def]
  omega

theorem toInt_hi20 (value : BitVec 64) : (hi20 value).toInt = roundedValue value / 4096 := by
  unfold hi20 roundedValue
  rw [toInt_sshiftRight, Int.shiftRight_eq_div_pow]
  rfl

theorem toInt_lo12 (value : BitVec 64) : (lo12 value).toInt = roundedValue value % 4096 - 2048 := by
  have hhi := toInt_hi20 value
  have hshift : hi20 value <<< 12 = hi20 value * 4096#32 := by
    rw [shiftLeft_eq_mul_twoPow]
    rfl
  have hfour : (4096#32).toInt = 4096 := by decide
  have height : (0x800#32).toInt = 2048 := by decide
  have hbounds' := toInt_lt (x := value.setWidth 32)
  unfold lo12
  rw [hshift, toInt_sub, toInt_mul, hhi, hfour]
  unfold roundedValue
  rw [toInt_add, height]
  simp only [Int.bmod_def]
  omega

theorem toInt_setWidth_shiftLeft (x : BitVec 20) :
    (x.setWidth 32 <<< 12).toInt = x.toInt * 4096 := by
  rw [toInt_eq_toNat_bmod, toInt_eq_toNat_bmod, toNat_shiftLeft, Nat.shiftLeft_eq, toNat_setWidth]
  simp only [Int.bmod_def]
  omega

theorem toInt_upperOf {hi : BitVec 32} (hlow : -2 ^ 19 ≤ hi.toInt) (hhigh : hi.toInt < 2 ^ 19) :
    (upperOf (hi.signExtend 64)).toInt = if 0 ≤ hi.toInt then hi.toInt else hi.toInt / 4096 := by
  have hlow32 : (hi.signExtend 64).setWidth 32 = hi := setWidth_signExtend_of_le (by decide) hi
  have hwide : (hi.signExtend 64).toInt = hi.toInt := toInt_signExtend_of_le (by decide)
  have hnat := toInt_eq_toNat_cond hi
  have hnat' := toInt_eq_toNat_cond (hi.signExtend 64)
  have hlt := hi.isLt
  have hlt' := (hi.signExtend 64).isLt
  have hle : hi ≤ 0xFFFFF#32 ↔ 0 ≤ hi.toInt := by
    rw [le_def, toNat_ofNat]
    omega
  unfold upperOf
  rw [hlow32]
  by_cases hsign : 0 ≤ hi.toInt
  · rw [if_pos (hle.mpr hsign), if_pos hsign, toInt_eq_toNat_bmod, toNat_setWidth]
    simp only [Int.bmod_def]
    omega
  · rw [if_neg (mt hle.mp hsign), if_neg hsign, toInt_eq_toNat_bmod, toNat_setWidth,
      toNat_ushiftRight, Nat.shiftRight_eq_div_pow]
    simp only [Int.bmod_def]
    omega

/-- What the encoder places for the upper part: one below zero counts as shifted already. -/
def placedUpper (s : ℤ) : ℤ := if 0 ≤ s then s / 4096 else s / 2 ^ 24

theorem toInt_movedValue (value : BitVec 64) : (movedValue value).toInt =
      placedUpper (roundedValue value) * 4096 + roundedValue value % 4096 - 2048 := by
  have hlow : -2 ^ 31 ≤ roundedValue value := le_toInt _
  have hhigh : roundedValue value < 2 ^ 31 := toInt_lt
  unfold movedValue
  by_cases himm : isImm12 value
  · rw [if_pos himm]
    obtain ⟨hge, hle⟩ := (isImm12_iff value).mp himm
    have hrounded := roundedValue_eq value
    rw [Int.bmod_def] at hrounded
    unfold placedUpper
    rw [if_pos (by omega)]
    omega
  · rw [if_neg himm]
    have hlo := toInt_lo12 value
    have hwide : ((lo12 value).signExtend 64).toInt = (lo12 value).toInt :=
      toInt_signExtend_of_le (by decide)
    have hfits : FitsSigned 12 ((lo12 value).signExtend 64) := by
      constructor <;> omega
    have hlo64 := signExtend_setWidth_of_fits (by decide) (by decide) hfits
    have hhi := toInt_hi20 value
    have hupper := @toInt_upperOf (hi20 value) (by omega) (by omega)
    rw [hlo64, toInt_add, hwide, toInt_signExtend_of_le (by decide),
      toInt_setWidth_shiftLeft, hupper, hhi, hlo, Int.bmod_def]
    unfold placedUpper
    split <;> omega

theorem materialises_eight (value : BitVec 64) : Materialises 8 value := by
  rw [materialises_iff_movedValue, setWidth_eq_setWidth_iff (by decide), toInt_movedValue,
    roundedValue_eq, Int.bmod_def]
  omega

theorem materialises_sixteen_iff (value : BitVec 64) : Materialises 16 value ↔
      0 ≤ roundedValue value ∨
        (16 : ℤ) ∣ roundedValue value / 4096 - roundedValue value / 2 ^ 24 := by
  have hrounded := roundedValue_eq value
  rw [Int.bmod_def] at hrounded
  rw [materialises_iff_movedValue, setWidth_eq_setWidth_iff (by decide), toInt_movedValue]
  unfold placedUpper
  omega

theorem placedUpper_eq_iff {s : ℤ} (hlow : -2 ^ 31 ≤ s) (hhigh : s < 2 ^ 31) :
    (2 ^ 20 : ℤ) ∣ placedUpper s - s / 4096 ↔ -4096 ≤ s := by
  unfold placedUpper
  split
  · omega
  · by_cases hsmall : -4096 ≤ s
    · omega
    · have hpos : 0 < s / 2 ^ 24 - s / 4096 := by omega
      have hlt : s / 2 ^ 24 - s / 4096 < 2 ^ 20 := by omega
      omega

theorem materialises_thirtyTwo_iff (value : BitVec 64) : Materialises 32 value ↔
      -6144 ≤ (value.setWidth 32).toInt ∧ (value.setWidth 32).toInt < 2 ^ 31 - 2048 := by
  have hlow : -2 ^ 31 ≤ roundedValue value := le_toInt _
  have hhigh : roundedValue value < 2 ^ 31 := toInt_lt
  have hrounded := roundedValue_eq value
  rw [Int.bmod_def] at hrounded
  have hnarrow : (value.setWidth 32).toInt = value.toInt.bmod (2 ^ 32) := by
    rw [toInt_eq_toNat_cond value, toInt_setWidth, Int.bmod_def, Int.bmod_def]
    omega
  have hplaced : (2 ^ 32 : ℤ) ∣ placedUpper (roundedValue value) * 4096 +
      roundedValue value % 4096 - 2048 - value.toInt ↔
      (2 ^ 20 : ℤ) ∣ placedUpper (roundedValue value) - roundedValue value / 4096 := by omega
  rw [materialises_iff_movedValue, setWidth_eq_setWidth_iff (by decide), toInt_movedValue,
    hplaced, placedUpper_eq_iff hlow hhigh, hnarrow, Int.bmod_def]
  omega

theorem materialises_sixtyFour_iff (value : BitVec 64) :
    Materialises 64 value ↔ -6144 ≤ value.toInt ∧ value.toInt < 2 ^ 31 - 2048 := by
  have hrounded := roundedValue_eq value
  rw [Int.bmod_def] at hrounded
  rw [materialises_iff_movedValue, setWidth_eq, setWidth_eq, ← toInt_inj, toInt_movedValue]
  unfold placedUpper
  omega
end EzPacker.RiscV
