import EzPacker.Mir.ScalarOperations
import EzPacker.Mir.Type

/-!
# Legality queries

A query describes an instruction to the legality tables: its opcode and flags, and
for its first six operands their types, compact type ids and kinds. The legalizer
reuses one query for a whole block; `fillQuery` clears the slots the previous
instruction used and this one does not, so that a reused query is always the one
`buildQuery` builds from scratch.
-/

namespace EzPacker.Legalizer

open Mir

/-- An operand with its type. No two instructions share an operand. -/
structure TypedOperand where
  operand : MirOperand
  mirType : Option MirType
  deriving DecidableEq

structure TypedInstruction where
  opcode : MirInstructionOpCode
  targetDesc : Option MirTargetInstructionDesc
  operands : List TypedOperand
  deriving DecidableEq

namespace TypedInstruction

/-- The instruction without the types of its operands. -/
def toMir (inst : TypedInstruction) : MirInstruction :=
  ⟨inst.opcode, inst.targetDesc, inst.operands.map TypedOperand.operand⟩

def getOperandFlag (inst : TypedInstruction) (index : ℕ) : MirOperandFlag :=
  inst.toMir.getOperandFlag index

def getFlags (inst : TypedInstruction) : List MirInstructionFlag :=
  inst.toMir.getMetadata.flags

def isSigned (inst : TypedInstruction) : Bool := .TreatAsSigned ∈ inst.getFlags

def swapOperand (inst : TypedInstruction) (operand : TypedOperand) (index : ℕ) : TypedInstruction :=
  { inst with operands := inst.operands.set index operand }

end TypedInstruction

/-- The kind of an operand, as a query shows it. -/
inductive OperandKind
  | None | Register | Integer | FloatingPoint | Memory | Reference | RuntimeSymbol
  deriving DecidableEq, Repr

def operandKind : MirOperand → OperandKind
  | .register _ => .Register
  | .integer _ => .Integer
  | .floatingPoint _ => .FloatingPoint
  | .memory _ => .Memory
  | .reference _ => .Reference
  | .runtimeSymbol _ => .RuntimeSymbol

/-- One slot of the parallel operand arrays. -/
structure QuerySlot where
  type : Option MirType
  compactId : ℕ
  kind : OperandKind
  deriving DecidableEq

def QuerySlot.empty : QuerySlot := ⟨none, 0, .None⟩

/-- A query has a first slot. -/
instance slotCount_neZero : @NeZero ℕ Zero.ofOfNat0 6 := ⟨Nat.succ_ne_zero 5⟩

/-- `opcode` is none before the first fill. -/
structure LegalityQuery where
  opcode : Option MirInstructionOpCode
  flags : List MirInstructionFlag
  operandCount : ℕ
  slots : Fin 6 → QuerySlot
  immValue : ℤ
  hasImm : Bool

def LegalityQuery.new : LegalityQuery := ⟨none, [], 0, fun _ => .empty, 0, false⟩

/-- Pointers of all pointees share the compact id of `ptr`. -/
def slotOf (op : TypedOperand) : QuerySlot where
  type := op.mirType
  compactId :=
    match op.mirType with
    | some type => if type.kind = .Pointer then 3 else type.compactId
    | none => 0
  kind := operandKind op.operand

def immediate? (op : TypedOperand) : Option ℤ :=
  match op.operand with
  | .integer value => some value
  | _ => none

/-- `getI64` of an immediate. -/
def getI64 (value : ℤ) : ℤ := (value + 2 ^ 63) % 2 ^ 64 - 2 ^ 63

/-- The refilled query and the number of slots it populates; `prevOperandCount` is
that number of the previous fill. -/
def fillQuery (inst : TypedInstruction) (q : LegalityQuery) (prevOperandCount : ℕ) :
    LegalityQuery × ℕ :=
  let limit := min inst.operands.length 6
  let imm := (inst.operands.take limit).findSome? immediate?
  (⟨some inst.opcode, inst.getFlags, inst.operands.length,
    fun i =>
      match inst.operands[i.val]? with
      | some op => slotOf op
      | none =>
        let slot := if i.val < prevOperandCount then .empty else q.slots i
        -- An instruction without operands is looked up under `_void`.
        if limit = 0 ∧ i.val = 0 then { slot with compactId := 1 } else slot,
    (imm.map getI64).getD 0, imm.isSome⟩, limit)

def buildQuery (inst : TypedInstruction) : LegalityQuery :=
  (fillQuery inst LegalityQuery.new 0).1

/-- What the previous fill left in the slots it did not populate: nothing, but for
the compact id in the first slot of an instruction without operands. -/
def CleanBehind (q : LegalityQuery) (prevOperandCount : ℕ) : Prop :=
  ∀ i : Fin 6, prevOperandCount ≤ i.val → q.slots i = .empty ∨
      (prevOperandCount = 0 ∧ i.val = 0 ∧ q.slots i = { QuerySlot.empty with compactId := 1 })

theorem cleanBehind_new : CleanBehind LegalityQuery.new 0 := fun _ _ => .inl rfl

theorem cleanBehind_fillQuery {q : LegalityQuery} {n : ℕ} (h : CleanBehind q n)
    (inst : TypedInstruction) :
    CleanBehind (fillQuery inst q n).1 (fillQuery inst q n).2 := by
  intro i hi
  have hnone : inst.operands[i.val]? = none := by
    rw [List.getElem?_eq_none_iff]
    simp only [fillQuery] at hi
    omega
  simp only [fillQuery, hnone]
  by_cases hzero : min inst.operands.length 6 = 0 ∧ i.val = 0
  · refine .inr ⟨hzero.1, hzero.2, ?_⟩
    rw [if_pos hzero]
    split
    · rfl
    · next hn =>
        rcases h i (by omega) with hslot | ⟨-, -, hslot⟩ <;> simp [hslot]
  · rw [if_neg hzero]
    split
    · exact .inl rfl
    · next hn =>
        rcases h i (by omega) with hslot | ⟨hn0, hi0, -⟩
        · exact .inl hslot
        · exact absurd ⟨by simp only [fillQuery] at hi; omega, hi0⟩ hzero

/-- A reused query shows the instruction as a fresh one does. -/
theorem fillQuery_eq_buildQuery {q : LegalityQuery} {n : ℕ} (h : CleanBehind q n)
    (inst : TypedInstruction) : (fillQuery inst q n).1 = buildQuery inst := by
  have hslots : (fillQuery inst q n).1.slots = (buildQuery inst).slots := by
    funext i
    simp only [buildQuery, fillQuery]
    cases hop : inst.operands[i.val]? with
    | some op => rfl
    | none =>
      have hlen := List.getElem?_eq_none_iff.mp hop
      have hempty : (if i.val < n then QuerySlot.empty else q.slots i) = .empty ∨
          (min inst.operands.length 6 = 0 ∧ i.val = 0 ∧
            (if i.val < n then QuerySlot.empty else q.slots i) =
              { QuerySlot.empty with compactId := 1 }) := by
        split
        · exact .inl rfl
        · next hn =>
            rcases h i (by omega) with hslot | ⟨-, hi, hslot⟩
            · exact .inl hslot
            · exact .inr ⟨by omega, hi, hslot⟩
      rcases hempty with hslot | ⟨hlimit, hi, hslot⟩
      · simp [hslot, LegalityQuery.new]
      · rw [hslot, if_pos ⟨hlimit, hi⟩]
        simp [hlimit, hi, LegalityQuery.new]
  simp only [buildQuery, fillQuery] at hslots ⊢
  rw [hslots]

/-!
## Execution of scalar instructions

Straight-line code on registers that hold numbers. An operand is read at the width of its
type; an instruction is stuck when its operation is undefined or an operand is neither a
register nor an integer.
-/

abbrev RegisterFile := MirRegisterRef → ℕ

def bitsOf (op : TypedOperand) : ℕ := (op.mirType.map MirType.totalSizeInBits).getD 0

def read (env : RegisterFile) (op : TypedOperand) : Option ℕ :=
  match op.operand with
  | .register reg => some (env reg % 2 ^ bitsOf op)
  | .integer value => some (value % 2 ^ bitsOf op).toNat
  | _ => none

def write (env : RegisterFile) (dst : TypedOperand) (value : ℕ) : Option RegisterFile :=
  match dst.operand with
  | .register reg => some fun r => if r = reg then value % 2 ^ bitsOf dst else env r
  | _ => none

def unmerge (env : RegisterFile) : List TypedOperand → ℕ → Option RegisterFile
  | [], _ => some env
  | dst :: dsts, value =>
    (write env dst value).bind fun env => unmerge env dsts (value / 2 ^ bitsOf dst)

def merge (env : RegisterFile) : List TypedOperand → Option ℕ
  | [] => some 0
  | src :: srcs =>
    (read env src).bind fun low => (merge env srcs).map fun high => low + 2 ^ bitsOf src * high

/-- The sources with their widths. -/
def readAll (env : RegisterFile) : List TypedOperand → Option (List (ℕ × ℕ))
  | [] => some []
  | src :: srcs =>
    (read env src).bind fun value =>
      (readAll env srcs).map fun values => (bitsOf src, value) :: values

/-- An operation with a carry: the sum and the carry are written, the sources are read, and
the carry that comes in is the last of them or zero. -/
def execCarry (env : RegisterFile) (opcode : MirInstructionOpCode) :
    List TypedOperand → Option RegisterFile
  | sum :: carryOut :: srcs =>
    match readAll env srcs with
    | some [lhs, rhs] =>
      (carryValue opcode (bitsOf sum) lhs.2 rhs.2 0).bind fun v =>
        (write env sum v.1).bind fun env => write env carryOut v.2
    | some [lhs, rhs, carryIn] =>
      (carryValue opcode (bitsOf sum) lhs.2 rhs.2 carryIn.2).bind fun v =>
        (write env sum v.1).bind fun env => write env carryOut v.2
    | _ => none
  | _ => none

def exec (env : RegisterFile) (inst : TypedInstruction) : Option RegisterFile :=
  match inst.opcode with
  | .UNMERGE_VALUES =>
    inst.operands.getLast?.bind fun src =>
      (read env src).bind fun value => unmerge env inst.operands.dropLast value
  | .MERGE_VALUES =>
    inst.operands.head?.bind fun dst =>
      (merge env inst.operands.tail).bind fun value => write env dst value
  | .UADDO | .UADDE | .USUBO | .USUBE => execCarry env inst.opcode inst.operands
  | _ =>
    inst.operands.head?.bind fun dst =>
      (readAll env inst.operands.tail).bind fun srcs =>
        (scalarValue inst.opcode (bitsOf dst) srcs).bind fun value => write env dst value

def run (env : RegisterFile) : List TypedInstruction → Option RegisterFile
  | [] => some env
  | inst :: rest => (exec env inst).bind fun env => run env rest

theorem run_append (env : RegisterFile) (first second : List TypedInstruction) :
    run env (first ++ second) = (run env first).bind fun env => run env second := by
  induction first generalizing env with
  | nil => rfl
  | cons inst rest ih =>
    simp only [List.cons_append, run, ih, Option.bind_assoc]

/-!
## Legalization actions

An action rewrites one instruction. The built-in ones insert instructions directly
before and after it and change or erase it, which is what a `Rewrite` says; the
block gives the inserted instructions their identity when it links them. New
virtual registers are numbered from a counter of the context.
-/

/-- What an action does around the instruction it is executed on, which it erases
when `target` is none. -/
structure Rewrite where
  before : List TypedInstruction
  target : Option TypedInstruction
  after : List TypedInstruction
  nextRegister : ℕ
  deriving DecidableEq

/-- The rewrite of an action that reports that it modified nothing. -/
def Rewrite.notModified (inst : TypedInstruction) (nextRegister : ℕ) : Rewrite :=
  ⟨[], some inst, [], nextRegister⟩

structure MirTypeTable where
  getTypeByCompactId : ℕ → Option MirType
  getPtr : MirType → MirType
  bindToken : MirType
  i1 : MirType

structure CallingConvDesc where
  canReturnInRegs : MirType → Bool

def buildVReg (n : ℕ) (type : MirType) : TypedOperand :=
  ⟨.register ⟨true, none, n⟩, some type⟩

def build (opcode : MirInstructionOpCode) (operands : List TypedOperand) : TypedInstruction :=
  ⟨opcode, none, operands⟩

def isCompare (opcode : MirInstructionOpCode) : Bool :=
  opcode ∈ [.CMP_EQ, .CMP_NE, .CMP_SLT, .CMP_SLE, .CMP_SGT, .CMP_SGE, .CMP_ULT,
    .CMP_ULE, .CMP_UGT, .CMP_UGE, .FCMP]

namespace LegalizeWidenScalar

def extensionOpcode (inst : TypedInstruction) (targetType : MirType) : MirInstructionOpCode :=
  if targetType.kind = .FloatingPoint then .FPEXT
  else if inst.isSigned then .SEXT
  else .ZEXT

structure State where
  inst : TypedInstruction
  before : List TypedInstruction
  nextRegister : ℕ

/-- Extends the operand at `index` into a new register in front of the instruction
and reads that instead. -/
def widenUse (extOp : MirInstructionOpCode) (targetType : MirType) (index : ℕ)
    (op : TypedOperand) (s : State) : State :=
  let wideUse := buildVReg s.nextRegister targetType
  ⟨s.inst.swapOperand wideUse index, s.before ++ [build extOp [wideUse, op]], s.nextRegister + 1⟩

/-- The loop over the read operands of a comparison. -/
def widenCompareOperand (extOp : MirInstructionOpCode) (targetType : MirType) (s : State)
    (index : ℕ) : State :=
  match s.inst.operands[index]? with
  | some op =>
    if (s.inst.getOperandFlag index).isRead then widenUse extOp targetType index op s
    else s
  | none => s

/-- The loop over the read operands of an instruction whose definition is widened:
a load only changes the type of its memory operand, and addresses stay. -/
def widenReadOperand (extOp : MirInstructionOpCode) (targetType : MirType)
    (operandSlot : ℕ) (s : State) (index : ℕ) : State :=
  match s.inst.operands[index]? with
  | none => s
  | some op =>
    if index = operandSlot ∨ ¬ (s.inst.getOperandFlag index).isRead then s
    else if s.inst.opcode = .LOAD then
      if operandKind op.operand = .Memory then
        { s with inst := s.inst.swapOperand { op with mirType := some targetType } index }
      else s
    else if operandKind op.operand = .Memory then s
    else
      match op.mirType with
      | none => s
      | some type =>
        if type.kind ≠ .Pointer ∧
            type.getTotalSizeInBytes < targetType.getTotalSizeInBytes then
          widenUse extOp targetType index op s
        else s

end LegalizeWidenScalar

open LegalizeWidenScalar in
/-- None stands for an operand slot that is not there, which the source reads
without a check. -/
def legalizeWidenScalar (inst : TypedInstruction) (operandSlot : ℕ)
    (targetType : MirType) (nextRegister : ℕ) : Option Rewrite :=
  let extOp := extensionOpcode inst targetType
  if isCompare inst.opcode then
    let s := (List.range' 1 (inst.operands.length - 1)).foldl
      (widenCompareOperand extOp targetType) ⟨inst, [], nextRegister⟩
    some ⟨s.before, some s.inst, [], s.nextRegister⟩
  else
    match inst.operands[operandSlot]? with
    | none => none
    | some op =>
      if (inst.getOperandFlag operandSlot).isWrite then
        let s := (List.range inst.operands.length).foldl
          (widenReadOperand extOp targetType operandSlot) ⟨inst, [], nextRegister⟩
        let wideDef := buildVReg s.nextRegister targetType
        let truncOp : MirInstructionOpCode :=
          if targetType.kind = .FloatingPoint then .FPTRUNC else .TRUNC
        some ⟨s.before, some (s.inst.swapOperand wideDef operandSlot),
          [build truncOp [op, wideDef]], s.nextRegister + 1⟩
      else
        let s := widenUse extOp targetType operandSlot op ⟨inst, [], nextRegister⟩
        some ⟨s.before, some s.inst, [], s.nextRegister⟩

namespace LegalizeBitcast

structure State where
  newOperands : List TypedOperand
  emitted : List TypedInstruction
  bitcastDefs : List (TypedOperand × TypedOperand)
  nextRegister : ℕ

/-- A written register is cast back after the instruction, a read operand is cast in
front of it. -/
def processSlot (inst : TypedInstruction) (targetType : MirType) (s : State) (slot : ℕ) : State :=
  match inst.operands[slot]? with
  | none => s
  | some op =>
    if op.mirType = none ∨ op.mirType = some targetType then s
    else if (inst.getOperandFlag slot).isWrite then
      if op.operand.isRegister then
        let tempDst := buildVReg s.nextRegister targetType
        { s with
          newOperands := s.newOperands.set slot tempDst
          bitcastDefs := s.bitcastDefs ++ [(op, tempDst)]
          nextRegister := s.nextRegister + 1 }
      else s
    else
      let castReg := buildVReg s.nextRegister targetType
      { s with
        newOperands := s.newOperands.set slot castReg
        emitted := s.emitted ++ [build .BITCAST [castReg, op]]
        nextRegister := s.nextRegister + 1 }

end LegalizeBitcast

open LegalizeBitcast in
def legalizeBitcast (inst : TypedInstruction) (operandSlot : ℕ) (targetType : MirType)
    (nextRegister : ℕ) : Rewrite :=
  if inst.operands = [] then .notModified inst nextRegister
  else
    let slots :=
      if operandSlot < inst.operands.length then [operandSlot]
      else List.range inst.operands.length
    let s := slots.foldl (processSlot inst targetType) ⟨inst.operands, [], [], nextRegister⟩
    ⟨s.emitted ++ [build inst.opcode s.newOperands] ++
        s.bitcastDefs.map fun d => build .BITCAST [d.1, d.2],
      none, [], s.nextRegister⟩

namespace LegalizeNarrowScalar

/-- The pieces of an operand, what is emitted to get them, and the register
counter. -/
def splitOperand (op : TypedOperand) (numChunks narrowBits : ℕ) (narrowType : MirType)
    (n : ℕ) : List TypedOperand × List TypedInstruction × ℕ :=
  match op.operand with
  | .register _ =>
    let chunks := (List.range numChunks).map fun k => buildVReg (n + k) narrowType
    (chunks ++ [op], [build .UNMERGE_VALUES (chunks ++ [op])], n + numChunks)
  | .integer value =>
    ((List.range numChunks).map fun k =>
      ⟨.integer (value / 2 ^ (k * narrowBits) % 2 ^ narrowBits), some narrowType⟩, [], n)
  | _ => (List.replicate numChunks op, [], n)

def wideOperand (inst : TypedInstruction) (operandSlot narrowBits : ℕ) : Option TypedOperand :=
  let isWide := fun op : TypedOperand =>
    (op.mirType.map fun type => decide (type.totalSizeInBits > narrowBits)).getD false
  match inst.operands[operandSlot]?.filter isWide with
  | some op => some op
  | none => inst.operands.find? isWide

/-- The chunk-wise comparison and the running combination of its results. -/
def compareChunks (cmpOp combineOp : MirInstructionOpCode) (carryType : MirType) :
    List (TypedOperand × TypedOperand) → Option TypedOperand → ℕ →
      List TypedInstruction × Option TypedOperand × ℕ
  | [], acc, n => ([], acc, n)
  | (lhs, rhs) :: rest, acc, n =>
    let cmpK := buildVReg n carryType
    let (emitted, acc', n') :=
      match acc with
      | none => ([build cmpOp [cmpK, lhs, rhs]], cmpK, n + 1)
      | some acc =>
        let nextAcc := buildVReg (n + 1) carryType
        ([build cmpOp [cmpK, lhs, rhs], build combineOp [nextAcc, acc, cmpK]],
          nextAcc, n + 2)
    let (tail, last, n'') := compareChunks cmpOp combineOp carryType rest (some acc') n'
    (emitted ++ tail, last, n'')

/-- The carry chain: the first chunk produces the carry, the others consume and
forward it. -/
def carryChain (firstOp nextOp : MirInstructionOpCode) (carryType : MirType) :
    List (TypedOperand × TypedOperand × TypedOperand) → Option TypedOperand → ℕ →
      List TypedInstruction × ℕ
  | [], _, n => ([], n)
  | (dst, lhs, rhs) :: rest, carry, n =>
    let carryOut := buildVReg n carryType
    let inst := match carry with
      | none => build firstOp [dst, carryOut, lhs, rhs]
      | some carry => build nextOp [dst, carryOut, lhs, rhs, carry]
    let (tail, n') := carryChain firstOp nextOp carryType rest (some carryOut) (n + 1)
    (inst :: tail, n')

end LegalizeNarrowScalar

open LegalizeNarrowScalar in
/-- The comparison branch; none when the comparison is not for equality. -/
def narrowCompare (inst : TypedInstruction) (dstOp : TypedOperand)
    (numChunks narrowBits : ℕ) (narrowType carryType : MirType) (n : ℕ) :
    Option Rewrite :=
  match inst.operands with
  | _ :: lhs :: rhs :: _ =>
    let (lhsChunks, lhsCode, n) := splitOperand lhs numChunks narrowBits narrowType n
    let (rhsChunks, rhsCode, n) := splitOperand rhs numChunks narrowBits narrowType n
    let pairs := (lhsChunks.zip rhsChunks).take numChunks
    let combine : Option MirInstructionOpCode :=
      match inst.opcode with
      | .CMP_EQ => some .AND
      | .CMP_NE => some .OR
      | _ => none
    match combine with
    | none => none
    | some combineOp =>
      let (code, acc, n) := compareChunks inst.opcode combineOp carryType pairs none n
      some ⟨lhsCode ++ rhsCode ++ code ++ [build .MOV (dstOp :: acc.toList)], none, [], n⟩
  | _ => none

open LegalizeNarrowScalar in
/-- The code for the chunks of the result; none when the opcode is not split. -/
def narrowChunks (inst : TypedInstruction) (dstChunks : List TypedOperand)
    (numChunks narrowBits : ℕ) (narrowType carryType : MirType) (n : ℕ) :
    Option (List TypedInstruction × ℕ) :=
  let split := fun op n => splitOperand op numChunks narrowBits narrowType n
  let chain := fun firstOp nextOp (lhs rhs : TypedOperand) n =>
    let (lhsChunks, lhsCode, n) := split lhs n
    let (rhsChunks, rhsCode, n) := split rhs n
    let (code, n) := carryChain firstOp nextOp carryType
      (dstChunks.zip (lhsChunks.zip rhsChunks)) none n
    some (lhsCode ++ rhsCode ++ code, n)
  match inst.opcode, inst.operands with
  | .ADD, _ :: lhs :: rhs :: _ => chain .UADDO .UADDE lhs rhs n
  | .SUB, _ :: lhs :: rhs :: _ => chain .USUBO .USUBE lhs rhs n
  | .NEG, _ :: src :: _ =>
    let (srcChunks, srcCode, n) := split src n
    let zero : TypedOperand := ⟨.integer 0, some narrowType⟩
    let (code, n) := carryChain .USUBO .USUBE carryType
      (dstChunks.zip (srcChunks.map fun c => (zero, c))) none n
    some (srcCode ++ code, n)
  | .NOT, _ :: src :: _ =>
    let (srcChunks, srcCode, n) := split src n
    some (srcCode ++ (dstChunks.zip srcChunks).map fun p => build .NOT [p.1, p.2], n)
  | .MOV, _ :: src :: _ =>
    let (srcChunks, srcCode, n) := split src n
    some (srcCode ++ (dstChunks.zip srcChunks).map fun p => build .MOV [p.1, p.2], n)
  | opcode, [_, lhs, rhs] =>
    let (lhsChunks, lhsCode, n) := split lhs n
    let (rhsChunks, rhsCode, n) := split rhs n
    some (lhsCode ++ rhsCode ++ (dstChunks.zip (lhsChunks.zip rhsChunks)).map fun p =>
      build opcode [p.1, p.2.1, p.2.2], n)
  | _, _ => none

open LegalizeNarrowScalar in
def legalizeNarrowScalar (types : MirTypeTable) (inst : TypedInstruction)
    (operandSlot : ℕ) (narrowType : MirType) (nextRegister : ℕ) : Option Rewrite :=
  match inst.operands with
  | [] => some (.notModified inst nextRegister)
  | dstOp :: _ =>
    let narrowBits := narrowType.totalSizeInBits
    if narrowBits = 0 then some (.notModified inst nextRegister)
    else
      match wideOperand inst operandSlot narrowBits with
      | none => some (.notModified inst nextRegister)
      | some wideOp =>
        let origBits := (wideOp.mirType.map MirType.totalSizeInBits).getD 0
        let numChunks := max 2 (origBits / narrowBits)
        if isCompare inst.opcode then
          narrowCompare inst dstOp numChunks narrowBits narrowType types.i1
            nextRegister
        else
          let dstChunks := (List.range numChunks).map fun k =>
            buildVReg (nextRegister + k) narrowType
          match narrowChunks inst dstChunks numChunks narrowBits narrowType types.i1
              (nextRegister + numChunks) with
          | none => none
          | some (code, n) =>
            some ⟨code ++ [build .MERGE_VALUES (dstOp :: dstChunks)], none, [], n⟩

/-- Binds the arguments and the result of a call to a new token; a call that has its
token is left as it is. -/
def legalizeCall (types : MirTypeTable) (cc : Option CallingConvDesc)
    (inst : TypedInstruction) (nextRegister : ℕ) : Option Rewrite :=
  match inst.operands with
  | [] => some (.notModified inst nextRegister)
  | op :: operands =>
    let hasDest := op.operand.isRegister
    if hasDest ∧ (op.mirType.map MirType.kind) = some .BindingToken then
      some (.notModified inst nextRegister)
    else
      let (callee, args) : Option TypedOperand × List TypedOperand :=
        if hasDest then (operands.head?, operands.tail) else (some op, operands)
      match callee with
      | none => none
      | some callee =>
        let sretType := if hasDest then
            op.mirType.filter fun retType =>
              (cc.map fun cc => !cc.canReturnInRegs retType).getD false
          else none
        let callToken := buildVReg nextRegister types.bindToken
        let (sret, n) : List TypedInstruction × ℕ :=
          match sretType with
          | some retType =>
            let sretAddrReg := buildVReg (nextRegister + 1) (types.getPtr retType)
            ([build .ALLOC [sretAddrReg], build .PUSH_ARG [callToken, sretAddrReg]],
              nextRegister + 2)
          | none => ([], nextRegister + 1)
        let pops := if hasDest ∧ sretType = none then
            [build .POP_RET [callToken, op]]
          else []
        some ⟨sret ++ args.map fun arg => build .PUSH_ARG [callToken, arg],
          some { inst with operands := [callToken, callee] }, pops, n⟩

def legalizeLibcall (types : MirTypeTable) (cc overrideCC : Option CallingConvDesc)
    (symbol : String) (inst : TypedInstruction) (nextRegister : ℕ) : Option Rewrite :=
  if symbol = "" then none
  else
    let calleeRef : TypedOperand := ⟨.runtimeSymbol symbol, none⟩
    let hasDst := inst.operands ≠ [] ∧ (inst.getOperandFlag 0).isWrite
    let callOps :=
      if hasDst then inst.operands.take 1 ++ calleeRef :: inst.operands.drop 1
      else calleeRef :: inst.operands
    let callInst := build .CALL callOps
    (legalizeCall types (overrideCC.or cc) callInst nextRegister).map fun r =>
      ⟨r.before ++ r.target.toList ++ r.after, none, [], r.nextRegister⟩

end EzPacker.Legalizer
