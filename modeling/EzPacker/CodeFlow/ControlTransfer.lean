import EzPacker.Lib.Adjacency
import EzPacker.Lib.FirstMention
import EzPacker.RegAlloc.InterferenceGraph

/-!
# Where an instruction transfers control

For every generic instruction and every target instruction of the shipped tables, the
operands that it may transfer control to and whether control may reach the instruction
behind it. From these follows where the execution of a list of instructions can leave
it: by a transfer to a block, or behind the last one into the next block.

A call comes back to the instruction behind it. `THROW` leaves the block for a handler
that only the unwinder finds; the edge to a handler is the second operand of `TRY`.
-/

namespace EzPacker.CodeFlow

open List Mir RegAlloc

inductive TargetArch
  | x86_64 | riscv64
  deriving DecidableEq, Repr

/-- The positions of the operands that control may be transferred to, and whether it may
reach the next instruction. -/
structure Control where
  targets : List ℕ
  falls : Bool
  deriving DecidableEq, Repr

namespace Control

def next : Control := ⟨[], true⟩

def leave : Control := ⟨[], false⟩

def jump (targets : List ℕ) : Control := ⟨targets, false⟩

def branch (target : ℕ) : Control := ⟨[target], true⟩

end Control

/-- How a shipped instruction transfers control. A jump that links stores the return
address in its first operand: with the zero register there it is a plain jump, with
another one control comes back. -/
inductive Transfer
  | always (control : Control)
  | jumpAndLink (target : ℕ)
  deriving DecidableEq, Repr

/-- A row of a shipped instruction table. -/
structure TransferInst where
  id : ℕ
  operandsFlags : List MirOperandFlag
  targetFlags : List MirInstructionFlag
  transfer : Transfer
  deriving DecidableEq, Repr

namespace TransferInst

def desc (row : TransferInst) : MirTargetInstructionDesc :=
  ⟨row.id, row.operandsFlags, [], [], row.targetFlags⟩

def build (row : TransferInst) (operands : List MirOperand) : MirInstruction :=
  ⟨.TARGET_INST, some row.desc, operands⟩

end TransferInst

namespace x86_64TargetInst

def JMP : TransferInst :=
  ⟨91, [.Read], [.IsTerminator, .IsBranch], .always (.jump [0])⟩

/-- A conditional jump, which reads the flags. -/
def jcc (id : ℕ) : TransferInst :=
  ⟨id, [.Read], [.IsTerminator, .IsBranch, .ReadsCPUFlags], .always (.branch 0)⟩

def JE : TransferInst := jcc 92
def JNE : TransferInst := jcc 93
def JL : TransferInst := jcc 94
def JLE : TransferInst := jcc 95
def JG : TransferInst := jcc 96
def JGE : TransferInst := jcc 97
def JB : TransferInst := jcc 98
def JBE : TransferInst := jcc 99
def JA : TransferInst := jcc 100
def JAE : TransferInst := jcc 101

def RET : TransferInst :=
  ⟨103, [], [.IsTerminator, .IsReturn, .HasSideEffect], .always .leave⟩

def SYSRET : TransferInst := ⟨241, [], [.HasSideEffect], .always .leave⟩

def UD2 : TransferInst := ⟨247, [], [.HasSideEffect], .always .leave⟩

def transfers : List TransferInst :=
  [JMP, JE, JNE, JL, JLE, JG, JGE, JB, JBE, JA, JAE, RET, SYSRET, UD2]

end x86_64TargetInst

namespace riscv64TargetInst

/-- A conditional branch, which compares two registers. -/
def bType (id : ℕ) : TransferInst :=
  ⟨id, [.Read, .Read, .Read], [.IsBranch], .always (.branch 2)⟩

def BEQ : TransferInst := bType 64
def BNE : TransferInst := bType 65
def BLT : TransferInst := bType 66
def BGE : TransferInst := bType 67
def BLTU : TransferInst := bType 68
def BGEU : TransferInst := bType 69

def JAL : TransferInst := ⟨70, [.Write, .Read], [.IsBranch], .jumpAndLink 1⟩

def JALR : TransferInst := ⟨71, [.Write, .Read, .Read], [.IsBranch], .jumpAndLink 1⟩

def RET : TransferInst := ⟨121, [], [.IsReturn], .always .leave⟩

def trapReturn (id : ℕ) : TransferInst :=
  ⟨id, [], [.IsReturn, .HasSideEffect], .always .leave⟩

def URET : TransferInst := trapReturn 128
def SRET : TransferInst := trapReturn 129
def MRET : TransferInst := trapReturn 130

def transfers : List TransferInst :=
  [BEQ, BNE, BLT, BGE, BLTU, BGEU, JAL, JALR, RET, URET, SRET, MRET]

end riscv64TargetInst

def TargetArch.transfers : TargetArch → List TransferInst
  | x86_64 => x86_64TargetInst.transfers
  | riscv64 => riscv64TargetInst.transfers

/-- The instructions that jump and store the return address. -/
def TargetArch.linkingJumps : TargetArch → List TransferInst
  | x86_64 => []
  | riscv64 => [riscv64TargetInst.JAL, riscv64TargetInst.JALR]

def isOneOf (rows : List TransferInst) (inst : MirInstruction) : Bool :=
  (inst.targetDesc.map fun desc => rows.any (·.id = desc.id)).getD false

def isZeroReg : MirOperand → Bool
  | .register reg => !reg.isVirtual && reg.id == 0
  | _ => false

/-- The first operand, where a link would be stored, is the register `zero`. -/
def dropsLink (inst : MirInstruction) : Bool :=
  (inst.operands.head?.map isZeroReg).getD false

def Transfer.control (dropsLink : Bool) : Transfer → Control
  | always control => control
  | jumpAndLink target => ⟨[target], !dropsLink⟩

def opcodeControl : MirInstructionOpCode → Control
  | .JMP => .jump [0]
  | .BR_COND => .jump [1, 2]
  | .TRY => .jump [0, 1]
  | .RET | .THROW | .HALT => .leave
  | _ => .next

def control (arch : TargetArch) (inst : MirInstruction) : Control :=
  match inst.targetDesc with
  | none => opcodeControl inst.opcode
  | some desc =>
    match arch.transfers.find? (·.id = desc.id) with
    | none => .next
    | some row => row.transfer.control (dropsLink inst)

def blockOf : MirOperand → Option ℕ
  | .reference ref => if ref.refType = .Block then some ref.refId else none
  | _ => none

/-- The operand holds an address that is known at run time only. -/
def isPointer : MirOperand → Bool
  | .register _ | .memory _ => true
  | _ => false

/-- The operands that control may be transferred to. -/
def targetOperands (arch : TargetArch) (inst : MirInstruction) : List MirOperand :=
  (control arch inst).targets.filterMap (inst.operands[·]?)

def namedTargets (arch : TargetArch) (inst : MirInstruction) : List ℕ :=
  (targetOperands arch inst).filterMap blockOf

/-- The instruction jumps to an address that it takes from a register or from memory.
With a link register it is a call of a function. -/
def jumpsThroughPointer (arch : TargetArch) (inst : MirInstruction) : Bool :=
  (targetOperands arch inst).any isPointer && !(control arch inst).falls

/-- Some execution of the instructions leaves them to the start of a block. The `labels`
are the blocks whose address a register or the memory may hold, `next` is the block
behind them. -/
inductive Goes (arch : TargetArch) (labels : List ℕ) (next : Option ℕ) :
    List MirInstruction → ℕ → Prop
  | fallThrough {s : ℕ} : next = some s → Goes arch labels next [] s
  | named {inst : MirInstruction} {rest : List MirInstruction} {s : ℕ} :
      s ∈ namedTargets arch inst → Goes arch labels next (inst :: rest) s
  | pointer {inst : MirInstruction} {rest : List MirInstruction} {s : ℕ} :
      jumpsThroughPointer arch inst = true → s ∈ labels → Goes arch labels next (inst :: rest) s
  | behind {inst : MirInstruction} {rest : List MirInstruction} {s : ℕ} :
      (control arch inst).falls = true → Goes arch labels next rest s →
        Goes arch labels next (inst :: rest) s

variable {s : ℕ} {bs before rest : List MirBlock} {r : CodeFlowResult}

theorem goes_nil {arch : TargetArch} {labels : List ℕ} {next : Option ℕ} :
    Goes arch labels next [] s ↔ next = some s := by
  constructor
  · rintro ⟨h⟩
    exact h
  · exact Goes.fallThrough

theorem goes_cons {arch : TargetArch} {labels : List ℕ} {next : Option ℕ} {inst : MirInstruction}
    {rest : List MirInstruction} :
    Goes arch labels next (inst :: rest) s ↔ s ∈ namedTargets arch inst ∨
        (jumpsThroughPointer arch inst = true ∧ s ∈ labels) ∨
        ((control arch inst).falls = true ∧ Goes arch labels next rest s) := by
  constructor
  · intro h
    cases h with
    | named h => exact .inl h
    | pointer hjump hs => exact .inr (.inl ⟨hjump, hs⟩)
    | behind hfalls h => exact .inr (.inr ⟨hfalls, h⟩)
  · rintro (h | ⟨hjump, hs⟩ | ⟨hfalls, h⟩)
    · exact .named h
    · exact .pointer hjump hs
    · exact .behind hfalls h

/-!
## The selection of control transfers

The target instructions that the selectors of the two targets put in the place of a
jump, of a conditional branch and of a call through a register. No other generic
instruction is replaced by one that branches or ends a block.
-/

/-- The comparison of a register with an immediate. -/
def x86_64TargetInst.CMP32ri : TransferInst :=
  ⟨50, [.Read, .Read], [.ReadsCPUFlags, .WritesCPUFlags], .always .next⟩

def x86_64TargetInst.CMP64ri : TransferInst :=
  ⟨52, [.Read, .Read], [.ReadsCPUFlags, .WritesCPUFlags], .always .next⟩

/-- What the selectors read of the types: whether the type of an operand has 64 bits, and
whether a register is a binding token, which ties a call to its arguments. -/
structure SelectorContext where
  arch : TargetArch
  is64 : MirOperand → Bool
  isBindingToken : MirRegisterRef → Bool

def GPR64 : MirRegisterClass := ⟨0, 0⟩

def zeroReg : MirOperand := .register ⟨false, some GPR64, 0⟩

def raReg : MirOperand := .register ⟨false, some GPR64, 1⟩

def selectJMP (ctx : SelectorContext) (target : MirOperand) : List MirInstruction :=
  match ctx.arch with
  | .x86_64 => [x86_64TargetInst.JMP.build [target]]
  | .riscv64 =>
    if target.isRegister then [riscv64TargetInst.JALR.build [zeroReg, target, .integer 0]]
    else [riscv64TargetInst.JAL.build [zeroReg, target]]

def selectBR_COND (ctx : SelectorContext) (cond trueBlock falseBlock : MirOperand) :
    List MirInstruction :=
  match ctx.arch with
  | .x86_64 =>
    let cmpOp :=
      if ctx.is64 cond then x86_64TargetInst.CMP64ri else x86_64TargetInst.CMP32ri
    [cmpOp.build [cond, .integer 0], x86_64TargetInst.JNE.build [trueBlock],
      x86_64TargetInst.JMP.build [falseBlock]]
  | .riscv64 =>
    [riscv64TargetInst.BNE.build [cond, zeroReg, trueBlock],
      riscv64TargetInst.JAL.build [zeroReg, falseBlock]]

def isCallee (ctx : SelectorContext) : MirOperand → Bool
  | .reference _ | .runtimeSymbol _ => true
  | .register reg => !ctx.isBindingToken reg
  | _ => false

/-- A call through a register becomes a jump that links on RISC-V. -/
def selectCALL (ctx : SelectorContext) (inst : MirInstruction) : List MirInstruction :=
  match ctx.arch, inst.operands.find? (isCallee ctx) with
  | .riscv64, some (.register callee) =>
    [riscv64TargetInst.JALR.build [raReg, .register callee, .integer 0]]
  | _, _ => [inst]

/-- The instructions in the place of an instruction, as far as they transfer control. -/
def selectControl (ctx : SelectorContext) (inst : MirInstruction) : List MirInstruction :=
  match inst.opcode, inst.operands with
  | .JMP, target :: _ => selectJMP ctx target
  | .TRY, target :: _ => selectJMP ctx target
  | .BR_COND, cond :: trueBlock :: falseBlock :: _ =>
    selectBR_COND ctx cond trueBlock falseBlock
  | .CALL, _ => selectCALL ctx inst
  | _, _ => [inst]

/-!
## The control-flow analysis

The pass scans the instructions of every block. The flags of an instruction, those of
its opcode together with those of its target descriptor, decide whether it is a branch,
whose block operands become successors, and whether the scan goes on behind it: behind a
branch only when it reads the flags register. A scan that reaches the end of the block
adds the block behind it.
-/

/-- The adjacency of all blocks that were seen, with the order they were seen in. -/
structure CodeFlowResult extends Adjacency ℕ where
  blockIds : List ℕ

namespace CodeFlowResult

def empty : CodeFlowResult := ⟨Adjacency.empty, []⟩

def ensureBlock (r : CodeFlowResult) (blockId : ℕ) : CodeFlowResult :=
  if blockId ∈ r.blockIds then r else { r with blockIds := r.blockIds ++ [blockId] }

def addEdge (r : CodeFlowResult) (source target : ℕ) : CodeFlowResult :=
  let r := (r.ensureBlock source).ensureBlock target
  { r with toAdjacency := r.toAdjacency.addEdge source target }

def getSuccessors (r : CodeFlowResult) (blockId : ℕ) : List ℕ := r.successors blockId

def getPredecessors (r : CodeFlowResult) (blockId : ℕ) : List ℕ := r.predecessors blockId

@[simp] theorem toAdjacency_ensureBlock (r : CodeFlowResult) (blockId : ℕ) :
    (r.ensureBlock blockId).toAdjacency = r.toAdjacency := by
  unfold ensureBlock
  split <;> rfl

@[simp] theorem toAdjacency_addEdge (r : CodeFlowResult) (source target : ℕ) :
    (r.addEdge source target).toAdjacency = r.toAdjacency.addEdge source target := by
  simp [addEdge]

end CodeFlowResult

/-- The flags of the opcode and of the descriptor. -/
def instFlags (inst : MirInstruction) : List MirInstructionFlag :=
  inst.getMetadata.flags ++ targetFlags inst

def isBranch (inst : MirInstruction) : Bool := .IsBranch ∈ instFlags inst

def endsScan (inst : MirInstruction) : Bool :=
  if isBranch inst then .ReadsCPUFlags ∉ instFlags inst
  else .IsReturn ∈ instFlags inst ∨ .IsTerminator ∈ instFlags inst

/-- The operands of a branch that `getBlockById` finds a block for. -/
def jumpTargets (isBlock : ℕ → Bool) (inst : MirInstruction) : List ℕ :=
  inst.operands.filterMap fun
    | .reference ref => if isBlock ref.refId then some ref.refId else none
    | _ => none

def scan (isBlock : ℕ → Bool) (currentBlock : ℕ) (nextBlock : Option ℕ) :
    List MirInstruction → CodeFlowResult → CodeFlowResult
  | [], r =>
    match nextBlock with
    | some next => r.addEdge currentBlock next
    | none => r
  | inst :: rest, r =>
    if .IsBranch ∈ instFlags inst then
      let r := (jumpTargets isBlock inst).foldl (·.addEdge currentBlock ·) r
      if .ReadsCPUFlags ∉ instFlags inst then r
      else scan isBlock currentBlock nextBlock rest r
    else if .IsReturn ∈ instFlags inst then r
    else if .IsTerminator ∈ instFlags inst then r
    else scan isBlock currentBlock nextBlock rest r

/-- The walk over the blocks of a function in layout order. -/
def visitBlocks (isBlock : ℕ → Bool) : List MirBlock → CodeFlowResult → CodeFlowResult
  | [], r => r
  | b :: rest, r =>
    visitBlocks isBlock rest (scan isBlock b.id (rest.head?.map MirBlock.id) b.instructions
        (r.ensureBlock b.id))

structure MirFunction where
  blocks : List MirBlock
  deriving DecidableEq, Repr

/-- The descriptor is a row of the shipped table, or it is one of the other
instructions, none of which has a flag that ends or branches. -/
def IsDescribed (arch : TargetArch) (desc : MirTargetInstructionDesc) : Prop :=
  (∃ row ∈ arch.transfers, row.id = desc.id ∧ row.operandsFlags = desc.operandsFlags ∧
      row.targetFlags = desc.targetFlags) ∨
    (∀ row ∈ arch.transfers, row.id ≠ desc.id) ∧
      ∀ flag ∈ desc.targetFlags, flag ≠ .IsBranch ∧ flag ≠ .IsReturn ∧ flag ≠ .IsTerminator

/-- The instruction is one of the instruction set, and a branch names blocks only where
its table has the target. -/
structure IsShaped (arch : TargetArch) (inst : MirInstruction) : Prop where
  described : (inst.targetDesc = none ∧ inst.opcode ≠ .TARGET_INST) ∨
    ∃ desc, inst.targetDesc = some desc ∧ inst.opcode = .TARGET_INST ∧ IsDescribed arch desc
  named : isBranch inst = true → ∀ i op, inst.operands[i]? = some op →
    (blockOf op).isSome = true → i ∈ (control arch inst).targets

/-- The functions of a builder context, generic or selected for a target, and the blocks
that the initialisers of its global variables name. All numbers come from one counter, so
a reference has the number of a block exactly when it is a reference to a block. -/
structure MirModule (arch : TargetArch) where
  functions : List MirFunction
  dataLabels : List ℕ
  nodup : ((functions.flatMap MirFunction.blocks).map MirBlock.id).Nodup
  shaped : ∀ f ∈ functions, ∀ b ∈ f.blocks, ∀ inst ∈ b.instructions, IsShaped arch inst
  refersToBlock : ∀ f ∈ functions, ∀ b ∈ f.blocks, ∀ inst ∈ b.instructions, ∀ ref,
    .reference ref ∈ inst.operands →
      (ref.refType = .Block ↔ ref.refId ∈ (functions.flatMap MirFunction.blocks).map MirBlock.id)

namespace MirModule

variable {arch : TargetArch} (m : MirModule arch)

def blocks : List MirBlock := m.functions.flatMap MirFunction.blocks

/-- `getBlockById` finds a block. -/
def isBlock (id : ℕ) : Bool := id ∈ m.blocks.map MirBlock.id

/-- The blocks whose address is taken: they are named by an instruction that is no
branch or by an initialiser. -/
def addressTaken : List ℕ :=
  m.dataLabels ++ m.blocks.flatMap fun b =>
    (b.instructions.filter (!isBranch ·)).flatMap (·.operands.filterMap blockOf)

/-- The blocks of a function that a pointer may point to. -/
def labels (f : MirFunction) : List ℕ :=
  (f.blocks.map MirBlock.id).filter (· ∈ m.addressTaken)

/-- `CodeFlowAnalysisPass::run` over every function of the module. -/
def runCodeFlow : CodeFlowResult :=
  m.functions.foldl (fun r f => visitBlocks m.isBlock f.blocks r) .empty

end MirModule

/-! ### The edges that a scan adds -/

def scanned (isBlock : ℕ → Bool) (nextBlock : Option ℕ) : List MirInstruction → List ℕ
  | [] => nextBlock.toList
  | inst :: rest =>
    (if isBranch inst then jumpTargets isBlock inst else []) ++
      if endsScan inst then [] else scanned isBlock nextBlock rest

theorem toAdjacency_foldl_addEdge (source : ℕ) (targets : List ℕ) (r : CodeFlowResult) :
    (targets.foldl (·.addEdge source ·) r).toAdjacency = r.toAdjacency.addEdges source targets := by
  unfold Adjacency.addEdges
  induction targets generalizing r with
  | nil => rfl
  | cons target targets ih =>
    rw [foldl_cons, foldl_cons, ih, CodeFlowResult.toAdjacency_addEdge]

theorem addEdges_append (g : Adjacency ℕ) (source : ℕ) (as bs : List ℕ) :
    g.addEdges source (as ++ bs) = (g.addEdges source as).addEdges source bs :=
  foldl_append

theorem toAdjacency_scan (isBlock : ℕ → Bool) (currentBlock : ℕ) (nextBlock : Option ℕ)
    (insts : List MirInstruction) (r : CodeFlowResult) :
    (scan isBlock currentBlock nextBlock insts r).toAdjacency =
      r.toAdjacency.addEdges currentBlock (scanned isBlock nextBlock insts) := by
  induction insts generalizing r with
  | nil =>
    unfold scan scanned
    cases nextBlock with
    | none => rfl
    | some next => exact r.toAdjacency_addEdge currentBlock next
  | cons inst rest ih =>
    unfold scan scanned
    rw [addEdges_append]
    by_cases hbranch : MirInstructionFlag.IsBranch ∈ instFlags inst
    · have hisBranch : isBranch inst = true := by simpa [isBranch] using hbranch
      by_cases hflags : MirInstructionFlag.ReadsCPUFlags ∉ instFlags inst
      · have hends : endsScan inst = true := by simp [endsScan, hisBranch, hflags]
        rw [if_pos hbranch, if_pos hflags, if_pos hisBranch, if_pos hends,
          toAdjacency_foldl_addEdge]
        rfl
      · have hends : ¬ endsScan inst = true := by
          simpa [endsScan, hisBranch] using hflags
        rw [if_pos hbranch, if_neg hflags, if_pos hisBranch, if_neg hends, ih,
          toAdjacency_foldl_addEdge]
    · have hisBranch : ¬ isBranch inst = true := by simpa [isBranch] using hbranch
      by_cases hreturn : MirInstructionFlag.IsReturn ∈ instFlags inst
      · have hends : endsScan inst = true := by simp [endsScan, hisBranch, hreturn]
        rw [if_neg hbranch, if_pos hreturn, if_neg hisBranch, if_pos hends]
        rfl
      · by_cases hterminator : MirInstructionFlag.IsTerminator ∈ instFlags inst
        · have hends : endsScan inst = true := by simp [endsScan, hisBranch, hterminator]
          rw [if_neg hbranch, if_neg hreturn, if_pos hterminator, if_neg hisBranch, if_pos hends]
          rfl
        · have hends : ¬ endsScan inst = true := by
            simp [endsScan, hisBranch, hreturn, hterminator]
          rw [if_neg hbranch, if_neg hreturn, if_neg hterminator, if_neg hisBranch,
            if_neg hends, ih]
          rfl

theorem toAdjacency_visitBlocks_cons (isBlock : ℕ → Bool) (b : MirBlock)
    (rest : List MirBlock) (r : CodeFlowResult) :
    ∃ r', r'.toAdjacency = r.toAdjacency.addEdges b.id
        (scanned isBlock (rest.head?.map MirBlock.id) b.instructions) ∧
      visitBlocks isBlock (b :: rest) r = visitBlocks isBlock rest r' := by
  refine ⟨_, ?_, rfl⟩
  rw [toAdjacency_scan, CodeFlowResult.toAdjacency_ensureBlock]

theorem wellKept_visitBlocks (isBlock : ℕ → Bool) (h : r.toAdjacency.WellKept) :
    (visitBlocks isBlock bs r).toAdjacency.WellKept := by
  induction bs generalizing r with
  | nil => exact h
  | cons b rest ih =>
    obtain ⟨r', hr', hvisit⟩ := toAdjacency_visitBlocks_cons isBlock b rest r
    rw [hvisit]
    apply ih
    rw [hr']
    exact h.addEdges _ _

theorem mem_successors_visitBlocks {isBlock : ℕ → Bool} {a : ℕ} :
    s ∈ (visitBlocks isBlock bs r).successors a ↔
      s ∈ r.successors a ∨ ∃ before b rest, bs = before ++ b :: rest ∧ b.id = a ∧
        s ∈ scanned isBlock (rest.head?.map MirBlock.id) b.instructions := by
  induction bs generalizing r with
  | nil => simp [visitBlocks]
  | cons b rest ih =>
    obtain ⟨r', hr', hvisit⟩ := toAdjacency_visitBlocks_cons isBlock b rest r
    rw [hvisit, ih, hr', Adjacency.mem_successors_addEdges]
    constructor
    · rintro ((h | ⟨rfl, hs⟩) | ⟨before, b', rest', rfl, hid, hs⟩)
      · exact .inl h
      · exact .inr ⟨[], b, rest, rfl, rfl, hs⟩
      · exact .inr ⟨b :: before, b', rest', rfl, hid, hs⟩
    · rintro (h | ⟨before, b', rest', hsplit, hid, hs⟩)
      · exact .inl (.inl h)
      · cases before with
        | nil =>
          obtain ⟨rfl, rfl⟩ := cons.inj hsplit
          exact .inl (.inr ⟨hid.symm, hs⟩)
        | cons _ before =>
          obtain ⟨rfl, rfl⟩ := cons.inj hsplit
          exact .inr ⟨before, b', rest', rfl, hid, hs⟩

/-- Blocks with different numbers are told apart by their number. -/
theorem eq_of_split {before' rest' : List MirBlock} {b b' : MirBlock}
    (hnodup : (bs.map MirBlock.id).Nodup) (h : bs = before ++ b :: rest)
    (h' : bs = before' ++ b' :: rest') (hid : b'.id = b.id) : b' = b ∧ rest' = rest := by
  subst h
  induction before generalizing before' with
  | nil =>
    cases before' with
    | nil =>
      obtain ⟨rfl, rfl⟩ := cons.inj h'
      exact ⟨rfl, rfl⟩
    | cons c before' =>
      obtain ⟨rfl, rfl⟩ := cons.inj h'
      simp [hid] at hnodup
  | cons c before ih =>
    rw [cons_append, map_cons, nodup_cons] at hnodup
    cases before' with
    | nil =>
      obtain ⟨rfl, -⟩ := cons.inj h'
      exact absurd (by rw [hid]; simp) hnodup.1
    | cons c' before' =>
      obtain ⟨-, htail⟩ := cons.inj h'
      exact ih hnodup.2 htail

namespace MirModule

variable {arch : TargetArch} {m : MirModule arch}

theorem eq_of_id {f f' : MirFunction} (hf : f ∈ m.functions) (hf' : f' ∈ m.functions)
    {before' rest' : List MirBlock} {b b' : MirBlock} (h : f.blocks = before ++ b :: rest)
    (h' : f'.blocks = before' ++ b' :: rest') (hid : b'.id = b.id) : b' = b ∧ rest' = rest := by
  have hnodup := m.nodup
  rw [map_flatMap] at hnodup
  obtain rfl : f' = f := by
    apply eq_of_mem_flatMap hnodup hf' hf (b := b.id)
    · rw [h', ← hid]
      simp
    · rw [h]
      simp
  exact eq_of_split (nodup_of_mem_flatMap hnodup hf') h h' hid

theorem wellKept_runCodeFlow : m.runCodeFlow.toAdjacency.WellKept := by
  unfold runCodeFlow
  have hrun : ∀ (fs : List MirFunction) (r : CodeFlowResult), r.toAdjacency.WellKept →
      (fs.foldl (fun r f => visitBlocks m.isBlock f.blocks r) r).toAdjacency.WellKept := by
    intro fs
    induction fs with
    | nil => exact fun _ h => h
    | cons f fs ih => exact fun r h => ih _ (wellKept_visitBlocks m.isBlock h)
  exact hrun m.functions .empty Adjacency.WellKept.empty

theorem mem_successors_foldl {fs : List MirFunction} {a : ℕ} :
    s ∈ (fs.foldl (fun r f => visitBlocks m.isBlock f.blocks r) r).successors a ↔
      s ∈ r.successors a ∨ ∃ f ∈ fs, ∃ before b rest, f.blocks = before ++ b :: rest ∧
        b.id = a ∧ s ∈ scanned m.isBlock (rest.head?.map MirBlock.id) b.instructions := by
  induction fs generalizing r with
  | nil => simp
  | cons f fs ih =>
    rw [foldl_cons, ih, mem_successors_visitBlocks, or_assoc]
    simp only [mem_cons, exists_eq_or_imp]

theorem mem_getSuccessors {f : MirFunction} (hf : f ∈ m.functions) {b : MirBlock}
    (hsplit : f.blocks = before ++ b :: rest) : s ∈ m.runCodeFlow.getSuccessors b.id ↔
      s ∈ scanned m.isBlock (rest.head?.map MirBlock.id) b.instructions := by
  unfold CodeFlowResult.getSuccessors runCodeFlow
  rw [mem_successors_foldl]
  constructor
  · rintro (h | ⟨f', hf', before', b', rest', hsplit', hid, hs⟩)
    · cases h
    · obtain ⟨rfl, rfl⟩ := eq_of_id hf hf' hsplit hsplit' hid
      exact hs
  · intro hs
    exact .inr ⟨f, hf, before, b, rest, hsplit, rfl, hs⟩

end MirModule

end EzPacker.CodeFlow
