import EzPacker.CodeFlow.ControlTransfer

/-!
# Rewriting spilled registers

Every spilled register that an instruction accesses is replaced by a temporary of the
instruction. A reload or a copy of the register's constant is put in front of the
instruction where the first access reads, and a store behind it where the first access
writes. A memory operand is an object that instructions may share; its registers are
replaced in place, for all instructions that have it.
-/

namespace EzPacker.SpillCode

open List Mir RegAlloc KeyedSet

inductive Operand
  | register (reg : MirRegisterRef)
  | memory (object : ℕ)
  | integer (value : ℤ)
  | floatingPoint (bits : ℕ)
  | reference (ref : MirReference)
  | runtimeSymbol (name : String)
  deriving DecidableEq, Repr

structure Instruction where
  opcode : MirInstructionOpCode
  targetDesc : Option MirTargetInstructionDesc
  operands : List Operand
  deriving DecidableEq, Repr

def Operand.view (mems : ℕ → MirMemory) : Operand → MirOperand
  | register reg => .register reg
  | memory object => .memory (mems object)
  | integer value => .integer value
  | floatingPoint bits => .floatingPoint bits
  | reference ref => .reference ref
  | runtimeSymbol name => .runtimeSymbol name

def Instruction.view (mems : ℕ → MirMemory) (inst : Instruction) : MirInstruction :=
  ⟨inst.opcode, inst.targetDesc, inst.operands.map (·.view mems)⟩

/-- The access to an operand, which does not depend on the memory operands. -/
def Instruction.getOperandFlag (inst : Instruction) (index : ℕ) : MirOperandFlag :=
  (inst.view fun _ => ⟨none, none, none, 1⟩).getOperandFlag index

structure Block where
  id : ℕ
  instructions : List Instruction
  deriving DecidableEq, Repr

structure Function where
  blocks : List Block
  mems : ℕ → MirMemory

def Function.code (f : Function) : List Instruction := f.blocks.flatMap Block.instructions

/-- What the rewriting reads and keeps of the allocator's context. `sizeInBits` has the
sizes of the types of the virtual registers. -/
structure RegisterAllocatorCtx where
  unspillableRegs : List MirRegisterRef
  spilledRegs : RegKey → Option ℕ
  nextId : ℕ
  stackObjects : ℕ
  sizeInBits : ℕ → Option ℕ

/-! ### The target's hooks -/

namespace x86_64TargetInst

def load (id : ℕ) : MirTargetInstructionDesc := ⟨id, [.Write, .Read], [], [], [.ReadsMemory]⟩

def LOAD8 : MirTargetInstructionDesc := load 73
def LOAD16 : MirTargetInstructionDesc := load 74
def LOAD32 : MirTargetInstructionDesc := load 75
def LOAD64 : MirTargetInstructionDesc := load 76

def store (id : ℕ) : MirTargetInstructionDesc := ⟨id, [.Read, .Read], [], [], [.WritesMemory]⟩

def STORE8 : MirTargetInstructionDesc := store 77
def STORE16 : MirTargetInstructionDesc := store 78
def STORE32 : MirTargetInstructionDesc := store 79
def STORE64 : MirTargetInstructionDesc := store 80

end x86_64TargetInst

def buildTarget (desc : MirTargetInstructionDesc) (operands : List Operand) : Instruction :=
  ⟨.TARGET_INST, some desc, operands⟩

def slotRef (slot : ℕ) : Operand := .reference ⟨.StackFrameObject, slot, 0⟩

def isConstant : Operand → Bool
  | .integer _ | .floatingPoint _ => true
  | _ => false

def isRematerializable (definingInst : Option Instruction) : Bool :=
  match definingInst with
  | none => false
  | some inst => inst.opcode = .MOV ∧ (inst.operands[1]?.map isConstant).getD false

def emitReload (sizeInBits : Option ℕ) (dstReg : MirRegisterRef) (spillSlot : ℕ) : Instruction :=
  let size := sizeInBits.getD 64
  let desc :=
    if size ≤ 8 then x86_64TargetInst.LOAD8
    else if size ≤ 16 then x86_64TargetInst.LOAD16
    else if size ≤ 32 then x86_64TargetInst.LOAD32
    else x86_64TargetInst.LOAD64
  buildTarget desc [.register dstReg, slotRef spillSlot]

def emitSpill (sizeInBits : Option ℕ) (spillSlot : ℕ) (srcReg : MirRegisterRef) : Instruction :=
  let size := sizeInBits.getD 64
  let desc :=
    if size ≤ 8 then x86_64TargetInst.STORE8
    else if size ≤ 16 then x86_64TargetInst.STORE16
    else if size ≤ 32 then x86_64TargetInst.STORE32
    else x86_64TargetInst.STORE64
  buildTarget desc [slotRef spillSlot, .register srcReg]

/-- The defining instruction with another destination. -/
def reMaterialize (dstReg : MirRegisterRef) (defInst : Instruction) : Instruction :=
  let ops := .register dstReg :: defInst.operands.drop 1
  match defInst.targetDesc with
  | some desc => buildTarget desc ops
  | none => ⟨defInst.opcode, none, ops⟩

def setBase (mem : MirMemory) (base : Option MirRegisterRef) : MirMemory :=
  { mem with base := base }

def setIndex (mem : MirMemory) (index : Option MirRegisterRef) : MirMemory :=
  { mem with index := index }

theorem setBase_self {mem : MirMemory} {base : Option MirRegisterRef} (h : mem.base = base) :
    setBase mem base = mem := by
  subst h
  rfl

theorem setIndex_self {mem : MirMemory} {index : Option MirRegisterRef} (h : mem.index = index) :
    setIndex mem index = mem := by
  subst h
  rfl

/-! ### The defining instructions and the slots -/

def noteDefinitions (mems : ℕ → MirMemory) (definingInstMap : RegKey → Option Instruction)
    (inst : Instruction) : RegKey → Option Instruction :=
  (inst.view mems).getDefinedRegisters.foldl
    (fun m d => if d.isVirtual then Function.update m (regKey d) (some inst) else m)
    definingInstMap

def definingInst (f : Function) : RegKey → Option Instruction :=
  f.code.foldl (noteDefinitions f.mems) fun _ => none

def createSlot (definingInstMap : RegKey → Option Instruction) (ctx : RegisterAllocatorCtx)
    (spillRef : MirRegisterRef) : RegisterAllocatorCtx :=
  if contains regKey ctx.unspillableRegs spillRef ∨ (ctx.spilledRegs (regKey spillRef)).isSome then
    ctx
  else if isRematerializable (definingInstMap (regKey spillRef)) then ctx
  else
    { ctx with
      spilledRegs := Function.update ctx.spilledRegs (regKey spillRef) (some ctx.stackObjects)
      stackObjects := ctx.stackObjects + 1 }

/-! ### Operands -/

/-- An instruction being rewritten: its temporaries, what is put in front of it and what
is queued to be stored behind it. -/
structure Rewriting where
  ctx : RegisterAllocatorCtx
  mems : ℕ → MirMemory
  reloadedTemps : List (RegKey × MirRegisterRef)
  before : List Instruction
  postSpills : List (MirRegisterRef × ℕ)

/-- What the rewriting of a function is given. -/
structure SpillJob where
  spilledNodes : List MirRegisterRef
  definingInstMap : RegKey → Option Instruction

namespace SpillJob

variable (job : SpillJob)

/-- `buildVReg` and what follows it: a temporary for a register, with its reload. -/
def newTemp (regOp : MirRegisterRef) (isRead isWrite : Bool) (s : Rewriting) :
    Rewriting × MirRegisterRef :=
  let tempVReg : MirRegisterRef := ⟨true, regOp.regClass, s.ctx.nextId⟩
  let size := s.ctx.sizeInBits regOp.id
  let defInst := job.definingInstMap (regKey regOp)
  let remat := isRematerializable defInst
  let slot := s.ctx.spilledRegs (regKey regOp)
  let reload :=
    match remat, defInst, slot with
    | true, some defInst, _ => [reMaterialize tempVReg defInst]
    | _, _, some slot => [emitReload size tempVReg slot]
    | _, _, none => []
  let spill :=
    match slot with
    | some slot => if remat then [] else [(tempVReg, slot)]
    | none => []
  ({ s with
     ctx :=
       { s.ctx with
         nextId := s.ctx.nextId + 1
         unspillableRegs := insert regKey s.ctx.unspillableRegs tempVReg
         sizeInBits := Function.update s.ctx.sizeInBits s.ctx.nextId size }
     reloadedTemps := s.reloadedTemps ++ [(regKey regOp, tempVReg)]
     before := s.before ++ if isRead then reload else []
     postSpills := s.postSpills ++ if isWrite then spill else [] },
    tempVReg)

/-- The register that takes the place of `regOp`, none when it stays. -/
def rewriteRegisterOp (regOp : MirRegisterRef) (isRead isWrite : Bool) (s : Rewriting) :
    Rewriting × Option MirRegisterRef :=
  if ¬ contains regKey job.spilledNodes regOp ∨ contains regKey s.ctx.unspillableRegs regOp then
    (s, none)
  else if ¬ isRead ∧ ¬ isWrite then (s, none)
  else
    match s.reloadedTemps.lookup (regKey regOp) with
    | some tempVReg => (s, some tempVReg)
    | none =>
      let r := job.newTemp regOp isRead isWrite s
      (r.1, some r.2)

/-- A base or an index, which is read. -/
def rewriteAddressReg (reg : Option MirRegisterRef) (s : Rewriting) :
    Rewriting × Option MirRegisterRef :=
  match reg with
  | none => (s, none)
  | some reg =>
    let r := job.rewriteRegisterOp reg true false s
    (r.1, some (r.2.getD reg))

def rewriteMemory (object : ℕ) (s : Rewriting) : Rewriting :=
  let r := job.rewriteAddressReg (s.mems object).base s
  let s := { r.1 with mems := Function.update r.1.mems object (setBase (r.1.mems object) r.2) }
  let r := job.rewriteAddressReg (s.mems object).index s
  { r.1 with mems := Function.update r.1.mems object (setIndex (r.1.mems object) r.2) }

def rewriteOperand (flag : MirOperandFlag) (operand : Operand) (s : Rewriting) :
    Rewriting × Operand :=
  match operand with
  | .register regOp =>
    let r := job.rewriteRegisterOp regOp flag.isRead flag.isWrite s
    (r.1, .register (r.2.getD regOp))
  | .memory object => (job.rewriteMemory object s, .memory object)
  | operand => (s, operand)

/-- The operands from `index` on. An operand keeps its kind, so the flags are those of
the instruction before. -/
def rewriteOperands (flagAt : ℕ → MirOperandFlag) :
    List Operand → ℕ → Rewriting → Rewriting × List Operand
  | [], _, s => (s, [])
  | operand :: operands, index, s =>
    let r := job.rewriteOperand (flagAt index) operand s
    let rest := rewriteOperands flagAt operands (index + 1) r.1
    (rest.1, r.2 :: rest.2)

/-! ### Instructions and functions -/

/-- A rewritten instruction with the code around it, and its temporaries. -/
structure Group where
  before : List Instruction
  inst : Instruction
  after : List Instruction
  reloadedTemps : List (RegKey × MirRegisterRef)

def Group.code (g : Group) : List Instruction := g.before ++ g.inst :: g.after

/-- Every store is put directly behind the instruction, in front of those before it. -/
def rewriteInstruction (inst : Instruction) (ctx : RegisterAllocatorCtx) (mems : ℕ → MirMemory) :
    Group × RegisterAllocatorCtx × (ℕ → MirMemory) :=
  let r := job.rewriteOperands inst.getOperandFlag inst.operands 0 ⟨ctx, mems, [], [], []⟩
  let after := r.1.postSpills.reverse.map fun spill =>
    emitSpill (r.1.ctx.sizeInBits spill.1.id) spill.2 spill.1
  (⟨r.1.before, { inst with operands := r.2 }, after, r.1.reloadedTemps⟩, r.1.ctx, r.1.mems)

def rewriteCode : List Instruction → RegisterAllocatorCtx → (ℕ → MirMemory) →
    List Group × RegisterAllocatorCtx × (ℕ → MirMemory)
  | [], ctx, mems => ([], ctx, mems)
  | inst :: rest, ctx, mems =>
    let r := job.rewriteInstruction inst ctx mems
    let s := rewriteCode rest r.2.1 r.2.2
    (r.1 :: s.1, s.2)

def rewriteBlocks : List Block → RegisterAllocatorCtx → (ℕ → MirMemory) →
    List (ℕ × List Group) × RegisterAllocatorCtx × (ℕ → MirMemory)
  | [], ctx, mems => ([], ctx, mems)
  | b :: rest, ctx, mems =>
    let r := job.rewriteCode b.instructions ctx mems
    let s := rewriteBlocks rest r.2.1 r.2.2
    ((b.id, r.1) :: s.1, s.2)

theorem rewriteCode_append (l l' : List Instruction) (ctx : RegisterAllocatorCtx)
    (mems : ℕ → MirMemory) :
    job.rewriteCode (l ++ l') ctx mems =
      ((job.rewriteCode l ctx mems).1 ++ (job.rewriteCode l' (job.rewriteCode l ctx mems).2.1
          (job.rewriteCode l ctx mems).2.2).1,
        (job.rewriteCode l' (job.rewriteCode l ctx mems).2.1
          (job.rewriteCode l ctx mems).2.2).2) := by
  induction l generalizing ctx mems with
  | nil => rfl
  | cons inst l ih =>
    simp only [cons_append, rewriteCode, ih]

theorem rewriteBlocks_eq (blocks : List Block) (ctx : RegisterAllocatorCtx) (mems : ℕ → MirMemory) :
    ((job.rewriteBlocks blocks ctx mems).1.flatMap Prod.snd,
      (job.rewriteBlocks blocks ctx mems).2) =
      job.rewriteCode (blocks.flatMap Block.instructions) ctx mems := by
  induction blocks generalizing ctx mems with
  | nil => rfl
  | cons b blocks ih =>
    rw [flatMap_cons, rewriteCode_append, ← ih]
    simp only [rewriteBlocks, flatMap_cons]

end SpillJob

/-- What `rewriteSpilledRegisters` starts its walk over the operands with. -/
def slotsCreated (f : Function) (spilledNodes : List MirRegisterRef)
    (ctx : RegisterAllocatorCtx) : RegisterAllocatorCtx :=
  spilledNodes.foldl (createSlot (definingInst f)) ctx

def rewriteSpilledRegisters (f : Function) (spilledNodes : List MirRegisterRef)
    (ctx : RegisterAllocatorCtx) : Function × RegisterAllocatorCtx :=
  let r := SpillJob.rewriteBlocks ⟨spilledNodes, definingInst f⟩ f.blocks
    (slotsCreated f spilledNodes ctx) f.mems
  (⟨r.1.map fun b => ⟨b.1, b.2.flatMap SpillJob.Group.code⟩, r.2.2⟩, r.2.1)

/-!
## Running a function along a path

A machine has registers, the stack slots of the spilled registers and the rest of the
state. What an instruction does to the registers it writes and to the rest is not fixed:
it depends on the instruction without its register names, on the values it reads and on
the rest. Only a move of a constant, and a load or a store of a spill slot, do what they
say. A path is any sequence of instructions that control may take.
-/

open Mir RegAlloc KeyedSet CodeFlow

/-! ### Instructions -/

def shapeOperand : MirOperand → MirOperand
  | .register _ => .register ⟨true, none, 0⟩
  | .memory mem => .memory { mem with
      base := mem.base.map fun _ => ⟨true, none, 0⟩
      index := mem.index.map fun _ => ⟨true, none, 0⟩ }
  | op => op

/-- The instruction without its register names. -/
def shape (inst : MirInstruction) : MirInstruction :=
  { inst with operands := inst.operands.map shapeOperand }

def constantMove (inst : MirInstruction) : Option MirOperand :=
  if inst.opcode = .MOV then
    match inst.operands with
    | .register _ :: .integer value :: _ => some (.integer value)
    | .register _ :: .floatingPoint bits :: _ => some (.floatingPoint bits)
    | _ => none
  else none

inductive SpillAccess
  | reload (slot : ℕ) (dst : MirRegisterRef)
  | spill (slot : ℕ) (src : MirRegisterRef)
  deriving DecidableEq, Repr

def spillAccess (isSlot : ℕ → Bool) (inst : MirInstruction) : Option SpillAccess :=
  match inst.selectedDesc, inst.operands with
  | some desc, [.register reg, .reference ref] =>
    if ref.refType = .StackFrameObject ∧ isSlot ref.refId ∧
        desc ∈ [x86_64TargetInst.LOAD8, x86_64TargetInst.LOAD16, x86_64TargetInst.LOAD32,
          x86_64TargetInst.LOAD64] then
      some (.reload ref.refId reg)
    else none
  | some desc, [.reference ref, .register reg] =>
    if ref.refType = .StackFrameObject ∧ isSlot ref.refId ∧
        desc ∈ [x86_64TargetInst.STORE8, x86_64TargetInst.STORE16, x86_64TargetInst.STORE32,
          x86_64TargetInst.STORE64] then
      some (.spill ref.refId reg)
    else none
  | _, _ => none

/-! ### The machine -/

/-- What the instructions do: the values they write, by position, and the rest. -/
structure Interp where
  Val : Type
  Env : Type
  const : MirOperand → Val
  run : MirInstruction → List Val → Env → (ℕ → Val) × Env

structure State (I : Interp) where
  regs : RegKey → I.Val
  slots : ℕ → I.Val
  env : I.Env

variable {I : Interp}

/-- Writes to registers in turn, the one at position `k` with `w k`. -/
def writeAll (w : ℕ → I.Val) : List RegKey → ℕ → (RegKey → I.Val) → RegKey → I.Val
  | [], _, regs => regs
  | key :: rest, k, regs => writeAll w rest (k + 1) (Function.update regs key (w k))

def readValues (inst : MirInstruction) (s : State I) : List I.Val :=
  inst.getUsedRegisters.map fun r => s.regs (regKey r)

def exec (isSlot : ℕ → Bool) (inst : MirInstruction) (s : State I) : State I :=
  match spillAccess isSlot inst with
  | some (.reload slot dst) =>
    { s with regs := Function.update s.regs (regKey dst) (s.slots slot) }
  | some (.spill slot src) =>
    { s with slots := Function.update s.slots slot (s.regs (regKey src)) }
  | none =>
    let written := inst.getDefinedRegisters.map regKey
    match constantMove inst with
    | some op => { s with regs := writeAll (fun _ => I.const op) written 0 s.regs }
    | none =>
      let r := I.run (shape inst) (readValues inst s) s.env
      { s with regs := writeAll r.1 written 0 s.regs, env := r.2 }

def execCode (isSlot : ℕ → Bool) (mems : ℕ → MirMemory) (code : List Instruction)
    (s : State I) : State I :=
  code.foldl (fun s inst => exec isSlot (inst.view mems) s) s

theorem execCode_cons (isSlot : ℕ → Bool) (mems : ℕ → MirMemory) (inst : Instruction)
    (code : List Instruction) (s : State I) :
    execCode isSlot mems (inst :: code) s =
      execCode isSlot mems code (exec isSlot (inst.view mems) s) := rfl

theorem execCode_append (isSlot : ℕ → Bool) (mems : ℕ → MirMemory) (code code' : List Instruction)
    (s : State I) : execCode isSlot mems (code ++ code') s =
      execCode isSlot mems code' (execCode isSlot mems code s) := foldl_append

/-! ### Paths -/

namespace Function

variable (f : Function)

def instAt (p : ℕ) : Instruction := f.code.getD p ⟨.NOP, none, []⟩

def viewAt (p : ℕ) : MirInstruction := (f.instAt p).view f.mems

/-- The position of the first instruction of a block. -/
def blockStart : List Block → ℕ → Option ℕ
  | [], _ => none
  | b :: rest, id =>
    if b.id = id then some 0 else (blockStart rest id).map (· + b.instructions.length)

/-- Control is at a position, and the instructions were executed, the last one first. -/
inductive Run : ℕ → List ℕ → Prop
  | start : Run 0 []
  | next {p : ℕ} {l : List ℕ} : Run p l → p < f.code.length → endsScan (f.viewAt p) = false →
      Run (p + 1) (p :: l)
  | jump {p q target : ℕ} {l : List ℕ} : Run p l → p < f.code.length →
      isBranch (f.viewAt p) = true →
      target ∈ jumpTargets (fun id => id ∈ f.blocks.map Block.id) (f.viewAt p) →
      blockStart f.blocks target = some q → Run q (p :: l)

variable {f}

/-- What was executed before is a path too. -/
theorem Run.tail {q p : ℕ} {l : List ℕ} (h : f.Run q (p :: l)) : f.Run p l ∧ p < f.code.length := by
  cases h with
  | next hrun hp _ | jump hrun hp _ _ _ => exact ⟨hrun, hp⟩

end Function

def runPath (isSlot : ℕ → Bool) (f : Function) (s : State I) : List ℕ → State I
  | [] => s
  | p :: l => exec isSlot (f.viewAt p) (runPath isSlot f s l)

/-- The rewritten instructions, with the code around them. -/
structure RewrittenCode where
  groups : List SpillJob.Group
  mems : ℕ → MirMemory

namespace RewrittenCode

variable (c : RewrittenCode)

def groupAt (p : ℕ) : SpillJob.Group := c.groups.getD p ⟨[], ⟨.NOP, none, []⟩, [], []⟩

/-- The states along a path of the function before the rewriting: each instruction is
executed with the code around it. -/
def runPath (isSlot : ℕ → Bool) (s : State I) : List ℕ → State I
  | [] => s
  | p :: l => execCode isSlot c.mems (c.groupAt p).code (runPath isSlot s l)

/-- What the rewritten instruction reads, behind the code in front of it. -/
def readsAt (isSlot : ℕ → Bool) (p : ℕ) (s : State I) : List I.Val :=
  readValues ((c.groupAt p).inst.view c.mems) (execCode isSlot c.mems (c.groupAt p).before s)

end RewrittenCode

/-! ### What the rewriting is given -/

/-- The registers of an instruction and of its memory operands. -/
def Names (f : Function) (r : MirRegisterRef) : Prop :=
  (∃ inst ∈ f.code, .register r ∈ inst.operands) ∨
    ∃ m, (f.mems m).base = some r ∨ (f.mems m).index = some r

/-- A function in the allocator with its context. Virtual registers are numbered below
`nextId` and stack objects below `stackObjects`. The registers to spill are virtual, and
no instruction accesses their slots. Only selected instructions have a descriptor, whose
implicit registers are physical, and a branch writes no register. -/
structure SpillInput where
  f : Function
  spilledNodes : List MirRegisterRef
  ctx : RegisterAllocatorCtx
  isVirtual : ∀ r ∈ spilledNodes, r.isVirtual = true
  node_lt : ∀ r ∈ spilledNodes, r.id < ctx.nextId
  name_lt : ∀ r, Names f r → r.isVirtual = true → r.id < ctx.nextId
  slot_lt : ∀ k slot, ctx.spilledRegs k = some slot → slot < ctx.stackObjects
  slot_inj : ∀ k k' slot, ctx.spilledRegs k = some slot → ctx.spilledRegs k' = some slot → k = k'
  ref_lt : ∀ inst ∈ f.code, ∀ ref, .reference ref ∈ inst.operands →
    ref.refType = .StackFrameObject → ref.refId < ctx.stackObjects
  ref_ne : ∀ inst ∈ f.code, ∀ ref, .reference ref ∈ inst.operands →
    ref.refType = .StackFrameObject → ∀ r ∈ spilledNodes,
      ctx.spilledRegs (regKey r) ≠ some ref.refId
  plain : ∀ inst ∈ f.code, inst.opcode ≠ .TARGET_INST → inst.targetDesc = none
  implicit : ∀ inst ∈ f.code, ∀ desc, inst.targetDesc = some desc →
    ∀ r ∈ desc.implicitDefs ++ desc.implicitUses, r.isVirtual = false
  branch : ∀ inst ∈ f.code, isBranch (inst.view f.mems) = true →
    (inst.view f.mems).getDefinedRegisters = []

namespace SpillInput

variable (j : SpillInput)

def job : SpillJob := ⟨j.spilledNodes, definingInst j.f⟩

/-- The context with the slots. -/
def slots : RegisterAllocatorCtx := slotsCreated j.f j.spilledNodes j.ctx

def rewritten : RewrittenCode :=
  let r := j.job.rewriteCode j.f.code j.slots j.f.mems
  ⟨r.1, r.2.2⟩

/-- The register is replaced by temporaries. -/
def spills (r : MirRegisterRef) : Bool :=
  contains regKey j.spilledNodes r && !contains regKey j.ctx.unspillableRegs r

/-- The constant that a register is rebuilt from. -/
def rematConst (k : RegKey) : Option MirOperand :=
  match definingInst j.f k with
  | none => none
  | some inst =>
    if isRematerializable (some inst) then inst.operands[1]?.map (·.view j.f.mems) else none

/-- The slots of the registers that are replaced. -/
def isSlot (slot : ℕ) : Bool :=
  j.spilledNodes.any fun r => j.spills r && j.slots.spilledRegs (regKey r) == some slot

/-- A register that is no temporary of the rewriting. -/
def IsOld (k : RegKey) : Prop := ∀ id, k = .vreg id → id < j.ctx.nextId

/-- The two machines agree, and the values of the spilled registers are in their slots. -/
structure StartsKept (s s' : State I) : Prop where
  regs : ∀ k, j.IsOld k → s'.regs k = s.regs k
  slots : ∀ r, j.spills r = true → ∀ slot, j.slots.spilledRegs (regKey r) = some slot →
    s'.slots slot = s.regs (regKey r)
  env : s'.env = s.env

/-- In every machine and on every path, the rewritten instruction reads at every operand,
base and index what the instruction reads before the rewriting. -/
def GroupsKeepReads : Prop :=
  ∀ (I : Interp) (s s' : State I), j.StartsKept s s' → ∀ p l, j.f.Run p l → p < j.f.code.length →
      j.rewritten.readsAt j.isSlot p (j.rewritten.runPath j.isSlot s' l) =
        readValues (j.f.viewAt p) (runPath j.isSlot j.f s l)

theorem rewritten_code : (rewriteSpilledRegisters j.f j.spilledNodes j.ctx).1.code =
        j.rewritten.groups.flatMap SpillJob.Group.code ∧
      (rewriteSpilledRegisters j.f j.spilledNodes j.ctx).1.mems = j.rewritten.mems := by
  have h := j.job.rewriteBlocks_eq j.f.blocks j.slots j.f.mems
  have hgroups : j.rewritten.groups =
      (j.job.rewriteBlocks j.f.blocks j.slots j.f.mems).1.flatMap Prod.snd := by
    change (j.job.rewriteCode j.f.code j.slots j.f.mems).1 = _
    rw [Function.code, ← h]
  constructor
  · rw [hgroups, flatMap_assoc]
    change flatMap Block.instructions (map _ _) = _
    rw [flatMap_map]
    rfl
  · change _ = (j.job.rewriteCode j.f.code j.slots j.f.mems).2.2
    rw [Function.code, ← h]
    rfl

end SpillInput

end EzPacker.SpillCode
