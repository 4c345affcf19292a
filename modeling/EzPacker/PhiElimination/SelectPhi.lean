import EzPacker.CodeFlow.ControlTransfer

/-!
# The elimination of PHIs by the instruction selector

The selector goes over the blocks of a function in layout order and over the
instructions of a block from the last to the first. A PHI whose result is used is
replaced by a move in each predecessor, in front of the first instruction there that
branches or ends the block. An incoming operand that is no register gets no move, and
neither does a register that nothing defines.

The predecessors of a block before it in the layout are selected when its PHIs are
reached, those behind it are not. A block that branches to itself is selected but for
its PHIs.
-/

namespace EzPacker.PhiElimination

open Mir CodeFlow

/-- A block whose PHIs lead. The predecessors are those that the control-flow analysis
published, in the order of the incoming operands of the PHIs. -/
structure MirBlock where
  id : ℕ
  predecessors : List ℕ
  phis : List MirInstruction
  body : List MirInstruction
  deriving DecidableEq, Repr

/-- A function. Registers named `undef` stand for values that are not defined. -/
structure MirFunction where
  blocks : List MirBlock
  params : List ℕ
  isNamedUndef : ℕ → Bool

def virtualIds (regs : List MirRegisterRef) : List ℕ :=
  (regs.filter MirRegisterRef.isVirtual).map MirRegisterRef.id

def reads (inst : MirInstruction) : List ℕ := virtualIds inst.getUsedRegisters

def writes (inst : MirInstruction) : List ℕ := virtualIds inst.getDefinedRegisters

/-- A move is put in front of such an instruction. -/
def isBr (inst : MirInstruction) : Bool :=
  let flags := (inst.targetDesc.map MirTargetInstructionDesc.targetFlags).getD
    inst.getMetadata.flags
  .IsBranch ∈ flags ∨ .IsTerminator ∈ flags ∨ inst.opcode = .JMP ∨ inst.opcode = .BR_COND

def insertBeforeBranch (mov : MirInstruction) (insts : List MirInstruction) : List MirInstruction :=
  insts.takeWhile (!isBr ·) ++ mov :: insts.dropWhile (!isBr ·)

def movInst (dst src : MirRegisterRef) : MirInstruction :=
  ⟨.MOV, none, [.register dst, .register src]⟩

namespace MirFunction

variable (f : MirFunction)

def mapBlock (id : ℕ) (change : MirBlock → MirBlock) : MirFunction :=
  { f with blocks := f.blocks.map fun b => if b.id = id then change b else b }

/-- `getUseCount(reg) > 0` -/
def isUsed (reg : ℕ) : Bool :=
  f.blocks.any fun b => (b.phis ++ b.body).any fun inst => reg ∈ reads inst

/-- `getDef(reg) != nullptr` -/
def hasDef (reg : ℕ) : Bool :=
  f.blocks.any fun b => (b.phis ++ b.body).any fun inst => reg ∈ writes inst

def isUndefined (inReg : MirRegisterRef) : Bool :=
  f.isNamedUndef inReg.id || (inReg.id ∉ f.params && inReg.isVirtual && !f.hasDef inReg.id)

def insertMove (pred : ℕ) (mov : MirInstruction) : MirFunction :=
  f.mapBlock pred fun b => { b with body := insertBeforeBranch mov b.body }

def insertIncoming (dst : MirRegisterRef) (incoming : ℕ × MirOperand) : MirFunction :=
  match incoming.2 with
  | .register inReg =>
    if f.isUndefined inReg then f else f.insertMove incoming.1 (movInst dst inReg)
  | _ => f

def insertMoves (currBlock : MirBlock) (inst : MirInstruction) : MirFunction :=
  match inst.operands with
  | .register dst :: incoming =>
    if f.isUsed dst.id then
      (currBlock.predecessors.zip incoming).foldl (fun f i => f.insertIncoming dst i) f
    else f
  | _ => f

/-- The last PHI of a block is replaced by its moves. -/
def selectPHI (currBlock : MirBlock) (inst : MirInstruction) : MirFunction :=
  (f.insertMoves currBlock inst).mapBlock currBlock.id fun b =>
    { b with phis := b.phis.dropLast }

def selectBody (ctx : SelectorContext) (id : ℕ) : MirFunction :=
  f.mapBlock id fun b => { b with body := b.body.flatMap (selectControl ctx) }

/-- The selection of a block, from its last instruction to its first. -/
def selectBlock (ctx : SelectorContext) (currBlock : MirBlock) : MirFunction :=
  currBlock.phis.reverse.foldl (fun f inst => f.selectPHI currBlock inst)
    (f.selectBody ctx currBlock.id)

def selectFunction (ctx : SelectorContext) : MirFunction :=
  f.blocks.foldl (fun f' b => f'.selectBlock ctx b) f

end MirFunction

/-- An operand that a PHI merges: a virtual register, or a value that is the same
wherever it is read. -/
def IsIncoming : MirOperand → Prop
  | .register reg => reg.isVirtual = true
  | .memory _ => False
  | _ => True

/-- A PHI, with one incoming operand for each predecessor. -/
def IsPhi (predecessors : List ℕ) (inst : MirInstruction) : Prop :=
  ∃ dst incoming, inst = ⟨.PHI, none, .register dst :: incoming⟩ ∧ dst.isVirtual = true ∧
    incoming.length = predecessors.length ∧ ∀ op ∈ incoming, IsIncoming op

/-- A generic function in SSA form. A register as the first operand of a call is its
binding token, which ties the call to its arguments and is not merged. -/
structure SsaFunction (ctx : SelectorContext) extends MirFunction where
  nodup : (blocks.map MirBlock.id).Nodup
  predecessors_nodup : ∀ b ∈ blocks, b.predecessors.Nodup
  predecessors_mem : ∀ b ∈ blocks, ∀ pred ∈ b.predecessors, pred ∈ blocks.map MirBlock.id
  isPhi : ∀ b ∈ blocks, ∀ inst ∈ b.phis, IsPhi b.predecessors inst
  isGeneric : ∀ b ∈ blocks, ∀ inst ∈ b.body, inst.opcode ≠ .PHI ∧ inst.targetDesc = none
  singleAssignment : (params ++ blocks.flatMap fun b =>
    (b.phis ++ b.body).flatMap writes).Nodup
  callToken : ∀ b ∈ blocks, ∀ inst ∈ b.body, inst.opcode = .CALL →
    ∀ token args, inst.operands = .register token :: args → ctx.isBindingToken token = true
  tokenNotMerged : ∀ b ∈ blocks, ∀ inst ∈ b.body, inst.opcode = .CALL →
    ∀ r ∈ writes inst, ∀ b' ∈ blocks, ∀ phi ∈ b'.phis, r ∉ reads phi

/-!
## Executions of a function with PHIs

Whatever the instructions compute is a parameter: an instruction maps the values of the
virtual registers that it reads, and a state that holds everything else, to the values
that it writes, a new state and perhaps a block to go to. The PHIs of a block read their
operands at once on the edge that is taken. A register that nothing has written has no
value, and an execution ends where an instruction would read one.

An execution is observed through the operand values of its instructions. The moves into
the results of PHIs, which only the selected function has, are not observed.
-/

inductive Outcome (V S : Type*)
  | next (results : List V) (state : S)
  | jump (target : ℕ) (results : List V) (state : S)
  | stop

/-- The instruction may leave its block for another one. A jump that links is a call,
which comes back. -/
def mayJump (arch : TargetArch) (inst : MirInstruction) : Bool :=
  isBr inst && !(isOneOf arch.linkingJumps inst && !dropsLink inst)

structure Machine (arch : TargetArch) (V S : Type*) where
  exec : MirInstruction → List V → S → Outcome V S
  /-- The value of an operand that is no register. -/
  constant : MirOperand → V
  mayJump_of_jump : ∀ inst values state target results state',
    exec inst values state = .jump target results state' → mayJump arch inst = true

abbrev Env (V : Type*) := ℕ → Option V

/-- The registers take these values, in order. -/
def Env.write {V : Type*} (env : Env V) (regs : List ℕ) (values : List V) : Env V :=
  fun r => if r ∈ regs then values[regs.idxOf r]? else env r

/-- The values of the registers that an instruction reads, when all have one. -/
def operandValues {V : Type*} (env : Env V) (inst : MirInstruction) : Option (List V) :=
  (reads inst).mapM env

/-- An instruction was executed with these operand values. -/
structure Event (V : Type*) where
  inst : MirInstruction
  operands : List V

inductive BlockExit (V S : Type*)
  | goto (target : ℕ) (env : Env V) (state : S)
  | stop

def virtualId : MirOperand → Option ℕ
  | .register reg => if reg.isVirtual then some reg.id else none
  | _ => none

def phiResult (inst : MirInstruction) : Option ℕ := inst.operands.head?.bind virtualId

def phiResults (blocks : List MirBlock) : List ℕ :=
  blocks.flatMap fun b => b.phis.filterMap phiResult

/-- A move into the result of a PHI, with its source. -/
def copyOf (results : List ℕ) (inst : MirInstruction) : Option (ℕ × ℕ) :=
  match inst with
  | ⟨.MOV, none, [.register dst, .register src]⟩ =>
    if dst.isVirtual ∧ src.isVirtual ∧ dst.id ∈ results then some (dst.id, src.id) else none
  | _ => none

section

variable {arch : TargetArch} {V S : Type*} (m : Machine arch V S) (results : List ℕ)

def runBody (next : Option ℕ) : List MirInstruction → Env V → S → List (Event V) × BlockExit V S
  | [], env, state =>
    match next with
    | some target => ([], .goto target env state)
    | none => ([], .stop)
  | inst :: rest, env, state =>
    match copyOf results inst with
    | some (dst, src) => runBody next rest (Function.update env dst (env src)) state
    | none =>
      match operandValues env inst with
      | none => ([], .stop)
      | some values =>
        match m.exec inst values state with
        | .next results state =>
          let run := runBody next rest (env.write (writes inst) results) state
          (⟨inst, values⟩ :: run.1, run.2)
        | .jump target results state =>
          ([⟨inst, values⟩], .goto target (env.write (writes inst) results) state)
        | .stop => ([⟨inst, values⟩], .stop)

def incomingValue (env : Env V) (op : MirOperand) : Option V :=
  match virtualId op with
  | some reg => env reg
  | none => some (m.constant op)

def incomingAt (predecessors : List ℕ) (source : ℕ) (phi : MirInstruction) : Option MirOperand :=
  phi.operands[1 + predecessors.idxOf source]?

/-- The registers behind the PHIs of a block, which all read on the edge. -/
def enter (b : MirBlock) (source : ℕ) (env : Env V) : Env V := fun reg =>
  match b.phis.find? (phiResult · = some reg) with
  | some phi => (incomingAt b.predecessors source phi).bind (incomingValue m env)
  | none => env reg

/-- The events of an execution from the start of a block, up to some point: the first ones
of the block, or those of the whole block and of an execution from a block that it goes
to. -/
inductive Executes (blocks : List MirBlock) : ℕ → Env V → S → List (Event V) → Prop
  | within {before after : List MirBlock} {b : MirBlock} {env : Env V} {state : S}
      {events : List (Event V)} :
      blocks = before ++ b :: after →
      events <+: (runBody m results (after.head?.map MirBlock.id) b.body env state).1 →
      Executes blocks b.id env state events
  | across {before after : List MirBlock} {b b' : MirBlock} {env env' : Env V}
      {state state' : S} {events events' : List (Event V)} :
      blocks = before ++ b :: after →
      runBody m results (after.head?.map MirBlock.id) b.body env state =
        (events, .goto b'.id env' state') →
      b' ∈ blocks → b.id ∈ b'.predecessors →
      Executes blocks b'.id (enter m b' b.id env') state' events' →
      Executes blocks b.id env state (events ++ events')

end

theorem executes_cases {arch : TargetArch} {V S : Type*} {m : Machine arch V S}
    {results : List ℕ} {before after : List MirBlock} {b : MirBlock} {env : Env V} {state : S}
    {events : List (Event V)} (hnodup : ((before ++ b :: after).map MirBlock.id).Nodup)
    (h : Executes m results (before ++ b :: after) b.id env state events) :
    let run := runBody m results (after.head?.map MirBlock.id) b.body env state
    events <+: run.1 ∨ ∃ b' ∈ before ++ b :: after, ∃ env' state' events',
      run.2 = .goto b'.id env' state' ∧ events = run.1 ++ events' ∧
        Executes m results (before ++ b :: after) b'.id (enter m b' b.id env') state' events' := by
  generalize hblocks : before ++ b :: after = blocks at h hnodup ⊢
  generalize hid : b.id = p at h
  have hunique : ∀ {before' after' : List MirBlock} {b' : MirBlock}, b'.id = p →
      blocks = before' ++ b' :: after' → b' = b ∧ after' = after := by
    intro before' after' b' hid' hsplit
    have hb : b ∈ blocks := by
      rw [← hblocks]
      simp
    have hb' : b' ∈ blocks := by
      rw [hsplit]
      simp
    obtain rfl := List.inj_on_of_nodup_map hnodup hb' hb (hid'.trans hid.symm)
    have hnot := hnodup.of_map
    rw [← hblocks, List.nodup_middle, List.nodup_cons, List.mem_append, not_or] at hnot
    rw [← hblocks, List.append_cons_inj_of_notMem hnot.1.1 hnot.1.2] at hsplit
    exact ⟨rfl, hsplit.2.2.symm⟩
  cases h with
  | within hsplit hpre =>
    obtain ⟨rfl, rfl⟩ := hunique rfl hsplit
    exact .inl hpre
  | across hsplit hexit hb' _ hrun =>
    obtain ⟨rfl, rfl⟩ := hunique rfl hsplit
    exact .inr ⟨_, hb', _, _, _, congrArg Prod.snd hexit,
      congrArg (· ++ _) (congrArg Prod.fst hexit).symm, hrun⟩

/-! ### What an execution may depend on -/

/-- The blocks of a function with the target instructions of its branches, and with its
PHIs. -/
def MirFunction.withSelectedBodies (f : MirFunction) (ctx : SelectorContext) : List MirBlock :=
  f.blocks.map fun b => { b with body := b.body.flatMap (selectControl ctx) }

section

variable (blocks : List MirBlock)

/-- Some instruction reads the register, or a PHI does whose result is needed. -/
inductive Needed : ℕ → Prop
  | read {b : MirBlock} {inst : MirInstruction} {r : ℕ} :
      b ∈ blocks → inst ∈ b.body → r ∈ reads inst → Needed r
  | merged {b : MirBlock} {phi : MirInstruction} {d r : ℕ} :
      b ∈ blocks → phi ∈ b.phis → phiResult phi = some d → Needed d → r ∈ reads phi → Needed r

/-- The register may come to have a value. -/
inductive Defined (params : List ℕ) : ℕ → Prop
  | param {r : ℕ} : r ∈ params → Defined params r
  | written {b : MirBlock} {inst : MirInstruction} {r : ℕ} :
      b ∈ blocks → inst ∈ b.body → r ∈ writes inst → Defined params r
  | constant {b : MirBlock} {phi : MirInstruction} {d : ℕ} {op : MirOperand} :
      b ∈ blocks → phi ∈ b.phis → phiResult phi = some d → op ∈ phi.operands.tail →
        virtualId op = none → Defined params d
  | merged {b : MirBlock} {phi : MirInstruction} {d r : ℕ} :
      b ∈ blocks → phi ∈ b.phis → phiResult phi = some d → r ∈ reads phi →
        Defined params r → Defined params d

/-- On some path from instructions that end the block `source`, the register is read
before it is written. -/
inductive Live (arch : TargetArch) : ℕ → List MirInstruction → ℕ → Prop
  | read {source : ℕ} {inst : MirInstruction} {rest : List MirInstruction} {r : ℕ} :
      r ∈ reads inst → Live arch source (inst :: rest) r
  | behind {source : ℕ} {inst : MirInstruction} {rest : List MirInstruction} {r : ℕ} :
      r ∉ writes inst → Live arch source rest r → Live arch source (inst :: rest) r
  | jump {source : ℕ} {inst : MirInstruction} {rest : List MirInstruction} {r : ℕ} :
      mayJump arch inst = true → r ∉ writes inst → Live arch source [] r →
        Live arch source (inst :: rest) r
  | merged {source : ℕ} {b : MirBlock} {phi : MirInstruction} {op : MirOperand} {d r : ℕ} :
      b ∈ blocks → source ∈ b.predecessors → phi ∈ b.phis → phiResult phi = some d →
        Needed blocks d → incomingAt b.predecessors source phi = some op →
        virtualId op = some r → Live arch source [] r
  | across {source : ℕ} {b : MirBlock} {r : ℕ} :
      b ∈ blocks → source ∈ b.predecessors → r ∉ b.phis.filterMap phiResult →
        Live arch b.id b.body r → Live arch source [] r

end

end EzPacker.PhiElimination
