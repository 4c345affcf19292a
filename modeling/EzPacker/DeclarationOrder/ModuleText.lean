import EzPacker.Mir.InstructionSet
import EzPacker.Mir.Type

/-!
# Modules in the textual form

A module text after the tokens of each operand have been read, and the module that the
parser builds from it. Labels and register names are written without the `%`, symbols
without the `@`. An operand without a type of its own has the type of its statement.
Statements with an unknown opcode or with tokens that are no operand are errors wherever
they stand and have no text here. A text keeps nothing of a declaration that the parser
copies and no reference sees: linkage, constness and the initializer.
-/

namespace EzPacker.DeclarationOrder

open Mir (MirInstructionOpCode MirTypeKind)

/-! ## Types -/

/-- The type table has one type of each name. -/
structure InternedType where
  kind : MirTypeKind
  name : String
  deriving DecidableEq, Repr

namespace InternedType

def void : InternedType := ⟨.Void, "void"⟩

def i8 : InternedType := ⟨.Integer, "i8"⟩

def i64 : InternedType := ⟨.Integer, "i64"⟩

def f64 : InternedType := ⟨.FloatingPoint, "f64"⟩

def getPtr (type : InternedType) : InternedType := ⟨.Pointer, type.name ++ "*"⟩

def getFuncType (returnType : InternedType) (parameters : List InternedType) : InternedType :=
  ⟨.Function, returnType.name ++ "(" ++ ",".intercalate (parameters.map name) ++ ")"⟩

end InternedType

/-! ## Text -/

/-- A value: a register or a literal. -/
inductive ValueText
  | register (name : String)
  | integer (value : ℤ)
  | floatingPoint (bits : ℕ)
  deriving DecidableEq, Repr

/-- What is added to the base of an address. The sign of a register is not looked at. -/
inductive MemoryTerm
  | index (register : String) (scale : Option ℤ)
  | displacement (isPlus : Bool) (value : ℤ)
  deriving DecidableEq, Repr

/-- An operand: `label %block`, a value, a pair `[value, %block]`, an address, or `@name`
with an offset. -/
inductive OperandText
  | label (block : String)
  | value (value : ValueText)
  | pair (value : ValueText) (block : String)
  | memory (base : String) (terms : List MemoryTerm)
  | symbol (name : String) (offset : ℤ)
  deriving DecidableEq, Repr

structure StatementText where
  dst : Option String
  opcode : MirInstructionOpCode
  type : Option InternedType
  operands : List (Option InternedType × OperandText)
  deriving DecidableEq, Repr

structure BlockText where
  label : String
  body : List StatementText
  deriving DecidableEq, Repr

/-- `fn`, with a body or without one. -/
structure FunctionText where
  name : String
  returnType : InternedType
  parameters : List (String × InternedType)
  body : Option (List BlockText)
  deriving DecidableEq, Repr

/-- A top-level declaration: a global variable, `declare` or `fn`. -/
inductive TopLevelText
  | globalVar (name : String) (type : InternedType)
  | declare (name : String) (returnType : InternedType) (parameterTypes : List InternedType)
  | fn (function : FunctionText)
  deriving DecidableEq, Repr

abbrev ModuleText := List TopLevelText

/-! ## The parsed module -/

/-- A block is known by `β`; a function or a global variable by the place of its
declaration. -/
inductive ReferenceTarget (β : Type)
  | Block (block : β)
  | Function (id : ℕ)
  | GlobalVar (id : ℕ)
  deriving DecidableEq, Repr

/-- An operand. A register is an object of its function, known by its name. -/
inductive Operand (β : Type)
  | register (name : String)
  | memory (type : InternedType) (base : String) (displ : BitVec 64) (index : Option String)
      (scale : BitVec 8)
  | integer (type : InternedType) (value : ℤ)
  | floatingPoint (type : InternedType) (bits : ℕ)
  | reference (target : ReferenceTarget β) (offset : BitVec 64) (type : InternedType)
  | runtimeSymbol (name : String)
  deriving DecidableEq, Repr

structure Instruction (β : Type) where
  opcode : MirInstructionOpCode
  operands : List (Operand β)
  deriving DecidableEq, Repr

/-- A block with pointers to its instructions. -/
structure ParsedBlock where
  name : String
  instructions : List ℕ
  deriving DecidableEq, Repr

/-- What the parser leaves of a function body: the blocks, the entry first, and the
registers with their types. -/
structure ParsedBody where
  blocks : List ParsedBlock
  registers : List (String × InternedType)
  deriving DecidableEq, Repr

/-- An object of the module. Its type is the one that a pointer to it points to. -/
inductive ParsedObject
  | globalVar (name : String) (type : InternedType)
  | function (name : String) (type : InternedType) (parameters : List InternedType)
      (body : Option ParsedBody)
  deriving DecidableEq, Repr

/-- The objects in the order of their declarations, and the instructions by pointer. -/
structure ParsedModule where
  objects : List ParsedObject
  instructions : List (Instruction ℕ)
  deriving DecidableEq, Repr

def TopLevelText.type : TopLevelText → InternedType
  | globalVar _ type => type
  | declare _ returnType parameterTypes => .getFuncType returnType parameterTypes
  | fn function => .getFuncType function.returnType []

/-!
## The context of the parser

Symbol tables, the scope of the current function and the worklist of forward references.
An instruction is known by a pointer, the number of instructions built before it, and a
block by its place in its function.
-/

open Mir (MirTypeKind)

inductive SymbolKind
  | Register | BasicBlock | Function | GlobalVar | GlobalOrFunction
  deriving DecidableEq, Repr

/-- `UnresolvedReference`: the name, the instruction once it is built, and the operand to
replace. -/
structure Fixup where
  symbolName : String
  targetInstruction : Option ℕ
  operandIndex : ℕ
  kind : SymbolKind
  deriving DecidableEq, Repr

/-- A declared symbol: its object and the type of that. -/
structure Symbol where
  id : ℕ
  type : InternedType
  deriving DecidableEq, Repr

/-- A reference to a block is a `void` pointer. -/
def Operand.blockRef {β : Type} (block : β) : Operand β :=
  .reference (.Block block) 0 (.getPtr .void)

def Operand.functionRef {β : Type} (symbol : Symbol) : Operand β :=
  .reference (.Function symbol.id) 0 (.getPtr symbol.type)

def Operand.globalRef {β : Type} (symbol : Symbol) (offset : BitVec 64) : Operand β :=
  .reference (.GlobalVar symbol.id) offset (.getPtr symbol.type)

/-- The newest entry of a table is its first. -/
def lookup {α : Type} (table : List (String × α)) (name : String) : Option α :=
  (table.find? fun entry => entry.1 = name).map Prod.snd

structure MirParserContext where
  globals : List (String × Symbol)
  functions : List (String × Symbol)
  registers : List (String × InternedType)
  regDefs : List String
  blocks : List ParsedBlock
  definedBlocks : List String
  referencedBlocks : List String
  pendingFixups : List Fixup
  currentInstructionFixups : List ℕ
  instructions : List (Instruction ℕ)
  objects : List ParsedObject
  errorCount : ℕ
  deriving DecidableEq, Repr

namespace MirParserContext

def initial : MirParserContext := ⟨[], [], [], [], [], [], [], [], [], [], [], 0⟩

variable (ctx : MirParserContext)

def recordError : MirParserContext := { ctx with errorCount := ctx.errorCount + 1 }

/-! ## Symbols -/

def declareGlobal (name : String) (symbol : Symbol) : MirParserContext :=
  { ctx with globals := (name, symbol) :: ctx.globals }

def declareFunction (name : String) (symbol : Symbol) : MirParserContext :=
  { ctx with functions := (name, symbol) :: ctx.functions }

def resolveGlobal (name : String) : Option Symbol := lookup ctx.globals name

def resolveFunction (name : String) : Option Symbol := lookup ctx.functions name

/-! ## Registers -/

def resolveRegister (name : String) : Option InternedType := lookup ctx.registers name

def getOrCreateRegister (name : String) (type : Option InternedType) : MirParserContext :=
  match ctx.resolveRegister name with
  | some _ => ctx
  | none => { ctx with registers := ctx.registers ++ [(name, type.getD .i64)] }

/-- `p` and a decimal number that fits `size_t`. -/
def isPhysReg (name : String) : Bool :=
  match name.toList with
  | 'p' :: digits =>
    !digits.isEmpty && digits.all Char.isDigit &&
      digits.foldl (fun value digit => value * 10 + (digit.toNat - 48)) 0 < 18446744073709551616
  | _ => false

def recordRegisterDef (name : String) (verifySsa : Bool) : MirParserContext :=
  if verifySsa && !isPhysReg name && ctx.regDefs.contains name then ctx.recordError
  else { ctx with regDefs := name :: ctx.regDefs }

/-! ## Blocks -/

/-- The place of a block in the function; the names of the blocks are also the table of
labels. -/
def resolveBlock (name : String) : Option ℕ :=
  ctx.blocks.findIdx? fun b => b.name = name

/-- `MirBlockBuilder::build`: a new block at the end of the function. -/
def createBlock (name : String) : ℕ × MirParserContext :=
  (ctx.blocks.length, { ctx with blocks := ctx.blocks ++ [⟨name, []⟩] })

def getOrCreateBlock (name : String) : ℕ × MirParserContext :=
  let ctx := { ctx with referencedBlocks := ctx.referencedBlocks.insert name }
  match ctx.resolveBlock name with
  | some block => (block, ctx)
  | none => ctx.createBlock name

def declareBlock (name : String) : ℕ × MirParserContext :=
  let ctx := { ctx with definedBlocks := ctx.definedBlocks.insert name }
  match ctx.resolveBlock name with
  | some block => (block, ctx)
  | none =>
    match ctx.blocks with
    | [entry] =>
      if entry.instructions = [] ∧ entry.name = "entryPoint" then
        (0, { ctx with blocks := [{ entry with name := name }] })
      else ctx.createBlock name
    | _ => ctx.createBlock name

/-! ## Forward references -/

def beginInstruction : MirParserContext := { ctx with currentInstructionFixups := [] }

def recordForwardReference (name : String) (inst : Option ℕ) (operandIdx : ℕ)
    (kind : SymbolKind) : MirParserContext :=
  { ctx with
    pendingFixups := ctx.pendingFixups ++ [⟨name, inst, operandIdx, kind⟩]
    currentInstructionFixups := ctx.currentInstructionFixups ++ [ctx.pendingFixups.length] }

/-- The references of the current instruction get it as their target. -/
def bindInstruction (inst : ℕ) : MirParserContext :=
  { ctx with
    pendingFixups := ctx.currentInstructionFixups.foldl
      (fun fixups i => fixups.modify i fun fixup => { fixup with targetInstruction := some inst })
      ctx.pendingFixups
    currentInstructionFixups := [] }

/-- The references of the current instruction are erased, the last one first. -/
def cancelInstruction : MirParserContext :=
  { ctx with
    pendingFixups := ctx.currentInstructionFixups.foldr (fun i fixups => fixups.eraseIdx i)
      ctx.pendingFixups
    currentInstructionFixups := [] }

def buildInstruction (block : ℕ) (inst : Instruction ℕ) : ℕ × MirParserContext :=
  (ctx.instructions.length,
    { ctx with
      instructions := ctx.instructions ++ [inst]
      blocks := ctx.blocks.modify block fun b =>
        { b with instructions := b.instructions ++ [ctx.instructions.length] } })

/-- Replaces one operand of an instruction that has been built. -/
def swapOperand (inst : Option ℕ) (operand : Operand ℕ) (index : ℕ) : MirParserContext :=
  match inst with
  | none => ctx
  | some inst =>
    { ctx with
      instructions := ctx.instructions.modify inst fun i =>
        { i with operands := i.operands.set index operand } }

/-- One turn of `resolvePendingFunctionFixups`: only blocks and registers leave the
worklist. -/
def resolveFunctionFixup (ctx : MirParserContext) (fixup : Fixup) : MirParserContext :=
  match fixup.kind with
  | .BasicBlock =>
    match ctx.resolveBlock fixup.symbolName with
    | none => ctx.recordError
    | some block =>
      ctx.swapOperand fixup.targetInstruction (.blockRef block) fixup.operandIndex
  | .Register =>
    match ctx.resolveRegister fixup.symbolName with
    | none => ctx.recordError
    | some _ =>
      ctx.swapOperand fixup.targetInstruction (.register fixup.symbolName) fixup.operandIndex
  | _ => { ctx with pendingFixups := ctx.pendingFixups ++ [fixup] }

def resolvePendingFunctionFixups : MirParserContext :=
  ctx.pendingFixups.foldl resolveFunctionFixup { ctx with pendingFixups := [] }

/-- One turn of `resolveAllPendingFixups`: a function comes before a global variable of
the name, and the reference to a global variable has no offset. -/
def resolveFixup (ctx : MirParserContext) (fixup : Fixup) : MirParserContext :=
  match fixup.kind with
  | .GlobalOrFunction =>
    match ctx.resolveFunction fixup.symbolName with
    | some fn => ctx.swapOperand fixup.targetInstruction (.functionRef fn) fixup.operandIndex
    | none =>
      match ctx.resolveGlobal fixup.symbolName with
      | some gv => ctx.swapOperand fixup.targetInstruction (.globalRef gv 0) fixup.operandIndex
      | none => ctx.recordError
  | .Function =>
    match ctx.resolveFunction fixup.symbolName with
    | some fn => ctx.swapOperand fixup.targetInstruction (.functionRef fn) fixup.operandIndex
    | none => ctx.recordError
  | .GlobalVar =>
    match ctx.resolveGlobal fixup.symbolName with
    | some gv => ctx.swapOperand fixup.targetInstruction (.globalRef gv 0) fixup.operandIndex
    | none => ctx.recordError
  | _ => ctx

def resolveAllPendingFixups : MirParserContext :=
  let ctx := ctx.resolvePendingFunctionFixups
  let ctx := ctx.pendingFixups.foldl resolveFixup ctx
  { ctx with pendingFixups := [], currentInstructionFixups := [] }

/-! ## Functions -/

/-- The scope of a new function has its named parameters and the skeleton of its entry. -/
def enterFunction (parameters : List (String × InternedType)) : MirParserContext :=
  let named := parameters.filter fun param => param.1 ≠ ""
  { ctx with
    registers := named.reverse
    regDefs := named.map Prod.fst
    blocks := [⟨"entryPoint", []⟩]
    definedBlocks := []
    referencedBlocks := []
    currentInstructionFixups := [] }

/-- Every label that was referenced must be defined. -/
def exitFunction : MirParserContext :=
  let ctx := ctx.resolvePendingFunctionFixups
  let undefined := ctx.referencedBlocks.filter fun name => !ctx.definedBlocks.contains name
  { ctx with
    errorCount := ctx.errorCount + undefined.length
    registers := []
    regDefs := []
    blocks := []
    definedBlocks := []
    referencedBlocks := []
    currentInstructionFixups := [] }

end MirParserContext

end EzPacker.DeclarationOrder
