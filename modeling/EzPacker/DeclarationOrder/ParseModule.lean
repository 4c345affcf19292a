import EzPacker.DeclarationOrder.ModuleText
import EzPacker.Lib.FirstMention

/-!
# Parsing a module

One pass over the declarations. A module without errors is what remains when the last
forward references have been patched. The parser also stops at a number of errors that
its options give; that text has errors in any case.
-/

namespace EzPacker.DeclarationOrder

open Mir (MirTypeKind)

/-! ## Operands -/

def literalType (kind : MirTypeKind) (default : InternedType) (expected : Option InternedType) :
    InternedType :=
  match expected with
  | some type => if type.kind = kind then type else default
  | none => default

def parseValue (ctx : MirParserContext) (expected : Option InternedType) :
    ValueText → Operand ℕ × MirParserContext
  | .register name => (.register name, ctx.getOrCreateRegister name expected)
  | .integer value => (.integer (literalType .Integer .i64 expected) value, ctx)
  | .floatingPoint bits => (.floatingPoint (literalType .FloatingPoint .f64 expected) bits, ctx)

/-- The index, the scale and the displacement of an address. A later index replaces an
earlier one; a scale stays until it is replaced. -/
structure AddressParts where
  index : Option String
  scale : BitVec 8
  displ : ℤ
  deriving DecidableEq, Repr

def AddressParts.add (parts : AddressParts) : MemoryTerm → AddressParts
  | .index register scale =>
    { parts with
      index := some register
      scale := (scale.map (BitVec.ofInt 8)).getD parts.scale }
  | .displacement isPlus value =>
    { parts with displ := parts.displ + if isPlus then value else -value }

def addressParts (terms : List MemoryTerm) : AddressParts :=
  terms.foldl AddressParts.add ⟨none, 1, 0⟩

/-- The registers of an address with the types they have if they are first mentioned
there. -/
def addressRegisters (base : String) (terms : List MemoryTerm) : List (String × InternedType) :=
  (base, .getPtr .i8) :: terms.filterMap fun
    | .index register _ => some (register, .i64)
    | .displacement .. => none

/-- The base of an address is a pointer, the index an integer or a pointer. -/
def validateMemoryRegisters (ctx : MirParserContext) (base : String) (index : Option String) :
    Bool :=
  let kindOf := fun name => (ctx.resolveRegister name).map InternedType.kind
  decide (kindOf base = some .Pointer) &&
    match index with
    | none => true
    | some index => decide (kindOf index = some .Integer ∨ kindOf index = some .Pointer)

def parseMemoryOperand (ctx : MirParserContext) (expected : Option InternedType)
    (base : String) (terms : List MemoryTerm) : Option (Operand ℕ) × MirParserContext :=
  let ctx := (addressRegisters base terms).foldl
    (fun ctx entry => ctx.getOrCreateRegister entry.1 (some entry.2)) ctx
  let parts := addressParts terms
  if validateMemoryRegisters ctx base parts.index then
    (some (.memory (expected.getD .i64) base (.ofInt 64 parts.displ) parts.index parts.scale), ctx)
  else (none, ctx)

def parseOperand (ctx : MirParserContext) (operandIdx : ℕ) (expected : Option InternedType) :
    OperandText → Option (Operand ℕ) × MirParserContext
  | .label block =>
    let (block, ctx) := ctx.getOrCreateBlock block
    (some (.blockRef block), ctx)
  | .value value =>
    let (operand, ctx) := parseValue ctx expected value
    (some operand, ctx)
  | .pair value block =>
    let (operand, ctx) := parseValue (ctx.getOrCreateBlock block).2 expected value
    (some operand, ctx)
  | .memory base terms => parseMemoryOperand ctx expected base terms
  | .symbol name offset =>
    match ctx.resolveGlobal name with
    | some gv => (some (.globalRef gv (.ofInt 64 offset)), ctx)
    | none =>
      match ctx.resolveFunction name with
      | some fn => (some (.functionRef fn), ctx)
      | none =>
        (some (.runtimeSymbol name),
          ctx.recordForwardReference name none operandIdx .GlobalOrFunction)

/-- The operands behind those that have been read. -/
def parseOperands (type : Option InternedType) (ctx : MirParserContext)
    (operands : List (Operand ℕ)) :
    List (Option InternedType × OperandText) → Option (List (Operand ℕ)) × MirParserContext
  | [] => (some operands, ctx)
  | op :: rest =>
    match parseOperand ctx operands.length (op.1.or type) op.2 with
    | (none, ctx) => (none, ctx)
    | (some operand, ctx) => parseOperands type ctx (operands ++ [operand]) rest

/-! ## Statements and blocks -/

/-- The destination, which is defined here. -/
def parseDestination (verifySsa : Bool) (ctx : MirParserContext) (s : StatementText) :
    List (Operand ℕ) × MirParserContext :=
  match s.dst with
  | none => ([], ctx)
  | some dst =>
    ([.register dst], (ctx.recordRegisterDef dst verifySsa).getOrCreateRegister dst s.type)

def parseInstructionStatement (verifySsa : Bool) (block : ℕ) (ctx : MirParserContext)
    (s : StatementText) : MirParserContext :=
  let (operands, ctx) := parseDestination verifySsa ctx.beginInstruction s
  match parseOperands s.type ctx operands s.operands with
  | (none, ctx) => ctx.recordError.cancelInstruction
  | (some operands, ctx) =>
    let (inst, ctx) := ctx.buildInstruction block ⟨s.opcode, operands⟩
    ctx.bindInstruction inst

def parseBasicBlock (verifySsa : Bool) (ctx : MirParserContext) (b : BlockText) :
    MirParserContext :=
  let (block, ctx) := ctx.declareBlock b.label
  b.body.foldl (parseInstructionStatement verifySsa block) ctx

/-! ## Declarations -/

/-- The number of the next object of the module. -/
def MirParserContext.createId (ctx : MirParserContext) : ℕ := ctx.objects.length

def MirParserContext.append (ctx : MirParserContext) (object : ParsedObject) : MirParserContext :=
  { ctx with objects := ctx.objects ++ [object] }

/-- The body of a function, which is declared before it is read. -/
def parseFunctionBody (verifySsa : Bool) (ctx : MirParserContext)
    (parameters : List (String × InternedType)) (body : List BlockText) :
    ParsedBody × MirParserContext :=
  let ctx := body.foldl (parseBasicBlock verifySsa) (ctx.enterFunction parameters)
  (⟨ctx.blocks, ctx.registers⟩, ctx.exitFunction)

def parseFunctionDef (verifySsa : Bool) (ctx : MirParserContext) (f : FunctionText) :
    MirParserContext :=
  let type := (TopLevelText.fn f).type
  let ctx := ctx.declareFunction f.name ⟨ctx.createId, type⟩
  match f.body with
  | none => ctx.append (.function f.name type (f.parameters.map Prod.snd) none)
  | some body =>
    let (parsed, ctx) := parseFunctionBody verifySsa ctx f.parameters body
    ctx.append (.function f.name type (f.parameters.map Prod.snd) (some parsed))

def parseTopLevelDecl (verifySsa : Bool) (ctx : MirParserContext) (d : TopLevelText) :
    MirParserContext :=
  match d with
  | .globalVar name type =>
    (ctx.declareGlobal name ⟨ctx.createId, type⟩).append (.globalVar name type)
  | .declare name _ parameterTypes =>
    (ctx.declareFunction name ⟨ctx.createId, d.type⟩).append
      (.function name d.type parameterTypes none)
  | .fn f => parseFunctionDef verifySsa ctx f

/-- A module, if no error has been recorded. -/
def parseModule (verifySsa : Bool) (text : ModuleText) : Option ParsedModule :=
  let ctx := (text.foldl (parseTopLevelDecl verifySsa) .initial).resolveAllPendingFixups
  if ctx.errorCount = 0 then some ⟨ctx.objects, ctx.instructions⟩ else none

/-!
## What a text says

Read without the parser. A name in a function stands for the last global variable of the
name before the function, else for the last function of the name up to and including it,
else for the last function of the name, else for the last global variable. The blocks of
a body are its labels in the order of their first mention, each with the statements of
all parts under its label; empty leading blocks `entryPoint` are the block behind them.
A register has the type of its first mention.
-/

open FirstMention

/-! ## Symbols -/

/-- The last place below a bound. -/
def lastWhere (p : ℕ → Bool) : ℕ → Option ℕ
  | 0 => none
  | i + 1 => if p i then some i else lastWhere p i

namespace TopLevelText

def isGlobal (name : String) : TopLevelText → Bool
  | globalVar n _ => n == name
  | _ => false

def isFunction (name : String) : TopLevelText → Bool
  | globalVar .. => false
  | declare n .. => n == name
  | fn f => f.name == name

end TopLevelText

namespace ModuleText

variable (text : ModuleText)

def isGlobal (name : String) (i : ℕ) : Bool := text[i]?.any (TopLevelText.isGlobal name)

def isFunction (name : String) (i : ℕ) : Bool := text[i]?.any (TopLevelText.isFunction name)

/-- The declaration that a name stands for in the declaration at `i`. -/
def denotes (i : ℕ) (name : String) : Option ℕ :=
  (lastWhere (text.isGlobal name) i).or <| (lastWhere (text.isFunction name) (i + 1)).or <|
      (lastWhere (text.isFunction name) text.length).or (lastWhere (text.isGlobal name) text.length)

/-- A global variable is known with the offset only behind its declaration. -/
def symbolMeaning {β : Type} (i : ℕ) (name : String) (offset : ℤ) : Operand β :=
  match text.denotes i name with
  | none => .runtimeSymbol name
  | some x =>
    match text[x]? with
    | none => .runtimeSymbol name
    | some (.globalVar _ type) =>
      .globalRef ⟨x, type⟩ (if x < i then .ofInt 64 offset else 0)
    | some d => .functionRef ⟨x, d.type⟩

end ModuleText

/-! ## Operands -/

def ValueText.meaning {β : Type} (expected : Option InternedType) : ValueText → Operand β
  | register name => .register name
  | integer value => .integer (literalType .Integer .i64 expected) value
  | floatingPoint bits => .floatingPoint (literalType .FloatingPoint .f64 expected) bits

def addressMeaning {β : Type} (expected : Option InternedType) (base : String)
    (terms : List MemoryTerm) : Operand β :=
  let parts := addressParts terms
  .memory (expected.getD .i64) base (.ofInt 64 parts.displ) parts.index parts.scale

def OperandText.meaning (symbol : String → ℤ → Operand (Option String))
    (expected : Option InternedType) : OperandText → Operand (Option String)
  | label block => .blockRef (some block)
  | value v => v.meaning expected
  | pair v _ => v.meaning expected
  | memory base terms => addressMeaning expected base terms
  | OperandText.symbol name offset => symbol name offset

def StatementText.meaning (symbol : String → ℤ → Operand (Option String))
    (s : StatementText) : Instruction (Option String) :=
  ⟨s.opcode, s.dst.toList.map .register ++
    s.operands.map fun op => op.2.meaning symbol (op.1.or s.type)⟩

/-! ## Mentions -/

def OperandText.labels : OperandText → List String
  | label block => [block]
  | pair _ block => [block]
  | _ => []

def ValueText.registers (expected : Option InternedType) : ValueText → List (String × InternedType)
  | register name => [(name, expected.getD .i64)]
  | _ => []

/-- The registers with the types they have if they are first mentioned there. -/
def OperandText.registers (expected : Option InternedType) :
    OperandText → List (String × InternedType)
  | value v => v.registers expected
  | pair v _ => v.registers expected
  | memory base terms => addressRegisters base terms
  | _ => []

def StatementText.labels (s : StatementText) : List String :=
  s.operands.flatMap fun op => op.2.labels

def StatementText.registers (s : StatementText) : List (String × InternedType) :=
  (s.dst.toList.map fun dst => (dst, s.type.getD .i64)) ++
    s.operands.flatMap fun op => op.2.registers (op.1.or s.type)

def BlockText.labels (b : BlockText) : List String :=
  b.label :: b.body.flatMap StatementText.labels

def BlockText.registers (b : BlockText) : List (String × InternedType) :=
  b.body.flatMap StatementText.registers

/-! ## Bodies -/

/-- The named parameters, the last one first. -/
def parameterRegisters (parameters : List (String × InternedType)) : List (String × InternedType) :=
  (parameters.filter fun param => param.1 ≠ "").reverse

def registerType (parameters : List (String × InternedType)) (body : List BlockText) :
    String → Option InternedType :=
  lookup (parameterRegisters parameters ++ body.flatMap BlockText.registers)

/-- The text without the leading blocks that the first real one takes over. -/
def skipSkeleton : List BlockText → List BlockText
  | b :: b' :: rest =>
    if b.label = "entryPoint" ∧ b.body = [] then skipSkeleton (b' :: rest)
    else b :: b' :: rest
  | body => body

def blockOrder : List BlockText → List String
  | [] => ["entryPoint"]
  | b :: rest => noteAll [] ((skipSkeleton (b :: rest)).flatMap BlockText.labels)

def bodyOf (body : List BlockText) (label : String) : List StatementText :=
  body.flatMap fun b => if label = b.label then b.body else []

end EzPacker.DeclarationOrder
