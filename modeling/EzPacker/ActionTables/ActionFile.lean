import EzPacker.Legalizer.MirLegalizer
import EzPacker.Lib.FirstMention

/-!
# Legalization action files

The syntax of an action file and the semantic pass that resolves it. The pass leaves
one symbol for each opcode, which collects the clauses of all groups and declarations
that name the opcode; a clause with an indexed type set is expanded into one clause for
each combination of types. A run that reports an error leaves nothing. Source references
and messages are left out, and so is the largest operand index, which nothing reads.
-/

namespace EzPacker.ActionTables

open Mir Legalizer

/-! ## Syntax -/

/-- A type or type set, optionally at an operand index. -/
structure TypeConstraint where
  type : String
  operandIndex : Option ℤ
  deriving DecidableEq, Repr

structure LegalizeActionClause where
  kind : LegalizeActionKind
  types : List TypeConstraint
  targetType : Option String
  libcallSymbol : Option String
  lowerHandler : Option String
  customRules : Option (List String)
  deriving DecidableEq, Repr

structure ClampScalarClause where
  minType : String
  maxType : String
  deriving DecidableEq, Repr

/-- The grammar has no empty type set. -/
structure TypeSetDecl where
  name : String
  firstType : String
  moreTypes : List String

structure InstructionGroupDecl where
  instructions : List String
  actionClauses : List LegalizeActionClause
  clampClause : Option ClampScalarClause

structure LegalizeInstructionDecl where
  instName : String
  actionClauses : List LegalizeActionClause
  clampClause : Option ClampScalarClause

structure LegalizeActionFile where
  typeSets : List TypeSetDecl
  groups : List InstructionGroupDecl
  legalizeInstrDecls : List LegalizeInstructionDecl

/-! ## Symbols -/

/-- A width of 0 is an unknown one. -/
structure TypeSymbol where
  name : String
  isInteger : Bool
  bitWidth : ℕ
  compactId : ℕ
  deriving DecidableEq, Repr

/-- The symbols the pass looks up. An instruction stands with the enumerator that the
instruction set gives it. -/
inductive Symbol
  | type (data : TypeSymbol)
  | typeSet (name : String) (firstType : TypeSymbol) (moreTypes : List TypeSymbol)
  | irInstruction (name : String) (opcode : MirInstructionOpCode)
  | legalizeRule (name : String)
  deriving DecidableEq, Repr

def Symbol.name : Symbol → String
  | .type data => data.name
  | .typeSet name _ _ => name
  | .irInstruction name _ => name
  | .legalizeRule name => name

/-- The rules in the order of their declaration. -/
def ruleNames (symbols : List Symbol) : List String :=
  symbols.filterMap fun
    | .legalizeRule name => some name
    | _ => none

/-- No rule is declared twice. -/
structure SymbolTable where
  symbols : List Symbol
  rules_nodup : (ruleNames symbols).Nodup

namespace SymbolTable

def getSymByName (table : SymbolTable) (name : String) : Option Symbol :=
  table.symbols.find? fun sym => sym.name = name

def getType (table : SymbolTable) (name : String) : Option TypeSymbol :=
  match table.getSymByName name with
  | some (.type data) => some data
  | _ => none

def getRule (table : SymbolTable) (name : String) : Option String :=
  match table.getSymByName name with
  | some (.legalizeRule rule) => some rule
  | _ => none

def getIrInstruction (table : SymbolTable) (name : String) : Option MirInstructionOpCode :=
  table.symbols.findSome? fun
    | .irInstruction n opcode => if n = name then some opcode else none
    | _ => none

def types (table : SymbolTable) : List TypeSymbol :=
  table.symbols.filterMap fun
    | .type data => some data
    | _ => none

/-- A type and a type set share one space of names. -/
def declaresType (table : SymbolTable) (name : String) : Bool :=
  table.symbols.any fun
    | .type data => data.name = name
    | .typeSet n _ _ => n = name
    | _ => false

theorem ruleNames_declareTypeSet (symbols : List Symbol) (name : String)
    (firstType : TypeSymbol) (moreTypes : List TypeSymbol) :
    ruleNames (symbols ++ [.typeSet name firstType moreTypes]) = ruleNames symbols := by
  simp [ruleNames]

def declareTypeSet (table : SymbolTable) (name : String) (firstType : TypeSymbol)
    (moreTypes : List TypeSymbol) : SymbolTable where
  symbols := table.symbols ++ [.typeSet name firstType moreTypes]
  rules_nodup :=
    (ruleNames_declareTypeSet table.symbols name firstType moreTypes).symm ▸ table.rules_nodup

end SymbolTable

/-- A type at an operand slot; no index stands for the first slot. -/
structure ConstraintSymbol where
  type : TypeSymbol
  operandIndex : Option UInt32
  deriving DecidableEq, Repr

structure ClauseSymbol where
  kind : LegalizeActionKind
  types : List ConstraintSymbol
  targetType : Option TypeSymbol
  libcallSymbol : Option String
  lowerHandler : Option String
  customRules : Option (List String)
  deriving DecidableEq, Repr

/-- An opcode with its clauses. -/
abbrev LegalizeActionSymbol := MirInstructionOpCode × List ClauseSymbol

/-! ## The pass -/

namespace LegalizeActionPass

/-- The width relation of a target type to the types of the clause. -/
def validateBitwidths (kind : LegalizeActionKind) (target : TypeSymbol)
    (types : List ConstraintSymbol) : Bool :=
  target.bitWidth = 0 || types.all fun c =>
    c.type.bitWidth = 0 ||
      match kind with
      | .WidenScalar => c.type.bitWidth < target.bitWidth
      | .NarrowScalar => target.bitWidth < c.type.bitWidth
      | .Bitcast => target.bitWidth = c.type.bitWidth
      | _ => true

def generateCartesianProduct {α : Type*} : List (List α) → List (List α)
  | [] => [[]]
  | list :: rest =>
    list.flatMap fun item => (generateCartesianProduct rest).map fun comb => item :: comb

def processTypeSetDecl (table : SymbolTable) (decl : TypeSetDecl) : Option SymbolTable := do
  let firstType ← table.getType decl.firstType
  let moreTypes ← decl.moreTypes.mapM table.getType
  if table.declaresType decl.name then none
  else some (table.declareTypeSet decl.name firstType moreTypes)

/-- The integer types by their width. -/
def clampTypes (table : SymbolTable) : List TypeSymbol :=
  (table.types.filter fun t => t.isInteger && 0 < t.bitWidth).mergeSort
    fun a b => a.bitWidth ≤ b.bitWidth

def clampClause (minType maxType t : TypeSymbol) : ClauseSymbol :=
  if t.bitWidth < minType.bitWidth then
    ⟨.WidenScalar, [⟨t, none⟩], some minType, none, none, none⟩
  else if t.bitWidth ≤ maxType.bitWidth then
    ⟨.Legal, [⟨t, none⟩], none, none, none, none⟩
  else
    ⟨.NarrowScalar, [⟨t, none⟩], some maxType, none, none, none⟩

def applyClampScalar (table : SymbolTable) (clamp : ClampScalarClause) :
    Option (List ClauseSymbol) := do
  let minType ← table.getType clamp.minType
  let maxType ← table.getType clamp.maxType
  if minType.isInteger && maxType.isInteger && minType.bitWidth ≤ maxType.bitWidth then
    some ((clampTypes table).map (clampClause minType maxType))
  else none

/-- The index as it is stored; a negative one is rejected. -/
def storeIndex : Option ℤ → Option (Option UInt32)
  | none => some none
  | some i => if i < 0 then none else some (some (UInt32.ofNat i.toNat))

/-- The types a constraint lists, and whether it names an indexed type set. -/
def resolveTypes (table : SymbolTable) (c : TypeConstraint) :
    Option (List ConstraintSymbol × Bool) := do
  let sym ← table.getSymByName c.type
  let opIdx ← storeIndex c.operandIndex
  match sym with
  | .type data => some ([⟨data, opIdx⟩], false)
  | .typeSet _ firstType moreTypes =>
    some ((firstType :: moreTypes).map fun t => ⟨t, opIdx⟩, opIdx.isSome)
  | _ => none

/-- The checks of a clause against its kind, and the payload they resolve. -/
def processClause (table : SymbolTable) (clause : LegalizeActionClause)
    (types : List ConstraintSymbol) : Option ClauseSymbol :=
  if types = [] ∧ clause.kind ≠ .Custom ∧ clause.kind ≠ .Lower then none
  else
    match clause.kind with
    | .WidenScalar | .NarrowScalar | .Bitcast => do
        if clause.customRules.isSome || clause.libcallSymbol.isSome ||
            clause.lowerHandler.isSome then none
        let target ← clause.targetType.bind table.getType
        if validateBitwidths clause.kind target types then
          some ⟨clause.kind, types, some target, none, none, none⟩
        else none
    | .Libcall =>
      if clause.customRules.isSome || clause.targetType.isSome ||
          clause.lowerHandler.isSome then none
      else
        match clause.libcallSymbol with
        | some sym => if sym = "" then none
            else some ⟨.Libcall, types, none, some sym, none, none⟩
        | none => none
    | .Lower =>
      if clause.customRules.isSome || clause.targetType.isSome ||
          clause.libcallSymbol.isSome then none
      else
        match clause.lowerHandler with
        | some handler => if handler = "" then none
            else some ⟨.Lower, types, none, none, some handler, none⟩
        | none => none
    | .Custom =>
      if clause.targetType.isSome || clause.libcallSymbol.isSome ||
          clause.lowerHandler.isSome || !clause.types.isEmpty then none
      else
        match clause.customRules with
        | none | some [] => none
        | some (rule :: rest) =>
          ((rule :: rest).mapM table.getRule).map fun rules =>
            ⟨.Custom, types, none, none, none, some rules⟩
    | .Legal | .Unsupported =>
      if clause.targetType.isSome || clause.libcallSymbol.isSome ||
          clause.lowerHandler.isSome || clause.customRules.isSome then none
      else some ⟨clause.kind, types, none, none, none, none⟩

/-- The clauses that one clause of the file stands for. -/
def resolveClause (table : SymbolTable) (clause : LegalizeActionClause) :
    Option (List ClauseSymbol) := do
  let resolved ← clause.types.mapM (resolveTypes table)
  let constraintLists := resolved.map Prod.fst
  if resolved.any Prod.snd && 1 < constraintLists.length then
    (generateCartesianProduct constraintLists).mapM (processClause table clause)
  else do
    let clauseSym ← processClause table clause constraintLists.flatten
    some [clauseSym]

def processClamp (table : SymbolTable) : Option ClampScalarClause → Option (List ClauseSymbol)
  | some clamp => applyClampScalar table clamp
  | none => some []

def processInstructionDecl (table : SymbolTable) (actions : List LegalizeActionSymbol)
    (decl : LegalizeInstructionDecl) : Option (List LegalizeActionSymbol) := do
  let opcode ← table.getIrInstruction decl.instName
  let clamped ← processClamp table decl.clampClause
  let resolved ← decl.actionClauses.mapM (resolveClause table)
  some (Accumulation.accumulate actions opcode (clamped ++ resolved.flatten))

/-- The declarations in the order the pass takes them: the groups come first. -/
def declarations (file : LegalizeActionFile) : List LegalizeInstructionDecl :=
  (file.groups.flatMap fun group => group.instructions.map fun instId =>
    ⟨instId, group.actionClauses, group.clampClause⟩) ++ file.legalizeInstrDecls

def run (table : SymbolTable) (file : LegalizeActionFile) :
    Option (SymbolTable × List LegalizeActionSymbol) := do
  let table ← file.typeSets.foldlM processTypeSetDecl table
  let actions ← (declarations file).foldlM (processInstructionDecl table) []
  some (table, actions)

end LegalizeActionPass

/-!
## The generator of legality tables

`emitSource` compiles the clauses of an opcode into one of three tables: a row of the
wildcard table if no clause names a type, a matcher if some clause names an operand
beyond the first, and a row of the dense matrix otherwise. `query` and `executeCustom`
are the functions of the generated class.
-/

open Mir Legalizer FirstMention

/-! ## Clauses -/

namespace ConstraintSymbol

/-- The slot is a byte. -/
def slot (tc : ConstraintSymbol) : ℕ := ((tc.operandIndex.getD 0).toUInt8).toNat

end ConstraintSymbol

namespace ClauseSymbol

def targetCid (clause : ClauseSymbol) : ℕ :=
  match clause.targetType with
  | some target => target.compactId
  | none => 0

/-- The slot of the first constraint. -/
def targetSlot (clause : ClauseSymbol) : ℕ :=
  match clause.types with
  | tc :: _ => tc.slot
  | [] => 0

/-- The compact ids each slot admits, by ascending slot. -/
def slotToCids (clause : ClauseSymbol) : List (ℕ × List ℕ) :=
  (List.range 256).filterMap fun slot =>
    match (clause.types.filter fun tc => tc.slot = slot).map fun tc => tc.type.compactId with
    | [] => none
    | cids => some (slot, cids)

end ClauseSymbol

namespace LegalizeActionSymbol

def isHeterogeneous (clauses : List ClauseSymbol) : Bool :=
  clauses.any fun clause => clause.types.any fun tc => 0 < tc.slot

def isWildcard (clauses : List ClauseSymbol) : Bool :=
  !clauses.isEmpty && clauses.all fun clause => clause.types.isEmpty

end LegalizeActionSymbol

/-! ## Numbers of names -/

/-- What a dispatch runs. -/
inductive Dispatch
  | nothing
  | libcall (symbol : String)
  | handler (name : String)
  | rules (names : List String)
  | failed
  deriving DecidableEq, Repr

/-- The names that the classification of the actions interns, and the collected rules. -/
structure NamePools where
  libcalls : List String
  handlers : List String
  rules : List String

namespace NamePools

def ofActions (rules : List String) (actions : List LegalizeActionSymbol) : NamePools where
  libcalls := noteAll [] (actions.flatMap fun info => info.2.filterMap ClauseSymbol.libcallSymbol)
  handlers := noteAll [] (actions.flatMap fun info => info.2.filterMap ClauseSymbol.lowerHandler)
  rules := rules

def getOrAddLibcall (pools : NamePools) (sym : String) : ℕ := pools.libcalls.idxOf sym % 2 ^ 16

def getOrAddHandler (pools : NamePools) (h : String) : ℕ := pools.handlers.idxOf h % 2 ^ 16

def ruleBaseId (pools : NamePools) : ℕ := pools.handlers.length % 2 ^ 16

def getRuleIndex (pools : NamePools) (rule : String) : Option ℕ :=
  if rule ∈ pools.rules then some (pools.rules.idxOf rule % 2 ^ 16) else none

/-- The number of the first rule of a list. -/
def customRuleId (pools : NamePools) (customRules : Option (List String)) : ℕ :=
  match customRules with
  | some (rule :: _) =>
    match pools.getRuleIndex rule with
    | some ruleIndex => (pools.ruleBaseId + ruleIndex) % 2 ^ 16
    | none => 0
  | _ => 0

def handlerOrStrId (pools : NamePools) (clause : ClauseSymbol) : ℕ :=
  match clause.kind with
  | .Libcall =>
    match clause.libcallSymbol with
    | some sym => pools.getOrAddLibcall sym
    | none => 0
  | .Lower =>
    match clause.lowerHandler with
    | some h => pools.getOrAddHandler h
    | none => 0
  | .Custom =>
    match clause.lowerHandler with
    | some h => pools.getOrAddHandler h
    | none => pools.customRuleId clause.customRules
  | _ => 0

def wildcardHandlerId (pools : NamePools) (clause : ClauseSymbol) : ℕ :=
  match clause.lowerHandler with
  | some h => pools.getOrAddHandler h
  | none => pools.customRuleId clause.customRules

/-- The handlers come first, and the rules after them. -/
def executeCustom (pools : NamePools) (handlerId : ℕ) : Dispatch :=
  match pools.handlers[handlerId]? with
  | some h => .handler h
  | none =>
    match pools.rules[handlerId - pools.handlers.length]? with
    | some rule => .rules [rule]
    | none => .failed

def getLibcallSymbol (pools : NamePools) (id : ℕ) : String := (pools.libcalls[id]?).getD ""

end NamePools

/-! ## Tables -/

def unsupported : LegalityResponse := ⟨.Unsupported, 0, 0, 0⟩

/-- An `if` of a matcher: the slots it compares and what it returns. -/
structure MatchArm where
  cond : List (ℕ × List ℕ)
  response : LegalityResponse

structure GeneratedTables where
  pools : NamePools
  wildcardActions : MirInstructionOpCode → LegalityResponse
  matchers : List (MirInstructionOpCode × List MatchArm)
  primaryMatrix : MirInstructionOpCode → ℕ → LegalityResponse

def matchArm (pools : NamePools) (clause : ClauseSymbol) : MatchArm :=
  ⟨clause.slotToCids,
    ⟨clause.kind, clause.targetSlot, clause.targetCid, pools.handlerOrStrId clause⟩⟩

def wildcardResponse (pools : NamePools) (clauses : List ClauseSymbol) : LegalityResponse :=
  match clauses with
  | clause :: _ => ⟨clause.kind, 0, 0, pools.wildcardHandlerId clause⟩
  | [] => unsupported

def assignColumn (pools : NamePools) (clause : ClauseSymbol) (row : ℕ → LegalityResponse)
    (tc : ConstraintSymbol) : ℕ → LegalityResponse :=
  if tc.type.compactId < 32 then
    Function.update row tc.type.compactId
      ⟨clause.kind, tc.slot, clause.targetCid, pools.handlerOrStrId clause⟩
  else row

def assignClause (pools : NamePools) (row : ℕ → LegalityResponse) (clause : ClauseSymbol) :
    ℕ → LegalityResponse :=
  clause.types.foldl (assignColumn pools clause) row

def emitSource (rules : List String) (actions : List LegalizeActionSymbol) : GeneratedTables :=
  let pools := NamePools.ofActions rules actions
  { pools := pools
    wildcardActions := actions.foldl
      (fun wildcards info =>
        if LegalizeActionSymbol.isWildcard info.2 then
          Function.update wildcards info.1 (wildcardResponse pools info.2)
        else wildcards)
      (fun _ => unsupported)
    matchers :=
      (actions.filter fun info => LegalizeActionSymbol.isHeterogeneous info.2).map
        fun info => (info.1, info.2.map (matchArm pools))
    primaryMatrix := actions.foldl
      (fun mat info =>
        if LegalizeActionSymbol.isHeterogeneous info.2 ||
            LegalizeActionSymbol.isWildcard info.2 then mat
        else Function.update mat info.1 (info.2.foldl (assignClause pools) (mat info.1)))
      (fun _ _ => unsupported) }

/-! ## The generated class -/

/-- A condition, read from the left. A slot beyond the array has no value. -/
def evalCond (q : LegalityQuery) : List (ℕ × List ℕ) → Option Bool
  | [] => some true
  | (slot, cids) :: rest =>
    if h : slot < 6 then
      if (q.slots ⟨slot, h⟩).compactId ∈ cids then evalCond q rest else some false
    else none

/-- A run of a matcher, or none if it reads beyond the array. -/
def runMatcher (q : LegalityQuery) : List MatchArm → Option LegalityResponse
  | [] => some unsupported
  | arm :: rest =>
    match evalCond q arm.cond with
    | none => none
    | some true => some arm.response
    | some false => runMatcher q rest

namespace GeneratedTables

def primaryCid (q : LegalityQuery) : ℕ :=
  if q.operandCount = 0 then 1 else (q.slots 0).compactId

/-- The lookup in the dense matrix. -/
def queryMatrix (t : GeneratedTables) (op : MirInstructionOpCode) (q : LegalityQuery) :
    LegalityResponse :=
  if primaryCid q < 32 then
    if (t.primaryMatrix op (primaryCid q)).action ≠ .Unsupported then
      t.primaryMatrix op (primaryCid q)
    else unsupported
  else unsupported

/-- The matcher of an opcode; an opcode without one falls through. -/
def queryMatchers (t : GeneratedTables) (op : MirInstructionOpCode) (q : LegalityQuery) :
    Option LegalityResponse :=
  match t.matchers.lookup op with
  | some arms => runMatcher q arms
  | none => some unsupported

/-- The row of no instruction is empty. -/
def query (t : GeneratedTables) (q : LegalityQuery) : Option LegalityResponse :=
  match q.opcode with
  | none => some unsupported
  | some op =>
    if (t.wildcardActions op).action ≠ .Unsupported then some (t.wildcardActions op)
    else
      match t.queryMatchers op q with
      | none => none
      | some resp =>
        if resp.action ≠ .Unsupported then some resp else some (t.queryMatrix op q)

end GeneratedTables

end EzPacker.ActionTables
