import EzPacker.ActionTables.ActionFile

/-!
# What an action file declares

The clauses of an opcode stand in the order of the declarations that name it. A clause
admits, at each operand it constrains, the types of all its constraints on that operand.
The answer to a query is that of the first clause the query satisfies; an explicit
rejection is the same answer as no clause at all.
-/

namespace EzPacker.ActionTables

open Mir Legalizer GeneratedTables

/-- A query as the legalizer fills it: an instruction without operands is shown under
the compact id of `_void`. -/
structure FilledQuery where
  query : LegalityQuery
  void : query.operandCount = 0 → (query.slots 0).compactId = 1

namespace FilledQuery

def shows (q : FilledQuery) (slot : ℕ) (type : TypeSymbol) : Bool :=
  if h : slot < 6 then (q.query.slots ⟨slot, h⟩).compactId = type.compactId else false

theorem primaryCid_eq (q : FilledQuery) : primaryCid q.query = (q.query.slots 0).compactId := by
  unfold primaryCid
  split
  · next h => exact (q.void h).symm
  · rfl

end FilledQuery

/-- The types that a constraint admits, and the operand it is about. -/
structure Constraint where
  admits : List TypeSymbol
  operand : ℕ

/-- What the legalizer is to do: the action, the operand it is about, the compact id of
the target type, 0 if there is none, and the code to run. -/
structure Answer where
  action : LegalizeActionKind
  slot : ℕ
  targetCompactId : ℕ
  dispatch : Dispatch
  deriving DecidableEq

structure DeclaredClause where
  constraints : List Constraint
  kind : LegalizeActionKind
  target : Option TypeSymbol
  dispatch : Dispatch

namespace DeclaredClause

def satisfies (c : DeclaredClause) (q : FilledQuery) : Bool :=
  c.constraints.all fun k => c.constraints.any fun k' =>
    k'.operand = k.operand && k'.admits.any (q.shows k.operand)

def operand (c : DeclaredClause) : ℕ :=
  match c.constraints with
  | k :: _ => k.operand
  | [] => 0

def answer (c : DeclaredClause) : Option Answer :=
  if c.kind = .Unsupported then none
  else some ⟨c.kind, c.operand, (c.target.map TypeSymbol.compactId).getD 0, c.dispatch⟩

end DeclaredClause

/-! ## The clauses of a file -/

def admittedTypes (table : SymbolTable) (name : String) : List TypeSymbol :=
  match table.getSymByName name with
  | some (.type data) => [data]
  | some (.typeSet _ firstType moreTypes) => firstType :: moreTypes
  | _ => []

def declaredConstraint (table : SymbolTable) (c : TypeConstraint) : Constraint :=
  ⟨admittedTypes table c.type, (c.operandIndex.getD 0).toNat⟩

def declaredDispatch (clause : LegalizeActionClause) : Dispatch :=
  match clause.kind with
  | .Libcall => .libcall (clause.libcallSymbol.getD "")
  | .Lower => .handler (clause.lowerHandler.getD "")
  | .Custom => .rules (clause.customRules.getD [])
  | _ => .nothing

def declaredClause (table : SymbolTable) (clause : LegalizeActionClause) : DeclaredClause :=
  ⟨clause.types.map (declaredConstraint table), clause.kind,
    clause.targetType.bind table.getType, declaredDispatch clause⟩

/-- Below the smallest legal type a scalar is widened to it, above the largest one it is
narrowed to it, and in between it is legal. -/
def clampedClause (minType maxType t : TypeSymbol) : DeclaredClause :=
  if t.bitWidth < minType.bitWidth then
    ⟨[⟨[t], 0⟩], .WidenScalar, some minType, .nothing⟩
  else if maxType.bitWidth < t.bitWidth then
    ⟨[⟨[t], 0⟩], .NarrowScalar, some maxType, .nothing⟩
  else ⟨[⟨[t], 0⟩], .Legal, none, .nothing⟩

def clampedClauses (table : SymbolTable) (clamp : ClampScalarClause) : List DeclaredClause :=
  match table.getType clamp.minType, table.getType clamp.maxType with
  | some minType, some maxType =>
    (LegalizeActionPass.clampTypes table).map (clampedClause minType maxType)
  | _, _ => []

def declaredClauses (table : SymbolTable) (decl : LegalizeInstructionDecl) : List DeclaredClause :=
  (match decl.clampClause with
    | some clamp => clampedClauses table clamp
    | none => []) ++
  decl.actionClauses.map (declaredClause table)

/-- The clauses of an opcode. -/
def clausesOf (table : SymbolTable) (file : LegalizeActionFile) (op : MirInstructionOpCode) :
    List DeclaredClause :=
  ((LegalizeActionPass.declarations file).filter fun decl =>
    table.getIrInstruction decl.instName = some op).flatMap (declaredClauses table)

def firstClause (clauses : List DeclaredClause) (q : FilledQuery) : Option DeclaredClause :=
  clauses.find? fun c => c.satisfies q

/-- The clauses that a query is about; none if it shows no instruction. -/
def clausesFor (table : SymbolTable) (file : LegalizeActionFile) (q : FilledQuery) :
    List DeclaredClause :=
  match q.query.opcode with
  | some op => clausesOf table file op
  | none => []

def declaredAnswer (table : SymbolTable) (file : LegalizeActionFile) (q : FilledQuery) :
    Option Answer :=
  (firstClause (clausesFor table file q) q).bind DeclaredClause.answer

/-! ## What the generated class answers -/

namespace GeneratedTables

/-- A response with the code that its number stands for. -/
def answerOf (t : GeneratedTables) (resp : LegalityResponse) : Option Answer :=
  match resp.action with
  | .Unsupported => none
  | .Libcall => some ⟨.Libcall, resp.slot, resp.targetCompactId,
      .libcall (t.pools.getLibcallSymbol resp.handlerOrStringId)⟩
  | .Lower => some ⟨.Lower, resp.slot, resp.targetCompactId,
      t.pools.executeCustom resp.handlerOrStringId⟩
  | .Custom => some ⟨.Custom, resp.slot, resp.targetCompactId,
      t.pools.executeCustom resp.handlerOrStringId⟩
  | kind => some ⟨kind, resp.slot, resp.targetCompactId, .nothing⟩

/-- The query returns, and its response stands for the answer. -/
def Answers (t : GeneratedTables) (q : FilledQuery) (answer : Option Answer) : Prop :=
  ∃ resp, t.query q.query = some resp ∧ t.answerOf resp = answer

end GeneratedTables

/-!
## The clause a table takes

Each table format has its own precedence. The wildcard table takes the first clause of
the opcode; a matcher the first clause that holds when operand indices are read as
bytes, and no table has an answer when the index lies beyond the six slots; the matrix
the last clause that names the type of the first operand, if its compact id is below 32.
A handler has a number of 16 bits.
-/

open Legalizer

/-! ## Numbers -/

namespace NamePools

/-- The code that is reached by the number of what a clause names. -/
def reached (pools : NamePools) : Dispatch → Dispatch
  | .libcall sym => .libcall (pools.getLibcallSymbol (pools.getOrAddLibcall sym))
  | .handler h => pools.executeCustom (pools.getOrAddHandler h)
  | .rules names => pools.executeCustom (pools.customRuleId (some names))
  | d => d

end NamePools

/-! ## Precedence -/

/-- The slot is the low byte of the operand index. -/
def Constraint.slot (k : Constraint) : ℕ := k.operand % 256

namespace DeclaredClause

/-- A constraint on the slot admits the type it shows. -/
def admitsAt (c : DeclaredClause) (q : FilledQuery) (slot : ℕ) : Bool :=
  c.constraints.any fun k => k.slot = slot && k.admits.any (q.shows slot)

/-- The clause as a matcher reads it: slots ascend, and the first that does not hold
ends the reading. None if a slot is read that the query does not have. -/
def readByBytes (c : DeclaredClause) (q : FilledQuery) : Option Bool :=
  if c.constraints.any fun k => k.slot < 6 && !c.admitsAt q k.slot then some false
  else if c.constraints.any fun k => 6 ≤ k.slot then none
  else some true

def names (c : DeclaredClause) (compactId : ℕ) : Bool :=
  c.constraints.any fun k => k.admits.any fun t => t.compactId = compactId

/-- The answer with the code that its number reaches. -/
def reachedAnswer (pools : NamePools) (c : DeclaredClause) : Option Answer :=
  if c.kind = .Unsupported then none
  else some ⟨c.kind, c.operand % 256, (c.target.map TypeSymbol.compactId).getD 0,
    pools.reached c.dispatch⟩

end DeclaredClause

inductive TableFormat
  | wildcard | matcher | matrix
  deriving DecidableEq, Repr

def tableFormat (clauses : List DeclaredClause) : TableFormat :=
  if clauses.any fun c => c.constraints.any fun k => 0 < k.slot then .matcher
  else if !clauses.isEmpty && clauses.all fun c => c.constraints.isEmpty then .wildcard
  else .matrix

def takenByMatcher (q : FilledQuery) : List DeclaredClause → Option (Option DeclaredClause)
  | [] => some none
  | c :: rest =>
    match c.readByBytes q with
    | none => none
    | some true => some (some c)
    | some false => takenByMatcher q rest

def takenByMatrix (q : FilledQuery) (clauses : List DeclaredClause) : Option DeclaredClause :=
  if (q.query.slots 0).compactId < 32 then
    clauses.reverse.find? fun c => c.names (q.query.slots 0).compactId
  else none

/-- The clause the table of the opcode takes; none if a slot is read that the query does
not have. -/
def takenClause (clauses : List DeclaredClause) (q : FilledQuery) :
    Option (Option DeclaredClause) :=
  match tableFormat clauses with
  | .wildcard => some clauses.head?
  | .matcher => takenByMatcher q clauses
  | .matrix => some (takenByMatrix q clauses)

/-- The clause the table takes reaches the answer of the first clause the query
satisfies. -/
def TakesFirst (pools : NamePools) (clauses : List DeclaredClause) (q : FilledQuery) : Prop :=
  ∃ taken, takenClause clauses q = some taken ∧ taken.bind (DeclaredClause.reachedAnswer pools) =
      (firstClause clauses q).bind DeclaredClause.answer

end EzPacker.ActionTables
