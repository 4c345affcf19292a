import EzPacker.Legalizer.LegalityQuery

/-!
# Integer instructions

What an integer instruction writes. A register holds the bits of its value; an
operation reads its operands and writes its result at the width of the destination. A
division by zero and a shift by the width or more have no result; a quotient that
overflows wraps.
-/

namespace EzPacker.RewriteRules

open Mir Legalizer

abbrev RegisterFile := MirRegisterRef → ℕ

def operandBits (regs : RegisterFile) (w : ℕ) : MirOperand → Option (BitVec w)
  | .register reg => some (BitVec.ofNat w (regs reg))
  | .integer value => some (BitVec.ofInt w value)
  | .memory _ | .floatingPoint _ | .reference _ | .runtimeSymbol _ => none

/-- The value of an operation. `REM` is the signed remainder. -/
def evaluate (opcode : MirInstructionOpCode) {w : ℕ} (x y : BitVec w) : Option (BitVec w) :=
  match opcode with
  | .ADD => some (x + y)
  | .SUB => some (x - y)
  | .MUL | .IMUL => some (x * y)
  | .SDIV => if y = 0 then none else some (x.sdiv y)
  | .UDIV => if y = 0 then none else some (x / y)
  | .REM => if y = 0 then none else some (x.srem y)
  | .AND => some (x &&& y)
  | .OR => some (x ||| y)
  | .XOR => some (x ^^^ y)
  | .SHL => if y.toNat < w then some (x <<< y.toNat) else none
  | .SHR => if y.toNat < w then some (x >>> y.toNat) else none
  | .SAR => if y.toNat < w then some (x.sshiftRight y.toNat) else none
  | _ => none

/-- The value an instruction with these sources writes at the width `w`. -/
def result (regs : RegisterFile) (opcode : MirInstructionOpCode) (w : ℕ) :
    List TypedOperand → Option (BitVec w)
  | [src] => if opcode = .MOV then operandBits regs w src.operand else none
  | [lhs, rhs] => do
      let x ← operandBits regs w lhs.operand
      let y ← operandBits regs w rhs.operand
      evaluate opcode x y
  | _ => none

def execute (regs : RegisterFile) (inst : TypedInstruction) : Option RegisterFile :=
  match inst.operands with
  | ⟨.register dst, some type⟩ :: sources =>
    (result regs inst.opcode type.totalSizeInBits sources).map fun bits =>
      Function.update regs dst bits.toNat
  | _ => none

def executeSequence (regs : RegisterFile) : List TypedInstruction → Option RegisterFile
  | [] => some regs
  | inst :: rest => (execute regs inst).bind fun regs => executeSequence regs rest

/-- Two instructions with one destination agree when their results do. -/
theorem execute_eq_iff {regs : RegisterFile} {dst : MirRegisterRef} {type : MirType}
    {op op' : MirInstructionOpCode} {sources sources' : List TypedOperand}
    {desc desc' : Option MirTargetInstructionDesc} :
    execute regs ⟨op, desc, ⟨.register dst, some type⟩ :: sources⟩ =
        execute regs ⟨op', desc', ⟨.register dst, some type⟩ :: sources'⟩ ↔
      result regs op type.totalSizeInBits sources =
        result regs op' type.totalSizeInBits sources' := by
  constructor
  · intro h
    refine Option.map_injective (fun a b hab => ?_) h
    have hdst := congrFun hab dst
    rw [Function.update_self, Function.update_self] at hdst
    exact BitVec.toNat_inj.mp hdst
  · intro h
    simp only [execute, h]

theorem executeSequence_singleton (regs : RegisterFile) (inst : TypedInstruction) :
    executeSequence regs [inst] = execute regs inst :=
  Option.bind_fun_some _

/-!
## Rewrite rules

A rule as the semantic pass leaves it in the symbol table: match clauses, guards and
emit clauses over named operands. A type is a symbol with its name and width; a width
of 0 is an unknown one. Source references are left out.
-/

/-- The form of an operand in a clause. -/
inductive RuleOperandKind
  | SsaRegister | ImmediateLiteral | ImmediateSymbol | CustomTransform
  deriving DecidableEq, Repr

structure TypeSymbol where
  name : String
  bitWidth : ℕ
  deriving DecidableEq, Repr

/-- An operand of a clause. A literal has no name; that of a transform is the name of
the function. -/
structure LegalizeRuleOperand where
  kind : RuleOperandKind
  name : String
  type : Option TypeSymbol
  immLiteral : Option ℤ
  callArgs : List String
  deriving DecidableEq, Repr

structure LegalizeRuleInstruction where
  opcode : MirInstructionOpCode
  operands : List LegalizeRuleOperand
  deriving DecidableEq, Repr

/-- An argument of a guard names a variable or is a literal. -/
inductive PredicateArg
  | variable (name : String)
  | literal (value : ℤ)
  deriving DecidableEq, Repr

structure LegalizeRulePredicate where
  name : String
  args : List PredicateArg
  deriving DecidableEq, Repr

structure LegalizeRule where
  ruleName : String
  matchPatterns : List LegalizeRuleInstruction
  predicates : List LegalizeRulePredicate
  expansionSequence : List LegalizeRuleInstruction
  deriving DecidableEq, Repr

namespace LegalizeRuleOperand

def register (name : String) (type : Option TypeSymbol) : LegalizeRuleOperand :=
  ⟨.SsaRegister, name, type, none, []⟩

/-- `imm(type):$name`, or `imm:$name` without a type. -/
def immediate (name : String) (type : Option TypeSymbol) : LegalizeRuleOperand :=
  ⟨.ImmediateSymbol, name, type, none, []⟩

def literal (value : ℤ) : LegalizeRuleOperand :=
  ⟨.ImmediateLiteral, "", none, some value, []⟩

def transform (name : String) (callArgs : List String) : LegalizeRuleOperand :=
  ⟨.CustomTransform, name, none, none, callArgs⟩

end LegalizeRuleOperand

/-!
## The code of a rule function

The generator writes a rule as a C++ function: a straight line of statements that
declare locals, leave the function when a test fails, and build instructions in front
of the current one. The statements are those the generator writes and no others. A
function compiles when every name is declared before its use, has the type the use
needs, and is declared once.
-/

/-- What a target supplies to its rules. The accessors of the type table are the
member functions a rule can name; `int32` is `i32()`. -/
structure TargetEnvironment where
  predicate : String → List ℤ → Bool
  transform : String → List ℤ → ℤ
  hasExtension : String → Bool
  accessor : String → Option MirType
  int32 : MirType

def flexInt (value : ℤ) (bits : ℕ) : ℤ := (BitVec.ofInt bits value).toInt

inductive Statement
  /-- Leaves unless the current instruction has the opcode. -/
  | bindInst (opcode : MirInstructionOpCode)
  /-- Leaves unless the instruction has so many operands. -/
  | bindOperands (count : ℕ)
  | bindOperand (var : String) (index : ℕ)
  | requireType (var : String) (kind : OperandKind)
  | requireBits (var : String) (bits : ℕ)
  /-- `auto *var = static_cast<MirInteger *>(source)`. -/
  | bindInteger (var source : String)
  /-- `int64_t var = source->getValue().getI64()`. -/
  | bindValue (var source : String)
  | requireValue (var : String) (value : ℤ)
  | requireExtension (name : String)
  | requirePredicate (name : String) (args : List PredicateArg)
  | bindTransform (var name : String) (args : List String)
  | bindBuilders
  | buildVReg (var accessor : String)
  /-- An integer operand with the type of another one. -/
  | buildIntLike (var like value : String)
  | buildInt32 (var : String) (value : PredicateArg)
  | build (opcode : MirInstructionOpCode) (operands : List String)
  | eraseInst
  deriving DecidableEq, Repr

/-! ## Scopes -/

/-- The types of the locals, as far as the uses tell them apart. -/
inductive LocalType
  | int64 | operand | integer | other
  deriving DecidableEq, Repr

def LocalType.isOperand : LocalType → Bool
  | .operand | .integer => true
  | .int64 | .other => false

abbrev Scope := List (String × LocalType)

def cppKeywords : List String :=
  ["alignas", "alignof", "and", "and_eq", "asm", "auto", "bitand", "bitor", "bool",
    "break", "case", "catch", "char", "char8_t", "char16_t", "char32_t", "class",
    "compl", "concept", "const", "consteval", "constexpr", "constinit", "const_cast",
    "continue", "co_await", "co_return", "co_yield", "decltype", "default", "delete",
    "do", "double", "dynamic_cast", "else", "enum", "explicit", "export", "extern",
    "false", "float", "for", "friend", "goto", "if", "inline", "int", "long", "mutable",
    "namespace", "new", "noexcept", "not", "not_eq", "nullptr", "operator", "or",
    "or_eq", "private", "protected", "public", "register", "reinterpret_cast",
    "requires", "return", "short", "signed", "sizeof", "static", "static_assert",
    "static_cast", "struct", "switch", "template", "this", "thread_local", "throw",
    "true", "try", "typedef", "typeid", "typename", "union", "unsigned", "using",
    "virtual", "void", "volatile", "wchar_t", "while", "xor", "xor_eq"]

def declaredOperand (scope : Scope) (name : String) : Bool :=
  (scope.lookup name).any LocalType.isOperand

def declaredValue (scope : Scope) (name : String) : Bool :=
  scope.lookup name = some .int64

def argDeclared (scope : Scope) : PredicateArg → Bool
  | .variable name => declaredValue scope name
  | .literal _ => true

namespace Statement

def declares : Statement → Scope
  | bindInst _ => [("inst", .other)]
  | bindOperands _ => [("operands", .other)]
  | bindOperand var _ => [(var, .operand)]
  | bindInteger var _ => [(var, .integer)]
  | bindValue var _ => [(var, .int64)]
  | bindTransform var _ _ => [(var, .int64)]
  | bindBuilders => [("block", .other), ("builder", .other), ("opBuilder", .other)]
  | buildVReg var _ => [(var, .operand)]
  | buildIntLike var _ _ => [(var, .operand)]
  | buildInt32 var _ => [(var, .operand)]
  | requireType _ _ | requireBits _ _ | requireValue _ _ | requireExtension _
  | requirePredicate _ _ | build _ _ | eraseInst => []

/-- The names from outside of the function that a statement needs. -/
def globals : Statement → List String
  | bindInst _ => ["MirInstruction", "MirInstructionOpCode", "LegalizationResult"]
  | bindOperands _ => ["LegalizationResult"]
  | bindOperand _ _ => ["MirOperand"]
  | requireType _ _ => ["MirOperandType", "LegalizationResult"]
  | requireBits _ _ => ["LegalizationResult"]
  | bindInteger _ _ => ["MirInteger"]
  | bindValue _ _ => ["int64_t"]
  | requireValue _ _ => ["MirInteger", "LegalizationResult"]
  | requireExtension _ => ["LegalizationResult"]
  | requirePredicate name _ => [name, "LegalizationResult"]
  | bindTransform _ name _ => ["int64_t", name]
  | bindBuilders =>
    ["MirBlock", "MirInstructionBuilder", "InsertionType", "MirOperandBuilder"]
  | buildVReg _ _ => ["MirOperand"]
  | buildIntLike _ _ _ => ["MirOperand", "FlexInt"]
  | buildInt32 _ _ => ["MirOperand", "FlexInt"]
  | build _ _ => ["MirInstructionOpCode"]
  | eraseInst => ["LegalizationResult"]

/-- The locals a statement reads are declared, with the types it needs. -/
def usesDeclared (env : TargetEnvironment) (scope : Scope) : Statement → Bool
  | bindInst _ | bindOperands _ | bindOperand _ _ | requireExtension _ | bindBuilders
  | eraseInst => true
  | requireType var _ | requireBits var _ | requireValue var _ =>
    declaredOperand scope var
  | bindInteger _ source => declaredOperand scope source
  | bindValue _ source => scope.lookup source = some .integer
  | requirePredicate _ args => args.all (argDeclared scope)
  | bindTransform _ _ args => args.all (declaredValue scope)
  | buildVReg _ accessor => (env.accessor accessor).isSome
  | buildIntLike _ like value => declaredOperand scope like && declaredValue scope value
  | buildInt32 _ value => argDeclared scope value
  | build _ operands => operands.all (declaredOperand scope)

def wellFormed (env : TargetEnvironment) (scope : Scope) (s : Statement) : Bool :=
  s.usesDeclared env scope && s.globals.all (fun name => (scope.lookup name).isNone) &&
    s.declares.all fun local_ =>
      (scope.lookup local_.1).isNone && !cppKeywords.contains local_.1

end Statement

def compiles (env : TargetEnvironment) (scope : Scope) : List Statement → Bool
  | [] => true
  | s :: rest =>
    s.wellFormed env scope && compiles env (s.declares.reverse ++ scope) rest

/-- The scope of an empty body: the parameter. -/
def parameters : Scope := [("ctx", .other)]

/-! ## Execution -/

inductive LocalValue
  | int64 (value : ℤ)
  | operand (op : TypedOperand)
  deriving DecidableEq

/-- The locals of a running function, the instructions it has built, and the number of
the next virtual register of the MIR function. -/
structure RuleState where
  locals : List (String × LocalValue)
  built : List TypedInstruction
  nextVReg : ℕ

namespace RuleState

def value (st : RuleState) (name : String) : Option ℤ :=
  match st.locals.lookup name with
  | some (.int64 value) => some value
  | _ => none

def operand (st : RuleState) (name : String) : Option TypedOperand :=
  match st.locals.lookup name with
  | some (.operand op) => some op
  | _ => none

def arg (st : RuleState) : PredicateArg → Option ℤ
  | .variable name => st.value name
  | .literal value => some value

def bind (st : RuleState) (name : String) (value : LocalValue) : RuleState :=
  { st with locals := (name, value) :: st.locals }

end RuleState

/-- How a statement leaves the function: by a failed test, or in code that is not
well formed or reads the type of an operand without one. -/
inductive Exit
  | notModified | undefined
  deriving DecidableEq, Repr

/-- The value of a lookup that well formed code has. -/
def defined {α : Type} : Option α → Except Exit α
  | some a => .ok a
  | none => .error .undefined

def require (test : Bool) (st : RuleState) : Except Exit RuleState :=
  if test then .ok st else .error .notModified

def integer (value : ℤ) (type : MirType) : TypedOperand := ⟨.integer value, some type⟩

variable {st st' : RuleState} {env : TargetEnvironment} {inst : TypedInstruction}

theorem require_eq_ok {test : Bool} : require test st = .ok st' ↔ test = true ∧ st' = st := by
  unfold require
  split
  · next h =>
      rw [Except.ok.injEq]
      exact ⟨fun heq => ⟨h, heq.symm⟩, fun hst => hst.2.symm⟩
  · next h => exact iff_of_false nofun fun hst => h hst.1

theorem defined_bind_eq_ok {α β : Type} {o : Option α} {f : α → Except Exit β} {b : β} :
    (defined o >>= f) = .ok b ↔ ∃ a, o = some a ∧ f a = .ok b := by
  cases o with
  | none => exact iff_of_false nofun nofun
  | some a => exact ⟨fun h => ⟨a, rfl, h⟩, by rintro ⟨_, ⟨⟩, h⟩; exact h⟩

namespace Statement

def execute (env : TargetEnvironment) (inst : TypedInstruction) (st : RuleState) :
    Statement → Except Exit RuleState
  | bindInst opcode => require (inst.opcode = opcode) st
  | bindOperands count => require (inst.operands.length = count) st
  | bindOperand var index => do
      let op ← defined inst.operands[index]?
      return st.bind var (.operand op)
  | requireType var kind => do
      let op ← defined (st.operand var)
      require (operandKind op.operand = kind) st
  | requireBits var bits => do
      let op ← defined (st.operand var)
      let type ← defined op.mirType
      require (type.totalSizeInBits = bits) st
  | bindInteger var source => do
      let op ← defined (st.operand source)
      return st.bind var (.operand op)
  | bindValue var source => do
      let op ← defined (st.operand source)
      let value ← defined (immediate? op)
      return st.bind var (.int64 (getI64 value))
  | requireValue var literal => do
      let op ← defined (st.operand var)
      let value ← defined (immediate? op)
      require (getI64 value = literal) st
  | requireExtension name => require (env.hasExtension name) st
  | requirePredicate name args => do
      let values ← defined (args.mapM st.arg)
      require (env.predicate name values) st
  | bindTransform var name args => do
      let values ← defined (args.mapM st.value)
      return st.bind var (.int64 (env.transform name values))
  | bindBuilders => return st
  | buildVReg var accessor => do
      let type ← defined (env.accessor accessor)
      let reg : MirRegisterRef := ⟨true, none, st.nextVReg⟩
      let st := { st with nextVReg := st.nextVReg + 1 }
      return st.bind var (.operand ⟨.register reg, some type⟩)
  | buildIntLike var like value => do
      let op ← defined (st.operand like)
      let type ← defined op.mirType
      let value ← defined (st.value value)
      return st.bind var (.operand (integer (flexInt value type.totalSizeInBits) type))
  | buildInt32 var value => do
      let value ← defined (st.arg value)
      return st.bind var (.operand (integer (flexInt value 32) env.int32))
  | build opcode operands => do
      let operands ← defined (operands.mapM st.operand)
      return { st with built := st.built ++ [⟨opcode, none, operands⟩] }
  | eraseInst => return st

end Statement

def executeAll (env : TargetEnvironment) (inst : TypedInstruction) :
    List Statement → RuleState → Except Exit RuleState
  | [], st => .ok st
  | s :: rest, st => do
      let st ← s.execute env inst st
      executeAll env inst rest st

@[simp] theorem executeAll_nil : executeAll env inst [] st = .ok st := rfl

theorem executeAll_cons_eq_ok {s : Statement} {rest : List Statement} :
    executeAll env inst (s :: rest) st = .ok st' ↔
      ∃ mid, s.execute env inst st = .ok mid ∧ executeAll env inst rest mid = .ok st' := by
  rw [executeAll]
  cases s.execute env inst st with
  | error e => exact iff_of_false nofun nofun
  | ok mid => exact ⟨fun h => ⟨mid, rfl, h⟩, by rintro ⟨_, ⟨⟩, h⟩; exact h⟩

theorem executeAll_append_eq_ok {code rest : List Statement} :
    executeAll env inst (code ++ rest) st = .ok st' ↔ ∃ mid, executeAll env inst code st = .ok mid ∧
        executeAll env inst rest mid = .ok st' := by
  induction code generalizing st with
  | nil => exact ⟨fun h => ⟨st, rfl, h⟩, by rintro ⟨_, ⟨⟩, h⟩; exact h⟩
  | cons s code ih =>
    simp only [List.cons_append, executeAll_cons_eq_ok, ih]
    constructor
    · rintro ⟨mid, hs, last, hcode, hrest⟩
      exact ⟨last, ⟨mid, hs, hcode⟩, hrest⟩
    · rintro ⟨last, ⟨mid, hs, hcode⟩, hrest⟩
      exact ⟨mid, hs, last, hcode, hrest⟩

end EzPacker.RewriteRules
