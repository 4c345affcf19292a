import EzPacker.RewriteRules.IntegerSemantics

/-!
# The generator of rule functions

`ruleBody` follows the emission of one `Rule_` function. Only the first match clause is
compiled. A register of the emit part that no register operand of that clause names,
and no earlier emit clause has introduced, is a new one; every integer the rule computes
gets the type of the first symbolic immediate of the clause, every literal `i32`.
-/

namespace EzPacker.RewriteRules

open List Option Mir Legalizer

/-! ## Names in the generated code -/

def opVar (index : ℕ) : String := "op" ++ toString index

def immVar (name : String) : String := "imm_" ++ name

def freshVar (name : String) : String := "op_" ++ name

def transVar (name : String) (clause slot : ℕ) : String :=
  "trans_" ++ name ++ "_" ++ toString clause ++ "_" ++ toString slot

def transOpVar (clause slot : ℕ) : String :=
  "transOp_" ++ toString clause ++ "_" ++ toString slot

def litOpVar (clause slot : ℕ) : String :=
  "litOp_" ++ toString clause ++ "_" ++ toString slot

/-! ## Matching -/

def widthTest (var : String) (type : Option TypeSymbol) : List Statement :=
  match type with
  | some ts => if ts.bitWidth > 0 then [.requireBits var ts.bitWidth] else []
  | none => []

def matchOperand (op : LegalizeRuleOperand) (index : ℕ) : List Statement :=
  let var := opVar index
  .bindOperand var index ::
    match op.kind with
    | .SsaRegister => .requireType var .Register :: widthTest var op.type
    | .ImmediateSymbol =>
      .requireType var .Integer :: (widthTest var op.type ++
        [.bindInteger (immVar op.name) var, .bindValue op.name (immVar op.name)])
    | .ImmediateLiteral =>
      [.requireType var .Integer, .requireValue var (op.immLiteral.getD 0)]
    | .CustomTransform => []

def matchOperands (ops : List LegalizeRuleOperand) : List Statement :=
  ops.zipIdx.flatMap fun (op, index) => matchOperand op index

/-- The register names bound by the match clause. -/
def boundSsaVars (ops : List LegalizeRuleOperand) : List String :=
  (ops.filter fun op => op.kind = .SsaRegister).map LegalizeRuleOperand.name

/-- The name of the first symbolic immediate; an empty name counts as none. -/
def firstImmSymbolName (ops : List LegalizeRuleOperand) : Option String :=
  (ops.find? fun op => op.kind = .ImmediateSymbol ∧ op.name ≠ "").map LegalizeRuleOperand.name

/-! ## Guards -/

/-- The extension a guard asks for is its first argument, if that is a name. -/
def extensionName (args : List PredicateArg) : String :=
  match args with
  | .variable name :: _ => name
  | _ => ""

def isExtensionGuard (p : LegalizeRulePredicate) : Bool :=
  p.name = "hasExtension" || p.name = "hasFeature"

def guardStatement (p : LegalizeRulePredicate) : Statement :=
  if isExtensionGuard p then .requireExtension (extensionName p.args)
  else .requirePredicate p.name p.args

/-! ## Transforms -/

def clauseTransforms (e : LegalizeRuleInstruction) (eIdx : ℕ) : List Statement :=
  e.operands.zipIdx.filterMap fun (op, oIdx) =>
    if op.kind = .CustomTransform then
      some (.bindTransform (transVar op.name eIdx oIdx) op.name op.callArgs)
    else none

def transformStatements (seq : List LegalizeRuleInstruction) : List Statement :=
  seq.zipIdx.flatMap fun (e, eIdx) => clauseTransforms e eIdx

/-! ## Replacement -/

/-- The position of the first match operand with a name, of any kind. -/
def matchIndex (ops : List LegalizeRuleOperand) (name : String) : Option ℕ :=
  ops.findIdx? fun op => op.name = name

/-- The statements an emit operand needs, the local that holds it, and the register
names that are defined after it. -/
def emitOperand (ops : List LegalizeRuleOperand) (eIdx oIdx : ℕ)
    (op : LegalizeRuleOperand) (definedSsaVars : List String) :
    List Statement × String × List String :=
  match op.kind with
  | .SsaRegister =>
    if op.name ∈ definedSsaVars then
      match matchIndex ops op.name with
      | some index => ([], opVar index, definedSsaVars)
      | none => ([], freshVar op.name, definedSsaVars)
    else
      let typeAccessor := (op.type.map TypeSymbol.name).getD "i32"
      ([.buildVReg (freshVar op.name) typeAccessor], freshVar op.name, op.name :: definedSsaVars)
  | .ImmediateSymbol =>
    match matchIndex ops op.name with
    | some index => ([], opVar index, definedSsaVars)
    | none => ([], op.name, definedSsaVars)
  | .CustomTransform =>
    let opName := transOpVar eIdx oIdx
    let value := transVar op.name eIdx oIdx
    match firstImmSymbolName ops with
    | some imm => ([.buildIntLike opName (immVar imm) value], opName, definedSsaVars)
    | none => ([.buildInt32 opName (.variable value)], opName, definedSsaVars)
  | .ImmediateLiteral =>
    let opName := litOpVar eIdx oIdx
    ([.buildInt32 opName (.literal (op.immLiteral.getD 0))], opName, definedSsaVars)

/-- The operands of a clause from the slot `oIdx` on. -/
def emitOperands (ops : List LegalizeRuleOperand) (eIdx : ℕ) :
    ℕ → List LegalizeRuleOperand → List String → List Statement × List String × List String
  | _, [], definedSsaVars => ([], [], definedSsaVars)
  | oIdx, op :: rest, definedSsaVars =>
    let (code, var, definedSsaVars) := emitOperand ops eIdx oIdx op definedSsaVars
    let (restCode, vars, definedSsaVars) :=
      emitOperands ops eIdx (oIdx + 1) rest definedSsaVars
    (code ++ restCode, var :: vars, definedSsaVars)

def emitClauses (ops : List LegalizeRuleOperand) :
    ℕ → List LegalizeRuleInstruction → List String → List Statement
  | _, [], _ => []
  | eIdx, e :: rest, definedSsaVars =>
    let (code, vars, definedSsaVars) := emitOperands ops eIdx 0 e.operands definedSsaVars
    code ++ .build e.opcode vars :: emitClauses ops (eIdx + 1) rest definedSsaVars

/-! ## Rule functions -/

def guardedBody (r : LegalizeRule) (matchInst : LegalizeRuleInstruction) : List Statement :=
  .bindInst matchInst.opcode :: .bindOperands matchInst.operands.length ::
    (matchOperands matchInst.operands ++ r.predicates.map guardStatement ++
      transformStatements r.expansionSequence ++ .bindBuilders ::
      (emitClauses matchInst.operands 0 r.expansionSequence
        (boundSsaVars matchInst.operands) ++ [.eraseInst]))

/-- The statements of a rule function; one without match clauses only returns. -/
def ruleBody (r : LegalizeRule) : Option (List Statement) :=
  r.matchPatterns.head?.map (guardedBody r)

/-- What a rule function does to the current instruction of a block. -/
inductive RuleResult
  | NotModified
  | Legalized (replacement : List TypedInstruction)
  deriving DecidableEq

/-- The function of a rule on an instruction. It has no result where it does not
compile. -/
def applyRule (env : TargetEnvironment) (r : LegalizeRule) (inst : TypedInstruction)
    (nextVReg : ℕ) : Option RuleResult :=
  match ruleBody r with
  | none => some .NotModified
  | some body =>
    if compiles env parameters body then
      match executeAll env inst body ⟨[], [], nextVReg⟩ with
      | .ok st => some (.Legalized st.built)
      | .error .notModified => some .NotModified
      | .error .undefined => none
    else none

theorem applyRule_eq_legalized {env : TargetEnvironment} {r : LegalizeRule}
    {inst : TypedInstruction} {nextVReg : ℕ} {replacement : List TypedInstruction}
    (h : applyRule env r inst nextVReg = some (.Legalized replacement)) :
    ∃ body st, ruleBody r = some body ∧
      executeAll env inst body ⟨[], [], nextVReg⟩ = .ok st ∧ st.built = replacement := by
  unfold applyRule at h
  cases hbody : ruleBody r with
  | none => simp [hbody] at h
  | some body =>
    rw [hbody] at h
    dsimp only at h
    split at h
    · cases hrun : executeAll env inst body ⟨[], [], nextVReg⟩ with
      | error e => cases e <;> simp [hrun] at h
      | ok st =>
        rw [hrun] at h
        exact ⟨body, st, rfl, hrun, by simpa using h⟩
    · cases h

/-!
## The rules of the targets

The rule files of the two targets and the helper functions their rules call. Both
files declare the same rules. A rule for a power of two matches an immediate and
computes the operand of the cheaper instruction from it; an identity rule matches a
literal.
-/

/-! ## Helper functions -/

def isPowTwo (val : ℤ) : Bool := val > 0 && val.toNat &&& (val - 1).toNat == 0

def isPositiveConst (val : ℤ) : Bool := val > 0

/-- `countr_zero` of the bits. -/
def log2Pow2 (val : ℤ) : ℤ :=
  if val ≤ 0 then 0 else (BitVec.ofInt 64 val).ctz.toNat

def sub1 (val : ℤ) : ℤ := val - 1

/-- The target of the shipped rules, over the parts no shipped rule uses. -/
def shippedEnvironment (hasExtension : String → Bool) (accessor : String → Option MirType)
    (int32 : MirType) : TargetEnvironment where
  predicate
    | "isPowTwo", [val] => isPowTwo val
    | "isPositiveConst", [val] => isPositiveConst val
    | _, _ => false
  transform
    | "log2Pow2", [val] => log2Pow2 val
    | "sub1", [val] => sub1 val
    | _, _ => 0
  hasExtension := hasExtension
  accessor := accessor
  int32 := int32

/-! ## The rules -/

def i32 : TypeSymbol := ⟨"i32", 32⟩

def i64 : TypeSymbol := ⟨"i64", 64⟩

/-- `opcode dst, lhs, imm c` becomes `emitted dst, lhs, transform(c)` under the
guards. -/
def powerRule (ruleName : String) (opcode : MirInstructionOpCode) (type : TypeSymbol)
    (guards : List String) (emitted : MirInstructionOpCode) (transform : String) :
    LegalizeRule where
  ruleName := ruleName
  matchPatterns :=
    [⟨opcode, [.register "dst" type, .register "lhs" type, .immediate "c" type]⟩]
  predicates := guards.map (⟨·, [.variable "c"]⟩)
  expansionSequence :=
    [⟨emitted, [.register "dst" type, .register "lhs" type, .transform transform ["c"]]⟩]

/-- `opcode dst, lhs, value` becomes `MOV dst, lhs`. -/
def identityRule (ruleName : String) (opcode : MirInstructionOpCode) (type : TypeSymbol)
    (value : ℤ) : LegalizeRule where
  ruleName := ruleName
  matchPatterns :=
    [⟨opcode, [.register "dst" type, .register "lhs" type, .literal value]⟩]
  predicates := []
  expansionSequence := [⟨.MOV, [.register "dst" type, .register "lhs" type]⟩]

def SDivPow2_32 : LegalizeRule :=
  powerRule "SDivPow2_32" .SDIV i32 ["isPowTwo", "isPositiveConst"] .SAR "log2Pow2"

def SDivPow2_64 : LegalizeRule :=
  powerRule "SDivPow2_64" .SDIV i64 ["isPowTwo", "isPositiveConst"] .SAR "log2Pow2"

def UDivPow2_32 : LegalizeRule :=
  powerRule "UDivPow2_32" .UDIV i32 ["isPowTwo"] .SHR "log2Pow2"

def UDivPow2_64 : LegalizeRule :=
  powerRule "UDivPow2_64" .UDIV i64 ["isPowTwo"] .SHR "log2Pow2"

def URemPow2_32 : LegalizeRule := powerRule "URemPow2_32" .REM i32 ["isPowTwo"] .AND "sub1"

def URemPow2_64 : LegalizeRule := powerRule "URemPow2_64" .REM i64 ["isPowTwo"] .AND "sub1"

def AddZero_32 : LegalizeRule := identityRule "AddZero_32" .ADD i32 0

def AddZero_64 : LegalizeRule := identityRule "AddZero_64" .ADD i64 0

def SubZero_32 : LegalizeRule := identityRule "SubZero_32" .SUB i32 0

def SubZero_64 : LegalizeRule := identityRule "SubZero_64" .SUB i64 0

def MulOne_32 : LegalizeRule := identityRule "MulOne_32" .MUL i32 1

def MulOne_64 : LegalizeRule := identityRule "MulOne_64" .MUL i64 1

def IMulOne_32 : LegalizeRule := identityRule "IMulOne_32" .IMUL i32 1

def IMulOne_64 : LegalizeRule := identityRule "IMulOne_64" .IMUL i64 1

def MulPow2_32 : LegalizeRule :=
  powerRule "MulPow2_32" .MUL i32 ["isPowTwo", "isPositiveConst"] .SHL "log2Pow2"

def MulPow2_64 : LegalizeRule :=
  powerRule "MulPow2_64" .MUL i64 ["isPowTwo", "isPositiveConst"] .SHL "log2Pow2"

def IMulPow2_32 : LegalizeRule :=
  powerRule "IMulPow2_32" .IMUL i32 ["isPowTwo", "isPositiveConst"] .SHL "log2Pow2"

def IMulPow2_64 : LegalizeRule :=
  powerRule "IMulPow2_64" .IMUL i64 ["isPowTwo", "isPositiveConst"] .SHL "log2Pow2"

def OrZero_32 : LegalizeRule := identityRule "OrZero_32" .OR i32 0

def OrZero_64 : LegalizeRule := identityRule "OrZero_64" .OR i64 0

def XorZero_32 : LegalizeRule := identityRule "XorZero_32" .XOR i32 0

def XorZero_64 : LegalizeRule := identityRule "XorZero_64" .XOR i64 0

def ShlZero_32 : LegalizeRule := identityRule "ShlZero_32" .SHL i32 0

def ShlZero_64 : LegalizeRule := identityRule "ShlZero_64" .SHL i64 0

def ShrZero_32 : LegalizeRule := identityRule "ShrZero_32" .SHR i32 0

def ShrZero_64 : LegalizeRule := identityRule "ShrZero_64" .SHR i64 0

def SarZero_32 : LegalizeRule := identityRule "SarZero_32" .SAR i32 0

def SarZero_64 : LegalizeRule := identityRule "SarZero_64" .SAR i64 0

def x86_64_rules : List LegalizeRule :=
  [SDivPow2_32, SDivPow2_64, UDivPow2_32, UDivPow2_64, URemPow2_32, URemPow2_64,
    AddZero_32, AddZero_64, SubZero_32, SubZero_64, MulOne_32, MulOne_64, IMulOne_32,
    IMulOne_64, MulPow2_32, MulPow2_64, IMulPow2_32, IMulPow2_64, OrZero_32, OrZero_64,
    XorZero_32, XorZero_64, ShlZero_32, ShlZero_64, ShrZero_32, ShrZero_64, SarZero_32,
    SarZero_64]

def riscv64_rules : List LegalizeRule := x86_64_rules

/-!
## The stages of a rule function

What the generated tests accept and which locals they leave. A slot fits an operand by
kind and by width, a literal by its 64 bits; the guards read the locals the slots have
bound.
-/

/-- The width test passes: a type without a width accepts every operand. -/
def WidthFits (type : Option TypeSymbol) (arg : TypedOperand) : Prop :=
  match type with
  | some ts => ts.bitWidth = 0 ∨ arg.mirType.map MirType.totalSizeInBits = some ts.bitWidth
  | none => True

def SlotFits (op : LegalizeRuleOperand) (arg : TypedOperand) : Prop :=
  match op.kind with
  | .SsaRegister => operandKind arg.operand = .Register ∧ WidthFits op.type arg
  | .ImmediateSymbol => operandKind arg.operand = .Integer ∧ WidthFits op.type arg
  | .ImmediateLiteral =>
    operandKind arg.operand = .Integer ∧ (immediate? arg).map getI64 = some (op.immLiteral.getD 0)
  | .CustomTransform => True

/-- The locals of a slot, the last one first. -/
def slotLocals (op : LegalizeRuleOperand) (index : ℕ) (arg : TypedOperand) :
    List (String × LocalValue) :=
  match op.kind with
  | .ImmediateSymbol =>
    [(op.name, .int64 (getI64 ((immediate? arg).getD 0))), (immVar op.name, .operand arg),
      (opVar index, .operand arg)]
  | .SsaRegister | .ImmediateLiteral | .CustomTransform => [(opVar index, .operand arg)]

def matchLocals : ℕ → List LegalizeRuleOperand → List TypedOperand → List (String × LocalValue)
  | index, op :: ops, arg :: args => matchLocals (index + 1) ops args ++ slotLocals op index arg
  | _, _, _ => []

/-- A guard holds of the values its arguments have. -/
def GuardHolds (env : TargetEnvironment) (st : RuleState) (p : LegalizeRulePredicate) : Prop :=
  if isExtensionGuard p then env.hasExtension (extensionName p.args) = true
  else ∃ values, p.args.mapM st.arg = some values ∧ env.predicate p.name values = true

/-- The statements after the tests. -/
def replacementBody (r : LegalizeRule) (ops : List LegalizeRuleOperand) : List Statement :=
  transformStatements r.expansionSequence ++ .bindBuilders ::
      (emitClauses ops 0 r.expansionSequence (boundSsaVars ops) ++ [.eraseInst])

section

variable {env : TargetEnvironment} {inst : TypedInstruction} {st st' : RuleState}

theorem operand_bind (st : RuleState) (name : String) (op : TypedOperand) :
    (st.bind name (.operand op)).operand name = some op := by
  simp [RuleState.operand, RuleState.bind]

variable {arg : TypedOperand} {rest : List Statement} {var : String}

theorem executeAll_widthTest {type : Option TypeSymbol} (hvar : st.operand var = some arg) :
    executeAll env inst (widthTest var type ++ rest) st = .ok st' ↔
      WidthFits type arg ∧ executeAll env inst rest st = .ok st' := by
  cases type with
  | none => exact ⟨fun h => ⟨trivial, h⟩, And.right⟩
  | some ts =>
    unfold widthTest WidthFits
    dsimp only
    by_cases hzero : ts.bitWidth = 0
    · rw [if_neg (by omega), nil_append]
      exact ⟨fun h => ⟨.inl hzero, h⟩, And.right⟩
    · rw [if_pos (by omega), singleton_append, executeAll_cons_eq_ok]
      simp only [Statement.execute, defined_bind_eq_ok, require_eq_ok, hvar,
        some.injEq, decide_eq_true_eq, hzero, false_or, map_eq_some_iff]
      constructor
      · rintro ⟨mid, ⟨_, rfl, type, htype, hwidth, rfl⟩, hrest⟩
        exact ⟨⟨type, htype, hwidth⟩, hrest⟩
      · rintro ⟨⟨type, htype, hwidth⟩, hrest⟩
        exact ⟨st, ⟨arg, rfl, type, htype, hwidth, rfl⟩, hrest⟩

theorem executeAll_bindOperand {index : ℕ} (harg : inst.operands[index]? = some arg) :
    executeAll env inst (.bindOperand var index :: rest) st = .ok st' ↔
      executeAll env inst rest (st.bind var (.operand arg)) = .ok st' := by
  rw [executeAll_cons_eq_ok]
  simp only [Statement.execute, defined_bind_eq_ok, harg, some.injEq]
  constructor
  · rintro ⟨mid, ⟨_, rfl, ⟨⟩⟩, hrest⟩
    exact hrest
  · intro hrest
    exact ⟨_, ⟨arg, rfl, rfl⟩, hrest⟩

theorem executeAll_requireType {kind : OperandKind} (hvar : st.operand var = some arg) :
    executeAll env inst (.requireType var kind :: rest) st = .ok st' ↔
      operandKind arg.operand = kind ∧ executeAll env inst rest st = .ok st' := by
  rw [executeAll_cons_eq_ok]
  simp only [Statement.execute, defined_bind_eq_ok, require_eq_ok, hvar, some.injEq,
    decide_eq_true_eq]
  constructor
  · rintro ⟨mid, ⟨_, rfl, hkind, rfl⟩, hrest⟩
    exact ⟨hkind, hrest⟩
  · rintro ⟨hkind, hrest⟩
    exact ⟨st, ⟨arg, rfl, hkind, rfl⟩, hrest⟩

theorem executeAll_requireValue {value : ℤ} (hvar : st.operand var = some arg) :
    executeAll env inst [.requireValue var value] st = .ok st' ↔
      (immediate? arg).map getI64 = some value ∧ st' = st := by
  rw [executeAll_cons_eq_ok]
  simp only [Statement.execute, defined_bind_eq_ok, require_eq_ok, hvar, some.injEq,
    decide_eq_true_eq, map_eq_some_iff]
  constructor
  · rintro ⟨mid, ⟨_, rfl, v, hv, hvalue, rfl⟩, ⟨⟩⟩
    exact ⟨⟨v, hv, hvalue⟩, rfl⟩
  · rintro ⟨⟨v, hv, hvalue⟩, rfl⟩
    exact ⟨st', ⟨arg, rfl, v, hv, hvalue, rfl⟩, rfl⟩

theorem immediate?_of_kind (h : operandKind arg.operand = .Integer) :
    ∃ value, immediate? arg = some value := by
  rcases arg with ⟨operand, type⟩
  cases operand with
  | integer value => exact ⟨value, rfl⟩
  | _ => simp [operandKind] at h

theorem executeAll_bindImmediate {name source : String} (hvar : st.operand source = some arg)
    (hkind : operandKind arg.operand = .Integer) :
    executeAll env inst [.bindInteger (immVar name) source, .bindValue name (immVar name)]
        st = .ok st' ↔
      st' = (st.bind (immVar name) (.operand arg)).bind name
        (.int64 (getI64 ((immediate? arg).getD 0))) := by
  obtain ⟨value, hvalue⟩ := immediate?_of_kind hkind
  simp only [executeAll_cons_eq_ok, Statement.execute, defined_bind_eq_ok, hvar,
    some.injEq, hvalue, getD_some]
  constructor
  · rintro ⟨_, ⟨_, rfl, ⟨⟩⟩, _, ⟨_, hop, _, hv, ⟨⟩⟩, ⟨⟩⟩
    rw [operand_bind, some.injEq] at hop
    subst hop
    rw [hvalue, some.injEq] at hv
    rw [hv]
  · rintro rfl
    exact ⟨_, ⟨arg, rfl, rfl⟩, _, ⟨arg, operand_bind _ _ _, value, hvalue, rfl⟩, rfl⟩

theorem executeAll_matchOperand {op : LegalizeRuleOperand} {index : ℕ}
    (harg : inst.operands[index]? = some arg) :
    executeAll env inst (matchOperand op index) st = .ok st' ↔
      SlotFits op arg ∧ st' = { st with locals := slotLocals op index arg ++ st.locals } := by
  have hvar := operand_bind st (opVar index) arg
  unfold matchOperand SlotFits slotLocals
  rw [executeAll_bindOperand harg]
  cases op.kind with
  | SsaRegister =>
    dsimp only
    rw [executeAll_requireType hvar, ← append_nil (widthTest _ _), executeAll_widthTest hvar]
    simp only [executeAll, Except.ok.injEq, and_assoc]
    exact and_congr_right fun _ => and_congr_right fun _ => eq_comm
  | ImmediateLiteral =>
    dsimp only
    rw [executeAll_requireType hvar, executeAll_requireValue hvar, and_assoc]
    rfl
  | ImmediateSymbol =>
    dsimp only
    rw [executeAll_requireType hvar, executeAll_widthTest hvar, and_assoc]
    refine and_congr_right fun hkind => and_congr_right fun _ => ?_
    rw [executeAll_bindImmediate hvar hkind]
    rfl
  | CustomTransform =>
    simp only [executeAll, Except.ok.injEq, true_and]
    exact eq_comm

theorem executeAll_matchOperands {ops : List LegalizeRuleOperand} {index : ℕ}
    (hlen : inst.operands.length = index + ops.length) :
    executeAll env inst ((ops.zipIdx index).flatMap fun (op, i) => matchOperand op i) st = .ok st' ↔
      Forall₂ SlotFits ops (inst.operands.drop index) ∧
        st' = { st with
          locals := matchLocals index ops (inst.operands.drop index) ++ st.locals } := by
  induction ops generalizing index st with
  | nil =>
    have hdrop : inst.operands.drop index = [] := drop_eq_nil_of_le (by simp [hlen])
    rw [hdrop]
    simp only [zipIdx_nil, flatMap_nil, executeAll, Except.ok.injEq, matchLocals,
      forall₂_nil_left_iff, true_and, nil_append]
    exact eq_comm
  | cons op ops ih =>
    rw [length_cons] at hlen
    have hlt : index < inst.operands.length := by omega
    have harg := getElem?_eq_getElem hlt
    rw [drop_eq_getElem_cons hlt, zipIdx_cons, flatMap_cons, executeAll_append_eq_ok]
    simp only [executeAll_matchOperand harg, ih (by omega : _ = index + 1 + ops.length),
      forall₂_cons, matchLocals, append_assoc]
    constructor
    · rintro ⟨mid, ⟨hfit, rfl⟩, hfits, rfl⟩
      exact ⟨⟨hfit, hfits⟩, rfl⟩
    · rintro ⟨⟨hfit, hfits⟩, rfl⟩
      exact ⟨_, ⟨hfit, rfl⟩, hfits, rfl⟩

theorem execute_guardStatement {p : LegalizeRulePredicate} :
    (guardStatement p).execute env inst st = .ok st' ↔ GuardHolds env st p ∧ st' = st := by
  unfold guardStatement GuardHolds
  split
  · exact require_eq_ok
  · simp only [Statement.execute, defined_bind_eq_ok, require_eq_ok]
    constructor
    · rintro ⟨values, hvalues, hholds, rfl⟩
      exact ⟨⟨values, hvalues, hholds⟩, rfl⟩
    · rintro ⟨⟨values, hvalues, hholds⟩, rfl⟩
      exact ⟨values, hvalues, hholds, rfl⟩

theorem executeAll_guards {ps : List LegalizeRulePredicate} :
    executeAll env inst (ps.map guardStatement ++ rest) st = .ok st' ↔
      (∀ p ∈ ps, GuardHolds env st p) ∧ executeAll env inst rest st = .ok st' := by
  induction ps with
  | nil => simp
  | cons p ps ih =>
    rw [map_cons, cons_append, executeAll_cons_eq_ok, forall_mem_cons, and_assoc, ← ih]
    simp only [execute_guardStatement]
    constructor
    · rintro ⟨mid, ⟨hp, rfl⟩, hrest⟩
      exact ⟨hp, hrest⟩
    · rintro ⟨hp, hrest⟩
      exact ⟨st, ⟨hp, rfl⟩, hrest⟩

theorem executeAll_tests {opcode : MirInstructionOpCode} {count : ℕ} :
    executeAll env inst (.bindInst opcode :: .bindOperands count :: rest) st = .ok st' ↔
      inst.opcode = opcode ∧ inst.operands.length = count ∧
        executeAll env inst rest st = .ok st' := by
  simp only [executeAll_cons_eq_ok, Statement.execute, require_eq_ok, decide_eq_true_eq]
  constructor
  · rintro ⟨_, ⟨hopcode, rfl⟩, _, ⟨hcount, rfl⟩, hrest⟩
    exact ⟨hopcode, hcount, hrest⟩
  · rintro ⟨hopcode, hcount, hrest⟩
    exact ⟨st, ⟨hopcode, rfl⟩, st, ⟨hcount, rfl⟩, hrest⟩

/-- A rule function passes its tests exactly on the instructions of the first clause
for which the guards hold. -/
theorem executeAll_guardedBody {r : LegalizeRule} {clause : LegalizeRuleInstruction} :
    executeAll env inst (guardedBody r clause) st = .ok st' ↔
      inst.opcode = clause.opcode ∧ inst.operands.length = clause.operands.length ∧
        Forall₂ SlotFits clause.operands inst.operands ∧
        let matched : RuleState :=
          { st with locals := matchLocals 0 clause.operands inst.operands ++ st.locals }
        (∀ p ∈ r.predicates, GuardHolds env matched p) ∧
          executeAll env inst (replacementBody r clause.operands) matched = .ok st' := by
  unfold guardedBody
  rw [executeAll_tests]
  refine and_congr_right fun _ => and_congr_right fun hlen => ?_
  rw [append_assoc, append_assoc, executeAll_append_eq_ok]
  have hslots : ∀ mid, executeAll env inst (matchOperands clause.operands) st = .ok mid ↔ _ :=
    fun mid => executeAll_matchOperands (by rw [hlen, Nat.zero_add])
  simp only [hslots, drop_zero]
  constructor
  · rintro ⟨mid, ⟨hfits, rfl⟩, hrest⟩
    exact ⟨hfits, executeAll_guards.mp hrest⟩
  · rintro ⟨hfits, hrest⟩
    exact ⟨_, ⟨hfits, rfl⟩, executeAll_guards.mpr hrest⟩

end

end EzPacker.RewriteRules
