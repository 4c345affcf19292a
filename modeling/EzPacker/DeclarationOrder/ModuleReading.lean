import EzPacker.DeclarationOrder.FunctionBodies

/-!
# Modules

A module that is parsed without errors reads as its text: every object as its
declaration and every instruction as its statement, with each symbol as what its name
stands for in the declaration that has the statement.
-/

namespace EzPacker.DeclarationOrder

open MirParserContext ModuleText Nat List Option FirstMention

/-! ## The last place -/

variable {i : ℕ} {name : String} {d : TopLevelText}

theorem lastWhere_some {p : ℕ → Bool} {j : ℕ} (h : lastWhere p i = some j) :
    j < i ∧ p j = true := by
  induction i with
  | zero => cases h
  | succ i ih =>
    rw [lastWhere] at h
    split at h
    · next hp =>
        cases h
        exact ⟨lt_succ_self _, hp⟩
    · exact ⟨lt_succ_of_lt (ih h).1, (ih h).2⟩

theorem lastWhere_none {p : ℕ → Bool} : lastWhere p i = none ↔ ∀ j < i, p j = false := by
  induction i with
  | zero => exact ⟨fun _ j hj => absurd hj (not_lt_zero j), fun _ => rfl⟩
  | succ i ih =>
    rw [lastWhere]
    constructor
    · intro h j hj
      split at h
      · cases h
      · next hp =>
          rcases Nat.lt_succ_iff_lt_or_eq.mp hj with hj | rfl
          · exact ih.mp h j hj
          · exact Bool.eq_false_iff.mpr hp
    · intro h
      rw [h i (lt_succ_self i)]
      exact ih.mpr fun j hj => h j (lt_succ_of_lt hj)

namespace ModuleText

variable {text : ModuleText}

theorem isGlobal_iff :
    text.isGlobal name i = true ↔ ∃ type, text[i]? = some (.globalVar name type) := by
  unfold isGlobal
  rw [any_eq_true_iff_get]
  constructor
  · rintro ⟨hsome, hget⟩
    obtain ⟨d, hd⟩ := isSome_iff_exists.mp hsome
    simp only [hd, get_some] at hget
    cases d with
    | globalVar n type => exact ⟨type, by rw [hd, eq_of_beq hget]⟩
    | declare n r ps | fn f => cases hget
  · rintro ⟨type, hi⟩
    simp [hi, TopLevelText.isGlobal]

theorem isFunction_iff : text.isFunction name i = true ↔
      ∃ d, text[i]? = some d ∧ d.isFunction name = true := by
  unfold isFunction
  cases text[i]? <;> simp

/-- The symbol that the declaration at `x` is for references. -/
def symbolAt (text : ModuleText) (x : ℕ) : Option Symbol := text[x]?.map fun d => ⟨x, d.type⟩

/-- What a name stands for when the declaration at `i` is parsed. -/
def earlySymbol {β : Type} (text : ModuleText) (i : ℕ) (name : String) (offset : ℤ) :
    Operand β :=
  .ofTables ((lastWhere (text.isGlobal name) i).bind text.symbolAt)
    ((lastWhere (text.isFunction name) (i + 1)).bind text.symbolAt) name offset

end ModuleText

/-! ## Tables -/

/-- The tables after the global variables before `i` and the functions before `j`. -/
structure TablesRead (text : ModuleText) (i j : ℕ) (ctx : MirParserContext) : Prop where
  globals : ∀ name,
    ctx.resolveGlobal name = (lastWhere (text.isGlobal name) i).bind text.symbolAt
  functions : ∀ name,
    ctx.resolveFunction name = (lastWhere (text.isFunction name) j).bind text.symbolAt

section

variable {text : ModuleText} {i : ℕ} {ctx ctx' : MirParserContext}

theorem TablesRead.of_extends {j : ℕ} (h : TablesRead text i j ctx) (hextends : Extends ctx ctx') :
    TablesRead text i j ctx' where
  globals name := by
    unfold resolveGlobal
    rw [hextends.globals]
    exact h.globals name
  functions name := by
    unfold resolveFunction
    rw [hextends.functions]
    exact h.functions name

theorem TablesRead.earlySymbol (h : TablesRead text i (i + 1) ctx) :
    ctx.earlySymbol (β := ℕ) = text.earlySymbol i := by
  funext name offset
  unfold MirParserContext.earlySymbol ModuleText.earlySymbol
  rw [h.globals, h.functions]

theorem lastWhere_skip {p : ℕ → Bool} (h : p i = false) : lastWhere p (i + 1) = lastWhere p i := by
  rw [lastWhere, h]
  rfl

theorem TablesRead.declareGlobal (h : TablesRead text i i ctx) {type : InternedType}
    (hi : text[i]? = some (.globalVar name type)) :
    TablesRead text (i + 1) (i + 1) (ctx.declareGlobal name ⟨i, type⟩) where
  globals n := by
    have hn := h.globals n
    unfold MirParserContext.resolveGlobal MirParserContext.declareGlobal at *
    dsimp only
    rw [lookup_cons, lastWhere]
    by_cases heq : name = n
    · subst heq
      rw [if_pos rfl, if_pos (isGlobal_iff.mpr ⟨type, hi⟩), bind_some,
        symbolAt, hi]
      rfl
    · rw [if_neg heq, if_neg, hn]
      simp [isGlobal, hi, TopLevelText.isGlobal, heq]
  functions n := by
    rw [lastWhere_skip (by simp [isFunction, hi, TopLevelText.isFunction])]
    exact h.functions n

theorem TablesRead.declareFunction (h : TablesRead text i i ctx) (name : String)
    (hi : text[i]? = some d) (hd : ∀ n, d.isFunction n = (name == n)) :
    TablesRead text i (i + 1) (ctx.declareFunction name ⟨i, d.type⟩) where
  globals := h.globals
  functions n := by
    have hn := h.functions n
    have hat : text.isFunction n i = (name == n) := by
      rw [isFunction, hi, any_some, hd]
    unfold MirParserContext.resolveFunction MirParserContext.declareFunction at *
    dsimp only
    rw [lookup_cons, lastWhere, hat]
    by_cases heq : name = n
    · subst heq
      rw [if_pos rfl, if_pos (beq_self_eq_true name), bind_some, symbolAt, hi]
      rfl
    · rw [if_neg heq, if_neg (by simpa using heq), hn]

theorem TablesRead.skipGlobal {j : ℕ} (h : TablesRead text i j ctx)
    (hi : ∀ name, text.isGlobal name i = false) : TablesRead text (i + 1) j ctx where
  globals name := by
    rw [lastWhere_skip (hi name)]
    exact h.globals name
  functions := h.functions

end

/-! ## Bodies -/

/-- A parsed body reads as its text. -/
structure ReadsBody (parameters : List (String × InternedType)) (body : List BlockText)
    (symbol : String → ℤ → Operand ℕ) (insts : List (Instruction ℕ)) (parsed : ParsedBody) :
    Prop where
  names : parsed.blocks.map ParsedBlock.name = blockOrder body
  nodup : (blockOrder body).Nodup
  registers : ∀ name, lookup parsed.registers name = registerType parameters body name
  statements : ∀ (i : ℕ) (b : ParsedBlock), parsed.blocks[i]? = some b →
    ReadsStatements (blockOrder body) symbol insts b.instructions (bodyOf body b.name)
  absent : ∀ name ∉ blockOrder body, bodyOf body name = []

theorem ReadsBody.mono {parameters : List (String × InternedType)} {body : List BlockText}
    {symbol : String → ℤ → Operand ℕ} {insts insts' : List (Instruction ℕ)}
    {parsed : ParsedBody} (h : ReadsBody parameters body symbol insts parsed)
    (hinsts : insts <+: insts') : ReadsBody parameters body symbol insts' parsed :=
  { h with statements := fun i b hb => (h.statements i b hb).mono prefix_rfl hinsts }

section

variable {base ctx : MirParserContext} {verifySsa : Bool}

theorem holds_enterFunction (base : MirParserContext)
    (parameters : List (String × InternedType)) :
    Holds base ["entryPoint"] (parameterRegisters parameters) (fun _ => [])
      (base.enterFunction parameters) where
  extends_ := { Extends.refl base with }
  names := rfl
  nodup := nodup_singleton _
  registers _ := rfl
  statements i b hb := by
    obtain rfl := mem_singleton.mp (mem_of_getElem? hb)
    exact .nil
  absent _ _ := rfl

variable (verifySsa) in
theorem holds_body (base : MirParserContext) (parameters : List (String × InternedType))
    (body : List BlockText)
    (herror : (body.foldl (parseBasicBlock verifySsa)
      (base.enterFunction parameters)).errorCount = 0) :
    Holds base (blockOrder body)
      (parameterRegisters parameters ++ body.flatMap BlockText.registers) (bodyOf body)
      (body.foldl (parseBasicBlock verifySsa) (base.enterFunction parameters)) := by
  have henter := holds_enterFunction base parameters
  cases body with
  | nil =>
    have hnil : parameterRegisters parameters ++ ([] : List BlockText).flatMap
        BlockText.registers = parameterRegisters parameters := append_nil _
    rw [hnil]
    exact henter
  | cons b rest => exact holds_skeleton henter b rest herror

theorem extends_exitFunction (h : FixupsExact ctx) : Extends ctx ctx.exitFunction := by
  unfold exitFunction
  rw [h.resolvePendingFunctionFixups]
  exact { Extends.refl ctx with errorCount := le_add_right _ _ }

theorem FixupsExact.exitFunction (h : FixupsExact ctx) : FixupsExact ctx.exitFunction := by
  unfold MirParserContext.exitFunction FixupsExact
  rw [h.resolvePendingFunctionFixups]
  exact h

theorem readsBody_parseFunctionBody (hbase : FixupsExact base)
    (parameters : List (String × InternedType)) (body : List BlockText)
    (herror : (parseFunctionBody verifySsa base parameters body).2.errorCount = 0) :
    ReadsBody parameters body base.earlySymbol
      (parseFunctionBody verifySsa base parameters body).2.instructions
      (parseFunctionBody verifySsa base parameters body).1 := by
  have henter : FixupsExact (base.enterFunction parameters) := hbase
  have hexit := extends_exitFunction (henter.blocks verifySsa body)
  have h := holds_body verifySsa base parameters body
    (eq_zero_of_le_zero (herror ▸ hexit.errorCount))
  exact
    { names := h.names
      nodup := h.nodup
      registers := h.registers
      statements := fun i b hb => (h.statements i b hb).mono prefix_rfl hexit.instructions
      absent := h.absent }

variable (verifySsa) in
theorem extends_parseFunctionBody (hbase : FixupsExact base)
    (parameters : List (String × InternedType)) (body : List BlockText) :
    Extends base (parseFunctionBody verifySsa base parameters body).2 := by
  have henter : FixupsExact (base.enterFunction parameters) := hbase
  have hextends : Extends base (base.enterFunction parameters) := { Extends.refl base with }
  exact hextends.trans ((extends_blocks _ _ body).trans
    (extends_exitFunction (henter.blocks verifySsa body)))

theorem FixupsExact.parseFunctionBody (hbase : FixupsExact base)
    (parameters : List (String × InternedType)) (body : List BlockText) :
    FixupsExact (parseFunctionBody verifySsa base parameters body).2 := by
  have henter : FixupsExact (base.enterFunction parameters) := hbase
  exact (henter.blocks verifySsa body).exitFunction

end

/-! ## Objects -/

/-- An object reads as a declaration, with a condition on the body of a function. -/
inductive ReadsObject
    (reads : List (String × InternedType) → List BlockText → ParsedBody → Prop) :
    TopLevelText → ParsedObject → Prop
  | globalVar (name : String) (type : InternedType) :
      ReadsObject reads (.globalVar name type) (.globalVar name type)
  | declare (name : String) (returnType : InternedType) (parameterTypes : List InternedType) :
      ReadsObject reads (.declare name returnType parameterTypes)
        (.function name (.getFuncType returnType parameterTypes) parameterTypes none)
  | prototype (f : FunctionText) (h : f.body = none) :
      ReadsObject reads (.fn f)
        (.function f.name (.getFuncType f.returnType []) (f.parameters.map Prod.snd) none)
  | fn (f : FunctionText) {body : List BlockText} {parsed : ParsedBody} (h : f.body = some body)
      (hread : reads f.parameters body parsed) :
      ReadsObject reads (.fn f)
        (.function f.name (.getFuncType f.returnType []) (f.parameters.map Prod.snd) (some parsed))

theorem ReadsObject.mono
    {reads reads' : List (String × InternedType) → List BlockText → ParsedBody → Prop}
    {o : ParsedObject} (h : ReadsObject reads d o)
    (himp : ∀ parameters body parsed, reads parameters body parsed →
      reads' parameters body parsed) :
    ReadsObject reads' d o := by
  cases h with
  | globalVar name type => exact .globalVar name type
  | declare name returnType parameterTypes => exact .declare name returnType parameterTypes
  | prototype f h => exact .prototype f h
  | fn f h hread => exact .fn f h (himp _ _ _ hread)

/-- The condition while the module is parsed. -/
def ModuleText.ReadsAt (text : ModuleText) (i : ℕ) (insts : List (Instruction ℕ))
    (parameters : List (String × InternedType)) (body : List BlockText) (parsed : ParsedBody) :
    Prop :=
  ReadsBody parameters body (text.earlySymbol i) insts parsed

/-- The module read up to `i`. -/
structure ReadsModule (text : ModuleText) (i : ℕ) (ctx : MirParserContext) : Prop where
  tables : TablesRead text i i ctx
  length : ctx.objects.length = i
  fixups : FixupsExact ctx
  objects : ∀ (j : ℕ) (d : TopLevelText) (o : ParsedObject), text[j]? = some d →
    ctx.objects[j]? = some o → ReadsObject (text.ReadsAt j ctx.instructions) d o

section

variable {text : ModuleText} {i : ℕ} {ctx ctx' : MirParserContext} {verifySsa : Bool}

theorem ReadsModule.append (h : ReadsModule text i ctx)
    (htables : TablesRead text (i + 1) (i + 1) ctx') (hobjects : ctx'.objects = ctx.objects)
    (hinsts : ctx.instructions <+: ctx'.instructions) (hfixups : FixupsExact ctx')
    {o : ParsedObject} (hi : text[i]? = some d)
    (hread : ReadsObject (text.ReadsAt i ctx'.instructions) d o) :
    ReadsModule text (i + 1) (ctx'.append o) where
  tables := ⟨htables.globals, htables.functions⟩
  length := by
    rw [MirParserContext.append, length_append, hobjects, h.length, length_singleton]
  fixups := hfixups
  objects j d' o' hd ho := by
    simp only [MirParserContext.append] at ho ⊢
    rw [hobjects] at ho
    rcases lt_or_ge j ctx.objects.length with hj | hj
    · rw [getElem?_append_left hj] at ho
      exact (h.objects j d' o' hd ho).mono fun _ _ _ hbody => ReadsBody.mono hbody hinsts
    · rw [getElem?_append_right hj] at ho
      obtain rfl := mem_singleton.mp (mem_of_getElem? ho)
      obtain ⟨hlt, -⟩ := List.getElem?_eq_some_iff.mp ho
      have hji : j = i := by
        rw [length_singleton] at hlt
        have hlength := h.length
        omega
      subst hji
      obtain rfl := some.inj (hi.symm.trans hd)
      exact hread

theorem ReadsModule.createId (h : ReadsModule text i ctx) : ctx.createId = i := h.length

theorem ReadsModule.next (h : ReadsModule text i ctx) (hi : text[i]? = some d)
    (herror : (parseTopLevelDecl verifySsa ctx d).errorCount = 0) :
    ReadsModule text (i + 1) (parseTopLevelDecl verifySsa ctx d) := by
  cases d with
  | globalVar name type =>
    simp only [parseTopLevelDecl, h.createId]
    exact h.append (h.tables.declareGlobal hi) rfl prefix_rfl h.fixups hi
      (.globalVar name type)
  | declare name returnType parameterTypes =>
    have htables := (h.tables.declareFunction name hi fun _ => rfl).skipGlobal
      fun n => by simp [isGlobal, hi, TopLevelText.isGlobal]
    simp only [parseTopLevelDecl, h.createId]
    exact h.append htables rfl prefix_rfl h.fixups hi (.declare name returnType _)
  | fn f =>
    have hdeclared := h.tables.declareFunction f.name hi fun _ => rfl
    have hskip : ∀ n, text.isGlobal n i = false := fun n => by
      simp [isGlobal, hi, TopLevelText.isGlobal]
    simp only [parseTopLevelDecl, parseFunctionDef, h.createId] at herror ⊢
    split at herror <;> rename_i hbody
    · exact h.append (hdeclared.skipGlobal hskip) rfl prefix_rfl h.fixups hi
        (.prototype f hbody)
    · next body =>
        have hbase : FixupsExact (ctx.declareFunction f.name ⟨i, (TopLevelText.fn f).type⟩) :=
          h.fixups
        have hextends := extends_parseFunctionBody verifySsa hbase
          f.parameters body
        have hread := readsBody_parseFunctionBody hbase f.parameters body herror
        rw [hdeclared.earlySymbol] at hread
        exact h.append ((hdeclared.skipGlobal hskip).of_extends hextends) hextends.objects
          hextends.instructions (hbase.parseFunctionBody f.parameters body) hi
          (.fn f hbody hread)

variable (verifySsa) in
theorem errorCount_parseTopLevelDecl (h : FixupsExact ctx) (d : TopLevelText) :
    ctx.errorCount ≤ (parseTopLevelDecl verifySsa ctx d).errorCount ∧
      FixupsExact (parseTopLevelDecl verifySsa ctx d) := by
  cases d with
  | globalVar name type | declare name returnType parameterTypes => exact ⟨le_refl _, h⟩
  | fn f =>
    simp only [parseTopLevelDecl, parseFunctionDef]
    have hbase : FixupsExact (ctx.declareFunction f.name
        ⟨ctx.createId, (TopLevelText.fn f).type⟩) := h
    split
    · exact ⟨le_refl _, h⟩
    · next body _ =>
        exact ⟨(extends_parseFunctionBody verifySsa hbase f.parameters body).errorCount,
          hbase.parseFunctionBody f.parameters body⟩

variable (verifySsa) in
theorem errorCount_declarations (h : FixupsExact ctx) (rest : ModuleText) :
    ctx.errorCount ≤ (rest.foldl (parseTopLevelDecl verifySsa) ctx).errorCount := by
  induction rest generalizing ctx with
  | nil => exact le_refl _
  | cons d rest ih =>
    obtain ⟨hle, hfixups⟩ := errorCount_parseTopLevelDecl verifySsa h d
    exact le_trans hle (ih hfixups)

theorem ReadsModule.run (h : ReadsModule text i ctx) {rest : ModuleText}
    (hrest : text.drop i = rest)
    (herror : (rest.foldl (parseTopLevelDecl verifySsa) ctx).errorCount = 0) :
    ReadsModule text (i + rest.length) (rest.foldl (parseTopLevelDecl verifySsa) ctx) := by
  induction rest generalizing ctx i with
  | nil => exact h
  | cons d rest ih =>
    have hi : text[i]? = some d := by
      rw [← add_zero i, ← getElem?_drop, hrest]
      rfl
    obtain ⟨-, hfixups⟩ := errorCount_parseTopLevelDecl verifySsa h.fixups d
    have hle := errorCount_declarations verifySsa hfixups rest
    have hnext := h.next hi (eq_zero_of_le_zero (herror ▸ hle))
    have hdrop : text.drop (i + 1) = rest := by rw [← drop_drop, hrest, drop_one]; rfl
    have hlast := ih hnext hdrop herror
    rw [add_right_comm] at hlast
    exact hlast

end

/-!
## The parsed module by names

The instructions of a block with every block by its label. In a module without errors
they are what the statements under the label say, whether a symbol was known when it was
read or was patched at the end.
-/

/-! ## Renaming -/

def ReferenceTarget.rename {β γ : Type} (σ : ℕ → ℕ) (name : β → γ) :
    ReferenceTarget β → ReferenceTarget γ
  | Block block => .Block (name block)
  | Function id => .Function (σ id)
  | GlobalVar id => .GlobalVar (σ id)

/-- Objects are renamed by `σ` and blocks by `name`. -/
def Operand.rename {β γ : Type} (σ : ℕ → ℕ) (name : β → γ) : Operand β → Operand γ
  | register n => .register n
  | memory type base displ index scale => .memory type base displ index scale
  | integer type value => .integer type value
  | floatingPoint type bits => .floatingPoint type bits
  | reference target offset type => .reference (target.rename σ name) offset type
  | runtimeSymbol n => .runtimeSymbol n

def Instruction.rename {β γ : Type} (σ : ℕ → ℕ) (name : β → γ) (inst : Instruction β) :
    Instruction γ :=
  ⟨inst.opcode, inst.operands.map (Operand.rename σ name)⟩

variable {β : Type} {σ : ℕ → ℕ}

theorem ReferenceTarget.rename_injective (hσ : σ.Injective) :
    (ReferenceTarget.rename (β := β) σ id).Injective := by
  intro a b h
  cases a <;> cases b <;> simp_all [ReferenceTarget.rename] <;> exact hσ h

theorem Operand.rename_injective (hσ : σ.Injective) :
    (Operand.rename (β := β) σ id).Injective := by
  intro a b h
  cases a <;> cases b <;> simp_all [Operand.rename]
  exact ReferenceTarget.rename_injective hσ h.1

theorem Instruction.rename_injective (hσ : σ.Injective) :
    (Instruction.rename (β := β) σ id).Injective := by
  intro a b h
  rw [Instruction.rename, Instruction.rename, Instruction.mk.injEq] at h
  obtain ⟨hop, hoperands⟩ := h
  cases a
  cases b
  rw [Instruction.mk.injEq]
  exact ⟨hop, map_injective_iff.mpr (Operand.rename_injective hσ) hoperands⟩

/-! ## Blocks by label -/

def ParsedBody.blockName (parsed : ParsedBody) (b : ℕ) : Option String :=
  parsed.blocks[b]?.map ParsedBlock.name

def ParsedModule.statementsOf (m : ParsedModule) (parsed : ParsedBody) (label : String) :
    Option (List (Option (Instruction (Option String)))) :=
  (parsed.blocks.find? fun b => b.name = label).map fun b =>
    b.instructions.map fun p => m.instructions[p]?.map (Instruction.rename id parsed.blockName)

/-! ## Symbols -/

namespace ModuleText

variable {text : ModuleText}

theorem denotes_cases (text : ModuleText) (i : ℕ) (name : String) :
    text.denotes i name = none ∨
      (∃ x type, text.denotes i name = some x ∧ text[x]? = some (.globalVar name type)) ∨
        ∃ x d, text.denotes i name = some x ∧ text[x]? = some d ∧ d.isFunction name = true := by
  have hglobal : ∀ {n x : ℕ}, lastWhere (text.isGlobal name) n = some x →
      ∃ type, text[x]? = some (.globalVar name type) :=
    fun h => isGlobal_iff.mp (lastWhere_some h).2
  have hfunction : ∀ {n x : ℕ}, lastWhere (text.isFunction name) n = some x →
      ∃ d, text[x]? = some d ∧ d.isFunction name = true :=
    fun h => isFunction_iff.mp (lastWhere_some h).2
  unfold denotes
  cases hg : lastWhere (text.isGlobal name) i with
  | some x =>
    obtain ⟨type, hx⟩ := hglobal hg
    exact .inr (.inl ⟨x, type, rfl, hx⟩)
  | none =>
    cases hf : lastWhere (text.isFunction name) (i + 1) with
    | some x =>
      obtain ⟨d, hx⟩ := hfunction hf
      exact .inr (.inr ⟨x, d, rfl, hx⟩)
    | none =>
      cases hf' : lastWhere (text.isFunction name) text.length with
      | some x =>
        obtain ⟨d, hx⟩ := hfunction hf'
        exact .inr (.inr ⟨x, d, rfl, hx⟩)
      | none =>
        cases hg' : lastWhere (text.isGlobal name) text.length with
        | some x =>
          obtain ⟨type, hx⟩ := hglobal hg'
          exact .inr (.inl ⟨x, type, rfl, hx⟩)
        | none => exact .inl rfl

section

variable {β : Type} {i x : ℕ} {name : String}

theorem symbolMeaning_none (h : text.denotes i name = none) (offset : ℤ) :
    text.symbolMeaning (β := β) i name offset = .runtimeSymbol name := by
  rw [symbolMeaning, h]

theorem symbolMeaning_global {type : InternedType} (h : text.denotes i name = some x)
    (hx : text[x]? = some (.globalVar name type)) (offset : ℤ) :
    text.symbolMeaning (β := β) i name offset =
      .globalRef ⟨x, type⟩ (if x < i then .ofInt 64 offset else 0) := by
  simp only [symbolMeaning, h, hx]

theorem symbolMeaning_function (h : text.denotes i name = some x) (hx : text[x]? = some d)
    (hd : d.isFunction name = true) (offset : ℤ) :
    text.symbolMeaning (β := β) i name offset = .functionRef ⟨x, d.type⟩ := by
  simp only [symbolMeaning, h, hx]
  cases d with
  | globalVar n type => cases hd
  | declare n r ps | fn f => rfl

theorem symbolAt_of_getElem? (hx : text[x]? = some d) : text.symbolAt x = some ⟨x, d.type⟩ := by
  rw [symbolAt, hx]
  rfl

end

/-- A symbol that was known when it was read stays; another one gets the meaning it has
at the end. -/
theorem patch_earlySymbol {ctx : MirParserContext} (h : TablesRead text text.length text.length ctx)
    (name : String) (offset : ℤ) :
    (text.earlySymbol i name offset : Operand ℕ).patch ctx.lateSymbol =
      text.symbolMeaning i name offset := by
  have hearly :
      ∀ gv fn : Option Symbol, (lastWhere (text.isGlobal name) i).bind text.symbolAt = gv →
      (lastWhere (text.isFunction name) (i + 1)).bind text.symbolAt = fn →
      (text.earlySymbol i name offset : Operand ℕ) = .ofTables gv fn name offset := by
    rintro gv fn rfl rfl
    rfl
  cases hg : lastWhere (text.isGlobal name) i with
  | some x =>
    obtain ⟨hlt, hx⟩ := lastWhere_some hg
    obtain ⟨type, hx⟩ := isGlobal_iff.mp hx
    have hdenotes : text.denotes i name = some x := by rw [denotes, hg]; rfl
    rw [hearly _ _ (by rw [hg, bind_some, symbolAt_of_getElem? hx]) rfl,
      symbolMeaning_global hdenotes hx, if_pos hlt]
    rfl
  | none =>
    cases hf : lastWhere (text.isFunction name) (i + 1) with
    | some x =>
      obtain ⟨d, hx, hd⟩ := isFunction_iff.mp (lastWhere_some hf).2
      have hdenotes : text.denotes i name = some x := by rw [denotes, hg, hf]; rfl
      rw [hearly _ _ (by rw [hg, bind_none])
          (by rw [hf, bind_some, symbolAt_of_getElem? hx]),
        symbolMeaning_function hdenotes hx hd]
      rfl
    | none =>
      rw [hearly none none (by rw [hg, bind_none]) (by rw [hf, bind_none])]
      simp only [Operand.ofTables, Operand.patch, lateSymbol, h.functions,
        h.globals]
      cases hf' : lastWhere (text.isFunction name) text.length with
      | some x =>
        obtain ⟨d, hx, hd⟩ := isFunction_iff.mp (lastWhere_some hf').2
        have hdenotes : text.denotes i name = some x := by rw [denotes, hg, hf, hf']; rfl
        rw [bind_some, symbolAt_of_getElem? hx, symbolMeaning_function hdenotes hx hd]
      | none =>
        cases hg' : lastWhere (text.isGlobal name) text.length with
        | some x =>
          have hxglobal := (lastWhere_some hg').2
          obtain ⟨type, hx⟩ := isGlobal_iff.mp hxglobal
          have hdenotes : text.denotes i name = some x := by
            rw [denotes, hg, hf, hf', hg']; rfl
          have hnot : ¬ x < i := fun hlt => by
            rw [lastWhere_none.mp hg x hlt] at hxglobal
            cases hxglobal
          rw [symbolMeaning_global hdenotes hx, if_neg hnot, bind_none,
            bind_some, symbolAt_of_getElem? hx]
          rfl
        | none =>
          have hdenotes : text.denotes i name = none := by
            rw [denotes, hg, hf, hf', hg']; rfl
          rw [symbolMeaning_none hdenotes]
          rfl

theorem rename_symbolMeaning {β γ : Type} (f : β → γ) (i : ℕ) (name : String) (offset : ℤ) :
    (text.symbolMeaning i name offset : Operand β).rename id f =
      text.symbolMeaning i name offset := by
  rcases text.denotes_cases i name with h | ⟨x, type, h, hx⟩ | ⟨x, d, h, hx, hd⟩
  · rw [symbolMeaning_none h, symbolMeaning_none h]
    rfl
  · rw [symbolMeaning_global h hx, symbolMeaning_global h hx]
    rfl
  · rw [symbolMeaning_function h hx hd, symbolMeaning_function h hx hd]
    rfl

end ModuleText

/-! ## Instructions -/

section

variable {text : ModuleText} {i : ℕ} {ctx : MirParserContext} {names : List String}

theorem ValueText.rename_patch_meaning (v : ValueText) (expected : Option InternedType)
    (late : String → Operand ℕ) (f : ℕ → Option String) :
    ((v.meaning expected : Operand ℕ).patch late).rename id f = v.meaning expected := by
  cases v <;> rfl

section

variable (h : TablesRead text text.length text.length ctx)
include h

theorem ReadsOperand.rename_patch {expected : Option InternedType} {t : OperandText}
    {op : Operand ℕ} (hread : ReadsOperand names (text.earlySymbol i) expected t op) :
    (op.patch ctx.lateSymbol).rename id (fun b => names[b]?) =
      t.meaning (text.symbolMeaning i) expected := by
  cases hread with
  | label hb => exact congrArg Operand.blockRef hb
  | value v | pair v block => exact v.rename_patch_meaning expected _ _
  | memory base terms => rfl
  | symbol name offset =>
    rw [patch_earlySymbol h, rename_symbolMeaning]
    rfl

theorem ReadsOperands.rename_patch {type : Option InternedType}
    {texts : List (Option InternedType × OperandText)} {operands : List (Operand ℕ)}
    (hread : ReadsOperands names (text.earlySymbol i) type texts operands) :
    (operands.map (Operand.patch ctx.lateSymbol)).map (Operand.rename id fun b => names[b]?) =
      texts.map fun op => op.2.meaning (text.symbolMeaning i) (op.1.or type) := by
  induction hread with
  | nil => rfl
  | cons hop _ ih => rw [map_cons, map_cons, map_cons, ih, hop.rename_patch h]

theorem ReadsStatement.rename_patch {s : StatementText} {inst : Instruction ℕ}
    (hread : ReadsStatement names (text.earlySymbol i) s inst) :
    (inst.patch ctx.lateSymbol).rename id (fun b => names[b]?) =
      s.meaning (text.symbolMeaning i) := by
  obtain ⟨read, hoperands, hreads⟩ := hread.operands
  have hdst : ((s.dst.toList.map Operand.register).map (Operand.patch ctx.lateSymbol)).map
      (Operand.rename id fun b => names[b]?) = s.dst.toList.map .register := by
    cases s.dst <;> rfl
  unfold Instruction.rename Instruction.patch StatementText.meaning
  dsimp only
  rw [hread.opcode, hoperands, map_append, map_append, hdst, hreads.rename_patch h]

theorem ReadsStatements.rename_patch {insts : List (Instruction ℕ)} {pointers : List ℕ}
    {statements : List StatementText}
    (hread : ReadsStatements names (text.earlySymbol i) insts pointers statements) :
    (pointers.map fun p => (insts.map (Instruction.patch ctx.lateSymbol))[p]?.map
        (Instruction.rename id fun b => names[b]?)) =
      statements.map fun s => some (s.meaning (text.symbolMeaning i)) := by
  induction hread with
  | nil => rfl
  | cons hinst _ ih =>
    obtain ⟨inst, hp, hs⟩ := hinst
    rw [map_cons, map_cons, ih, getElem?_map, hp, map_some,
      map_some, hs.rename_patch h]

end

def ModuleText.MeansBody (text : ModuleText) (i : ℕ) (m : ParsedModule)
    (parameters : List (String × InternedType)) (body : List BlockText) (parsed : ParsedBody) :
    Prop :=
  parsed.blocks.map ParsedBlock.name = blockOrder body ∧
    (∀ name, lookup parsed.registers name = registerType parameters body name) ∧
      (∀ label, m.statementsOf parsed label =
        if label ∈ blockOrder body then
          some ((bodyOf body label).map fun s => some (s.meaning (text.symbolMeaning i)))
        else none) ∧
        ∀ label ∉ blockOrder body, bodyOf body label = []

theorem ModuleText.ReadsAt.means (h : TablesRead text text.length text.length ctx)
    {m : ParsedModule}
    (hm : m.instructions = ctx.instructions.map (Instruction.patch ctx.lateSymbol))
    {parameters : List (String × InternedType)} {body : List BlockText} {parsed : ParsedBody}
    (hread : text.ReadsAt i ctx.instructions parameters body parsed) :
    text.MeansBody i m parameters body parsed := by
  refine ⟨hread.names, hread.registers, fun label => ?_, hread.absent⟩
  have hnames : parsed.blockName = fun b => (blockOrder body)[b]? := by
    funext b
    rw [← hread.names, getElem?_map]
    rfl
  unfold ParsedModule.statementsOf
  rw [hm, hnames]
  cases hfind : parsed.blocks.find? fun b => decide (b.name = label) with
  | none =>
    have habsent : label ∉ blockOrder body := by
      rw [← hread.names, List.mem_map]
      rintro ⟨b, hb, hname⟩
      have hne := find?_eq_none.mp hfind b hb
      exact hne (decide_eq_true hname)
    rw [if_neg habsent]
    rfl
  | some b =>
    have hfound := find?_some hfind
    have hname : b.name = label := of_decide_eq_true hfound
    have hmem := mem_of_find?_eq_some hfind
    obtain ⟨place, hplace⟩ := mem_iff_getElem?.mp hmem
    have hpresent : label ∈ blockOrder body := by
      rw [← hread.names, ← hname]
      exact mem_map_of_mem hmem
    rw [if_pos hpresent, map_some]
    congr 1
    have hstatements := hread.statements place b hplace
    rw [hname] at hstatements
    exact hstatements.rename_patch h

end

/-! ## The module -/

/-- The module that is left reads as the text. -/
structure Means (text : ModuleText) (m : ParsedModule) : Prop where
  length : m.objects.length = text.length
  objects : ∀ (i : ℕ) (d : TopLevelText) (o : ParsedObject), text[i]? = some d →
    m.objects[i]? = some o → ReadsObject (text.MeansBody i m) d o

theorem readsModule_initial (text : ModuleText) : ReadsModule text 0 .initial where
  tables := ⟨fun _ => rfl, fun _ => rfl⟩
  length := rfl
  fixups := rfl
  objects _ _ _ _ ho := by cases ho

/-- A module without errors says what its text says. -/
theorem means_parseModule {verifySsa : Bool} {text : ModuleText} {m : ParsedModule}
    (h : parseModule verifySsa text = some m) : Means text m := by
  have hinitial := readsModule_initial text
  unfold parseModule at h
  dsimp only at h
  split at h
  · next herror =>
      obtain rfl := some.inj h
      have hfixups : FixupsExact (text.foldl (parseTopLevelDecl verifySsa) .initial) := by
        have hall : ∀ (rest : ModuleText) (ctx : MirParserContext), FixupsExact ctx →
            FixupsExact (rest.foldl (parseTopLevelDecl verifySsa) ctx) := by
          intro rest
          induction rest with
          | nil => exact fun ctx hctx => hctx
          | cons d rest ih =>
            exact fun ctx hctx => ih _ (errorCount_parseTopLevelDecl verifySsa hctx d).2
        exact hall text .initial rfl
      have hpatched := hfixups.resolveAllPendingFixups
      have hrun := hinitial.run drop_zero
        (eq_zero_of_le_zero (herror ▸ hpatched.errorCount))
      rw [zero_add] at hrun
      refine ⟨by rw [hpatched.objects, hrun.length], fun i d o hd ho => ?_⟩
      rw [hpatched.objects] at ho
      exact (hrun.objects i d o hd ho).mono fun _ _ _ hread =>
        hread.means hrun.tables hpatched.instructions
  · cases h

end EzPacker.DeclarationOrder
