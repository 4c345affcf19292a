import EzPacker.DeclarationOrder.Fixups

/-!
# Function bodies

While a body is parsed its blocks are the labels in the order of their first mention,
and the instructions of a block read as the statements under its label. A symbol reads
as what its name stands for when the function is parsed.
-/

namespace EzPacker.DeclarationOrder

open MirParserContext List Option FirstMention

/-! ## Instructions and statements -/

def Operand.ofTables {β : Type} (global function : Option Symbol) (name : String)
    (offset : ℤ) : Operand β :=
  match global, function with
  | some gv, _ => .globalRef gv (.ofInt 64 offset)
  | none, some fn => .functionRef fn
  | none, none => .runtimeSymbol name

/-- What a name stands for so far. -/
def MirParserContext.earlySymbol {β : Type} (ctx : MirParserContext) (name : String)
    (offset : ℤ) : Operand β :=
  .ofTables (ctx.resolveGlobal name) (ctx.resolveFunction name) name offset

/-- An operand reads as its text, in a function with these blocks. -/
inductive ReadsOperand (names : List String) (symbol : String → ℤ → Operand ℕ)
    (expected : Option InternedType) : OperandText → Operand ℕ → Prop
  | label {block : String} {b : ℕ} (h : names[b]? = some block) :
      ReadsOperand names symbol expected (.label block) (.blockRef b)
  | value (v : ValueText) : ReadsOperand names symbol expected (.value v) (v.meaning expected)
  | pair (v : ValueText) (block : String) :
      ReadsOperand names symbol expected (.pair v block) (v.meaning expected)
  | memory (base : String) (terms : List MemoryTerm) :
      ReadsOperand names symbol expected (.memory base terms) (addressMeaning expected base terms)
  | symbol (name : String) (offset : ℤ) :
      ReadsOperand names symbol expected (.symbol name offset) (symbol name offset)

def ReadsOperands (names : List String) (symbol : String → ℤ → Operand ℕ)
    (type : Option InternedType) (texts : List (Option InternedType × OperandText))
    (operands : List (Operand ℕ)) : Prop :=
  Forall₂ (fun t op => ReadsOperand names symbol (t.1.or type) t.2 op) texts operands

/-- An instruction reads as a statement. -/
structure ReadsStatement (names : List String) (symbol : String → ℤ → Operand ℕ)
    (s : StatementText) (inst : Instruction ℕ) : Prop where
  opcode : inst.opcode = s.opcode
  operands : ∃ read, inst.operands = s.dst.toList.map .register ++ read ∧
    ReadsOperands names symbol s.type s.operands read

def ReadsStatements (names : List String) (symbol : String → ℤ → Operand ℕ)
    (insts : List (Instruction ℕ)) (pointers : List ℕ) (statements : List StatementText) :
    Prop :=
  Forall₂ (fun p s => ∃ inst, insts[p]? = some inst ∧ ReadsStatement names symbol s inst)
    pointers statements

variable {α : Type}

section

variable {names names' : List String} {symbol : String → ℤ → Operand ℕ}
  {expected : Option InternedType}

theorem getElem?_eq_of_isPrefix {as bs : List α} (h : as <+: bs) {i : ℕ} {a : α}
    (ha : as[i]? = some a) : bs[i]? = some a := by
  obtain ⟨rest, rfl⟩ := h
  exact List.getElem?_append_left (List.getElem?_eq_some_iff.mp ha).1 |>.trans ha

section

variable (hnames : names <+: names')
include hnames

theorem ReadsOperand.mono {t : OperandText} {op : Operand ℕ}
    (h : ReadsOperand names symbol expected t op) : ReadsOperand names' symbol expected t op := by
  cases h with
  | label h => exact .label (getElem?_eq_of_isPrefix hnames h)
  | value v => exact .value v
  | pair v block => exact .pair v block
  | memory base terms => exact .memory base terms
  | symbol name offset => exact .symbol name offset

theorem ReadsOperands.mono {texts : List (Option InternedType × OperandText)}
    {operands : List (Operand ℕ)} (h : ReadsOperands names symbol expected texts operands) :
    ReadsOperands names' symbol expected texts operands :=
  Forall₂.imp (fun _ _ hop => hop.mono hnames) h

theorem ReadsStatement.mono {s : StatementText} {inst : Instruction ℕ}
    (h : ReadsStatement names symbol s inst) : ReadsStatement names' symbol s inst := by
  obtain ⟨read, heq, hread⟩ := h.operands
  exact ⟨h.opcode, read, heq, hread.mono hnames⟩

theorem ReadsStatements.mono {insts insts' : List (Instruction ℕ)} (hinsts : insts <+: insts')
    {pointers : List ℕ} {statements : List StatementText}
    (h : ReadsStatements names symbol insts pointers statements) :
    ReadsStatements names' symbol insts' pointers statements :=
  Forall₂.imp
    (fun _ _ hread => by
      obtain ⟨inst, hinst, hs⟩ := hread
      exact ⟨inst, getElem?_eq_of_isPrefix hinsts hinst, hs.mono hnames⟩) h

end

end

/-! ## Lookup -/

theorem lookup_append (as bs : List (String × α)) (name : String) :
    lookup (as ++ bs) name = (lookup as name).or (lookup bs name) := by
  unfold lookup
  rw [find?_append]
  cases find? (fun entry => decide (entry.1 = name)) as <;> rfl

theorem lookup_cons (n : String) (a : α) (table : List (String × α)) (name : String) :
    lookup ((n, a) :: table) name = if n = name then some a else lookup table name := by
  unfold lookup
  rw [find?_cons]
  by_cases h : n = name <;> simp [h]

theorem lookup_singleton (n : String) (a : α) (name : String) :
    lookup [(n, a)] name = if n = name then some a else none :=
  lookup_cons n a [] name

/-! ## The invariant -/

/-- The body read so far, in a function that was entered from `base`. -/
structure Holds (base : MirParserContext) (order : List String)
    (seen : List (String × InternedType)) (body : String → List StatementText)
    (ctx : MirParserContext) : Prop where
  extends_ : Extends base ctx
  names : ctx.blocks.map ParsedBlock.name = order
  nodup : order.Nodup
  registers : ∀ name, ctx.resolveRegister name = lookup seen name
  statements : ∀ (i : ℕ) (b : ParsedBlock), ctx.blocks[i]? = some b →
    ReadsStatements order base.earlySymbol ctx.instructions b.instructions (body b.name)
  absent : ∀ name ∉ order, body name = []

section

variable {base ctx ctx' : MirParserContext} {order : List String}
  {seen : List (String × InternedType)} {body : String → List StatementText}

variable {name : String} {verifySsa : Bool}

section

variable (h : Holds base order seen body ctx)
include h

/-- What a step may change that the invariant does not see. -/
theorem Holds.of_extends (hextends : Extends ctx ctx') (hblocks : ctx'.blocks = ctx.blocks)
    (hregisters : ctx'.registers = ctx.registers) : Holds base order seen body ctx' where
  extends_ := h.extends_.trans hextends
  names := by rw [hblocks, h.names]
  nodup := h.nodup
  registers name := by
    unfold resolveRegister
    rw [hregisters]
    exact h.registers name
  statements i b hb := by
    rw [hblocks] at hb
    exact (h.statements i b hb).mono prefix_rfl hextends.instructions
  absent := h.absent

theorem Holds.earlySymbol : ctx.earlySymbol (β := ℕ) = base.earlySymbol := by
  funext name offset
  unfold MirParserContext.earlySymbol MirParserContext.resolveFunction
    resolveGlobal
  rw [h.extends_.functions, h.extends_.globals]

/-! ### Registers -/

theorem Holds.getOrCreateRegister (name : String) (type : Option InternedType) :
    Holds base order (seen ++ [(name, type.getD .i64)]) body
      (ctx.getOrCreateRegister name type) := by
  have hextends := (records_getOrCreateRegister ctx name type).extends
  have hname := h.registers name
  unfold MirParserContext.getOrCreateRegister at hextends ⊢
  split
  · next found hfound =>
      refine { h with registers := fun n => ?_ }
      rw [h.registers, lookup_append, lookup_singleton]
      split
      · next heq =>
          subst heq
          rw [← hname, hfound]
          rfl
      · rw [or_none]
  · next hnone =>
      rw [hnone] at hextends
      refine { h with extends_ := h.extends_.trans hextends, registers := fun n => ?_ }
      have hn := h.registers n
      unfold resolveRegister at hn ⊢
      rw [lookup_append, lookup_append, hn]

theorem Holds.registersOf (entries : List (String × InternedType)) :
    Holds base order (seen ++ entries) body
      (entries.foldl (fun ctx entry => ctx.getOrCreateRegister entry.1 (some entry.2)) ctx) := by
  induction entries generalizing seen ctx with
  | nil => simpa using h
  | cons entry rest ih =>
    have hrest := ih (h.getOrCreateRegister entry.1 (some entry.2))
    rw [append_assoc] at hrest
    exact hrest

theorem Holds.parseValue (expected : Option InternedType) (v : ValueText) :
    (parseValue ctx expected v).1 = v.meaning expected ∧
      Holds base order (seen ++ v.registers expected) body (parseValue ctx expected v).2 := by
  cases v with
  | register name => exact ⟨rfl, h.getOrCreateRegister name expected⟩
  | integer value | floatingPoint bits => exact ⟨rfl, (append_nil seen).symm ▸ h⟩

/-! ### Blocks -/

theorem Holds.resolveBlock_some {b : ℕ} (hb : ctx.resolveBlock name = some b) :
    order[b]? = some name := by
  unfold resolveBlock at hb
  obtain ⟨hlt, hname, -⟩ := findIdx?_eq_some_iff_getElem.mp hb
  rw [← h.names, getElem?_map, getElem?_eq_getElem hlt]
  exact congrArg some (of_decide_eq_true hname)

theorem Holds.resolveBlock_none (hb : ctx.resolveBlock name = none) : name ∉ order := by
  unfold resolveBlock at hb
  rw [List.findIdx?_eq_none_iff] at hb
  rw [← h.names, List.mem_map]
  rintro ⟨b, hmem, hname⟩
  exact of_decide_eq_false (hb b hmem) hname

/-- A new label gets the last place. -/
theorem Holds.createBlock (hname : name ∉ order) :
    (order ++ [name])[(ctx.createBlock name).1]? = some name ∧
      Holds base (order ++ [name]) seen body (ctx.createBlock name).2 := by
  have hlength : ctx.blocks.length = order.length := by rw [← h.names, length_map]
  have hpre : order <+: order ++ [name] := prefix_append _ _
  refine ⟨?_, { h with extends_ := ?_, names := ?_, nodup := ?_, statements := ?_, absent := ?_ }⟩
  · simp [MirParserContext.createBlock, hlength]
  · exact h.extends_.trans { Extends.refl ctx with }
  · simp [MirParserContext.createBlock, h.names]
  · exact nodup_append.mpr ⟨h.nodup, nodup_singleton _, fun a ha b hb hab =>
      hname (mem_singleton.mp hb ▸ hab ▸ ha)⟩
  · intro i b hb
    rw [MirParserContext.createBlock] at hb ⊢
    rcases Nat.lt_or_ge i ctx.blocks.length with hi | hi
    · rw [getElem?_append_left hi] at hb
      exact (h.statements i b hb).mono hpre prefix_rfl
    · rw [getElem?_append_right hi] at hb
      obtain rfl : b = ⟨name, []⟩ := mem_singleton.mp (mem_of_getElem? hb)
      rw [h.absent name hname]
      exact Forall₂.nil
  · intro n hn
    exact h.absent n fun hmem => hn (hpre.subset hmem)

/-- A mention of a label. -/
theorem Holds.getOrCreateBlock (name : String) :
    (note order name)[(ctx.getOrCreateBlock name).1]? = some name ∧
      Holds base (note order name) seen body (ctx.getOrCreateBlock name).2 := by
  have h' : Holds base order seen body
      { ctx with referencedBlocks := ctx.referencedBlocks.insert name } :=
    h.of_extends { Extends.refl ctx with } rfl rfl
  unfold MirParserContext.getOrCreateBlock
  dsimp only
  split
  · next b hb =>
      have hget := h'.resolveBlock_some hb
      have hmem := mem_of_getElem? hget
      rw [note, if_pos hmem]
      exact ⟨hget, h'⟩
  · next hb =>
      have hmem := h'.resolveBlock_none hb
      rw [note, if_neg hmem]
      exact h'.createBlock hmem

/-! ### Statements -/

theorem Holds.parseOperand {i : ℕ} {expected : Option InternedType} {t : OperandText}
    {op : Operand ℕ} (heq : parseOperand ctx i expected t = (some op, ctx')) :
    ReadsOperand (noteAll order t.labels) base.earlySymbol expected t op ∧
      Holds base (noteAll order t.labels) (seen ++ t.registers expected) body ctx' := by
  cases t with
  | label block =>
    obtain ⟨hget, hctx⟩ := h.getOrCreateBlock block
    simp only [DeclarationOrder.parseOperand, Prod.mk.injEq, some.injEq] at heq
    obtain ⟨rfl, rfl⟩ := heq
    exact ⟨.label hget, (append_nil seen).symm ▸ hctx⟩
  | value v =>
    obtain ⟨hop, hctx⟩ := h.parseValue expected v
    simp only [DeclarationOrder.parseOperand, Prod.mk.injEq, some.injEq] at heq
    obtain ⟨rfl, rfl⟩ := heq
    exact ⟨hop ▸ .value v, hctx⟩
  | pair v block =>
    obtain ⟨hop, hctx⟩ := (h.getOrCreateBlock block).2.parseValue expected v
    simp only [DeclarationOrder.parseOperand, Prod.mk.injEq, some.injEq] at heq
    obtain ⟨rfl, rfl⟩ := heq
    exact ⟨hop ▸ .pair v block, hctx⟩
  | memory mbase terms =>
    have hctx := h.registersOf (addressRegisters mbase terms)
    simp only [DeclarationOrder.parseOperand, parseMemoryOperand] at heq
    split at heq
    · simp only [Prod.mk.injEq, some.injEq] at heq
      obtain ⟨rfl, rfl⟩ := heq
      exact ⟨.memory mbase terms, hctx⟩
    · cases heq
  | symbol name offset =>
    have hop : op = ctx.earlySymbol name offset ∧ Extends ctx ctx' ∧
        ctx'.blocks = ctx.blocks ∧ ctx'.registers = ctx.registers := by
      unfold MirParserContext.earlySymbol
      simp only [DeclarationOrder.parseOperand] at heq
      split at heq <;> rename_i hgv
      · simp only [Prod.mk.injEq, some.injEq] at heq
        obtain ⟨rfl, rfl⟩ := heq
        rw [hgv]
        exact ⟨rfl, .refl ctx, rfl, rfl⟩
      · split at heq <;> rename_i hfn <;>
          simp only [Prod.mk.injEq, some.injEq] at heq <;> obtain ⟨rfl, rfl⟩ := heq <;>
          rw [hgv, hfn]
        · exact ⟨rfl, .refl ctx, rfl, rfl⟩
        · exact ⟨rfl, { Extends.refl ctx with }, rfl, rfl⟩
    obtain ⟨rfl, hextends, hblocks, hregisters⟩ := hop
    rw [h.earlySymbol]
    exact ⟨.symbol name offset, (append_nil seen).symm ▸ h.of_extends hextends hblocks hregisters⟩

theorem Holds.parseOperands {type : Option InternedType} {operands : List (Operand ℕ)}
    {texts : List (Option InternedType × OperandText)} {all : List (Operand ℕ)}
    (heq : parseOperands type ctx operands texts = (some all, ctx')) :
    ∃ read, all = operands ++ read ∧
      ReadsOperands (noteAll order (texts.flatMap fun op => op.2.labels)) base.earlySymbol type
        texts read ∧
      Holds base (noteAll order (texts.flatMap fun op => op.2.labels))
        (seen ++ texts.flatMap fun op => op.2.registers (op.1.or type)) body ctx' := by
  induction texts generalizing ctx order seen operands with
  | nil =>
    simp only [DeclarationOrder.parseOperands, Prod.mk.injEq, some.injEq] at heq
    obtain ⟨rfl, rfl⟩ := heq
    exact ⟨[], (append_nil _).symm, .nil, (append_nil seen).symm ▸ h⟩
  | cons t rest ih =>
    rw [DeclarationOrder.parseOperands] at heq
    split at heq
    · cases heq
    · next op ctx₁ hfirst =>
        obtain ⟨hop, hctx⟩ := h.parseOperand hfirst
        obtain ⟨read, hall, hread, hlast⟩ := ih hctx heq
        rw [flatMap_cons, flatMap_cons, noteAll_append, ← append_assoc]
        refine ⟨op :: read, ?_, .cons (hop.mono (prefix_noteAll _ _)) hread, hlast⟩
        rw [hall, append_assoc, singleton_append]

end

/-- Statements under a label, one more. -/
def addStatement (body : String → List StatementText) (name : String) (s : StatementText) :
    String → List StatementText :=
  fun n => body n ++ if n = name then [s] else []

section

variable (h : Holds base order seen body ctx)
include h

theorem Holds.buildInstruction {block : ℕ} (hblock : order[block]? = some name) {s : StatementText}
    {inst : Instruction ℕ} (hinst : ReadsStatement order base.earlySymbol s inst) :
    Holds base order seen (addStatement body name s) (ctx.buildInstruction block inst).2 := by
  have hmem : name ∈ order := List.mem_of_getElem? hblock
  have hpre : ctx.instructions <+: ctx.instructions ++ [inst] := List.prefix_append _ _
  refine { h with extends_ := ?_, names := ?_, statements := ?_, absent := ?_ }
  · exact h.extends_.trans { Extends.refl ctx with instructions := hpre }
  · rw [← h.names]
    refine List.ext_getElem? fun i => ?_
    simp only [MirParserContext.buildInstruction, List.getElem?_map, List.getElem?_modify]
    cases ctx.blocks[i]? with
    | none => rfl
    | some b => by_cases hi : block = i <;> simp [hi]
  · intro i b hb
    simp only [MirParserContext.buildInstruction, List.getElem?_modify,
      Option.map_eq_map, Option.map_eq_some_iff] at hb ⊢
    obtain ⟨b₀, hb₀, rfl⟩ := hb
    have hold := (h.statements i b₀ hb₀).mono List.prefix_rfl hpre
    have hname : order[i]? = some b₀.name := by rw [← h.names, List.getElem?_map, hb₀]; rfl
    by_cases hi : block = i
    · subst hi
      have hsame : b₀.name = name := Option.some.inj (hname.symm.trans hblock)
      simp only [if_true, addStatement, hsame]
      rw [hsame] at hold
      refine List.rel_append hold (.cons ⟨inst, ?_, hinst⟩ .nil)
      simp
    · have hother : b₀.name ≠ name := fun heq => by
        rw [heq] at hname
        exact hi ((List.getElem?_inj (List.getElem?_eq_some_iff.mp hblock).1 h.nodup).mp
          (hblock.trans hname.symm))
      simp only [if_neg hi, addStatement, if_neg hother, List.append_nil]
      exact hold
  · intro n hn
    have hother : n ≠ name := fun heq => hn (heq ▸ hmem)
    rw [addStatement, if_neg hother, h.absent n hn, List.append_nil]

theorem Holds.parseDestination (verifySsa : Bool) (s : StatementText) :
    (parseDestination verifySsa ctx s).1 = s.dst.toList.map .register ∧
      Holds base order (seen ++ s.dst.toList.map fun dst => (dst, s.type.getD .i64)) body
        (parseDestination verifySsa ctx s).2 := by
  unfold DeclarationOrder.parseDestination
  cases s.dst with
  | none => exact ⟨rfl, (append_nil seen).symm ▸ h⟩
  | some dst =>
    have hdef : Holds base order seen body (ctx.recordRegisterDef dst verifySsa) :=
      h.of_extends (records_recordRegisterDef ctx dst verifySsa).extends
        (by unfold recordRegisterDef; split <;> rfl)
        (by unfold recordRegisterDef; split <;> rfl)
    exact ⟨rfl, hdef.getOrCreateRegister dst s.type⟩

theorem Holds.statement {block : ℕ} (hblock : order[block]? = some name) (s : StatementText)
    (herror : (parseInstructionStatement verifySsa block ctx s).errorCount = 0) :
    Holds base (noteAll order s.labels) (seen ++ s.registers) (addStatement body name s)
      (parseInstructionStatement verifySsa block ctx s) := by
  have hbegin : Holds base order seen body ctx.beginInstruction :=
    h.of_extends { Extends.refl ctx with } rfl rfl
  obtain ⟨hdst, hctx⟩ := hbegin.parseDestination verifySsa s
  unfold parseInstructionStatement at herror ⊢
  dsimp only at herror ⊢
  split
  · next ctx' heq =>
      rw [heq] at herror
      exact absurd herror (Nat.succ_ne_zero _)
  · next all ctx' heq =>
      obtain ⟨read, hall, hread, hlast⟩ := hctx.parseOperands heq
      have hget := getElem?_eq_of_isPrefix
        (prefix_noteAll order (s.operands.flatMap fun op => op.2.labels)) hblock
      have hbuilt := hlast.buildInstruction hget
        (show ReadsStatement _ base.earlySymbol s ⟨s.opcode, all⟩ from
          ⟨rfl, read, hall.trans (by rw [hdst]), hread⟩)
      rw [append_assoc] at hbuilt
      exact hbuilt.of_extends { Extends.refl _ with } rfl rfl

theorem Holds.statementsOf {block : ℕ} (hblock : order[block]? = some name)
    (insts : List StatementText)
    (herror : (insts.foldl (parseInstructionStatement verifySsa block) ctx).errorCount = 0) :
    Holds base (noteAll order (insts.flatMap StatementText.labels))
      (seen ++ insts.flatMap StatementText.registers)
      (fun n => body n ++ if n = name then insts else [])
      (insts.foldl (parseInstructionStatement verifySsa block) ctx) := by
  induction insts generalizing order seen body ctx with
  | nil => simpa using h
  | cons s rest ih =>
    have hrest := extends_statements verifySsa block
      (parseInstructionStatement verifySsa block ctx s) rest
    have hstep := h.statement hblock s (Nat.eq_zero_of_le_zero (herror ▸ hrest.errorCount))
    have hlast := ih hstep (getElem?_eq_of_isPrefix (prefix_noteAll _ _) hblock) herror
    rw [flatMap_cons, flatMap_cons, noteAll_append, ← append_assoc, foldl_cons]
    refine cast ?_ hlast
    congr 1
    funext n
    by_cases hn : n = name <;> simp [addStatement, hn]

end

/-! ### The first definition -/

/-- The first definition has been seen. -/
def Started (order : List String) (body : String → List StatementText) : Prop :=
  order.head? ≠ some "entryPoint" ∨ body "entryPoint" ≠ []

theorem Holds.declareBlock (h : Holds base order seen body ctx) (hstarted : Started order body)
    (name : String) :
    (note order name)[(ctx.declareBlock name).1]? = some name ∧
      Holds base (note order name) seen body (ctx.declareBlock name).2 := by
  have h' : Holds base order seen body
      { ctx with definedBlocks := ctx.definedBlocks.insert name } :=
    h.of_extends { Extends.refl ctx with } rfl rfl
  unfold MirParserContext.declareBlock
  dsimp only
  split
  · next b hb =>
      have hget := h'.resolveBlock_some hb
      rw [note, if_pos (mem_of_getElem? hget)]
      exact ⟨hget, h'⟩
  · next hb =>
      have hmem := h'.resolveBlock_none hb
      have hcreate := h'.createBlock hmem
      rw [note, if_neg hmem]
      split
      · next entry hentry =>
          rw [if_neg]
          · exact hcreate
          rintro ⟨hempty, hskeleton⟩
          have horder : order = ["entryPoint"] := by
            rw [← h.names, hentry, map_singleton, hskeleton]
          have hread := h.statements 0 entry (by rw [hentry]; rfl)
          rw [hempty, hskeleton] at hread
          rcases hstarted with hhead | hbody
          · exact hhead (by rw [horder]; rfl)
          · exact hbody (forall₂_nil_left_iff.mp hread)
      · exact hcreate

theorem Started.note (h : Started order body) (hne : order ≠ []) (names : List String) :
    Started (noteAll order names) body := by
  refine h.imp_left fun hhead => ?_
  obtain ⟨rest, hrest⟩ := prefix_noteAll order names
  rw [← hrest, head?_append_of_ne_nil _ hne]
  exact hhead

theorem Started.add (h : Started order body) (hne : order ≠ []) (names : List String)
    (more : String → List StatementText) :
    Started (noteAll order names) (fun n => body n ++ more n) :=
  (h.note hne names).imp_right fun hbody => by
    rw [ne_eq, append_eq_nil_iff]
    exact fun hboth => hbody hboth.1

theorem Holds.basicBlock (h : Holds base order seen body ctx) (hstarted : Started order body)
    (b : BlockText) (herror : (parseBasicBlock verifySsa ctx b).errorCount = 0) :
    Holds base (noteAll order b.labels) (seen ++ b.registers)
      (fun n => body n ++ if n = b.label then b.body else [])
      (parseBasicBlock verifySsa ctx b) := by
  obtain ⟨hget, hdeclared⟩ := h.declareBlock hstarted b.label
  exact hdeclared.statementsOf hget b.body herror

theorem Holds.run (h : Holds base order seen body ctx) (hstarted : Started order body)
    (hne : order ≠ []) (text : List BlockText)
    (herror : (text.foldl (parseBasicBlock verifySsa) ctx).errorCount = 0) :
    Holds base (noteAll order (text.flatMap BlockText.labels))
      (seen ++ text.flatMap BlockText.registers) (fun n => body n ++ bodyOf text n)
      (text.foldl (parseBasicBlock verifySsa) ctx) := by
  induction text generalizing order seen body ctx with
  | nil => simpa [bodyOf] using h
  | cons b rest ih =>
    have hrest := extends_blocks verifySsa (parseBasicBlock verifySsa ctx b) rest
    have hstep := h.basicBlock hstarted b (Nat.eq_zero_of_le_zero (herror ▸ hrest.errorCount))
    have hlast := ih hstep (hstarted.add hne b.labels _)
      (fun hnil => hne (prefix_nil.mp (hnil ▸ prefix_noteAll order b.labels))) herror
    rw [flatMap_cons, flatMap_cons, noteAll_append, ← append_assoc, foldl_cons]
    refine cast ?_ hlast
    congr 1
    funext n
    rw [bodyOf, bodyOf, flatMap_cons, append_assoc]

theorem Holds.declareFirst (h : Holds base ["entryPoint"] seen (fun _ => []) ctx) (name : String) :
    [name][(ctx.declareBlock name).1]? = some name ∧
      Holds base [name] seen (fun _ => []) (ctx.declareBlock name).2 := by
  have h' : Holds base ["entryPoint"] seen (fun _ => [])
      { ctx with definedBlocks := ctx.definedBlocks.insert name } :=
    h.of_extends { Extends.refl ctx with } rfl rfl
  obtain ⟨entry, hentry, hname⟩ := map_eq_singleton_iff.mp h.names
  have hempty : entry.instructions = [] := by
    have hread := h.statements 0 entry (by rw [hentry]; rfl)
    exact forall₂_nil_right_iff.mp hread
  unfold MirParserContext.declareBlock
  dsimp only
  split
  · next b hb =>
      have hget := h'.resolveBlock_some hb
      obtain rfl : name = "entryPoint" := mem_singleton.mp (mem_of_getElem? hget)
      exact ⟨hget, h'⟩
  · next hb =>
      rw [hentry]
      simp only [hempty, hname, and_self, if_true]
      have hone : [name].Nodup := nodup_singleton name
      refine ⟨rfl, ?_, rfl, hone, h'.registers, ?_, fun _ _ => rfl⟩
      · exact h.extends_.trans { Extends.refl ctx with }
      · intro i b hb
        obtain rfl := mem_singleton.mp (mem_of_getElem? hb)
        exact .nil

theorem Holds.parseFirst (h : Holds base ["entryPoint"] seen (fun _ => []) ctx) (b : BlockText)
    (herror : (parseBasicBlock verifySsa ctx b).errorCount = 0) :
    Holds base (noteAll [] b.labels) (seen ++ b.registers)
      (fun n => if n = b.label then b.body else []) (parseBasicBlock verifySsa ctx b) := by
  obtain ⟨hget, hdeclared⟩ := h.declareFirst b.label
  have hlast := hdeclared.statementsOf hget b.body herror
  exact hlast

theorem started_first {b : BlockText} (hb : ¬ (b.label = "entryPoint" ∧ b.body = [])) :
    Started (noteAll [] b.labels) (fun n => if n = b.label then b.body else []) := by
  by_cases hlabel : b.label = "entryPoint"
  · right
    dsimp only
    rw [if_pos hlabel.symm]
    exact fun hbody => hb ⟨hlabel, hbody⟩
  · left
    obtain ⟨rest, hrest⟩ := prefix_noteAll [b.label] (b.body.flatMap StatementText.labels)
    have hlabels : noteAll [] b.labels = b.label :: rest := hrest.symm
    rw [hlabels]
    exact fun heq => hlabel (some.inj heq)

theorem holds_skeleton (h : Holds base ["entryPoint"] seen (fun _ => []) ctx) (b : BlockText)
    (rest : List BlockText)
    (herror : ((b :: rest).foldl (parseBasicBlock verifySsa) ctx).errorCount = 0) :
    Holds base (blockOrder (b :: rest)) (seen ++ (b :: rest).flatMap BlockText.registers)
      (bodyOf (b :: rest)) ((b :: rest).foldl (parseBasicBlock verifySsa) ctx) := by
  have hextends := extends_blocks verifySsa (parseBasicBlock verifySsa ctx b) rest
  have hfirst := h.parseFirst b (Nat.eq_zero_of_le_zero (herror ▸ hextends.errorCount))
  induction rest generalizing b ctx seen with
  | nil =>
    refine cast ?_ hfirst
    unfold blockOrder bodyOf skipSkeleton
    simp
  | cons b' rest ih =>
    by_cases hb : b.label = "entryPoint" ∧ b.body = []
    · have hskeleton : Holds base ["entryPoint"] seen (fun _ => [])
          (parseBasicBlock verifySsa ctx b) := by
        refine cast ?_ hfirst
        unfold BlockText.labels BlockText.registers
        rw [hb.1, hb.2]
        congr 1
        · exact append_nil _
        · funext n
          split <;> rfl
      have hextends' := extends_blocks verifySsa
        (parseBasicBlock verifySsa (parseBasicBlock verifySsa ctx b) b') rest
      have hfirst' := hskeleton.parseFirst b'
        (Nat.eq_zero_of_le_zero (herror ▸ hextends'.errorCount))
      refine cast ?_ (ih hskeleton b' herror hextends' hfirst')
      have hregisters : b.registers = [] := by rw [BlockText.registers, hb.2]; rfl
      rw [foldl_cons, blockOrder, blockOrder, skipSkeleton, if_pos hb,
        flatMap_cons (x := b), hregisters, nil_append]
      congr 1
      funext n
      have hhead : bodyOf (b :: b' :: rest) n =
          (if n = b.label then b.body else []) ++ bodyOf (b' :: rest) n := flatMap_cons
      rw [hhead, hb.2, ite_self, nil_append]
    · have hne : noteAll [] b.labels ≠ [] :=
        ne_nil_of_mem (mem_noteAll.mpr (.inr (mem_cons_self ..)))
      have hrun := hfirst.run (started_first hb) hne (b' :: rest) herror
      refine cast ?_ hrun
      have horder : blockOrder (b :: b' :: rest) =
          noteAll (noteAll [] b.labels) ((b' :: rest).flatMap BlockText.labels) := by
        rw [blockOrder, skipSkeleton, if_neg hb, flatMap_cons, noteAll_append]
      rw [horder, flatMap_cons (x := b), append_assoc]
      congr 1

end

end EzPacker.DeclarationOrder
