import EzPacker.CodeFlow.ControlTransfer

/-!
# Function bodies in the textual form

The statements of a function body, after the tokens of an operand have been read. A
register is written by its name and an `@` symbol by the object it names; both are
shown as the operand they denote. A block is written by its label, without the `%`.

The parser creates a block where its label is first mentioned, by a branch, by a PHI or
by its definition, and appends it to the function there. Every function starts with an
empty block `entryPoint`, which the first definition takes over. Of the counter that
numbers all objects only the numbers that blocks take are modelled.
-/

namespace EzPacker.MirParser

open List Mir FirstMention

/-! ## Text -/

/-- The value of a pair: a register or a literal. -/
inductive PairValue
  | register (reg : MirRegisterRef)
  | integer (value : ℤ)
  | floatingPoint (bits : ℕ)
  deriving DecidableEq, Repr

def PairValue.operand : PairValue → MirOperand
  | register reg => .register reg
  | integer value => .integer value
  | floatingPoint bits => .floatingPoint bits

/-- An operand other than a pair: `label %block`, a value, a memory operand or a
symbol. -/
inductive OperandText
  | label (block : String)
  | value (value : PairValue)
  | memory (mem : Mir.MirMemory)
  | symbol (name : String)
  deriving DecidableEq, Repr

/-- A statement: a PHI with its pairs, or another instruction with its operands, the
destination first. -/
inductive InstructionText
  | phi (dst : MirRegisterRef) (pairs : List (PairValue × String))
  | other (opcode : MirInstructionOpCode) (operands : List OperandText)
  deriving DecidableEq, Repr

structure BlockText where
  label : String
  body : List InstructionText
  deriving DecidableEq, Repr

abbrev FunctionText := List BlockText

/-! ## Parsing -/

structure ParsedBlock where
  name : String
  id : ℕ
  instructions : List MirInstruction
  deriving DecidableEq, Repr

/-- The blocks of the current function in its order, which are also the table of block
names, and the names that were defined and referenced. -/
structure MirParserContext where
  blocks : List ParsedBlock
  nextId : ℕ
  definedBlocks : List String
  referencedBlocks : List String
  deriving DecidableEq, Repr

namespace MirParserContext

def enterFunction (id : ℕ) : MirParserContext :=
  ⟨[⟨"entryPoint", id, []⟩], id + 1, [], []⟩

def resolveBlock (ctx : MirParserContext) (name : String) : Option ℕ :=
  (ctx.blocks.find? fun b => b.name = name).map ParsedBlock.id

/-- `MirBlockBuilder::build`: a new block at the end of the function. -/
def createBlock (ctx : MirParserContext) (name : String) : ℕ × MirParserContext :=
  (ctx.nextId,
    { ctx with
      blocks := ctx.blocks ++ [⟨name, ctx.nextId, []⟩]
      nextId := ctx.nextId + 1 })

def getOrCreateBlock (ctx : MirParserContext) (name : String) : ℕ × MirParserContext :=
  let ctx := { ctx with referencedBlocks := ctx.referencedBlocks ++ [name] }
  match ctx.resolveBlock name with
  | some id => (id, ctx)
  | none => ctx.createBlock name

def declareBlock (ctx : MirParserContext) (name : String) : ℕ × MirParserContext :=
  let ctx := { ctx with definedBlocks := ctx.definedBlocks ++ [name] }
  match ctx.resolveBlock name with
  | some id => (id, ctx)
  | none =>
    match ctx.blocks with
    | [entry] =>
      if entry.instructions = [] ∧ entry.name = "entryPoint" then
        (entry.id, { ctx with blocks := [{ entry with name := name }] })
      else ctx.createBlock name
    | _ => ctx.createBlock name

def appendInstruction (ctx : MirParserContext) (block : ℕ) (inst : MirInstruction) :
    MirParserContext :=
  { ctx with
    blocks := ctx.blocks.map fun b =>
      if b.id = block then { b with instructions := b.instructions ++ [inst] } else b }

/-- `exitFunction` reports no label: every one that was referenced is defined. -/
def exitFunction (ctx : MirParserContext) : Bool :=
  ctx.referencedBlocks.all fun name => ctx.definedBlocks.contains name

end MirParserContext

def parseOperand (ctx : MirParserContext) : OperandText → MirOperand × MirParserContext
  | .label block =>
    let (id, ctx) := ctx.getOrCreateBlock block
    (.reference ⟨.Block, id, 0⟩, ctx)
  | .value value => (value.operand, ctx)
  | .memory mem => (.memory mem, ctx)
  | .symbol name => (.runtimeSymbol name, ctx)

def parseOperands (ctx : MirParserContext) : List OperandText → List MirOperand × MirParserContext
  | [] => ([], ctx)
  | op :: rest =>
    let (operand, ctx) := parseOperand ctx op
    let (operands, ctx) := parseOperands ctx rest
    (operand :: operands, ctx)

/-- A pair is its value; its block is only mentioned. -/
def parsePair (ctx : MirParserContext) (pair : PairValue × String) :
    MirOperand × MirParserContext :=
  (pair.1.operand, (ctx.getOrCreateBlock pair.2).2)

def parsePairs (ctx : MirParserContext) :
    List (PairValue × String) → List MirOperand × MirParserContext
  | [] => ([], ctx)
  | pair :: rest =>
    let (operand, ctx) := parsePair ctx pair
    let (operands, ctx) := parsePairs ctx rest
    (operand :: operands, ctx)

def parseInstructionStatement (ctx : MirParserContext) (block : ℕ) :
    InstructionText → MirParserContext
  | .phi dst pairs =>
    let (operands, ctx) := parsePairs ctx pairs
    ctx.appendInstruction block ⟨.PHI, none, .register dst :: operands⟩
  | .other opcode operands =>
    let (operands, ctx) := parseOperands ctx operands
    ctx.appendInstruction block ⟨opcode, none, operands⟩

def parseBasicBlock (ctx : MirParserContext) (b : BlockText) : MirParserContext :=
  let (block, ctx) := ctx.declareBlock b.label
  b.body.foldl (parseInstructionStatement · block ·) ctx

/-- The body of a function, whose first block gets the number `id`. -/
def parseFunctionBody (id : ℕ) (text : FunctionText) : MirParserContext :=
  text.foldl parseBasicBlock (.enterFunction id)

/-! ## Analysis -/

/-- The blocks that the control-flow analysis walks over. -/
def MirParserContext.function (ctx : MirParserContext) : List RegAlloc.MirBlock :=
  ctx.blocks.map fun b => ⟨b.id, b.instructions⟩

/-- The predecessors that the analysis of the function alone publishes for a block. -/
def MirParserContext.predecessors (ctx : MirParserContext) (block : ℕ) : List ℕ :=
  (CodeFlow.visitBlocks (fun id => ctx.blocks.any fun b => b.id = id) ctx.function
    .empty).getPredecessors block

/-!
## The function a text denotes

Read without the parser: the blocks of a function are its labels in the order of their
first mention, each with the statements of all parts of the text under its label. An
empty leading block `entryPoint` is the block behind it.
-/

def InstructionText.mentions : InstructionText → List String
  | phi _ pairs => pairs.map Prod.snd
  | other _ operands => operands.filterMap fun
      | .label block => some block
      | _ => none

def BlockText.mentions (b : BlockText) : List String :=
  b.label :: b.body.flatMap InstructionText.mentions

/-- The text without the leading blocks that the first real one takes over. -/
def skipSkeleton : FunctionText → FunctionText
  | b :: b' :: rest =>
    if b.label = "entryPoint" ∧ b.body = [] then skipSkeleton (b' :: rest)
    else b :: b' :: rest
  | text => text

/-- The labels in the order of their first mention. -/
def blockOrder (text : FunctionText) : List String :=
  noteAll [] ((skipSkeleton text).flatMap BlockText.mentions)

/-- The statements under a label. -/
def bodyOf (text : FunctionText) (name : String) : List InstructionText :=
  text.flatMap fun b => if name = b.label then b.body else []

def OperandText.resolve (idOf : String → ℕ) : OperandText → MirOperand
  | label block => .reference ⟨.Block, idOf block, 0⟩
  | value v => v.operand
  | memory mem => .memory mem
  | symbol name => .runtimeSymbol name

def InstructionText.resolve (idOf : String → ℕ) : InstructionText → MirInstruction
  | phi dst pairs => ⟨.PHI, none, .register dst :: pairs.map fun pair => pair.1.operand⟩
  | other opcode operands => ⟨opcode, none, operands.map (OperandText.resolve idOf)⟩

/-- The number of a label is that of the first block and its position. -/
def numbering (id : ℕ) (order : List String) (name : String) : ℕ := id + order.idxOf name

/-- The context holds these labels, in order, with these statements. -/
structure Holds (id : ℕ) (order : List String) (body : String → List InstructionText)
    (ctx : MirParserContext) : Prop where
  blocks : ctx.blocks = order.map fun name =>
    ⟨name, numbering id order name, (body name).map (InstructionText.resolve (numbering id order))⟩
  nextId : ctx.nextId = id + order.length
  nodup : order.Nodup
  mentioned : ∀ name, ∀ i ∈ body name, name ∈ order ∧ ∀ m ∈ i.mentions, m ∈ order

section

variable {id : ℕ} {order : List String} {body : String → List InstructionText}
  {ctx : MirParserContext}

variable {name : String}

theorem numbering_of_extends {order' : List String} (h : order <+: order')
    (hname : name ∈ order) : numbering id order' name = numbering id order name := by
  rw [numbering, numbering, idxOf_of_extends h hname]

theorem OperandText.resolve_congr {idOf idOf' : String → ℕ} {op : OperandText}
    (h : ∀ block, op = .label block → idOf' block = idOf block) :
    op.resolve idOf' = op.resolve idOf := by
  cases op with
  | label block => rw [resolve, resolve, h block rfl]
  | value v | memory mem | symbol name => rfl

theorem InstructionText.resolve_congr {idOf idOf' : String → ℕ} {i : InstructionText}
    (h : ∀ m ∈ i.mentions, idOf' m = idOf m) : i.resolve idOf' = i.resolve idOf := by
  cases i with
  | phi dst pairs => rfl
  | other opcode operands =>
    have hops : operands.map (OperandText.resolve idOf') =
        operands.map (OperandText.resolve idOf) := by
      refine map_congr_left fun op hop => OperandText.resolve_congr fun block hblock => ?_
      subst hblock
      exact h block (mem_filterMap.mpr ⟨_, hop, rfl⟩)
    simp only [resolve, hops]

theorem find?_name (order : List String) (name : String) :
    (order.find? fun n => decide (n = name)) = if name ∈ order then some name else none := by
  induction order with
  | nil => rfl
  | cons n order ih =>
    rw [find?_cons]
    by_cases h : n = name
    · simp [h]
    · have h' : ¬ name = n := fun heq => h heq.symm
      simp [h, h', ih]

section

variable (h : Holds id order body ctx)
include h

theorem Holds.resolveBlock (name : String) :
    ctx.resolveBlock name = if name ∈ order then some (numbering id order name) else none := by
  unfold MirParserContext.resolveBlock
  rw [h.blocks, find?_map]
  have hcongr : ((fun b : ParsedBlock => decide (b.name = name)) ∘ fun n =>
      (⟨n, numbering id order n, (body n).map (InstructionText.resolve (numbering id order))⟩ :
        ParsedBlock)) = fun n => decide (n = name) := rfl
  rw [hcongr, find?_name]
  split <;> rfl

/-- Labels that come later do not change the blocks there are. -/
theorem Holds.blocks_of_extends {order' : List String} (hpre : order <+: order') :
    ctx.blocks = order.map fun name =>
      ⟨name, numbering id order' name,
        (body name).map (InstructionText.resolve (numbering id order'))⟩ := by
  rw [h.blocks]
  refine map_congr_left fun name hname => ?_
  rw [numbering_of_extends hpre hname]
  congr 1
  refine map_congr_left fun i hi => (InstructionText.resolve_congr fun m hm => ?_).symm
  exact numbering_of_extends hpre ((h.mentioned name i hi).2 m hm)

/-- A new label gets the next number and the last place. -/
theorem Holds.createBlock (hname : name ∉ order) :
    (ctx.createBlock name).1 = numbering id (order ++ [name]) name ∧
      Holds id (order ++ [name]) body (ctx.createBlock name).2 := by
  have hidx : numbering id (order ++ [name]) name = ctx.nextId := by
    rw [numbering, h.nextId, idxOf_append_of_notMem hname]
    simp
  have hempty : body name = [] := by
    by_contra hne
    obtain ⟨i, hi⟩ := exists_mem_of_ne_nil _ hne
    exact hname (h.mentioned name i hi).1
  have hpre : order <+: order ++ [name] := prefix_append _ _
  refine ⟨hidx.symm, ?_, ?_, ?_, fun n i hi => ?_⟩
  · simp only [MirParserContext.createBlock]
    rw [h.blocks_of_extends hpre, map_append, map_singleton, hidx, hempty]
    rfl
  · simp only [MirParserContext.createBlock]
    rw [h.nextId, length_append, length_singleton, Nat.add_assoc]
  · rw [nodup_append]
    refine ⟨h.nodup, nodup_singleton _, fun a ha b hb hab => ?_⟩
    rw [mem_singleton] at hb
    exact hname (hb ▸ hab ▸ ha)
  · obtain ⟨hn, hm⟩ := h.mentioned n i hi
    exact ⟨hpre.subset hn, fun m hmem => hpre.subset (hm m hmem)⟩

theorem Holds.of_blocks {ctx' : MirParserContext} (hblocks : ctx'.blocks = ctx.blocks)
    (hnextId : ctx'.nextId = ctx.nextId) : Holds id order body ctx' :=
  ⟨hblocks.trans h.blocks, hnextId.trans h.nextId, h.nodup, h.mentioned⟩

/-- A mention of a label gives its number. -/
theorem Holds.getOrCreateBlock (name : String) :
    (ctx.getOrCreateBlock name).1 = numbering id (note order name) name ∧
      Holds id (note order name) body (ctx.getOrCreateBlock name).2 := by
  have h' : Holds id order body
      { ctx with referencedBlocks := ctx.referencedBlocks ++ [name] } := h.of_blocks rfl rfl
  unfold MirParserContext.getOrCreateBlock note
  dsimp only
  rw [h'.resolveBlock]
  by_cases hname : name ∈ order
  · rw [if_pos hname, if_pos hname]
    exact ⟨rfl, h'⟩
  · rw [if_neg hname, if_neg hname]
    exact h'.createBlock hname

/-- The operands of a statement, under the numbers behind it. -/
theorem Holds.parseOperands (operands : List OperandText) :
    let order' := noteAll order (InstructionText.other .NOP operands).mentions
    (parseOperands ctx operands).1 = operands.map (OperandText.resolve (numbering id order')) ∧
      Holds id order' body (parseOperands ctx operands).2 := by
  induction operands generalizing order ctx with
  | nil => exact ⟨rfl, h⟩
  | cons op rest ih =>
    cases op with
    | label block =>
      obtain ⟨hid, hnext⟩ := h.getOrCreateBlock block
      obtain ⟨hrest, hlast⟩ := ih hnext
      refine ⟨?_, hlast⟩
      simp only [MirParser.parseOperands, parseOperand, map_cons, hrest]
      congr 1
      rw [hid, OperandText.resolve]
      congr 2
      exact (numbering_of_extends (prefix_noteAll _ _) (mem_note.mpr (.inr rfl))).symm
    | value v | memory mem | symbol name =>
      obtain ⟨hrest, hlast⟩ := ih h
      exact ⟨congrArg (_ :: ·) hrest, hlast⟩

theorem Holds.parsePairs (pairs : List (PairValue × String)) :
    (parsePairs ctx pairs).1 = pairs.map (fun pair => pair.1.operand) ∧
      Holds id (noteAll order (pairs.map Prod.snd)) body (parsePairs ctx pairs).2 := by
  induction pairs generalizing order ctx with
  | nil => exact ⟨rfl, h⟩
  | cons pair rest ih =>
    obtain ⟨hrest, hlast⟩ := ih (h.getOrCreateBlock pair.2).2
    exact ⟨congrArg (_ :: ·) hrest, hlast⟩

/-- A statement is appended to the block of a label. -/
theorem Holds.appendInstruction (hname : name ∈ order) {i : InstructionText}
    (hi : ∀ m ∈ i.mentions, m ∈ order) :
    Holds id order (fun n => body n ++ if n = name then [i] else [])
      (ctx.appendInstruction (numbering id order name) (i.resolve (numbering id order))) where
  blocks := by
    simp only [MirParserContext.appendInstruction]
    rw [h.blocks, map_map]
    refine map_congr_left fun n hn => ?_
    have hiff : numbering id order n = numbering id order name ↔ n = name := by
      unfold numbering
      rw [Nat.add_left_cancel_iff]
      exact idxOf_inj hn
    simp only [Function.comp_apply, hiff]
    split <;> simp
  nextId := h.nextId
  nodup := h.nodup
  mentioned n j hj := by
    rw [mem_append] at hj
    rcases hj with hj | hj
    · exact h.mentioned n j hj
    · split at hj
      · next heq =>
          rw [mem_singleton] at hj
          subst hj heq
          exact ⟨hname, hi⟩
      · cases hj

end

/-- Statements under a label, one more. -/
def addStatement (body : String → List InstructionText) (name : String)
    (i : InstructionText) : String → List InstructionText :=
  fun n => body n ++ if n = name then [i] else []

theorem Holds.statement (h : Holds id order body ctx) (hname : name ∈ order) (i : InstructionText) :
    Holds id (noteAll order i.mentions) (addStatement body name i)
      (parseInstructionStatement ctx (numbering id order name) i) := by
  have hpre := prefix_noteAll order i.mentions
  rw [← numbering_of_extends hpre hname]
  have hmentions : ∀ m ∈ i.mentions, m ∈ noteAll order i.mentions :=
    fun m hm => mem_noteAll.mpr (.inr hm)
  cases i with
  | phi dst pairs =>
    obtain ⟨hoperands, hctx⟩ := h.parsePairs pairs
    have happend := hctx.appendInstruction (hpre.subset hname) hmentions
    simp only [parseInstructionStatement, hoperands]
    exact happend
  | other opcode operands =>
    obtain ⟨hoperands, hctx⟩ := h.parseOperands operands
    have happend := hctx.appendInstruction (hpre.subset hname) hmentions
    simp only [parseInstructionStatement, hoperands]
    exact happend

theorem Holds.statements (h : Holds id order body ctx) (hname : name ∈ order)
    (insts : List InstructionText) :
    Holds id (noteAll order (insts.flatMap InstructionText.mentions))
      (fun n => body n ++ if n = name then insts else [])
      (insts.foldl (parseInstructionStatement · (numbering id order name) ·) ctx) := by
  induction insts generalizing order body ctx with
  | nil => simpa using h
  | cons i rest ih =>
    have hstep := h.statement hname i
    have hpre := prefix_noteAll order i.mentions
    have hlast := ih hstep (hpre.subset hname)
    rw [numbering_of_extends hpre hname] at hlast
    rw [flatMap_cons, noteAll_append, foldl_cons]
    refine cast ?_ hlast
    congr 1
    funext n
    by_cases hn : n = name <;> simp [addStatement, hn]

/-- The first definition has been seen. -/
def Started (order : List String) (body : String → List InstructionText) : Prop :=
  order.head? ≠ some "entryPoint" ∨ body "entryPoint" ≠ []

theorem Holds.declareBlock (h : Holds id order body ctx) (hstarted : Started order body)
    (name : String) :
    (ctx.declareBlock name).1 = numbering id (note order name) name ∧
      Holds id (note order name) body (ctx.declareBlock name).2 := by
  have h' : Holds id order body
      { ctx with definedBlocks := ctx.definedBlocks ++ [name] } := h.of_blocks rfl rfl
  unfold MirParserContext.declareBlock note
  dsimp only
  rw [h'.resolveBlock]
  by_cases hname : name ∈ order
  · rw [if_pos hname, if_pos hname]
    exact ⟨rfl, h'⟩
  · rw [if_neg hname, if_neg hname]
    have hcreate := h'.createBlock hname
    dsimp only
    split
    · next entry hentry =>
        rw [if_neg]
        · exact hcreate
        rintro ⟨hempty, hskeleton⟩
        have hblocks := h.blocks.symm.trans hentry
        rw [map_eq_singleton_iff] at hblocks
        obtain ⟨n, rfl, rfl⟩ := hblocks
        dsimp only at hempty hskeleton
        subst hskeleton
        rcases hstarted with hhead | hbody
        · exact hhead rfl
        · exact hbody (map_eq_nil_iff.mp hempty)
    · exact hcreate

theorem Started.note (h : Started order body) (hne : order ≠ []) (names : List String) :
    Started (noteAll order names) body := by
  refine h.imp_left fun hhead => ?_
  obtain ⟨rest, hrest⟩ := prefix_noteAll order names
  rw [← hrest, head?_append_of_ne_nil _ hne]
  exact hhead

theorem Holds.parseBasicBlock (h : Holds id order body ctx) (hstarted : Started order body)
    (b : BlockText) :
    Holds id (noteAll order b.mentions) (fun n => body n ++ if n = b.label then b.body else [])
      (parseBasicBlock ctx b) := by
  obtain ⟨hid, hdeclared⟩ := h.declareBlock hstarted b.label
  have hmem : b.label ∈ note order b.label := mem_note.mpr (.inr rfl)
  unfold MirParser.parseBasicBlock BlockText.mentions
  dsimp only
  rw [hid]
  exact hdeclared.statements hmem b.body

theorem Started.add (h : Started order body) (hne : order ≠ []) (names : List String)
    (more : String → List InstructionText) :
    Started (noteAll order names) (fun n => body n ++ more n) :=
  (h.note hne names).imp_right fun hbody => by
    rw [ne_eq, append_eq_nil_iff]
    exact fun hboth => hbody hboth.1

theorem Holds.run (h : Holds id order body ctx) (hstarted : Started order body)
    (hne : order ≠ []) (text : FunctionText) :
    Holds id (noteAll order (text.flatMap BlockText.mentions))
      (fun n => body n ++ bodyOf text n) (text.foldl MirParser.parseBasicBlock ctx) := by
  induction text generalizing order body ctx with
  | nil => simpa [bodyOf] using h
  | cons b rest ih =>
    have hpre := prefix_noteAll order b.mentions
    have hlast := ih (h.parseBasicBlock hstarted b) (hstarted.add hne b.mentions _)
      (fun hnil => hne (prefix_nil.mp (hnil ▸ hpre)))
    rw [flatMap_cons, noteAll_append, foldl_cons]
    refine cast ?_ hlast
    congr 1
    funext n
    rw [bodyOf, bodyOf, flatMap_cons, append_assoc]

/-! ### The first definition -/

theorem Holds.declareFirst (h : Holds id ["entryPoint"] (fun _ => []) ctx) (name : String) :
    (ctx.declareBlock name).1 = numbering id [name] name ∧
      Holds id [name] (fun _ => []) (ctx.declareBlock name).2 := by
  by_cases hname : name = "entryPoint"
  · subst hname
    have h' : Holds id ["entryPoint"] (fun _ => [])
        { ctx with definedBlocks := ctx.definedBlocks ++ ["entryPoint"] } := h.of_blocks rfl rfl
    unfold MirParserContext.declareBlock
    dsimp only
    rw [h'.resolveBlock, if_pos (mem_singleton_self _)]
    exact ⟨rfl, h'⟩
  · have h' : Holds id ["entryPoint"] (fun _ => [])
        { ctx with definedBlocks := ctx.definedBlocks ++ [name] } := h.of_blocks rfl rfl
    have hresolve := h'.resolveBlock name
    rw [if_neg (by rwa [mem_singleton])] at hresolve
    have hblocks := h.blocks
    rw [map_singleton] at hblocks
    have hself : numbering id [name] name = id := by simp [numbering]
    have hskeleton : numbering id ["entryPoint"] "entryPoint" = id := by simp [numbering]
    unfold MirParserContext.declareBlock
    dsimp only
    rw [hresolve]
    simp only [hblocks, hself, hskeleton, map_nil]
    refine ⟨rfl, ?_, h.nextId, nodup_singleton _, nofun⟩
    simp [hself]

theorem Holds.parseFirst (h : Holds id ["entryPoint"] (fun _ => []) ctx) (b : BlockText) :
    Holds id (noteAll [] b.mentions) (fun n => if n = b.label then b.body else [])
      (MirParser.parseBasicBlock ctx b) := by
  obtain ⟨hid, hdeclared⟩ := h.declareFirst b.label
  have hlast := hdeclared.statements (mem_singleton_self _) b.body
  unfold MirParser.parseBasicBlock
  dsimp only
  rw [hid]
  exact hlast

theorem started_first {b : BlockText} (hb : ¬ (b.label = "entryPoint" ∧ b.body = [])) :
    Started (noteAll [] b.mentions) (fun n => if n = b.label then b.body else []) := by
  by_cases hlabel : b.label = "entryPoint"
  · right
    dsimp only
    rw [if_pos hlabel.symm]
    exact fun hbody => hb ⟨hlabel, hbody⟩
  · left
    obtain ⟨rest, hrest⟩ := prefix_noteAll [b.label] (b.body.flatMap InstructionText.mentions)
    have hmentions : noteAll [] b.mentions = b.label :: rest := hrest.symm
    rw [hmentions]
    exact fun heq => hlabel (Option.some.inj heq)

theorem holds_skeleton (h : Holds id ["entryPoint"] (fun _ => []) ctx) (b : BlockText)
    (rest : FunctionText) :
    Holds id (blockOrder (b :: rest)) (bodyOf (b :: rest))
      ((b :: rest).foldl MirParser.parseBasicBlock ctx) := by
  induction rest generalizing b ctx with
  | nil =>
    refine cast ?_ (h.parseFirst b)
    unfold blockOrder bodyOf skipSkeleton
    simp
  | cons b' rest ih =>
    by_cases hb : b.label = "entryPoint" ∧ b.body = []
    · have hfirst := h.parseFirst b
      have hskeleton : Holds id ["entryPoint"] (fun _ => []) (MirParser.parseBasicBlock ctx b) := by
        refine cast ?_ hfirst
        unfold BlockText.mentions
        rw [hb.1, hb.2]
        congr 1
        funext n
        split <;> rfl
      refine cast ?_ (ih hskeleton b')
      rw [foldl_cons, blockOrder, blockOrder, skipSkeleton, if_pos hb]
      congr 1
      funext n
      have hhead : bodyOf (b :: b' :: rest) n =
          (if n = b.label then b.body else []) ++ bodyOf (b' :: rest) n := flatMap_cons
      rw [hhead, hb.2, ite_self, nil_append]
    · have hrun := (h.parseFirst b).run (started_first hb) ?_ (b' :: rest)
      · refine cast ?_ hrun
        have horder : blockOrder (b :: b' :: rest) =
            noteAll (noteAll [] b.mentions) ((b' :: rest).flatMap BlockText.mentions) := by
          rw [blockOrder, skipSkeleton, if_neg hb, flatMap_cons, noteAll_append]
        rw [horder]
        congr 1
      · exact ne_nil_of_mem (mem_noteAll.mpr (.inr (mem_cons_self ..)))

end

theorem holds_parseFunctionBody (id : ℕ) (b : BlockText) (rest : FunctionText) :
    Holds id (blockOrder (b :: rest)) (bodyOf (b :: rest)) (parseFunctionBody id (b :: rest)) := by
  refine holds_skeleton ⟨?_, rfl, nodup_singleton _, nofun⟩ b rest
  simp [MirParserContext.enterFunction, numbering]

/-! ### Labels without a definition -/

/-- The labels that branches and PHIs mention. -/
def references (text : FunctionText) : List String :=
  text.flatMap fun b => b.body.flatMap InstructionText.mentions

/-- The defined and the referenced labels grow by these. -/
structure Recorded (ctx ctx' : MirParserContext) (labels mentions : List String) : Prop where
  definedBlocks : ctx'.definedBlocks = ctx.definedBlocks ++ labels
  referencedBlocks : ctx'.referencedBlocks = ctx.referencedBlocks ++ mentions

theorem Recorded.refl (ctx : MirParserContext) : Recorded ctx ctx [] [] :=
  ⟨(append_nil _).symm, (append_nil _).symm⟩

theorem Recorded.trans {ctx ctx' ctx'' : MirParserContext}
    {labels labels' mentions mentions' : List String}
    (h : Recorded ctx ctx' labels mentions) (h' : Recorded ctx' ctx'' labels' mentions') :
    Recorded ctx ctx'' (labels ++ labels') (mentions ++ mentions') :=
  ⟨by rw [h'.definedBlocks, h.definedBlocks, append_assoc],
    by rw [h'.referencedBlocks, h.referencedBlocks, append_assoc]⟩

section

variable (ctx : MirParserContext)
include ctx

theorem recorded_getOrCreateBlock (name : String) :
    Recorded ctx (ctx.getOrCreateBlock name).2 [] [name] := by
  unfold MirParserContext.getOrCreateBlock
  dsimp only
  split <;> exact ⟨(append_nil _).symm, rfl⟩

theorem recorded_declareBlock (name : String) :
    Recorded ctx (ctx.declareBlock name).2 [name] [] := by
  unfold MirParserContext.declareBlock
  dsimp only
  split
  · exact ⟨rfl, (append_nil _).symm⟩
  · split
    · split <;> exact ⟨rfl, (append_nil _).symm⟩
    · exact ⟨rfl, (append_nil _).symm⟩

theorem recorded_parseOperands (operands : List OperandText) :
    Recorded ctx (parseOperands ctx operands).2 []
      (InstructionText.other .NOP operands).mentions := by
  induction operands generalizing ctx with
  | nil => exact .refl ctx
  | cons op rest ih =>
    cases op with
    | label block => exact (recorded_getOrCreateBlock ctx block).trans (ih _)
    | value v | memory mem | symbol name => exact ih ctx

theorem recorded_parsePairs (pairs : List (PairValue × String)) :
    Recorded ctx (parsePairs ctx pairs).2 [] (pairs.map Prod.snd) := by
  induction pairs generalizing ctx with
  | nil => exact .refl ctx
  | cons pair rest ih => exact (recorded_getOrCreateBlock ctx pair.2).trans (ih _)

theorem recorded_statement (block : ℕ) (i : InstructionText) :
    Recorded ctx (parseInstructionStatement ctx block i) [] i.mentions := by
  cases i with
  | phi dst pairs => exact ⟨(recorded_parsePairs ctx pairs).1, (recorded_parsePairs ctx pairs).2⟩
  | other opcode operands =>
    exact ⟨(recorded_parseOperands ctx operands).1, (recorded_parseOperands ctx operands).2⟩

theorem recorded_statements (block : ℕ) (insts : List InstructionText) :
    Recorded ctx (insts.foldl (parseInstructionStatement · block ·) ctx) []
      (insts.flatMap InstructionText.mentions) := by
  induction insts generalizing ctx with
  | nil => exact .refl ctx
  | cons i rest ih => exact (recorded_statement ctx block i).trans (ih _)

theorem recorded_run (text : FunctionText) :
    Recorded ctx (text.foldl parseBasicBlock ctx) (text.map BlockText.label) (references text) := by
  induction text generalizing ctx with
  | nil => exact .refl ctx
  | cons b rest ih =>
    have hblock := (recorded_declareBlock ctx b.label).trans
      (recorded_statements (ctx.declareBlock b.label).2 (ctx.declareBlock b.label).1 b.body)
    exact hblock.trans (ih _)

end

theorem exitFunction_iff (id : ℕ) (text : FunctionText) :
    (parseFunctionBody id text).exitFunction = true ↔
      ∀ m ∈ references text, m ∈ text.map BlockText.label := by
  have hrun := recorded_run (.enterFunction id) text
  unfold MirParserContext.exitFunction parseFunctionBody
  rw [hrun.definedBlocks, hrun.referencedBlocks]
  simp [MirParserContext.enterFunction]

end EzPacker.MirParser
