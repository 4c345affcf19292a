import EzPacker.DeclarationOrder.ParseModule

/-!
# The worklist of forward references

Between two statements the worklist has one entry for each operand that has not been
resolved, with the instruction and the place of the operand, also behind a statement that
has been cancelled. Patching replaces exactly these operands.
-/

namespace EzPacker.DeclarationOrder

open MirParserContext List

/-! ## Lists of positions -/

theorem modify_length {α : Type} (f : α → α) (as : List α) (b : α) (bs : List α) :
    (as ++ b :: bs).modify as.length f = as ++ f b :: bs := by
  induction as with
  | nil => rfl
  | cons a as ih =>
    rw [cons_append, length_cons, modify_succ_cons, ih, cons_append]

theorem foldl_modify_range' {α : Type} (f : α → α) (as bs : List α) :
    (range' as.length bs.length).foldl (fun l i => l.modify i f) (as ++ bs) = as ++ bs.map f := by
  induction bs generalizing as with
  | nil => rfl
  | cons b bs ih =>
    have hhead : (as ++ b :: bs).modify as.length f = (as ++ [f b]) ++ bs := by
      rw [modify_length, append_assoc, singleton_append]
    have hlength : (as ++ [f b]).length = as.length + 1 := by simp
    rw [length_cons, range'_succ, foldl_cons, hhead, ← hlength, ih]
    simp

theorem foldr_eraseIdx_range' {α : Type} (as bs : List α) :
    (range' as.length bs.length).foldr (fun i l => l.eraseIdx i) (as ++ bs) = as := by
  induction bs using reverseRecOn with
  | nil => simp
  | append_singleton bs b ih =>
    have hlast : (as ++ (bs ++ [b])).eraseIdx (as.length + bs.length) = as ++ bs := by
      rw [← append_assoc, ← length_append, eraseIdx_append_of_length_le (Nat.le_refl _)]
      simp
    rw [length_append, length_singleton, range'_1_concat, foldr_append,
      foldr_cons, foldr_nil, hlast, ih]

/-! ## References of operands -/

def operandFixup (target : Option ℕ) (i : ℕ) : Operand ℕ → Option Fixup
  | .runtimeSymbol name => some ⟨name, target, i, .GlobalOrFunction⟩
  | _ => none

/-- The references of operands, the first of which is at `i`. -/
def fixupsFrom (target : Option ℕ) : ℕ → List (Operand ℕ) → List Fixup
  | _, [] => []
  | i, op :: rest => (operandFixup target i op).toList ++ fixupsFrom target (i + 1) rest

/-- The references of instructions, the first of which has the pointer `p`. -/
def fixupsOf : ℕ → List (Instruction ℕ) → List Fixup
  | _, [] => []
  | p, inst :: rest => fixupsFrom (some p) 0 inst.operands ++ fixupsOf (p + 1) rest

@[simp] theorem fixupsFrom_nil (target : Option ℕ) (i : ℕ) : fixupsFrom target i [] = [] := rfl

theorem fixupsFrom_append (target : Option ℕ) (i : ℕ) (as bs : List (Operand ℕ)) :
    fixupsFrom target i (as ++ bs) =
      fixupsFrom target i as ++ fixupsFrom target (i + as.length) bs := by
  induction as generalizing i with
  | nil => rfl
  | cons a as ih =>
    rw [cons_append, fixupsFrom, fixupsFrom, ih, append_assoc, length_cons]
    congr 3
    omega

theorem fixupsOf_append (p : ℕ) (as bs : List (Instruction ℕ)) :
    fixupsOf p (as ++ bs) = fixupsOf p as ++ fixupsOf (p + as.length) bs := by
  induction as generalizing p with
  | nil => rfl
  | cons a as ih =>
    rw [cons_append, fixupsOf, fixupsOf, ih, append_assoc, length_cons]
    congr 3
    omega

/-- Binding sets the target and nothing else. -/
theorem fixupsFrom_bind (inst i : ℕ) (operands : List (Operand ℕ)) :
    (fixupsFrom none i operands).map (fun fixup => { fixup with targetInstruction := some inst }) =
      fixupsFrom (some inst) i operands := by
  induction operands generalizing i with
  | nil => rfl
  | cons op rest ih =>
    rw [fixupsFrom, fixupsFrom, map_append, ih]
    cases op <;> rfl

theorem kind_of_mem_fixupsFrom {target : Option ℕ} {i : ℕ} {operands : List (Operand ℕ)}
    {fixup : Fixup} (h : fixup ∈ fixupsFrom target i operands) :
    fixup.kind = .GlobalOrFunction := by
  induction operands generalizing i with
  | nil => cases h
  | cons op rest ih =>
    rw [fixupsFrom, mem_append] at h
    rcases h with h | h
    · cases op with
      | runtimeSymbol name => rw [mem_singleton.mp h]
      | _ => cases h
    · exact ih h

theorem kind_of_mem_fixupsOf {p : ℕ} {insts : List (Instruction ℕ)} {fixup : Fixup}
    (h : fixup ∈ fixupsOf p insts) : fixup.kind = .GlobalOrFunction := by
  induction insts generalizing p with
  | nil => cases h
  | cons inst rest ih =>
    rw [fixupsOf, mem_append] at h
    rcases h with h | h
    · exact kind_of_mem_fixupsFrom h
    · exact ih h

/-! ## Reading a statement -/

/-- A step inside a statement: tables, objects and instructions stay, and the worklist
grows by references of the statement. -/
structure Records (ctx ctx' : MirParserContext) (added : List Fixup) : Prop where
  globals : ctx'.globals = ctx.globals
  functions : ctx'.functions = ctx.functions
  objects : ctx'.objects = ctx.objects
  instructions : ctx'.instructions = ctx.instructions
  pendingFixups : ctx'.pendingFixups = ctx.pendingFixups ++ added
  currentInstructionFixups : ctx'.currentInstructionFixups =
    ctx.currentInstructionFixups ++ range' ctx.pendingFixups.length added.length
  errorCount : ctx.errorCount ≤ ctx'.errorCount

section

variable {ctx ctx' ctx'' : MirParserContext} {added added' : List Fixup}

theorem Records.refl (ctx : MirParserContext) : Records ctx ctx [] where
  globals := rfl
  functions := rfl
  objects := rfl
  instructions := rfl
  pendingFixups := (append_nil _).symm
  currentInstructionFixups := (append_nil _).symm
  errorCount := Nat.le_refl _

theorem Records.trans (h : Records ctx ctx' added) (h' : Records ctx' ctx'' added') :
    Records ctx ctx'' (added ++ added') where
  globals := h'.globals.trans h.globals
  functions := h'.functions.trans h.functions
  objects := h'.objects.trans h.objects
  instructions := h'.instructions.trans h.instructions
  pendingFixups := by rw [h'.pendingFixups, h.pendingFixups, append_assoc]
  currentInstructionFixups := by
    rw [h'.currentInstructionFixups, h.currentInstructionFixups, h.pendingFixups,
      append_assoc, length_append, length_append, range'_append_1]
  errorCount := Nat.le_trans h.errorCount h'.errorCount

end

section

variable (ctx : MirParserContext)
include ctx

theorem records_getOrCreateRegister (name : String) (type : Option InternedType) :
    Records ctx (ctx.getOrCreateRegister name type) [] := by
  unfold getOrCreateRegister
  split
  · exact .refl ctx
  · exact { Records.refl ctx with }

theorem records_recordRegisterDef (name : String) (verifySsa : Bool) :
    Records ctx (ctx.recordRegisterDef name verifySsa) [] := by
  unfold recordRegisterDef
  split
  · exact { Records.refl ctx with errorCount := Nat.le_succ _ }
  · exact { Records.refl ctx with }

theorem records_getOrCreateBlock (name : String) :
    Records ctx (ctx.getOrCreateBlock name).2 [] := by
  unfold getOrCreateBlock
  dsimp only
  split <;> exact { Records.refl ctx with }

theorem records_declareBlock (name : String) : Records ctx (ctx.declareBlock name).2 [] := by
  unfold declareBlock
  dsimp only
  split
  · exact { Records.refl ctx with }
  · split
    · split <;> exact { Records.refl ctx with }
    · exact { Records.refl ctx with }

theorem records_parseValue (expected : Option InternedType) (v : ValueText) :
    Records ctx (parseValue ctx expected v).2 [] := by
  cases v with
  | register name => exact records_getOrCreateRegister ctx name expected
  | integer value | floatingPoint bits => exact .refl ctx

theorem records_registers (entries : List (String × InternedType)) : Records ctx
      (entries.foldl (fun ctx entry => ctx.getOrCreateRegister entry.1 (some entry.2)) ctx)
      [] := by
  induction entries generalizing ctx with
  | nil => exact .refl ctx
  | cons entry rest ih => exact (records_getOrCreateRegister ctx entry.1 _).trans (ih _)

theorem operandFixup_parseValue (expected : Option InternedType) (v : ValueText) (i : ℕ) :
    operandFixup none i (parseValue ctx expected v).1 = none := by
  cases v <;> rfl

theorem records_parseOperand (i : ℕ) (expected : Option InternedType) (op : OperandText) :
    Records ctx (parseOperand ctx i expected op).2
      (fixupsFrom none i (parseOperand ctx i expected op).1.toList) := by
  cases op with
  | label block => exact records_getOrCreateBlock ctx block
  | value v =>
    have h := records_parseValue ctx expected v
    simp only [parseOperand, Option.toList_some, fixupsFrom, operandFixup_parseValue]
    exact h
  | pair v block =>
    have h := (records_getOrCreateBlock ctx block).trans
      (records_parseValue (ctx.getOrCreateBlock block).2 expected v)
    simp only [parseOperand, Option.toList_some, fixupsFrom, operandFixup_parseValue]
    exact h
  | memory base terms =>
    have h := records_registers ctx (addressRegisters base terms)
    simp only [parseOperand, parseMemoryOperand]
    split <;> exact h
  | symbol name offset =>
    simp only [parseOperand]
    split
    · exact .refl ctx
    · split
      · exact .refl ctx
      · exact { Records.refl ctx with pendingFixups := rfl, currentInstructionFixups := rfl }

end

theorem records_parseOperands (type : Option InternedType) (ctx : MirParserContext)
    (operands : List (Operand ℕ)) (texts : List (Option InternedType × OperandText)) :
    ∃ new, (∀ all, (parseOperands type ctx operands texts).1 = some all → all = operands ++ new) ∧
      Records ctx (parseOperands type ctx operands texts).2
        (fixupsFrom none operands.length new) := by
  induction texts generalizing ctx operands with
  | nil => exact ⟨[], fun all h => by simpa using (Option.some.inj h).symm, .refl ctx⟩
  | cons op rest ih =>
    have hhead := records_parseOperand ctx operands.length (op.1.or type) op.2
    rw [parseOperands]
    split
    · next ctx' heq =>
        rw [heq] at hhead
        exact ⟨[], nofun, hhead⟩
    · next operand ctx' heq =>
        rw [heq] at hhead
        obtain ⟨new, hall, hrest⟩ := ih ctx' (operands ++ [operand])
        refine ⟨operand :: new, fun all h => ?_, ?_⟩
        · rw [hall all h, append_assoc, singleton_append]
        · have htrans := hhead.trans hrest
          rw [length_append, length_singleton] at htrans
          have hcons := fixupsFrom_append none operands.length [operand] new
          rw [singleton_append, length_singleton] at hcons
          rw [hcons]
          exact htrans

theorem records_parseDestination (verifySsa : Bool) (ctx : MirParserContext)
    (s : StatementText) : Records ctx (parseDestination verifySsa ctx s).2 [] := by
  unfold parseDestination
  split
  · exact .refl ctx
  · next dst _ =>
      exact (records_recordRegisterDef ctx dst verifySsa).trans
        (records_getOrCreateRegister _ dst s.type)

theorem fixupsFrom_parseDestination (verifySsa : Bool) (ctx : MirParserContext)
    (s : StatementText) (target : Option ℕ) (i : ℕ) :
    fixupsFrom target i (parseDestination verifySsa ctx s).1 = [] := by
  unfold parseDestination
  split <;> rfl

/-! ## Between statements -/

/-- The worklist has exactly the operands that are not resolved. -/
def FixupsExact (ctx : MirParserContext) : Prop :=
  ctx.pendingFixups = fixupsOf 0 ctx.instructions

/-- Steps of a body: tables and objects stay and instructions are only added. -/
structure Extends (ctx ctx' : MirParserContext) : Prop where
  globals : ctx'.globals = ctx.globals
  functions : ctx'.functions = ctx.functions
  objects : ctx'.objects = ctx.objects
  instructions : ctx.instructions <+: ctx'.instructions
  errorCount : ctx.errorCount ≤ ctx'.errorCount

section

variable {ctx ctx' ctx'' : MirParserContext}

theorem Extends.refl (ctx : MirParserContext) : Extends ctx ctx :=
  ⟨rfl, rfl, rfl, prefix_rfl, Nat.le_refl _⟩

theorem Extends.trans (h : Extends ctx ctx') (h' : Extends ctx' ctx'') : Extends ctx ctx'' :=
  ⟨h'.globals.trans h.globals, h'.functions.trans h.functions, h'.objects.trans h.objects,
    h.instructions.trans h'.instructions, Nat.le_trans h.errorCount h'.errorCount⟩

theorem Records.extends {added : List Fixup} (h : Records ctx ctx' added) : Extends ctx ctx' :=
  ⟨h.globals, h.functions, h.objects, h.instructions ▸ prefix_rfl, h.errorCount⟩

/-- The context in front of the last step of a statement. -/
structure StatementRead (ctx ctx' : MirParserContext) (new : List (Operand ℕ)) (i : ℕ) :
    Prop where
  extends_ : Extends ctx ctx'
  instructions : ctx'.instructions = ctx.instructions
  pendingFixups : ctx'.pendingFixups = ctx.pendingFixups ++ fixupsFrom none i new
  currentInstructionFixups : ctx'.currentInstructionFixups =
    range' ctx.pendingFixups.length (fixupsFrom none i new).length

theorem statementRead (verifySsa : Bool) (ctx : MirParserContext) (s : StatementText) :
    let dst := parseDestination verifySsa ctx.beginInstruction s
    let read := parseOperands s.type dst.2 dst.1 s.operands
    ∃ new, (∀ all, read.1 = some all → all = dst.1 ++ new) ∧
      StatementRead ctx read.2 new dst.1.length := by
  intro dst read
  obtain ⟨new, hall, hrest⟩ := records_parseOperands s.type dst.2 dst.1 s.operands
  have h := (records_parseDestination verifySsa ctx.beginInstruction s).trans hrest
  rw [nil_append] at h
  have hextends : Extends ctx ctx.beginInstruction := { Extends.refl ctx with }
  exact ⟨new, hall, hextends.trans h.extends, h.instructions, h.pendingFixups,
    h.currentInstructionFixups⟩

variable {verifySsa : Bool} {block : ℕ}

theorem extends_statement (ctx : MirParserContext) (s : StatementText) :
    Extends ctx (parseInstructionStatement verifySsa block ctx s) := by
  obtain ⟨new, hall, hread⟩ := statementRead verifySsa ctx s
  unfold parseInstructionStatement
  dsimp only
  split
  · next ctx' heq =>
      rw [heq] at hread
      have h := hread.extends_
      exact { h with errorCount := Nat.le_succ_of_le h.errorCount }
  · next operands ctx' heq =>
      rw [heq] at hread
      have h := hread.extends_
      exact { h with instructions := h.instructions.trans (prefix_append _ _) }

/-- A statement adds the references of its instruction; one that fails adds none. -/
theorem FixupsExact.statement (h : FixupsExact ctx) (s : StatementText) :
    FixupsExact (parseInstructionStatement verifySsa block ctx s) := by
  obtain ⟨new, hall, hread⟩ := statementRead verifySsa ctx s
  unfold parseInstructionStatement
  dsimp only
  split
  · next ctx' heq =>
      rw [heq] at hread
      unfold FixupsExact cancelInstruction recordError
      dsimp only
      rw [hread.pendingFixups, hread.currentInstructionFixups, hread.instructions,
        foldr_eraseIdx_range']
      exact h
  · next operands ctx' heq =>
      rw [heq] at hread
      have hoperands := hall operands (congrArg Prod.fst heq)
      have hdst := fixupsFrom_parseDestination verifySsa ctx.beginInstruction s
      unfold FixupsExact buildInstruction bindInstruction
      dsimp only
      rw [hread.pendingFixups, hread.currentInstructionFixups, hread.instructions,
        foldl_modify_range', fixupsFrom_bind, fixupsOf_append, fixupsOf, fixupsOf, hoperands,
        fixupsFrom_append, hdst, h]
      simp

variable (verifySsa block) in
theorem extends_statements (ctx : MirParserContext) (insts : List StatementText) :
    Extends ctx (insts.foldl (parseInstructionStatement verifySsa block) ctx) := by
  induction insts generalizing ctx with
  | nil => exact .refl ctx
  | cons s rest ih => exact (extends_statement ctx s).trans (ih _)

theorem FixupsExact.statements (h : FixupsExact ctx) (insts : List StatementText) :
    FixupsExact (insts.foldl (parseInstructionStatement verifySsa block) ctx) := by
  induction insts generalizing ctx with
  | nil => exact h
  | cons s rest ih => exact ih (h.statement s)

theorem FixupsExact.records (h : FixupsExact ctx) (hrecords : Records ctx ctx' []) :
    FixupsExact ctx' := by
  unfold FixupsExact
  rw [hrecords.pendingFixups, hrecords.instructions, append_nil]
  exact h

theorem extends_basicBlock (ctx : MirParserContext) (b : BlockText) :
    Extends ctx (parseBasicBlock verifySsa ctx b) :=
  (records_declareBlock ctx b.label).extends.trans (extends_statements _ _ _ b.body)

theorem FixupsExact.basicBlock (h : FixupsExact ctx) (b : BlockText) :
    FixupsExact (parseBasicBlock verifySsa ctx b) :=
  (h.records (records_declareBlock ctx b.label)).statements b.body

variable (verifySsa) in
theorem extends_blocks (ctx : MirParserContext) (body : List BlockText) :
    Extends ctx (body.foldl (parseBasicBlock verifySsa) ctx) := by
  induction body generalizing ctx with
  | nil => exact .refl ctx
  | cons b rest ih => exact (extends_basicBlock ctx b).trans (ih _)

variable (verifySsa) in
theorem FixupsExact.blocks (h : FixupsExact ctx) (body : List BlockText) :
    FixupsExact (body.foldl (parseBasicBlock verifySsa) ctx) := by
  induction body generalizing ctx with
  | nil => exact h
  | cons b rest ih => exact ih (h.basicBlock b)

/-- No reference to a block or a register is ever in the worklist. -/
theorem FixupsExact.resolvePendingFunctionFixups (h : FixupsExact ctx) :
    ctx.resolvePendingFunctionFixups = ctx := by
  have hall : ∀ (rest done : List Fixup), (∀ fixup ∈ rest, fixup.kind = .GlobalOrFunction) →
      rest.foldl resolveFunctionFixup { ctx with pendingFixups := done } =
        { ctx with pendingFixups := done ++ rest } := by
    intro rest
    induction rest with
    | nil => intro done _; rw [append_nil]; rfl
    | cons fixup rest ih =>
      intro done hkind
      have hstep : resolveFunctionFixup { ctx with pendingFixups := done }
          fixup = { ctx with pendingFixups := done ++ [fixup] } := by
        unfold resolveFunctionFixup
        rw [hkind fixup (mem_cons_self ..)]
      rw [foldl_cons, hstep, ih _ fun f hf => hkind f (mem_cons_of_mem _ hf),
        append_assoc, singleton_append]
  unfold MirParserContext.resolvePendingFunctionFixups
  exact hall ctx.pendingFixups [] fun fixup hfixup =>
    kind_of_mem_fixupsOf (p := 0) (h ▸ hfixup)

end

/-!
## Patching

Every operand that was not resolved is replaced by what its name stands for at the end,
and no other operand changes.
-/

/-- What a name stands for at the end. -/
def MirParserContext.lateSymbol {β : Type} (ctx : MirParserContext) (name : String) : Operand β :=
  match ctx.resolveFunction name with
  | some fn => .functionRef fn
  | none =>
    match ctx.resolveGlobal name with
    | some gv => .globalRef gv 0
    | none => .runtimeSymbol name

def Operand.patch (late : String → Operand ℕ) : Operand ℕ → Operand ℕ
  | .runtimeSymbol name => late name
  | op => op

def Instruction.patch (late : String → Operand ℕ) (inst : Instruction ℕ) : Instruction ℕ :=
  { inst with operands := inst.operands.map (Operand.patch late) }

/-- Steps of the last loop: only the instructions change. -/
structure Patched (ctx ctx' : MirParserContext) (insts : List (Instruction ℕ)) : Prop where
  globals : ctx'.globals = ctx.globals
  functions : ctx'.functions = ctx.functions
  objects : ctx'.objects = ctx.objects
  instructions : ctx'.instructions = insts
  errorCount : ctx.errorCount ≤ ctx'.errorCount

section

variable {ctx ctx' ctx'' : MirParserContext} {insts insts' : List (Instruction ℕ)}

theorem Patched.refl (ctx : MirParserContext) : Patched ctx ctx ctx.instructions :=
  ⟨rfl, rfl, rfl, rfl, Nat.le_refl _⟩

theorem Patched.trans (h : Patched ctx ctx' insts) (h' : Patched ctx' ctx'' insts') :
    Patched ctx ctx'' insts' :=
  ⟨h'.globals.trans h.globals, h'.functions.trans h.functions, h'.objects.trans h.objects,
    h'.instructions, Nat.le_trans h.errorCount h'.errorCount⟩

theorem Patched.lateSymbol (h : Patched ctx ctx' insts) :
    ctx'.lateSymbol (β := ℕ) = ctx.lateSymbol := by
  funext name
  unfold MirParserContext.lateSymbol MirParserContext.resolveFunction MirParserContext.resolveGlobal
  rw [h.functions, h.globals]

theorem patched_swapOperand (ctx : MirParserContext) (done rest : List (Instruction ℕ))
    (inst : Instruction ℕ) (operand : Operand ℕ) (i : ℕ)
    (h : ctx.instructions = done ++ inst :: rest) :
    Patched ctx (ctx.swapOperand (some done.length) operand i)
      (done ++ { inst with operands := inst.operands.set i operand } :: rest) := by
  refine { Patched.refl ctx with instructions := ?_ }
  simp only [swapOperand]
  rw [h, modify_length]

theorem patched_operand (ctx : MirParserContext) (done rest : List (Instruction ℕ))
    (inst : Instruction ℕ) (before after : List (Operand ℕ)) (op : Operand ℕ)
    (h : ctx.instructions = done ++ { inst with operands := before ++ op :: after } :: rest) :
    Patched ctx ((operandFixup (some done.length) before.length op).toList.foldl
        MirParserContext.resolveFixup ctx)
      (done ++ { inst with operands := before ++ op.patch ctx.lateSymbol :: after } :: rest) := by
  cases op with
  | runtimeSymbol name =>
    have hswap := fun operand => patched_swapOperand ctx done rest _ operand before.length h
    simp only [operandFixup, Option.toList_some, foldl_cons, foldl_nil,
      resolveFixup, Operand.patch, lateSymbol]
    cases ctx.resolveFunction name with
    | some fn => simpa using hswap (.functionRef fn)
    | none =>
      cases ctx.resolveGlobal name with
      | some gv => simpa using hswap (.globalRef gv 0)
      | none => exact ⟨rfl, rfl, rfl, h, Nat.le_succ _⟩
  | _ => exact h ▸ Patched.refl ctx

theorem patched_operands (ctx : MirParserContext) (done rest : List (Instruction ℕ))
    (inst : Instruction ℕ) (before after : List (Operand ℕ))
    (h : ctx.instructions = done ++ { inst with operands := before ++ after } :: rest) :
    Patched ctx ((fixupsFrom (some done.length) before.length after).foldl
        MirParserContext.resolveFixup ctx)
      (done ++
        { inst with operands := before ++ after.map (Operand.patch ctx.lateSymbol) } :: rest) := by
  induction after generalizing ctx before with
  | nil => exact h ▸ Patched.refl ctx
  | cons op after ih =>
    have hfirst := patched_operand ctx done rest inst before after op h
    have hrest := ih _ (before ++ [op.patch ctx.lateSymbol])
      (by rw [hfirst.instructions, append_assoc, singleton_append])
    rw [hfirst.lateSymbol, append_assoc, singleton_append, length_append, length_singleton] at hrest
    rw [fixupsFrom, foldl_append, map_cons]
    exact hfirst.trans hrest

theorem patched_instructions (ctx : MirParserContext) (done rest : List (Instruction ℕ))
    (h : ctx.instructions = done ++ rest) :
    Patched ctx ((fixupsOf done.length rest).foldl MirParserContext.resolveFixup ctx)
      (done ++ rest.map (Instruction.patch ctx.lateSymbol)) := by
  induction rest generalizing ctx done with
  | nil => exact h ▸ Patched.refl ctx
  | cons inst rest ih =>
    have hfirst := patched_operands ctx done rest inst [] inst.operands h
    rw [nil_append, length_nil] at hfirst
    have hrest := ih _ (done ++ [inst.patch ctx.lateSymbol])
      (by rw [hfirst.instructions, append_assoc]; rfl)
    rw [hfirst.lateSymbol, append_assoc, singleton_append, length_append, length_singleton] at hrest
    rw [fixupsOf, foldl_append, map_cons]
    exact hfirst.trans hrest

/-- The last loop replaces exactly the operands that were not resolved. -/
theorem FixupsExact.resolveAllPendingFixups (h : FixupsExact ctx) :
    Patched ctx ctx.resolveAllPendingFixups
      (ctx.instructions.map (Instruction.patch ctx.lateSymbol)) := by
  have hpatched := patched_instructions ctx [] ctx.instructions rfl
  unfold MirParserContext.resolveAllPendingFixups
  dsimp only
  rw [h.resolvePendingFunctionFixups, h]
  exact { hpatched with }

end

end EzPacker.DeclarationOrder
