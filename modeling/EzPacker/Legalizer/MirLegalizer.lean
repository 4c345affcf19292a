import EzPacker.Legalizer.LegalityQuery

/-!
# The legalizer

`legalizeBlock` pops instructions from a worklist, queries each, executes the action
the answer asks for, and pushes the instructions the action produced. A tracker
finds these by walking from the old predecessor of the visited instruction to its
old successor, leaving out the visited instruction itself. What the walk finds is
queried; an instruction that an action rewrote in place is not queried again.
-/

namespace EzPacker.Legalizer

open List Mir

/-- An instruction of a block; the id stands for its pointer. -/
structure BlockInstruction where
  id : ℕ
  inst : TypedInstruction
  deriving DecidableEq

def ids (instructions : List BlockInstruction) : List ℕ :=
  instructions.map BlockInstruction.id

/-- A block with the counters of the context. An instruction that is erased is no
longer in the list, and its id is not given out again. -/
structure MirBlock where
  instructions : List BlockInstruction
  nextInstruction : ℕ
  nextRegister : ℕ
  nodup : (ids instructions).Nodup
  lt_next : ∀ id ∈ ids instructions, id < nextInstruction

inductive LegalizeActionKind
  | Legal | WidenScalar | NarrowScalar | Bitcast | Libcall | Lower | Custom
  | Unsupported
  deriving DecidableEq, Repr

structure LegalityResponse where
  action : LegalizeActionKind
  slot : ℕ
  targetCompactId : ℕ
  handlerOrStringId : ℕ
  deriving DecidableEq, Repr

def LegalityResponse.isLegal (response : LegalityResponse) : Bool :=
  response.action = .Legal

/-- The tables of a target. Lower and Custom handlers are code of the target: they
get the block and the visited instruction and answer the block they leave, or none
when they fail. -/
structure LegalizerInfo where
  query : LegalityQuery → LegalityResponse
  executeCustom : ℕ → MirBlock → ℕ → Option MirBlock
  getLibcallKind : ℕ → Option ℕ
  getLibcallSymbol : ℕ → String

structure TargetLibcallRegistry where
  isAvailable : ℕ → Bool
  getLibcallName : ℕ → String
  getCallingConvention : ℕ → Option CallingConvDesc
  findKindByName : String → Option ℕ

structure TargetDesc where
  legalizerInfo : LegalizerInfo
  libcallRegistry : Option TargetLibcallRegistry
  getLibcallStr : ℕ → String
  getDefaultLibcallName : ℕ → String

/-- The legalizer of a function: its target, the type table and the calling
convention of the function. -/
structure MirLegalizer where
  targetDesc : TargetDesc
  typeTable : MirTypeTable
  callingConv : Option CallingConvDesc

namespace MirLegalizer

variable (l : MirLegalizer)

/-- The libcall of a kind, through the registry of the target. -/
def legalizeLibcallKind (kind : ℕ) (inst : TypedInstruction) (n : ℕ) : Option Rewrite :=
  let fallback := fun symbol : String =>
    if symbol = "" then l.targetDesc.getDefaultLibcallName kind else symbol
  match l.targetDesc.libcallRegistry with
  | some reg =>
    if reg.isAvailable kind then
      legalizeLibcall l.typeTable l.callingConv (reg.getCallingConvention kind)
        (fallback (reg.getLibcallName kind)) inst n
    else none
  | none =>
    legalizeLibcall l.typeTable l.callingConv none
      (fallback (l.targetDesc.getLibcallStr kind)) inst n

def executeLibcall (id : ℕ) (inst : TypedInstruction) (n : ℕ) : Option Rewrite :=
  match l.targetDesc.legalizerInfo.getLibcallKind id with
  | some kind => l.legalizeLibcallKind kind inst n
  | none =>
    let interned := l.targetDesc.legalizerInfo.getLibcallSymbol id
    let sym := if interned = "" then l.targetDesc.getLibcallStr (id % 256) else interned
    if sym = "" then none
    else
      match l.targetDesc.libcallRegistry.bind fun reg => reg.findKindByName sym with
      | some kind => l.legalizeLibcallKind kind inst n
      | none => legalizeLibcall l.typeTable l.callingConv none sym inst n

/-- The type a response names; the id 0 names none. -/
def targetType (response : LegalityResponse) : Option MirType :=
  if response.targetCompactId ≠ 0 then
    l.typeTable.getTypeByCompactId response.targetCompactId
  else none

/-- The built-in actions. -/
def executeBuiltin (response : LegalityResponse) (inst : TypedInstruction) (n : ℕ) :
    Option Rewrite :=
  match response.action with
  | .Legal => some (.notModified inst n)
  | .WidenScalar =>
    (l.targetType response).bind fun type => legalizeWidenScalar inst response.slot type n
  | .NarrowScalar =>
    (l.targetType response).bind fun type =>
      legalizeNarrowScalar l.typeTable inst response.slot type n
  | .Bitcast =>
    (l.targetType response).map fun type => legalizeBitcast inst response.slot type n
  | .Libcall => l.executeLibcall response.handlerOrStringId inst n
  | .Lower | .Custom | .Unsupported => none

end MirLegalizer

/-- The instructions in front of the one with the given id, the one itself and
those behind it. -/
def splitAt (id : ℕ) : List BlockInstruction →
    Option (List BlockInstruction × BlockInstruction × List BlockInstruction)
  | [] => none
  | i :: is =>
    if i.id = id then some ([], i, is)
    else (splitAt id is).map fun p => (i :: p.1, p.2.1, p.2.2)

/-- Gives instructions their ids, from `n` on. -/
def number (n : ℕ) (insts : List TypedInstruction) : List BlockInstruction :=
  insts.zipIdx.map fun p => ⟨n + p.2, p.1⟩

/-- The instructions that stand in place of a rewritten one. -/
def Rewrite.linked (r : Rewrite) (id n : ℕ) : List BlockInstruction :=
  number n r.before ++ r.target.toList.map (⟨id, ·⟩) ++ number (n + r.before.length) r.after

theorem splitAt_eq_some {id : ℕ} {is pre post : List BlockInstruction}
    {i : BlockInstruction} (h : splitAt id is = some (pre, i, post)) :
    is = pre ++ i :: post ∧ i.id = id := by
  induction is generalizing pre with
  | nil => cases h
  | cons x is ih =>
    simp only [splitAt] at h
    split at h
    · next hx =>
        simp only [Option.some.injEq, Prod.mk.injEq] at h
        obtain ⟨rfl, rfl, rfl⟩ := h
        exact ⟨rfl, hx⟩
    · obtain ⟨⟨pre', j, post'⟩, hp, hpair⟩ := Option.map_eq_some_iff.mp h
      simp only [Prod.mk.injEq] at hpair
      obtain ⟨rfl, rfl, rfl⟩ := hpair
      obtain ⟨rfl, hid⟩ := ih hp
      exact ⟨rfl, hid⟩

theorem splitAt_eq_none {id : ℕ} {is : List BlockInstruction}
    (h : splitAt id is = none) : id ∉ ids is := by
  induction is with
  | nil => simp [ids]
  | cons x is ih =>
    simp only [splitAt] at h
    split at h
    · cases h
    · next hx =>
        have htail := ih (Option.map_eq_none_iff.mp h)
        simp only [ids, map_cons, mem_cons, not_or] at htail ⊢
        exact ⟨Ne.symm hx, htail⟩

theorem ids_number (n : ℕ) (insts : List TypedInstruction) :
    ids (number n insts) = range' n insts.length := by
  have hgen : ∀ k, (insts.zipIdx k).map (fun p => n + p.2) = range' (n + k) insts.length := by
    induction insts with
    | nil => simp
    | cons inst insts ih =>
      intro k
      rw [zipIdx_cons, map_cons, ih, length_cons, range'_succ, Nat.add_assoc]
  simpa [ids, number, Function.comp_def] using hgen 0

@[simp] theorem ids_append (is js : List BlockInstruction) :
    ids (is ++ js) = ids is ++ ids js := map_append

@[simp] theorem ids_cons (i : BlockInstruction) (is : List BlockInstruction) :
    ids (i :: is) = i.id :: ids is := rfl

theorem ids_linked (r : Rewrite) (id n : ℕ) : ids (r.linked id n) = range' n r.before.length ++
      (if r.target.isSome then [id] else []) ++ range' (n + r.before.length) r.after.length := by
  have htarget : ids (r.target.toList.map (⟨id, ·⟩)) =
      if r.target.isSome then [id] else [] := by
    cases r.target <;> rfl
  rw [Rewrite.linked, ids_append, ids_append, ids_number, ids_number, htarget]

/-- The ids of the instructions that replace a rewritten one: its own and new
ones. -/
theorem mem_ids_linked {r : Rewrite} {id n i : ℕ} (h : i ∈ ids (r.linked id n)) :
    i = id ∨ n ≤ i ∧ i < n + r.before.length + r.after.length := by
  rw [ids_linked, mem_append, mem_append, mem_range'_1, mem_range'_1] at h
  rcases h with (h | h) | h
  · exact .inr ⟨h.1, by omega⟩
  · split at h
    · exact .inl (mem_singleton.mp h)
    · cases h
  · exact .inr ⟨by omega, h.2⟩

theorem nodup_ids_linked (r : Rewrite) {id n : ℕ} (h : id < n) : (ids (r.linked id n)).Nodup := by
  have htarget : ∀ a ∈ if r.target.isSome then [id] else [], a = id := by
    intro a ha
    split at ha
    · exact mem_singleton.mp ha
    · cases ha
  rw [ids_linked]
  refine nodup_append.mpr ⟨nodup_append.mpr ⟨nodup_range', ?_, ?_⟩, nodup_range', ?_⟩
  · split <;> simp
  · intro a ha b hb
    have ha' := (mem_range'_1.mp ha).1
    have hb' := htarget b hb
    omega
  · intro a ha b hb
    have hb' := (mem_range'_1.mp hb).1
    rcases mem_append.mp ha with ha | ha
    · have ha' := (mem_range'_1.mp ha).2
      omega
    · have ha' := htarget a ha
      omega

namespace MirBlock

variable {block : MirBlock} {pre post : List BlockInstruction} {i : BlockInstruction}

theorem id_lt (hsplit : block.instructions = pre ++ i :: post) : i.id < block.nextInstruction := by
  apply block.lt_next
  simp [hsplit]

def rewrite (block : MirBlock) (pre post : List BlockInstruction) (i : BlockInstruction)
    (hsplit : block.instructions = pre ++ i :: post) (r : Rewrite) : MirBlock where
  instructions := pre ++ (r.linked i.id block.nextInstruction ++ post)
  nextInstruction := block.nextInstruction + r.before.length + r.after.length
  nextRegister := r.nextRegister
  nodup := by
    have hnodup := block.nodup
    have hlt := block.lt_next
    simp only [hsplit, ids_append, ids_cons] at hnodup hlt
    obtain ⟨hpre, hrest, hdisjoint⟩ := nodup_append.mp hnodup
    obtain ⟨hi, hpost⟩ := nodup_cons.mp hrest
    rw [ids_append, ids_append]
    refine nodup_append.mpr ⟨hpre, nodup_append.mpr
      ⟨nodup_ids_linked r (id_lt hsplit), hpost, ?_⟩, ?_⟩
    · rintro a ha b hb rfl
      have hold := hlt a (by simp [hb])
      rcases mem_ids_linked ha with rfl | ⟨hnew, -⟩
      · exact hi hb
      · omega
    · rintro a ha b hb rfl
      have hold := hlt a (by simp [ha])
      rcases mem_append.mp hb with hb | hb
      · rcases mem_ids_linked hb with rfl | ⟨hnew, -⟩
        · exact hdisjoint _ ha _ mem_cons_self rfl
        · omega
      · exact hdisjoint a ha a (mem_cons_of_mem _ hb) rfl
  lt_next := by
    intro a ha
    have hlt := block.lt_next
    simp only [hsplit, ids_append, ids_cons] at hlt
    rw [ids_append, ids_append, mem_append, mem_append] at ha
    rcases ha with ha | ha | ha
    · have hold := hlt a (by simp [ha])
      omega
    · rcases mem_ids_linked ha with rfl | ⟨-, hnew⟩
      · have hold := id_lt hsplit
        omega
      · exact hnew
    · have hold := hlt a (by simp [ha])
      omega

end MirBlock

namespace MirLegalizer

variable (l : MirLegalizer)

def executeAction (response : LegalityResponse) (block : MirBlock)
    (pre post : List BlockInstruction) (i : BlockInstruction)
    (hsplit : block.instructions = pre ++ i :: post) : Option MirBlock :=
  match response.action with
  | .Lower | .Custom =>
    l.targetDesc.legalizerInfo.executeCustom response.handlerOrStringId block i.id
  | _ =>
    (l.executeBuiltin response i.inst block.nextRegister).map (block.rewrite pre post i hsplit)

end MirLegalizer

/-- What `InsertionTracker` remembers: the visited instruction and its neighbours. -/
structure InsertionTracker where
  target : ℕ
  prevBefore : Option ℕ
  nextBefore : Option ℕ
  deriving DecidableEq, Repr

namespace InsertionTracker

def new (pre post : List BlockInstruction) (i : BlockInstruction) : InsertionTracker :=
  ⟨i.id, pre.getLast?.map BlockInstruction.id, post.head?.map BlockInstruction.id⟩

/-- The walk from behind the old predecessor up to the old successor. An old
predecessor that was erased has no successor any more. -/
def getProducedInstructions (t : InsertionTracker) (instructions : List BlockInstruction) :
    List ℕ :=
  let start := match t.prevBefore with
    | none => ids instructions
    | some prev => ((ids instructions).dropWhile (· ≠ prev)).tail
  (start.takeWhile fun id => some id ≠ t.nextBefore).filter (· ≠ t.target)

end InsertionTracker

/-- The state of the loop. `handled` does not exist in the source: it lists the
instructions an action was executed on. -/
structure LegalizeState where
  block : MirBlock
  worklist : List ℕ
  query : LegalityQuery
  prevOperandCount : ℕ
  handled : List ℕ

namespace MirLegalizer

variable (l : MirLegalizer)

/-- One pass of the loop, with the instruction `id` popped from the worklist. -/
def visit (s : LegalizeState) (id : ℕ) (worklist : List ℕ) : Option LegalizeState :=
  match h : splitAt id s.block.instructions with
  | none => some { s with worklist := worklist }
  | some (pre, i, post) =>
    let (query, prevOperandCount) := fillQuery i.inst s.query s.prevOperandCount
    let response := l.targetDesc.legalizerInfo.query query
    if response.isLegal then some ⟨s.block, worklist, query, prevOperandCount, s.handled⟩
    else if response.action = .Unsupported then none
    else
      match l.executeAction response s.block pre post i (splitAt_eq_some h).1 with
      | none => none
      | some block =>
        let produced :=
          (InsertionTracker.new pre post i).getProducedInstructions block.instructions
        some ⟨block, produced ++ worklist, query, prevOperandCount, id :: s.handled⟩

/-- The loop with what is left of its budget of steps. -/
def legalizeLoop : ℕ → LegalizeState → Option LegalizeState
  | steps, s =>
    match s.worklist with
    | [] => some s
    | id :: worklist =>
      match steps with
      | 0 => none
      | steps + 1 =>
        match l.visit s id worklist with
        | none => none
        | some s' => legalizeLoop steps s'

/-- None when the block could not be legalized. -/
def legalizeBlock (block : MirBlock) : Option LegalizeState :=
  let maxSteps := block.instructions.length * 32 + 256
  l.legalizeLoop maxSteps ⟨block, ids block.instructions, .new, 0, []⟩

end MirLegalizer

end EzPacker.Legalizer
