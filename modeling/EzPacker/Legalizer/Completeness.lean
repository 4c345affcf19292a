import EzPacker.Legalizer.MirLegalizer

/-!
# What a legalized block contains

Every built-in action replaces the visited instruction by a stretch of
instructions: itself or not, with new ones around it. The tracker then finds all of
the stretch but the instruction itself, so that of the instructions of a block each
is on the worklist, was found legal, or was handed to an action. When the worklist
is empty the first case is gone; the third is not looked at again.
-/

namespace EzPacker.Legalizer

open List Option Mir

/-- The instruction `id` of `block` is replaced by a stretch of instructions that
are new or itself. -/
def Replaces (block : MirBlock) (id : ℕ) (block' : MirBlock) : Prop :=
  ∃ pre i post mid, block.instructions = pre ++ i :: post ∧ i.id = id ∧
    block'.instructions = pre ++ (mid ++ post) ∧
    ∀ j ∈ ids mid, j = id ∨ block.nextInstruction ≤ j

/-- The Lower and Custom handlers of the target insert, change and erase only where
the built-in actions do. -/
def HandlersLocal (info : LegalizerInfo) : Prop :=
  ∀ handlerId block id block', info.executeCustom handlerId block id = some block' →
    Replaces block id block'

namespace MirLegalizer

variable {l : MirLegalizer}

variable {block : MirBlock} {i : BlockInstruction} {post pre : List BlockInstruction}
  {s : LegalizeState}

theorem replaces_rewrite (hsplit : block.instructions = pre ++ i :: post) (r : Rewrite) :
    Replaces block i.id (block.rewrite pre post i hsplit r) := by
  refine ⟨pre, i, post, r.linked i.id block.nextInstruction, hsplit, rfl, rfl, ?_⟩
  intro j hj
  rcases mem_ids_linked hj with h | h
  · exact .inl h
  · exact .inr h.1

theorem replaces_executeAction (hlocal : HandlersLocal l.targetDesc.legalizerInfo)
    {response : LegalityResponse} {block' : MirBlock}
    {hsplit : block.instructions = pre ++ i :: post}
    (h : l.executeAction response block pre post i hsplit = some block') :
    Replaces block i.id block' := by
  have hbuiltin : (l.executeBuiltin response i.inst block.nextRegister).map
      (block.rewrite pre post i hsplit) = some block' → Replaces block i.id block' := by
    intro hb
    obtain ⟨r, -, rfl⟩ := map_eq_some_iff.mp hb
    exact replaces_rewrite hsplit r
  cases haction : response.action with
  | Lower | Custom => exact hlocal _ _ _ _ (by simpa [executeAction, haction] using h)
  | Legal | WidenScalar | NarrowScalar | Bitcast | Libcall | Unsupported =>
    exact hbuiltin (by simpa [executeAction, haction] using h)

/-- The walk starts at the first instruction of the stretch. -/
theorem dropWhile_prev {rest : List BlockInstruction} {p : BlockInstruction}
    (hnodup : (ids (pre ++ p :: rest)).Nodup) :
    ((ids (pre ++ p :: rest)).dropWhile (· ≠ p.id)).tail = ids rest := by
  have hnotin : ∀ a ∈ ids pre, decide (a ≠ p.id) = true := by
    intro a ha
    rw [ids_append, ids_cons] at hnodup
    have hne := (List.nodup_append.mp hnodup).2.2 a ha p.id List.mem_cons_self
    simpa using hne
  rw [ids_append, ids_cons, List.dropWhile_append_of_pos hnotin]
  simp

/-- The walk stops behind the stretch. -/
theorem takeWhile_next {mid : List BlockInstruction} (hnodup : (ids (mid ++ post)).Nodup) :
    (ids (mid ++ post)).takeWhile
        (fun id => some id ≠ post.head?.map BlockInstruction.id) = ids mid := by
  cases post with
  | nil =>
    rw [append_nil]
    exact takeWhile_eq_self_iff.mpr (by simp)
  | cons q post =>
    have hnotin : ∀ a ∈ ids mid, decide (some a ≠ some q.id) = true := by
      intro a ha
      rw [ids_append, ids_cons] at hnodup
      have hne := (nodup_append.mp hnodup).2.2 a ha q.id mem_cons_self
      simpa using hne
    rw [ids_append, ids_cons, head?_cons, map_some, takeWhile_append_of_pos hnotin]
    simp

/-- The tracker finds the whole stretch but the visited instruction. -/
theorem getProducedInstructions_eq {mid : List BlockInstruction}
    (hnodup : (ids (pre ++ (mid ++ post))).Nodup) :
    (InsertionTracker.new pre post i).getProducedInstructions (pre ++ (mid ++ post)) =
      (ids mid).filter (· ≠ i.id) := by
  have hrest : (ids (mid ++ post)).Nodup := by
    rw [ids_append] at hnodup
    exact (nodup_append.mp hnodup).2.1
  rcases eq_nil_or_concat pre with rfl | ⟨pre', p, rfl⟩
  · have htracker : InsertionTracker.new [] post i =
        ⟨i.id, none, post.head?.map BlockInstruction.id⟩ := rfl
    rw [htracker]
    exact congrArg (filter (· ≠ i.id)) (takeWhile_next hrest)
  · rw [concat_eq_append] at hnodup ⊢
    have hassoc : pre' ++ [p] ++ (mid ++ post) = pre' ++ p :: (mid ++ post) := by simp
    have htracker : InsertionTracker.new (pre' ++ [p]) post i =
        ⟨i.id, some p.id, post.head?.map BlockInstruction.id⟩ := by
      simp [InsertionTracker.new]
    rw [hassoc] at hnodup ⊢
    rw [htracker]
    have hwalk := takeWhile_next hrest
    rw [← dropWhile_prev hnodup] at hwalk
    exact congrArg (filter (· ≠ i.id)) hwalk

/-- The table answers Legal for the instruction with its current operands. -/
def IsLegal (l : MirLegalizer) (inst : TypedInstruction) : Prop :=
  (l.targetDesc.legalizerInfo.query (buildQuery inst)).isLegal = true

/-- The invariant of the loop. -/
structure Covered (l : MirLegalizer) (s : LegalizeState) : Prop where
  clean : CleanBehind s.query s.prevOperandCount
  covered : ∀ i ∈ s.block.instructions, i.id ∈ s.worklist ∨ i.id ∈ s.handled ∨ l.IsLegal i.inst

theorem Covered.pop (h : Covered l s) {id : ℕ} {worklist : List ℕ}
    (hwork : s.worklist = id :: worklist) (hi : i ∈ s.block.instructions) (hne : i.id ≠ id) :
    i.id ∈ worklist ∨ i.id ∈ s.handled ∨ l.IsLegal i.inst := by
  rcases h.covered i hi with hmem | hrest
  · rw [hwork] at hmem
    exact .inl ((mem_cons.mp hmem).resolve_left hne)
  · exact .inr hrest

theorem id_ne_of_split {j : BlockInstruction} (hsplit : block.instructions = pre ++ i :: post)
    (hj : j ∈ pre ∨ j ∈ post) : j.id ≠ i.id := by
  have hnodup := block.nodup
  rw [hsplit, ids_append, ids_cons] at hnodup
  obtain ⟨-, hrest, hdisjoint⟩ := nodup_append.mp hnodup
  rcases hj with hj | hj
  · exact hdisjoint j.id (mem_map_of_mem hj) i.id mem_cons_self
  · intro heq
    apply (nodup_cons.mp hrest).1
    rw [← heq]
    exact mem_map_of_mem hj

theorem split_unique {pre' post' : List BlockInstruction} {i' : BlockInstruction}
    (h : block.instructions = pre ++ i :: post) (h' : block.instructions = pre' ++ i' :: post')
    (hid : i'.id = i.id) : pre' = pre ∧ post' = post := by
  have hnodup := block.nodup
  rw [h] at hnodup
  rw [h] at h'
  clear h
  induction pre generalizing pre' with
  | nil =>
    cases pre' with
    | nil => exact ⟨rfl, (cons.inj h').2.symm⟩
    | cons x pre' =>
      obtain ⟨rfl, rfl⟩ := cons.inj h'
      simp [ids_cons, hid] at hnodup
  | cons x pre ih =>
    cases pre' with
    | nil =>
      obtain ⟨rfl, rfl⟩ := cons.inj h'
      simp [ids_cons, hid] at hnodup
    | cons x' pre' =>
      obtain ⟨rfl, htail⟩ := cons.inj h'
      obtain ⟨rfl, rfl⟩ := ih htail (nodup_cons.mp hnodup).2
      exact ⟨rfl, rfl⟩

/-- One pass of the loop keeps every instruction covered. -/
theorem Covered.visit (hlocal : HandlersLocal l.targetDesc.legalizerInfo) {s' : LegalizeState}
    (h : Covered l s) {id : ℕ} {worklist : List ℕ} (hwork : s.worklist = id :: worklist)
    (hvisit : l.visit s id worklist = some s') : Covered l s' := by
  unfold MirLegalizer.visit at hvisit
  split at hvisit
  · next hnone =>
      obtain rfl := some.inj hvisit
      refine ⟨h.clean, ?_⟩
      intro i hi
      apply h.pop hwork hi
      intro heq
      exact splitAt_eq_none hnone (heq ▸ mem_map_of_mem hi)
  · next pre i post hsome =>
      obtain ⟨hsplit, hid⟩ := splitAt_eq_some hsome
      have hquery := fillQuery_eq_buildQuery h.clean i.inst
      have hclean := cleanBehind_fillQuery h.clean i.inst
      simp only [hquery] at hvisit
      rw [hquery] at hclean
      split at hvisit
      · next hlegal =>
          obtain rfl := some.inj hvisit
          refine ⟨hclean, ?_⟩
          intro j hj
          by_cases heq : j.id = id
          · have hji : j = i := by
              rw [hsplit, mem_append, mem_cons] at hj
              rcases hj with hj | rfl | hj
              · exact absurd (heq.trans hid.symm) (id_ne_of_split hsplit (.inl hj))
              · rfl
              · exact absurd (heq.trans hid.symm) (id_ne_of_split hsplit (.inr hj))
            exact .inr (.inr (hji ▸ hlegal))
          · exact h.pop hwork hj heq
      · split at hvisit
        · cases hvisit
        · split at hvisit
          · cases hvisit
          · next block haction =>
              obtain rfl := some.inj hvisit
              obtain ⟨pre', i', post', mid, hsplit', hid', hblock, -⟩ :=
                replaces_executeAction hlocal haction
              obtain ⟨rfl, rfl⟩ := split_unique hsplit hsplit' hid'
              have hnodup := block.nodup
              rw [hblock] at hnodup
              refine ⟨hclean, ?_⟩
              intro j hj
              simp only [hblock, getProducedInstructions_eq hnodup, mem_append, mem_cons] at hj ⊢
              have hkeep : j ∈ pre' ∨ j ∈ post' →
                  j.id ∈ worklist ∨ j.id ∈ s.handled ∨ l.IsLegal j.inst := by
                intro hj
                have hne := id_ne_of_split hsplit hj
                apply h.pop hwork _ (hid ▸ hne)
                rw [hsplit]
                rcases hj with hj | hj
                · exact mem_append_left _ hj
                · exact mem_append_right _ (mem_cons_of_mem _ hj)
              rcases hj with hj | hj | hj
              · rcases hkeep (.inl hj) with hw | hh | hl
                · exact .inl (.inr hw)
                · exact .inr (.inl (.inr hh))
                · exact .inr (.inr hl)
              · by_cases heq : j.id = i.id
                · exact .inr (.inl (.inl (heq.trans hid)))
                · refine .inl (.inl (mem_filter.mpr ⟨mem_map_of_mem hj, ?_⟩))
                  simpa using heq
              · rcases hkeep (.inr hj) with hw | hh | hl
                · exact .inl (.inr hw)
                · exact .inr (.inl (.inr hh))
                · exact .inr (.inr hl)

/-- The loop ends, when it does not fail, with every instruction covered and nothing
left to visit. -/
theorem Covered.legalizeLoop (hlocal : HandlersLocal l.targetDesc.legalizerInfo) {steps : ℕ}
    {s' : LegalizeState} (h : Covered l s) (hloop : l.legalizeLoop steps s = some s') :
    Covered l s' ∧ s'.worklist = [] := by
  induction steps generalizing s with
  | zero =>
    unfold MirLegalizer.legalizeLoop at hloop
    split at hloop
    · next hnil =>
        obtain rfl := some.inj hloop
        exact ⟨h, hnil⟩
    · cases hloop
  | succ steps ih =>
    unfold MirLegalizer.legalizeLoop at hloop
    split at hloop
    · next hnil =>
        obtain rfl := some.inj hloop
        exact ⟨h, hnil⟩
    · next id worklist hwork =>
        simp only at hloop
        split at hloop
        · cases hloop
        · next s'' hvisit => exact ih (h.visit hlocal hwork hvisit) hloop

theorem covered_start (block : MirBlock) : Covered l ⟨block, ids block.instructions, .new, 0, []⟩ :=
  ⟨cleanBehind_new, fun _ hi => .inl (mem_map_of_mem hi)⟩

def bit (id compactId bits : ℕ) (k : ℕ) (h : bits = 2 ^ k) : MirType :=
  ⟨.Integer, id, compactId, bits, bits, .inr ⟨k, h⟩⟩

def i8 : MirType := bit 5 5 8 3 rfl

def i16 : MirType := bit 6 6 16 4 rfl

def bindToken : MirType := ⟨.BindingToken, 2, 2, 0, 0, .inl rfl⟩

def exampleTypes : MirTypeTable where
  getTypeByCompactId id := if id = 6 then some i16 else if id = 5 then some i8 else none
  getPtr type := ⟨.Pointer, 100 + type.id, 3, 64, 64, MirType.wordAlignment⟩
  bindToken := bindToken
  i1 := bit 4 4 1 0 rfl

/-- A handler that lowers a call in place. -/
def callHandler (block : MirBlock) (id : ℕ) : Option MirBlock :=
  match h : splitAt id block.instructions with
  | none => none
  | some (pre, i, post) =>
    (legalizeCall exampleTypes none i.inst block.nextRegister).map
      (block.rewrite pre post i (splitAt_eq_some h).1)

def haltHandler (block : MirBlock) (_id : ℕ) : Option MirBlock :=
  some
    { instructions := ⟨block.nextInstruction, build .HALT []⟩ :: block.instructions
      nextInstruction := block.nextInstruction + 1
      nextRegister := block.nextRegister
      nodup := nodup_cons.mpr ⟨fun h => absurd (block.lt_next _ h) (Nat.lt_irrefl _), block.nodup⟩
      lt_next := by
        intro id h
        rcases mem_cons.mp h with rfl | h
        · exact Nat.lt_succ_self _
        · exact Nat.lt_succ_of_lt (block.lt_next id h) }

/-- Calls are lowered, eight-bit additions widened to sixteen bits, NOP handed to
`haltHandler`; sixteen-bit additions and HALT are not supported and all else is
legal. -/
def answer (q : LegalityQuery) : LegalityResponse :=
  match q.opcode with
  | some .CALL => ⟨.Lower, 0, 0, 0⟩
  | some .ADD =>
    if (q.slots 0).compactId = 5 then ⟨.WidenScalar, 0, 6, 0⟩ else ⟨.Unsupported, 0, 0, 0⟩
  | some .NOP => ⟨.Custom, 0, 0, 1⟩
  | some .HALT => ⟨.Unsupported, 0, 0, 0⟩
  | _ => ⟨.Legal, 0, 0, 0⟩

def exampleLegalizer (haltOn : Bool) : MirLegalizer where
  targetDesc :=
    { legalizerInfo :=
        { query := answer
          executeCustom := fun handler block id =>
            if handler = 0 then callHandler block id
            else if haltOn then haltHandler block id
            else none
          getLibcallKind := fun _ => none
          getLibcallSymbol := fun _ => "" }
      libcallRegistry := none
      getLibcallStr := fun _ => ""
      getDefaultLibcallName := fun _ => "" }
  typeTable := exampleTypes
  callingConv := none

def blockOf (inst : TypedInstruction) : MirBlock :=
  ⟨[⟨0, inst⟩], 1, 10, nodup_singleton _, by simp [ids]⟩

def addI8 : TypedInstruction :=
  build .ADD [⟨.register ⟨true, none, 0⟩, some i8⟩, ⟨.register ⟨true, none, 1⟩, some i8⟩,
    ⟨.register ⟨true, none, 2⟩, some i8⟩]

def callF : TypedInstruction := build .CALL [⟨.runtimeSymbol "f", none⟩]

theorem handlersLocal_callHandler {block' : MirBlock} {id : ℕ}
    (h : callHandler block id = some block') : Replaces block id block' := by
  unfold callHandler at h
  split at h
  · cases h
  · next pre i post hsome =>
      obtain ⟨hsplit, rfl⟩ := splitAt_eq_some hsome
      obtain ⟨r, -, rfl⟩ := map_eq_some_iff.mp h
      exact replaces_rewrite hsplit r

theorem handlersLocal_example :
    HandlersLocal (exampleLegalizer false).targetDesc.legalizerInfo := by
  intro handlerId block id block' h
  have hcall : callHandler block id = some block' := by
    by_cases h0 : handlerId = 0
    · simpa [exampleLegalizer, h0] using h
    · simp [exampleLegalizer, h0] at h
  exact handlersLocal_callHandler hcall

def LeavesIllegal (l : MirLegalizer) (block : MirBlock) (i : BlockInstruction) : Prop :=
  ∃ s, l.legalizeBlock block = some s ∧ i ∈ s.block.instructions ∧ ¬ l.IsLegal i.inst

theorem leavesIllegal_of_eval {l : MirLegalizer}
    (h : (l.legalizeBlock block).map (fun s => decide (i ∈ s.block.instructions)) = some true)
    (hi : (l.targetDesc.legalizerInfo.query (buildQuery i.inst)).isLegal = false) :
    LeavesIllegal l block i := by
  obtain ⟨s, hs, hmem⟩ := map_eq_some_iff.mp h
  exact ⟨s, hs, of_decide_eq_true hmem, by simp [IsLegal, hi]⟩

end MirLegalizer

end EzPacker.Legalizer
