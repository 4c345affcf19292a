import EzPacker.PhiElimination.RegisterAccess
import EzPacker.PhiElimination.Simulation

/-!
# What selection leaves of a function

Selection is a sequence of steps: a block is reached, and its PHIs are replaced one by
one. The moves that a block has got by the time it is reached stand in front of its
generic branch, the later ones in front of the first target instruction that branches.
At every stage a block consists of its instructions with these moves; a register that is
needed and may have a value is still written somewhere, so the moves of a PHI whose result
is needed are all put in.
-/

namespace EzPacker.PhiElimination

open MirFunction List Mir CodeFlow

/-! ### Moves -/

theorem isBr_moveInst (mv : Move) : isBr mv.inst = false := by
  unfold isBr Move.inst movInst
  simp [MirInstruction.getMetadata, getMeta]

/-- Moves in front of the first branch. -/
def inserted (moves : List Move) (insts : List MirInstruction) : List MirInstruction :=
  insertBefore isBr (moves.map Move.inst) insts

theorem insertBeforeBranch_inserted (mv : Move) (moves : List Move) (insts : List MirInstruction) :
    insertBeforeBranch mv.inst (inserted moves insts) = inserted (moves ++ [mv]) insts := by
  have hbr : ∀ inst ∈ moves.map Move.inst, isBr inst = false := by
    intro inst hinst
    obtain ⟨mv', -, rfl⟩ := mem_map.mp hinst
    exact isBr_moveInst mv'
  have hone : insertBeforeBranch mv.inst (inserted moves insts) =
      insertBefore isBr [mv.inst] (inserted moves insts) := by
    simp [insertBeforeBranch, insertBefore]
  rw [hone, inserted, insertBefore_insertBefore hbr, inserted, map_append]
  rfl

def moveOf (f : MirFunction) (dst : MirRegisterRef) (op : MirOperand) : Option Move :=
  match op with
  | .register src =>
    if h : dst.isVirtual = true ∧ src.isVirtual = true then
      if f.isUndefined src then none else some ⟨dst, src, h.1, h.2⟩
    else none
  | _ => none

variable {mv : Move} {inst : MirInstruction}

theorem moveOf_eq_some {f : MirFunction} {dst : MirRegisterRef} {op : MirOperand} :
    moveOf f dst op = some mv ↔
      op = .register mv.src ∧ dst = mv.dst ∧ f.isUndefined mv.src = false := by
  unfold moveOf
  constructor
  · intro h
    split at h
    · split at h
      · split at h
        · cases h
        · next hdefined =>
            obtain rfl := Option.some.inj h
            exact ⟨rfl, rfl, by simpa using hdefined⟩
      · cases h
    · cases h
  · rintro ⟨rfl, rfl, hdefined⟩
    simp [mv.dst_virtual, mv.src_virtual, hdefined]

def movesOf (f : MirFunction) (pred : ℕ) (b : MirBlock) (phi : MirInstruction) : List Move :=
  match phi.operands with
  | .register dst :: incoming =>
    ((b.predecessors.zip incoming).filter (·.1 = pred)).filterMap fun i => moveOf f dst i.2
  | _ => []

theorem insertIncoming_eq {f : MirFunction} {dst : MirRegisterRef}
    (hdst : dst.isVirtual = true) {i : ℕ × MirOperand} (hi : IsIncoming i.2) :
    f.insertIncoming dst i =
      match moveOf f dst i.2 with
      | some mv => f.insertMove i.1 mv.inst
      | none => f := by
  obtain ⟨pred, op⟩ := i
  cases op with
  | register src =>
    change src.isVirtual = true at hi
    unfold insertIncoming moveOf
    dsimp only
    rw [dif_pos ⟨hdst, hi⟩]
    split
    · rfl
    · rfl
  | _ => rfl

/-! ### Steps -/

inductive Step
  | reach (id : ℕ)
  | phi (block : MirBlock) (inst : MirInstruction)

def stepsOf (b : MirBlock) : List Step := .reach b.id :: b.phis.reverse.map (.phi b)

def Step.run (ctx : SelectorContext) (g : MirFunction) : Step → MirFunction
  | reach id => g.selectBody ctx id
  | phi b inst => g.selectPHI b inst

theorem selectFunction_eq (f : MirFunction) (ctx : SelectorContext) :
    f.selectFunction ctx = (f.blocks.flatMap stepsOf).foldl (Step.run ctx) f := by
  unfold selectFunction
  rw [foldl_flatMap]
  unfold selectBlock stepsOf
  simp only [foldl_cons, foldl_map]
  rfl

/-- The PHIs of a block that are still to be replaced. -/
def phisOf (id : ℕ) (todo : List Step) : List MirInstruction :=
  (todo.filterMap fun
    | .reach _ => none
    | .phi b inst => if b.id = id then some inst else none).reverse

/-- The moves that steps may put into a block. -/
def stepMoves (f : MirFunction) (pred : ℕ) (steps : List Step) : List Move :=
  steps.flatMap fun
    | .reach _ => []
    | .phi b inst => movesOf f pred b inst

/-! ### Stages -/

/-- How far the selection of a function is: the blocks that it has reached, the moves that
a block got before and after it was reached, and the PHIs that are left. -/
structure Stage where
  reached : List ℕ
  early : ℕ → List Move
  late : ℕ → List Move
  phis : ℕ → List MirInstruction
  late_nil : ∀ id, id ∉ reached → late id = []

namespace Stage

variable (s : Stage)

def block (ctx : SelectorContext) (b : MirBlock) : MirBlock where
  id := b.id
  predecessors := b.predecessors
  phis := s.phis b.id
  body :=
    if b.id ∈ s.reached then
      inserted (s.late b.id) ((inserted (s.early b.id) b.body).flatMap (selectControl ctx))
    else inserted (s.early b.id) b.body

def function (ctx : SelectorContext) (f : MirFunction) : MirFunction :=
  { f with blocks := f.blocks.map (s.block ctx) }

def moves (id : ℕ) : List Move := s.early id ++ s.late id

def reach (id : ℕ) : Stage where
  reached := s.reached ++ [id]
  early := s.early
  late := s.late
  phis := s.phis
  late_nil := by
    intro id' hid'
    exact s.late_nil id' fun h => hid' (mem_append_left _ h)

def dropPhi (id : ℕ) : Stage where
  reached := s.reached
  early := s.early
  late := s.late
  phis := Function.update s.phis id (s.phis id).dropLast
  late_nil := s.late_nil

def addMove (pred : ℕ) (mv : Move) : Stage where
  reached := s.reached
  early :=
    if pred ∈ s.reached then s.early
    else Function.update s.early pred (s.early pred ++ [mv])
  late :=
    if pred ∈ s.reached then Function.update s.late pred (s.late pred ++ [mv]) else s.late
  phis := s.phis
  late_nil := by
    intro id hid
    split
    · next hreached =>
        have hne : id ≠ pred := fun h => hid (h ▸ hreached)
        rw [Function.update_of_ne hne]
        exact s.late_nil id hid
    · exact s.late_nil id hid

variable {s} {f : MirFunction} {ctx : SelectorContext}

theorem mapBlock_function {change : MirBlock → MirBlock} {id : ℕ} {s' : Stage}
    (hsame : ∀ b, b.id = id → change (s.block ctx b) = s'.block ctx b)
    (hother : ∀ b, b.id ≠ id → s.block ctx b = s'.block ctx b) :
    (s.function ctx f).mapBlock id change = s'.function ctx f := by
  unfold mapBlock function
  dsimp only
  rw [map_map]
  congr 1
  apply map_congr_left
  intro b _
  by_cases hid : b.id = id
  · exact (if_pos hid).trans (hsame b hid)
  · exact (if_neg hid).trans (hother b hid)

theorem selectBody_function {id : ℕ} (hid : id ∉ s.reached) :
    (s.function ctx f).selectBody ctx id = (s.reach id).function ctx f := by
  have hlate := s.late_nil id hid
  apply mapBlock_function
  · rintro b rfl
    simp [block, reach, hid, hlate, inserted, insertBefore_nil]
  · intro b hb
    simp [block, reach, hb]

theorem dropLast_function (id : ℕ) :
    ((s.function ctx f).mapBlock id fun b => { b with phis := b.phis.dropLast }) =
      (s.dropPhi id).function ctx f := by
  apply mapBlock_function
  · rintro b rfl
    simp only [block, dropPhi, Function.update_self]
    rfl
  · intro b hb
    simp only [block, dropPhi, Function.update_of_ne hb]
    rfl

theorem insertMove_function (pred : ℕ) (mv : Move) :
    (s.function ctx f).insertMove pred mv.inst = (s.addMove pred mv).function ctx f := by
  apply mapBlock_function
  · rintro b rfl
    by_cases hreached : b.id ∈ s.reached
    · simp [block, addMove, hreached, insertBeforeBranch_inserted]
    · simp [block, addMove, hreached, insertBeforeBranch_inserted]
  · intro b hb
    by_cases hreached : pred ∈ s.reached
    · simp [block, addMove, hreached, hb]
    · simp [block, addMove, hreached, hb]

/-- The later stage has the same blocks reached and PHIs left, and has got the moves `new`
in each block. -/
structure GotMoves (s s' : Stage) (new : ℕ → List Move) : Prop where
  reached : s'.reached = s.reached
  phis : s'.phis = s.phis
  early : ∀ id, s'.early id = s.early id ++ if id ∈ s.reached then [] else new id
  late : ∀ id, s'.late id = s.late id ++ if id ∈ s.reached then new id else []

theorem GotMoves.refl (s : Stage) : GotMoves s s fun _ => [] :=
  ⟨rfl, rfl, fun _ => by simp, fun _ => by simp⟩

theorem GotMoves.addMove (s : Stage) (pred : ℕ) (mv : Move) :
    GotMoves s (s.addMove pred mv) fun id => if id = pred then [mv] else [] where
  reached := rfl
  phis := rfl
  early id := by
    unfold Stage.addMove
    dsimp only
    by_cases hid : id = pred
    · subst hid
      by_cases hreached : id ∈ s.reached
      · simp [hreached]
      · simp [hreached]
    · by_cases hreached : pred ∈ s.reached
      · simp [hreached, hid]
      · simp [hreached, hid]
  late id := by
    unfold Stage.addMove
    dsimp only
    by_cases hid : id = pred
    · subst hid
      by_cases hreached : id ∈ s.reached
      · simp [hreached]
      · simp [hreached]
    · by_cases hreached : pred ∈ s.reached
      · simp [hreached, hid]
      · simp [hreached, hid]

theorem GotMoves.trans {s₁ s₂ s₃ : Stage} {new new' : ℕ → List Move}
    (h : GotMoves s₁ s₂ new) (h' : GotMoves s₂ s₃ new') :
    GotMoves s₁ s₃ fun id => new id ++ new' id where
  reached := h'.reached.trans h.reached
  phis := h'.phis.trans h.phis
  early id := by
    rw [h'.early, h.early, h.reached, append_assoc]
    split
    · rfl
    · rfl
  late id := by
    rw [h'.late, h.late, h.reached, append_assoc]
    split
    · rfl
    · rfl

theorem GotMoves.mem_moves {s s' : Stage} {new : ℕ → List Move} (h : GotMoves s s' new) {id : ℕ} :
    mv ∈ s'.moves id ↔ mv ∈ s.moves id ∨ mv ∈ new id := by
  unfold moves
  rw [h.early, h.late]
  by_cases hid : id ∈ s.reached
  · simp [hid, or_assoc]
  · simp [hid, s.late_nil id hid]

end Stage

/-! ### What a stage reads and writes -/

section

variable {g : MirFunction} {r : ℕ}

theorem hasDef_iff : g.hasDef r = true ↔
    ∃ b ∈ g.blocks, ∃ inst, (inst ∈ b.phis ∨ inst ∈ b.body) ∧ r ∈ writes inst := by
  simp [hasDef, any_eq_true, or_and_right, exists_or]

theorem isUsed_iff : g.isUsed r = true ↔
    ∃ b ∈ g.blocks, ∃ inst, (inst ∈ b.phis ∨ inst ∈ b.body) ∧ r ∈ reads inst := by
  simp [isUsed, any_eq_true, or_and_right, exists_or]

theorem mem_mapBlock {id : ℕ} {change : MirBlock → MirBlock} {b' : MirBlock} :
    b' ∈ (g.mapBlock id change).blocks ↔
      ∃ b ∈ g.blocks, b' = if b.id = id then change b else b := by
  unfold mapBlock
  simp [eq_comm]

theorem mem_insertMove {pred : ℕ} {mov : MirInstruction} :
    (∃ b ∈ (g.insertMove pred mov).blocks, inst ∈ b.phis ∨ inst ∈ b.body) ↔
      (∃ b ∈ g.blocks, inst ∈ b.phis ∨ inst ∈ b.body) ∨
        inst = mov ∧ ∃ b ∈ g.blocks, b.id = pred := by
  have hbody : ∀ insts : List MirInstruction, inst ∈ insertBeforeBranch mov insts ↔
      inst = mov ∨ inst ∈ insts := by
    intro insts
    rw [show insertBeforeBranch mov insts = insertBefore isBr [mov] insts by
      simp [insertBeforeBranch, insertBefore], mem_insertBefore, mem_singleton]
  constructor
  · rintro ⟨b', hb', hinst⟩
    obtain ⟨b, hb, rfl⟩ := mem_mapBlock.mp hb'
    split at hinst
    · next hid =>
        rw [hbody] at hinst
        rcases hinst with h | rfl | h
        · exact .inl ⟨b, hb, .inl h⟩
        · exact .inr ⟨rfl, b, hb, hid⟩
        · exact .inl ⟨b, hb, .inr h⟩
    · exact .inl ⟨b, hb, hinst⟩
  · rintro (⟨b, hb, hinst⟩ | ⟨rfl, b, hb, hid⟩)
    · refine ⟨_, mem_mapBlock.mpr ⟨b, hb, rfl⟩, ?_⟩
      split
      · rw [hbody]
        tauto
      · exact hinst
    · refine ⟨_, mem_mapBlock.mpr ⟨b, hb, rfl⟩, ?_⟩
      rw [if_pos hid, hbody]
      exact .inr (.inl rfl)

theorem eq_of_mem_writes_move (h : r ∈ writes mv.inst) : r = mv.dst.id := by
  obtain ⟨i, reg, hop, -, hid, hwrite⟩ :=
    exists_of_mem_writes (fun _ hdesc => by cases hdesc) h
  rcases i with _ | _ | i
  · cases hop
    exact hid.symm
  · cases hwrite
  · cases hop

theorem hasDef_of_insertMove {pred : ℕ} (h : (g.insertMove pred mv.inst).hasDef r = true) :
    g.hasDef r = true ∨ r = mv.dst.id := by
  obtain ⟨b, hb, inst, hinst, hr⟩ := hasDef_iff.mp h
  rcases mem_insertMove.mp ⟨b, hb, hinst⟩ with ⟨b', hb', hinst'⟩ | ⟨rfl, -⟩
  · exact .inl (hasDef_iff.mpr ⟨b', hb', inst, hinst', hr⟩)
  · exact .inr (eq_of_mem_writes_move hr)

theorem hasDef_insertMove {pred : ℕ} (h : g.hasDef r = true) :
    (g.insertMove pred mv.inst).hasDef r = true := by
  obtain ⟨b, hb, inst, hinst, hr⟩ := hasDef_iff.mp h
  obtain ⟨b', hb', hinst'⟩ : ∃ b ∈ (g.insertMove pred mv.inst).blocks,
      inst ∈ b.phis ∨ inst ∈ b.body := mem_insertMove.mpr (.inl ⟨b, hb, hinst⟩)
  exact hasDef_iff.mpr ⟨b', hb', inst, hinst', hr⟩

theorem isUndefined_mono {f : MirFunction} (hparams : g.params = f.params)
    (hnamed : g.isNamedUndef = f.isNamedUndef)
    (hmono : ∀ r, g.hasDef r = true → f.hasDef r = true) {reg : MirRegisterRef}
    (h : f.isUndefined reg = true) : g.isUndefined reg = true := by
  unfold isUndefined at *
  rw [hparams, hnamed]
  cases hg : g.hasDef reg.id with
  | false =>
    rw [Bool.or_eq_true] at h ⊢
    rcases h with h | h
    · exact .inl h
    · right
      simp only [Bool.and_eq_true] at h ⊢
      exact ⟨h.1, rfl⟩
  | true => rwa [hmono _ hg] at h

end

/-!
## The steps of a selection

What holds at every stage: the moves that a block has got are moves of PHIs in the order
of the steps, split at the step that reached the block; a merged register that is needed
and may have a value is still written; and the moves of the PHIs that were replaced are
there as far as they matter.
-/

section

variable {ctx : SelectorContext}

/-! ### The moves of one PHI -/

/-- What the moves of the incoming operands `incoming` do to a stage. -/
structure InsertsIncoming (f : MirFunction) (ctx : SelectorContext) (dst : MirRegisterRef)
    (incoming : List (ℕ × MirOperand)) (s s' : Stage) (new : ℕ → List Move) : Prop where
  got : s.GotMoves s' new
  mono : ∀ r, (s'.function ctx f).hasDef r = true → f.hasDef r = true
  keeps : ∀ r, (s.function ctx f).hasDef r = true → (s'.function ctx f).hasDef r = true
  sublist : ∀ pred, (new pred).Sublist
    ((incoming.filter (·.1 = pred)).filterMap fun i => moveOf f dst i.2)
  complete : ∀ i ∈ incoming, ∀ mv, moveOf f dst i.2 = some mv →
    mv.src.id ∈ f.params ∨ (s.function ctx f).hasDef mv.src.id = true → mv ∈ new i.1

/-- A register that is defined in the function, and that a stage still writes, is not
taken for undefined. -/
theorem isUndefined_function {f : MirFunction} {s : Stage} {reg : MirRegisterRef}
    (h : f.isUndefined reg = false)
    (hdef : reg.id ∈ f.params ∨ (s.function ctx f).hasDef reg.id = true) :
    (s.function ctx f).isUndefined reg = false := by
  unfold isUndefined at *
  rw [Bool.or_eq_false_iff] at h ⊢
  refine ⟨h.1, ?_⟩
  rcases hdef with hparam | hdef
  · have hparam' : reg.id ∈ (s.function ctx f).params := hparam
    simp [hparam']
  · simp [hdef]

theorem foldl_insertIncoming {f : MirFunction} {dst : MirRegisterRef}
    (hdst : dst.isVirtual = true) (hresult : f.hasDef dst.id = true)
    {incoming : List (ℕ × MirOperand)} (hincoming : ∀ i ∈ incoming, IsIncoming i.2) {s : Stage}
    (hmono : ∀ r, (s.function ctx f).hasDef r = true → f.hasDef r = true) :
    ∃ s' new, incoming.foldl (fun f i => f.insertIncoming dst i) (s.function ctx f) =
        s'.function ctx f ∧ InsertsIncoming f ctx dst incoming s s' new := by
  induction incoming generalizing s with
  | nil =>
    exact ⟨s, _, rfl, Stage.GotMoves.refl s, hmono, fun _ h => h,
      fun _ => Sublist.refl _, nofun⟩
  | cons i rest ih =>
    have hrest : ∀ j ∈ rest, IsIncoming j.2 :=
      fun j hj => hincoming j (mem_cons_of_mem i hj)
    have hstep := insertIncoming_eq (f := s.function ctx f) hdst (hincoming i mem_cons_self)
    rw [foldl_cons, hstep]
    cases hmove : moveOf (s.function ctx f) dst i.2 with
    | none =>
      obtain ⟨s', new, hfold, hinserts⟩ := ih hrest hmono
      refine ⟨s', new, hfold, hinserts.got, hinserts.mono, hinserts.keeps, ?_, ?_⟩
      · intro pred
        refine (hinserts.sublist pred).trans ?_
        exact ((sublist_cons_self i rest).filter _).filterMap _
      · intro j hj mv hmv hsrc
        rcases mem_cons.mp hj with rfl | hj
        · obtain ⟨hop, hdst', hdefined⟩ := moveOf_eq_some.mp hmv
          have hmove' : moveOf (s.function ctx f) dst j.2 = some mv :=
            moveOf_eq_some.mpr ⟨hop, hdst', isUndefined_function hdefined hsrc⟩
          rw [hmove] at hmove'
          cases hmove'
        · exact hinserts.complete j hj mv hmv hsrc
    | some mv =>
      dsimp only
      obtain ⟨hop, hdst', hdefined⟩ := moveOf_eq_some.mp hmove
      have hmoveOf : moveOf f dst i.2 = some mv := by
        refine moveOf_eq_some.mpr ⟨hop, hdst', ?_⟩
        cases hundefined : f.isUndefined mv.src with
        | false => rfl
        | true =>
          have hundefined' : (s.function ctx f).isUndefined mv.src = true :=
            @isUndefined_mono (s.function ctx f) f rfl rfl hmono _ hundefined
          rw [hundefined'] at hdefined
          cases hdefined
      rw [Stage.insertMove_function]
      have hmono' : ∀ r, ((s.addMove i.1 mv).function ctx f).hasDef r = true →
          f.hasDef r = true := by
        intro r hr
        rw [← Stage.insertMove_function] at hr
        rcases hasDef_of_insertMove hr with hr | rfl
        · exact hmono r hr
        · rwa [← hdst']
      obtain ⟨s', new, hfold, hinserts⟩ := ih hrest hmono'
      refine ⟨s', _, hfold, (Stage.GotMoves.addMove s i.1 mv).trans hinserts.got,
        hinserts.mono, ?_, ?_, ?_⟩
      · intro r hr
        apply hinserts.keeps
        rw [← Stage.insertMove_function]
        exact hasDef_insertMove hr
      · intro pred
        by_cases hpred : i.1 = pred
        · subst hpred
          simpa [hmoveOf] using hinserts.sublist i.1
        · simpa [hpred, Ne.symm hpred] using hinserts.sublist pred
      · intro j hj mv' hmv' hsrc
        rcases mem_cons.mp hj with rfl | hj
        · rw [hmoveOf] at hmv'
          obtain rfl := Option.some.inj hmv'
          simp
        · apply mem_append_right
          apply hinserts.complete j hj mv' hmv'
          rcases hsrc with hsrc | hsrc
          · exact .inl hsrc
          · right
            rw [← Stage.insertMove_function]
            exact hasDef_insertMove hsrc

/-! ### What stays at a stage -/

variable {f : SsaFunction ctx} {s : Stage}

variable {b : MirBlock}

theorem selectControl_of_mem (hb : b ∈ f.blocks) {out : MirInstruction} (hinst : inst ∈ b.body)
    (hout : out ∈ selectControl ctx inst) : out = inst ∨ Replaces inst out :=
  selectControl_spec (f.isGeneric b hb inst hinst).2 (f.callToken b hb inst hinst) hout

theorem mem_body_of_mem_moves (h : mv ∈ s.moves b.id) : mv.inst ∈ (s.block ctx b).body := by
  unfold Stage.block
  dsimp only
  rcases mem_append.mp h with h | h
  · have hearly : mv.inst ∈ inserted (s.early b.id) b.body :=
      mem_insertBefore.mpr (.inl (mem_map_of_mem h))
    split
    · exact mem_insertBefore.mpr (.inr (mem_flatMap.mpr ⟨mv.inst, hearly, mem_singleton_self _⟩))
    · exact hearly
  · split
    · exact mem_insertBefore.mpr (.inl (mem_map_of_mem h))
    · next hreached =>
        rw [s.late_nil _ hreached] at h
        cases h

theorem exists_reads (hb : b ∈ f.blocks) {out : MirInstruction}
    (hout : out ∈ b.body.flatMap (selectControl ctx)) {r : ℕ} (hr : r ∈ reads out) :
    ∃ inst ∈ (s.block ctx b).body, r ∈ reads inst := by
  obtain ⟨inst, hinst, hselect⟩ := mem_flatMap.mp hout
  have hearly : inst ∈ inserted (s.early b.id) b.body := mem_insertBefore.mpr (.inr hinst)
  unfold Stage.block
  dsimp only
  split
  · exact ⟨out, mem_insertBefore.mpr (.inr (mem_flatMap.mpr ⟨inst, hearly, hselect⟩)), hr⟩
  · refine ⟨inst, hearly, ?_⟩
    rcases selectControl_of_mem hb hinst hselect with rfl | hreplaces
    · exact hr
    · exact hreplaces.reads r hr

theorem exists_writes (hb : b ∈ f.blocks) (hinst : inst ∈ b.body) (hcall : inst.opcode ≠ .CALL)
    {r : ℕ} (hr : r ∈ writes inst) : inst ∈ (s.block ctx b).body := by
  have hearly : inst ∈ inserted (s.early b.id) b.body := mem_insertBefore.mpr (.inr hinst)
  have hselect : inst ∈ selectControl ctx inst :=
    mem_selectControl_of_writes (f.isGeneric b hb inst hinst).2 hcall hr
  unfold Stage.block
  dsimp only
  split
  · exact mem_insertBefore.mpr (.inr (mem_flatMap.mpr ⟨inst, hearly, hselect⟩))
  · exact hearly

theorem writes_of_mem_body (hb : b ∈ f.blocks) (hinst : inst ∈ (s.block ctx b).body) {r : ℕ}
    (hr : r ∈ writes inst) :
    (∃ mv ∈ s.moves b.id, inst = mv.inst) ∨ ∃ inst' ∈ b.body, r ∈ writes inst' := by
  have hearly : ∀ inst' ∈ inserted (s.early b.id) b.body,
      (∃ mv ∈ s.moves b.id, inst' = mv.inst) ∨ inst' ∈ b.body := by
    intro inst' hinst'
    rcases mem_insertBefore.mp hinst' with h | h
    · obtain ⟨mv, hmv, rfl⟩ := mem_map.mp h
      exact .inl ⟨mv, mem_append_left _ hmv, rfl⟩
    · exact .inr h
  unfold Stage.block at hinst
  dsimp only at hinst
  split at hinst
  · rcases mem_insertBefore.mp hinst with h | h
    · obtain ⟨mv, hmv, rfl⟩ := mem_map.mp h
      exact .inl ⟨mv, mem_append_right _ hmv, rfl⟩
    · obtain ⟨inst', hinst', hselect⟩ := mem_flatMap.mp h
      rcases hearly inst' hinst' with ⟨mv, hmv, rfl⟩ | hinst'
      · exact .inl ⟨mv, hmv, mem_singleton.mp hselect⟩
      · right
        rcases selectControl_of_mem hb hinst' hselect with rfl | hreplaces
        · exact ⟨inst, hinst', hr⟩
        · rw [hreplaces.writes] at hr
          cases hr
  · rcases hearly inst hinst with h | h
    · exact .inl h
    · exact .inr ⟨inst, h, hr⟩

/-- A stage writes no register that the function does not write. -/
theorem hasDef_of_stage (hphis : ∀ b ∈ f.blocks, ∀ phi ∈ s.phis b.id, phi ∈ b.phis)
    (hmoves : ∀ b ∈ f.blocks, ∀ mv ∈ s.moves b.id, f.hasDef mv.dst.id = true) {r : ℕ}
    (h : (s.function ctx f.toMirFunction).hasDef r = true) : f.hasDef r = true := by
  obtain ⟨b', hb', inst, hinst, hr⟩ := hasDef_iff.mp h
  obtain ⟨b, hb, rfl⟩ := mem_map.mp hb'
  rcases hinst with hinst | hinst
  · exact hasDef_iff.mpr ⟨b, hb, inst, .inl (hphis b hb inst hinst), hr⟩
  · rcases writes_of_mem_body hb hinst hr with ⟨mv, hmv, rfl⟩ | ⟨inst', hinst', hr'⟩
    · obtain rfl := eq_of_mem_writes_move hr
      exact hmoves b hb mv hmv
    · exact hasDef_iff.mpr ⟨b, hb, inst', .inr hinst', hr'⟩

end

end EzPacker.PhiElimination
