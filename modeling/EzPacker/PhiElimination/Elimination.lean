import EzPacker.PhiElimination.SelectionRun

/-!
# When the moves do what the PHIs did

The moves of a selected function are sequential, they are executed whatever edge is taken
next, and a block may read a register behind them. They do what the PHIs did when the PHIs
merge registers only, no instruction behind a move reads its result or changes its source,
no move reads the result of an earlier one, and no other edge needs what a move overwrites.
-/

namespace EzPacker.PhiElimination

open List Mir CodeFlow

/-- The moves that the PHIs of blocks put into a predecessor, in order. -/
def movesInto (f : MirFunction) (pred : ℕ) (blocks : List MirBlock) : List Move :=
  blocks.flatMap fun b => b.phis.reverse.flatMap fun phi => movesOf f pred b phi

section

variable {ctx : SelectorContext} (f : SsaFunction ctx)

/-- No instruction behind a move reads its result or writes its source. -/
structure Undisturbed (mv : Move) (behind : List MirInstruction) : Prop where
  unread : ∀ inst ∈ behind, mv.dst.id ∉ reads inst
  settled : IsNeeded f mv.dst.id → ∀ inst ∈ behind, mv.src.id ∉ writes inst

/-- The moves of a block that precedes the blocks `after` in the layout, and is behind the
blocks `before`. A block that branches to itself gets its own moves when it is reached. -/
structure MovesAreSafe (before : List MirBlock) (b : MirBlock) (after : List MirBlock) :
    Prop where
  early : ∀ mv ∈ (movesInto f.toMirFunction b.id before).filter Move.isEffective,
    Undisturbed f mv (b.ending ctx)
  late : ∀ mv ∈ (movesInto f.toMirFunction b.id (b :: after)).filter Move.isEffective,
    Undisturbed f mv (b.branches ctx)
  sequential : ((b.moveOrder ctx (movesInto f.toMirFunction b.id before)
    (movesInto f.toMirFunction b.id (b :: after))).filter Move.isEffective).Pairwise
      fun mv later => IsNeeded f later.dst.id → later.src.id ≠ mv.dst.id

/-- The condition under which selection keeps what a function computes. -/
structure Eliminable : Prop where
  registers : MergesRegisters f
  moves : ∀ before b after, f.blocks = before ++ b :: after → MovesAreSafe f before b after
  dead : ∀ b ∈ f.blocks, ∀ mv ∈ (movesInto f.toMirFunction b.id f.blocks).filter Move.isEffective,
    ∀ b' ∈ f.withSelectedBodies ctx, b.id ∈ b'.predecessors →
      mv.dst.id ∉ b'.phis.filterMap phiResult →
        ¬ Live (f.withSelectedBodies ctx) ctx.arch b'.id b'.body mv.dst.id

end

/-! ### The moves at the end of a selection -/

section

variable {ctx : SelectorContext} {f : SsaFunction ctx} {s : Stage}

theorem stepMoves_stepsOf (g : MirFunction) (pred : ℕ) (blocks : List MirBlock) :
    stepMoves g pred (blocks.flatMap stepsOf) = movesInto g pred blocks := by
  unfold stepMoves movesInto stepsOf
  rw [flatMap_assoc]
  congr 1
  funext b
  rw [flatMap_cons, flatMap_map, nil_append]

variable {b : MirBlock}

theorem Progress.moves_sublist (h : Progress f (steps f) [] s) {before after : List MirBlock}
    (hsplit : f.blocks = before ++ b :: after) :
    (s.early b.id).Sublist (movesInto f.toMirFunction b.id before) ∧
      (s.late b.id).Sublist (movesInto f.toMirFunction b.id (b :: after)) := by
  have hsteps : steps f = before.flatMap stepsOf ++
      Step.reach b.id :: (b.phis.reverse.map (.phi b) ++ after.flatMap stepsOf) := by
    unfold steps
    rw [hsplit, flatMap_append, flatMap_cons, stepsOf, cons_append]
  obtain ⟨hearly, hlate⟩ := h.split b.id _ _ hsteps
  rw [stepMoves_stepsOf] at hearly
  refine ⟨hearly, ?_⟩
  rw [← stepMoves_stepsOf, flatMap_cons, stepsOf]
  exact hlate

variable {pred : ℕ}

theorem movesOf_pairwise {R : Move → Move → Prop} (hb : b ∈ f.blocks)
    {phi : MirInstruction} (hphi : phi ∈ b.phis) :
    (movesOf f.toMirFunction pred b phi).Pairwise R := by
  obtain ⟨dst, incoming, rfl, -, hlength, -⟩ := f.isPhi b hb phi hphi
  have hzip : (b.predecessors.zip incoming).Pairwise fun i j => i.1 ≠ j.1 := by
    rw [← pairwise_map, map_fst_zip hlength.ge]
    exact f.predecessors_nodup b hb
  unfold movesOf
  dsimp only
  rw [pairwise_filterMap]
  refine (hzip.filter _).imp_of_mem ?_
  intro i j hi hj hne
  have hi' : i.1 = pred := by simpa using (mem_filter.mp hi).2
  have hj' : j.1 = pred := by simpa using (mem_filter.mp hj).2
  exact absurd (hi'.trans hj'.symm) hne

theorem movesInto_pairwise :
    (movesInto f.toMirFunction pred f.blocks).Pairwise fun mv mv' => mv.dst.id ≠ mv'.dst.id := by
  rw [← stepMoves_stepsOf]
  unfold stepMoves
  rw [pairwise_flatMap]
  refine ⟨?_, ?_⟩
  · intro step hstep
    cases step with
    | reach id => exact .nil
    | phi b phi =>
      obtain ⟨hb, hphi⟩ := mem_steps_phi.mp hstep
      exact movesOf_pairwise hb hphi
  · refine (steps_nodup (f := f)).imp_of_mem ?_
    intro step step' hstep hstep' hne mv hmv mv' hmv' heq
    cases step with
    | reach id => cases hmv
    | phi b phi =>
      cases step' with
      | reach id => cases hmv'
      | phi b' phi' =>
        obtain ⟨hb, hphi⟩ := mem_steps_phi.mp hstep
        obtain ⟨hb', hphi'⟩ := mem_steps_phi.mp hstep'
        have hresult := phiResult_of_mem_movesOf hb hphi hmv
        have hresult' := phiResult_of_mem_movesOf hb' hphi' hmv'
        rw [← heq] at hresult'
        obtain ⟨rfl, rfl⟩ := eq_of_phiResult hb hb' hphi hresult
          (mem_append_left _ hphi') ((writes_phi hb' hphi').mpr hresult')
        exact hne rfl

variable {mv : Move}

theorem mem_moveOrder {early late : List Move} :
    mv ∈ b.moveOrder ctx early late ↔ mv ∈ early ∨ mv ∈ late := by
  unfold MirBlock.moveOrder
  split
  · rw [mem_append, or_comm]
  · rw [mem_append]

theorem moveOrder_sublist {early early' late late' : List Move}
    (hearly : early.Sublist early') (hlate : late.Sublist late') :
    (b.moveOrder ctx early late).Sublist (b.moveOrder ctx early' late') := by
  unfold MirBlock.moveOrder
  split
  · exact hlate.append hearly
  · exact hearly.append hlate

/-- The moves that count in a block, as they are executed. -/
def placedMoves (s : Stage) (ctx : SelectorContext) (b : MirBlock) : List Move :=
  (b.moveOrder ctx (s.early b.id) (s.late b.id)).filter Move.isEffective

theorem mem_placedMoves : mv ∈ placedMoves s ctx b ↔ mv ∈ s.moves b.id ∧ mv.isEffective = true := by
  unfold placedMoves Stage.moves
  rw [mem_filter, mem_moveOrder, mem_append]

/-- The moves of a block that meets the condition are safe where they stand. -/
theorem Progress.placed (h : Progress f (steps f) [] s) (he : Eliminable f) (hb : b ∈ f.blocks) :
    Placed ctx.arch (f.withSelectedBodies ctx) (phiResults f.blocks)
      (b.body.flatMap (selectControl ctx)) (placedMoves s ctx b) (s.block ctx b).body := by
  obtain ⟨before, after, hsplit⟩ := append_of_mem hb
  obtain ⟨hearly, hlate⟩ := h.moves_sublist hsplit
  have hsafe := he.moves before b after hsplit
  have hreached : b.id ∈ s.reached :=
    (h.reached b.id).mpr (mem_steps_reach.mpr (mem_map_of_mem hb))
  have hblock : (s.block ctx b).body = inserted (s.late b.id)
      ((inserted (s.early b.id) b.body).flatMap (selectControl ctx)) := if_pos hreached
  have hunwritten : ∀ mv ∈ s.moves b.id, ∀ out ∈ b.body.flatMap (selectControl ctx),
      mv.dst.id ∉ writes out := by
    intro mv hmv out hout
    obtain ⟨b', phi, hstep, hmem⟩ := h.exists_of_mem_moves hmv
    obtain ⟨hb', hphi⟩ := h.mem_done hstep
    exact not_mem_writes_selected hb' hb hphi (phiResult_of_mem_movesOf hb' hphi hmem) hout
  have hdistinct : (b.moveOrder ctx (movesInto f.toMirFunction b.id before)
      (movesInto f.toMirFunction b.id (b :: after))).Pairwise
        fun mv later => mv.dst.id ≠ later.dst.id := by
    have hpairwise : (movesInto f.toMirFunction b.id f.blocks).Pairwise
        fun mv mv' => mv.dst.id ≠ mv'.dst.id := movesInto_pairwise
    rw [hsplit, movesInto, flatMap_append] at hpairwise
    unfold MirBlock.moveOrder
    split
    · exact (pairwise_append_comm fun hne => Ne.symm hne).mp hpairwise
    · exact hpairwise
  rw [hblock]
  refine placed_block (fun inst hinst => (f.isGeneric b hb inst hinst).2) ?_ ?_ ?_ ?_
  · intro mv hmv
    obtain ⟨b', phi, hstep, hmem⟩ := h.exists_of_mem_moves hmv
    obtain ⟨hb', hphi⟩ := h.mem_done hstep
    exact mem_flatMap.mpr ⟨b', hb', mem_filterMap.mpr
      ⟨phi, hphi, phiResult_of_mem_movesOf hb' hphi hmem⟩⟩
  · intro mv hmv
    have hundisturbed := hsafe.early mv ((hearly.filter _).subset hmv)
    refine ⟨hundisturbed.unread, fun inst hinst => ?_, hundisturbed.settled⟩
    refine hunwritten mv (mem_append_left _ (mem_filter.mp hmv).1) inst ?_
    rw [body_eq]
    exact mem_append_right _ hinst
  · intro mv hmv
    have hundisturbed := hsafe.late mv ((hlate.filter _).subset hmv)
    refine ⟨hundisturbed.unread, fun inst hinst => ?_, hundisturbed.settled⟩
    exact hunwritten mv (mem_append_right _ (mem_filter.mp hmv).1) inst
      ((dropWhile_sublist _).subset hinst)
  · have horder : (b.moveOrder ctx _ _).Sublist (b.moveOrder ctx _ _) :=
      moveOrder_sublist hearly hlate
    have hsublist := horder.filter Move.isEffective
    refine ((hsafe.sequential.and (hdistinct.filter _)).sublist hsublist).imp ?_
    rintro mv later ⟨hsource, hne⟩
    exact ⟨hsource, hne.symm⟩

/-! ### The selected function -/

def original (f : SsaFunction ctx) (b : MirBlock) : MirBlock :=
  (f.blocks.find? (·.id = b.id)).getD b

theorem original_eq {b' : MirBlock} (hb : b ∈ f.blocks) (hid : b'.id = b.id) :
    original f b' = b := by
  unfold original
  cases hfind : f.blocks.find? (·.id = b'.id) with
  | none =>
    have hne := find?_eq_none.mp hfind b hb
    simp [hid] at hne
  | some c =>
    have hc : c.id = b'.id := by simpa using find?_some hfind
    exact inj_on_of_nodup_map f.nodup (mem_of_find?_eq_some hfind) hb (hc.trans hid)

theorem original_selected (hb : b ∈ f.blocks) :
    original f { b with body := b.body.flatMap (selectControl ctx) } = b :=
  original_eq hb rfl

def selected (f : SsaFunction ctx) (s : Stage) (b : MirBlock) : MirBlock :=
  { b with phis := [], body := (s.block ctx (original f b)).body }

theorem Progress.exists_of_mem_placedMoves (h : Progress f (steps f) [] s)
    (hmv : mv ∈ placedMoves s ctx b) :
    ∃ b' ∈ f.blocks, ∃ phi ∈ b'.phis, mv ∈ movesOf f.toMirFunction b.id b' phi := by
  obtain ⟨b', phi, hstep, hmem⟩ := h.exists_of_mem_moves (mem_placedMoves.mp hmv).1
  obtain ⟨hb', hphi⟩ := h.mem_done hstep
  exact ⟨b', hb', phi, hphi, hmem⟩

theorem mem_movesInto {g : MirFunction} {blocks : List MirBlock} : mv ∈ movesInto g pred blocks ↔
      ∃ b ∈ blocks, ∃ phi ∈ b.phis, mv ∈ movesOf g pred b phi := by
  unfold movesInto
  simp only [mem_flatMap, mem_reverse]

theorem Progress.exists_move (h : Progress f (steps f) [] s) (he : Eliminable f)
    {b' : MirBlock} (hb' : b' ∈ f.blocks) (hedge : b.id ∈ b'.predecessors)
    {phi : MirInstruction} (hphi : phi ∈ b'.phis) {d : ℕ} (hresult : phiResult phi = some d)
    (hneeded : IsNeeded f d) :
    ∃ op src, incomingAt b'.predecessors b.id phi = some op ∧ virtualId op = some src ∧
      (IsDefined f src → (∃ mv ∈ placedMoves s ctx b, mv.dst.id = d ∧ mv.src.id = src) ∨
        src = d ∧ ∀ mv ∈ placedMoves s ctx b, mv.dst.id ≠ d) := by
  obtain ⟨op, hop⟩ : ∃ op, incomingAt b'.predecessors b.id phi = some op := by
    obtain ⟨dst, incoming, rfl, -, hlength, -⟩ := f.isPhi b' hb' phi hphi
    have hlt := idxOf_lt_length_of_mem hedge
    unfold incomingAt
    rw [Nat.add_comm]
    exact ⟨_, getElem?_eq_getElem (Nat.succ_lt_succ (hlength ▸ hlt))⟩
  obtain ⟨src, hsrc, -⟩ := he.registers b' hb' phi hphi d hresult hneeded op
    (mem_tail_of_incomingAt hop)
  refine ⟨op, src, hop, hsrc, fun hdefined => ?_⟩
  obtain ⟨mv, hmv, rfl, rfl⟩ :=
    exists_mem_movesOf he.registers hb' hphi hresult hneeded hedge hop hsrc hdefined
  have hmem : mv ∈ s.moves b.id := h.complete b' phi (mem_steps_phi.mpr ⟨hb', hphi⟩) b.id mv
    hmv hneeded hdefined
  by_cases heffective : mv.isEffective = true
  · exact .inl ⟨mv, mem_placedMoves.mpr ⟨hmem, heffective⟩, rfl, rfl⟩
  · have hself : mv.src.id = mv.dst.id := by simpa [Move.isEffective] using heffective
    refine .inr ⟨hself, fun mv' hmv' hdst => ?_⟩
    -- A move with the same result comes from the same operand.
    obtain ⟨b'', hb'', phi', hphi', hmem'⟩ := h.exists_of_mem_placedMoves hmv'
    have hresult' := phiResult_of_mem_movesOf hb'' hphi' hmem'
    rw [hdst] at hresult'
    obtain ⟨rfl, rfl⟩ := eq_of_phiResult hb' hb'' hphi hresult
      (mem_append_left _ hphi') ((writes_phi hb'' hphi').mpr hresult')
    obtain ⟨-, -, hop', -⟩ := (mem_movesOf hb'' hphi').mp hmem'
    rw [hop] at hop'
    obtain rfl := Option.some.inj hop'
    have hsrc' : virtualId (.register mv'.src) = some mv'.src.id :=
      virtualId_eq_some.mpr ⟨mv'.src, rfl, mv'.src_virtual, rfl⟩
    have heq : mv'.src.id = mv.src.id := Option.some.inj (hsrc'.symm.trans hsrc)
    have hne := (mem_placedMoves.mp hmv').2
    simp [Move.isEffective, heq, hself, hdst] at hne

theorem Progress.eliminates (h : Progress f (steps f) [] s) (he : Eliminable f) :
    Eliminates ctx.arch (f.withSelectedBodies ctx) f.params (phiResults f.blocks)
      (selected f s) (fun b => placedMoves s ctx (original f b)) where
  nodup := by
    have hids : (f.withSelectedBodies ctx).map MirBlock.id = f.blocks.map MirBlock.id := by
      unfold MirFunction.withSelectedBodies
      rw [map_map]
      rfl
    rw [hids]
    exact f.nodup
  id _ := rfl
  predecessors _ := rfl
  phis _ _ := rfl
  placed b' hb' := by
    obtain ⟨b, hb, rfl⟩ := mem_withSelectedBodies.mp hb'
    unfold selected
    rw [original_selected hb]
    exact h.placed he hb
  isResult b' hb' mv hmv := by
    obtain ⟨b, hb, phi, hphi, hmem⟩ := h.exists_of_mem_placedMoves hmv
    exact mem_flatMap.mpr ⟨b, hb, mem_filterMap.mpr
      ⟨phi, hphi, phiResult_of_mem_movesOf hb hphi hmem⟩⟩
  read b' hb' mv hmv hneeded := by
    obtain ⟨b₀, hb₀, rfl⟩ := mem_withSelectedBodies.mp hb'
    rw [original_selected hb₀] at hmv
    obtain ⟨b, hb, phi, hphi, hmem⟩ := h.exists_of_mem_placedMoves hmv
    obtain ⟨hpred, -, hop, -⟩ := (mem_movesOf hb hphi).mp hmem
    exact .merged (mem_withSelectedBodies.mpr ⟨b, hb, rfl⟩) hpred hphi
      (phiResult_of_mem_movesOf hb hphi hmem) hneeded hop
      (virtualId_eq_some.mpr ⟨mv.src, rfl, mv.src_virtual, rfl⟩)
  dead b₁ hb₁ mv hmv b' hb' hedge hnot := by
    obtain ⟨b, hb, rfl⟩ := mem_withSelectedBodies.mp hb₁
    rw [original_selected hb] at hmv
    refine he.dead b hb mv (mem_filter.mpr ⟨mem_movesInto.mpr ?_, ?_⟩) b' hb' hedge hnot
    · exact h.exists_of_mem_placedMoves hmv
    · exact (mem_placedMoves.mp hmv).2
  complete b₁ hb₁ b' hb' hedge phi hphi d hresult hneeded := by
    obtain ⟨b, hb, rfl⟩ := mem_withSelectedBodies.mp hb₁
    obtain ⟨b₀, hb₀, rfl⟩ := mem_withSelectedBodies.mp hb'
    rw [original_selected hb]
    exact h.exists_move (b := b) he hb₀ hedge hphi hresult hneeded
  noCopy b' hb' inst hinst := by
    obtain ⟨b, hb, rfl⟩ := mem_withSelectedBodies.mp hb'
    cases hcopy : copyOf (phiResults f.blocks) inst with
    | none => rfl
    | some p =>
      unfold copyOf at hcopy
      split at hcopy
      · next dst src =>
          split at hcopy
          · next hregs =>
              obtain ⟨b'', hb'', hmem⟩ := mem_flatMap.mp hregs.2.2
              obtain ⟨phi, hphi, hresult⟩ := mem_filterMap.mp hmem
              exact absurd (mem_writes_movInst hregs.1)
                (not_mem_writes_selected hb'' hb hphi hresult hinst)
          · cases hcopy
      · cases hcopy
  reads b' hb' phi hphi op r hop hr := by
    obtain ⟨b, hb, rfl⟩ := mem_withSelectedBodies.mp hb'
    obtain ⟨dst, incoming, rfl, -, -, hincoming⟩ := f.isPhi b hb phi hphi
    exact mem_reads_phi.mpr ⟨op, hop, (mem_operandIds_of_incoming (hincoming op hop)).mpr hr⟩

theorem Progress.blocks_eq (h : Progress f (steps f) [] s) :
    (f.withSelectedBodies ctx).map (selected f s) = (s.function ctx f.toMirFunction).blocks := by
  unfold MirFunction.withSelectedBodies Stage.function
  dsimp only
  rw [map_map]
  apply map_congr_left
  intro b hb
  have hphis : s.phis b.id = [] := h.phis b.id
  change selected f s { b with body := b.body.flatMap (selectControl ctx) } = s.block ctx b
  unfold selected
  rw [original_selected hb]
  unfold Stage.block
  rw [hphis]

/-! ### Executions -/

/-- Whatever the function does before its PHIs are eliminated, in any run and up to any
point of it, it does afterwards. -/
theorem SsaFunction.selectFunction_executes (f : SsaFunction ctx) (he : Eliminable f)
    {V S : Type*} (m : Machine ctx.arch V S) {p : ℕ} {env : Env V} {state : S}
    {events : List (Event V)} (henv : ∀ r v, env r = some v → r ∈ f.params)
    (hrun : Executes m (phiResults f.blocks) (f.withSelectedBodies ctx) p env state events) :
    Executes m (phiResults f.blocks) (f.selectFunction ctx).blocks p env state events := by
  obtain ⟨s, hselect, hprogress⟩ := exists_stage he.registers
  rw [hselect, ← hprogress.blocks_eq]
  refine executes_select (hprogress.eliminates he) hrun ?_ ?_
  · intro r v hv
    exact .param (henv r v hv)
  · intro b _ _
    exact ⟨fun _ _ _ => Refines.refl _, nofun⟩

end

/-! ### A loop that counts down -/

section

def virtualReg (id : ℕ) : MirRegisterRef := ⟨true, some GPR64, id⟩

def blockRef (block : ℕ) : MirOperand := .reference ⟨.Block, block, 0⟩

/-- A machine whose state is the value that was compared last. -/
def countdownMachine : Machine .x86_64 ℕ ℕ where
  exec inst values state :=
    if mayJump .x86_64 inst then
      match inst.operands with
      | [.reference ref] =>
        if isOneOf [x86_64TargetInst.JNE] inst && state == 0 then .next [] state
        else .jump ref.refId [] state
      | _ => .stop
    else if inst.opcode = .SUB then .next (values.map (· - 1)) state
    else .next [] (values.headD 0)
  constant
    | .integer value => value.toNat
    | _ => 0
  mayJump_of_jump inst values state target results state' h := by
    by_cases hjump : mayJump .x86_64 inst = true
    · exact hjump
    · rw [if_neg hjump] at h
      split at h
      · cases h
      · cases h

def x86_64Context : SelectorContext := ⟨.x86_64, fun _ => true, fun _ => false⟩

/-- Counts its parameter down to zero, in a block that branches back to itself. -/
def countdown : SsaFunction x86_64Context where
  blocks :=
    [⟨0, [], [], [⟨.JMP, none, [blockRef 1]⟩]⟩, ⟨1, [0, 1],
        [⟨.PHI, none, [.register (virtualReg 11), .register (virtualReg 10),
          .register (virtualReg 12)]⟩],
        [⟨.SUB, none, [.register (virtualReg 12), .register (virtualReg 11), .integer 1]⟩,
          ⟨.BR_COND, none, [.register (virtualReg 12), blockRef 1, blockRef 2]⟩]⟩,
      ⟨2, [1], [], [⟨.RET, none, [.register (virtualReg 12)]⟩]⟩]
  params := [10]
  isNamedUndef _ := false
  nodup := by decide
  predecessors_nodup := by decide
  predecessors_mem := by decide
  isPhi := by
    simp only [forall_mem_cons, not_mem_nil, false_implies, implies_true, and_true, true_and]
    exact ⟨_, _, rfl, rfl, rfl, by simp [IsIncoming, virtualReg]⟩
  isGeneric := by decide
  singleAssignment := by decide
  callToken := by simp
  tokenNotMerged := by simp

example :
    (countdown.selectFunction x86_64Context).blocks.map (·.body.length) = [2, 5, 1] := by decide

/-- Moves that no instruction behind them touches, and one of which at most counts. -/
theorem movesAreSafe_of_forall {ctx : SelectorContext} {f : SsaFunction ctx}
    {before after : List MirBlock} {b : MirBlock}
    (hearly : ∀ mv ∈ movesInto f.toMirFunction b.id before, ∀ inst ∈ b.ending ctx,
      mv.dst.id ∉ reads inst ∧ mv.src.id ∉ writes inst)
    (hlate : ∀ mv ∈ movesInto f.toMirFunction b.id (b :: after), ∀ inst ∈ b.branches ctx,
      mv.dst.id ∉ reads inst ∧ mv.src.id ∉ writes inst)
    (hone : (b.moveOrder ctx (movesInto f.toMirFunction b.id before)
      (movesInto f.toMirFunction b.id (b :: after))).length ≤ 1) :
    MovesAreSafe f before b after where
  early mv hmv :=
    ⟨fun inst hinst => (hearly mv (mem_filter.mp hmv).1 inst hinst).1,
      fun _ inst hinst => (hearly mv (mem_filter.mp hmv).1 inst hinst).2⟩
  late mv hmv :=
    ⟨fun inst hinst => (hlate mv (mem_filter.mp hmv).1 inst hinst).1,
      fun _ inst hinst => (hlate mv (mem_filter.mp hmv).1 inst hinst).2⟩
  sequential := by
    have hlength := (length_filter_le Move.isEffective _).trans hone
    cases hmoves : (b.moveOrder ctx (movesInto f.toMirFunction b.id before)
        (movesInto f.toMirFunction b.id (b :: after))).filter Move.isEffective with
    | nil => exact .nil
    | cons mv rest =>
      rw [hmoves, length_cons] at hlength
      obtain rfl := eq_nil_of_length_eq_zero (by omega : rest.length = 0)
      exact pairwise_singleton _ _

theorem not_live_of_last {arch : TargetArch} {blocks : List MirBlock} {source r : ℕ}
    {insts : List MirInstruction} (hlast : ∀ b ∈ blocks, source ∉ b.predecessors)
    (hreads : ∀ inst ∈ insts, r ∉ reads inst) : ¬ Live blocks arch source insts r := by
  intro hlive
  induction hlive with
  | read hread => exact hreads _ mem_cons_self hread
  | behind _ _ ih => exact ih hlast fun i hi => hreads i (mem_cons_of_mem _ hi)
  | jump _ _ _ ih => exact ih hlast nofun
  | merged hb hedge _ _ _ _ _ | across hb hedge _ _ _ => exact hlast _ hb hedge

theorem countdown_eliminable : Eliminable countdown where
  registers := by
    have hphi : ∀ b ∈ countdown.blocks, ∀ phi ∈ b.phis, ∀ op ∈ phi.operands.tail,
        (virtualId op).isSome = true := by decide
    intro b hb phi hmem d _ _ op hop
    obtain ⟨r, hr⟩ := Option.isSome_iff_exists.mp (hphi b hb phi hmem op hop)
    exact ⟨r, hr, nofun⟩
  moves := by
    intro before b after hsplit
    rcases before with _ | ⟨b₀, _ | ⟨b₁, _ | ⟨b₂, before⟩⟩⟩
    · cases hsplit
      exact movesAreSafe_of_forall (by decide) (by decide) (by decide)
    · cases hsplit
      exact movesAreSafe_of_forall (by decide) (by decide) (by decide)
    · cases hsplit
      exact movesAreSafe_of_forall (by decide) (by decide) (by decide)
    · have hlength := congrArg length hsplit
      simp [countdown] at hlength
  dead := by
    have hexit : ∀ b ∈ countdown.blocks,
        ∀ mv ∈ movesInto countdown.toMirFunction b.id countdown.blocks,
        ∀ b' ∈ countdown.withSelectedBodies x86_64Context, b.id ∈ b'.predecessors →
          mv.dst.id ∉ b'.phis.filterMap phiResult → b'.id = 2 ∧
            ∀ inst ∈ b'.body, mv.dst.id ∉ reads inst := by decide
    have hlast : ∀ b ∈ countdown.withSelectedBodies x86_64Context, 2 ∉ b.predecessors := by
      decide
    intro b hb mv hmv b' hb' hedge hnot hlive
    obtain ⟨hid, hreads⟩ := hexit b hb mv (mem_filter.mp hmv).1 b' hb' hedge hnot
    exact not_live_of_last (hid ▸ hlast) hreads hlive

/-- The instructions of the loop that are executed with the value 2 of the parameter. -/
def countdownEvents : List (Event ℕ) :=
  [⟨x86_64TargetInst.JMP.build [blockRef 1], []⟩,
    ⟨⟨.SUB, none, [.register (virtualReg 12), .register (virtualReg 11), .integer 1]⟩, [2]⟩,
    ⟨x86_64TargetInst.CMP64ri.build [.register (virtualReg 12), .integer 0], [1]⟩,
    ⟨x86_64TargetInst.JNE.build [blockRef 1], []⟩,
    ⟨⟨.SUB, none, [.register (virtualReg 12), .register (virtualReg 11), .integer 1]⟩, [1]⟩,
    ⟨x86_64TargetInst.CMP64ri.build [.register (virtualReg 12), .integer 0], [0]⟩]

theorem countdown_executes :
    Executes countdownMachine (phiResults countdown.blocks) (countdown.selectFunction
      x86_64Context).blocks 0 (fun r => if r = 10 then some 2 else none) 0 countdownEvents := by
  refine countdown.selectFunction_executes countdown_eliminable countdownMachine ?_ ?_
  · intro r v hv
    by_cases hr : r = 10
    · simp [hr, countdown]
    · rw [if_neg hr] at hv
      cases hv
  · refine @Executes.across _ _ _ _ _ _ [] _ _ _ _ _ _ _ [_] _ rfl rfl (.tail _ (.head _))
      (by decide) ?_
    refine @Executes.across _ _ _ _ _ _ [_] _ _ _ _ _ _ _ [_, _, _] _ rfl rfl
      (.tail _ (.head _)) (by decide) ?_
    exact @Executes.within _ _ _ _ _ _ [_] _ _ _ _ _ rfl ⟨_, rfl⟩

/-! ### A constant -/

/-- Returns a constant that a PHI merges. -/
def constantPhi : SsaFunction x86_64Context where
  blocks :=
    [⟨0, [], [], [⟨.JMP, none, [blockRef 1]⟩]⟩,
      ⟨1, [0], [⟨.PHI, none, [.register (virtualReg 11), .integer 5]⟩],
        [⟨.RET, none, [.register (virtualReg 11)]⟩]⟩]
  params := []
  isNamedUndef _ := false
  nodup := by decide
  predecessors_nodup := by decide
  predecessors_mem := by decide
  isPhi := by
    simp only [forall_mem_cons, not_mem_nil, false_implies, implies_true, and_true, true_and]
    exact ⟨_, _, rfl, rfl, rfl, by simp [IsIncoming]⟩
  isGeneric := by decide
  singleAssignment := by decide
  callToken := by simp
  tokenNotMerged := by simp

theorem constant_not_moved :
    ¬ ∀ (ctx : SelectorContext) (f : SsaFunction ctx) (m : Machine ctx.arch ℕ ℕ) (p : ℕ)
      (env : Env ℕ) (state : ℕ) (events : List (Event ℕ)),
      (∀ r v, env r = some v → r ∈ f.params) →
      Executes m (phiResults f.blocks) (f.withSelectedBodies ctx) p env state events →
      Executes m (phiResults f.blocks) (f.selectFunction ctx).blocks p env state events := by
  intro hall
  have hrun := hall x86_64Context constantPhi countdownMachine 0 (fun _ => none) 0
    [⟨x86_64TargetInst.JMP.build [blockRef 1], []⟩,
      ⟨⟨.RET, none, [.register (virtualReg 11)]⟩, [5]⟩] nofun
    (@Executes.across _ _ _ _ _ _ [] _ _ _ _ _ _ _ [_] _ rfl rfl (.tail _ (.head _))
      (by decide) (@Executes.within _ _ _ _ _ _ [_] _ _ _ _ _ rfl ⟨[], rfl⟩))
  have hselected : (constantPhi.selectFunction x86_64Context).blocks =
      [⟨0, [], [], [x86_64TargetInst.JMP.build [blockRef 1]]⟩,
        ⟨1, [0], [], [⟨.RET, none, [.register (virtualReg 11)]⟩]⟩] := rfl
  rw [hselected] at hrun
  rcases @executes_cases _ _ _ _ _ [] _ _ _ _ _ (by decide) hrun with
    hpre | ⟨b', hb', env', state', events', hexit, hevents, hrun'⟩
  · exact absurd hpre.length_le (by decide)
  · obtain ⟨hid, rfl, -⟩ := BlockExit.goto.inj hexit
    obtain ⟨-, rfl⟩ := cons.inj hevents
    obtain rfl : b' = ⟨1, [0], [], [⟨.RET, none, [.register (virtualReg 11)]⟩]⟩ := by
      rcases mem_pair.mp hb' with rfl | rfl
      · cases hid
      · rfl
    -- The register that the PHI wrote has no value.
    rcases @executes_cases _ _ _ _ _ [_] _ _ _ _ _ (by decide) hrun' with
      hpre | ⟨_, _, _, _, _, hstop, _⟩
    · exact Nat.not_succ_le_zero 0 hpre.length_le
    · cases hstop

end

end EzPacker.PhiElimination
