import EzPacker.PhiElimination.SelectionProgress

/-!
# The run of a selection

The invariant holds before the first step, and both kinds of steps keep it. At the end no
PHI is left, and every block has its moves where `Stage.block` puts them.
-/

namespace EzPacker.PhiElimination

open List Mir CodeFlow

section

variable {ctx : SelectorContext} {f : SsaFunction ctx} {done todo : List Step} {s : Stage}

/-! ### The first stage -/

def steps (f : SsaFunction ctx) : List Step := f.blocks.flatMap stepsOf

/-- No step is taken. -/
def Stage.initial (f : SsaFunction ctx) : Stage where
  reached := []
  early _ := []
  late _ := []
  phis id := phisOf id (steps f)
  late_nil _ _ := rfl

variable {b : MirBlock}

theorem mem_steps_phi {phi : MirInstruction} :
    Step.phi b phi ∈ steps f ↔ b ∈ f.blocks ∧ phi ∈ b.phis := by
  unfold steps stepsOf
  rw [mem_flatMap]
  constructor
  · rintro ⟨b', hb', hstep⟩
    rcases mem_cons.mp hstep with h | h
    · cases h
    · obtain ⟨inst, hinst, heq⟩ := mem_map.mp h
      cases heq
      exact ⟨hb', mem_reverse.mp hinst⟩
  · rintro ⟨hb, hphi⟩
    exact ⟨b, hb, mem_cons_of_mem _ (mem_map_of_mem (mem_reverse.mpr hphi))⟩

theorem mem_steps_reach {id : ℕ} : Step.reach id ∈ steps f ↔ id ∈ f.blocks.map MirBlock.id := by
  unfold steps stepsOf
  rw [mem_flatMap, mem_map]
  constructor
  · rintro ⟨b, hb, hstep⟩
    rcases mem_cons.mp hstep with h | h
    · cases h
      exact ⟨b, hb, rfl⟩
    · obtain ⟨inst, -, heq⟩ := mem_map.mp h
      cases heq
  · rintro ⟨b, hb, rfl⟩
    exact ⟨b, hb, mem_cons_self⟩

theorem phisOf_append (id : ℕ) (xs ys : List Step) :
    phisOf id (xs ++ ys) = phisOf id ys ++ phisOf id xs := by
  unfold phisOf
  rw [filterMap_append, reverse_append]

theorem phisOf_phi (b : MirBlock) (phi : MirInstruction) (id : ℕ) (steps : List Step) :
    phisOf id (.phi b phi :: steps) =
      if b.id = id then phisOf id steps ++ [phi] else phisOf id steps := by
  unfold phisOf
  by_cases hid : b.id = id
  · simp [hid]
  · simp [hid]

theorem phisOf_stepsOf (b : MirBlock) (id : ℕ) :
    phisOf id (stepsOf b) = if b.id = id then b.phis else [] := by
  unfold stepsOf phisOf
  by_cases hid : b.id = id
  · simp [filterMap_map, hid]
  · simp [filterMap_map, hid]

theorem phisOf_flatMap {blocks : List MirBlock} (hnodup : (blocks.map MirBlock.id).Nodup)
    (hb : b ∈ blocks) : phisOf b.id (blocks.flatMap stepsOf) = b.phis := by
  have hother : ∀ blocks' : List MirBlock, b.id ∉ blocks'.map MirBlock.id →
      phisOf b.id (blocks'.flatMap stepsOf) = [] := by
    intro blocks' hnot
    rw [eq_nil_iff_forall_not_mem]
    intro phi hphi
    obtain ⟨b', hstep, hid⟩ := mem_phisOf.mp hphi
    obtain ⟨c, hc, hstep⟩ := mem_flatMap.mp hstep
    rcases mem_cons.mp hstep with h | h
    · cases h
    · obtain ⟨inst, -, heq⟩ := mem_map.mp h
      cases heq
      exact hnot (hid ▸ mem_map_of_mem hc)
  obtain ⟨before, behind, rfl⟩ := append_of_mem hb
  rw [map_append, map_cons, nodup_middle, nodup_cons, mem_append, not_or] at hnodup
  rw [flatMap_append, flatMap_cons, phisOf_append, phisOf_append,
    hother before hnodup.1.1, hother behind hnodup.1.2, phisOf_stepsOf, if_pos rfl,
    nil_append, append_nil]

theorem initial_function : (Stage.initial f).function ctx f.toMirFunction = f.toMirFunction := by
  have hblocks : f.blocks.map ((Stage.initial f).block ctx) = f.blocks := by
    apply (map_congr_left _).trans (map_id f.blocks)
    intro b hb
    have hphis : (Stage.initial f).phis b.id = b.phis := phisOf_flatMap f.nodup hb
    unfold Stage.block
    rw [hphis, if_neg (by exact not_mem_nil)]
    change { b with body := inserted [] b.body } = b
    rw [inserted, map_nil, insertBefore_nil]
  unfold Stage.function
  rw [hblocks]

theorem Progress.initial : Progress f [] (steps f) (Stage.initial f) where
  mem b phi := mem_steps_phi
  reached id := by simp [Stage.initial]
  phis _ := rfl
  early _ _ := nil_sublist _
  split pred before behind h := by simp at h
  defs r _ _ hdefined := by
    rw [initial_function]
    exact hdefined.hasDef
  complete b phi h := by cases h

/-! ### A block is reached -/

theorem hasDef_of_subset {s' : Stage} {r : ℕ}
    (hphis : ∀ id, ∀ phi ∈ s.phis id, r ∈ writes phi → phi ∈ s'.phis id)
    (hmoves : ∀ id, ∀ mv ∈ s.moves id, mv ∈ s'.moves id) (hmerged : IsMerged f r)
    (h : (s.function ctx f.toMirFunction).hasDef r = true) :
    (s'.function ctx f.toMirFunction).hasDef r = true := by
  obtain ⟨b', hb', inst, hinst, hr⟩ := hasDef_iff.mp h
  obtain ⟨b, hb, rfl⟩ := mem_map.mp hb'
  have hblock : s'.block ctx b ∈ (s'.function ctx f.toMirFunction).blocks :=
    mem_map_of_mem hb
  rcases hinst with hinst | hinst
  · exact hasDef_iff.mpr ⟨_, hblock, inst, .inl (hphis b.id inst hinst hr), hr⟩
  · rcases writes_of_mem_body hb hinst hr with ⟨mv, hmv, rfl⟩ | ⟨inst', hinst', hr'⟩
    · exact hasDef_iff.mpr
        ⟨_, hblock, mv.inst, .inr (mem_body_of_mem_moves (hmoves b.id mv hmv)), hr⟩
    · have hcall : inst'.opcode ≠ .CALL := by
        intro hcall
        obtain ⟨b'', hb'', phi, hphi, hread⟩ := hmerged
        exact f.tokenNotMerged b hb inst' hinst' hcall r hr' b'' hb'' phi hphi hread
      exact hasDef_iff.mpr ⟨_, hblock, inst', .inr (exists_writes hb hinst' hcall hr'), hr'⟩

theorem stepMoves_reach (g : MirFunction) (pred id : ℕ) : stepMoves g pred [.reach id] = [] :=
  rfl

theorem stepMoves_phi (g : MirFunction) (pred : ℕ) (b : MirBlock) (phi : MirInstruction) :
    stepMoves g pred [.phi b phi] = movesOf g pred b phi := by
  unfold stepMoves
  simp

/-- A step that reached a block is the last one or was taken before. -/
theorem append_singleton_split {step x : Step} {before behind : List Step}
    (h : done ++ [step] = before ++ x :: behind) :
    (before = done ∧ x = step ∧ behind = []) ∨
      ∃ behind', behind = behind' ++ [step] ∧ done = before ++ x :: behind' := by
  rcases eq_nil_or_concat behind with rfl | ⟨behind', last, rfl⟩
  · left
    obtain ⟨hdone, hstep⟩ := append_inj' h rfl
    exact ⟨hdone.symm, (singleton_inj.mp hstep).symm, rfl⟩
  · right
    have h' : done ++ [step] = (before ++ x :: behind') ++ [last] := by
      rw [h, concat_eq_append, append_assoc, cons_append]
    obtain ⟨hdone, hstep⟩ := append_inj' h' rfl
    obtain rfl := singleton_inj.mp hstep
    exact ⟨behind', concat_eq_append, hdone⟩

theorem Progress.reach {id : ℕ} (h : Progress f done (.reach id :: todo) s)
    (hid : Step.reach id ∉ done) : Progress f (done ++ [.reach id]) todo (s.reach id) where
  mem b phi := by
    rw [append_assoc]
    exact h.mem b phi
  reached id' := by
    change id' ∈ s.reached ++ [id] ↔ _
    rw [mem_append, mem_append, h.reached, mem_singleton, mem_singleton]
    exact or_congr_right ⟨congrArg Step.reach, Step.reach.inj⟩
  phis := h.phis
  early pred hpred := by
    rw [stepMoves_append, stepMoves_reach, append_nil]
    exact h.early pred fun hmem => hpred (mem_append_left _ hmem)
  split pred before behind hdone := by
    rcases append_singleton_split hdone with ⟨rfl, hstep, rfl⟩ | ⟨behind', rfl, rfl⟩
    · obtain rfl := Step.reach.inj hstep
      have hlate := s.late_nil pred fun hmem => hid ((h.reached pred).mp hmem)
      refine ⟨h.early pred hid, ?_⟩
      change (s.late pred).Sublist _
      rw [hlate]
      exact nil_sublist _
    · rw [stepMoves_append, stepMoves_reach, append_nil]
      exact h.split pred before behind' rfl
  defs r hmerged hneeded hdefined :=
    (h.defs r hmerged hneeded hdefined).imp_right
      (@hasDef_of_subset ctx f s (s.reach id) r (fun _ _ hphi _ => hphi) (fun _ _ hmv => hmv)
        hmerged)
  complete b phi hstep := by
    rcases mem_append.mp hstep with hstep | hstep
    · exact h.complete b phi hstep
    · cases mem_singleton.mp hstep

/-! ### A PHI is replaced -/

/-- The moves of a PHI are put in, those that matter among them. -/
theorem Progress.insertMoves (h : Progress f done todo s) (hmerges : MergesRegisters f)
    (hb : b ∈ f.blocks) {phi : MirInstruction} (hphi : phi ∈ b.phis) :
    ∃ s' new, (s.function ctx f.toMirFunction).insertMoves b phi =
        s'.function ctx f.toMirFunction ∧ s.GotMoves s' new ∧
      (∀ pred, (new pred).Sublist (movesOf f.toMirFunction pred b phi)) ∧
      ∀ pred, ∀ mv ∈ movesOf f.toMirFunction pred b phi, IsNeeded f mv.dst.id →
        IsDefined f mv.src.id → mv ∈ new pred := by
  obtain ⟨dst, incoming, rfl, hdst, hlength, hincoming⟩ := f.isPhi b hb phi hphi
  unfold MirFunction.insertMoves
  dsimp only
  by_cases hused : (s.function ctx f.toMirFunction).isUsed dst.id = true
  · rw [if_pos hused]
    have hresult : f.hasDef dst.id = true := hasDef_iff.mpr
      ⟨b, hb, _, .inl hphi, (writes_phi hb hphi).mpr (phiResult_eq hdst incoming)⟩
    have hoperands : ∀ i ∈ b.predecessors.zip incoming, _ :=
      fun i hi => hincoming i.2 (of_mem_zip hi).2
    obtain ⟨s', new, hfold, hinserts⟩ :=
      foldl_insertIncoming hdst hresult hoperands (fun r hr => h.mono hr)
    refine ⟨s', new, hfold, hinserts.got, hinserts.sublist, ?_⟩
    intro pred mv hmv hneeded hdefined
    have hphiResult := phiResult_of_mem_movesOf hb hphi hmv
    have hread := mem_reads_of_mem_movesOf hb hphi hmv
    have hwritten := h.defs mv.src.id ⟨b, hb, _, hphi, hread⟩
      (hneeded.merged hb hphi hphiResult hread) hdefined
    obtain ⟨i, hi, hmove⟩ := mem_filterMap.mp hmv
    obtain ⟨hzip, hpred⟩ := mem_filter.mp hi
    obtain rfl : i.1 = pred := by simpa using hpred
    exact hinserts.complete i hzip mv hmove hwritten
  · rw [if_neg hused]
    refine ⟨s, _, rfl, Stage.GotMoves.refl s, fun _ => nil_sublist _, ?_⟩
    intro pred mv hmv hneeded hdefined
    have hphiResult := phiResult_of_mem_movesOf hb hphi hmv
    have hread := mem_reads_of_mem_movesOf hb hphi hmv
    have hdst' : mv.dst.id = dst.id := by
      rw [phiResult_eq hdst] at hphiResult
      exact (Option.some.inj hphiResult).symm
    have hused' := h.isUsed hmerges hneeded (hdefined.merged hb hphi hphiResult hread)
    rw [hdst'] at hused'
    exact absurd hused' hused

theorem IsDefined.exists_mem_reads (hmerges : MergesRegisters f) (hb : b ∈ f.blocks)
    {phi : MirInstruction} (hphi : phi ∈ b.phis) {d : ℕ} (hresult : phiResult phi = some d)
    (hneeded : IsNeeded f d) (hdefined : IsDefined f d) :
    d ∈ f.params ∨ ∃ r ∈ reads phi, IsDefined f r := by
  have hunique : ∀ {b' : MirBlock} {phi' : MirInstruction}, b' ∈ f.withSelectedBodies ctx →
      phi' ∈ b'.phis → phiResult phi' = some d → phi' = phi := by
    intro b' phi' hb' hphi' hresult'
    obtain ⟨b₀, hb₀, hphi₀, -⟩ := phi_mem hb' hphi'
    exact (eq_of_phiResult hb hb₀ hphi hresult (mem_append_left _ hphi₀)
      ((writes_phi hb₀ hphi₀).mpr hresult')).2
  cases hdefined with
  | param h => exact .inl h
  | written hb' hinst hd =>
    obtain ⟨b₀, hb₀, rfl⟩ := mem_withSelectedBodies.mp hb'
    exact absurd hd (not_mem_writes_selected hb hb₀ hphi hresult hinst)
  | constant hb' hphi' hresult' hop hconstant =>
    obtain rfl := hunique hb' hphi' hresult'
    obtain ⟨r, hr, -⟩ := hmerges b hb _ hphi d hresult hneeded _ hop
    rw [hconstant] at hr
    cases hr
  | merged hb' hphi' hresult' hr hdefined =>
    obtain rfl := hunique hb' hphi' hresult'
    exact .inr ⟨_, hr, hdefined⟩

theorem Progress.phi {b : MirBlock} {phi : MirInstruction}
    (h : Progress f done (.phi b phi :: todo) s) (hmerges : MergesRegisters f) :
    ∃ s', (s.function ctx f.toMirFunction).selectPHI b phi = s'.function ctx f.toMirFunction ∧
      Progress f (done ++ [.phi b phi]) todo s' := by
  obtain ⟨hb, hphi⟩ : b ∈ f.blocks ∧ phi ∈ b.phis := (h.mem b phi).mp (by simp)
  obtain ⟨s₁, new, hinsert, hgot, hsublist, hcomplete⟩ := h.insertMoves hmerges hb hphi
  have hmoves : ∀ {id : ℕ} {mv : Move}, mv ∈ (s₁.dropPhi b.id).moves id ↔
      mv ∈ s.moves id ∨ mv ∈ new id := fun {id mv} => hgot.mem_moves
  have hphis : ∀ id, s.phis id = phisOf id todo ++ if b.id = id then [phi] else [] := by
    intro id
    rw [h.phis, phisOf_phi]
    split
    · rfl
    · exact (append_nil _).symm
  have hphis' : ∀ id, (s₁.dropPhi b.id).phis id = phisOf id todo := by
    intro id
    change Function.update s₁.phis b.id (s₁.phis b.id).dropLast id = _
    rw [hgot.phis]
    by_cases hid : b.id = id
    · subst hid
      rw [Function.update_self, hphis, if_pos rfl, dropLast_concat]
    · rw [Function.update_of_ne (Ne.symm hid), hphis, if_neg hid, append_nil]
  refine ⟨s₁.dropPhi b.id, ?_, ?_, ?_, hphis', ?_, ?_, ?_, ?_⟩
  · unfold MirFunction.selectPHI
    rw [hinsert, Stage.dropLast_function]
  · intro b' phi'
    rw [append_assoc]
    exact h.mem b' phi'
  · intro id
    change id ∈ s₁.reached ↔ _
    rw [hgot.reached, h.reached, mem_append, mem_singleton]
    exact ⟨.inl, fun hstep => hstep.resolve_right nofun⟩
  · intro pred hpred
    have hdone : Step.reach pred ∉ done := fun hmem => hpred (mem_append_left _ hmem)
    change (s₁.early pred).Sublist _
    rw [hgot.early, if_neg fun hmem => hdone ((h.reached pred).mp hmem), stepMoves_append,
      stepMoves_phi]
    exact (h.early pred hdone).append (hsublist pred)
  · intro pred before behind hdone
    rcases append_singleton_split hdone with ⟨-, hstep, -⟩ | ⟨behind', rfl, rfl⟩
    · cases hstep
    · obtain ⟨hearly, hlate⟩ := h.split pred before behind' rfl
      have hreached : pred ∈ s.reached := (h.reached pred).mpr (by simp)
      change (s₁.early pred).Sublist _ ∧ (s₁.late pred).Sublist _
      rw [hgot.early, hgot.late, if_pos hreached, if_pos hreached, append_nil,
        stepMoves_append, stepMoves_phi]
      exact ⟨hearly, hlate.append (hsublist pred)⟩
  · intro r hmerged hneeded hdefined
    rcases h.defs r hmerged hneeded hdefined with hparam | hdef
    · exact .inl hparam
    by_cases hresult : phiResult phi = some r
    -- The PHI that wrote the register is gone, and a move writes it.
    · rcases hdefined.exists_mem_reads hmerges hb hphi hresult hneeded with hparam | hread
      · exact .inl hparam
      obtain ⟨r', hr', hdefined'⟩ := hread
      obtain ⟨pred, hpred, op, hop, hid⟩ := (mem_reads_iff hb hphi).mp hr'
      obtain ⟨mv, hmv, rfl, rfl⟩ :=
        exists_mem_movesOf hmerges hb hphi hresult hneeded hpred hop hid hdefined'
      obtain ⟨bp, hbp, rfl⟩ := mem_map.mp (f.predecessors_mem b hb pred hpred)
      have hmem : mv ∈ (s₁.dropPhi b.id).moves bp.id :=
        hmoves.mpr (.inr (hcomplete bp.id mv hmv hneeded hdefined'))
      exact .inr (hasDef_iff.mpr ⟨_, mem_map_of_mem hbp, mv.inst,
        .inr (mem_body_of_mem_moves hmem), mem_writes_movInst mv.dst_virtual⟩)
    · refine .inr (hasDef_of_subset ?_ (fun _ _ hmv => hmoves.mpr (.inl hmv)) hmerged hdef)
      intro id phi' hphi' hwrites
      rw [hphis']
      rw [hphis] at hphi'
      refine (mem_append.mp hphi').resolve_right ?_
      intro hlast
      split at hlast
      · obtain rfl := mem_singleton.mp hlast
        exact hresult ((writes_phi hb hphi).mp hwrites)
      · cases hlast
  · intro b' phi' hstep pred mv hmv hneeded hdefined
    rw [hmoves]
    rcases mem_append.mp hstep with hstep | hstep
    · exact .inl (h.complete b' phi' hstep pred mv hmv hneeded hdefined)
    · cases mem_singleton.mp hstep
      exact .inr (hcomplete pred mv hmv hneeded hdefined)

/-! ### The whole selection -/

theorem phis_nodup (hb : b ∈ f.blocks) : b.phis.Nodup := by
  have hnodup := nodup_of_mem_flatMap (nodup_append.mp f.singleAssignment).2.1 hb
  rw [flatMap_append] at hnodup
  have hdisjoint := (nodup_flatMap.mp (nodup_append.mp hnodup).1).2
  refine hdisjoint.imp_of_mem ?_
  rintro phi phi' hphi - hne rfl
  obtain ⟨dst, incoming, heq, hdst, -⟩ := f.isPhi b hb phi hphi
  have hwrites : dst.id ∈ writes phi := by
    rw [heq, mem_writes_phi hdst]
  exact hne hwrites hwrites

theorem steps_nodup : (steps f).Nodup := by
  unfold steps
  rw [nodup_flatMap]
  refine ⟨?_, ?_⟩
  · intro b hb
    unfold stepsOf
    rw [nodup_cons]
    refine ⟨fun hmem => ?_, ?_⟩
    · obtain ⟨phi, -, heq⟩ := mem_map.mp hmem
      cases heq
    · exact (nodup_reverse.mpr (phis_nodup hb)).map fun _ _ heq => (Step.phi.inj heq).2
  · refine (pairwise_map.mp f.nodup).imp ?_
    intro b b' hne step hstep hstep'
    rcases mem_cons.mp hstep with rfl | hstep
    · rcases mem_cons.mp hstep' with heq | hstep'
      · exact hne (Step.reach.inj heq)
      · obtain ⟨phi, -, heq⟩ := mem_map.mp hstep'
        cases heq
    · obtain ⟨phi, -, rfl⟩ := mem_map.mp hstep
      rcases mem_cons.mp hstep' with heq | hstep'
      · cases heq
      · obtain ⟨phi', -, heq⟩ := mem_map.mp hstep'
        cases heq
        exact hne rfl

theorem Progress.run (h : Progress f done todo s) (hmerges : MergesRegisters f)
    (hsteps : done ++ todo = steps f) :
    ∃ s', todo.foldl (Step.run ctx) (s.function ctx f.toMirFunction) =
        s'.function ctx f.toMirFunction ∧ Progress f (steps f) [] s' := by
  induction todo generalizing done s with
  | nil =>
    rw [append_nil] at hsteps
    exact ⟨s, rfl, hsteps ▸ h⟩
  | cons step todo ih =>
    have hsteps' : done ++ [step] ++ todo = steps f := by
      rw [append_assoc]
      exact hsteps
    rw [foldl_cons]
    cases step with
    | reach id =>
      have hid : Step.reach id ∉ done := by
        have hnodup := hsteps ▸ steps_nodup (f := f)
        rw [nodup_middle, nodup_cons, mem_append, not_or] at hnodup
        exact hnodup.1.1
      have hreached : id ∉ s.reached := fun hmem => hid ((h.reached id).mp hmem)
      obtain ⟨s', hfold, hprogress⟩ := ih (h.reach hid) hsteps'
      refine ⟨s', ?_, hprogress⟩
      rw [← hfold, ← Stage.selectBody_function hreached]
      rfl
    | phi b phi =>
      obtain ⟨s₁, hselect, hprogress₁⟩ := h.phi hmerges
      obtain ⟨s', hfold, hprogress⟩ := ih hprogress₁ hsteps'
      refine ⟨s', ?_, hprogress⟩
      rw [← hfold, ← hselect]
      rfl

theorem exists_stage (hmerges : MergesRegisters f) :
    ∃ s, f.selectFunction ctx = s.function ctx f.toMirFunction ∧ Progress f (steps f) [] s := by
  obtain ⟨s, hfold, hprogress⟩ :=
    (Progress.initial (f := f)).run hmerges (nil_append _)
  refine ⟨s, ?_, hprogress⟩
  rw [← hfold, initial_function]
  exact selectFunction_eq f.toMirFunction ctx

end

/-!
## Where the moves of a selected block stand

The moves that a block got before it was reached stand behind the instructions in front of
its generic branch. The later ones stand in front of the first target instruction that
branches, which is a call when there is one through a register on RISC-V. A block runs
right when each move leaves the instructions behind it and the moves behind it alone.
-/

/-! ### Moves among instructions -/

/-- A move of a register to itself does nothing. -/
def Move.isEffective (mv : Move) : Bool := mv.src.id ≠ mv.dst.id

section

variable {arch : TargetArch} {blocks : List MirBlock} {results : List ℕ}
  {insts rest final : List MirInstruction} {moves : List Move}

theorem placed_refl (insts : List MirInstruction) : Placed arch blocks results insts [] insts := by
  induction insts with
  | nil => exact .nil
  | cons inst insts ih => exact .keep (fun _ => rfl) ih

theorem Placed.append (h : Placed arch blocks results rest moves final)
    (hinsts : ∀ inst ∈ insts, mayJump arch inst = false) :
    Placed arch blocks results (insts ++ rest) moves (insts ++ final) := by
  induction insts with
  | nil => exact h
  | cons inst insts ih =>
    refine .keep (fun hjump => ?_) (ih fun i hi => hinsts i (mem_cons_of_mem inst hi))
    rw [hinsts inst mem_cons_self] at hjump
    cases hjump

theorem Placed.insert (h : Placed arch blocks results rest moves final) {new : List Move}
    (hresults : ∀ mv ∈ new, mv.dst.id ∈ results)
    (hsafe : ∀ mv ∈ new.filter Move.isEffective, SafeMove blocks mv rest)
    (hbefore : (new.filter Move.isEffective ++ moves).Pairwise (SafeBefore blocks)) :
    Placed arch blocks results rest (new.filter Move.isEffective ++ moves)
      (new.map Move.inst ++ final) := by
  induction new with
  | nil => exact h
  | cons mv new ih =>
    have hmv := hresults mv mem_cons_self
    have hnew : ∀ mv' ∈ new, mv'.dst.id ∈ results :=
      fun mv' hmv' => hresults mv' (mem_cons_of_mem mv hmv')
    by_cases heffective : mv.isEffective = true
    · rw [filter_cons_of_pos heffective] at hsafe hbefore ⊢
      rw [cons_append, pairwise_cons] at hbefore
      exact .move (hsafe mv mem_cons_self) hbefore.1
        (ih hnew (fun mv' hmv' => hsafe mv' (mem_cons_of_mem mv hmv')) hbefore.2)
    · rw [filter_cons_of_neg heffective] at hsafe hbefore ⊢
      have hself : mv.src.id = mv.dst.id := by
        simpa [Move.isEffective] using heffective
      exact .self hself hmv (ih hnew hsafe hbefore)

end

/-! ### The two parts of a block -/

def MirBlock.front (ctx : SelectorContext) (b : MirBlock) : List MirInstruction :=
  (b.body.takeWhile (!isBr ·)).flatMap (selectControl ctx)

/-- The selected instructions from the generic branch on. They are behind the moves that
the block got before it was reached. -/
def MirBlock.ending (ctx : SelectorContext) (b : MirBlock) : List MirInstruction :=
  (b.body.dropWhile (!isBr ·)).flatMap (selectControl ctx)

/-- The selected instructions from the first that branches on. They are behind the moves
that the block got after it was reached. -/
def MirBlock.branches (ctx : SelectorContext) (b : MirBlock) : List MirInstruction :=
  (b.body.flatMap (selectControl ctx)).dropWhile (!isBr ·)

def MirBlock.moveOrder (ctx : SelectorContext) (b : MirBlock) (early late : List Move) :
    List Move :=
  if (b.front ctx).any isBr then late ++ early else early ++ late

section

variable {ctx : SelectorContext} {b : MirBlock}

theorem body_eq : b.body.flatMap (selectControl ctx) = b.front ctx ++ b.ending ctx := by
  unfold MirBlock.front MirBlock.ending
  rw [← flatMap_append, takeWhile_append_dropWhile]

theorem flatMap_inserted (moves : List Move) : (inserted moves b.body).flatMap (selectControl ctx) =
      b.front ctx ++ (moves.map Move.inst ++ b.ending ctx) := by
  have hmoves : (moves.map Move.inst).flatMap (selectControl ctx) = moves.map Move.inst := by
    induction moves with
    | nil => rfl
    | cons mv moves ih =>
      rw [map_cons, flatMap_cons, ih]
      rfl
  unfold inserted insertBefore
  rw [flatMap_append, flatMap_append, hmoves, append_assoc]
  rfl

variable {out : MirInstruction}

/-- What an instruction that neither branches nor ends the block is replaced by comes back
from wherever it jumps to. -/
theorem mayJump_selectControl {inst : MirInstruction} (hinst : isBr inst = false)
    (hgeneric : inst.targetDesc = none) (hout : out ∈ selectControl ctx inst) :
    mayJump ctx.arch out = false := by
  have hsame : mayJump ctx.arch inst = false := by
    unfold mayJump
    rw [hinst]
    rfl
  obtain ⟨opcode, desc, operands⟩ := inst
  cases hgeneric
  have hbr : opcode ≠ .JMP ∧ opcode ≠ .TRY ∧ opcode ≠ .BR_COND := by
    refine ⟨?_, ?_, ?_⟩
    all_goals
      rintro rfl
      simp [isBr, MirInstruction.getMetadata, getMeta] at hinst
  unfold selectControl at hout
  split at hout
  · next hopcode _ => exact absurd hopcode hbr.1
  · next hopcode _ => exact absurd hopcode hbr.2.1
  · next hopcode _ => exact absurd hopcode hbr.2.2
  · unfold selectCALL at hout
    split at hout
    · next harch _ =>
        obtain rfl := mem_singleton.mp hout
        rw [harch]
        rfl
    · obtain rfl := mem_singleton.mp hout
      exact hsame
  · obtain rfl := mem_singleton.mp hout
    exact hsame

theorem mayJump_of_mem_front (hgeneric : ∀ inst ∈ b.body, inst.targetDesc = none)
    (hout : out ∈ b.front ctx) : mayJump ctx.arch out = false := by
  obtain ⟨inst, hinst, hselect⟩ := mem_flatMap.mp hout
  have hbr : isBr inst = false := by simpa using mem_takeWhile_imp hinst
  exact mayJump_selectControl hbr (hgeneric inst (takeWhile_sublist _ |>.subset hinst)) hselect

theorem mayJump_of_mem_takeWhile {insts : List MirInstruction}
    (hout : out ∈ insts.takeWhile (!isBr ·)) : mayJump ctx.arch out = false := by
  have hbr : isBr out = false := by simpa using mem_takeWhile_imp hout
  unfold mayJump
  rw [hbr]
  rfl

theorem placed_block {blocks : List MirBlock} {results : List ℕ} {early late : List Move}
    (hgeneric : ∀ inst ∈ b.body, inst.targetDesc = none)
    (hresults : ∀ mv ∈ early ++ late, mv.dst.id ∈ results)
    (hearly : ∀ mv ∈ early.filter Move.isEffective, SafeMove blocks mv (b.ending ctx))
    (hlate : ∀ mv ∈ late.filter Move.isEffective, SafeMove blocks mv (b.branches ctx))
    (hbefore : ((b.moveOrder ctx early late).filter Move.isEffective).Pairwise
      (SafeBefore blocks)) :
    Placed ctx.arch blocks results (b.body.flatMap (selectControl ctx))
      ((b.moveOrder ctx early late).filter Move.isEffective)
      (inserted late ((inserted early b.body).flatMap (selectControl ctx))) := by
  have hfront : ∀ inst ∈ b.front ctx, mayJump ctx.arch inst = false :=
    fun inst hinst => mayJump_of_mem_front hgeneric hinst
  have hresultsEarly : ∀ mv ∈ early, mv.dst.id ∈ results :=
    fun mv hmv => hresults mv (mem_append_left _ hmv)
  have hresultsLate : ∀ mv ∈ late, mv.dst.id ∈ results :=
    fun mv hmv => hresults mv (mem_append_right _ hmv)
  rw [flatMap_inserted, body_eq]
  unfold MirBlock.moveOrder at hbefore ⊢
  unfold MirBlock.branches at hlate
  rw [body_eq] at hlate
  by_cases hany : (b.front ctx).any isBr = true
  -- A call branches, and the later moves stand in front of it.
  · have hexists : ∃ inst ∈ b.front ctx, isBr inst = true := any_eq_true.mp hany
    rw [if_pos hany, filter_append] at hbefore ⊢
    rw [dropWhile_append_of_pos hexists] at hlate
    have hdrop : ∀ inst ∈ (b.front ctx).dropWhile (!isBr ·), mayJump ctx.arch inst = false :=
      fun inst hinst => hfront inst ((dropWhile_sublist _).subset hinst)
    have hrefl : Placed ctx.arch blocks results (b.ending ctx) [] (b.ending ctx) :=
      placed_refl _
    have hplaced := (hrefl.insert hresultsEarly hearly (by
        rw [append_nil]
        exact (pairwise_append.mp hbefore).2.1)).append hdrop
    rw [append_nil] at hplaced
    have hplaced' := (hplaced.insert hresultsLate hlate hbefore).append
      fun inst (hinst : inst ∈ (b.front ctx).takeWhile (!isBr ·)) =>
        (mayJump_of_mem_takeWhile hinst : mayJump ctx.arch inst = false)
    rw [← append_assoc, takeWhile_append_dropWhile] at hplaced'
    rw [inserted, insertBefore_append_of_pos hexists]
    unfold insertBefore
    simpa using hplaced'
  · have hnone : ∀ inst ∈ b.front ctx, isBr inst = false := by simpa using hany
    have hnot : ∀ inst ∈ b.front ctx, (!isBr inst) = true :=
      fun inst hinst => by rw [hnone inst hinst]; rfl
    have hmoves : ∀ inst ∈ early.map Move.inst, isBr inst = false := by
      intro inst hinst
      obtain ⟨mv, -, rfl⟩ := mem_map.mp hinst
      exact isBr_moveInst mv
    rw [if_neg hany, filter_append] at hbefore ⊢
    rw [List.dropWhile_append_of_pos hnot] at hlate
    have hrefl : Placed ctx.arch blocks results ((b.ending ctx).dropWhile (!isBr ·)) []
        ((b.ending ctx).dropWhile (!isBr ·)) := placed_refl _
    have hplaced := (hrefl.insert hresultsLate hlate (by
        rw [append_nil]
        exact (pairwise_append.mp hbefore).2.1)).append
      fun inst (hinst : inst ∈ (b.ending ctx).takeWhile (!isBr ·)) =>
        (mayJump_of_mem_takeWhile hinst : mayJump ctx.arch inst = false)
    rw [append_nil, takeWhile_append_dropWhile] at hplaced
    have hplaced' := (hplaced.insert hresultsEarly hearly hbefore).append hfront
    rw [inserted, insertBefore_append_of_neg hnone, insertBefore_append_of_neg hmoves]
    unfold insertBefore
    simpa using hplaced'

end

end EzPacker.PhiElimination
