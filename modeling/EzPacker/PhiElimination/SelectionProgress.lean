import EzPacker.PhiElimination.SelectionStages

/-!
# The progress of a selection

The invariant of a selection, kept by every step. It needs that the PHIs whose results
are needed merge registers only.
-/

namespace EzPacker.PhiElimination

open List Mir CodeFlow

variable {b : MirBlock} {mv : Move} {phi : MirInstruction} {pred r : ℕ}

section

variable {ctx : SelectorContext} (f : SsaFunction ctx)

/-- The register is needed in the function with selected branches. -/
abbrev IsNeeded (r : ℕ) : Prop := Needed (f.withSelectedBodies ctx) r

/-- The register may come to have a value. -/
abbrev IsDefined (r : ℕ) : Prop := Defined (f.withSelectedBodies ctx) f.params r

/-- A PHI whose result is needed merges registers, and none that is named `undef`
although it may have a value. -/
def MergesRegisters : Prop :=
  ∀ b ∈ f.blocks, ∀ phi ∈ b.phis, ∀ d, phiResult phi = some d → IsNeeded f d →
    ∀ op ∈ phi.operands.tail, ∃ r, virtualId op = some r ∧
      (f.isNamedUndef r = true → ¬ IsDefined f r)

/-- Some PHI merges the register. -/
def IsMerged (r : ℕ) : Prop := ∃ b ∈ f.blocks, ∃ phi ∈ b.phis, r ∈ reads phi

variable {f}

theorem mem_withSelectedBodies : b ∈ f.withSelectedBodies ctx ↔ ∃ b₀ ∈ f.blocks,
      b = { b₀ with body := b₀.body.flatMap (selectControl ctx) } := by
  unfold MirFunction.withSelectedBodies
  simp [eq_comm]

theorem phi_mem (hb : b ∈ f.withSelectedBodies ctx) (hphi : phi ∈ b.phis) :
    ∃ b₀ ∈ f.blocks, phi ∈ b₀.phis ∧ b.id = b₀.id ∧
      b.predecessors = b₀.predecessors := by
  obtain ⟨b₀, hb₀, rfl⟩ := mem_withSelectedBodies.mp hb
  exact ⟨b₀, hb₀, hphi, rfl, rfl⟩

section

variable {b : MirBlock} {phi : MirInstruction} {d : ℕ} (hb : b ∈ f.blocks) (hphi : phi ∈ b.phis)
  (hresult : phiResult phi = some d)
include hb hphi hresult

theorem IsNeeded.merged (hd : IsNeeded f d) (hr : r ∈ reads phi) : IsNeeded f r :=
  Needed.merged (mem_withSelectedBodies.mpr ⟨b, hb, rfl⟩) hphi hresult hd hr

theorem IsDefined.merged (hr : r ∈ reads phi) (hdefined : IsDefined f r) : IsDefined f d :=
  Defined.merged (mem_withSelectedBodies.mpr ⟨b, hb, rfl⟩) hphi hresult hr hdefined

end

/-! ### PHIs of a function in SSA form -/

theorem phiResult_eq {dst : MirRegisterRef} (hdst : dst.isVirtual = true)
    (incoming : List MirOperand) :
    phiResult ⟨.PHI, none, .register dst :: incoming⟩ = some dst.id := by
  simp [phiResult, virtualId, hdst]

variable {op : MirOperand}

theorem virtualId_eq_some :
    virtualId op = some r ↔ ∃ reg, op = .register reg ∧ reg.isVirtual = true ∧ reg.id = r := by
  cases op with
  | register reg | _ => simp [virtualId]

theorem mem_operandIds_of_incoming (h : IsIncoming op) :
    r ∈ operandIds op ↔ virtualId op = some r := by
  cases op with
  | register reg =>
    change reg.isVirtual = true at h
    simp [operandIds, virtualId, mem_virtualIds, h]
  | memory mem => exact h.elim
  | _ => simp [operandIds, virtualId]

theorem mem_reads_iff (hb : b ∈ f.blocks) (hphi : phi ∈ b.phis) :
    r ∈ reads phi ↔ ∃ pred ∈ b.predecessors, ∃ op,
      incomingAt b.predecessors pred phi = some op ∧ virtualId op = some r := by
  obtain ⟨dst, incoming, rfl, -, hlength, hincoming⟩ := f.isPhi b hb phi hphi
  rw [mem_reads_phi]
  constructor
  · rintro ⟨op, hop, hr⟩
    obtain ⟨i, hi, rfl⟩ := mem_iff_getElem.mp hop
    have hi' : i < b.predecessors.length := hlength ▸ hi
    refine ⟨b.predecessors[i], getElem_mem hi', incoming[i], ?_,
      (mem_operandIds_of_incoming (hincoming _ hop)).mp hr⟩
    unfold incomingAt
    rw [(f.predecessors_nodup b hb).idxOf_getElem i hi', Nat.add_comm]
    exact getElem?_eq_getElem hi
  · rintro ⟨pred, -, op, hop, hr⟩
    have hmem := mem_tail_of_incomingAt hop
    exact ⟨op, hmem, (mem_operandIds_of_incoming (hincoming op hmem)).mpr hr⟩

theorem mem_zip_iff {preds : List ℕ} {incoming : List MirOperand} (hnodup : preds.Nodup) :
    (pred, op) ∈ preds.zip incoming ↔ pred ∈ preds ∧ incoming[preds.idxOf pred]? = some op := by
  constructor
  · intro h
    obtain ⟨i, hi⟩ := mem_iff_getElem?.mp h
    obtain ⟨hpred, hop⟩ := getElem?_zip_eq_some.mp hi
    obtain ⟨hlt, rfl⟩ := List.getElem?_eq_some_iff.mp hpred
    rw [hnodup.idxOf_getElem i hlt]
    exact ⟨getElem_mem hlt, hop⟩
  · rintro ⟨hmem, hop⟩
    have hlt := idxOf_lt_length_of_mem hmem
    refine mem_of_getElem? (i := preds.idxOf pred) (getElem?_zip_eq_some.mpr ⟨?_, hop⟩)
    rw [getElem?_eq_getElem hlt, getElem_idxOf hlt]

section

variable {b : MirBlock} (hb : b ∈ f.blocks)
include hb

theorem mem_movesOf (hphi : phi ∈ b.phis) :
    mv ∈ movesOf f.toMirFunction pred b phi ↔ pred ∈ b.predecessors ∧
      (∃ incoming, phi.operands = .register mv.dst :: incoming) ∧
      incomingAt b.predecessors pred phi = some (.register mv.src) ∧
      f.isUndefined mv.src = false := by
  obtain ⟨dst, incoming, rfl, hdst, hlength, hincoming⟩ := f.isPhi b hb phi hphi
  have hzip : ∀ op, (pred, op) ∈ b.predecessors.zip incoming ↔ pred ∈ b.predecessors ∧
      incomingAt b.predecessors pred ⟨.PHI, none, .register dst :: incoming⟩ = some op := by
    intro op
    rw [mem_zip_iff (f.predecessors_nodup b hb), incomingAt, Nat.add_comm]
    rfl
  unfold movesOf
  dsimp only
  rw [mem_filterMap]
  simp only [mem_filter, decide_eq_true_eq, moveOf_eq_some]
  constructor
  · rintro ⟨⟨pred', op⟩, ⟨hi, rfl⟩, rfl, rfl, hdefined⟩
    exact ⟨((hzip _).mp hi).1, ⟨incoming, rfl⟩, ((hzip _).mp hi).2, hdefined⟩
  · rintro ⟨hpred, ⟨incoming', hoperands⟩, hop, hdefined⟩
    obtain ⟨hreg, -⟩ := cons.inj hoperands
    obtain rfl := MirOperand.register.inj hreg
    exact ⟨(pred, .register mv.src), ⟨(hzip _).mpr ⟨hpred, hop⟩, rfl⟩, rfl, rfl, hdefined⟩

theorem phiResult_of_mem_movesOf (hphi : phi ∈ b.phis)
    (hmv : mv ∈ movesOf f.toMirFunction pred b phi) : phiResult phi = some mv.dst.id := by
  obtain ⟨-, ⟨incoming, hoperands⟩, -⟩ := (mem_movesOf hb hphi).mp hmv
  simp [phiResult, hoperands, virtualId, mv.dst_virtual]

theorem mem_reads_of_mem_movesOf (hphi : phi ∈ b.phis)
    (hmv : mv ∈ movesOf f.toMirFunction pred b phi) : mv.src.id ∈ reads phi := by
  obtain ⟨hpred, -, hop, -⟩ := (mem_movesOf hb hphi).mp hmv
  exact (mem_reads_iff hb hphi).mpr
    ⟨pred, hpred, _, hop, virtualId_eq_some.mpr ⟨mv.src, rfl, mv.src_virtual, rfl⟩⟩

theorem eq_of_phiResult {b' : MirBlock} (hb' : b' ∈ f.blocks) {inst : MirInstruction}
    (hphi : phi ∈ b.phis) {d : ℕ} (hresult : phiResult phi = some d)
    (hinst : inst ∈ b'.phis ++ b'.body) (hwrites : d ∈ writes inst) : b' = b ∧ inst = phi := by
  have hnodup := (nodup_append.mp f.singleAssignment).2.1
  have hphi' : d ∈ writes phi := by
    obtain ⟨dst, incoming, rfl, hdst, -, -⟩ := f.isPhi b hb phi hphi
    rw [phiResult_eq hdst] at hresult
    rw [mem_writes_phi hdst]
    exact (Option.some.inj hresult).symm
  have hmem : phi ∈ b.phis ++ b.body := mem_append_left _ hphi
  obtain rfl := eq_of_mem_flatMap hnodup hb' hb (mem_flatMap.mpr ⟨inst, hinst, hwrites⟩)
    (mem_flatMap.mpr ⟨phi, hmem, hphi'⟩)
  exact ⟨rfl, eq_of_mem_flatMap (nodup_of_mem_flatMap hnodup hb') hinst hmem hwrites hphi'⟩

theorem writes_phi (hphi : phi ∈ b.phis) : r ∈ writes phi ↔ phiResult phi = some r := by
  obtain ⟨dst, incoming, rfl, hdst, -, -⟩ := f.isPhi b hb phi hphi
  rw [phiResult_eq hdst, mem_writes_phi hdst, Option.some_inj, eq_comm]

section

variable {b' : MirBlock} {phi : MirInstruction} {d : ℕ} (hb' : b' ∈ f.blocks) (hphi : phi ∈ b.phis)
  (hresult : phiResult phi = some d)
include hb' hphi hresult

theorem not_mem_writes_body {inst : MirInstruction} (hinst : inst ∈ b'.body) : d ∉ writes inst := by
  intro hwrites
  obtain ⟨rfl, rfl⟩ := eq_of_phiResult hb hb' hphi hresult (mem_append_right _ hinst) hwrites
  obtain ⟨dst, incoming, heq, -⟩ := f.isPhi b' hb inst hphi
  exact (f.isGeneric b' hb inst hinst).1 (by rw [heq])

theorem not_mem_writes_selected {out : MirInstruction}
    (hout : out ∈ b'.body.flatMap (selectControl ctx)) : d ∉ writes out := by
  obtain ⟨inst, hinst, hselect⟩ := mem_flatMap.mp hout
  rcases selectControl_of_mem hb' hinst hselect with rfl | hreplaces
  · exact not_mem_writes_body hb hb' hphi hresult hinst
  · rw [hreplaces.writes]
    exact not_mem_nil

end

end

/-- What may have a value is a parameter or is written. -/
theorem IsDefined.hasDef (h : IsDefined f r) : r ∈ f.params ∨ f.hasDef r = true := by
  cases h with
  | param h => exact .inl h
  | written hb hinst hr =>
    right
    obtain ⟨b₀, hb₀, rfl⟩ := mem_withSelectedBodies.mp hb
    obtain ⟨inst₀, hinst₀, hselect⟩ := mem_flatMap.mp hinst
    refine hasDef_iff.mpr ⟨b₀, hb₀, inst₀, .inr hinst₀, ?_⟩
    rcases selectControl_of_mem hb₀ hinst₀ hselect with rfl | hreplaces
    · exact hr
    · rw [hreplaces.writes] at hr
      cases hr
  | constant hb hphi hresult _ _ | merged hb hphi hresult _ _ =>
    obtain ⟨b₀, hb₀, hphi₀, -⟩ := phi_mem hb hphi
    exact .inr (hasDef_iff.mpr ⟨b₀, hb₀, _, .inl hphi₀, (writes_phi hb₀ hphi₀).mpr hresult⟩)

theorem exists_mem_movesOf (hmerges : MergesRegisters f) (hb : b ∈ f.blocks) (hphi : phi ∈ b.phis)
    {d : ℕ} (hresult : phiResult phi = some d) (hd : IsNeeded f d) (hpred : pred ∈ b.predecessors)
    (hop : incomingAt b.predecessors pred phi = some op) (hr : virtualId op = some r)
    (hdefined : IsDefined f r) :
    ∃ mv ∈ movesOf f.toMirFunction pred b phi, mv.dst.id = d ∧ mv.src.id = r := by
  obtain ⟨r', hr', hnamed⟩ := hmerges b hb phi hphi d hresult hd op (mem_tail_of_incomingAt hop)
  obtain rfl : r' = r := Option.some.inj (hr'.symm.trans hr)
  obtain ⟨src, rfl, hsrc, rfl⟩ := virtualId_eq_some.mp hr
  have hundefined : f.isUndefined src = false := by
    unfold MirFunction.isUndefined
    have hname : f.isNamedUndef src.id = false := by
      cases hname : f.isNamedUndef src.id with
      | false => rfl
      | true => exact absurd hdefined (hnamed hname)
    rcases hdefined.hasDef with hparam | hdef
    · simp [hname, hparam]
    · simp [hname, hdef]
  obtain ⟨dst, incoming, rfl, hdst, -, -⟩ := f.isPhi b hb phi hphi
  rw [phiResult_eq hdst] at hresult
  refine ⟨⟨dst, src, hdst, hsrc⟩, ?_, Option.some.inj hresult, rfl⟩
  exact (mem_movesOf hb hphi).mpr ⟨hpred, ⟨incoming, rfl⟩, hop, hundefined⟩

end

/-! ### The invariant -/

section

variable {ctx : SelectorContext}

/-- The selection has taken the steps `done` and has the steps `todo` before it. -/
structure Progress (f : SsaFunction ctx) (done todo : List Step) (s : Stage) : Prop where
  mem : ∀ b phi, Step.phi b phi ∈ done ++ todo ↔ b ∈ f.blocks ∧ phi ∈ b.phis
  reached : ∀ id, id ∈ s.reached ↔ Step.reach id ∈ done
  phis : ∀ id, s.phis id = phisOf id todo
  early : ∀ pred, Step.reach pred ∉ done →
    (s.early pred).Sublist (stepMoves f.toMirFunction pred done)
  split : ∀ pred before behind, done = before ++ Step.reach pred :: behind →
    (s.early pred).Sublist (stepMoves f.toMirFunction pred before) ∧
      (s.late pred).Sublist (stepMoves f.toMirFunction pred behind)
  defs : ∀ r, IsMerged f r → IsNeeded f r → IsDefined f r →
    r ∈ f.params ∨ (s.function ctx f.toMirFunction).hasDef r = true
  complete : ∀ b phi, Step.phi b phi ∈ done → ∀ pred,
    ∀ mv ∈ movesOf f.toMirFunction pred b phi, IsNeeded f mv.dst.id →
      IsDefined f mv.src.id → mv ∈ s.moves pred

variable {f : SsaFunction ctx} {done todo : List Step} {s : Stage}

theorem mem_phisOf {id : ℕ} : phi ∈ phisOf id todo ↔ ∃ b, Step.phi b phi ∈ todo ∧ b.id = id := by
  unfold phisOf
  rw [mem_reverse, mem_filterMap]
  constructor
  · rintro ⟨step, hstep, h⟩
    cases step with
    | reach id' => cases h
    | phi b inst =>
      dsimp only at h
      split at h
      · next hid =>
          obtain rfl := Option.some.inj h
          exact ⟨b, hstep, hid⟩
      · cases h
  · rintro ⟨b, hstep, hid⟩
    exact ⟨_, hstep, if_pos hid⟩

theorem mem_stepMoves {steps : List Step} {g : MirFunction} :
    mv ∈ stepMoves g pred steps ↔ ∃ b phi, Step.phi b phi ∈ steps ∧ mv ∈ movesOf g pred b phi := by
  unfold stepMoves
  rw [mem_flatMap]
  constructor
  · rintro ⟨step, hstep, h⟩
    cases step with
    | reach id => cases h
    | phi b phi => exact ⟨b, phi, hstep, h⟩
  · rintro ⟨b, phi, hstep, h⟩
    exact ⟨_, hstep, h⟩

theorem stepMoves_append (g : MirFunction) (pred : ℕ) (xs ys : List Step) :
    stepMoves g pred (xs ++ ys) = stepMoves g pred xs ++ stepMoves g pred ys :=
  flatMap_append

namespace Progress

section

variable (h : Progress f done todo s)
include h

/-- The moves of a block are moves of PHIs that were replaced. -/
theorem exists_of_mem_moves (hmv : mv ∈ s.moves pred) :
    ∃ b phi, Step.phi b phi ∈ done ∧ mv ∈ movesOf f.toMirFunction pred b phi := by
  rw [← mem_stepMoves]
  by_cases hreached : Step.reach pred ∈ done
  · obtain ⟨before, behind, rfl⟩ := append_of_mem hreached
    obtain ⟨hearly, hlate⟩ := h.split pred before behind rfl
    rw [stepMoves_append]
    rcases mem_append.mp hmv with hmv | hmv
    · exact mem_append_left _ (hearly.subset hmv)
    · exact mem_append_right _ (hlate.subset hmv)
  · have hlate := s.late_nil pred fun hmem => hreached ((h.reached pred).mp hmem)
    rw [Stage.moves, hlate, append_nil] at hmv
    exact (h.early pred hreached).subset hmv

theorem mem_done (hmem : Step.phi b phi ∈ done) : b ∈ f.blocks ∧ phi ∈ b.phis :=
  (h.mem b phi).mp (mem_append_left _ hmem)

theorem mono (hr : (s.function ctx f.toMirFunction).hasDef r = true) : f.hasDef r = true := by
  refine hasDef_of_stage ?_ ?_ hr
  · intro b hb phi hphi
    rw [h.phis] at hphi
    obtain ⟨b', hstep, hid⟩ := mem_phisOf.mp hphi
    obtain ⟨hb', hphi'⟩ := (h.mem b' phi).mp (mem_append_right _ hstep)
    obtain rfl := inj_on_of_nodup_map f.nodup hb' hb hid
    exact hphi'
  · intro b _ mv hmv
    obtain ⟨b', phi, hstep, hmem⟩ := h.exists_of_mem_moves hmv
    obtain ⟨hb', hphi⟩ := h.mem_done hstep
    exact hasDef_iff.mpr ⟨b', hb', phi, .inl hphi,
      (writes_phi hb' hphi).mpr (phiResult_of_mem_movesOf hb' hphi hmem)⟩

/-- A register that is needed and may have a value is read at every stage. -/
theorem isUsed (hmerges : MergesRegisters f) (hneeded : IsNeeded f r) (hdefined : IsDefined f r) :
    (s.function ctx f.toMirFunction).isUsed r = true := by
  have hblock : ∀ b ∈ f.blocks, s.block ctx b ∈ (s.function ctx f.toMirFunction).blocks :=
    fun b hb => mem_map_of_mem hb
  cases hneeded with
  | read hb hinst hr =>
    obtain ⟨b₀, hb₀, rfl⟩ := mem_withSelectedBodies.mp hb
    obtain ⟨inst, hinst', hr'⟩ := exists_reads (s := s) hb₀ hinst hr
    exact isUsed_iff.mpr ⟨_, hblock b₀ hb₀, inst, .inr hinst', hr'⟩
  | @merged b phi d _ hb hphi hresult hd hr =>
    obtain ⟨b₀, hb₀, hphi₀, -⟩ := phi_mem hb hphi
    rcases mem_append.mp ((h.mem b₀ phi).mpr ⟨hb₀, hphi₀⟩) with hstep | hstep
    · obtain ⟨pred, hpred, op, hop, hid⟩ := (mem_reads_iff hb₀ hphi₀).mp hr
      obtain ⟨mv, hmv, rfl, rfl⟩ :=
        exists_mem_movesOf hmerges hb₀ hphi₀ hresult hd hpred hop hid hdefined
      have hmem := h.complete b₀ phi hstep pred mv hmv hd hdefined
      obtain ⟨bp, hbp, rfl⟩ := mem_map.mp (f.predecessors_mem b₀ hb₀ pred hpred)
      exact isUsed_iff.mpr ⟨_, hblock bp hbp, mv.inst, .inr (mem_body_of_mem_moves hmem),
        mem_reads_movInst mv.src_virtual⟩
    · refine isUsed_iff.mpr ⟨_, hblock b₀ hb₀, phi, .inl ?_, hr⟩
      change phi ∈ s.phis b₀.id
      rw [h.phis]
      exact mem_phisOf.mpr ⟨b₀, hstep, rfl⟩

end

end Progress

end

end EzPacker.PhiElimination
