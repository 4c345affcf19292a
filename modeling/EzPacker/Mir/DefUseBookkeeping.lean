import EzPacker.Mir.InstructionBuilder

/-!
# Runs of the instruction builder

Every operation of the builder is an edit of one instruction's operands, a build or
an erasure. Each keeps the invariant `Inv` when it meets `Keeps`, so the register
info is right in every state of a run whose operations all meet it.
-/

namespace EzPacker.Mir

open Nat Function

namespace BuilderState

variable {n : ℕ}

/-! Erasing and building change which instructions are linked. -/

variable {s : BuilderState n}

theorem Placed.unlink (h : s.Placed) (instr : ℕ) : (s.unlink instr).Placed := by
  cases howner : s.owner instr with
  | none => simpa [BuilderState.unlink, howner] using h
  | some b =>
    simp only [BuilderState.unlink, howner]
    refine ⟨?_, ?_, ?_⟩
    · intro b' i
      by_cases hi : i = instr
      · subst hi
        by_cases hb : b' = b
        · subst hb
          simp
        · simp [hb, h.mem_iff, howner, Ne.symm hb]
      · by_cases hb : b' = b
        · subst hb
          simp [hi, h.mem_iff]
        · simp [hi, hb, h.mem_iff]
    · intro b'
      by_cases hb : b' = b
      · subst hb
        simpa using (h.nodup b').filter _
      · simpa [hb] using h.nodup b'
    · intro i hi
      by_cases hi' : i = instr
      · simp [hi']
      · simpa [hi'] using h.fresh i hi

theorem linkedAccesses_unlink (s : BuilderState n) (instr : ℕ) :
    (s.unlink instr).linkedAccesses = update s.linkedAccesses instr [] := by
  funext i
  cases howner : s.owner instr with
  | none =>
    by_cases hi : i = instr
    · subst hi
      simp [unlink, linkedAccesses, howner]
    · simp [unlink, howner, hi]
  | some b =>
    by_cases hi : i = instr
    · subst hi
      simp [unlink, linkedAccesses, howner]
    · simp [unlink, linkedAccesses, howner, hi]

/-- Unregistering all operands of an instruction and unlinking it. -/
theorem Inv.erase (hs : s.Inv) (block : Option (Fin n))
    {instr : ℕ} (hkeeps : s.EraseKeeps instr) : (s.erase block instr).Inv := by
  obtain ⟨info, hgone, hinfo⟩ := unregisterOperands_eq s block instr
    (List.range (s.instrs instr).operands.length)
  have hunregister : s.unregisterFrom block instr 0 = { s with regInfo := info } := by
    rw [← hgone, List.range_eq_range']
    rfl
  have hplaced : ({ s with regInfo := info } : BuilderState n).Placed :=
    ⟨hs.placed.mem_iff, hs.placed.nodup, hs.placed.fresh⟩
  have hregInfo : (s.erase block instr).regInfo = info := by
    rw [BuilderState.erase, hunregister, unlink]
    split <;> rfl
  have hacc : (s.erase block instr).linkedAccesses = update s.linkedAccesses instr [] := by
    rw [BuilderState.erase, hunregister]
    exact linkedAccesses_unlink _ instr
  refine ⟨?_, ?_⟩
  · rw [BuilderState.erase, hunregister]
    exact hplaced.unlink instr
  · rw [hregInfo, hacc, hinfo]
    rcases hkeeps with howner | hok
    · have hnil : s.linkedAccesses instr = [] := by simp [linkedAccesses, howner]
      rw [hs.tableExact.forgetAll_of_nil hnil, ite_self, ← hnil, update_eq_self]
      exact hs.tableExact
    · by_cases howner : s.owner instr = none
      · have hnil : s.linkedAccesses instr = [] := by simp [linkedAccesses, howner]
        rw [hs.tableExact.forgetAll_of_nil hnil, ite_self, ← hnil, update_eq_self]
        exact hs.tableExact
      · have hreg : s.getRegInfo block instr = true := by
          obtain ⟨b, hb⟩ := Option.ne_none_iff_exists'.mp howner
          simp [getRegInfo, hb]
        have hold : (s.linkedAccesses instr).Perm ([] ++ (s.instrs instr).accesses) := by
          simp [linkedAccesses, howner]
        rw [if_pos hreg]
        exact hok.edit hs hold (List.Perm.refl _)

/-- Adding operands one by one to an instruction that starts without any: every
operand is registered with the flags it has when it is the last one. -/
theorem addOperands_eq (s : BuilderState n) (block : Option (Fin n)) (instr : ℕ)
    (operands : List MirOperand) :
    ∃ info, operands.foldl (fun s operand => s.addOperand block instr operand) s =
        ({ s with regInfo := info } : BuilderState n).setOperands instr
          ((s.instrs instr).operands ++ operands) ∧
      info.view =
        if s.getRegInfo block instr then
          s.regInfo.view.recordAll instr ((List.range operands.length).flatMap fun p =>
            ({ s.instrs instr with
              operands := (s.instrs instr).operands ++ operands.take (p + 1) } :
                MirInstruction).accessesAt ((s.instrs instr).operands.length + p))
        else s.regInfo.view := by
  induction operands generalizing s with
  | nil =>
    refine ⟨s.regInfo, ?_, (ite_self _).symm⟩
    simp [setOperands]
  | cons operand operands ih =>
    obtain ⟨info, hstate, hview⟩ := ih (s.addOperand block instr operand)
    have hedit := edited_addOperand s block instr operand
    have hinstr : (s.addOperand block instr operand).instrs instr =
        { s.instrs instr with operands := (s.instrs instr).operands ++ [operand] } := by
      rw [hedit.instrs_eq, update_self]
    have hreg : (s.addOperand block instr operand).getRegInfo block instr =
        s.getRegInfo block instr := by
      rw [getRegInfo, getRegInfo, hedit.owner_eq]
    refine ⟨info, ?_, ?_⟩
    · rw [List.foldl_cons, hstate, setOperands, setOperands, hinstr, hedit.instrs_eq,
        hedit.owner_eq, hedit.blocks_eq, hedit.nextInstr_eq]
      simp
    · rw [hview, hreg, hedit.view_eq]
      by_cases h : s.getRegInfo block instr
      · rw [if_pos h, if_pos h, if_pos h, hinstr, List.length_cons,
          List.range_succ_eq_map, List.flatMap_cons, List.flatMap_map]
        simp only [DefUse.recordAll, DefUse.forgetAll, MirInstruction.accessesOn,
          List.flatMap_cons, List.flatMap_nil, List.append_nil, List.foldl_nil,
          List.foldl_append, List.length_append, List.length_cons, List.length_nil,
          add_zero, List.take_succ_cons, List.take_zero, List.append_assoc,
          List.cons_append, List.nil_append]
        congr 2
        funext p
        rw [zero_add, add_assoc, add_comm 1 p]
      · rw [if_neg h, if_neg h, if_neg h]

theorem insertBefore_perm (instr target : ℕ) (is : List ℕ) :
    (insertBefore instr target is).Perm (instr :: is) := by
  induction is with
  | nil => exact List.Perm.refl _
  | cons i is ih =>
    rw [insertBefore]
    split
    · exact List.Perm.refl _
    · exact (ih.cons i).trans (List.Perm.swap _ _ _)

theorem insertAfter_perm (instr target : ℕ) (is : List ℕ) :
    (insertAfter instr target is).Perm (instr :: is) := by
  induction is with
  | nil => exact List.Perm.refl _
  | cons i is ih =>
    rw [insertAfter]
    split
    · exact List.Perm.swap _ _ _
    · exact (ih.cons i).trans (List.Perm.swap _ _ _)

theorem insert_perm (ip : InsertionPoint n) (instr : ℕ) (block : List ℕ) :
    (ip.insert instr block).Perm (instr :: block) := by
  cases htype : ip.type with
  | Append => simp [InsertionPoint.insert, htype]
  | InsertBefore =>
    cases hit : ip.iterator with
    | none => simp [InsertionPoint.insert, htype, hit]
    | some target =>
      simpa [InsertionPoint.insert, htype, hit] using insertBefore_perm instr target block
  | InsertAfter =>
    cases hit : ip.iterator with
    | none => simp [InsertionPoint.insert, htype, hit]
    | some target =>
      simpa [InsertionPoint.insert, htype, hit] using insertAfter_perm instr target block

theorem buildImpl_eq (s : BuilderState n) (ip : InsertionPoint n)
    (opcode : MirInstructionOpCode) (targetDesc : Option MirTargetInstructionDesc)
    (operands : List MirOperand) :
    ∃ info, s.buildImpl ip opcode targetDesc operands =
        { instrs := update s.instrs s.nextInstr ⟨opcode, targetDesc, operands⟩
          owner := update s.owner s.nextInstr ip.block
          blocks := ip.block.elim s.blocks fun b =>
            update s.blocks b (ip.insert s.nextInstr (s.blocks b))
          regInfo := info
          nextInstr := s.nextInstr + 1 } ∧
      info.view =
        if ip.block.isSome then
          s.regInfo.view.recordAll s.nextInstr ((List.range operands.length).flatMap
            fun p => (⟨opcode, targetDesc, operands.take (p + 1)⟩ : MirInstruction).accessesAt p)
        else s.regInfo.view := by
  obtain ⟨info, hstate, hview⟩ := addOperands_eq
    (s.createInstruction ip.block opcode targetDesc) ip.block s.nextInstr operands
  refine ⟨info, ?_, ?_⟩
  · rw [buildImpl]
    simp only [hstate]
    cases hblock : ip.block with
    | none | some b => simp [finalizeInstruction, hblock, createInstruction, setOperands]
  · rw [hview]
    cases hblock : ip.block with
    | none | some b => simp [createInstruction, getRegInfo]

theorem Placed.build (h : s.Placed) (ip : InsertionPoint n)
    (inst : MirInstruction) (info : MirFunctionRegisterInfo) :
    ({ instrs := update s.instrs s.nextInstr inst
       owner := update s.owner s.nextInstr ip.block
       blocks := ip.block.elim s.blocks fun b =>
         update s.blocks b (ip.insert s.nextInstr (s.blocks b))
       regInfo := info
       nextInstr := s.nextInstr + 1 } : BuilderState n).Placed := by
  have hnew : s.owner s.nextInstr = none := h.fresh s.nextInstr (Nat.le_refl _)
  have hnotMem : ∀ b, s.nextInstr ∉ s.blocks b := by
    intro b hb
    rw [h.mem_iff, hnew] at hb
    cases hb
  have hmem : ∀ b' i, i ∈ (ip.block.elim s.blocks fun b =>
      update s.blocks b (ip.insert s.nextInstr (s.blocks b))) b' ↔
        i ∈ s.blocks b' ∨ (i = s.nextInstr ∧ ip.block = some b') := by
    intro b' i
    cases hblock : ip.block with
    | none => simp
    | some b =>
      by_cases hb : b' = b
      · subst hb
        simp [(insert_perm ip s.nextInstr (s.blocks b')).mem_iff, or_comm]
      · simp [hb, Ne.symm hb]
  refine ⟨?_, ?_, ?_⟩
  · intro b' i
    rw [hmem]
    by_cases hi : i = s.nextInstr
    · subst hi
      simp [hnotMem]
    · simp [hi, h.mem_iff]
  · intro b'
    cases hblock : ip.block with
    | none => exact h.nodup b'
    | some b =>
      by_cases hb : b' = b
      · subst hb
        have hcons : (s.nextInstr :: s.blocks b').Nodup :=
          List.nodup_cons.mpr ⟨hnotMem b', h.nodup b'⟩
        simpa using (insert_perm ip s.nextInstr (s.blocks b')).nodup_iff.mpr hcons
      · simpa [hb] using h.nodup b'
  · intro i hi
    have hlt : s.nextInstr < i := hi
    have hne : i ≠ s.nextInstr := Nat.ne_of_gt hlt
    simpa [hne] using h.fresh i (Nat.le_of_lt hlt)

theorem Inv.build (hs : s.Inv) {ip : InsertionPoint n}
    {opcode : MirInstructionOpCode} {targetDesc : Option MirTargetInstructionDesc}
    {operands : List MirOperand}
    (hkeeps : s.Keeps (.build ip opcode targetDesc operands)) :
    (s.buildImpl ip opcode targetDesc operands).Inv := by
  obtain ⟨info, hstate, hview⟩ := buildImpl_eq s ip opcode targetDesc operands
  have hnew : s.owner s.nextInstr = none := hs.placed.fresh s.nextInstr (Nat.le_refl _)
  have hnil : s.linkedAccesses s.nextInstr = [] := by simp [linkedAccesses, hnew]
  have hothers : ∀ i, i ≠ s.nextInstr →
      (s.buildImpl ip opcode targetDesc operands).linkedAccesses i = s.linkedAccesses i := by
    intro i hi
    rw [hstate]
    simp [linkedAccesses, hi]
  refine ⟨?_, ?_⟩
  · rw [hstate]
    exact hs.placed.build ip _ info
  · have hacc : (s.buildImpl ip opcode targetDesc operands).linkedAccesses =
        update s.linkedAccesses s.nextInstr (if ip.block = none then []
            else (⟨opcode, targetDesc, operands⟩ : MirInstruction).accesses) := by
      funext i
      by_cases hi : i = s.nextInstr
      · subst hi
        rw [hstate, update_self]
        simp [linkedAccesses]
      · rw [update_of_ne hi]
        exact hothers i hi
    have hregInfo : (s.buildImpl ip opcode targetDesc operands).regInfo = info := by
      rw [hstate]
    rw [hregInfo, hacc, hview]
    cases hblock : ip.block with
    | none =>
      simp only [Option.isSome_none, Bool.false_eq_true, if_false, if_true]
      rw [← hnil, update_eq_self]
      exact hs.tableExact
    | some b =>
      have hsame : ((List.range operands.length).flatMap fun p =>
          (⟨opcode, targetDesc, operands.take (p + 1)⟩ : MirInstruction).accessesAt p) =
            (⟨opcode, targetDesc, operands⟩ : MirInstruction).accesses := by
        rcases hkeeps with hnone | hflags
        · rw [hblock] at hnone
          cases hnone
        · exact List.flatMap_congr fun p hp => hflags p (List.mem_range.mp hp)
      have hold : (s.linkedAccesses s.nextInstr).Perm ([] ++ []) := by
        rw [hnil]
        exact List.Perm.refl _
      have hfresh : (⟨opcode, targetDesc, operands⟩ : MirInstruction).accesses.Perm
          ([] ++ (⟨opcode, targetDesc, operands⟩ : MirInstruction).accesses) :=
        List.Perm.refl _
      have hedit := hs.tableExact.edit hold hfresh (by simp [Access.Reads]) (by simp) (by simp)
      simpa [hsame, DefUse.forgetAll] using hedit

theorem Inv.step (hs : s.Inv) {op : BuilderOp n} (hkeeps : s.Keeps op) : (s.step op).Inv := by
  cases op with
  | build ip opcode targetDesc operands => exact hs.build hkeeps
  | addOperand ip instr operand =>
    refine (edited_addOperand s ip.block instr operand).inv hs ?_ ?_ hkeeps
    · simp
    · simp [List.range_succ]
  | addOperandFront ip instr operand =>
    refine (edited_addOperandFront s ip.block instr operand).inv hs ?_ ?_ hkeeps
    · simp
    · simp
  | swapOperand ip instr newOperand index =>
    by_cases hindex : index ≥ (s.instrs instr).operands.length
    · simpa [BuilderState.step, swapOperand, hindex] using hs
    · have hperm : (List.range (s.instrs instr).operands.length).Perm
          ((List.range (s.instrs instr).operands.length).filter (· ≠ index) ++ [index]) := by
        have hmem : index ∈ List.range (s.instrs instr).operands.length :=
          List.mem_range.mpr (Nat.not_le.mp hindex)
        have herase := List.perm_cons_erase hmem
        rw [List.nodup_range.erase_eq_filter] at herase
        refine herase.trans ((List.perm_append_singleton index _).symm.trans ?_)
        rw [List.filter_congr fun x _ => (by
          rw [bne, decide_not, beq_eq_decide] : (x != index) = decide (x ≠ index))]
      have hkeeps' := hkeeps.resolve_left hindex
      refine (edited_swapOperand s ip.block instr newOperand hindex).inv hs hperm ?_ hkeeps'
      rw [List.length_set]
      exact hperm
  | clearOperand ip instr pos =>
    by_cases hpos : pos ≥ (s.instrs instr).operands.length
    · simpa [BuilderState.step, clearOperand, hpos] using hs
    · have hlt := Nat.not_le.mp hpos
      have hrange : ∀ m, pos ≤ m → List.range m = List.range pos ++ List.range' pos (m - pos) := by
        intro m hm
        have happend := List.range'_append_1 (s := 0) (m := pos) (n := m - pos)
        rw [Nat.zero_add, Nat.add_sub_cancel' hm] at happend
        rw [List.range_eq_range', List.range_eq_range', happend]
      have hlen := List.length_eraseIdx_of_lt hlt
      have hkeeps' := hkeeps.resolve_left hpos
      refine (edited_clearOperand s ip.block instr hpos).inv hs ?_ ?_ hkeeps'
      · rw [hrange _ (Nat.le_of_lt hlt)]
      · rw [hlen, hrange _ (le_sub_one_of_lt hlt)]
  | clearOperands ip instr =>
    refine (edited_clearOperands s ip.block instr).inv hs ?_ ?_ hkeeps
    · simp
    · simp
  | erase ip instr => exact hs.erase ip.block hkeeps
  | eraseFromOwner instr =>
    by_cases howner : s.owner instr = none
    · simpa [BuilderState.step, eraseFromOwner, howner] using hs
    · have herase := hs.erase none hkeeps
      rw [BuilderState.erase] at herase
      simpa [BuilderState.step, eraseFromOwner, howner] using herase

theorem inv_new (n : ℕ) : (new n).Inv where
  placed := ⟨by simp [new], by simp [new], by simp [new]⟩
  tableExact := by
    refine ⟨?_, ?_, ?_⟩
    · intro r i p
      rfl
    · intro r w hw
      cases hw
    · intro r w hw
      simp [linkedAccesses, new] at hw

/-- The register info is right about a register: its use sites are the reads by
linked instructions, each operand position once unless the operand itself names the
register twice, and its definition is the instruction that writes it, if any. -/
structure Bookkept (s : BuilderState n) (r : ℕ) : Prop where
  uses : ((s.regInfo.getUses r).getD []).Perm (s.reads r)
  useCount : s.regInfo.getUseCount r = (s.reads r).length
  once : (∀ i ∈ s.linked, ∀ p, (Access.readsAt r ((s.instrs i).accessesAt p)).length ≤ 1) →
    ((s.regInfo.getUses r).getD []).Nodup
  definition : s.regInfo.getDef r = (s.writers r).head?

theorem nodup_readsAt_accesses {inst : MirInstruction} {r : ℕ}
    (h : ∀ p, (Access.readsAt r (inst.accessesAt p)).length ≤ 1) (ps : List ℕ)
    (hps : ps.Nodup) : (Access.readsAt r (inst.accessesOn ps)).Nodup := by
  have hpos : ∀ p, ∀ q ∈ Access.readsAt r (inst.accessesAt p), q = p := by
    intro p q hq
    simp only [Access.readsAt, MirInstruction.accessesAt, virtualAccesses, List.mem_map,
      List.mem_filter] at hq
    obtain ⟨a, ⟨⟨v, _, rfl⟩, _⟩, rfl⟩ := hq
    rfl
  induction ps with
  | nil => exact List.nodup_nil
  | cons p ps ih =>
    obtain ⟨hp, hps⟩ := List.nodup_cons.mp hps
    have hcons : inst.accessesOn (p :: ps) = inst.accessesAt p ++ inst.accessesOn ps :=
      List.flatMap_cons
    rw [hcons, Access.readsAt_append, List.nodup_append]
    refine ⟨?_, ih hps, ?_⟩
    · have hone := h p
      cases hat : Access.readsAt r (inst.accessesAt p) with
      | nil => exact List.nodup_nil
      | cons q qs =>
        rw [hat] at hone
        have hqs : qs = [] := by simpa using hone
        simp [hqs]
    · intro q hq q' hq' heq
      have hqp := hpos p q hq
      simp only [Access.readsAt, MirInstruction.accessesOn, List.mem_map,
        List.mem_filter, List.mem_flatMap] at hq'
      obtain ⟨a, ⟨⟨p', hp', ha⟩, hra⟩, rfl⟩ := hq'
      have hap : a.pos = p' := by
        refine hpos p' a.pos ?_
        exact List.mem_map_of_mem (List.mem_filter.mpr ⟨ha, by simpa using hra⟩)
      rw [← hqp, heq, hap] at hp
      exact hp hp'

theorem Inv.bookkept (hs : s.Inv) {r : ℕ} (hr : (s.writers r).length ≤ 1) : s.Bookkept r := by
  have hlinked : ∀ i ∈ s.linked, s.linkedAccesses i = (s.instrs i).accesses := by
    intro i hi
    rw [linkedAccesses, if_neg (hs.placed.mem_linked.mp hi)]
  have hreads : s.reads r =
      s.linked.flatMap fun i => (Access.readsAt r (s.linkedAccesses i)).map (i, ·) := by
    refine List.flatMap_congr ?_
    intro i hi
    rw [hlinked i hi]
  have hperm : ((s.regInfo.getUses r).getD []).Perm (s.reads r) := by
    rw [hreads]
    refine hs.tableExact.uses_perm hs.placed.nodup_linked ?_ r
    intro i hi
    rw [hs.placed.mem_linked]
    intro hnone
    exact hi (by simp [linkedAccesses, hnone])
  refine ⟨hperm, ?_, ?_, ?_⟩
  · rw [MirFunctionRegisterInfo.getUseCount_eq]
    exact hperm.length_eq
  · intro honce
    rw [hperm.nodup_iff, reads, List.nodup_flatMap]
    refine ⟨?_, ?_⟩
    · intro i hi
      refine List.Nodup.map (Prod.mk_right_injective i) ?_
      exact nodup_readsAt_accesses (honce i hi) _ List.nodup_range
    · refine hs.placed.nodup_linked.imp ?_
      intro i j hij u hu hu'
      obtain ⟨p, _, rfl⟩ := List.mem_map.mp hu
      obtain ⟨q, _, hq⟩ := List.mem_map.mp hu'
      exact hij (congrArg Prod.fst hq).symm
  · cases hw : s.writers r with
    | nil =>
      cases hdef : s.regInfo.getDef r with
      | none => rfl
      | some w =>
        have hmem := hs.placed.mem_writers.mpr (hs.tableExact.writes_of_defOf r w hdef)
        rw [hw] at hmem
        cases hmem
    | cons w ws =>
      have hnil : ws = [] := by
        rw [hw] at hr
        exact List.length_eq_zero_iff.mp (le_zero.mp (le_of_succ_le_succ hr))
      subst hnil
      refine hs.tableExact.defOf_of_unique r w ?_ ?_
      · exact hs.placed.mem_writers.mp (by simp [hw])
      · intro w' hw'
        have hmem := hs.placed.mem_writers.mpr hw'
        rw [hw] at hmem
        exact List.mem_singleton.mp hmem

set_option synthInstance.maxSize 512 in
instance (s : BuilderState n) (instr : ℕ) (kept gone fresh : List (Access ℕ ℕ)) :
    Decidable (s.EditOk instr kept gone fresh) :=
  decidable_of_iff ((∀ a ∈ kept, ∀ b ∈ gone, a.reads = true → b.reads = true → a.reg ≠ b.reg) ∧
      (∀ a ∈ kept, ∀ b ∈ gone, a.writes = true → b.writes = true → a.reg = b.reg →
        Access.Writes a.reg fresh ∨ ∃ w ∈ s.writers a.reg, w ≠ instr) ∧
      ∀ b ∈ gone, b.writes = true → ¬ Access.Writes b.reg (kept ++ fresh) →
        ∀ w ∈ s.writers b.reg, w ≠ instr → (∀ w' ∈ s.writers b.reg, w' ≠ instr → w' = w) →
            s.regInfo.getDef b.reg = some w)
    ⟨fun h => ⟨h.1, h.2.1, h.2.2⟩, fun h => ⟨h.reads, h.writes, h.defs⟩⟩

instance (s : BuilderState n) (block : Option (Fin n)) (instr : ℕ)
    (operands : List MirOperand) (kept gone fresh : List ℕ) :
    Decidable (s.EditKeeps block instr operands kept gone fresh) :=
  inferInstanceAs (Decidable (ite _ _ _))

instance (s : BuilderState n) (instr : ℕ) : Decidable (s.EraseKeeps instr) :=
  inferInstanceAs (Decidable (_ ∨ _))

instance decidableKeeps (s : BuilderState n) : ∀ op, Decidable (s.Keeps op)
  | .build _ _ _ _ => inferInstanceAs (Decidable (_ ∨ ∀ p < _, _))
  | .addOperand _ _ _ => inferInstanceAs (Decidable (s.EditKeeps _ _ _ _ _ _))
  | .addOperandFront _ _ _ => inferInstanceAs (Decidable (s.EditKeeps _ _ _ _ _ _))
  | .swapOperand _ _ _ _ =>
    inferInstanceAs (Decidable (_ ∨ s.EditKeeps _ _ _ _ _ _))
  | .clearOperand _ _ _ => inferInstanceAs (Decidable (_ ∨ s.EditKeeps _ _ _ _ _ _))
  | .clearOperands _ _ => inferInstanceAs (Decidable (s.EditKeeps _ _ _ _ _ _))
  | .erase _ _ => inferInstanceAs (Decidable (s.EraseKeeps _))
  | .eraseFromOwner _ => inferInstanceAs (Decidable (s.EraseKeeps _))

theorem inv_run {ops : List (BuilderOp n)}
    (hkeeps : Run.along step Keeps (new n) ops) : (Run.run step (new n) ops).Inv :=
  Run.invariant_of_along (fun _ _ hs h => hs.step h) (inv_new n) hkeeps

/-- In every state of a run of builder operations that all meet `Keeps`, the
register info is right about every register that at most one linked instruction
writes. -/
theorem bookkept_of_along_keeps {ops pre : List (BuilderOp n)}
    (hkeeps : Run.along step Keeps (new n) ops) (hpre : pre <+: ops) {r : ℕ}
    (hr : ((Run.run step (new n) pre).writers r).length ≤ 1) :
    (Run.run step (new n) pre).Bookkept r := by
  obtain ⟨post, rfl⟩ := hpre
  rw [Run.along_append] at hkeeps
  exact (inv_run hkeeps.1).bookkept hr

/-- Building `dst = lhs + lhs`, and then replacing the first operand's register. -/
theorem bookkept_of_along_keeps_add : (Run.run step (new 1)
      [.build ⟨some 0, .Append, none⟩ .ADD none [.register ⟨true, none, 0⟩,
          .register ⟨true, none, 1⟩, .register ⟨true, none, 1⟩],
        .swapOperand ⟨some 0, .Append, none⟩ 0 (.register ⟨true, none, 2⟩) 0]).Bookkept 1 := by
  have hkeeps : Run.along step Keeps (new 1)
      [.build ⟨some 0, .Append, none⟩ .ADD none [.register ⟨true, none, 0⟩,
          .register ⟨true, none, 1⟩, .register ⟨true, none, 1⟩],
        .swapOperand ⟨some 0, .Append, none⟩ 0 (.register ⟨true, none, 2⟩) 0] := by
    decide
  exact bookkept_of_along_keeps hkeeps (List.prefix_refl _) (by decide)

/-- Replacing one of two reads of a register drops both of them. -/
theorem not_bookkept_swapOperand : ¬ ∀ ops : List (BuilderOp 1), ∀ r,
      ((Run.run step (new 1) ops).writers r).length ≤ 1 →
        (Run.run step (new 1) ops).Bookkept r := by
  intro h
  have hbook := h [.build ⟨some 0, .Append, none⟩ .ADD none [.register ⟨true, none, 0⟩,
        .register ⟨true, none, 1⟩, .register ⟨true, none, 1⟩],
      .swapOperand ⟨some 0, .Append, none⟩ 0 (.register ⟨true, none, 2⟩) 1] 1 (by decide)
  exact absurd hbook.useCount (by decide)

end BuilderState

end EzPacker.Mir
