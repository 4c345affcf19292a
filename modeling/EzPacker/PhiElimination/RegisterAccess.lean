import EzPacker.PhiElimination.SelectPhi

/-!
# The registers of the selected control transfers

What the target instructions in the place of a branch or a call read, the generic
instruction reads as well, and they write no virtual register. Every other instruction
stays as it is.
-/

namespace EzPacker.PhiElimination

open List Mir CodeFlow

def operandIds : MirOperand → List ℕ
  | .register reg => virtualIds [reg]
  | .memory mem => virtualIds (mem.base.toList ++ mem.index.toList)
  | _ => []

variable {r : ℕ} {dst : MirRegisterRef} {operands : List MirOperand} {row : TransferInst}
  {inst out : MirInstruction} {ctx : SelectorContext}

theorem mem_virtualIds {regs : List MirRegisterRef} :
    r ∈ virtualIds regs ↔ ∃ reg ∈ regs, reg.isVirtual = true ∧ reg.id = r := by
  unfold virtualIds
  simp only [mem_map, mem_filter]
  constructor
  · rintro ⟨reg, ⟨hreg, hvirtual⟩, hid⟩
    exact ⟨reg, hreg, hvirtual, hid⟩
  · rintro ⟨reg, hreg, hvirtual, hid⟩
    exact ⟨reg, ⟨hreg, hvirtual⟩, hid⟩

section

variable {inst : MirInstruction}

theorem mem_visits {v : MirRegisterRef × MirOperandFlag} :
    v ∈ inst.visits ↔ ∃ i op, inst.operands[i]? = some op ∧
      v ∈ visitOperandRegisters op (inst.getOperandFlag i) := by
  unfold MirInstruction.visits
  simp only [mem_flatMap, mem_range]
  constructor
  · rintro ⟨i, hi, hv⟩
    unfold MirInstruction.visitsAt at hv
    rw [getElem?_eq_getElem hi] at hv
    exact ⟨i, inst.operands[i], getElem?_eq_getElem hi, hv⟩
  · rintro ⟨i, op, hop, hv⟩
    refine ⟨i, (List.getElem?_eq_some_iff.mp hop).1, ?_⟩
    unfold MirInstruction.visitsAt
    rw [hop]
    exact hv

theorem mem_operandIds {op : MirOperand} {flag : MirOperandFlag} :
    (∃ v ∈ visitOperandRegisters op flag, v.2.isRead = true ∧ v.1.isVirtual = true ∧
      v.1.id = r) ↔ r ∈ operandIds op ∧ (op.isRegister = true → flag.isRead = true) := by
  cases op with
  | register reg =>
    simp [visitOperandRegisters, operandIds, mem_virtualIds, MirOperand.isRegister]
    tauto
  | memory mem =>
    simp [visitOperandRegisters, operandIds, mem_virtualIds, MirOperand.isRegister,
      MirOperandFlag.isRead, or_and_right, exists_or]
  | _ => simp [visitOperandRegisters, operandIds]

theorem mem_reads (himplicit : ∀ desc, inst.targetDesc = some desc → desc.implicitUses = []) :
    r ∈ reads inst ↔ ∃ i op, inst.operands[i]? = some op ∧ r ∈ operandIds op ∧
      (op.isRegister = true → (inst.getOperandFlag i).isRead = true) := by
  have huses : (inst.targetDesc.map MirTargetInstructionDesc.implicitUses).getD [] = [] := by
    cases h : inst.targetDesc with
    | none => rfl
    | some desc => exact himplicit desc h
  unfold reads MirInstruction.getUsedRegisters
  rw [huses, append_nil, mem_virtualIds]
  simp only [mem_map, mem_filter]
  constructor
  · rintro ⟨reg, ⟨v, ⟨hv, hread⟩, rfl⟩, hvirtual, hid⟩
    obtain ⟨i, op, hop, hv⟩ := mem_visits.mp hv
    exact ⟨i, op, hop, mem_operandIds.mp ⟨v, hv, hread, hvirtual, hid⟩⟩
  · rintro ⟨i, op, hop, hids⟩
    obtain ⟨v, hv, hread, hvirtual, hid⟩ := mem_operandIds.mpr hids
    exact ⟨v.1, ⟨v, ⟨mem_visits.mpr ⟨i, op, hop, hv⟩, hread⟩, rfl⟩, hvirtual, hid⟩

theorem exists_of_mem_writes
    (himplicit : ∀ desc, inst.targetDesc = some desc → desc.implicitDefs = [])
    (h : r ∈ writes inst) :
    ∃ i reg, inst.operands[i]? = some (.register reg) ∧ reg.isVirtual = true ∧ reg.id = r ∧
      (inst.getOperandFlag i).isWrite = true := by
  have hdefs : (inst.targetDesc.map MirTargetInstructionDesc.implicitDefs).getD [] = [] := by
    cases h : inst.targetDesc with
    | none => rfl
    | some desc => exact himplicit desc h
  unfold writes MirInstruction.getDefinedRegisters at h
  rw [hdefs, append_nil, mem_virtualIds] at h
  simp only [mem_map, mem_filter] at h
  obtain ⟨reg, ⟨v, ⟨hv, hwrite⟩, rfl⟩, hvirtual, hid⟩ := h
  obtain ⟨i, op, hop, hv⟩ := mem_visits.mp hv
  cases op with
  | register reg =>
    obtain rfl := mem_singleton.mp hv
    exact ⟨i, reg, hop, hvirtual, hid, hwrite⟩
  | memory mem =>
    simp only [visitOperandRegisters, mem_append, mem_map] at hv
    rcases hv with ⟨reg, -, rfl⟩ | ⟨reg, -, rfl⟩
    · cases hwrite
    · cases hwrite
  | _ => cases hv

theorem mem_writes_of_operand {i : ℕ} {reg : MirRegisterRef}
    (hop : inst.operands[i]? = some (.register reg)) (hvirtual : reg.isVirtual = true)
    (hwrite : (inst.getOperandFlag i).isWrite = true) : reg.id ∈ writes inst := by
  unfold writes MirInstruction.getDefinedRegisters
  rw [mem_virtualIds]
  refine ⟨reg, mem_append_left _ ?_, hvirtual, rfl⟩
  simp only [mem_map, mem_filter]
  exact ⟨(reg, inst.getOperandFlag i),
    ⟨mem_visits.mpr ⟨i, _, hop, mem_singleton_self _⟩, hwrite⟩, rfl⟩

end

/-! ### PHIs and moves -/

theorem getOperandFlag_phi (dst : MirRegisterRef) (incoming : List MirOperand) {i : ℕ}
    (hi : i < incoming.length + 1) :
    (⟨.PHI, none, .register dst :: incoming⟩ : MirInstruction).getOperandFlag i =
      if i = 0 then .Write else .Read := by
  have hflag : (⟨.PHI, none, .register dst :: incoming⟩ : MirInstruction).getOperandFlag i =
      if incoming.length + 1 ≤ i then .None
      else MirInstruction.variadicFlag (getMeta .PHI).operandMeta 1 (incoming.length + 1) i := by
    unfold MirInstruction.getOperandFlag
    simp [MirInstruction.selectedDesc, MirInstruction.getMetadata, getMeta]
    rfl
  rw [hflag, if_neg (by omega)]
  unfold MirInstruction.variadicFlag
  by_cases h0 : i = 0
  · subst h0
    simp [getMeta, MirInstruction.slotFlag]
  · rw [if_neg h0]
    have hbelow : ¬ incoming.length + 1 ≤ i := by omega
    simp [getMeta, MirInstruction.slotFlag, h0, hbelow]

theorem mem_reads_phi {incoming : List MirOperand} :
    r ∈ reads ⟨.PHI, none, .register dst :: incoming⟩ ↔ ∃ op ∈ incoming, r ∈ operandIds op := by
  rw [mem_reads (fun _ hdesc => by cases hdesc)]
  constructor
  · rintro ⟨i, op, hop, hr, hread⟩
    cases i with
    | zero =>
      obtain rfl := Option.some.inj hop
      have hflag := hread rfl
      rw [getOperandFlag_phi dst incoming (by omega)] at hflag
      cases hflag
    | succ i => exact ⟨op, mem_of_getElem? hop, hr⟩
  · rintro ⟨op, hop, hr⟩
    obtain ⟨i, hi⟩ := mem_iff_getElem?.mp hop
    have hlt := (List.getElem?_eq_some_iff.mp hi).1
    refine ⟨i + 1, op, hi, hr, fun _ => ?_⟩
    rw [getOperandFlag_phi dst incoming (by omega), if_neg i.succ_ne_zero]
    rfl

theorem mem_writes_phi (hvirtual : dst.isVirtual = true) {incoming : List MirOperand} :
    r ∈ writes ⟨.PHI, none, .register dst :: incoming⟩ ↔ r = dst.id := by
  have hwrite : ((⟨.PHI, none, .register dst :: incoming⟩ : MirInstruction).getOperandFlag
      0).isWrite = true := by
    rw [getOperandFlag_phi dst incoming (by omega)]
    rfl
  constructor
  · intro h
    obtain ⟨i, reg, hop, -, hid, hwrite⟩ := exists_of_mem_writes (fun _ hdesc => by cases hdesc) h
    have hlt := (List.getElem?_eq_some_iff.mp hop).1
    rw [getOperandFlag_phi dst incoming (by simpa using hlt)] at hwrite
    cases i with
    | zero =>
      cases hop
      exact hid.symm
    | succ i => cases hwrite
  · rintro rfl
    exact mem_writes_of_operand rfl hvirtual hwrite

theorem mem_reads_movInst {src : MirRegisterRef} (hsrc : src.isVirtual = true) :
    src.id ∈ reads (movInst dst src) := by
  rw [mem_reads (fun _ hdesc => by cases hdesc)]
  refine ⟨1, .register src, rfl, ?_, fun _ => rfl⟩
  simp [operandIds, mem_virtualIds, hsrc]

theorem mem_writes_movInst {src : MirRegisterRef} (hdst : dst.isVirtual = true) :
    dst.id ∈ writes (movInst dst src) :=
  mem_writes_of_operand (i := 0) rfl hdst rfl

/-! ### Selected control transfers -/

theorem getOperandFlag_build (row : TransferInst) (operands : List MirOperand) (i : ℕ) :
    (row.build operands).getOperandFlag i = (row.operandsFlags[i]?).getD MirOperandFlag.Read := by
  unfold MirInstruction.getOperandFlag
  simp [MirInstruction.selectedDesc, TransferInst.build, TransferInst.desc]

theorem mem_reads_build : r ∈ reads (row.build operands) ↔
      ∃ (i : ℕ) (op : MirOperand), operands[i]? = some op ∧ r ∈ operandIds op ∧
      (op.isRegister = true → ((row.operandsFlags[i]?).getD MirOperandFlag.Read).isRead = true) :=
    by
  rw [mem_reads]
  · simp only [getOperandFlag_build]
    rfl
  · intro desc hdesc
    cases hdesc
    rfl

theorem writes_build (h : ∀ (i : ℕ) (reg : MirRegisterRef), operands[i]? = some (MirOperand.register
      reg) → ((row.operandsFlags[i]?).getD MirOperandFlag.Read).isWrite = true → reg.isVirtual =
      false) : writes (row.build operands) = [] := by
  rw [eq_nil_iff_forall_not_mem]
  intro r hr
  obtain ⟨i, reg, hop, hvirtual, -, hwrite⟩ := exists_of_mem_writes
    (by intro desc hdesc; cases hdesc; rfl) hr
  rw [getOperandFlag_build] at hwrite
  rw [h i reg hop hwrite] at hvirtual
  cases hvirtual

section

variable {opcode : MirInstructionOpCode}
  (hopcode : opcode = .JMP ∨ opcode = .TRY ∨ opcode = .BR_COND)
include hopcode

theorem getOperandFlag_generic (operands : List MirOperand) (i : ℕ) :
    (⟨opcode, none, operands⟩ : MirInstruction).getOperandFlag i =
      if i < operands.length ∧ i < (getMeta opcode).operandMeta.length then .Read
      else .None := by
  unfold MirInstruction.getOperandFlag
  by_cases hi : i < operands.length
  · have hi' : ¬ operands.length ≤ i := Nat.not_le.mpr hi
    rcases hopcode with rfl | rfl | rfl
    all_goals
      rcases i with _ | _ | _ | i
      all_goals
        simp [MirInstruction.selectedDesc, MirInstruction.getMetadata, getMeta,
          MirInstruction.slotFlag, findIdx?_cons, hi, hi']
  · rcases hopcode with rfl | rfl | rfl
    all_goals
      simp [MirInstruction.selectedDesc, MirInstruction.getMetadata, getMeta, hi, Nat.not_lt.mp hi]

theorem mem_reads_generic {i : ℕ} {op : MirOperand} (hop : operands[i]? = some op)
    (hi : i < (getMeta opcode).operandMeta.length) (hr : r ∈ operandIds op) :
    r ∈ reads ⟨opcode, none, operands⟩ := by
  rw [mem_reads (fun _ hdesc => by cases hdesc)]
  refine ⟨i, op, hop, hr, fun _ => ?_⟩
  rw [getOperandFlag_generic hopcode, if_pos ⟨(List.getElem?_eq_some_iff.mp hop).1, hi⟩]
  rfl

theorem writes_generic (operands : List MirOperand) : writes ⟨opcode, none, operands⟩ = [] := by
  rw [eq_nil_iff_forall_not_mem]
  intro r hr
  obtain ⟨i, reg, -, -, -, hwrite⟩ :=
    exists_of_mem_writes (fun _ hdesc => by cases hdesc) hr
  rw [getOperandFlag_generic hopcode] at hwrite
  split at hwrite
  · cases hwrite
  · cases hwrite

end

/-- What stands in the place of an instruction: the instruction itself, or target
instructions that read no more and write no virtual register. -/
structure Replaces (inst out : MirInstruction) : Prop where
  reads : ∀ r ∈ reads out, r ∈ reads inst
  writes : writes out = []

theorem isWrite_getD {flags : List MirOperandFlag}
    (h : ∀ flag ∈ flags, flag.isWrite = false) (i : ℕ) :
    ((flags[i]?).getD MirOperandFlag.Read).isWrite = false := by
  cases hflag : flags[i]? with
  | none => rfl
  | some flag => exact h flag (mem_of_getElem? hflag)

theorem replaces_build (hreads : ∀ op ∈ operands, ∀ r ∈ operandIds op, r ∈ reads inst)
    (hflags : ∀ flag ∈ row.operandsFlags, flag.isWrite = false) :
    Replaces inst (row.build operands) where
  reads r hr := by
    obtain ⟨i, op, hop, hr, -⟩ := mem_reads_build.mp hr
    exact hreads op (mem_of_getElem? hop) r hr
  writes := by
    apply writes_build
    intro i reg _ hwrite
    rw [isWrite_getD hflags] at hwrite
    cases hwrite

/-- A jump that stores its return address in a physical register. -/
theorem replaces_link (hdst : dst.isVirtual = false)
    (hreads : ∀ op ∈ operands, ∀ r ∈ operandIds op, r ∈ reads inst)
    (hflags : ∀ flag ∈ row.operandsFlags.tail, flag.isWrite = false) :
    Replaces inst (row.build (.register dst :: operands)) where
  reads r hr := by
    obtain ⟨i, op, hop, hr, -⟩ := mem_reads_build.mp hr
    rcases mem_cons.mp (mem_of_getElem? hop) with rfl | hop
    · simp [operandIds, virtualIds, hdst] at hr
    · exact hreads op hop r hr
  writes := by
    apply writes_build
    intro i reg hop hwrite
    cases i with
    | zero =>
      cases hop
      exact hdst
    | succ i =>
      rw [← getElem?_tail, isWrite_getD hflags] at hwrite
      cases hwrite

theorem replaces_selectJMP {opcode : MirInstructionOpCode} (hopcode : opcode = .JMP ∨ opcode = .TRY)
    {target : MirOperand} {rest : List MirOperand} (hout : out ∈ selectJMP ctx target) :
    Replaces ⟨opcode, none, target :: rest⟩ out := by
  have hgeneric : opcode = .JMP ∨ opcode = .TRY ∨ opcode = .BR_COND := by tauto
  have hslot : 0 < (getMeta opcode).operandMeta.length := by
    rcases hopcode with rfl | rfl
    · decide
    · decide
  have hread : ∀ r ∈ operandIds target, r ∈ reads ⟨opcode, none, target :: rest⟩ :=
    fun r hr => mem_reads_generic hgeneric (i := 0) rfl hslot hr
  unfold selectJMP at hout
  split at hout
  · obtain rfl := mem_singleton.mp hout
    exact replaces_build (by simpa using hread) (by decide)
  · split at hout
    · obtain rfl := mem_singleton.mp hout
      refine replaces_link rfl ?_ (by decide)
      simpa [operandIds] using hread
    · obtain rfl := mem_singleton.mp hout
      exact replaces_link rfl (by simpa using hread) (by decide)

theorem replaces_selectBR_COND {cond trueBlock falseBlock : MirOperand} {rest : List MirOperand}
    (hout : out ∈ selectBR_COND ctx cond trueBlock falseBlock) :
    Replaces ⟨.BR_COND, none, cond :: trueBlock :: falseBlock :: rest⟩ out := by
  have hgeneric : MirInstructionOpCode.BR_COND = .JMP ∨ MirInstructionOpCode.BR_COND = .TRY ∨
      MirInstructionOpCode.BR_COND = .BR_COND := by simp
  have hcond : ∀ r ∈ operandIds cond,
      r ∈ reads ⟨.BR_COND, none, cond :: trueBlock :: falseBlock :: rest⟩ :=
    fun r hr => mem_reads_generic hgeneric (i := 0) rfl (by decide) hr
  have htrue : ∀ r ∈ operandIds trueBlock,
      r ∈ reads ⟨.BR_COND, none, cond :: trueBlock :: falseBlock :: rest⟩ :=
    fun r hr => mem_reads_generic hgeneric (i := 1) rfl (by decide) hr
  have hfalse : ∀ r ∈ operandIds falseBlock,
      r ∈ reads ⟨.BR_COND, none, cond :: trueBlock :: falseBlock :: rest⟩ :=
    fun r hr => mem_reads_generic hgeneric (i := 2) rfl (by decide) hr
  have hzero : operandIds zeroReg = [] := rfl
  unfold selectBR_COND at hout
  split at hout
  · simp only [mem_cons, not_mem_nil, or_false] at hout
    rcases hout with rfl | rfl | rfl
    · split
      · exact replaces_build (by simpa [operandIds] using hcond) (by decide)
      · exact replaces_build (by simpa [operandIds] using hcond) (by decide)
    · exact replaces_build (by simpa using htrue) (by decide)
    · exact replaces_build (by simpa using hfalse) (by decide)
  · simp only [mem_cons, not_mem_nil, or_false] at hout
    rcases hout with rfl | rfl
    · refine replaces_build ?_ (by decide)
      simp only [forall_mem_cons, hzero]
      exact ⟨hcond, forall_mem_nil _, htrue, forall_mem_nil _⟩
    · exact replaces_link rfl (by simpa using hfalse) (by decide)

theorem getOperandFlag_call {i : ℕ} (hi : i < operands.length)
    (hfirst : i = 0 → (operands[0]?.map MirOperand.isRegister).getD false = false) :
    (⟨.CALL, none, operands⟩ : MirInstruction).getOperandFlag i = .Read := by
  have hflag : (⟨.CALL, none, operands⟩ : MirInstruction).getOperandFlag i =
      if operands.length ≤ i then .None
      else if ¬ (operands[0]?.map MirOperand.isRegister).getD false = true then .Read
      else MirInstruction.variadicFlag (getMeta .CALL).operandMeta 2 operands.length i := by
    unfold MirInstruction.getOperandFlag
    simp [MirInstruction.selectedDesc, MirInstruction.getMetadata, getMeta]
    rfl
  rw [hflag, if_neg (Nat.not_le.mpr hi)]
  by_cases hregister : (operands[0]?.map MirOperand.isRegister).getD false = true
  · have h0 : i ≠ 0 := by
      intro h0
      rw [hfirst h0] at hregister
      cases hregister
    have hlength : ¬ operands.length < 2 := by omega
    rw [if_neg (not_not.mpr hregister)]
    unfold MirInstruction.variadicFlag
    rcases i with _ | _ | i
    · exact absurd rfl h0
    · simp [getMeta, MirInstruction.slotFlag, hlength]
    · have hbelow : ¬ operands.length ≤ i + 1 + 1 := Nat.not_le.mpr hi
      have hbehind : ¬ i + 1 + 1 < 2 := by omega
      simp [getMeta, MirInstruction.slotFlag, hlength, hbelow, hbehind]
  · rw [if_pos hregister]

theorem replaces_selectCALL
    (htoken : ∀ token args, operands = .register token :: args → ctx.isBindingToken token = true)
    (hout : out ∈ selectCALL ctx ⟨.CALL, none, operands⟩) :
    out = ⟨.CALL, none, operands⟩ ∨ Replaces ⟨.CALL, none, operands⟩ out := by
  unfold selectCALL at hout
  split at hout
  · next callee _ hfind =>
      right
      obtain rfl := mem_singleton.mp hout
      refine replaces_link rfl ?_ (by decide)
      have hcallee : isCallee ctx (.register callee) = true := find?_some hfind
      obtain ⟨i, hi⟩ := mem_iff_getElem?.mp (mem_of_find?_eq_some hfind)
      have hread : ∀ r ∈ operandIds (.register callee), r ∈ reads ⟨.CALL, none, operands⟩ := by
        intro r hr
        rw [mem_reads (fun _ hdesc => by cases hdesc)]
        refine ⟨i, _, hi, hr, fun _ => ?_⟩
        rw [getOperandFlag_call (List.getElem?_eq_some_iff.mp hi).1]
        · rfl
        · rintro rfl
          cases operands with
          | nil => rfl
          | cons op args =>
            cases hi
            rw [isCallee, htoken callee args rfl] at hcallee
            cases hcallee
      simpa [operandIds] using hread
  · left
    exact mem_singleton.mp hout

theorem selectControl_spec (hgeneric : inst.targetDesc = none) (htoken : inst.opcode = .CALL → ∀
      token args, inst.operands = .register token :: args → ctx.isBindingToken token = true)
    (hout : out ∈ selectControl ctx inst) : out = inst ∨ Replaces inst out := by
  obtain ⟨opcode, desc, operands⟩ := inst
  cases hgeneric
  unfold selectControl at hout
  split at hout
  · next target rest hopcode hoperands =>
      cases hopcode
      cases hoperands
      exact .inr (replaces_selectJMP (.inl rfl) hout)
  · next target rest hopcode hoperands =>
      cases hopcode
      cases hoperands
      exact .inr (replaces_selectJMP (.inr rfl) hout)
  · next cond trueBlock falseBlock rest hopcode hoperands =>
      cases hopcode
      cases hoperands
      exact .inr (replaces_selectBR_COND hout)
  · next hopcode =>
      cases hopcode
      exact replaces_selectCALL (htoken rfl) hout
  · exact .inl (mem_singleton.mp hout)

/-- What writes a register other than the token of a call stays. -/
theorem mem_selectControl_of_writes (hgeneric : inst.targetDesc = none)
    (hcall : inst.opcode ≠ .CALL) (hr : r ∈ writes inst) : inst ∈ selectControl ctx inst := by
  obtain ⟨opcode, desc, operands⟩ := inst
  cases hgeneric
  have hnot : ¬ (opcode = .JMP ∨ opcode = .TRY ∨ opcode = .BR_COND) := by
    intro hopcode
    rw [writes_generic hopcode] at hr
    cases hr
  simp only [not_or] at hnot
  unfold selectControl
  split
  · next hopcode _ => exact absurd hopcode hnot.1
  · next hopcode _ => exact absurd hopcode hnot.2.1
  · next hopcode _ => exact absurd hopcode hnot.2.2
  · next hopcode => exact absurd hopcode hcall
  · exact mem_singleton_self _

end EzPacker.PhiElimination
