import EzPacker.CodeFlow.ControlTransfer

/-!
# Exactness of the control-flow graph

The flags tell the scan where control goes, with three exceptions. The conditional
branches of RISC-V compare registers, so they do not read the flags register and the scan
ends at them; so it does at a jump that links, which is a call. And x86-64 has two
instructions that never come back and have no flag that says so. The graph is exact when
behind such an instruction there is nothing that the scan misses or invents.
-/

namespace EzPacker.CodeFlow

open List Mir RegAlloc

namespace TargetArch

/-- The conditional branches that read no flags register. -/
def compareBranches : TargetArch → List TransferInst
  | x86_64 => []
  | riscv64 => [riscv64TargetInst.BEQ, riscv64TargetInst.BNE, riscv64TargetInst.BLT,
      riscv64TargetInst.BGE, riscv64TargetInst.BLTU, riscv64TargetInst.BGEU]

/-- The instructions that never come back and have no flag that says so. -/
def unmarkedExits : TargetArch → List TransferInst
  | x86_64 => [x86_64TargetInst.SYSRET, x86_64TargetInst.UD2]
  | riscv64 => []

end TargetArch

section

variable (arch : TargetArch)

/-- The scan ends at the instruction, but control may reach the next one. -/
def isTakenForJump (inst : MirInstruction) : Bool :=
  isOneOf arch.compareBranches inst || isOneOf arch.linkingJumps inst && !dropsLink inst

/-- The scan goes on behind the instruction, but control does not. -/
def isUnmarkedExit (inst : MirInstruction) : Bool := isOneOf arch.unmarkedExits inst

/-- The scan of the instructions finds where control goes from them, when the blocks
`seen` are already successors: a pointer points to known successors only, control leaves
the code behind a branch that is taken for a jump to known successors only, and the
branches behind an unmarked exit name known successors only. -/
def Told (isBlock : ℕ → Bool) (labels : List ℕ) (next : Option ℕ) :
    List ℕ → List MirInstruction → Prop
  | _, [] => True
  | seen, inst :: rest =>
    (jumpsThroughPointer arch inst = true → ∀ s ∈ labels, s ∈ seen ++ namedTargets arch inst) ∧
      if isTakenForJump arch inst then
        ∀ s, Goes arch labels next rest s → s ∈ seen ++ namedTargets arch inst
      else if isUnmarkedExit arch inst then
        ∀ s ∈ scanned isBlock next rest, s ∈ seen ++ namedTargets arch inst
      else
        (control arch inst).falls = true →
          Told isBlock labels next (seen ++ namedTargets arch inst) rest

end

/-! ### What the flags say -/

/-- What the flags of an instruction say about its control. -/
structure FlagsSay (branch ends takenForJump unmarkedExit : Bool) (control : Control) :
    Prop where
  targets : branch = false → control.targets = []
  takenForJump_iff : takenForJump = true ↔ ends = true ∧ control.falls = true
  unmarkedExit_iff : unmarkedExit = true ↔ ends = false ∧ control.falls = false
  exit_targets : unmarkedExit = true → control.targets = []

instance (branch ends takenForJump unmarkedExit : Bool) (control : Control) :
    Decidable (FlagsSay branch ends takenForJump unmarkedExit control) :=
  decidable_of_iff ((branch = false → control.targets = []) ∧
      (takenForJump = true ↔ ends = true ∧ control.falls = true) ∧
      (unmarkedExit = true ↔ ends = false ∧ control.falls = false) ∧
      (unmarkedExit = true → control.targets = []))
    ⟨fun ⟨h₁, h₂, h₃, h₄⟩ => ⟨h₁, h₂, h₃, h₄⟩, fun ⟨h₁, h₂, h₃, h₄⟩ => ⟨h₁, h₂, h₃, h₄⟩⟩

def flagsBranch (flags : List MirInstructionFlag) : Bool := .IsBranch ∈ flags

def flagsEndScan (flags : List MirInstructionFlag) : Bool :=
  if .IsBranch ∈ flags then .ReadsCPUFlags ∉ flags
  else .IsReturn ∈ flags ∨ .IsTerminator ∈ flags

theorem endsScan_eq (inst : MirInstruction) :
    endsScan inst = flagsEndScan (instFlags inst) := by
  unfold endsScan flagsEndScan isBranch
  by_cases h : MirInstructionFlag.IsBranch ∈ instFlags inst
  · simp [h]
  · simp [h]

theorem flagsSay_opcode (opcode : MirInstructionOpCode) :
    FlagsSay (flagsBranch (getMeta opcode).flags) (flagsEndScan (getMeta opcode).flags)
      false false (opcodeControl opcode) := by
  cases opcode <;> decide

theorem flagsSay_row (arch : TargetArch) (dropsLink : Bool) : ∀ row ∈ arch.transfers,
      FlagsSay (flagsBranch ((getMeta .TARGET_INST).flags ++ row.targetFlags))
        (flagsEndScan ((getMeta .TARGET_INST).flags ++ row.targetFlags))
        (arch.compareBranches.any (·.id = row.id) ||
          arch.linkingJumps.any (·.id = row.id) && !dropsLink)
        (arch.unmarkedExits.any (·.id = row.id)) (row.transfer.control dropsLink) := by
  cases arch <;> cases dropsLink <;> decide

theorem find?_transfers (arch : TargetArch) :
    ∀ row ∈ arch.transfers, arch.transfers.find? (·.id = row.id) = some row := by
  cases arch <;> decide

/-- The three kinds are rows of the table. -/
theorem kinds_subset (arch : TargetArch) :
    ∀ row ∈ arch.compareBranches ++ arch.linkingJumps ++ arch.unmarkedExits,
      row ∈ arch.transfers := by
  cases arch <;> decide

theorem flagsSay {arch : TargetArch} {inst : MirInstruction} (h : IsShaped arch inst) :
    FlagsSay (isBranch inst) (endsScan inst) (isTakenForJump arch inst)
      (isUnmarkedExit arch inst) (control arch inst) := by
  rw [endsScan_eq, show isBranch inst = flagsBranch (instFlags inst) from rfl]
  unfold isTakenForJump isUnmarkedExit isOneOf instFlags targetFlags
    MirInstruction.getMetadata control
  rcases h.described with ⟨hdesc, -⟩ | ⟨desc, hdesc, hopcode, hrow | ⟨hother, hflags⟩⟩
  · rw [hdesc]
    simpa using flagsSay_opcode inst.opcode
  · obtain ⟨row, hmem, hid, -, hflags⟩ := hrow
    rw [hdesc, hopcode]
    dsimp only [Option.map_some, Option.getD_some]
    rw [← hid, ← hflags, find?_transfers arch row hmem]
    exact flagsSay_row arch (dropsLink inst) row hmem
  · have hfind : arch.transfers.find? (·.id = desc.id) = none := by
      simpa using hother
    have hnone : ∀ rows : List TransferInst, (∀ row ∈ rows, row ∈ arch.transfers) →
        rows.any (·.id = desc.id) = false := by
      intro rows hrows
      simpa using fun row hrow => hother row (hrows row hrow)
    have hkinds := kinds_subset arch
    simp only [mem_append] at hkinds
    rw [hdesc, hopcode]
    dsimp only [Option.map_some, Option.getD_some]
    rw [hfind, hnone _ fun row hr => hkinds row (.inl (.inl hr)),
      hnone _ fun row hr => hkinds row (.inl (.inr hr)),
      hnone _ fun row hr => hkinds row (.inr hr)]
    have hbranch : MirInstructionFlag.IsBranch ∉ desc.targetFlags :=
      fun hf => (hflags _ hf).1 rfl
    have hreturn : MirInstructionFlag.IsReturn ∉ desc.targetFlags :=
      fun hf => (hflags _ hf).2.1 rfl
    have hterminator : MirInstructionFlag.IsTerminator ∉ desc.targetFlags :=
      fun hf => (hflags _ hf).2.2 rfl
    have hends : flagsEndScan ((getMeta .TARGET_INST).flags ++ desc.targetFlags) = false := by
      simp [flagsEndScan, getMeta, hbranch, hreturn, hterminator]
    rw [hends]
    exact ⟨fun _ => rfl, by simp, by simp [Control.next], fun _ => rfl⟩

/-! ### The scan of a block -/

section

variable {arch : TargetArch} {inst : MirInstruction}

variable {s : ℕ}

theorem mem_namedTargets : s ∈ namedTargets arch inst ↔
      ∃ i ∈ (control arch inst).targets, ∃ op, inst.operands[i]? = some op ∧
        blockOf op = some s := by
  unfold namedTargets targetOperands
  simp only [mem_filterMap]
  constructor
  · rintro ⟨op, ⟨i, hi, hop⟩, hs⟩
    exact ⟨i, hi, op, hop, hs⟩
  · rintro ⟨i, hi, op, hop, hs⟩
    exact ⟨op, ⟨i, hi, hop⟩, hs⟩

theorem jumpsThroughPointer_eq_false (h : (control arch inst).falls = true) :
    jumpsThroughPointer arch inst = false := by
  simp [jumpsThroughPointer, h]

theorem jumpsThroughPointer_of_targets (h : (control arch inst).targets = []) :
    jumpsThroughPointer arch inst = false := by
  simp [jumpsThroughPointer, targetOperands, h]

/-- The references to blocks among the operands of an instruction are what the analysis
takes them for. -/
def KnowsBlocks (isBlock : ℕ → Bool) (inst : MirInstruction) : Prop :=
  ∀ ref, .reference ref ∈ inst.operands → (ref.refType = .Block ↔ isBlock ref.refId = true)

variable {isBlock : ℕ → Bool}

theorem mem_jumpTargets (hknows : KnowsBlocks isBlock inst) :
    s ∈ jumpTargets isBlock inst ↔ ∃ op ∈ inst.operands, blockOf op = some s := by
  unfold jumpTargets
  rw [mem_filterMap]
  constructor
  · rintro ⟨op, hop, hs⟩
    refine ⟨op, hop, ?_⟩
    cases op with
    | reference ref =>
      dsimp only at hs
      split at hs
      · next hblock =>
          rw [← hs]
          exact if_pos ((hknows ref hop).mpr hblock)
      · cases hs
    | _ => cases hs
  · rintro ⟨op, hop, hs⟩
    refine ⟨op, hop, ?_⟩
    cases op with
    | reference ref =>
      unfold blockOf at hs
      dsimp only at hs
      split at hs
      · next hblock =>
          rw [← hs]
          exact if_pos ((hknows ref hop).mp hblock)
      · cases hs
    | _ => cases hs

theorem scanned_cons (isBlock : ℕ → Bool) (next : Option ℕ) (inst : MirInstruction)
    (rest : List MirInstruction) :
    scanned isBlock next (inst :: rest) =
      (if isBranch inst = true then jumpTargets isBlock inst else []) ++
        if endsScan inst = true then [] else scanned isBlock next rest :=
  rfl

theorem mem_scanned_cons {next : Option ℕ}
    {rest : List MirInstruction} (hshaped : IsShaped arch inst)
    (hknows : KnowsBlocks isBlock inst) :
    s ∈ scanned isBlock next (inst :: rest) ↔ s ∈ namedTargets arch inst ∨
        (endsScan inst = false ∧ s ∈ scanned isBlock next rest) := by
  have hnamed : s ∈ (if isBranch inst = true then jumpTargets isBlock inst else []) ↔
      s ∈ namedTargets arch inst := by
    rw [mem_namedTargets]
    split
    · next hbranch =>
        rw [mem_jumpTargets hknows]
        constructor
        · rintro ⟨op, hop, hs⟩
          obtain ⟨i, hi⟩ := mem_iff_getElem?.mp hop
          exact ⟨i, hshaped.named hbranch i op hi (by rw [hs]; rfl), op, hi, hs⟩
        · rintro ⟨i, -, op, hop, hs⟩
          exact ⟨op, mem_of_getElem? hop, hs⟩
    · next hbranch =>
        rw [(flagsSay hshaped).targets (by simpa using hbranch)]
        simp
  rw [scanned_cons, mem_append, hnamed]
  cases endsScan inst with
  | false | true => simp

/-- The scan finds where control goes exactly when the flags tell it. -/
theorem told_iff {labels : List ℕ} {next : Option ℕ} {insts : List MirInstruction} {seen : List ℕ}
    (hshaped : ∀ inst ∈ insts, IsShaped arch inst)
    (hknows : ∀ inst ∈ insts, KnowsBlocks isBlock inst) :
    Told arch isBlock labels next seen insts ↔ ∀ s, (s ∈ seen ∨ s ∈ scanned isBlock next insts) ↔
        (s ∈ seen ∨ Goes arch labels next insts s) := by
  induction insts generalizing seen with
  | nil => simp [Told, scanned, goes_nil]
  | cons inst rest ih =>
    have hflags := flagsSay (hshaped inst mem_cons_self)
    have ih := @ih (seen ++ namedTargets arch inst)
      (fun i hi => hshaped i (mem_cons_of_mem inst hi))
      (fun i hi => hknows i (mem_cons_of_mem inst hi))
    have hcons : ∀ s, s ∈ scanned isBlock next (inst :: rest) ↔ _ := fun _ =>
      mem_scanned_cons (hshaped inst mem_cons_self) (hknows inst mem_cons_self)
    simp only [hcons, goes_cons, ← or_assoc, ← mem_append]
    unfold Told
    by_cases htaken : isTakenForJump arch inst = true
    · obtain ⟨hends, hfalls⟩ := hflags.takenForJump_iff.mp htaken
      rw [if_pos htaken, jumpsThroughPointer_eq_false hfalls, hends, hfalls]
      simp
    · rw [if_neg htaken]
      by_cases hexit : isUnmarkedExit arch inst = true
      · obtain ⟨hends, hfalls⟩ := hflags.unmarkedExit_iff.mp hexit
        rw [if_pos hexit, jumpsThroughPointer_of_targets (hflags.exit_targets hexit), hends, hfalls]
        simp
      · rw [if_neg hexit]
        cases hfalls : (control arch inst).falls with
        | true =>
          have hends : endsScan inst = false := by
            cases hends : endsScan inst with
            | false => rfl
            | true => exact absurd (hflags.takenForJump_iff.mpr ⟨hends, hfalls⟩) htaken
          rw [jumpsThroughPointer_eq_false hfalls, hends]
          simpa using ih
        | false =>
          have hends : endsScan inst = true := by
            cases hends : endsScan inst with
            | true => rfl
            | false => exact absurd (hflags.unmarkedExit_iff.mpr ⟨hends, hfalls⟩) hexit
          rw [hends]
          constructor
          · rintro ⟨hlabels, -⟩ s
            have hs := fun hjump => hlabels hjump s
            tauto
          · intro h
            refine ⟨fun hjump s hs => ?_, nofun⟩
            have hs' := h s
            tauto

end

/-! ### The graph of a module -/

namespace MirModule

variable {arch : TargetArch} (m : MirModule arch)

/-- The successors of a block are the blocks that control can go to from it, the
predecessors are the converse of the successors, and all lists are sorted without
repetition. -/
structure IsExact (r : CodeFlowResult) : Prop where
  successors : ∀ f ∈ m.functions, ∀ before b rest, f.blocks = before ++ b :: rest →
    ∀ s, s ∈ r.getSuccessors b.id ↔
      Goes arch (m.labels f) (rest.head?.map MirBlock.id) b.instructions s
  converse : ∀ a b, b ∈ r.getSuccessors a ↔ a ∈ r.getPredecessors b
  sorted : ∀ a, (r.getSuccessors a).Pairwise (· < ·) ∧ (r.getPredecessors a).Pairwise (· < ·)

/-- The flags tell the scan where control goes from every block. -/
def IsTold : Prop :=
  ∀ f ∈ m.functions, ∀ before b rest, f.blocks = before ++ b :: rest →
    Told arch m.isBlock (m.labels f) (rest.head?.map MirBlock.id) [] b.instructions

variable {m}

theorem told_block_iff {f : MirFunction} (hf : f ∈ m.functions) {before rest : List MirBlock}
    {b : MirBlock} (hsplit : f.blocks = before ++ b :: rest) :
    Told arch m.isBlock (m.labels f) (rest.head?.map MirBlock.id) [] b.instructions ↔
      ∀ s, s ∈ m.runCodeFlow.getSuccessors b.id ↔
        Goes arch (m.labels f) (rest.head?.map MirBlock.id) b.instructions s := by
  have hb : b ∈ f.blocks := by
    rw [hsplit]
    simp
  have hknows : ∀ inst ∈ b.instructions, KnowsBlocks m.isBlock inst := by
    intro inst hinst ref href
    rw [m.refersToBlock f hf b hb inst hinst ref href, isBlock, decide_eq_true_eq]
    rfl
  rw [told_iff (m.shaped f hf b hb) hknows]
  simp only [not_mem_nil, false_or]
  exact forall_congr' fun s => by rw [mem_getSuccessors hf hsplit]

/-- The control-flow graph is exact exactly when the flags tell where control goes. -/
theorem runCodeFlow_isExact_iff (m : MirModule arch) : m.IsExact m.runCodeFlow ↔ m.IsTold := by
  constructor
  · intro h f hf before b rest hsplit
    exact (told_block_iff hf hsplit).mpr (h.successors f hf before b rest hsplit)
  · intro h
    have hkept : m.runCodeFlow.toAdjacency.WellKept := wellKept_runCodeFlow
    exact {
      successors := fun f hf before b rest hsplit =>
        (told_block_iff hf hsplit).mp (h f hf before b rest hsplit)
      converse := hkept.converse
      sorted := fun a => ⟨hkept.successors_sorted a, hkept.predecessors_sorted a⟩ }

end MirModule

/-! ### The false edge of a conditional branch -/

section

def buildRef (block : ℕ) : MirOperand := .reference ⟨.Block, block, 0⟩

/-- `BR_COND %10, 2, 3` as it is selected for RISC-V. -/
def brCond : List MirInstruction :=
  selectControl ⟨.riscv64, fun _ => true, fun _ => false⟩
    ⟨.BR_COND, none, [.register ⟨true, some GPR64, 10⟩, buildRef 2, buildRef 3]⟩

/-- A function that returns from either side of a branch. -/
def selectedBranch : MirFunction where
  blocks :=
    [⟨1, brCond⟩, ⟨2, [riscv64TargetInst.RET.build []]⟩, ⟨3, [riscv64TargetInst.RET.build []]⟩]

theorem isShaped_build {row : TransferInst} (hrow : row ∈ TargetArch.riscv64.transfers)
    {operands : List MirOperand}
    (hnamed : ∀ i < operands.length, (operands[i]?.bind blockOf).isSome = true →
      i ∈ (control .riscv64 (row.build operands)).targets) :
    IsShaped .riscv64 (row.build operands) where
  described := .inr ⟨row.desc, rfl, rfl, .inl ⟨row, hrow, rfl, rfl, rfl⟩⟩
  named := by
    intro _ i op hop hblock
    change operands[i]? = some op at hop
    refine hnamed i (List.getElem?_eq_some_iff.mp hop).1 ?_
    rw [hop]
    exact hblock

/-- The module of this function. -/
def branchModule : MirModule .riscv64 where
  functions := [selectedBranch]
  dataLabels := []
  nodup := by decide
  shaped := by
    have hBNE := @isShaped_build riscv64TargetInst.BNE (by decide)
      [.register ⟨true, some GPR64, 10⟩, .register ⟨false, some GPR64, 0⟩, buildRef 2]
      (by decide)
    have hJAL := @isShaped_build riscv64TargetInst.JAL (by decide)
      [.register ⟨false, some GPR64, 0⟩, buildRef 3] (by decide)
    have hRET := @isShaped_build riscv64TargetInst.RET (by decide) [] (by decide)
    simp [selectedBranch, brCond, selectControl, selectBR_COND, zeroReg, hBNE, hJAL, hRET]
  refersToBlock := by
    simp [selectedBranch, brCond, selectControl, selectBR_COND, zeroReg, TransferInst.build,
      buildRef]

/-- The jump to the false block is missed. -/
theorem falseBlock_missed : ¬ branchModule.IsExact branchModule.runCodeFlow := by
  intro h
  have hgoes : Goes .riscv64 (branchModule.labels selectedBranch) (some 2) brCond 3 :=
    .behind (by decide) (.named (by decide))
  have hmem := (h.successors selectedBranch (mem_singleton_self _) [] _ _ rfl 3).mpr hgoes
  revert hmem
  decide

end

end EzPacker.CodeFlow
