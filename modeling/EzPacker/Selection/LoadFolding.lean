import EzPacker.Mir.DefUseBookkeeping
import EzPacker.Peephole.MachineState

/-!
# Loads folded into their use

The selector takes the load that defines the last operand of an addition into the memory operand
of `ADD64rm` and erases it, when the load has one use and no instruction between the two writes
memory, has a side effect or is a call. The registers of the address are not looked at. The value
is kept when they, and the register that the load defines, are not defined in between.
-/

namespace EzPacker.Selection

open List Function Mir Peephole

/-! ## The selector -/

/-- The selector in a function: the register info of the other functions, and the names of the
types of operands. -/
structure SelectorContext (n : ℕ) where
  func : BuilderState n
  placed : func.Placed
  others : List MirFunctionRegisterInfo
  typeName : ℕ → ℕ → Option String
  /-- A load has a register and an address. -/
  loads : ∀ inst, (func.instrs inst).opcode = .LOAD → (func.instrs inst).targetDesc = none ∧
    ∃ dst addr, (func.instrs inst).operands = [.register dst, addr]

section

variable {n : ℕ}

def hasOneUse (c : SelectorContext n) (reg : MirRegisterRef) : Bool :=
  reg.isVirtual && c.func.regInfo.hasOneUse reg.id

/-- The definition in this function, or the first one in another function. -/
def getDefiningInstruction (c : SelectorContext n) (reg : MirRegisterRef) : Option ℕ :=
  if reg.isVirtual then
    (c.func.regInfo.getDef reg.id).or (c.others.findSome? fun info => info.getDef reg.id)
  else none

/-- The flags of the target descriptor once an instruction is selected. -/
def currentFlags (inst : MirInstruction) : List MirInstructionFlag :=
  match inst.selectedDesc with
  | some desc => desc.targetFlags
  | none => inst.getMetadata.flags

def stopsFolding (inst : MirInstruction) : Bool :=
  let flags := currentFlags inst
  .WritesMemory ∈ flags || .HasSideEffect ∈ flags || .IsCall ∈ flags

/-- What stands behind an instruction of a block. -/
def behind (inst : ℕ) : List ℕ → List ℕ
  | [] => []
  | cur :: rest => if cur = inst then rest else behind inst rest

/-- The walk comes to an instruction and nothing stops it before. -/
def reaches (s : BuilderState n) (last : ℕ) : List ℕ → Bool
  | [] => false
  | cur :: rest => cur = last || (!stopsFolding (s.instrs cur) && reaches s last rest)

def noInterveningStore (s : BuilderState n) (first last : ℕ) : Bool :=
  match s.owner first with
  | none => false
  | some block => s.owner last = some block && reaches s last (behind first (s.blocks block))

/-- The load that is folded into its use, the register between them, and the memory operand. -/
structure FoldedLoad where
  load : ℕ
  vreg : MirRegisterRef
  memTarget : MirOperand
  deriving DecidableEq, Repr

/-- An address in a register becomes a memory operand. -/
def memTargetOf : MirOperand → MirOperand
  | .register reg => .memory ⟨some reg, some 0, none, 1⟩
  | op => op

/-- The pattern `ADD i64:$dst, i64:$src1, (LOAD i64:$tmp, [$base, $disp])`. -/
def foldedLoad (c : SelectorContext n) (use : ℕ) : Option FoldedLoad :=
  let inst := c.func.instrs use
  match inst.operands with
  | .register _ :: .register _ :: .register vreg :: _ =>
    if inst.opcode = .ADD ∧ c.typeName use 0 = some "i64" ∧ c.typeName use 1 = some "i64" then
      (getDefiningInstruction c vreg).bind fun defInst =>
        if (c.func.instrs defInst).opcode = .LOAD ∧ hasOneUse c vreg ∧
            noInterveningStore c.func defInst use ∧ c.typeName defInst 0 = some "i64" then
          ((c.func.instrs defInst).operands[1]?).map fun addr =>
            ⟨defInst, vreg, memTargetOf addr⟩
        else none
    else none
  | _ => none

/-- The block after the fold: `ADD64rm` in the place of the addition, and no load. -/
def selectADD64rm (s : BuilderState n) (desc : MirTargetInstructionDesc) (use : ℕ)
    (fold : FoldedLoad) : BuilderState n :=
  let operands := (s.instrs use).operands.take 2 ++ [fold.memTarget]
  let s := s.buildImpl ⟨s.owner use, .InsertBefore, some use⟩ .TARGET_INST (some desc) operands
  (s.eraseFromOwner fold.load).eraseFromOwner use

/-- What stands between two instructions of one block. -/
def between (s : BuilderState n) (first last : ℕ) : List ℕ :=
  match s.owner first with
  | none => []
  | some block => (behind first (s.blocks block)).takeWhile (· ≠ last)

/-- The instructions there. -/
def codeBetween (s : BuilderState n) (first last : ℕ) : List MirInstruction :=
  (between s first last).map s.instrs

end

/-! ## Effects -/

/-- The generic instructions that write memory. -/
def genericWrites (opcode : MirInstructionOpCode) : Bool :=
  opcode ∈ [.STORE, .VSTORE, .PUSH, .PUSH_ARG, .PUSH_RET, .PUSH_REGS, .CALL, .SYSCALL, .TRY,
    .CATCH, .THROW]

/-- An instruction writes memory; which target instructions do is up to the target. -/
def writesMemory (targetWrites : ℕ → Bool) (inst : MirInstruction) : Bool :=
  match inst.selectedDesc with
  | some desc => targetWrites desc.id
  | none => genericWrites inst.opcode

variable {inst : MirInstruction}

/-- The opcode table declares every generic instruction that writes memory. -/
theorem stopsFolding_of_generic (hnone : inst.selectedDesc = none)
    (h : genericWrites inst.opcode = true) : stopsFolding inst = true := by
  unfold stopsFolding currentFlags MirInstruction.getMetadata
  rw [hnone]
  cases hop : inst.opcode <;> rw [hop] at h <;> first | rfl | cases h

def Defines (inst : MirInstruction) (r : HwRegister) : Prop :=
  ∃ d ∈ inst.getDefinedRegisters, hw d = r

instance (inst : MirInstruction) (r : HwRegister) : Decidable (Defines inst r) :=
  inferInstanceAs (Decidable (∃ d ∈ inst.getDefinedRegisters, _))

/-- What an instruction sees: the registers it reads, implicit ones only if they are physical, and
what was in those it defines. -/
def Sees (inst : MirInstruction) (r : HwRegister) : Prop :=
  (∃ v ∈ inst.visits, v.2.isRead = true ∧ hw v.1 = r) ∨
    (r.isVirtual = false ∧ ∃ d ∈ inst.getUsedRegisters, hw d = r) ∨ Defines inst r

instance (inst : MirInstruction) (r : HwRegister) : Decidable (Sees inst r) :=
  inferInstanceAs (Decidable (_ ∨ _ ∨ _))

/-- The registers that an instruction sees, the others are blank. -/
def seen (inst : MirInstruction) (regs : HwRegister → Bytes) (r : HwRegister) : Bytes :=
  if Sees inst r then regs r else fun _ => 0

/-- What the instructions of a block do: the values of the registers that they define, the memory
that those leave which write it, and the addresses of symbols. -/
structure Effects where
  value : MirInstruction → (HwRegister → Bytes) → (ℤ → UInt8) → HwRegister → Bytes
  memory : MirInstruction → (HwRegister → Bytes) → (ℤ → UInt8) → ℤ → UInt8
  symbols : MirReferenceType → ℕ → ℤ

def exec (targetWrites : ℕ → Bool) (e : Effects) (s : MachineState) (inst : MirInstruction) :
    MachineState where
  regs r := if Defines inst r then e.value inst (seen inst s.regs) s.mem r else s.regs r
  mem := if writesMemory targetWrites inst then e.memory inst (seen inst s.regs) s.mem else s.mem

def runCode (targetWrites : ℕ → Bool) (e : Effects) (code : List MirInstruction)
    (s : MachineState) : MachineState :=
  code.foldl (exec targetWrites e) s

/-- The eight bytes at the address of an operand. -/
def loaded (e : Effects) (op : MirOperand) (s : MachineState) : Bytes := fun k =>
  if k < 8 then s.mem (address e.symbols op s + k) else 0

def execLoad (e : Effects) (inst : MirInstruction) (op : MirOperand) (s : MachineState) :
    MachineState :=
  { s with regs := fun r => if Defines inst r then loaded e op s else s.regs r }

/-- States that differ in one register at most. -/
structure AgreeBut (r : HwRegister) (s t : MachineState) : Prop where
  regs : ∀ r', r' ≠ r → s.regs r' = t.regs r'
  mem : s.mem = t.mem

section

variable {targetWrites : ℕ → Bool} {e : Effects} {code : List MirInstruction} {r : HwRegister}
  {s t : MachineState}

theorem regs_runCode (h : ∀ inst ∈ code, ¬Defines inst r) :
    (runCode targetWrites e code s).regs r = s.regs r := by
  induction code generalizing s with
  | nil => rfl
  | cons inst code ih =>
    have hexec : (exec targetWrites e s inst).regs r = s.regs r :=
      if_neg (h inst (mem_cons_self ..))
    exact (ih fun i hi => h i (mem_cons_of_mem _ hi)).trans hexec

theorem mem_runCode (h : ∀ inst ∈ code, writesMemory targetWrites inst = false) :
    (runCode targetWrites e code s).mem = s.mem := by
  induction code generalizing s with
  | nil => rfl
  | cons inst code ih =>
    have hexec : (exec targetWrites e s inst).mem = s.mem := by
      unfold exec
      rw [h inst (mem_cons_self ..)]
      rfl
    exact (ih fun i hi => h i (mem_cons_of_mem _ hi)).trans hexec

/-- A register that every definition leaves at one value has it behind the first. -/
theorem regs_runCode_const {value : Bytes} (hvalue : ∀ inst regs mem r, e.value inst regs mem r =
    value) (h : ∃ inst ∈ code, Defines inst r) :
    (runCode targetWrites e code s).regs r = value := by
  induction code generalizing s with
  | nil =>
    obtain ⟨inst, hmem, -⟩ := h
    cases hmem
  | cons inst code ih =>
    by_cases hcode : ∃ inst ∈ code, Defines inst r
    · exact ih hcode
    · obtain ⟨inst', hmem, hdef⟩ := h
      have hinst : Defines inst r := by
        rcases mem_cons.mp hmem with rfl | hmem
        · exact hdef
        · exact absurd ⟨inst', hmem, hdef⟩ hcode
      have hexec : (exec targetWrites e s inst).regs r = value :=
        (if_pos hinst).trans (hvalue _ _ _ _)
      exact (regs_runCode fun i hi hd => hcode ⟨i, hi, hd⟩).trans hexec

theorem AgreeBut.exec (h : AgreeBut r s t) (hsees : ¬Sees inst r) :
    AgreeBut r (exec targetWrites e s inst) (exec targetWrites e t inst) := by
  have hseen : seen inst s.regs = seen inst t.regs := by
    funext r'
    unfold seen
    split_ifs with hr'
    · refine h.regs r' ?_
      rintro rfl
      exact hsees hr'
    · rfl
  refine ⟨fun r' hne => ?_, ?_⟩
  · unfold Selection.exec
    dsimp only
    rw [hseen, h.mem, h.regs r' hne]
  · unfold Selection.exec
    dsimp only
    rw [hseen, h.mem]

theorem AgreeBut.runCode (h : AgreeBut r s t) (hsees : ∀ inst ∈ code, ¬Sees inst r) :
    AgreeBut r (runCode targetWrites e code s) (runCode targetWrites e code t) := by
  induction code generalizing s t with
  | nil => exact h
  | cons inst code ih =>
    exact ih (h.exec (hsees inst (mem_cons_self ..)))
      fun i hi => hsees i (mem_cons_of_mem _ hi)

end

/-! ## Sound folds -/

section

variable {n : ℕ}

/-- The value that the use reads from memory is the one that the load read, and nothing else
depends on the load. -/
structure FoldedSoundly (targetWrites : ℕ → Bool) (c : SelectorContext n) (use : ℕ)
    (fold : FoldedLoad) : Prop where
  sameBlock : ∃ block, c.func.owner fold.load = some block ∧ c.func.owner use = some block
  noWriter : ∀ inst ∈ codeBetween c.func fold.load use, writesMemory targetWrites inst = false
  noRedefinition : ∀ inst ∈ codeBetween c.func fold.load use,
    ∀ reg ∈ collectMemoryRegisters fold.memTarget, ¬Defines inst (hw reg)
  oneUse : c.func.reads fold.vreg.id = [(use, 2)]
  sameValue : ∀ e s,
    let code := codeBetween c.func fold.load use
    let original := runCode targetWrites e code
      (execLoad e (c.func.instrs fold.load) fold.memTarget s)
    let folded := runCode targetWrites e code s
    original.regs (hw fold.vreg) = loaded e fold.memTarget s ∧
      loaded e fold.memTarget folded = loaded e fold.memTarget s ∧
      AgreeBut (hw fold.vreg) original folded

/-- Every load that is folded is folded soundly. -/
def LoadFoldingSound (targetWrites : ℕ → Bool) (c : SelectorContext n) (use : ℕ) : Prop :=
  ∀ fold, foldedLoad c use = some fold → FoldedSoundly targetWrites c use fold

/-- The recorded definition and use are those of the register, nothing in between defines it or a
register of the address, and the target declares what writes memory there. -/
structure FoldsSafely (targetWrites : ℕ → Bool) (c : SelectorContext n) (use : ℕ)
    (fold : FoldedLoad) : Prop where
  defines : Defines (c.func.instrs fold.load) (hw fold.vreg)
  reads : c.func.reads fold.vreg.id = [(use, 2)]
  keeps : ∀ inst ∈ codeBetween c.func fold.load use,
    ∀ reg ∈ fold.vreg :: collectMemoryRegisters fold.memTarget, ¬Defines inst (hw reg)
  declared : ∀ inst ∈ codeBetween c.func fold.load use, ∀ desc, inst.selectedDesc = some desc →
    targetWrites desc.id = true → stopsFolding inst = true

/-! ## What the selector has checked -/

theorem foldedLoad_spec {c : SelectorContext n} {use : ℕ} {fold : FoldedLoad}
    (h : foldedLoad c use = some fold) :
    fold.vreg.isVirtual = true ∧ (c.func.instrs fold.load).opcode = .LOAD ∧
      noInterveningStore c.func fold.load use = true ∧
      ∃ addr, (c.func.instrs fold.load).operands[1]? = some addr ∧
        fold.memTarget = memTargetOf addr := by
  unfold foldedLoad at h
  dsimp only at h
  split at h
  · split_ifs at h
    obtain ⟨defInst, hdef, hfold⟩ := Option.bind_eq_some_iff.mp h
    split_ifs at hfold with hchecks
    obtain ⟨addr, haddr, rfl⟩ := Option.map_eq_some_iff.mp hfold
    refine ⟨?_, hchecks.1, hchecks.2.2.1, addr, haddr, rfl⟩
    unfold getDefiningInstruction at hdef
    split_ifs at hdef with hvirtual
    exact hvirtual
  · cases h

variable {i : ℕ} {s : BuilderState n} {block : Fin n}

theorem mem_of_mem_behind {inst : ℕ} {block : List ℕ} (h : i ∈ behind inst block) : i ∈ block := by
  induction block with
  | nil => cases h
  | cons cur rest ih =>
    unfold behind at h
    split_ifs at h
    · exact mem_cons_of_mem _ h
    · exact mem_cons_of_mem _ (ih h)

/-- What is passed by the walk stops nothing. -/
theorem stopsFolding_of_reaches {last : ℕ} {rest : List ℕ} (h : reaches s last rest = true)
    (hi : i ∈ rest.takeWhile (· ≠ last)) : stopsFolding (s.instrs i) = false ∧ i ≠ last := by
  induction rest with
  | nil => cases hi
  | cons cur rest ih =>
    by_cases hcur : cur = last
    · rw [takeWhile_cons_of_neg (by simpa using hcur)] at hi
      cases hi
    · rw [takeWhile_cons_of_pos (by simpa using hcur)] at hi
      unfold reaches at h
      rw [decide_eq_false hcur, Bool.false_or, Bool.and_eq_true, Bool.not_eq_true'] at h
      rcases mem_cons.mp hi with rfl | hi
      · exact ⟨h.1, hcur⟩
      · exact ih h.2 hi

theorem noInterveningStore_spec {first last : ℕ} (h : noInterveningStore s first last = true) :
    ∃ block, s.owner first = some block ∧ s.owner last = some block ∧ ∀ i ∈ between s first last,
        stopsFolding (s.instrs i) = false ∧ i ≠ last ∧ i ∈ s.blocks block := by
  unfold noInterveningStore at h
  unfold between
  cases howner : s.owner first with
  | none =>
    rw [howner] at h
    cases h
  | some block =>
    rw [howner] at h
    obtain ⟨hlast, hreaches⟩ := Bool.and_eq_true_iff.mp h
    refine ⟨block, rfl, of_decide_eq_true hlast, fun i hi => ?_⟩
    obtain ⟨hstops, hne⟩ := stopsFolding_of_reaches hreaches hi
    exact ⟨hstops, hne, mem_of_mem_behind ((List.takeWhile_prefix _).subset hi)⟩

/-- A load defines the register of its first operand and reads its address. -/
theorem load_registers {dst : MirRegisterRef} {addr : MirOperand}
    (h : inst = ⟨.LOAD, none, [.register dst, addr]⟩) : inst.getDefinedRegisters = [dst] := by
  subst h
  cases addr with
  | memory mem =>
    obtain ⟨base, displ, index, scale⟩ := mem
    cases base <;> cases index <;> rfl
  | _ => rfl

theorem defines_load_iff (c : SelectorContext n) {load : ℕ}
    (hload : (c.func.instrs load).opcode = .LOAD) :
    ∃ dst : MirRegisterRef, ∀ r, Defines (c.func.instrs load) r ↔ hw dst = r := by
  obtain ⟨hdesc, dst, addr, hoperands⟩ := c.loads load hload
  have hinst : c.func.instrs load = ⟨.LOAD, none, [.register dst, addr]⟩ := by
    rw [← hload, ← hdesc, ← hoperands]
  refine ⟨dst, fun r => ?_⟩
  unfold Defines
  rw [load_registers hinst]
  simp

/-- A read of a virtual register by an instruction of a block is one of its reads. -/
theorem mem_reads (hi : i ∈ s.blocks block) {v : MirRegisterRef × MirOperandFlag}
    (hv : v ∈ (s.instrs i).visits) (hread : v.2.isRead = true) (hvirtual : v.1.isVirtual = true) :
    ∃ p, (i, p) ∈ s.reads v.1.id := by
  obtain ⟨p, hp, hvisit⟩ := mem_flatMap.mp hv
  refine ⟨p, mem_flatMap.mpr ⟨i, mem_flatMap.mpr ⟨block, mem_finRange _, hi⟩, ?_⟩⟩
  have haccess : (⟨p, v.1.id, v.2.isRead, v.2.isWrite⟩ : Access ℕ ℕ) ∈ (s.instrs i).accesses :=
    mem_flatMap.mpr ⟨p, hp, mem_map.mpr ⟨v, mem_filter.mpr ⟨hvisit, hvirtual⟩, rfl⟩⟩
  refine mem_map.mpr ⟨p, mem_map.mpr ⟨_, mem_filter.mpr ⟨haccess, ?_⟩, rfl⟩, rfl⟩
  simp [hread]

/-! ## When folds are sound -/

variable {targetWrites : ℕ → Bool} {c : SelectorContext n} {use : ℕ} {fold : FoldedLoad}

theorem noWriter_of_declared (hfold : foldedLoad c use = some fold) (h : ∀ inst ∈ codeBetween c.func
      fold.load use, ∀ desc, inst.selectedDesc = some desc → targetWrites desc.id = true →
      stopsFolding inst = true) (hinst : inst ∈ codeBetween c.func fold.load use) :
    writesMemory targetWrites inst = false := by
  obtain ⟨-, -, hstore, -⟩ := foldedLoad_spec hfold
  obtain ⟨block, -, -, hbetween⟩ := noInterveningStore_spec hstore
  obtain ⟨i, hi, rfl⟩ := mem_map.mp hinst
  have hstops := (hbetween i hi).1
  rw [Bool.eq_false_iff]
  intro hwrites
  unfold writesMemory at hwrites
  cases hdesc : (c.func.instrs i).selectedDesc with
  | none =>
    rw [hdesc] at hwrites
    rw [stopsFolding_of_generic hdesc hwrites] at hstops
    cases hstops
  | some desc =>
    rw [hdesc] at hwrites
    rw [h _ hinst desc hdesc hwrites] at hstops
    cases hstops

/-- Nothing in between sees the register that only the use reads. -/
theorem not_sees (hfold : foldedLoad c use = some fold)
    (hreads : c.func.reads fold.vreg.id = [(use, 2)])
    (hkeeps : ∀ inst ∈ codeBetween c.func fold.load use, ¬Defines inst (hw fold.vreg))
    (hinst : inst ∈ codeBetween c.func fold.load use) : ¬Sees inst (hw fold.vreg) := by
  obtain ⟨hvirtual, -, hstore, -⟩ := foldedLoad_spec hfold
  obtain ⟨block, -, -, hbetween⟩ := noInterveningStore_spec hstore
  rintro (⟨v, hv, hread, hhw⟩ | ⟨hphysical, -⟩ | hdef)
  · obtain ⟨i, hi, rfl⟩ := mem_map.mp hinst
    obtain ⟨-, hne, hmem⟩ := hbetween i hi
    have hv1 : v.1.isVirtual = true := (congrArg HwRegister.isVirtual hhw).trans hvirtual
    have hid : v.1.id = fold.vreg.id := congrArg HwRegister.id hhw
    obtain ⟨p, hp⟩ := mem_reads hmem hv hread hv1
    rw [hid, hreads, mem_singleton] at hp
    exact hne (congrArg Prod.fst hp)
  · exact Bool.noConfusion (hphysical.symm.trans hvirtual)
  · exact hkeeps inst hinst hdef

theorem loaded_congr {e : Effects} {op : MirOperand} {s t : MachineState}
    (hregs : ∀ r ∈ collectMemoryRegisters op, s.regs (hw r) = t.regs (hw r))
    (hmem : s.mem = t.mem) :
    loaded e op s = loaded e op t := by
  unfold loaded
  rw [address_congr e.symbols hregs, hmem]

theorem foldedSoundly_of_safely (hfold : foldedLoad c use = some fold)
    (h : FoldsSafely targetWrites c use fold) : FoldedSoundly targetWrites c use fold := by
  obtain ⟨hvirtual, hload, hstore, -⟩ := foldedLoad_spec hfold
  obtain ⟨block, hfirst, hlast, -⟩ := noInterveningStore_spec hstore
  obtain ⟨dst, hdst⟩ := defines_load_iff c hload
  have hdst' : hw dst = hw fold.vreg := (hdst _).mp h.defines
  have hkeeps : ∀ inst ∈ codeBetween c.func fold.load use, ¬Defines inst (hw fold.vreg) :=
    fun inst hi => h.keeps inst hi _ (mem_cons_self ..)
  have haddress : ∀ inst ∈ codeBetween c.func fold.load use,
      ∀ reg ∈ collectMemoryRegisters fold.memTarget, ¬Defines inst (hw reg) :=
    fun inst hi reg hreg => h.keeps inst hi reg (mem_cons_of_mem _ hreg)
  have hwriter := fun inst (hi : inst ∈ codeBetween c.func fold.load use) =>
    noWriter_of_declared hfold h.declared hi
  refine ⟨⟨block, hfirst, hlast⟩, hwriter, haddress, h.reads, fun e s => ⟨?_, ?_, ?_⟩⟩
  · rw [regs_runCode hkeeps]
    exact if_pos h.defines
  · refine loaded_congr (fun reg hreg => ?_) (mem_runCode hwriter)
    exact regs_runCode fun inst hi => haddress inst hi reg hreg
  · refine AgreeBut.runCode ⟨fun r hr => if_neg fun hdef => ?_, rfl⟩
      fun inst hi => not_sees hfold h.reads hkeeps hi
    exact hr (((hdst r).mp hdef).symm.trans hdst')

/-- Registers of ones, and memory of zeros. -/
def marked : MachineState := ⟨fun _ _ => 1, fun _ => 0⟩

/-- Every definition leaves a register of ones. -/
def marking : Effects := ⟨fun _ _ _ _ _ => 1, fun _ _ mem => mem, fun _ _ => 0⟩

theorem safely_of_foldedSoundly (h : FoldedSoundly targetWrites c use fold) :
    FoldsSafely targetWrites c use fold := by
  have hne : (fun _ => 1 : Bytes) ≠ loaded marking fold.memTarget marked := by
    intro heq
    exact absurd (congrFun heq 0) (by decide : (1 : UInt8) ≠ 0)
  have hvalue := (h.sameValue marking marked).1
  have hkeeps : ∀ inst ∈ codeBetween c.func fold.load use, ¬Defines inst (hw fold.vreg) := by
    intro inst hi hdef
    rw [regs_runCode_const (fun _ _ _ _ => rfl) ⟨inst, hi, hdef⟩] at hvalue
    exact hne hvalue
  refine ⟨?_, h.oneUse, fun inst hi reg hreg => ?_, fun inst hi desc hdesc hwrites => ?_⟩
  · by_contra hdef
    rw [regs_runCode hkeeps] at hvalue
    exact hne ((if_neg hdef).symm.trans hvalue)
  · rcases mem_cons.mp hreg with rfl | hreg
    · exact hkeeps inst hi
    · exact h.noRedefinition inst hi reg hreg
  · have hwriter := h.noWriter inst hi
    unfold writesMemory at hwriter
    rw [hdesc] at hwriter
    exact absurd (hwriter.symm.trans hwrites) Bool.false_ne_true

/-- Folding is sound exactly when the register info is that of the register, nothing in between
defines it or a register of the address, and what writes memory there is declared. -/
theorem loadFoldingSound_iff (targetWrites : ℕ → Bool) (c : SelectorContext n) (use : ℕ) :
    LoadFoldingSound targetWrites c use ↔
      ∀ fold, foldedLoad c use = some fold → FoldsSafely targetWrites c use fold :=
  forall₂_congr fun _ hfold => ⟨safely_of_foldedSoundly, foldedSoundly_of_safely hfold⟩

/-! ## The block behind a fold -/

theorem eraseFromOwner_eq (howner : s.owner i = some block) :
    (s.eraseFromOwner i).instrs = s.instrs ∧ (s.eraseFromOwner i).owner = update s.owner i none ∧
      (s.eraseFromOwner i).blocks = update s.blocks block ((s.blocks block).filter (· ≠ i)) := by
  obtain ⟨info, hgone, -⟩ := s.unregisterOperands_eq none i (range (s.instrs i).operands.length)
  have hunregister : s.unregisterFrom none i 0 = { s with regInfo := info } := by
    rw [← hgone, range_eq_range']
    rfl
  unfold BuilderState.eraseFromOwner
  rw [if_neg (by rw [howner]; exact Option.some_ne_none _), hunregister]
  unfold BuilderState.unlink
  dsimp only
  rw [howner]
  exact ⟨rfl, rfl, rfl⟩

theorem eraseFromOwner_pair {j : ℕ} (block : Fin n) (hne : j ≠ i) (hi : s.owner i = some block)
    (hj : s.owner j = some block) : ((s.eraseFromOwner i).eraseFromOwner j).instrs = s.instrs ∧
      ((s.eraseFromOwner i).eraseFromOwner j).blocks =
        update s.blocks block (((s.blocks block).filter (· ≠ i)).filter (· ≠ j)) := by
  obtain ⟨hinstrs, howner, hblocks⟩ := eraseFromOwner_eq hi
  have hj' : (s.eraseFromOwner i).owner j = some block := by
    rw [howner, update_of_ne hne]
    exact hj
  obtain ⟨hinstrs', -, hblocks'⟩ := eraseFromOwner_eq hj'
  refine ⟨hinstrs'.trans hinstrs, ?_⟩
  rw [hblocks', hblocks, update_self, update_idem]

theorem insertBefore_append {new : ℕ} {xs ys : List ℕ} (h : i ∉ xs) :
    Mir.insertBefore new i (xs ++ i :: ys) = xs ++ new :: i :: ys := by
  induction xs with
  | nil => exact if_pos rfl
  | cons x xs ih =>
    have hx : x ≠ i := fun hx => h (hx ▸ mem_cons_self ..)
    have hxs : i ∉ xs := fun hxs => h (mem_cons_of_mem _ hxs)
    exact (if_neg hx).trans (congrArg (x :: ·) (ih hxs))

theorem filter_append_cons {xs ys : List ℕ} (h : i ∉ xs ++ ys) :
    (xs ++ i :: ys).filter (· ≠ i) = xs ++ ys := by
  rw [filter_append, filter_cons_of_neg (by simp), ← filter_append]
  exact filter_eq_self.mpr fun x hx => decide_eq_true fun heq => h (heq ▸ hx)

/-- The load is gone, and the new instruction stands where the use was. -/
theorem blocks_selectADD64rm (hplaced : s.Placed) (desc : MirTargetInstructionDesc) {use : ℕ}
    {fold : FoldedLoad} {pre mid post : List ℕ}
    (hblock : s.blocks block = pre ++ fold.load :: (mid ++ use :: post)) :
    (selectADD64rm s desc use fold).blocks =
        update s.blocks block (pre ++ (mid ++ s.nextInstr :: post)) ∧
      (selectADD64rm s desc use fold).instrs = update s.instrs s.nextInstr
        ⟨.TARGET_INST, some desc, (s.instrs use).operands.take 2 ++ [fold.memTarget]⟩ := by
  have huse : s.owner use = some block := by
    rw [← hplaced.mem_iff, hblock]
    simp
  have hload : s.owner fold.load = some block := by
    rw [← hplaced.mem_iff, hblock]
    simp
  have hnew : s.owner s.nextInstr = none := hplaced.fresh _ (Nat.le_refl _)
  have hneUse : use ≠ s.nextInstr := fun heq => by simp [← heq, huse] at hnew
  have hneLoad : fold.load ≠ s.nextInstr := fun heq => by simp [← heq, hload] at hnew
  have hnodup : (pre ++ fold.load :: (mid ++ use :: post)).Nodup := hblock ▸ hplaced.nodup block
  have hbefore : use ∉ pre ++ fold.load :: mid := by grind
  obtain ⟨info, hbuild, -⟩ := s.buildImpl_eq ⟨some block, .InsertBefore, some use⟩ .TARGET_INST
    (some desc) ((s.instrs use).operands.take 2 ++ [fold.memTarget])
  unfold selectADD64rm
  dsimp only
  rw [huse]
  generalize s.buildImpl _ _ _ _ = s' at hbuild ⊢
  obtain ⟨hinstrs, hblocks⟩ := eraseFromOwner_pair (s := s') block
    (show use ≠ fold.load by grind)
    (by rw [hbuild]; exact (update_of_ne hneLoad _ _).trans hload)
    (by rw [hbuild]; exact (update_of_ne hneUse _ _).trans huse)
  have hbuilt : s'.blocks = update s.blocks block
      (pre ++ fold.load :: (mid ++ s.nextInstr :: use :: post)) := by
    rw [hbuild]
    change update s.blocks block (Mir.insertBefore s.nextInstr use (s.blocks block)) = _
    have hsplit : s.blocks block = (pre ++ fold.load :: mid) ++ use :: post := by
      rw [hblock, append_assoc, cons_append]
    rw [hsplit, insertBefore_append hbefore, append_assoc, cons_append]
  rw [hblocks, hinstrs, hbuilt, update_self, update_idem]
  refine ⟨?_, by rw [hbuild]⟩
  have hwithout : pre ++ (mid ++ s.nextInstr :: use :: post) =
      (pre ++ mid ++ [s.nextInstr]) ++ use :: post := by simp
  rw [filter_append_cons (by grind), hwithout, filter_append_cons (by grind)]
  simp

theorem append_behind {inst : ℕ} {block : List ℕ} (h : inst ∈ block) :
    ∃ pre, block = pre ++ inst :: behind inst block := by
  induction block with
  | nil => cases h
  | cons cur rest ih =>
    by_cases hcur : cur = inst
    · exact ⟨[], by rw [behind, if_pos hcur, hcur]; rfl⟩
    · obtain ⟨pre, hpre⟩ := ih ((mem_cons.mp h).resolve_left (Ne.symm hcur))
      exact ⟨cur :: pre, by rw [behind, if_neg hcur, cons_append, ← hpre]⟩

theorem takeWhile_of_reaches {last : ℕ} {rest : List ℕ} (h : reaches s last rest = true) :
    ∃ post, rest = rest.takeWhile (· ≠ last) ++ last :: post := by
  induction rest with
  | nil => cases h
  | cons cur rest ih =>
    by_cases hcur : cur = last
    · exact ⟨rest, by simp [hcur]⟩
    · unfold reaches at h
      rw [decide_eq_false hcur, Bool.false_or, Bool.and_eq_true] at h
      obtain ⟨post, hpost⟩ := ih h.2
      exact ⟨post, by rw [takeWhile_cons_of_pos (by simpa using hcur), cons_append, ← hpost]⟩

/-- What stands between the load and its use stops no fold and stays, as do the other blocks. -/
theorem folded_block {c : SelectorContext n} {use : ℕ} {fold : FoldedLoad}
    (h : foldedLoad c use = some fold) (desc : MirTargetInstructionDesc) :
    ∃ block pre post,
      c.func.blocks block = pre ++ fold.load :: (between c.func fold.load use ++ use :: post) ∧
      (∀ i ∈ between c.func fold.load use, stopsFolding (c.func.instrs i) = false) ∧
      (selectADD64rm c.func desc use fold).blocks = update c.func.blocks block
        (pre ++ (between c.func fold.load use ++ c.func.nextInstr :: post)) ∧
      (selectADD64rm c.func desc use fold).instrs = update c.func.instrs c.func.nextInstr
        ⟨.TARGET_INST, some desc, (c.func.instrs use).operands.take 2 ++ [fold.memTarget]⟩ := by
  have hstore := (foldedLoad_spec h).2.2.1
  obtain ⟨block, howner, -, hbetween⟩ := noInterveningStore_spec hstore
  obtain ⟨pre, hpre⟩ := append_behind ((c.placed.mem_iff block fold.load).mpr howner)
  unfold noInterveningStore at hstore
  rw [howner] at hstore
  obtain ⟨post, hpost⟩ := takeWhile_of_reaches (Bool.and_eq_true_iff.mp hstore).2
  have hcode : between c.func fold.load use =
      (behind fold.load (c.func.blocks block)).takeWhile (· ≠ use) := by
    unfold between
    rw [howner]
  have hblock : c.func.blocks block =
      pre ++ fold.load :: (between c.func fold.load use ++ use :: post) := by
    rw [hcode, ← hpost]
    exact hpre
  exact ⟨block, pre, post, hblock, fun i hi => (hbetween i hi).1,
    blocks_selectADD64rm c.placed desc hblock⟩

end

/-! The base register of the address is moved before the use. -/

def virtualRegister (id : ℕ) : MirOperand := .register ⟨true, none, id⟩

def atEnd : InsertionPoint 1 := ⟨some 0, .Append, none⟩

def movedBase : BuilderState 1 :=
  [.build atEnd .LOAD none [virtualRegister 1, virtualRegister 0],
    .build atEnd .MOV none [virtualRegister 0, virtualRegister 5],
    .build atEnd .ADD none [virtualRegister 2, virtualRegister 3, virtualRegister 1]].foldl
      BuilderState.step (.new 1)

theorem movedBase_loads (inst : ℕ) (h : (movedBase.instrs inst).opcode = .LOAD) :
    (movedBase.instrs inst).targetDesc = none ∧
      ∃ dst addr, (movedBase.instrs inst).operands = [.register dst, addr] := by
  match inst with
  | 0 => exact ⟨rfl, _, _, rfl⟩
  | 1 | 2 | n + 3 => cases h

theorem movedBase_placed : movedBase.Placed where
  mem_iff block i := by
    match block, i with
    | 0, 0 => decide
    | 0, 1 => decide
    | 0, 2 => decide
    | 0, i + 3 =>
      have hblock : movedBase.blocks 0 = [0, 1, 2] := rfl
      rw [hblock]
      exact ⟨fun h => absurd h (by simp), nofun⟩
  nodup block := by
    match block with
    | 0 => decide
  fresh i hi := by
    match i with
    | 0 | 1 | 2 => exact absurd hi (by decide)
    | i + 3 => rfl

def movedBaseContext : SelectorContext 1 :=
  ⟨movedBase, movedBase_placed, [], fun _ _ => some "i64", movedBase_loads⟩

theorem movedBase_folded : ∃ block pre post,
    movedBase.blocks block = pre ++ 0 :: 1 :: 2 :: post ∧
      (selectADD64rm movedBase ⟨1, [], [], [], []⟩ 2 ⟨0, ⟨true, none, 1⟩,
        .memory ⟨some ⟨true, none, 0⟩, some 0, none, 1⟩⟩).blocks block = pre ++ 1 :: 3 :: post := by
  obtain ⟨block, pre, post, hblock, -, hafter, -⟩ :=
    folded_block (rfl : foldedLoad movedBaseContext 2 = some _) ⟨1, [], [], [], []⟩
  exact ⟨block, pre, post, hblock, (congrFun hafter block).trans (update_self ..)⟩

theorem movedBase_not_sound : ¬LoadFoldingSound (fun _ => false) movedBaseContext 2 := by
  intro h
  have hsound := h ⟨0, ⟨true, none, 1⟩, .memory ⟨some ⟨true, none, 0⟩, some 0, none, 1⟩⟩ rfl
  have hmove : (⟨.MOV, none, [virtualRegister 0, virtualRegister 5]⟩ : MirInstruction) ∈
      codeBetween movedBaseContext.func 0 2 := mem_cons_self ..
  exact hsound.noRedefinition _ hmove ⟨true, none, 0⟩ (mem_cons_self ..)
    ⟨⟨true, none, 0⟩, mem_cons_self .., rfl⟩

end EzPacker.Selection
