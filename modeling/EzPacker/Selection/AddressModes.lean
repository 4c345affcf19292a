import Mathlib
import EzPacker.Lib.SignExtension
import EzPacker.Selection.LoadFolding

/-!
# Addressing modes

The matcher takes the additions and shifts that compute the base register of a memory operand into
the operand, as long as each has one use and nothing that writes memory stands between it and the
memory instruction. The constants go into the displacement, and up to eight definitions behind the
first are followed. The address is kept when the registers that the taken instructions read are
not defined again before the memory instruction; the displacement is not bounded.
-/

namespace EzPacker.Selection

open Int List BitVec Option Mir Peephole

/-! ## The matcher -/

structure MatchedAddressingMode where
  base : Option MirRegisterRef
  disp : BitVec 64
  index : Option MirRegisterRef
  scale : ℕ
  foldedInstructions : List ℕ
  deriving DecidableEq, Repr

def registerAt (inst : MirInstruction) (position : ℕ) : Option MirRegisterRef :=
  match inst.operands[position]? with
  | some (.register reg) => some reg
  | _ => none

def integerAt (inst : MirInstruction) (position : ℕ) : Option ℤ :=
  match inst.operands[position]? with
  | some (.integer value) => some value
  | _ => none

/-- The scale of a shift to the left by at most three. -/
def shiftScale (inst : MirInstruction) : Option ℕ :=
  (integerAt inst 2).bind fun value =>
    let shift := (BitVec.ofInt 64 value).toInt
    if 0 ≤ shift ∧ shift ≤ 3 then some (1 <<< shift.toNat) else none

section

variable {n : ℕ} (c : SelectorContext n) (use : ℕ)

/-- An unselected computation of one use that nothing separates from the memory instruction. -/
def canFold (d : ℕ) : Bool :=
  let inst := c.func.instrs d
  !inst.isSelected && inst.targetDesc = none && (c.func.owner d).isSome &&
    (match registerAt inst 0 with
      | some dst => hasOneUse c dst || c.func.regInfo.hasOneUse dst.id
      | none => true) &&
    noInterveningStore c.func d use

/-- The definition of a register that can be taken. -/
def foldableDef (reg : MirRegisterRef) : Option ℕ :=
  (getDefiningInstruction c reg).filter (canFold c use)

/-- A register that is computed by a shift that can be taken: the shift, its source and the
scale. -/
def scaledIndex (reg : MirRegisterRef) : Option (ℕ × MirRegisterRef × ℕ) :=
  (foldableDef c use reg).bind fun d =>
    let inst := c.func.instrs d
    if inst.opcode = .SHL then
      (registerAt inst 1).bind fun source => (shiftScale inst).map fun scale => (d, source, scale)
    else none

/-- Nothing depends on whether a definition was taken, so only the mode is returned. -/
def matchSubtree : ℕ → MirRegisterRef → MatchedAddressingMode → MatchedAddressingMode
  | 0, _, mode => mode
  | depth + 1, reg, mode =>
    match foldableDef c use reg with
    | none => mode
    | some d =>
      let inst := c.func.instrs d
      if inst.opcode = .ADD then
        match registerAt inst 1, integerAt inst 1, registerAt inst 2, integerAt inst 2 with
        | some src1, _, _, some imm =>
          matchSubtree depth src1
            { mode with
              base := some src1
              disp := mode.disp + BitVec.ofInt 64 imm
              foldedInstructions := mode.foldedInstructions ++ [d] }
        | _, some imm, some src2, _ =>
          matchSubtree depth src2
            { mode with
              base := some src2
              disp := mode.disp + BitVec.ofInt 64 imm
              foldedInstructions := mode.foldedInstructions ++ [d] }
        | some src1, _, some src2, _ =>
          if mode.index = none then
            match scaledIndex c use src2, scaledIndex c use src1 with
            | some (shl, source, scale), _ =>
              matchSubtree depth src1
                { mode with
                  base := some src1
                  index := some source
                  scale := scale
                  foldedInstructions := mode.foldedInstructions ++ [shl, d] }
            | none, some (shl, source, scale) =>
              matchSubtree depth src2
                { mode with
                  base := some src2
                  index := some source
                  scale := scale
                  foldedInstructions := mode.foldedInstructions ++ [shl, d] }
            | none, none =>
              matchSubtree depth src1
                { mode with
                  base := some src1
                  index := some src2
                  scale := 1
                  foldedInstructions := mode.foldedInstructions ++ [d] }
          else mode
        | _, _, _, _ => mode
      else if inst.opcode = .SHL ∧ mode.index = none then
        match registerAt inst 1, shiftScale inst with
        | some source, some scale =>
          { mode with
            base := if mode.base = some reg then none else mode.base
            index := some source
            scale := scale
            foldedInstructions := mode.foldedInstructions ++ [d] }
        | _, _ => mode
      else mode

/-- A register is followed to a depth of eight. -/
def maxDepth : ℕ := 9

def matchAddress : MirOperand → Option MatchedAddressingMode
  | .memory mem =>
    let mode : MatchedAddressingMode :=
      ⟨mem.base, BitVec.ofInt 64 (mem.displ.getD 0), mem.index, mem.scale, []⟩
    match mem.base, mem.index with
    | some base, none => some (matchSubtree c use maxDepth base mode)
    | _, _ => some mode
  | .register reg => some (matchSubtree c use maxDepth reg ⟨some reg, 0, none, 1, []⟩)
  | .integer value => some ⟨none, BitVec.ofInt 64 value, none, 1, []⟩
  | _ => none

/-! ## What one definition gives -/

/-- The taken instructions, and what stands for the register: a base, an index with its scale, and
a constant. -/
structure Expansion where
  taken : List ℕ
  base : Option MirRegisterRef
  index : Option (MirRegisterRef × ℕ)
  constant : BitVec 64
  deriving DecidableEq, Repr

def expandAdd (indexed : Bool) (d : ℕ) : Option Expansion :=
  let inst := c.func.instrs d
  match registerAt inst 1, integerAt inst 1, registerAt inst 2, integerAt inst 2 with
  | some src1, _, _, some imm => some ⟨[d], some src1, none, BitVec.ofInt 64 imm⟩
  | _, some imm, some src2, _ => some ⟨[d], some src2, none, BitVec.ofInt 64 imm⟩
  | some src1, _, some src2, _ =>
    if indexed then none
    else
      match scaledIndex c use src2, scaledIndex c use src1 with
      | some (shl, source, scale), _ => some ⟨[shl, d], some src1, some (source, scale), 0⟩
      | none, some (shl, source, scale) => some ⟨[shl, d], some src2, some (source, scale), 0⟩
      | none, none => some ⟨[d], some src1, some (src2, 1), 0⟩
  | _, _, _, _ => none

def expandShl (indexed : Bool) (d : ℕ) : Option Expansion :=
  if indexed then none
  else
    (registerAt (c.func.instrs d) 1).bind fun source =>
      (shiftScale (c.func.instrs d)).map fun scale => ⟨[d], none, some (source, scale), 0⟩

/-- What the definition of a register gives, for a mode with or without an index. -/
def expansion (indexed : Bool) (reg : MirRegisterRef) : Option Expansion :=
  (foldableDef c use reg).bind fun d =>
    if (c.func.instrs d).opcode = .ADD then expandAdd c use indexed d
    else if (c.func.instrs d).opcode = .SHL then expandShl c indexed d
    else none

def expansions : ℕ → Bool → MirRegisterRef → List Expansion
  | 0, _, _ => []
  | depth + 1, indexed, reg =>
    match expansion c use indexed reg with
    | none => []
    | some x =>
      x :: match x.base with
        | none => []
        | some base => expansions depth (indexed || x.index.isSome) base

end

/-- The mode with the base replaced. -/
def MatchedAddressingMode.expand (mode : MatchedAddressingMode) (x : Expansion) :
    MatchedAddressingMode where
  base := x.base
  disp := mode.disp + x.constant
  index := (x.index.map Prod.fst).or mode.index
  scale := (x.index.map Prod.snd).getD mode.scale
  foldedInstructions := mode.foldedInstructions ++ x.taken

theorem MatchedAddressingMode.expand_index (mode : MatchedAddressingMode) (taken : List ℕ)
    (base : Option MirRegisterRef) (index : MirRegisterRef) (scale : ℕ) :
    mode.expand ⟨taken, base, some (index, scale), 0⟩ =
      ⟨base, mode.disp, some index, scale, mode.foldedInstructions ++ taken⟩ := by
  simp [expand]

variable {indexed : Bool} {reg r : MirRegisterRef} {x : Expansion} {inst : MirInstruction}
  {position : ℕ} {value : ℤ}

section

variable {n : ℕ} {c : SelectorContext n} {use : ℕ}

open MatchedAddressingMode

theorem expansions_cons {depth : ℕ} (h : expansion c use indexed reg = some x) :
    expansions c use (depth + 1) indexed reg = x :: match x.base with
      | none => []
      | some base => expansions c use depth (indexed || x.index.isSome) base := by
  rw [expansions, h]

theorem matchSubtree_eq (depth : ℕ) (reg : MirRegisterRef) (mode : MatchedAddressingMode)
    (hbase : mode.base = some reg) :
    matchSubtree c use depth reg mode =
      (expansions c use depth mode.index.isSome reg).foldl MatchedAddressingMode.expand mode := by
  induction depth generalizing reg mode with
  | zero => rfl
  | succ depth ih =>
    -- one step of the matcher, to the base that it leaves
    have hnext {x : Expansion} {next : MirRegisterRef} {mode' : MatchedAddressingMode}
        (hx : expansion c use mode.index.isSome reg = some x) (hxbase : x.base = some next)
        (hmode : mode' = mode.expand x) : matchSubtree c use depth next mode' =
          (expansions c use (depth + 1) mode.index.isSome reg).foldl
            MatchedAddressingMode.expand mode := by
      have hindex : (mode.expand x).index.isSome = (mode.index.isSome || x.index.isSome) := by
        unfold MatchedAddressingMode.expand
        cases x.index <;> cases mode.index <;> rfl
      rw [hmode, ih next (mode.expand x) hxbase, hindex, expansions_cons hx, hxbase]
      rfl
    have hstay (hx : expansion c use mode.index.isSome reg = none) :
        (expansions c use (depth + 1) mode.index.isSome reg).foldl
          MatchedAddressingMode.expand mode = mode := by
      rw [expansions, hx]
      rfl
    unfold matchSubtree
    cases hdef : foldableDef c use reg with
    | none =>
      refine (hstay ?_).symm
      unfold expansion
      rw [hdef]
      rfl
    | some d =>
      dsimp only
      have hexpansion : expansion c use mode.index.isSome reg =
          if (c.func.instrs d).opcode = .ADD then expandAdd c use mode.index.isSome d
          else if (c.func.instrs d).opcode = .SHL then expandShl c mode.index.isSome d
          else none := by
        unfold expansion
        rw [hdef]
        rfl
      by_cases hadd : (c.func.instrs d).opcode = .ADD
      · rw [if_pos hadd] at hexpansion ⊢
        unfold expandAdd at hexpansion
        dsimp only at hexpansion
        generalize registerAt (c.func.instrs d) 1 = r₁ at hexpansion ⊢
        generalize integerAt (c.func.instrs d) 1 = i₁ at hexpansion ⊢
        generalize registerAt (c.func.instrs d) 2 = r₂ at hexpansion ⊢
        generalize integerAt (c.func.instrs d) 2 = i₂ at hexpansion ⊢
        rcases r₁ with _ | src1 <;> rcases i₁ with _ | imm1 <;> rcases r₂ with _ | src2 <;>
          rcases i₂ with _ | imm2 <;>
          first | exact hnext hexpansion rfl rfl | exact (hstay hexpansion).symm | skip
        -- the sum of two registers
        dsimp only at hexpansion ⊢
        cases hindex : mode.index with
        | some index =>
          rw [hindex] at hexpansion hstay
          exact (hstay hexpansion).symm
        | none =>
          rw [hindex] at hexpansion hnext
          rw [if_pos rfl]
          dsimp only [isSome_none] at hexpansion hnext
          rw [if_neg Bool.false_ne_true] at hexpansion
          generalize scaledIndex c use src1 = s₁ at hexpansion ⊢
          generalize scaledIndex c use src2 = s₂ at hexpansion ⊢
          rcases s₂ with _ | ⟨shl, source, scale⟩
          · rcases s₁ with _ | ⟨shl, source, scale⟩
            · exact hnext hexpansion rfl (expand_index ..).symm
            · exact hnext hexpansion rfl (expand_index ..).symm
          · exact hnext hexpansion rfl (expand_index ..).symm
      · rw [if_neg hadd] at hexpansion ⊢
        by_cases hshl : (c.func.instrs d).opcode = .SHL
        · rw [if_pos hshl] at hexpansion
          unfold expandShl at hexpansion
          cases hindex : mode.index with
          | some index =>
            rw [if_neg fun h => some_ne_none _ h.2]
            rw [hindex] at hexpansion hstay
            exact (hstay hexpansion).symm
          | none =>
            rw [if_pos ⟨hshl, rfl⟩]
            rw [hindex] at hexpansion hstay
            dsimp only [isSome_none] at hexpansion
            rw [if_neg Bool.false_ne_true] at hexpansion
            generalize registerAt (c.func.instrs d) 1 = source at hexpansion ⊢
            generalize shiftScale (c.func.instrs d) = scale at hexpansion ⊢
            rcases source with _ | source
            · exact (hstay hexpansion).symm
            · rcases scale with _ | scale
              · exact (hstay hexpansion).symm
              · dsimp only [isSome_none]
                rw [expansions_cons hexpansion, if_pos hbase]
                exact (expand_index ..).symm
        · rw [if_neg hshl] at hexpansion
          rw [if_neg fun h => hshl h.1]
          exact (hstay hexpansion).symm

end

/-! ## Words -/

/-- The number of the low eight bytes. -/
def wordOf (bytes : Bytes) : ℤ :=
  ((List.range 8).foldr (fun k acc => (bytes k).toNat + 256 * acc) 0 : ℕ)

def bytesOf (value : ℤ) : Bytes := fun k =>
  UInt8.ofNat ((value % 2 ^ 64).toNat / 256 ^ k)

theorem wordOf_bytesOf (value : ℤ) : wordOf (bytesOf value) = value % 2 ^ 64 := by
  have hnonneg : 0 ≤ value % 2 ^ 64 := Int.emod_nonneg _ (by decide)
  have hlt : value % 2 ^ 64 < 2 ^ 64 := Int.emod_lt_of_pos _ (by decide)
  unfold wordOf bytesOf
  generalize value % 2 ^ 64 = v at hnonneg hlt ⊢
  obtain ⟨m, rfl⟩ := Int.eq_ofNat_of_zero_le hnonneg
  have hrange : List.range 8 = [0, 1, 2, 3, 4, 5, 6, 7] := rfl
  rw [hrange]
  simp only [List.foldr_cons, List.foldr_nil, UInt8.toNat_ofNat', Int.toNat_natCast]
  norm_num only
  omega

def valueOf (regs : HwRegister → Bytes) : MirOperand → Option ℤ
  | .register reg => some (wordOf (regs (hw reg)))
  | .integer value => some value
  | _ => none

/-- What the operations on addresses compute. -/
def arithmetic (inst : MirInstruction) (regs : HwRegister → Bytes) : Option ℤ :=
  let first := inst.operands[1]?.bind (valueOf regs)
  let second := inst.operands[2]?.bind (valueOf regs)
  match inst.opcode with
  | .MOV => first
  | .ADD => first.bind fun a => second.map fun b => a + b
  | .SUB => first.bind fun a => second.map fun b => a - b
  | .MUL => first.bind fun a => second.map fun b => a * b
  | .SHL => first.bind fun a => second.map fun b => a * 2 ^ (b % 64).toNat
  | _ => none

/-- Effects that compute the operations on addresses. -/
def Effects.computing (e : Effects) : Effects :=
  { e with
    value := fun inst regs mem r =>
      match arithmetic inst regs with
      | some value => bytesOf value
      | none => e.value inst regs mem r }

/-! ## Matched addresses -/

/-- The registers that an operation computes with. -/
def Reads (inst : MirInstruction) (r : MirRegisterRef) : Prop :=
  registerAt inst 1 = some r ∨ registerAt inst 2 = some r

instance (inst : MirInstruction) (r : MirRegisterRef) : Decidable (Reads inst r) :=
  inferInstanceAs (Decidable (_ ∨ _))

def isAddressOperation (opcode : MirInstructionOpCode) : Bool :=
  opcode ∈ [.ADD, .SUB, .SHL, .MUL, .MOV]

def modeAddress (mode : MatchedAddressingMode) (s : MachineState) : ℤ :=
  (mode.base.map fun r => s.word (hw r)).getD 0 +
    (mode.index.map fun r => s.word (hw r) * mode.scale).getD 0 + mode.disp.toInt

def operandAddress (op : MirOperand) (s : MachineState) : ℤ :=
  match op with
  | .memory mem =>
    (mem.base.map fun r => s.word (hw r)).getD 0 +
      (mem.index.map fun r => s.word (hw r) * mem.scale).getD 0 + mem.displ.getD 0
  | .register reg => s.word (hw reg)
  | .integer value => value
  | _ => 0

section

variable {n : ℕ} (c : SelectorContext n) (use : ℕ)

/-- What stands in front of an instruction in its block. -/
def front : List ℕ :=
  match c.func.owner use with
  | none => []
  | some block => (c.func.blocks block).takeWhile (· ≠ use)

/-- The state in which the memory instruction is executed. -/
def stateAt (targetWrites : ℕ → Bool) (e : Effects) (s : MachineState) : MachineState :=
  runCode targetWrites e.computing ((front c use).map c.func.instrs) s

/-- The mode says the address of the operand where the memory instruction stands, with a
displacement that an addressing mode with so many bits encodes, and no register that it names is
defined again from the instruction on that was taken for it. -/
structure MatchedSoundly (dispBits : ℕ) (op : MirOperand) (mode : MatchedAddressingMode) :
    Prop where
  sameAddress : ∀ targetWrites e s, modeAddress mode (stateAt c use targetWrites e s) ≡
      operandAddress op (stateAt c use targetWrites e s) [ZMOD 2 ^ 64]
  fits : FitsSigned dispBits mode.disp
  kept : ∀ d ∈ mode.foldedInstructions, ∀ r, mode.base = some r ∨ mode.index = some r →
    Reads (c.func.instrs d) r → ∀ i ∈ d :: between c.func d use, ¬Defines (c.func.instrs i) (hw r)

def AddressMatchingSound (dispBits : ℕ) (op : MirOperand) : Prop :=
  ∀ mode, matchAddress c use op = some mode → MatchedSoundly c use dispBits op mode

/-! ## The trees -/

/-- The operation on addresses that computes a register. -/
def computation (r : MirRegisterRef) : Option ℕ :=
  (getDefiningInstruction c r).filter fun d => isAddressOperation (c.func.instrs d).opcode

/-- The registers of the tree that computes an operand. -/
inductive InTree (op : MirOperand) : MirRegisterRef → Prop
  | root {r : MirRegisterRef} (h : op = .register r ∨ r ∈ collectMemoryRegisters op) : InTree op r
  | operand {r r' : MirRegisterRef} {d : ℕ} (h : InTree op r) (hd : computation c r = some d)
      (hread : Reads (c.func.instrs d) r') : InTree op r'

/-- Every computed register of the tree has one definition, in front of what reads it. -/
structure ComputedTree (op : MirOperand) : Prop where
  single : ∀ r d, InTree c op r → computation c r = some d → ∀ i ∈ c.func.linked,
    (Defines (c.func.instrs i) (hw r) ↔ i = d)
  ordered : ∀ r d r' d', InTree c op r → computation c r = some d → Reads (c.func.instrs d) r' →
    computation c r' = some d' → d' ∉ d :: between c.func d use

def operandExpansions : MirOperand → List Expansion
  | .memory mem =>
    match mem.base, mem.index with
    | some base, none => expansions c use maxDepth false base
    | _, _ => []
  | .register reg => expansions c use maxDepth false reg
  | _ => []

def operandDisp : MirOperand → BitVec 64
  | .memory mem => BitVec.ofInt 64 (mem.displ.getD 0)
  | .integer value => BitVec.ofInt 64 value
  | _ => 0

/-- The constants of the tree sum to a displacement, and a register that is not computed is not
defined again between an instruction of the tree that reads it and the memory instruction. -/
structure TreeKept (dispBits : ℕ) (op : MirOperand) : Prop where
  constants : FitsSigned dispBits
    (operandDisp op + ((operandExpansions c use op).map Expansion.constant).sum)
  leaves : ∀ x ∈ operandExpansions c use op, ∀ d ∈ x.taken, ∀ r, Reads (c.func.instrs d) r →
    computation c r = none → ∀ i ∈ d :: between c.func d use, ¬Defines (c.func.instrs i) (hw r)

end

/-! ## The place of a definition -/

section

variable {n : ℕ} {c : SelectorContext n} {use d : ℕ}

theorem not_mem_behind {block : List ℕ} (h : block.Nodup) : d ∉ behind d block := by
  induction block with
  | nil => exact not_mem_nil
  | cons cur rest ih =>
    obtain ⟨hcur, hrest⟩ := nodup_cons.mp h
    unfold behind
    split_ifs with heq
    · rwa [← heq]
    · exact ih hrest

theorem mem_of_reaches {s : BuilderState n} {last : ℕ} {rest : List ℕ}
    (h : reaches s last rest = true) : last ∈ rest := by
  induction rest with
  | nil => cases h
  | cons cur rest ih =>
    unfold reaches at h
    rcases Bool.or_eq_true_iff.mp h with hcur | hrest
    · exact of_decide_eq_true hcur ▸ mem_cons_self ..
    · exact mem_cons_of_mem _ (ih (Bool.and_eq_true_iff.mp hrest).2)

/-- What stands in front of an instruction ends with another one and what is between the two. -/
theorem takeWhile_eq {block : List ℕ} (h : block.Nodup) (hd : d ∈ block)
    (huse : use ∈ behind d block) :
    ∃ first, block.takeWhile (· ≠ use) =
      first ++ d :: (behind d block).takeWhile (· ≠ use) := by
  induction block with
  | nil => cases hd
  | cons cur rest ih =>
    obtain ⟨hcur, hrest⟩ := nodup_cons.mp h
    have hne : cur ≠ use := by
      rintro rfl
      unfold behind at huse
      split_ifs at huse
      · exact hcur huse
      · exact hcur (mem_of_mem_behind huse)
    rw [takeWhile_cons_of_pos (by simpa using hne)]
    unfold behind at huse ⊢
    split_ifs at huse ⊢ with heq
    · exact ⟨[], by rw [heq]; rfl⟩
    · have hd' : d ∈ rest := (mem_cons.mp hd).resolve_left (Ne.symm heq)
      obtain ⟨first, hfirst⟩ := ih hrest hd' huse
      exact ⟨cur :: first, by rw [hfirst]; rfl⟩

theorem front_eq (h : noInterveningStore c.func d use = true) :
    (∃ first, front c use = first ++ d :: between c.func d use) ∧ d ∉ between c.func d use ∧
      ∀ i ∈ d :: between c.func d use, i ∈ c.func.linked := by
  unfold noInterveningStore at h
  cases howner : c.func.owner d with
  | none =>
    rw [howner] at h
    cases h
  | some block =>
    rw [howner] at h
    obtain ⟨huse, hreaches⟩ := Bool.and_eq_true_iff.mp h
    have huse := of_decide_eq_true huse
    have hd : d ∈ c.func.blocks block := (c.placed.mem_iff block d).mpr howner
    have hbetween : between c.func d use =
        (behind d (c.func.blocks block)).takeWhile (· ≠ use) := by
      unfold between
      rw [howner]
    have hfront : front c use = (c.func.blocks block).takeWhile (· ≠ use) := by
      unfold front
      rw [huse]
    rw [hbetween, hfront]
    refine ⟨takeWhile_eq (c.placed.nodup block) hd (mem_of_reaches hreaches), fun hmem => ?_,
      fun i hi => ?_⟩
    · exact not_mem_behind (c.placed.nodup block) ((List.takeWhile_prefix _).subset hmem)
    · refine mem_flatMap.mpr ⟨block, mem_finRange _, ?_⟩
      rcases mem_cons.mp hi with rfl | hi
      · exact hd
      · exact mem_of_mem_behind ((List.takeWhile_prefix _).subset hi)

end

/-! ## The value of a taken instruction -/

theorem registerAt_eq_some :
    registerAt inst position = some r ↔ inst.operands[position]? = some (.register r) := by
  unfold registerAt
  cases inst.operands[position]? with
  | none => exact ⟨nofun, nofun⟩
  | some op => cases op <;> simp

theorem integerAt_eq_some :
    integerAt inst position = some value ↔ inst.operands[position]? = some (.integer value) := by
  unfold integerAt
  cases inst.operands[position]? with
  | none => exact ⟨nofun, nofun⟩
  | some op => cases op <;> simp

/-- Additions and shifts see the registers that they compute with. -/
theorem sees_of_reads (hop : inst.opcode = .ADD ∨ inst.opcode = .SHL) (h : Reads inst r) :
    Sees inst (hw r) := by
  have hvisit {position : ℕ} (hposition : position = 1 ∨ position = 2)
      (hr : registerAt inst position = some r) : Sees inst (hw r) := by
    have hoperand := registerAt_eq_some.mp hr
    obtain ⟨hlength, -⟩ := List.getElem?_eq_some_iff.mp hoperand
    have hflag : inst.getOperandFlag position = .Read := by
      obtain ⟨opcode, targetDesc, operands⟩ := inst
      dsimp only at hop hlength
      rcases hop with rfl | rfl <;> rcases hposition with rfl | rfl <;>
        simp [MirInstruction.getOperandFlag, MirInstruction.selectedDesc,
          MirInstruction.getMetadata, getMeta, MirInstruction.slotFlag, Nat.not_le.mpr hlength] <;>
        rfl
    refine .inl ⟨(r, .Read), mem_flatMap.mpr ⟨position, mem_range.mpr hlength, ?_⟩, rfl,
      rfl⟩
    unfold MirInstruction.visitsAt
    rw [hoperand, hflag]
    exact mem_singleton_self _
  rcases h with h | h
  · exact hvisit (.inl rfl) h
  · exact hvisit (.inr rfl) h

theorem arithmetic_congr {regs regs' : HwRegister → Bytes}
    (h : ∀ r, Reads inst r → regs (hw r) = regs' (hw r)) :
    arithmetic inst regs = arithmetic inst regs' := by
  have hvalue {position : ℕ} (hposition : position = 1 ∨ position = 2) :
      inst.operands[position]?.bind (valueOf regs) =
        inst.operands[position]?.bind (valueOf regs') := by
    cases hoperand : inst.operands[position]? with
    | none => rfl
    | some op =>
      cases op with
      | register r =>
        have hr := registerAt_eq_some.mpr hoperand
        have hread : Reads inst r := by
          rcases hposition with rfl | rfl
          · exact .inl hr
          · exact .inr hr
        change some (wordOf (regs (hw r))) = some (wordOf (regs' (hw r)))
        rw [h r hread]
      | integer value => exact (rfl : some value = some value)
      | _ => exact (rfl : (none : Option ℤ) = none)
  unfold arithmetic
  dsimp only
  rw [hvalue (.inl rfl), hvalue (.inr rfl)]

section

variable {n : ℕ} {c : SelectorContext n} {use d : ℕ} {op : MirOperand}

theorem foldableDef_spec (h : foldableDef c use reg = some d) :
    getDefiningInstruction c reg = some d ∧ noInterveningStore c.func d use = true := by
  obtain ⟨hdef, hfold⟩ := filter_eq_some_iff.mp h
  refine ⟨hdef, ?_⟩
  unfold canFold at hfold
  exact (Bool.and_eq_true_iff.mp hfold).2

theorem computation_of_foldable (h : foldableDef c use reg = some d)
    (hop : (c.func.instrs d).opcode = .ADD ∨ (c.func.instrs d).opcode = .SHL) :
    computation c reg = some d := by
  refine filter_eq_some_iff.mpr ⟨(foldableDef_spec h).1, ?_⟩
  rcases hop with hop | hop <;> rw [hop] <;> rfl

theorem word_of_computation (htree : ComputedTree c use op) (hreg : InTree c op reg)
    (hdef : foldableDef c use reg = some d)
    (hop : (c.func.instrs d).opcode = .ADD ∨ (c.func.instrs d).opcode = .SHL) (hkept : ∀ r, Reads
      (c.func.instrs d) r → ∀ i ∈ d :: between c.func d use, ¬Defines (c.func.instrs i) (hw r))
    {targetWrites : ℕ → Bool} {e : Effects} {s : MachineState}
    (hvalue : arithmetic (c.func.instrs d) (stateAt c use targetWrites e s).regs = some value) :
    (stateAt c use targetWrites e s).word (hw reg) ≡ value [ZMOD 2 ^ 64] := by
  obtain ⟨⟨first, hfront⟩, hnotMem, hlinked⟩ := front_eq (foldableDef_spec hdef).2
  have hsingle := htree.single reg d hreg (computation_of_foldable hdef hop)
  -- the states before and behind the definition
  let s₁ := runCode targetWrites e.computing (first.map c.func.instrs) s
  let s₂ := exec targetWrites e.computing s₁ (c.func.instrs d)
  have hstate : stateAt c use targetWrites e s =
      runCode targetWrites e.computing (codeBetween c.func d use) s₂ := by
    unfold stateAt runCode codeBetween
    rw [hfront, List.map_append, List.foldl_append]
    rfl
  have hbetween {r : HwRegister} (h : ∀ i ∈ between c.func d use, ¬Defines (c.func.instrs i) r) :
      (stateAt c use targetWrites e s).regs r = s₂.regs r := by
    rw [hstate]
    refine regs_runCode fun inst hinst => ?_
    obtain ⟨i, hi, rfl⟩ := List.mem_map.mp hinst
    exact h i hi
  have hread : ∀ r, Reads (c.func.instrs d) r →
      seen (c.func.instrs d) s₁.regs (hw r) = (stateAt c use targetWrites e s).regs (hw r) := by
    intro r hr
    have hexec : s₂.regs (hw r) = s₁.regs (hw r) := if_neg (hkept r hr d (List.mem_cons_self ..))
    rw [hbetween fun i hi => hkept r hr i (List.mem_cons_of_mem _ hi), hexec]
    exact if_pos (sees_of_reads hop hr)
  have hdefines : Defines (c.func.instrs d) (hw reg) :=
    (hsingle d (hlinked d (List.mem_cons_self ..))).mpr rfl
  have hreg : (stateAt c use targetWrites e s).regs (hw reg) = bytesOf value := by
    have hlast : ∀ i ∈ between c.func d use, ¬Defines (c.func.instrs i) (hw reg) := by
      intro i hi hdefi
      exact hnotMem ((hsingle i (hlinked i (List.mem_cons_of_mem _ hi))).mp hdefi ▸ hi)
    rw [hbetween hlast]
    refine (if_pos hdefines).trans ?_
    unfold Effects.computing
    dsimp only
    rw [arithmetic_congr hread, hvalue]
  change wordOf ((stateAt c use targetWrites e s).regs (hw reg)) ≡ value [ZMOD 2 ^ 64]
  rw [hreg, wordOf_bytesOf]
  exact Int.mod_modEq _ _

/-! ## Expansions -/

/-- One of the two operands and the other one. -/
def Sides (p q : ℕ) : Prop := p = 1 ∧ q = 2 ∨ p = 2 ∧ q = 1

/-- What an expansion can be. -/
inductive Expands (c : SelectorContext n) (use : ℕ) (indexed : Bool) (reg : MirRegisterRef) :
    Expansion → Prop
  | constant {d p q : ℕ} {base : MirRegisterRef} {imm : ℤ}
      (hdef : foldableDef c use reg = some d) (hop : (c.func.instrs d).opcode = .ADD)
      (hsides : Sides p q) (hbase : registerAt (c.func.instrs d) p = some base)
      (himm : integerAt (c.func.instrs d) q = some imm) :
      Expands c use indexed reg ⟨[d], some base, none, BitVec.ofInt 64 imm⟩
  | scaled {d shl p q scale : ℕ} {base other source : MirRegisterRef}
      (hdef : foldableDef c use reg = some d) (hop : (c.func.instrs d).opcode = .ADD)
      (hsides : Sides p q) (hbase : registerAt (c.func.instrs d) p = some base)
      (hother : registerAt (c.func.instrs d) q = some other)
      (hscaled : scaledIndex c use other = some (shl, source, scale)) (hindexed : indexed = false) :
      Expands c use indexed reg ⟨[shl, d], some base, some (source, scale), 0⟩
  | sum {d : ℕ} {base index : MirRegisterRef}
      (hdef : foldableDef c use reg = some d) (hop : (c.func.instrs d).opcode = .ADD)
      (hbase : registerAt (c.func.instrs d) 1 = some base)
      (hindex : registerAt (c.func.instrs d) 2 = some index) (hindexed : indexed = false) :
      Expands c use indexed reg ⟨[d], some base, some (index, 1), 0⟩
  | shift {d scale : ℕ} {source : MirRegisterRef}
      (hdef : foldableDef c use reg = some d) (hop : (c.func.instrs d).opcode = .SHL)
      (hsource : registerAt (c.func.instrs d) 1 = some source)
      (hscale : shiftScale (c.func.instrs d) = some scale) (hindexed : indexed = false) :
      Expands c use indexed reg ⟨[d], none, some (source, scale), 0⟩

theorem expands_of_expansion (h : expansion c use indexed reg = some x) :
    Expands c use indexed reg x := by
  obtain ⟨d, hdef, h⟩ := bind_eq_some_iff.mp h
  split_ifs at h with hadd hshl
  · unfold expandAdd at h
    dsimp only at h
    split at h
    next src1 _ _ imm hsrc1 himm =>
      obtain rfl := some.inj h
      exact .constant hdef hadd (.inl ⟨rfl, rfl⟩) hsrc1 himm
    next imm src2 _ himm hsrc2 _ =>
      obtain rfl := some.inj h
      exact .constant hdef hadd (.inr ⟨rfl, rfl⟩) hsrc2 himm
    next src1 _ src2 _ hsrc1 hsrc2 _ _ =>
      split_ifs at h with hindexed
      have hindexed := Bool.eq_false_iff.mpr hindexed
      split at h
      next _ shl source scale hscaled =>
        obtain rfl := some.inj h
        exact .scaled hdef hadd (.inl ⟨rfl, rfl⟩) hsrc1 hsrc2 hscaled hindexed
      next shl source scale _ hscaled =>
        obtain rfl := some.inj h
        exact .scaled hdef hadd (.inr ⟨rfl, rfl⟩) hsrc2 hsrc1 hscaled hindexed
      next =>
        obtain rfl := some.inj h
        exact .sum hdef hadd hsrc1 hsrc2 hindexed
    · cases h
  · unfold expandShl at h
    split_ifs at h with hindexed
    obtain ⟨source, hsource, h⟩ := bind_eq_some_iff.mp h
    obtain ⟨scale, hscale, rfl⟩ := map_eq_some_iff.mp h
    exact .shift hdef hshl hsource hscale (Bool.eq_false_iff.mpr hindexed)

/-! ## The address of an expansion -/

theorem toInt_ofInt_modEq (value : ℤ) : (BitVec.ofInt 64 value).toInt ≡ value [ZMOD 2 ^ 64] := by
  rw [toInt_ofInt]
  exact bmod_emod

theorem toInt_add_modEq (x y : BitVec 64) : (x + y).toInt ≡ x.toInt + y.toInt [ZMOD 2 ^ 64] := by
  rw [toInt_add]
  exact bmod_emod

theorem bind_valueOf_register (h : registerAt inst position = some r) (regs : HwRegister → Bytes) :
    inst.operands[position]?.bind (valueOf regs) = some (wordOf (regs (hw r))) := by
  rw [registerAt_eq_some.mp h]
  rfl

theorem bind_valueOf_integer (h : integerAt inst position = some value)
    (regs : HwRegister → Bytes) :
    inst.operands[position]?.bind (valueOf regs) = some value := by
  rw [integerAt_eq_some.mp h]
  rfl

theorem arithmetic_add (hop : inst.opcode = .ADD) {regs : HwRegister → Bytes} {p q : ℕ}
    (hsides : Sides p q) {a b : ℤ} (ha : inst.operands[p]?.bind (valueOf regs) = some a)
    (hb : inst.operands[q]?.bind (valueOf regs) = some b) :
    arithmetic inst regs = some (a + b) := by
  unfold arithmetic
  dsimp only
  rcases hsides with ⟨rfl, rfl⟩ | ⟨rfl, rfl⟩
  · rw [hop, ha, hb]
    rfl
  · rw [hop, ha, hb, add_comm]
    rfl

theorem arithmetic_shl (hop : inst.opcode = .SHL) (regs : HwRegister → Bytes)
    {source : MirRegisterRef} {scale : ℕ} (hsource : registerAt inst 1 = some source)
    (hscale : shiftScale inst = some scale) :
    arithmetic inst regs = some (wordOf (regs (hw source)) * scale) := by
  obtain ⟨value, hvalue, hscale⟩ := bind_eq_some_iff.mp hscale
  dsimp only at hscale
  split_ifs at hscale with hrange
  obtain rfl := some.inj hscale
  have hmod : value % 64 = (BitVec.ofInt 64 value).toInt := by
    have h64 : value % 64 = (BitVec.ofInt 64 value).toInt % 64 :=
      (((toInt_ofInt_modEq value).of_mul_left (2 ^ 58) : _ ≡ _ [ZMOD 64])).symm
    rw [h64]
    exact emod_eq_of_lt hrange.1 (lt_of_le_of_lt hrange.2 (by decide))
  unfold arithmetic
  dsimp only
  rw [hop, bind_valueOf_register hsource, bind_valueOf_integer hvalue]
  change some (wordOf (regs (hw source)) * 2 ^ (value % 64).toNat) = _
  rw [hmod, Nat.shiftLeft_eq, Nat.one_mul]
  push_cast
  rfl

/-- Nothing from a taken instruction on defines what it reads. -/
def Kept (c : SelectorContext n) (use : ℕ) (x : Expansion) : Prop :=
  ∀ d ∈ x.taken, ∀ r, Reads (c.func.instrs d) r → ∀ i ∈ d :: between c.func d use,
    ¬Defines (c.func.instrs i) (hw r)

def expansionAddress (x : Expansion) (s : MachineState) : ℤ :=
  (x.base.map fun r => s.word (hw r)).getD 0 +
    (x.index.map fun r => s.word (hw r.1) * r.2).getD 0 + x.constant.toInt

theorem reads_of_sides {p q : ℕ} (hsides : Sides p q)
    (h : registerAt inst p = some r ∨ registerAt inst q = some r) : Reads inst r := by
  rcases hsides with ⟨rfl, rfl⟩ | ⟨rfl, rfl⟩
  · exact h
  · exact h.symm

theorem scaledIndex_spec {source : MirRegisterRef} {shl scale : ℕ}
    (h : scaledIndex c use r = some (shl, source, scale)) :
    foldableDef c use r = some shl ∧ (c.func.instrs shl).opcode = .SHL ∧
      registerAt (c.func.instrs shl) 1 = some source ∧
      shiftScale (c.func.instrs shl) = some scale := by
  obtain ⟨d, hdef, h⟩ := bind_eq_some_iff.mp h
  dsimp only at h
  split_ifs at h with hop
  obtain ⟨source', hsource, h⟩ := bind_eq_some_iff.mp h
  obtain ⟨scale', hscale, h⟩ := map_eq_some_iff.mp h
  cases h
  exact ⟨hdef, hop, hsource, hscale⟩

theorem inTree_of_sides {p q : ℕ} (hreg : InTree c op reg) (hdef : foldableDef c use reg = some d)
    (hop : (c.func.instrs d).opcode = .ADD) (hsides : Sides p q)
    (h : registerAt (c.func.instrs d) p = some r ∨ registerAt (c.func.instrs d) q = some r) :
    InTree c op r :=
  .operand hreg (computation_of_foldable hdef (.inl hop)) (reads_of_sides hsides h)

theorem inTree_base {base : MirRegisterRef} (hreg : InTree c op reg)
    (hx : expansion c use indexed reg = some x) (hbase : x.base = some base) :
    InTree c op base := by
  cases expands_of_expansion hx with
  | constant hdef hop hsides hsrc himm | scaled hdef hop hsides hsrc hother hscaled hindexed =>
    cases hbase
    exact inTree_of_sides hreg hdef hop hsides (.inl hsrc)
  | sum hdef hop hsrc hindex hindexed =>
    cases hbase
    exact inTree_of_sides hreg hdef hop (.inl ⟨rfl, rfl⟩) (.inl hsrc)
  | shift hdef hop hsource hscale hindexed => cases hbase

/-- An expansion has the value of its register at the memory instruction. -/
theorem word_of_expansion (htree : ComputedTree c use op) (hreg : InTree c op reg)
    (hx : expansion c use indexed reg = some x) (hkept : Kept c use x) (targetWrites : ℕ → Bool)
    (e : Effects) (s : MachineState) : (stateAt c use targetWrites e s).word (hw reg) ≡
      expansionAddress x (stateAt c use targetWrites e s) [ZMOD 2 ^ 64] := by
  let t := stateAt c use targetWrites e s
  cases expands_of_expansion hx with
  | @constant d p q base imm hdef hop hsides hsrc himm =>
    have hword := word_of_computation htree hreg hdef (.inl hop)
      (hkept d (List.mem_singleton_self _))
      (arithmetic_add hop hsides (bind_valueOf_register hsrc t.regs)
        (bind_valueOf_integer himm t.regs))
    refine hword.trans ?_
    change t.word (hw base) + imm ≡ t.word (hw base) + 0 + (BitVec.ofInt 64 imm).toInt [ZMOD _]
    rw [add_zero]
    exact (Int.ModEq.refl _).add (toInt_ofInt_modEq imm).symm
  | @scaled d shl p q scale base other source hdef hop hsides hsrc hother hscaled hindexed =>
    obtain ⟨hshl, hshlOp, hsource, hscale⟩ := scaledIndex_spec hscaled
    have hword := word_of_computation htree hreg hdef (.inl hop)
      (hkept d (List.mem_cons_of_mem _ (List.mem_singleton_self _)))
      (arithmetic_add hop hsides (bind_valueOf_register hsrc t.regs)
        (bind_valueOf_register hother t.regs))
    have hshift := word_of_computation htree
      (inTree_of_sides hreg hdef hop hsides (.inr hother)) hshl (.inr hshlOp)
      (hkept shl (List.mem_cons_self ..)) (arithmetic_shl hshlOp t.regs hsource hscale)
    refine hword.trans ?_
    change t.word (hw base) + t.word (hw other) ≡
      t.word (hw base) + t.word (hw source) * scale + 0 [ZMOD _]
    rw [add_zero]
    exact (Int.ModEq.refl _).add hshift
  | @sum d base index hdef hop hsrc hindex hindexed =>
    have hword := word_of_computation htree hreg hdef (.inl hop)
      (hkept d (List.mem_singleton_self _))
      (arithmetic_add hop (.inl ⟨rfl, rfl⟩) (bind_valueOf_register hsrc t.regs)
        (bind_valueOf_register hindex t.regs))
    refine hword.trans ?_
    change t.word (hw base) + t.word (hw index) ≡
      t.word (hw base) + t.word (hw index) * 1 + 0 [ZMOD _]
    rw [add_zero, mul_one]
  | @shift d scale source hdef hop hsource hscale hindexed =>
    have hword := word_of_computation htree hreg hdef (.inr hop)
      (hkept d (List.mem_singleton_self _)) (arithmetic_shl hop t.regs hsource hscale)
    refine hword.trans ?_
    change t.word (hw source) * scale ≡ 0 + t.word (hw source) * scale + 0 [ZMOD _]
    rw [add_zero, zero_add]

/-! ## The whole mode -/

theorem indexed_of_expansion (hx : expansion c use indexed reg = some x) :
    x.index = none ∨ indexed = false := by
  cases expands_of_expansion hx with
  | constant => exact .inl rfl
  | scaled _ _ _ _ _ _ hindexed | sum _ _ _ _ hindexed | shift _ _ _ _ hindexed =>
    exact .inr hindexed

theorem isSome_index_expand (mode : MatchedAddressingMode) (x : Expansion) :
    (mode.expand x).index.isSome = (mode.index.isSome || x.index.isSome) := by
  unfold MatchedAddressingMode.expand
  cases x.index <;> cases mode.index <;> rfl

variable {mode : MatchedAddressingMode}

/-- A base may be replaced by what has its value. -/
theorem modeAddress_expand {t : MachineState} (hbase : mode.base = some reg)
    (hindex : x.index = none ∨ mode.index.isSome = false)
    (hword : t.word (hw reg) ≡ expansionAddress x t [ZMOD 2 ^ 64]) :
    modeAddress (mode.expand x) t ≡ modeAddress mode t [ZMOD 2 ^ 64] := by
  obtain ⟨base, disp, index, scale, folded⟩ := mode
  obtain ⟨taken, xbase, xindex, constant⟩ := x
  obtain rfl : base = some reg := hbase
  unfold expansionAddress at hword
  unfold modeAddress MatchedAddressingMode.expand
  dsimp only at hword hindex ⊢
  have hdisp := toInt_add_modEq disp constant
  have hscaled : (((xindex.map Prod.fst).or index).map fun r =>
      t.word (hw r) * ((xindex.map Prod.snd).getD scale : ℕ)).getD 0 =
        (xindex.map fun r => t.word (hw r.1) * r.2).getD 0 +
          (index.map fun r => t.word (hw r) * scale).getD 0 := by
    rcases hindex with rfl | hindex
    · exact (zero_add _).symm
    · cases index with
      | some index => cases hindex
      | none =>
        cases xindex with
        | none => rfl
        | some index => exact (add_zero _).symm
  rw [hscaled, map_some, getD_some]
  have hsum := (hword.add_right ((index.map fun r => t.word (hw r) * scale).getD 0 +
    disp.toInt)).symm
  refine ((ModEq.refl _).add hdisp).trans ?_
  convert hsum using 1 <;> ring

theorem modeAddress_foldl (htree : ComputedTree c use op) (targetWrites : ℕ → Bool) (e : Effects)
    (s : MachineState) (depth : ℕ) (hbase : mode.base = some reg) (hreg : InTree c op reg)
    (hkept : ∀ x ∈ expansions c use depth mode.index.isSome reg, Kept c use x) :
    modeAddress ((expansions c use depth mode.index.isSome reg).foldl
        MatchedAddressingMode.expand mode) (stateAt c use targetWrites e s) ≡
      modeAddress mode (stateAt c use targetWrites e s) [ZMOD 2 ^ 64] := by
  induction depth generalizing reg mode with
  | zero => exact Int.ModEq.refl _
  | succ depth ih =>
    cases hx : expansion c use mode.index.isSome reg with
    | none =>
      unfold expansions
      rw [hx]
      exact Int.ModEq.refl _
    | some x =>
      rw [expansions_cons hx] at hkept ⊢
      have hword := word_of_expansion htree hreg hx (hkept x (List.mem_cons_self ..))
        targetWrites e s
      have hstep := modeAddress_expand hbase (indexed_of_expansion hx) hword
      cases hxbase : x.base with
      | none => exact hstep
      | some base =>
        rw [hxbase] at hkept
        have hnext : (mode.expand x).base = some base := hxbase
        have hrest := ih hnext (inTree_base hreg hx hxbase)
          fun y hy => hkept y (List.mem_cons_of_mem _ (isSome_index_expand mode x ▸ hy))
        rw [isSome_index_expand] at hrest
        exact hrest.trans hstep

theorem disp_foldl (xs : List Expansion) (mode : MatchedAddressingMode) :
    (xs.foldl MatchedAddressingMode.expand mode).disp =
      mode.disp + (xs.map Expansion.constant).sum := by
  induction xs generalizing mode with
  | nil => exact (BitVec.add_zero _).symm
  | cons x xs ih =>
    rw [foldl_cons, ih, map_cons, sum_cons]
    exact BitVec.add_assoc ..

theorem foldedInstructions_foldl (xs : List Expansion) (mode : MatchedAddressingMode) :
    (xs.foldl MatchedAddressingMode.expand mode).foldedInstructions =
      mode.foldedInstructions ++ xs.flatMap Expansion.taken := by
  induction xs generalizing mode with
  | nil => exact (append_nil _).symm
  | cons x xs ih =>
    rw [List.foldl_cons, ih, List.flatMap_cons, ← List.append_assoc]
    rfl

theorem exists_expansion {depth : ℕ} (hreg : InTree c op reg)
    (hx : x ∈ expansions c use depth indexed reg) :
    ∃ indexed' r, InTree c op r ∧ expansion c use indexed' r = some x := by
  induction depth generalizing indexed reg with
  | zero => cases hx
  | succ depth ih =>
    cases hy : expansion c use indexed reg with
    | none =>
      unfold expansions at hx
      rw [hy] at hx
      cases hx
    | some y =>
      rw [expansions_cons hy] at hx
      rcases mem_cons.mp hx with rfl | hx
      · exact ⟨indexed, reg, hreg, hy⟩
      · cases hybase : y.base with
        | none =>
          rw [hybase] at hx
          cases hx
        | some base =>
          rw [hybase] at hx
          exact ih (inTree_base hreg hy hybase) hx

theorem computes_of_taken (hreg : InTree c op reg) (hx : expansion c use indexed reg = some x)
    (hd : d ∈ x.taken) :
    ∃ r, InTree c op r ∧ computation c r = some d ∧ noInterveningStore c.func d use = true := by
  have htaken {r : MirRegisterRef} {i : ℕ} (hr : InTree c op r)
      (hdef : foldableDef c use r = some i)
      (hop : (c.func.instrs i).opcode = .ADD ∨ (c.func.instrs i).opcode = .SHL) :
      ∃ r, InTree c op r ∧ computation c r = some i ∧ noInterveningStore c.func i use = true :=
    ⟨r, hr, computation_of_foldable hdef hop, (foldableDef_spec hdef).2⟩
  cases expands_of_expansion hx with
  | constant hdef hop | sum hdef hop =>
    obtain rfl := mem_singleton.mp hd
    exact htaken hreg hdef (.inl hop)
  | scaled hdef hop hsides hsrc hother hscaled =>
    rcases mem_cons.mp hd with rfl | hd
    · obtain ⟨hshl, hshlOp, -⟩ := scaledIndex_spec hscaled
      exact htaken (inTree_of_sides hreg hdef hop hsides (.inr hother)) hshl (.inr hshlOp)
    · obtain rfl := mem_singleton.mp hd
      exact htaken hreg hdef (.inl hop)
  | shift hdef hop =>
    obtain rfl := mem_singleton.mp hd
    exact htaken hreg hdef (.inr hop)

theorem kept_of_leaves (htree : ComputedTree c use op) (hreg : InTree c op reg)
    (hx : expansion c use indexed reg = some x) (hleaves : ∀ d ∈ x.taken, ∀ r, Reads (c.func.instrs
      d) r → computation c r = none → ∀ i ∈ d :: between c.func d use, ¬Defines (c.func.instrs i)
      (hw r)) : Kept c use x := by
  intro d hd r hread i hi hdefines
  cases hr : computation c r with
  | none => exact hleaves d hd r hread hr i hi hdefines
  | some d' =>
    obtain ⟨r', hr', hcomputes, hfold⟩ := computes_of_taken hreg hx hd
    have hlinked := (front_eq hfold).2.2 i hi
    have heq := (htree.single r d' (.operand hr' hcomputes hread) hr i hlinked).mp hdefines
    exact htree.ordered r' d r d' hr' hcomputes hread hr (heq ▸ hi)

/-! ## The registers that the mode names -/

theorem expansion_of_leaf (hleaf : computation c r = none) : expansion c use indexed r = none := by
  cases hx : expansion c use indexed r with
  | none => rfl
  | some x =>
    have hnot {i : ℕ} (hdef : foldableDef c use r = some i)
        (hop : (c.func.instrs i).opcode = .ADD ∨ (c.func.instrs i).opcode = .SHL) : False :=
      some_ne_none _ ((computation_of_foldable hdef hop).symm.trans hleaf)
    cases expands_of_expansion hx with
    | constant hdef hop | scaled hdef hop | sum hdef hop => exact (hnot hdef (.inl hop)).elim
    | shift hdef hop => exact (hnot hdef (.inr hop)).elim

theorem registerAt_of_integerAt (h : integerAt inst position = some value) :
    registerAt inst position = none := by
  unfold registerAt
  rw [integerAt_eq_some.mp h]

theorem exists_integer_of_shiftScale {scale : ℕ} (h : shiftScale inst = some scale) :
    ∃ value, integerAt inst 2 = some value := by
  obtain ⟨value, hvalue, -⟩ := bind_eq_some_iff.mp h
  exact ⟨value, hvalue⟩

theorem named_of_expansion (hx : expansion c use indexed reg = some x) (hd : d ∈ x.taken)
    (hread : Reads (c.func.instrs d) r) (hleaf : computation c r = none) :
    x.base = some r ∨ x.index.map Prod.fst = some r := by
  have hsource {i scale : ℕ} {source : MirRegisterRef}
      (hsrc : registerAt (c.func.instrs i) 1 = some source)
      (hscale : shiftScale (c.func.instrs i) = some scale) (hr : Reads (c.func.instrs i) r) :
      some source = some r := by
    obtain ⟨value, hvalue⟩ := exists_integer_of_shiftScale hscale
    rcases hr with hr | hr
    · exact hsrc.symm.trans hr
    · rw [registerAt_of_integerAt hvalue] at hr
      cases hr
  have hside {i p q : ℕ} (hsides : Sides p q) (hr : Reads (c.func.instrs i) r) :
      registerAt (c.func.instrs i) p = some r ∨ registerAt (c.func.instrs i) q = some r := by
    rcases hsides with ⟨rfl, rfl⟩ | ⟨rfl, rfl⟩
    · exact hr
    · exact hr.symm
  cases expands_of_expansion hx with
  | constant hdef hop hsides hbase himm =>
    obtain rfl := mem_singleton.mp hd
    rcases hside hsides hread with hr | hr
    · exact .inl (hbase.symm.trans hr)
    · rw [registerAt_of_integerAt himm] at hr
      cases hr
  | scaled hdef hop hsides hbase hother hscaled =>
    obtain ⟨hshl, hshlOp, hsrc, hscale⟩ := scaledIndex_spec hscaled
    rcases mem_cons.mp hd with rfl | hd
    · exact .inr (hsource hsrc hscale hread)
    · obtain rfl := mem_singleton.mp hd
      rcases hside hsides hread with hr | hr
      · exact .inl (hbase.symm.trans hr)
      · obtain rfl := some.inj (hother.symm.trans hr)
        rw [computation_of_foldable hshl (.inr hshlOp)] at hleaf
        cases hleaf
  | sum hdef hop hbase hindex =>
    obtain rfl := mem_singleton.mp hd
    rcases hread with hr | hr
    · exact .inl (hbase.symm.trans hr)
    · exact .inr (hindex.symm.trans hr)
  | shift hdef hop hsrc hscale =>
    obtain rfl := mem_singleton.mp hd
    exact .inr (hsource hsrc hscale hread)

theorem index_foldl (depth : ℕ) (mode : MatchedAddressingMode) :
    ((expansions c use depth true reg).foldl MatchedAddressingMode.expand mode).index =
      mode.index := by
  induction depth generalizing reg mode with
  | zero => rfl
  | succ depth ih =>
    cases hx : expansion c use true reg with
    | none =>
      unfold expansions
      rw [hx]
      rfl
    | some x =>
      have hnone : x.index = none := (indexed_of_expansion hx).resolve_right nofun
      have hkeep : (mode.expand x).index = mode.index := by
        unfold MatchedAddressingMode.expand
        rw [hnone]
        rfl
      rw [expansions_cons hx]
      cases x.base with
      | none => exact hkeep
      | some base => exact (ih (mode.expand x)).trans hkeep

theorem named_of_mem (depth : ℕ) (hmem : x ∈ expansions c use depth mode.index.isSome reg)
    (hd : d ∈ x.taken) (hread : Reads (c.func.instrs d) r) (hleaf : computation c r = none) :
    let final := (expansions c use depth mode.index.isSome reg).foldl
      MatchedAddressingMode.expand mode
    final.base = some r ∨ final.index = some r := by
  dsimp only
  induction depth generalizing reg mode with
  | zero => cases hmem
  | succ depth ih =>
    cases hy : expansion c use mode.index.isSome reg with
    | none =>
      unfold expansions at hmem
      rw [hy] at hmem
      cases hmem
    | some y =>
      rw [expansions_cons hy] at hmem ⊢
      rw [foldl_cons]
      have hisSome := isSome_index_expand mode y
      rcases mem_cons.mp hmem with rfl | hmem
      · rcases named_of_expansion hy hd hread hleaf with hbase | hindex
        · -- a leaf is not followed further
          rw [hbase]
          dsimp only
          have hstop : expansions c use depth (mode.index.isSome || x.index.isSome) r = [] := by
            cases depth with
            | zero => rfl
            | succ depth =>
              unfold expansions
              rw [expansion_of_leaf hleaf]
          rw [hstop]
          exact .inl hbase
        · have hnamed : (mode.expand x).index = some r := by
            unfold MatchedAddressingMode.expand
            rw [hindex]
            rfl
          rw [← hisSome, hnamed]
          refine .inr ?_
          cases x.base with
          | none => exact hnamed
          | some base => exact (index_foldl depth _).trans hnamed
      · cases hybase : y.base with
        | none =>
          rw [hybase] at hmem
          cases hmem
        | some base =>
          rw [hybase] at hmem
          dsimp only at hmem ⊢
          rw [← hisSome] at hmem ⊢
          exact ih hmem

/-! ## The operand -/

/-- The mode before anything is taken. -/
def initialMode : MirOperand → Option MatchedAddressingMode
  | .memory mem => some ⟨mem.base, BitVec.ofInt 64 (mem.displ.getD 0), mem.index, mem.scale, []⟩
  | .register reg => some ⟨some reg, 0, none, 1, []⟩
  | .integer value => some ⟨none, BitVec.ofInt 64 value, none, 1, []⟩
  | _ => none

theorem operandExpansions_eq (c : SelectorContext n) (use : ℕ) (h : initialMode op = some mode) :
    operandExpansions c use op = [] ∨ ∃ reg, mode.base = some reg ∧ InTree c op reg ∧
      operandExpansions c use op = expansions c use maxDepth mode.index.isSome reg := by
  cases op with
  | memory mem =>
    obtain ⟨base, displ, index, scale⟩ := mem
    obtain rfl := some.inj h
    cases base with
    | none => exact .inl rfl
    | some base =>
      cases index with
      | some index => exact .inl rfl
      | none => exact .inr ⟨base, rfl, .root (.inr (mem_cons_self ..)), rfl⟩
  | register reg =>
    obtain rfl := some.inj h
    exact .inr ⟨reg, rfl, .root (.inl rfl), rfl⟩
  | integer value => exact .inl rfl
  | _ => cases h

theorem matchAddress_eq : matchAddress c use op = (initialMode op).map fun mode =>
    (operandExpansions c use op).foldl MatchedAddressingMode.expand mode := by
  cases op with
  | memory mem =>
    obtain ⟨base, displ, index, scale⟩ := mem
    cases base with
    | none => rfl
    | some base =>
      cases index with
      | some index => rfl
      | none => exact congrArg some (matchSubtree_eq _ _ _ rfl)
  | register reg => exact congrArg some (matchSubtree_eq _ _ _ rfl)
  | _ => rfl

theorem disp_initialMode (h : initialMode op = some mode) :
    mode.disp = operandDisp op ∧ mode.foldedInstructions = [] := by
  cases op with
  | memory mem | register reg | integer value =>
    obtain rfl := some.inj h
    exact ⟨rfl, rfl⟩
  | _ => cases h

theorem modeAddress_initialMode (h : initialMode op = some mode) (t : MachineState) :
    modeAddress mode t ≡ operandAddress op t [ZMOD 2 ^ 64] := by
  cases op with
  | memory mem =>
    obtain rfl := some.inj h
    exact (ModEq.refl _).add (toInt_ofInt_modEq _)
  | register reg =>
    obtain rfl := some.inj h
    change t.word (hw reg) + 0 + 0 ≡ t.word (hw reg) [ZMOD _]
    rw [add_zero, add_zero]
  | integer value =>
    obtain rfl := some.inj h
    change 0 + 0 + (BitVec.ofInt 64 value).toInt ≡ value [ZMOD _]
    rw [add_zero, zero_add]
    exact toInt_ofInt_modEq value
  | _ => cases h

theorem fitsSigned_zero (dispBits : ℕ) : FitsSigned dispBits (0 : BitVec 64) := by
  have hpos : (0 : ℤ) < 2 ^ (dispBits - 1) := pow_pos (by decide) _
  exact ⟨neg_nonpos_of_nonneg hpos.le, hpos⟩

theorem treeKept_of_none {dispBits : ℕ} (h : initialMode op = none) :
    TreeKept c use dispBits op := by
  cases op with
  | memory mem | register reg | integer value => cases h
  | _ => exact ⟨fitsSigned_zero dispBits, nofun⟩

/-- Addresses are matched soundly exactly for the trees that are kept. -/
theorem addressMatchingSound_iff (c : SelectorContext n) (use dispBits : ℕ) (op : MirOperand)
    (htree : ComputedTree c use op) :
    AddressMatchingSound c use dispBits op ↔ TreeKept c use dispBits op := by
  unfold AddressMatchingSound
  rw [matchAddress_eq]
  cases hinitial : initialMode op with
  | none => exact ⟨fun _ => treeKept_of_none hinitial, fun _ => nofun⟩
  | some mode =>
    obtain ⟨hdisp, hfolded⟩ := disp_initialMode hinitial
    have hfinal := disp_foldl (operandExpansions c use op) mode
    rw [hdisp] at hfinal
    constructor
    · intro h
      obtain ⟨-, hfits, hkept⟩ := h _ rfl
      refine ⟨hfinal ▸ hfits, fun x hx d hd r hread hleaf => ?_⟩
      refine hkept d ?_ r ?_ hread
      · rw [foldedInstructions_foldl]
        exact mem_append_right _ (mem_flatMap.mpr ⟨x, hx, hd⟩)
      · rcases operandExpansions_eq c use hinitial with hnil | hsome
        · rw [hnil] at hx
          cases hx
        · obtain ⟨reg, -, -, heq⟩ := hsome
          rw [heq] at hx ⊢
          exact named_of_mem maxDepth hx hd hread hleaf
    · rintro ⟨hconstants, hleaves⟩ final hmode
      obtain rfl := some.inj hmode
      have hkept : ∀ x ∈ operandExpansions c use op, Kept c use x := by
        intro x hx
        rcases operandExpansions_eq c use hinitial with hnil | hsome
        · rw [hnil] at hx
          cases hx
        · obtain ⟨reg, -, hreg, heq⟩ := hsome
          obtain ⟨indexed, r, hr, hexpansion⟩ := exists_expansion hreg (heq ▸ hx)
          exact kept_of_leaves htree hr hexpansion (hleaves x hx)
      refine ⟨fun targetWrites e s => ?_, hfinal ▸ hconstants, fun d hd r _ hread => ?_⟩
      · refine ModEq.trans ?_ (modeAddress_initialMode hinitial _)
        rcases operandExpansions_eq c use hinitial with hnil | hsome
        · rw [hnil]
          exact ModEq.refl _
        · obtain ⟨reg, hbase, hreg, heq⟩ := hsome
          rw [heq] at hkept ⊢
          exact modeAddress_foldl htree targetWrites e s maxDepth hbase hreg hkept
      · rw [foldedInstructions_foldl, hfolded, nil_append] at hd
        obtain ⟨x, hx, hd⟩ := mem_flatMap.mp hd
        exact hkept x hx d hd r hread

end

/-! ## An addition in front of a load -/

def sumLoad (imm : ℤ) : BuilderState 1 :=
  [.build atEnd .ADD none [virtualRegister 1, virtualRegister 0, .integer imm],
    .build atEnd .LOAD none
      [virtualRegister 2, .memory ⟨some ⟨true, none, 1⟩, some 0, none, 1⟩]].foldl
        BuilderState.step (.new 1)

theorem sumLoad_loads (imm : ℤ) (inst : ℕ) (h : ((sumLoad imm).instrs inst).opcode = .LOAD) :
    ((sumLoad imm).instrs inst).targetDesc = none ∧
      ∃ dst addr, ((sumLoad imm).instrs inst).operands = [.register dst, addr] := by
  match inst with
  | 0 | n + 2 => cases h
  | 1 => exact ⟨rfl, _, _, rfl⟩

theorem sumLoad_placed (imm : ℤ) : (sumLoad imm).Placed where
  mem_iff block i := by
    have hblock : (sumLoad imm).blocks 0 = [0, 1] := rfl
    match block, i with
    | 0, 0 => exact ⟨fun _ => rfl, fun _ => mem_cons_self ..⟩
    | 0, 1 => exact ⟨fun _ => rfl, fun _ => mem_cons_of_mem _ (mem_cons_self ..)⟩
    | 0, i + 2 =>
      rw [hblock]
      exact ⟨fun h => absurd h (by simp), nofun⟩
  nodup block := by
    match block with
    | 0 => exact (by decide : [0, 1].Nodup)
  fresh i hi := by
    match i with
    | 0 => exact absurd hi (by change ¬(2 ≤ 0); decide)
    | 1 => exact absurd hi (by change ¬(2 ≤ 1); decide)
    | i + 2 => rfl

def sumLoadContext (imm : ℤ) : SelectorContext 1 :=
  ⟨sumLoad imm, sumLoad_placed imm, [], fun _ _ => some "i64", sumLoad_loads imm⟩

def sumAddress : MirOperand := .memory ⟨some ⟨true, none, 1⟩, some 0, none, 1⟩

theorem sumLoad_inTree {imm : ℤ} (h : InTree (sumLoadContext imm) sumAddress r) :
    r = ⟨true, none, 1⟩ ∨ r = ⟨true, none, 0⟩ := by
  induction h with
  | root h =>
    rcases h with h | h
    · cases h
    · exact .inl (mem_singleton.mp h)
  | @operand r r' d _ hd hread ih =>
    refine .inr ?_
    rcases ih with rfl | rfl
    · obtain rfl : 0 = d := some.inj hd
      rcases hread with hread | hread
      · exact (some.inj hread).symm
      · cases hread
    · cases hd

theorem sumLoad_computedTree (imm : ℤ) : ComputedTree (sumLoadContext imm) 1 sumAddress where
  single r d hr hd i hi := by
    rcases sumLoad_inTree hr with rfl | rfl
    · obtain rfl : 0 = d := some.inj hd
      have hmem : i ∈ [0, 1] := hi
      have hi : i = 0 ∨ i = 1 := by simpa using hmem
      rcases hi with rfl | rfl
      · exact ⟨fun _ => rfl, fun _ => ⟨⟨true, none, 1⟩, mem_cons_self .., rfl⟩⟩
      · refine ⟨fun h => ?_, nofun⟩
        obtain ⟨r, hr, heq⟩ := h
        obtain rfl : r = ⟨true, none, 2⟩ := mem_singleton.mp hr
        cases heq
    · cases hd
  ordered r d r' d' hr hd hread hd' := by
    rcases sumLoad_inTree hr with rfl | rfl
    · obtain rfl : 0 = d := some.inj hd
      rcases hread with hread | hread
      · obtain rfl : ⟨true, none, 0⟩ = r' := some.inj hread
        cases hd'
      · cases hread
    · cases hd

theorem addressMatchingSound_sumLoad : AddressMatchingSound (sumLoadContext 8) 1 32 sumAddress := by
  refine (addressMatchingSound_iff (sumLoadContext 8) 1 32 sumAddress
    (sumLoad_computedTree 8)).mpr ⟨?_, ?_⟩
  · exact (by decide : FitsSigned 32 (0 + (8 + 0) : BitVec 64))
  · intro x hx d hd r hread hleaf i hi hdefines
    obtain rfl : x = ⟨[0], some ⟨true, none, 0⟩, none, 8⟩ := mem_singleton.mp hx
    obtain rfl := mem_singleton.mp hd
    obtain rfl : i = 0 := mem_singleton.mp hi
    obtain ⟨r', hr', heq⟩ := hdefines
    obtain rfl : r' = ⟨true, none, 1⟩ := mem_singleton.mp hr'
    rcases hread with hread | hread
    · obtain rfl : ⟨true, none, 0⟩ = r := some.inj hread
      cases heq
    · cases hread

/-- The displacement of 2 ^ 32 is not one of 32 bits. -/
theorem sumLoad_not_sound : ¬AddressMatchingSound (sumLoadContext (2 ^ 32)) 1 32 sumAddress := by
  intro h
  have hfits := (h ⟨some ⟨true, none, 0⟩, 2 ^ 32, none, 1, [0]⟩ rfl).fits
  exact absurd hfits (by decide)

end EzPacker.Selection
