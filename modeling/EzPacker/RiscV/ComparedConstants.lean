import EzPacker.RiscV.ConstantSelection

/-!
# Comparisons with constants

The selected code compares the registers as the predicate says, and the constant is in the right
register when it is an immediate of the I format.
-/

namespace EzPacker.RiscV

open BitVec Option

open Mir (MirInstructionOpCode)

/-! ## Comparing registers -/

/-- The instructions end with the number in the destination. -/
def Leaves (alloc : Allocation) (insts : List SelectedInstruction) (regs : Registers)
    (value : BitVec 64) : Prop :=
  ∃ fs regs', List.Forall₂ (Does alloc) insts fs ∧
    fs.foldlM (fun regs f => f regs) regs = some regs' ∧ regs'.read (alloc.number .dst) = value

variable {alloc : Allocation} {insts : List SelectedInstruction} {regs : Registers}
  {value : BitVec 64} {f : Registers → Option Registers} {opcode : MirInstructionOpCode}

theorem Leaves.run (h : Leaves alloc insts regs value) :
    ∃ regs', runSelected alloc insts regs = some regs' ∧
      regs'.read (alloc.number .dst) = value := by
  obtain ⟨fs, regs', hdoes, hrun, hread⟩ := h
  exact ⟨regs', (runSelected_of_does hdoes regs).trans hrun, hread⟩

theorem leaves_one {inst : SelectedInstruction} (h : Does alloc inst f)
    (hf : f regs = some (regs.write (alloc.number .dst) value)) :
    Leaves alloc [inst] regs value := by
  refine ⟨[f], regs.write (alloc.number .dst) value, .cons h .nil, ?_,
    Registers.read_write_self _ alloc.dst_ne _⟩
  rw [List.foldlM_cons, hf]
  rfl

theorem Leaves.cons {inst : SelectedInstruction} {regs' : Registers}
    (hrest : Leaves alloc insts regs' value) (h : Does alloc inst f) (hf : f regs = some regs') :
    Leaves alloc (inst :: insts) regs value := by
  obtain ⟨fs, last, hdoes, hrun, hread⟩ := hrest
  refine ⟨f :: fs, last, .cons h hdoes, ?_, hread⟩
  rw [List.foldlM_cons, hf]
  exact hrun

theorem leaves_two {first second : SelectedInstruction} {g : Registers → Option Registers}
    {between : BitVec 64} (hfirst : Does alloc first f)
    (hf : f regs = some (regs.write (alloc.number .tmp) between)) (hsecond : Does alloc second g)
      (hg : ∀ regs', regs'.read (alloc.number .tmp) = between → g regs' = some (regs'.write
      (alloc.number .dst) value)) : Leaves alloc [first, second] regs value := by
  have hread := Registers.read_write_self regs alloc.tmp_ne between
  exact (leaves_one hsecond (hg _ hread)).cons hfirst hf

/-- What the code compares: equality looks at the low 32 bits where the operands have no more. -/
def comparedRegisters (opcode : MirInstructionOpCode) (is64 : Bool) (x y : BitVec 64) :
    Option Bool :=
  if (opcode = .CMP_EQ ∨ opcode = .CMP_NE) ∧ is64 = false then
    Mir.compare opcode (x.setWidth 32) (y.setWidth 32)
  else Mir.compare opcode x y

theorem flag_injective : Function.Injective flag := by
  decide

theorem flag_xor_one (b : Bool) : flag b ^^^ ((1 : BitVec 64).setWidth 12).signExtend 64 =
    flag (!b) := by
  cases b <;> decide

theorem ult_one (x : BitVec 64) : x.ult (((1 : BitVec 64).setWidth 12).signExtend 64) =
    decide (x = 0) := by
  have hone : (((1 : BitVec 64).setWidth 12).signExtend 64).toNat = 1 := by decide
  rw [ult_eq_decide, hone, decide_eq_decide, ← toNat_inj]
  exact Nat.lt_one_iff

theorem zero_ult (x : BitVec 64) : (0 : BitVec 64).ult x = decide (x ≠ 0) := by
  have hzero : (0 : BitVec 64).toNat = 0 := by decide
  rw [ult_eq_decide, hzero, decide_eq_decide, ne_eq, ← toNat_inj]
  exact Nat.pos_iff_ne_zero

theorem sub_eq_zero_iff (x y : BitVec 64) : x - y = 0 ↔ x = y := by
  rw [sub_eq_iff_eq_add]
  exact ⟨fun h => h.trans (BitVec.zero_add y), fun h => h.trans (BitVec.zero_add y).symm⟩

section

variable {alloc : Allocation} {regs : Registers}

theorem leaves_complement {a b : SelectedRegister} {funct3 : BitVec 8} {p : Bool}
    (h : op 0 (funct3.setWidth 3) (regs.read (alloc.number a)) (regs.read (alloc.number b)) =
      some (flag p)) :
    Leaves alloc [⟨opRow 0x33 funct3 0x00, [tmp, .Register a, .Register b]⟩,
      ⟨XORI64ri, [dst, tmp, .Integer 1]⟩] regs (flag (!p)) := by
  refine leaves_two (does_op alloc .tmp a b funct3 0x00) (congrArg (Option.map _) h)
    (does_opImm alloc .dst .tmp 1 0x4) fun regs' hread => ?_
  rw [hread, ← flag_xor_one]
  rfl

variable {inst : SelectedInstruction} {f : Registers → Option Registers}
  {difference : BitVec 64} {P : Prop} [Decidable P]

section

variable (h : Does alloc inst f) (hf : f regs = some (regs.write (alloc.number .tmp) difference))
  (hP : difference = 0 ↔ P)
include h hf hP

theorem leaves_equal : Leaves alloc [inst, ⟨SLTIU64ri, [dst, tmp, .Integer 1]⟩] regs (flag P) := by
  refine leaves_two h hf (does_opImm alloc .dst .tmp 1 0x3) fun regs' hread => ?_
  rw [hread, ← decide_eq_decide.mpr hP, ← ult_one]
  rfl

theorem leaves_different :
    Leaves alloc [inst, ⟨SLTU64rr, [dst, zeroReg, tmp]⟩] regs (flag (¬P)) := by
  refine leaves_two h hf (does_op alloc .dst .zeroReg .tmp 0x3 0x00) fun regs' hread => ?_
  rw [hread, alloc.zeroReg_eq, Registers.read_zero, ← decide_eq_decide.mpr (not_congr hP),
    ← zero_ult]
  rfl

end

end

theorem narrow_sub_eq_zero_iff (x y : BitVec 64) :
    ((x - y).setWidth 32).signExtend 64 = 0 ↔ x.setWidth 32 = y.setWidth 32 := by
  have hzero : (0 : BitVec 64) = (0 : BitVec 32).signExtend 64 := by decide
  have hsub : (x - y).setWidth 32 = x.setWidth 32 - y.setWidth 32 := by
    apply eq_of_toNat_eq
    have hy := y.isLt
    simp only [toNat_setWidth, toNat_sub]
    omega
  constructor
  · intro h
    rw [hzero] at h
    have hnarrow := congrArg (setWidth 32) h
    rw [setWidth_signExtend_of_le (by decide), setWidth_signExtend_of_le (by decide), hsub,
      sub_eq_iff_eq_add] at hnarrow
    exact hnarrow.trans (BitVec.zero_add _)
  · intro h
    rw [hsub, h, BitVec.sub_self]
    decide

theorem leaves_selectCompare {is64 : Bool} {r : SelectedRegister}
    (h : selectCompare opcode is64 (.Register r) = some insts) (alloc : Allocation)
    (regs : Registers) : ∃ b, comparedRegisters opcode is64 (regs.read (alloc.number .lhs))
        (regs.read (alloc.number r)) = some b ∧ Leaves alloc insts regs (flag b) := by
  unfold selectCompare at h
  cases opcode <;> cases h
  case CMP_SLT.refl => exact ⟨_, rfl, leaves_one (does_op alloc .dst .lhs r 0x2 0x00) rfl⟩
  case CMP_ULT.refl => exact ⟨_, rfl, leaves_one (does_op alloc .dst .lhs r 0x3 0x00) rfl⟩
  case CMP_SGT.refl => exact ⟨_, rfl, leaves_one (does_op alloc .dst r .lhs 0x2 0x00) rfl⟩
  case CMP_UGT.refl => exact ⟨_, rfl, leaves_one (does_op alloc .dst r .lhs 0x3 0x00) rfl⟩
  case CMP_EQ.refl =>
      cases is64 with
      | true =>
        exact ⟨_, rfl, leaves_equal (does_op alloc .tmp .lhs r 0x0 0x20) rfl (sub_eq_zero_iff _ _)⟩
      | false =>
        exact ⟨_, rfl, leaves_equal (does_op32 alloc .tmp .lhs r 0x0 0x20) rfl
          (narrow_sub_eq_zero_iff _ _)⟩
  case CMP_NE.refl =>
      cases is64 with
      | true =>
        exact ⟨_, rfl, leaves_different (does_op alloc .tmp .lhs r 0x0 0x20) rfl
          (sub_eq_zero_iff _ _)⟩
      | false =>
        exact ⟨_, rfl, leaves_different (does_op32 alloc .tmp .lhs r 0x0 0x20) rfl
          (narrow_sub_eq_zero_iff _ _)⟩
  case CMP_SLE.refl =>
      refine ⟨_, rfl, ?_⟩
      rw [sle_eq_not_slt]
      exact leaves_complement rfl
  case CMP_SGE.refl =>
      refine ⟨_, rfl, ?_⟩
      rw [sle_eq_not_slt]
      exact leaves_complement rfl
  case CMP_ULE.refl =>
      refine ⟨_, rfl, ?_⟩
      rw [ule_eq_not_ult]
      exact leaves_complement rfl
  case CMP_UGE.refl =>
      refine ⟨_, rfl, ?_⟩
      rw [ule_eq_not_ult]
      exact leaves_complement rfl

/-- The constant is compared as an immediate of 12 bits. -/
theorem leaves_selectCMP {is64 : Bool} (h : selectCMP opcode is64 (.Integer value) = some insts)
    (alloc : Allocation) (regs : Registers) :
    ∃ b, comparedRegisters opcode is64 (regs.read (alloc.number .lhs))
        ((value.setWidth 12).signExtend 64) = some b ∧ Leaves alloc insts regs (flag b) := by
  unfold selectCMP at h
  dsimp only at h
  split_ifs at h with hslt hult
  · cases h
    rw [hslt.1]
    exact ⟨_, rfl, leaves_one (does_opImm alloc .dst .lhs value 0x2) rfl⟩
  · cases h
    rw [hult.1]
    exact ⟨_, rfl, leaves_one (does_opImm alloc .dst .lhs value 0x3) rfl⟩
  · obtain ⟨rest, hrest, rfl⟩ := map_eq_some_iff.mp h
    have hadd : opImm ((0x0 : BitVec 8).setWidth 3) (regs.read (alloc.number .zeroReg))
        ((value.setWidth 12).signExtend 64) = some ((value.setWidth 12).signExtend 64) := by
      rw [alloc.zeroReg_eq, Registers.read_zero]
      exact congrArg some (BitVec.zero_add _)
    obtain ⟨b, hb, hleaves⟩ := leaves_selectCompare hrest alloc
      (regs.write (alloc.number .tmpRhs) ((value.setWidth 12).signExtend 64))
    rw [Registers.read_write_self _ alloc.tmpRhs_ne,
      Registers.read_write_of_ne _ alloc.tmpRhs_ne_lhs] at hb
    exact ⟨b, hb, hleaves.cons (does_opImm alloc .tmpRhs .zeroReg value 0x0)
      (congrArg (Option.map _) hadd)⟩

/-! ## Comparing at the type -/

/-- Every register that holds the left side at its type compares with the constant as the
predicate says. -/
def ComparesExactly (w : ℕ) (opcode : MirInstructionOpCode) (value : BitVec 64) : Prop :=
  ∀ insts, selectCMP opcode (w = 64) (.Integer value) = some insts →
    ∀ (alloc : Allocation) (regs : Registers) (left : BitVec w),
      regs.read (alloc.number .lhs) = left.signExtend 64 →
      ∃ regs', runSelected alloc insts regs = some regs' ∧
        (Mir.compare opcode left (value.setWidth w)).map flag =
          some (regs'.read (alloc.number .dst))

theorem toNat_signExtend_thirtyTwo (x : BitVec 32) : (x.signExtend 64).toNat =
      if x.toNat < 2 ^ 31 then x.toNat else x.toNat + (2 ^ 64 - 2 ^ 32) := by
  have hwide : (x.signExtend 64).toInt = x.toInt := toInt_signExtend_of_le (by decide)
  have hlt := x.isLt
  rw [toInt_eq_toNat_cond, toInt_eq_toNat_cond] at hwide
  split <;> omega

theorem signExtend_inj (x y : BitVec 32) : x.signExtend 64 = y.signExtend 64 ↔ x = y := by
  constructor
  · intro h
    have hnarrow := congrArg (setWidth 32) h
    rwa [setWidth_signExtend_of_le (by decide), setWidth_signExtend_of_le (by decide)] at hnarrow
  · exact congrArg _

theorem slt_signExtend (x y : BitVec 32) : (x.signExtend 64).slt (y.signExtend 64) = x.slt y := by
  rw [slt_eq_decide, slt_eq_decide, toInt_signExtend_of_le (by decide),
    toInt_signExtend_of_le (by decide)]

theorem ult_signExtend (x y : BitVec 32) : (x.signExtend 64).ult (y.signExtend 64) = x.ult y := by
  have hx := x.isLt
  have hy := y.isLt
  rw [ult_eq_decide, ult_eq_decide, decide_eq_decide, toNat_signExtend_thirtyTwo,
    toNat_signExtend_thirtyTwo]
  split <;> split <;> omega

theorem compare_signExtend (opcode : MirInstructionOpCode) (x y : BitVec 32) :
    Mir.compare opcode (x.signExtend 64) (y.signExtend 64) = Mir.compare opcode x y := by
  unfold Mir.compare
  simp only [sle_eq_not_slt, ule_eq_not_ult, slt_signExtend, ult_signExtend, ne_eq, signExtend_inj]

theorem comparedRegisters_signExtend {w : ℕ} (hw : w = 32 ∨ w = 64)
    (opcode : MirInstructionOpCode) (x y : BitVec w) :
    comparedRegisters opcode (w = 64) (x.signExtend 64) (y.signExtend 64) =
      Mir.compare opcode x y := by
  unfold comparedRegisters
  rcases hw with rfl | rfl
  · split
    · rw [setWidth_signExtend_of_le (by decide), setWidth_signExtend_of_le (by decide)]
    · exact compare_signExtend opcode x y
  · rw [if_neg (fun h => nomatch h.2), signExtend_eq, signExtend_eq]

/-- A predicate tells two numbers apart. -/
theorem compare_right_injective {w : ℕ} {x y : BitVec w} (hcompare : Mir.compare opcode x x ≠ none)
    (h : ∀ left : BitVec w, Mir.compare opcode left x = Mir.compare opcode left y) : x = y := by
  have hx := h x
  have hy := h y
  clear h
  have hle : ∀ {a b : BitVec w}, a.toNat ≤ b.toNat → b.toNat ≤ a.toNat → a = b :=
    fun h h' => eq_of_toNat_eq (Nat.le_antisymm h h')
  have hsle : ∀ {a b : BitVec w}, a.toInt ≤ b.toInt → b.toInt ≤ a.toInt → a = b :=
    fun h h' => eq_of_toInt_eq (Int.le_antisymm h h')
  cases opcode <;> try exact absurd rfl hcompare
  all_goals
    simp only [Mir.compare, some.injEq, slt_eq_decide, sle_eq_decide,
      ult_eq_decide, ule_eq_decide, decide_eq_decide] at hx hy
  case CMP_EQ => exact hx.mp trivial
  case CMP_NE => exact not_not.mp (mt hx.mpr (not_not.mpr rfl))
  case CMP_SLT => exact hsle (by omega) (by omega)
  case CMP_SLE => exact hsle (by omega) (by omega)
  case CMP_SGT => exact hsle (by omega) (by omega)
  case CMP_SGE => exact hsle (by omega) (by omega)
  case CMP_ULT => exact hle (by omega) (by omega)
  case CMP_ULE => exact hle (by omega) (by omega)
  case CMP_UGT => exact hle (by omega) (by omega)
  case CMP_UGE => exact hle (by omega) (by omega)

def predicates : List MirInstructionOpCode :=
  [.CMP_EQ, .CMP_NE, .CMP_SLT, .CMP_SLE, .CMP_SGT, .CMP_SGE, .CMP_ULT, .CMP_ULE, .CMP_UGT, .CMP_UGE]

theorem compare_ne_none (h : opcode ∈ predicates) {w : ℕ} (x y : BitVec w) :
    Mir.compare opcode x y ≠ none := by
  unfold predicates at h
  fin_cases h <;> exact some_ne_none _

theorem exists_selectCMP (h : opcode ∈ predicates) (is64 : Bool) (value : BitVec 64) :
    ∃ insts, selectCMP opcode is64 (.Integer value) = some insts := by
  unfold selectCMP
  dsimp only
  split_ifs
  · exact ⟨_, rfl⟩
  · exact ⟨_, rfl⟩
  · unfold predicates at h
    fin_cases h <;> exact ⟨_, rfl⟩

/-- The comparison takes the constant as it is when it is an immediate of 12 bits. -/
theorem comparesExactly_iff {w : ℕ} (hw : w = 32 ∨ w = 64) (hopcode : opcode ∈ predicates)
    (value : BitVec 64) : ComparesExactly w opcode value ↔ FitsSigned 12 (value.setWidth w) := by
  have hle : 12 ≤ w := by omega
  have hlow : (value.setWidth w).setWidth 12 = value.setWidth 12 :=
    setWidth_setWidth_of_le value hle
  have hconstant : (value.setWidth 12).signExtend 64 =
      ((value.setWidth 12).signExtend w).signExtend 64 :=
    (signExtend_signExtend (by decide) hle _).symm
  rw [← signExtend_setWidth_iff (by decide) hle, hlow]
  constructor
  · intro h
    obtain ⟨insts, hinsts⟩ := exists_selectCMP hopcode (w = 64) value
    refine compare_right_injective (compare_ne_none hopcode _ _) fun left => ?_
    let alloc : Allocation :=
      ⟨fun | .zeroReg => 0 | .lhs => 1 | _ => 2, rfl, by decide, by decide, by decide, by decide⟩
    have hleft : Registers.read (fun _ => left.signExtend 64) (alloc.number .lhs) =
        left.signExtend 64 := rfl
    obtain ⟨regs', hrun, hresult⟩ := h insts hinsts alloc (fun _ => left.signExtend 64) left hleft
    obtain ⟨b, hb, hleaves⟩ := leaves_selectCMP hinsts alloc fun _ => left.signExtend 64
    rw [hleft, hconstant, comparedRegisters_signExtend hw] at hb
    obtain ⟨regs'', hrun', hread⟩ := hleaves.run
    rw [hrun] at hrun'
    cases hrun'
    rw [hread] at hresult
    obtain ⟨b', hb', hflag⟩ := map_eq_some_iff.mp hresult
    rw [hb, hb', flag_injective hflag]
  · intro h insts hinsts alloc regs left hleft
    obtain ⟨b, hb, hleaves⟩ := leaves_selectCMP hinsts alloc regs
    rw [hleft, hconstant, comparedRegisters_signExtend hw, h] at hb
    obtain ⟨regs', hrun, hread⟩ := hleaves.run
    refine ⟨regs', hrun, ?_⟩
    rw [hb, hread]
    rfl

/-! ## Moves and comparisons -/

/-- For the legal types of a move and of a comparison. -/
theorem constants_exact_iff (value : BitVec 64) : Materialises 8 value ∧ (Materialises 16 value ↔
        0 ≤ roundedValue value ∨
          (16 : ℤ) ∣ roundedValue value / 4096 - roundedValue value / 2 ^ 24) ∧
      (Materialises 32 value ↔
        -6144 ≤ (value.setWidth 32).toInt ∧ (value.setWidth 32).toInt < 2 ^ 31 - 2048) ∧
      (Materialises 64 value ↔ -6144 ≤ value.toInt ∧ value.toInt < 2 ^ 31 - 2048) ∧
      ∀ w ∈ [32, 64], ∀ opcode ∈ predicates,
        ComparesExactly w opcode value ↔ FitsSigned 12 (value.setWidth w) := by
  refine ⟨materialises_eight value, materialises_sixteen_iff value,
    materialises_thirtyTwo_iff value, materialises_sixtyFour_iff value, ?_⟩
  intro w hw opcode hopcode
  exact comparesExactly_iff (by simpa using hw) hopcode value

theorem constants_exact_small : Materialises 64 1000000 ∧ ComparesExactly 32 .CMP_SLE 7 :=
  ⟨(constants_exact_iff 1000000).2.2.2.1.mpr (by decide),
    ((constants_exact_iff 7).2.2.2.2 32 (by decide) .CMP_SLE (by decide)).mpr (by decide)⟩

/-- A move of a number below the immediates, and a comparison with one above them. -/
theorem constants_not_exact : ¬ Materialises 64 (-10000) ∧ ¬ ComparesExactly 64 .CMP_EQ 4096 := by
  constructor
  · rw [materialises_sixtyFour_iff]
    decide
  · rw [comparesExactly_iff (.inr rfl) (by decide)]
    decide

end EzPacker.RiscV
