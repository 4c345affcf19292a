import EzPacker.Lib.SignExtension
import EzPacker.X86.SelectedCode

/-!
# Comparisons

A comparison clears its destination, compares, and sets the low byte of the destination. A constant
of more than 32 bits goes through a register of its own, which nothing keeps apart from the cleared
destination.
-/

namespace EzPacker.X86

open SelectedInst Option List Mir RegAlloc KeyedSet
open Peephole (CPUFlag fillLow)

def setccOp : MirInstructionOpCode → Option Row
  | .CMP_EQ => some .SETE
  | .CMP_NE => some .SETNE
  | .CMP_SLT => some .SETL
  | .CMP_SLE => some .SETLE
  | .CMP_SGT => some .SETG
  | .CMP_SGE => some .SETGE
  | .CMP_ULT => some .SETB
  | .CMP_ULE => some .SETBE
  | .CMP_UGT => some .SETA
  | .CMP_UGE => some .SETAE
  | _ => none

/-- The constant needs a register of its own. -/
def isWide (is64 : Bool) : MirOperand → Bool
  | .integer value => is64 && decide ((getI64 value).toInt < -2147483648 ∨
      (getI64 value).toInt > 2147483647)
  | _ => false

def imm64 (fresh : ℕ) : MirRegisterRef := ⟨true, some GPR64, fresh⟩

def selectCompare (is64 : Bool) (fresh : ℕ) (lhs : MirRegisterRef) (rhs : MirOperand) :
    Option (List SelectedInst) :=
  match rhs with
  | .integer _ =>
    if isWide is64 rhs then
      some [⟨.MOV64ri, [.register (imm64 fresh), rhs]⟩,
        ⟨.CMP64rr, [.register lhs, .register (imm64 fresh)]⟩]
    else some [⟨if is64 then .CMP64ri else .CMP32ri, [.register lhs, rhs]⟩]
  | .register _ => some [⟨if is64 then .CMP64rr else .CMP32rr, [.register lhs, rhs]⟩]
  | _ => none

/-- `fresh` is the number of the register that is built for a wide constant. -/
def buildCMP (opcode : MirInstructionOpCode) (is64 : Bool) (fresh : ℕ) (dst lhs : MirRegisterRef)
    (rhs : MirOperand) : Option (List SelectedInst) :=
  (selectCompare is64 fresh lhs rhs).bind fun compared =>
    (setccOp opcode).map fun setcc =>
      ⟨.MOV32ri, [.register dst, .integer 0]⟩ :: compared ++ [⟨setcc, [.register dst]⟩]

def selectCMP (opcode : MirInstructionOpCode) (is64 : Bool) (fresh : ℕ) (dst lhs : MirRegisterRef)
    (rhs : MirOperand) : Option (List SelectedInst) :=
  buildCMP opcode is64 fresh (setClass GPR32 dst) (setClass (gprClass is64) lhs)
    (setOperandClass (gprClass is64) rhs)

/-! ## Flags and conditions -/

variable {w : ℕ} {opcode : MirInstructionOpCode}

theorem compareFlags_ZF (x y : BitVec w) : compareFlags x y .ZF = decide (x = y) := by
  show decide (x - y = 0) = decide (x = y)
  rw [decide_eq_decide, BitVec.sub_eq_iff_eq_add]
  exact ⟨fun h => h.trans (BitVec.zero_add y), fun h => h.trans (BitVec.zero_add y).symm⟩

theorem compareFlags_CF (x y : BitVec w) : compareFlags x y .CF = x.ult y := rfl

theorem bne_decide (P Q R : Prop) [Decidable P] [Decidable Q] [Decidable R] :
    (decide P != decide Q) = decide R ↔ ((P ↔ Q) ↔ ¬ R) := by
  by_cases P <;> by_cases Q <;> by_cases R <;> simp_all

/-- The sign of the difference is that of the comparison unless it overflows. -/
theorem compareFlags_sign (hw : w = 32 ∨ w = 64) (x y : BitVec w) :
    (compareFlags x y .SF != compareFlags x y .OF) = x.slt y := by
  show ((x - y).msb != x.ssubOverflow y) = x.slt y
  have hx := BitVec.toInt_lt (x := x)
  have hx' := BitVec.le_toInt x
  have hy := BitVec.toInt_lt (x := y)
  have hy' := BitVec.le_toInt y
  have hoverflow : x.ssubOverflow y = decide (x.toInt - y.toInt ≥ 2 ^ (w - 1) ∨
      x.toInt - y.toInt < -2 ^ (w - 1)) := by
    rw [BitVec.ssubOverflow, Bool.decide_or]
  rw [BitVec.msb_eq_toInt, hoverflow, BitVec.slt_eq_decide, bne_decide, BitVec.toInt_sub,
    Int.bmod_def]
  rcases hw with rfl | rfl
  · omega
  · omega

theorem compareFlags_sign_eq (hw : w = 32 ∨ w = 64) (x y : BitVec w) :
    (compareFlags x y .SF == compareFlags x y .OF) = y.sle x := by
  rw [BitVec.sle_eq_not_slt, ← compareFlags_sign hw]
  cases compareFlags x y .SF <;> cases compareFlags x y .OF <;> rfl

theorem ule_eq_ult_or_eq (x y : BitVec w) : x.ule y = (x.ult y || decide (x = y)) := by
  rw [BitVec.ule_eq_decide, BitVec.ult_eq_decide, ← Bool.decide_or, decide_eq_decide,
    ← BitVec.toNat_inj]
  omega

theorem sle_eq_slt_or_eq (x y : BitVec w) : x.sle y = (decide (x = y) || x.slt y) := by
  rw [BitVec.sle_eq_decide, BitVec.slt_eq_decide, ← Bool.decide_or, decide_eq_decide,
    ← BitVec.toInt_inj]
  omega

theorem condition_compareFlags (hw : w = 32 ∨ w = 64) {row : Row} (h : setccOp opcode = some row)
    (x y : BitVec w) : Mir.compare opcode x y = some (row.condition (compareFlags x y)) := by
  cases opcode <;> cases h
  case CMP_EQ.refl => rw [Row.condition, compareFlags_ZF]; rfl
  case CMP_NE.refl => rw [Row.condition, compareFlags_ZF, ← decide_not]; rfl
  case CMP_SLT.refl => rw [Row.condition, compareFlags_sign hw]; rfl
  case CMP_SLE.refl =>
      rw [Row.condition, compareFlags_sign hw, compareFlags_ZF, ← sle_eq_slt_or_eq]
      rfl
  case CMP_SGT.refl =>
      rw [Row.condition, compareFlags_sign_eq hw, compareFlags_ZF, BitVec.sle_eq_not_slt,
        ← Bool.not_or, ← sle_eq_slt_or_eq, BitVec.sle_eq_not_slt, Bool.not_not]
      rfl
  case CMP_SGE.refl => rw [Row.condition, compareFlags_sign_eq hw]; rfl
  case CMP_ULT.refl => rfl
  case CMP_ULE.refl =>
      rw [Row.condition, compareFlags_CF, compareFlags_ZF, ← ule_eq_ult_or_eq]
      rfl
  case CMP_UGT.refl =>
      rw [Row.condition, compareFlags_CF, compareFlags_ZF, ← Bool.not_or, ← ule_eq_ult_or_eq,
        BitVec.ule_eq_not_ult, Bool.not_not]
      rfl
  case CMP_UGE.refl => rw [Row.condition, compareFlags_CF, ← BitVec.ule_eq_not_ult]; rfl

/-! ## The sequence -/

section

variable {number : RegKey → ℕ}

theorem execute_setcc {row : Row} (h : setccOp opcode = some row) (dst : MirRegisterRef)
    (s : Machine) : SelectedInst.execute number ⟨row, [.register dst]⟩ s =
      some (s.write 8 (numberOf number dst) (if row.condition s.flags then 1 else 0)) := by
  cases opcode <;> cases h <;> rfl

def flag (b : Bool) : BitVec 64 := if b then 1 else 0

theorem fillLow_zero_flag (b : Bool) : fillLow 8 0 (flag b) = flag b := by
  cases b <;> decide

theorem fillLow_ushiftRight (v x : BitVec 64) : fillLow 8 v x >>> 8 = v >>> 8 := by
  have hmask : BitVec.allOnes 64 >>> (64 - 8) = 0xFF#64 := by decide
  unfold fillLow
  dsimp only
  rw [hmask]
  apply BitVec.eq_of_getLsbD_eq
  intro i hi
  have hhigh : (0xFF#64).getLsbD (8 + i) = false := by
    refine Nat.testBit_lt_two_pow (Nat.lt_of_lt_of_le (show 255 < 2 ^ 8 by decide) ?_)
    exact Nat.pow_le_pow_right (by decide) (Nat.le_add_right 8 i)
  simp only [BitVec.getLsbD_ushiftRight, BitVec.getLsbD_or, BitVec.getLsbD_and, BitVec.getLsbD_not,
    hhigh, Bool.and_false, Bool.or_false, Bool.not_false, Bool.and_true]
  by_cases hlt : 8 + i < 64
  · simp [hlt]
  · simp [hlt, BitVec.getLsbD_of_ge v (8 + i) (Nat.le_of_not_lt hlt)]

/-- A register that holds a wide number is no flag when its low byte is set. -/
theorem fillLow_wide {v : BitVec 64} (h : v.toInt < -2147483648 ∨ v.toInt > 2147483647)
    (x : BitVec 64) (b : Bool) : fillLow 8 v x ≠ flag b := by
  intro heq
  have hflag : flag b >>> 8 = 0 := by cases b <;> decide
  have hshift := fillLow_ushiftRight v x
  rw [heq, hflag, ← BitVec.toNat_inj, BitVec.toNat_ushiftRight, Nat.shiftRight_eq_div_pow] at hshift
  have hnat : (0 : BitVec 64).toNat = 0 := rfl
  have hint := BitVec.toInt_eq_toNat_cond v
  omega

/-- The whole destination is one when the predicate holds for the operands at their width, and zero
otherwise. -/
def LeavesFlag (number : RegKey → ℕ) (opcode : MirInstructionOpCode) (is64 : Bool)
    (dst lhs : MirRegisterRef) (rhs : MirOperand) (insts : List SelectedInst) : Prop :=
  ∀ s, ∃ s', runSelected number insts s = some s' ∧
    (Mir.compare opcode ((s.regs (numberOf number lhs)).setWidth (operandBits is64))
        ((operandValue number s rhs).setWidth (operandBits is64))).map flag =
      some (s'.regs (numberOf number dst))

variable {dst lhs : MirRegisterRef} {is64 : Bool} {rhs : MirOperand}

theorem runSelected_around {row : Row} (hw : w = 32 ∨ w = 64) (hrow : setccOp opcode = some row)
    {compared : List SelectedInst} {s s' : Machine} {x y : BitVec w}
    (hcompared : runSelected number compared (s.write 32 (numberOf number dst) 0) = some s')
    (hflags : s'.flags = compareFlags x y) : ∃ last, runSelected number
        (⟨.MOV32ri, [.register dst, .integer 0]⟩ :: compared ++ [⟨row, [.register dst]⟩]) s =
          some last ∧
      ∃ b, Mir.compare opcode x y = some b ∧
        last.regs (numberOf number dst) = fillLow 8 (s'.regs (numberOf number dst)) (flag b) := by
  refine ⟨s'.write 8 (numberOf number dst) (if row.condition s'.flags then 1 else 0), ?_,
    row.condition (compareFlags x y), condition_compareFlags hw hrow x y, ?_⟩
  · have hzero : execute number ⟨.MOV32ri, [.register dst, .integer 0]⟩ s =
        some (s.write 32 (numberOf number dst) 0) := rfl
    unfold runSelected at hcompared ⊢
    rw [cons_append, foldlM_cons, hzero, bind_eq_bind, bind_some,
      foldlM_append, hcompared, bind_eq_bind, bind_some, foldlM_cons,
      execute_setcc hrow]
    rfl
  · rw [write_regs_self, if_neg (by decide), if_neg (by decide), hflags]
    rfl

def Machine.compared {w : ℕ} (s : Machine) (x y : BitVec w) : Machine :=
  { s with flags := compareFlags x y }

theorem run_selectCompare {fresh : ℕ} {compared : List SelectedInst}
    (h : selectCompare is64 fresh lhs rhs = some compared) (hwide : isWide is64 rhs = false)
    (s : Machine) : runSelected number compared s =
      some (s.compared ((s.regs (numberOf number lhs)).setWidth (operandBits is64))
        ((operandValue number s rhs).setWidth (operandBits is64))) := by
  unfold selectCompare at h
  split at h
  · next value =>
      rw [if_neg (by rw [hwide]; nofun)] at h
      cases h
      cases is64 with
      | false => rfl
      | true =>
        have hfits : FitsSigned 32 (getI64 value) := by
          simp only [isWide, Bool.true_and, decide_eq_false_iff_not, not_or] at hwide
          constructor <;> omega
        have himm := signExtend_setWidth_of_fits (by decide) (by decide) hfits
        show some (s.compared (s.regs (numberOf number lhs))
          (((getI64 value).setWidth 32).signExtend 64)) = some (s.compared
            ((s.regs (numberOf number lhs)).setWidth 64) ((getI64 value).setWidth 64))
        rw [himm, BitVec.setWidth_eq, BitVec.setWidth_eq]
  · next r =>
      cases h
      cases is64 with
      | false => rfl
      | true =>
        show some (s.compared (s.regs (numberOf number lhs)) (s.regs (numberOf number r))) =
          some (s.compared ((s.regs (numberOf number lhs)).setWidth 64)
            ((s.regs (numberOf number r)).setWidth 64))
        rw [BitVec.setWidth_eq, BitVec.setWidth_eq]
  · cases h

theorem leavesFlag_of_narrow {fresh : ℕ} {insts : List SelectedInst}
    (h : buildCMP opcode is64 fresh dst lhs rhs = some insts) (hwide : isWide is64 rhs = false)
    (hlhs : numberOf number lhs ≠ numberOf number dst)
    (hrhs : ∀ r, rhs = .register r → numberOf number r ≠ numberOf number dst) :
    LeavesFlag number opcode is64 dst lhs rhs insts := by
  obtain ⟨compared, hcompared, hinsts⟩ := bind_eq_some_iff.mp h
  obtain ⟨row, hrow, rfl⟩ := map_eq_some_iff.mp hinsts
  intro s
  have hrun : runSelected number compared (s.write 32 (numberOf number dst) 0) = _ :=
    run_selectCompare hcompared hwide _
  obtain ⟨last, hlast, b, hb, hread⟩ :=
    runSelected_around (operandBits_eq is64) hrow hrun rfl
  refine ⟨last, hlast, ?_⟩
  have hvalue : operandValue number (s.write 32 (numberOf number dst) 0) rhs =
      operandValue number s rhs := by
    cases rhs with
    | register r => exact write_regs_of_ne s 32 (hrhs r rfl) 0
    | _ => rfl
  rw [write_regs_of_ne _ _ hlhs, hvalue] at hb
  rw [hb, hread]
  show some (flag b) =
    some (fillLow 8 ((s.write 32 (numberOf number dst) 0).regs (numberOf number dst)) (flag b))
  rw [write_regs_self, if_neg (by decide), if_pos rfl]
  exact congrArg some (fillLow_zero_flag b).symm

theorem leavesFlag_wide_iff {fresh : ℕ} {insts : List SelectedInst}
    (h : buildCMP opcode is64 fresh dst lhs rhs = some insts) (hwide : isWide is64 rhs = true)
    (hlhs : numberOf number lhs ≠ numberOf number dst)
    (himm : numberOf number lhs ≠ numberOf number (imm64 fresh)) :
    LeavesFlag number opcode is64 dst lhs rhs insts ↔
      numberOf number (imm64 fresh) ≠ numberOf number dst := by
  obtain ⟨compared, hcompared, hinsts⟩ := bind_eq_some_iff.mp h
  obtain ⟨row, hrow, rfl⟩ := map_eq_some_iff.mp hinsts
  unfold selectCompare at hcompared
  cases rhs with
  | integer value =>
    dsimp only at hcompared
    rw [if_pos hwide] at hcompared
    cases hcompared
    have h64 : is64 = true := by
      simp only [isWide, Bool.and_eq_true] at hwide
      exact hwide.1
    subst h64
    simp only [isWide, Bool.true_and, decide_eq_true_eq] at hwide
    let loaded (s : Machine) : Machine :=
      (s.write 32 (numberOf number dst) 0).write 64 (numberOf number (imm64 fresh)) (getI64 value)
    have haround : ∀ s, ∃ last, runSelected number (⟨.MOV32ri, [.register dst, .integer 0]⟩ ::
        [⟨.MOV64ri, [.register (imm64 fresh), .integer value]⟩,
          ⟨.CMP64rr, [.register lhs, .register (imm64 fresh)]⟩] ++
          [⟨row, [.register dst]⟩]) s = some last ∧
        ∃ b, Mir.compare opcode (s.regs (numberOf number lhs)) (getI64 value) = some b ∧
          last.regs (numberOf number dst) =
            fillLow 8 ((loaded s).regs (numberOf number dst)) (flag b) := by
      intro s
      have hleft : (loaded s).regs (numberOf number lhs) = s.regs (numberOf number lhs) :=
        (write_regs_of_ne _ 64 himm _).trans (write_regs_of_ne s 32 hlhs 0)
      have hright : (loaded s).regs (numberOf number (imm64 fresh)) = getI64 value :=
        write_regs_self _ 64 _ _
      have hrun : runSelected number [⟨.MOV64ri, [.register (imm64 fresh), .integer value]⟩,
          ⟨.CMP64rr, [.register lhs, .register (imm64 fresh)]⟩]
          (s.write 32 (numberOf number dst) 0) =
          some ((loaded s).compared (s.regs (numberOf number lhs)) (getI64 value)) := by
        rw [← hleft, ← hright]
        rfl
      have haround := runSelected_around (.inr rfl) hrow hrun rfl
      exact haround
    constructor
    · intro hleaves heq
      obtain ⟨s', hs', hread⟩ := hleaves ⟨fun _ => 0, fun _ => false⟩
      obtain ⟨last, hlast, b, -, hread'⟩ := haround ⟨fun _ => 0, fun _ => false⟩
      cases hs'.symm.trans hlast
      have hloaded : (loaded ⟨fun _ => 0, fun _ => false⟩).regs (numberOf number dst) =
          getI64 value := by
        rw [← heq]
        exact write_regs_self _ 64 _ _
      obtain ⟨c, -, hc⟩ := map_eq_some_iff.mp hread
      rw [hloaded, ← hc] at hread'
      exact fillLow_wide hwide _ c hread'.symm
    · intro hne s
      obtain ⟨last, hlast, b, hb, hread⟩ := haround s
      refine ⟨last, hlast, ?_⟩
      have hzero : (loaded s).regs (numberOf number dst) = 0 :=
        (write_regs_of_ne _ 64 hne.symm _).trans (write_regs_self s 32 _ 0)
      have hvalue : Mir.compare opcode ((s.regs (numberOf number lhs)).setWidth (operandBits true))
          ((operandValue number s (.integer value)).setWidth (operandBits true)) = some b := by
        show Mir.compare opcode ((s.regs (numberOf number lhs)).setWidth 64)
          ((getI64 value).setWidth 64) = some b
        rw [BitVec.setWidth_eq, BitVec.setWidth_eq, hb]
      rw [hvalue, hread, hzero]
      exact congrArg some (fillLow_zero_flag b).symm
  | _ => cases hwide

end

/-! ## Under an assignment -/

section

variable {cc : Option CallingConvDesc} {f : SelectedFunction} {liveness : LivenessResult f}
  {b : MirBlock} {pre post : List MirInstruction} {opcode : MirInstructionOpCode} {is64 : Bool}
  {fresh : ℕ} {dst lhs : MirRegisterRef} {rhs : MirOperand} {insts compared : List SelectedInst}

/-- The operands are live in front of the comparison, which names them. -/
theorem live_of_selectCompare (h : selectCompare is64 fresh lhs rhs = some compared)
    (hfresh : regKey (imm64 fresh) ≠ regKey lhs) (liveOut : List MirRegisterRef)
    (rest : List MirInstruction) {r : MirRegisterRef} (hr : r = lhs ∨ rhs = .register r) :
    liveAt liveOut (compared.map SelectedInst.mir ++ rest) (regKey r) ∧
      ∃ inst ∈ compared.map SelectedInst.mir, r ∈ instRefs inst := by
  unfold selectCompare at h
  split at h
  · next value =>
      obtain rfl : r = lhs := hr.resolve_right nofun
      split at h
      · cases h
        refine ⟨.inl ⟨.inr (key_mem mem_cons_self), ?_⟩,
          mir ⟨.CMP64rr, [.register r, .register (imm64 fresh)]⟩, ?_,
          mem_cons_self⟩
        · intro hmem
          obtain ⟨a, ha, hkey⟩ := mem_keys.mp hmem
          rw [mem_singleton.mp ha] at hkey
          exact hfresh hkey
        · exact mem_cons_of_mem _ mem_cons_self
      · cases h
        cases is64 with
        | false | true => exact ⟨.inr (key_mem mem_cons_self), _, mem_cons_self,
            mem_cons_self⟩
  · next src =>
      cases h
      have hmem : r ∈ [lhs, src] := by
        rcases hr with rfl | hr
        · exact mem_cons_self
        · cases hr
          exact mem_cons_of_mem _ mem_cons_self
      cases is64 with
      | false | true => exact ⟨.inr (key_mem hmem), _, mem_cons_self, hmem⟩
  · cases h

section

variable (assignment : Assignment f (interferenceGraph cc f liveness)) (hb : b ∈ f.blocks)
  (h : buildCMP opcode is64 fresh dst lhs rhs = some insts)
  (hcode : b.instructions = pre ++ (insts.map SelectedInst.mir ++ post))
include assignment hb h hcode

/-- The destination is not the register of an operand, which is read behind its clearing. -/
theorem apart_of_buildCMP (hfresh : regKey (imm64 fresh) ≠ regKey lhs) {r : MirRegisterRef}
    (hr : r = lhs ∨ rhs = .register r) (hne : regKey dst ≠ regKey r)
    (hdst : dst.regClass.map MirRegisterClass.bank = some 0)
    (hgeneral : r.regClass.map MirRegisterClass.bank = some 0) :
    numberOf assignment.number r ≠ numberOf assignment.number dst := by
  obtain ⟨compared, hcompared, hinsts⟩ := bind_eq_some_iff.mp h
  obtain ⟨row, hrow, rfl⟩ := map_eq_some_iff.mp hinsts
  let last := mir ⟨row, [.register dst]⟩
  have hsplit : b.instructions = pre ++ mir ⟨.MOV32ri, [.register dst, .integer 0]⟩ ::
        (compared.map mir ++ (last :: post)) := by
    rw [hcode, cons_append, map_cons, map_append, cons_append, append_assoc]
    rfl
  obtain ⟨hlive, inst, hinst, href⟩ :=
    live_of_selectCompare hcompared hfresh (liveness.liveOut b.id) (last :: post) hr
  have hbank : bankOf f.banks (regKey r) = some 0 :=
    bankOf_general hb (by rw [hsplit]; simp [hinst]) href hgeneral
  have hfirst : mir ⟨.MOV32ri, [.register dst, .integer 0]⟩ ∈ b.instructions := by
    rw [hsplit]
    simp
  have hbank' : bankOf f.banks (regKey dst) = some 0 :=
    bankOf_general hb hfirst mem_cons_self hdst
  exact (assignment.apart_of_live hb hsplit mem_cons_self hlive hne (hbank'.trans hbank.symm)).symm

/-- A register for a wide constant is not that of the operand it is compared with. -/
theorem apart_imm64 (hwide : isWide is64 rhs = true) (hfresh : regKey (imm64 fresh) ≠ regKey lhs)
    (hgeneral : lhs.regClass.map MirRegisterClass.bank = some 0) :
    numberOf assignment.number lhs ≠ numberOf assignment.number (imm64 fresh) := by
  obtain ⟨compared, hcompared, hinsts⟩ := bind_eq_some_iff.mp h
  obtain ⟨row, hrow, rfl⟩ := map_eq_some_iff.mp hinsts
  cases rhs with
  | integer value =>
    unfold selectCompare at hcompared
    dsimp only at hcompared
    rw [if_pos hwide] at hcompared
    cases hcompared
    let loaded := mir ⟨.MOV64ri, [.register (imm64 fresh), .integer value]⟩
    let compared := mir ⟨.CMP64rr, [.register lhs, .register (imm64 fresh)]⟩
    have hsplit : b.instructions =
        (pre ++ [mir ⟨.MOV32ri, [.register dst, .integer 0]⟩]) ++ loaded ::
          compared :: mir ⟨row, [.register dst]⟩ :: post := by
      rw [hcode, append_assoc]
      rfl
    have hloaded : loaded ∈ b.instructions := by rw [hsplit]; simp
    have hread : compared ∈ b.instructions := by rw [hsplit]; simp
    have hbank : bankOf f.banks (regKey lhs) = some 0 :=
      bankOf_general hb hread mem_cons_self hgeneral
    have hbank' : bankOf f.banks (regKey (imm64 fresh)) = some 0 :=
      bankOf_general hb hloaded mem_cons_self rfl
    exact (assignment.apart_of_live hb hsplit mem_cons_self
      (.inr (key_mem mem_cons_self)) hfresh (hbank'.trans hbank.symm)).symm
  | _ => cases hwide

end

end

/-! ## A constant in the destination's register -/

section

def value64 (id : ℕ) : MirRegisterRef := ⟨true, some GPR64, id⟩

def flag32 : MirRegisterRef := ⟨true, some GPR32, 0⟩

/-- The comparison of a register with `2 ^ 40`. -/
def wideComparison : List SelectedInst :=
  [⟨.MOV32ri, [.register flag32, .integer 0]⟩,
    ⟨.MOV64ri, [.register (imm64 2), .integer 1099511627776]⟩,
    ⟨.CMP64rr, [.register (value64 1), .register (imm64 2)]⟩, ⟨.SETE, [.register flag32]⟩]

theorem wideComparison_general : ∀ inst ∈ wideComparison.map SelectedInst.mir,
    ∀ r ∈ instRefs inst, r.regClass.map MirRegisterClass.bank = some 0 := by decide

def wideFunction : SelectedFunction :=
  generalFunction (wideComparison.map SelectedInst.mir) wideComparison_general

theorem wideLiveness_inBank : ∀ b : ℕ, ∀ r ∈ (fun _ => [flag32] : ℕ → List MirRegisterRef) b,
    InBank wideFunction.banks r := inBank_liveOut rfl (by decide)

def wideLiveness : LivenessResult wideFunction := ⟨fun _ => [flag32], wideLiveness_inBank⟩

def wideGraph : InterferenceGraph := interferenceGraph none wideFunction wideLiveness

theorem wideGraph_apart (id : ℕ) (hid : id = 0 ∨ id = 2) :
    ∀ a b, wideGraph.Adj a b → bankOf wideFunction.banks a = bankOf wideFunction.banks b →
      numbers [0, 1, id] a ≠ numbers [0, 1, id] b := by
  apply apart_of_nodes (interferenceGraph_ok none)
  rcases hid with rfl | rfl
  · decide
  · decide

/-- The assignment of registers to the flag, the value and the constant. -/
def wideAssignment (id : ℕ) (hid : id = 0 ∨ id = 2) : Assignment wideFunction wideGraph :=
  ⟨numbers [0, 1, id], fun _ _ => rfl, wideGraph_apart id hid⟩

theorem wideFunction_code : (MirBlock.mk 0 (wideComparison.map SelectedInst.mir)).instructions =
    [] ++ (wideComparison.map SelectedInst.mir ++ []) := (append_nil _).symm

end

end EzPacker.X86
