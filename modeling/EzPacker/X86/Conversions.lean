import EzPacker.Lib.SignExtension
import EzPacker.X86.SelectedCode

/-!
# Conversions

An extension from 32 to 64 bits is a move of 32 bits, which clears what is above them and is erased
where it moves a register to itself. One of a single bit extends the low byte, and a constant is
moved as it is.
-/

namespace EzPacker.X86

open SelectedInst BitVec Mir RegAlloc
open Peephole (isMoveInstruction fillLow)

/-! ## Selection -/

def classOfBits (bits : ℕ) : MirRegisterClass :=
  if bits ≤ 8 then GPR8 else if bits ≤ 16 then GPR16 else if bits ≤ 32 then GPR32 else GPR64

def selectTRUNC (dstBits : ℕ) (dst : MirRegisterRef) (src : MirOperand) : SelectedInst :=
  let dst := .register (setClass (classOfBits dstBits) dst)
  match src with
  | .integer _ =>
    ⟨if dstBits ≤ 8 then .MOV8ri else if dstBits ≤ 16 then .MOV16ri
      else if dstBits ≤ 32 then .MOV32ri else .MOV64ri, [dst, src]⟩
  | _ =>
    ⟨if dstBits ≤ 8 then .MOV8rr else if dstBits ≤ 16 then .MOV16rr
      else if dstBits ≤ 32 then .MOV32rr else .MOV64rr,
      [dst, setOperandClass (classOfBits dstBits) src]⟩

def moveConstant (dstBits : ℕ) (dst : MirRegisterRef) (src : MirOperand) : SelectedInst :=
  if dstBits = 64 then ⟨.MOV64ri, [.register (setClass GPR64 dst), src]⟩
  else ⟨.MOV32ri, [.register (setClass GPR32 dst), src]⟩

def selectSEXT (dstBits srcBits : ℕ) (dst : MirRegisterRef) (src : MirOperand) : SelectedInst :=
  match src with
  | .integer _ => moveConstant dstBits dst src
  | _ =>
    if dstBits > 32 then
      let dst := .register (setClass GPR64 dst)
      if srcBits ≤ 8 then ⟨.MOVSX64_8, [dst, setOperandClass GPR8 src]⟩
      else if srcBits ≤ 16 then ⟨.MOVSX64_16, [dst, setOperandClass GPR16 src]⟩
      else ⟨.MOVSX64_32, [dst, setOperandClass GPR32 src]⟩
    else
      let dst := .register (setClass GPR32 dst)
      if srcBits ≤ 8 then ⟨.MOVSX32_8, [dst, setOperandClass GPR8 src]⟩
      else ⟨.MOVSX32_16, [dst, setOperandClass GPR16 src]⟩

def selectZEXT (dstBits srcBits : ℕ) (dst : MirRegisterRef) (src : MirOperand) : SelectedInst :=
  match src with
  | .integer _ => moveConstant dstBits dst src
  | _ =>
    if dstBits > 32 then
      if srcBits ≤ 8 then
        ⟨.MOVZX64_8, [.register (setClass GPR64 dst), setOperandClass GPR8 src]⟩
      else if srcBits ≤ 16 then
        ⟨.MOVZX64_16, [.register (setClass GPR64 dst), setOperandClass GPR16 src]⟩
      -- the move clears the upper half
      else ⟨.MOV32rr, [.register (setClass GPR32 dst), setOperandClass GPR32 src]⟩
    else if srcBits ≤ 8 then
      ⟨.MOVZX32_8, [.register (setClass GPR32 dst), setOperandClass GPR8 src]⟩
    else ⟨.MOVZX32_16, [.register (setClass GPR32 dst), setOperandClass GPR16 src]⟩

def selectConversion (opcode : MirInstructionOpCode) (dstBits srcBits : ℕ) (dst : MirRegisterRef)
    (src : MirOperand) : Option SelectedInst :=
  match opcode with
  | .TRUNC => some (selectTRUNC dstBits dst src)
  | .SEXT => some (selectSEXT dstBits srcBits dst src)
  | .ZEXT => some (selectZEXT dstBits srcBits dst src)
  | _ => none

/-- The widths of the integers that a register may hold. -/
def IsRegisterWidth (bits : ℕ) : Prop := bits = 1 ∨ bits = 8 ∨ bits = 16 ∨ bits = 32 ∨ bits = 64

/-- The code leaves in the destination what the conversion makes of the low bits of the source,
whatever is above them. -/
def ConvertsExactly (number : RegKey → ℕ) (opcode : MirInstructionOpCode) (dstBits srcBits : ℕ)
    (dst : MirRegisterRef) (src : MirOperand) (insts : List SelectedInst) : Prop :=
  ∀ s, ∃ s', runSelected number insts s = some s' ∧
    Mir.unary opcode dstBits ((operandValue number s src).setWidth srcBits) =
      some ((s'.regs (numberOf number dst)).setWidth dstBits)

/-- A source of one bit is no register, a constant is its own extension, and the extension from 32
to 64 bits is not taken for a copy of a register to itself. -/
def ConversionFits (number : RegKey → ℕ) (classOf : RegKey → Option MirRegisterClass)
    (opcode : MirInstructionOpCode) (dstBits srcBits : ℕ) (dst : MirRegisterRef) :
    MirOperand → Prop
  | .integer value =>
    (opcode = .ZEXT → FitsUnsigned srcBits ((getI64 value).setWidth dstBits)) ∧
      (opcode = .SEXT → FitsSigned srcBits ((getI64 value).setWidth dstBits))
  | .register src =>
    (opcode = .ZEXT ∨ opcode = .SEXT → srcBits ≠ 1) ∧ (opcode = .ZEXT → srcBits = 32 →
        (rewriteRef number classOf (setClass GPR32 dst)).same
          (rewriteRef number classOf (setClass GPR32 src)) = false)
  | _ => False

/-! ## Writes and their low bits -/

variable {w : ℕ}

theorem setWidth_signExtend_of_le {n v : ℕ} (x : BitVec n) (h : v ≤ w) :
    (x.signExtend w).setWidth v = x.signExtend v := by
  apply eq_of_getLsbD_eq
  intro i hi
  have hlt := Nat.lt_of_lt_of_le hi h
  simp only [getLsbD_setWidth, getLsbD_signExtend, hi, hlt, decide_true, Bool.true_and]

theorem getLsbD_fillLow {i : ℕ} (hw : w ≤ 64) (hi : i < w) (old v : BitVec 64) :
    (fillLow w old v).getLsbD i = v.getLsbD i := by
  unfold fillLow
  dsimp only
  have hmask : (allOnes 64 >>> (64 - w)).getLsbD i = true := by
    rw [getLsbD_ushiftRight, getLsbD_allOnes]
    exact decide_eq_true (by omega)
  simp only [getLsbD_or, getLsbD_and, getLsbD_not, hmask, Bool.not_true,
    Bool.and_false, Bool.false_or, Bool.and_true]

/-- A write of as many bits or more leaves the low bits of what is written. -/
theorem setWidth_write_of_le {v : ℕ} (hw : w ≤ 64) (hv : v ≤ w) (s : Machine) (n : ℕ)
    (x : BitVec 64) : ((s.write w n x).regs n).setWidth v = x.setWidth v := by
  rw [write_regs_self]
  split
  · rfl
  · split
    · next hw32 =>
        subst hw32
        rw [setWidth_setWidth_of_le _ (hv.trans (by decide)), setWidth_setWidth_of_le _ hv]
    · apply eq_of_getLsbD_eq
      intro i hi
      rw [getLsbD_setWidth, getLsbD_setWidth, getLsbD_fillLow hw (Nat.lt_of_lt_of_le hi hv)]

/-- The low bits of a number, extended. -/
def extendLow (isSigned : Bool) (a b : ℕ) (x : BitVec 64) : BitVec b :=
  if isSigned then (x.setWidth a).signExtend b else (x.setWidth a).setWidth b

theorem setWidth_extendLow (isSigned : Bool) (a : ℕ) {b : ℕ} (hb : b ≤ 64) (x : BitVec 64) :
    (extendLow isSigned a 64 x).setWidth b = extendLow isSigned a b x := by
  cases isSigned with
  | true => exact setWidth_signExtend_of_le _ hb
  | false => exact setWidth_setWidth_of_le _ hb

def extendOp (isSigned : Bool) : MirInstructionOpCode := if isSigned then .SEXT else .ZEXT

theorem unary_extendOp (isSigned : Bool) {a b : ℕ} (h : a < b) (x : BitVec 64) :
    Mir.unary (extendOp isSigned) b (x.setWidth a) = some (extendLow isSigned a b x) := by
  cases isSigned <;> exact if_pos h

theorem unary_trunc {a b : ℕ} (h : b < a) (x : BitVec 64) :
    Mir.unary .TRUNC b (x.setWidth a) = some (x.setWidth b) :=
  (if_pos h).trans (congrArg some (setWidth_setWidth_of_le x h.le))

/-! ## Runs of one instruction -/

section

variable {number : RegKey → ℕ} {opcode : MirInstructionOpCode} {a b w : ℕ} {dst : MirRegisterRef}
  {src : MirOperand} {inst : SelectedInst} {f : Machine → BitVec 64}

theorem convertsExactly_iff (hcopy : inst.isRedundantCopy = false)
    (hexec : ∀ s, inst.execute number s = some (s.write w (numberOf number dst) (f s)))
    (hw : w ≤ 64) (hb : b ≤ w) :
    ConvertsExactly number opcode b a dst src (eliminateRedundantCopies [inst]) ↔
      ∀ s, Mir.unary opcode b ((operandValue number s src).setWidth a) =
        some ((f s).setWidth b) := by
  have hcode : eliminateRedundantCopies [inst] = [inst] :=
    List.filter_eq_self.mpr (by simp [hcopy])
  have hrun : ∀ s, runSelected number [inst] s = some (s.write w (numberOf number dst) (f s)) := by
    intro s
    unfold runSelected
    rw [List.foldlM_cons, hexec s]
    rfl
  rw [hcode]
  unfold ConvertsExactly
  simp only [hrun, Option.some.injEq, exists_eq_left', setWidth_write_of_le hw hb]

/-- A copy of a register to itself is erased. -/
theorem convertsExactly_copy_iff (hcopy : inst.isRedundantCopy = true) :
    ConvertsExactly number opcode b a dst src (eliminateRedundantCopies [inst]) ↔
      ∀ s, Mir.unary opcode b ((operandValue number s src).setWidth a) =
        some ((s.regs (numberOf number dst)).setWidth b) := by
  have hcode : eliminateRedundantCopies [inst] = [] := by
    unfold eliminateRedundantCopies
    simp [hcopy]
  have hrun : ∀ s, runSelected number [] s = some s := fun _ => rfl
  rw [hcode]
  unfold ConvertsExactly
  simp only [hrun, Option.some.injEq, exists_eq_left']

/-! ## Each conversion -/

variable {classOf : RegKey → Option MirRegisterClass} {value : ℤ} {r : MirRegisterRef}

theorem isRedundantCopy_of_none (h : isMoveInstruction inst.mir = none) :
    inst.isRedundantCopy = false := by
  rw [isRedundantCopy, h]

theorem isRedundantCopy_of_some {d s : MirRegisterRef}
    (h : isMoveInstruction inst.mir = some (d, s)) : inst.isRedundantCopy = d.same s := by
  rw [isRedundantCopy, h]

theorem convertsExactly_move {d s : MirRegisterRef}
    (hmove : isMoveInstruction inst.mir = some (d, s))
    (hd : numberOf number d = numberOf number dst) (hs : numberOf number s = numberOf number r)
    (hexec : ∀ t : Machine, inst.execute number t = some (t.write w (numberOf number dst)
      (t.regs (numberOf number r)))) (hw : w ≤ 64) (hb : b ≤ w) (hab : b < a) :
    ConvertsExactly number .TRUNC b a dst (.register r) (eliminateRedundantCopies [inst]) := by
  cases hcopy : inst.isRedundantCopy with
  | false =>
    exact (convertsExactly_iff hcopy hexec hw hb).mpr fun t => unary_trunc hab _
  | true =>
    have hsame : d.same s = true := (isRedundantCopy_of_some hmove).symm.trans hcopy
    have hnumber : numberOf number dst = numberOf number r :=
      hd.symm.trans ((congrArg number ((same_iff d s).mp hsame)).trans hs)
    refine (convertsExactly_copy_iff hcopy).mpr fun t => ?_
    rw [hnumber]
    exact unary_trunc hab _

theorem convertsExactly_constant (isSigned : Bool) (hmove : isMoveInstruction inst.mir = none)
    (hexec : ∀ t : Machine, inst.execute number t =
      some (t.write w (numberOf number dst) (getI64 value))) (hw : w ≤ 64) (hb : b ≤ w)
    (ha : 0 < a) (hab : a < b) :
    ConvertsExactly number (extendOp isSigned) b a dst (.integer value)
        (eliminateRedundantCopies [inst]) ↔
      if isSigned then FitsSigned a ((getI64 value).setWidth b)
      else FitsUnsigned a ((getI64 value).setWidth b) := by
  rw [convertsExactly_iff (isRedundantCopy_of_none hmove) hexec hw hb]
  have hlow : ((getI64 value).setWidth b).setWidth a = (getI64 value).setWidth a :=
    setWidth_setWidth_of_le _ hab.le
  have hall : (∀ s, Mir.unary (extendOp isSigned) b ((operandValue number s
      (.integer value)).setWidth a) = some ((getI64 value).setWidth b)) ↔
      extendLow isSigned a b (getI64 value) = (getI64 value).setWidth b := by
    have hvalue : ∀ s, operandValue number s (.integer value) = getI64 value := fun _ => rfl
    simp only [hvalue, unary_extendOp isSigned hab, Option.some.injEq]
    exact ⟨fun h => h ⟨fun _ => 0, fun _ => false⟩, fun h _ => h⟩
  rw [hall]
  cases isSigned with
  | true =>
    rw [if_pos rfl, ← signExtend_setWidth_iff ha hab.le, hlow]
    rfl
  | false =>
    rw [if_neg (by decide), ← setWidth_setWidth_iff hab.le, hlow]
    rfl

theorem convertsExactly_extend {e : ℕ} (isSigned : Bool) (hcopy : inst.isRedundantCopy = false)
    (hexec : ∀ t : Machine, inst.execute number t = some (t.write w (numberOf number dst)
      (extendLow isSigned e 64 (t.regs (numberOf number r))))) (hw : w ≤ 64) (hb : b ≤ w)
    (hab : a < b) :
    ConvertsExactly number (extendOp isSigned) b a dst (.register r)
        (eliminateRedundantCopies [inst]) ↔
      ∀ x : BitVec 64, extendLow isSigned a b x = extendLow isSigned e b x := by
  rw [convertsExactly_iff hcopy hexec hw hb]
  simp only [operandValue, unary_extendOp isSigned hab, Option.some.injEq,
    setWidth_extendLow isSigned e (hb.trans hw)]
  constructor
  · exact fun h x => h ⟨fun _ => x, fun _ => false⟩
  · exact fun h s => h _

theorem extendLow_one_ne (isSigned : Bool) (hb : b = 8 ∨ b = 16 ∨ b = 32 ∨ b = 64) :
    ¬ ∀ x : BitVec 64, extendLow isSigned 1 b x = extendLow isSigned 8 b x := by
  intro h
  have htwo := h 2
  revert htwo
  rcases hb with rfl | rfl | rfl | rfl <;> cases isSigned <;> decide

end

section

variable {f : SelectedFunction} {g : InterferenceGraph} (assignment : Assignment f g)
  (classOf : RegKey → Option MirRegisterClass) {opcode : MirInstructionOpCode}
  {dstBits srcBits : ℕ} {dst : MirRegisterRef} {src : MirOperand}

def allocated (inst : SelectedInst) : List SelectedInst :=
  eliminateRedundantCopies [inst.rewriteColors assignment.number classOf]

theorem numberOf_allocated (c : MirRegisterClass) (r : MirRegisterRef) :
    numberOf assignment.number (rewriteRef assignment.number classOf (setClass c r)) =
      numberOf assignment.number r := by
  rw [numberOf_rewriteRef, numberOf_setClass]

/-- The rows that move a number of bits between registers. -/
def movesBits : Row → Option ℕ
  | .MOV8rr => some 8
  | .MOV16rr => some 16
  | .MOV32rr => some 32
  | .MOV64rr => some 64
  | _ => none

/-- The rows that put the low bits of a constant in a register. -/
def loadsBits : Row → Option ℕ
  | .MOV8ri => some 8
  | .MOV16ri => some 16
  | .MOV32ri => some 32
  | .MOV64ri => some 64
  | _ => none

variable {row : Row}

theorem move_exact (hrow : movesBits row = some w) (hb : dstBits ≤ w) (h : dstBits < srcBits)
    (c : MirRegisterClass) (r : MirRegisterRef) :
    ConvertsExactly assignment.number .TRUNC dstBits srcBits dst (.register r)
      (allocated assignment classOf
        ⟨row, [.register (setClass c dst), .register (setClass c r)]⟩) := by
  have hd := numberOf_allocated assignment classOf c dst
  have hr := numberOf_allocated assignment classOf c r
  have hexec : ∀ t : Machine, execute assignment.number
      (rewriteColors assignment.number classOf
        ⟨row, [.register (setClass c dst), .register (setClass c r)]⟩) t =
      some (t.write w (numberOf assignment.number dst)
        (t.regs (numberOf assignment.number r))) := by
    intro t
    rw [← hd, ← hr]
    cases row <;> cases hrow <;> rfl
  have hmove : isMoveInstruction (mir (rewriteColors assignment.number
      classOf ⟨row, [.register (setClass c dst), .register (setClass c r)]⟩)) =
      some (rewriteRef assignment.number classOf (setClass c dst),
        rewriteRef assignment.number classOf (setClass c r)) := by
    cases row <;> cases hrow <;> rfl
  have hw : w ≤ 64 := by cases row <;> cases hrow <;> decide
  exact convertsExactly_move hmove hd hr hexec hw hb h

theorem execute_load (hrow : loadsBits row = some w) (c : MirRegisterClass) (value : ℤ)
    (t : Machine) :
    SelectedInst.execute assignment.number (SelectedInst.rewriteColors assignment.number classOf
        ⟨row, [.register (setClass c dst), .integer value]⟩) t =
      some (t.write w (numberOf assignment.number dst) (getI64 value)) := by
  rw [← numberOf_allocated assignment classOf c dst]
  cases row <;> cases hrow <;> rfl

theorem isMoveInstruction_load (hrow : loadsBits row = some w) (c : MirRegisterClass) (value : ℤ) :
    isMoveInstruction (SelectedInst.mir (SelectedInst.rewriteColors assignment.number classOf
      ⟨row, [.register (setClass c dst), .integer value]⟩)) = none := by
  cases row <;> cases hrow <;> rfl

theorem selectTRUNC_exact (h : dstBits < srcBits) (hsrc : IsRegisterWidth srcBits)
    (hscalar : IsScalar src) :
    ConvertsExactly assignment.number .TRUNC dstBits srcBits dst src
      (allocated assignment classOf (selectTRUNC dstBits dst src)) := by
  have hle : dstBits ≤ 64 := by
    rcases hsrc with rfl | rfl | rfl | rfl | rfl <;> omega
  cases src with
  | register r =>
    unfold selectTRUNC
    dsimp only
    split_ifs with h8 h16 h32
    · exact move_exact assignment classOf rfl h8 h _ r
    · exact move_exact assignment classOf rfl h16 h _ r
    · exact move_exact assignment classOf rfl h32 h _ r
    · exact move_exact assignment classOf rfl hle h _ r
  | integer value =>
    have hload : ∀ {row : Row} {w : ℕ}, loadsBits row = some w → w ≤ 64 → dstBits ≤ w →
        ConvertsExactly assignment.number .TRUNC dstBits srcBits dst (.integer value)
          (allocated assignment classOf
            ⟨row, [.register (setClass (classOfBits dstBits) dst), .integer value]⟩) := by
      intro row w hrow hw hb
      refine (convertsExactly_iff (isRedundantCopy_of_none
        (isMoveInstruction_load assignment classOf hrow _ value))
        (execute_load assignment classOf hrow _ value) hw hb).mpr fun _ => unary_trunc h _
    unfold selectTRUNC
    dsimp only
    split_ifs with h8 h16 h32
    · exact hload rfl (by decide) h8
    · exact hload rfl (by decide) h16
    · exact hload rfl (by decide) h32
    · exact hload rfl (by decide) hle
  | _ => cases hscalar

theorem moveConstant_exact_iff (isSigned : Bool) (hdst : IsRegisterWidth dstBits)
    (hsrc : IsRegisterWidth srcBits) (h : srcBits < dstBits) (value : ℤ) :
    ConvertsExactly assignment.number (extendOp isSigned) dstBits srcBits dst (.integer value)
        (allocated assignment classOf (moveConstant dstBits dst (.integer value))) ↔
      if isSigned then FitsSigned srcBits ((getI64 value).setWidth dstBits)
      else FitsUnsigned srcBits ((getI64 value).setWidth dstBits) := by
  have hpos : 0 < srcBits := by
    rcases hsrc with rfl | rfl | rfl | rfl | rfl <;> decide
  unfold moveConstant
  by_cases h64 : dstBits = 64
  · rw [if_pos h64]
    exact convertsExactly_constant isSigned (isMoveInstruction_load assignment classOf rfl _ value)
      (execute_load assignment classOf rfl _ value) (by decide) h64.le hpos h
  · rw [if_neg h64]
    have hle : dstBits ≤ 32 := by
      rcases hdst with rfl | rfl | rfl | rfl | rfl <;> first | decide | exact absurd rfl h64
    exact convertsExactly_constant isSigned (isMoveInstruction_load assignment classOf rfl _ value)
      (execute_load assignment classOf rfl _ value) (by decide) hle hpos h

/-- The rows that extend the low bits of a register, to a number of bits. -/
def extendsBits : Row → Option (Bool × ℕ × ℕ)
  | .MOVSX32_8 => some (true, 8, 32)
  | .MOVSX32_16 => some (true, 16, 32)
  | .MOVSX64_8 => some (true, 8, 64)
  | .MOVSX64_16 => some (true, 16, 64)
  | .MOVSX64_32 => some (true, 32, 64)
  | .MOVZX32_8 => some (false, 8, 32)
  | .MOVZX32_16 => some (false, 16, 32)
  | .MOVZX64_8 => some (false, 8, 64)
  | .MOVZX64_16 => some (false, 16, 64)
  | .MOV32rr => some (false, 32, 64)
  | _ => none

theorem extend_exact_iff {isSigned : Bool} {e : ℕ} (hrow : extendsBits row = some (isSigned, e, w))
    {c c' : MirRegisterClass} {r : MirRegisterRef} (hcopy : (SelectedInst.rewriteColors
      assignment.number classOf ⟨row, [.register (setClass c dst), .register (setClass c'
      r)]⟩).isRedundantCopy = false) (hb : dstBits ≤ w) (h : srcBits < dstBits) :
    ConvertsExactly assignment.number (extendOp isSigned) dstBits srcBits dst (.register r)
        (allocated assignment classOf
          ⟨row, [.register (setClass c dst), .register (setClass c' r)]⟩) ↔
      ∀ x : BitVec 64, extendLow isSigned srcBits dstBits x = extendLow isSigned e dstBits x := by
  have hd := numberOf_allocated assignment classOf c dst
  have hr := numberOf_allocated assignment classOf c' r
  have hexec : ∀ t : Machine, execute assignment.number
      (rewriteColors assignment.number classOf
        ⟨row, [.register (setClass c dst), .register (setClass c' r)]⟩) t =
      some (t.write w (numberOf assignment.number dst)
        (extendLow isSigned e 64 (t.regs (numberOf assignment.number r)))) := by
    intro t
    rw [← hd, ← hr]
    cases row <;> cases hrow <;> rfl
  have hw : w ≤ 64 := by cases row <;> cases hrow <;> decide
  exact convertsExactly_extend isSigned hcopy hexec hw hb h

/-- The rows take the low byte for one bit, and as many bits as there are otherwise. -/
theorem extendLow_max_iff (isSigned : Bool) (hdst : IsRegisterWidth dstBits)
    (hsrc : IsRegisterWidth srcBits) (h : srcBits < dstBits) {e : ℕ} (he : e = max srcBits 8) :
    (∀ x : BitVec 64, extendLow isSigned srcBits dstBits x = extendLow isSigned e dstBits x) ↔
      srcBits ≠ 1 := by
  subst he
  by_cases hone : srcBits = 1
  · subst hone
    exact ⟨fun hall => absurd hall (extendLow_one_ne isSigned (hdst.resolve_left h.ne')),
      fun hne => absurd rfl hne⟩
  · have hmax : max srcBits 8 = srcBits := by
      rcases hsrc with rfl | rfl | rfl | rfl | rfl <;> first | rfl | exact absurd rfl hone
    rw [hmax]
    exact ⟨fun _ => hone, fun _ _ => rfl⟩

theorem widths_of_lt (hdst : IsRegisterWidth dstBits) (hsrc : IsRegisterWidth srcBits)
    (h : srcBits < dstBits) :
    (32 < dstBits → dstBits ≤ 64 ∧ srcBits ≤ 32) ∧ (¬ 32 < dstBits → srcBits ≤ 16) := by
  rcases hdst with rfl | rfl | rfl | rfl | rfl <;>
    rcases hsrc with rfl | rfl | rfl | rfl | rfl <;> omega

theorem selectSEXT_exact_iff (hdst : IsRegisterWidth dstBits) (hsrc : IsRegisterWidth srcBits)
    (h : srcBits < dstBits) (r : MirRegisterRef) :
    ConvertsExactly assignment.number .SEXT dstBits srcBits dst (.register r)
        (allocated assignment classOf (selectSEXT dstBits srcBits dst (.register r))) ↔
      srcBits ≠ 1 := by
  have hlow : ∀ {e : ℕ}, e = max srcBits 8 → _ := fun he =>
    extendLow_max_iff true hdst hsrc h he
  obtain ⟨hwide, hnarrow⟩ := widths_of_lt hdst hsrc h
  unfold selectSEXT
  dsimp only
  split_ifs with h32 h8 h16 h8'
  · exact (extend_exact_iff assignment classOf rfl rfl (hwide h32).1 h).trans
      (hlow (Nat.max_eq_right h8).symm)
  · exact (extend_exact_iff assignment classOf rfl rfl (hwide h32).1 h).trans
      (hlow (by rcases hsrc with rfl | rfl | rfl | rfl | rfl <;> omega))
  · have hle := (hwide h32).2
    exact (extend_exact_iff assignment classOf rfl rfl (hwide h32).1 h).trans
      (hlow (by rcases hsrc with rfl | rfl | rfl | rfl | rfl <;> omega))
  · exact (extend_exact_iff assignment classOf rfl rfl (Nat.le_of_not_lt h32) h).trans
      (hlow (Nat.max_eq_right h8').symm)
  · have hle := hnarrow h32
    exact (extend_exact_iff assignment classOf rfl rfl (Nat.le_of_not_lt h32) h).trans
      (hlow (by rcases hsrc with rfl | rfl | rfl | rfl | rfl <;> omega))

/-- An extension from 32 bits is exact unless it is erased. -/
theorem zext_move_iff (h : srcBits = 32) (h' : dstBits = 64) (r : MirRegisterRef) :
    ConvertsExactly assignment.number .ZEXT dstBits srcBits dst (.register r)
        (allocated assignment classOf
          ⟨.MOV32rr, [.register (setClass GPR32 dst), .register (setClass GPR32 r)]⟩) ↔
      (rewriteRef assignment.number classOf (setClass GPR32 dst)).same
        (rewriteRef assignment.number classOf (setClass GPR32 r)) = false := by
  subst h h'
  have hcopy : (rewriteColors assignment.number classOf
      ⟨.MOV32rr, [.register (setClass GPR32 dst), .register (setClass GPR32 r)]⟩).isRedundantCopy =
      (rewriteRef assignment.number classOf (setClass GPR32 dst)).same
        (rewriteRef assignment.number classOf (setClass GPR32 r)) := rfl
  cases hsame : (rewriteRef assignment.number classOf (setClass GPR32 dst)).same
      (rewriteRef assignment.number classOf (setClass GPR32 r)) with
  | false =>
    refine ⟨fun _ => rfl, fun _ => ?_⟩
    exact (extend_exact_iff assignment classOf rfl (hcopy.trans hsame) (Nat.le_refl 64)
      (show 32 < 64 by decide)).mpr fun _ => rfl
  | true =>
    refine ⟨fun hexact => ?_, nofun⟩
    have hall := (convertsExactly_copy_iff (hcopy.trans hsame)).mp hexact
      ⟨fun _ => 4294967296, fun _ => false⟩
    have hne : ¬ Mir.unary .ZEXT 64 ((4294967296 : BitVec 64).setWidth 32) =
        some ((4294967296 : BitVec 64).setWidth 64) := by decide
    exact absurd hall hne

theorem selectZEXT_exact_iff (hdst : IsRegisterWidth dstBits) (hsrc : IsRegisterWidth srcBits)
    (h : srcBits < dstBits) (r : MirRegisterRef) :
    ConvertsExactly assignment.number .ZEXT dstBits srcBits dst (.register r)
        (allocated assignment classOf (selectZEXT dstBits srcBits dst (.register r))) ↔
      srcBits ≠ 1 ∧ (srcBits = 32 → (rewriteRef assignment.number classOf (setClass GPR32 dst)).same
          (rewriteRef assignment.number classOf (setClass GPR32 r)) = false) := by
  obtain ⟨hwide, hnarrow⟩ := widths_of_lt hdst hsrc h
  -- the rows that are no moves are not erased
  have hrow : ∀ {row : Row} {c c' : MirRegisterClass} {e w : ℕ},
      extendsBits row = some (false, e, w) → row ≠ .MOV32rr → e = max srcBits 8 → srcBits ≠ 32 →
      dstBits ≤ w → (ConvertsExactly assignment.number .ZEXT dstBits srcBits dst (.register r)
        (allocated assignment classOf
          ⟨row, [.register (setClass c dst), .register (setClass c' r)]⟩) ↔
        srcBits ≠ 1 ∧ (srcBits = 32 →
          (rewriteRef assignment.number classOf (setClass GPR32 dst)).same
            (rewriteRef assignment.number classOf (setClass GPR32 r)) = false)) := by
    intro row c c' e w hbits hmove he h32 hb
    have hcopy : (rewriteColors assignment.number classOf
        ⟨row, [.register (setClass c dst), .register (setClass c' r)]⟩).isRedundantCopy =
        false := by
      cases row <;> first | rfl | exact absurd rfl hmove | cases hbits
    have hiff := (extend_exact_iff assignment classOf hbits hcopy hb h).trans
      (extendLow_max_iff false hdst hsrc h he)
    exact hiff.trans ⟨fun hne => ⟨hne, fun heq => absurd heq h32⟩, And.left⟩
  unfold selectZEXT
  dsimp only
  split_ifs with h32 h8 h16 h8'
  · exact hrow rfl (by decide) (Nat.max_eq_right h8).symm (by omega) (hwide h32).1
  · exact hrow rfl (by decide) (by rcases hsrc with rfl | rfl | rfl | rfl | rfl <;> omega)
      (by omega) (hwide h32).1
  · have hle := (hwide h32).2
    have hsrc32 : srcBits = 32 := by
      rcases hsrc with rfl | rfl | rfl | rfl | rfl <;> omega
    have hdst64 : dstBits = 64 := by
      rcases hdst with rfl | rfl | rfl | rfl | rfl <;> omega
    refine (zext_move_iff assignment classOf hsrc32 hdst64 r).trans ?_
    exact ⟨fun hsame => ⟨by omega, fun _ => hsame⟩, fun hboth => hboth.2 hsrc32⟩
  · exact hrow rfl (by decide) (Nat.max_eq_right h8').symm (by omega) (Nat.le_of_not_lt h32)
  · have hle := hnarrow h32
    exact hrow rfl (by decide) (by rcases hsrc with rfl | rfl | rfl | rfl | rfl <;> omega)
      (by omega) (Nat.le_of_not_lt h32)

end

/-! ## An extension of 32 bits -/

section

def reg32 (id : ℕ) : MirRegisterRef := ⟨true, some GPR32, id⟩

def extension32 : SelectedInst := selectZEXT 64 32 (reg32 0) (.register (reg32 1))

theorem extension32_general : ∀ inst ∈ [extension32.mir],
    ∀ r ∈ instRefs inst, r.regClass.map MirRegisterClass.bank = some 0 := by decide

def extensionFunction : SelectedFunction := generalFunction [extension32.mir] extension32_general

theorem extensionLiveness_inBank : ∀ b : ℕ, ∀ r ∈ (fun _ => [reg32 0] : ℕ → List MirRegisterRef) b,
      InBank extensionFunction.banks r := inBank_liveOut rfl (by decide)

def extensionGraph : InterferenceGraph :=
  interferenceGraph none extensionFunction ⟨fun _ => [reg32 0], extensionLiveness_inBank⟩

theorem extensionGraph_apart (id : ℕ) : ∀ a b, extensionGraph.Adj a b →
    bankOf extensionFunction.banks a = bankOf extensionFunction.banks b →
      numbers [1, id] a ≠ numbers [1, id] b := by
  have hnone : ∀ a ∈ KeyedSet.keys regKey extensionGraph.nodes,
      ∀ b ∈ KeyedSet.keys regKey extensionGraph.nodes, ¬ extensionGraph.Adj a b := by decide
  exact apart_of_nodes (interferenceGraph_ok none)
    fun a ha b hb hadj => absurd hadj (hnone a ha b hb)

/-- The source is dead behind the extension, and may have the destination's register. -/
def extensionAssignment (id : ℕ) : Assignment extensionFunction extensionGraph :=
  ⟨numbers [1, id], fun _ _ => rfl, extensionGraph_apart id⟩

end

end EzPacker.X86
