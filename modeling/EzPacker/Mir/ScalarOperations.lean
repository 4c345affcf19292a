import EzPacker.Lib.Chunks
import EzPacker.Mir.InstructionSet

/-!
# Integer operations

The value that an opcode computes from integers of a width. Values are numbers below the
power of the width; an operation is undefined where the divisor is zero, the shift amount is
not below the width, or the widths do not fit the opcode.
-/

namespace EzPacker.Mir

open Nat BitVec

variable {w : ℕ}

/-- The operations on two numbers of one width. -/
def arithmetic (opcode : MirInstructionOpCode) (lhs rhs : BitVec w) : Option (BitVec w) :=
  match opcode with
  | .ADD => some (lhs + rhs)
  | .SUB => some (lhs - rhs)
  | .MUL | .IMUL => some (lhs * rhs)
  | .UMULH => some ((lhs.setWidth (2 * w) * rhs.setWidth (2 * w)).extractLsb' w w)
  | .SMULH => some ((lhs.signExtend (2 * w) * rhs.signExtend (2 * w)).extractLsb' w w)
  | .DIV | .UDIV => if rhs = 0 then none else some (lhs.udiv rhs)
  | .IDIV | .SDIV => if rhs = 0 then none else some (lhs.sdiv rhs)
  | .REM => if rhs = 0 then none else some (lhs.srem rhs)
  | .AND => some (lhs &&& rhs)
  | .OR => some (lhs ||| rhs)
  | .XOR => some (lhs ^^^ rhs)
  | _ => none

def compare (opcode : MirInstructionOpCode) (lhs rhs : BitVec w) : Option Bool :=
  match opcode with
  | .CMP_EQ => some (lhs = rhs)
  | .CMP_NE => some (lhs ≠ rhs)
  | .CMP_SLT => some (lhs.slt rhs)
  | .CMP_SLE => some (lhs.sle rhs)
  | .CMP_SGT => some (rhs.slt lhs)
  | .CMP_SGE => some (rhs.sle lhs)
  | .CMP_ULT => some (lhs.ult rhs)
  | .CMP_ULE => some (lhs.ule rhs)
  | .CMP_UGT => some (rhs.ult lhs)
  | .CMP_UGE => some (rhs.ule lhs)
  | _ => none

def shift (opcode : MirInstructionOpCode) (value : BitVec w) (amount : ℕ) : Option (BitVec w) :=
  if w ≤ amount then none
  else
    match opcode with
    | .SHL => some (value <<< amount)
    | .SHR => some (value >>> amount)
    | .SAR => some (value.sshiftRight amount)
    | _ => none

/-- The operations on one number, from a width to a width. -/
def unary (opcode : MirInstructionOpCode) (dstBits : ℕ) (src : BitVec w) :
    Option (BitVec dstBits) :=
  match opcode with
  | .MOV => if dstBits = w then some (src.setWidth dstBits) else none
  | .NEG => if dstBits = w then some ((-src).setWidth dstBits) else none
  | .NOT => if dstBits = w then some ((~~~src).setWidth dstBits) else none
  | .TRUNC => if dstBits < w then some (src.setWidth dstBits) else none
  | .ZEXT => if w < dstBits then some (src.setWidth dstBits) else none
  | .SEXT => if w < dstBits then some (src.signExtend dstBits) else none
  | _ => none

/-- The operations on two numbers given with their widths. A comparison yields 0 or 1. -/
def binary (opcode : MirInstructionOpCode) (dstBits : ℕ) (lhs rhs : ℕ × ℕ) : Option ℕ :=
  let a := BitVec.ofNat lhs.1 lhs.2
  match opcode with
  | .SHL | .SHR | .SAR =>
    if lhs.1 = dstBits then (shift opcode a rhs.2).map BitVec.toNat else none
  | .CMP_EQ | .CMP_NE | .CMP_SLT | .CMP_SLE | .CMP_SGT | .CMP_SGE | .CMP_ULT | .CMP_ULE
  | .CMP_UGT | .CMP_UGE =>
    if lhs.1 = rhs.1 then (compare opcode a (BitVec.ofNat lhs.1 rhs.2)).map Bool.toNat
    else none
  | _ =>
    if lhs.1 = dstBits ∧ rhs.1 = dstBits then
      (arithmetic opcode a (BitVec.ofNat lhs.1 rhs.2)).map BitVec.toNat
    else none

/-- The value of a register of `dstBits` bits that is computed from sources given with their
widths. A selection takes any value but zero as true. -/
def scalarValue (opcode : MirInstructionOpCode) (dstBits : ℕ) : List (ℕ × ℕ) → Option ℕ
  | [src] => (unary opcode dstBits (BitVec.ofNat src.1 src.2)).map BitVec.toNat
  | [lhs, rhs] => binary opcode dstBits lhs rhs
  | [cond, lhs, rhs] =>
    if opcode = .SELECT ∧ lhs.1 = dstBits ∧ rhs.1 = dstBits then
      some (if cond.2 ≠ 0 then lhs.2 else rhs.2)
    else none
  | _ => none

/-- The two results of the operations with a carry or a borrow. -/
def carryValue (opcode : MirInstructionOpCode) (bits lhs rhs carry : ℕ) : Option (ℕ × ℕ) :=
  match opcode with
  | .UADDO | .UADDE => some (addDigit bits lhs rhs carry)
  | .USUBO | .USUBE => some (subDigit bits lhs rhs carry)
  | _ => none

section Values

variable {x y : ℕ}

variable {opcode : MirInstructionOpCode}

/-- An operation on two numbers of the width of the result. -/
theorem scalarValue_arithmetic {result : BitVec w} (hop : scalarValue opcode w [(w, x), (w, y)] =
      if w = w ∧ w = w then
        (arithmetic opcode (BitVec.ofNat w x) (BitVec.ofNat w y)).map BitVec.toNat
      else none)
    (hresult : arithmetic opcode (BitVec.ofNat w x) (BitVec.ofNat w y) = some result) :
    scalarValue opcode w [(w, x), (w, y)] = some result.toNat := by
  rw [hop, if_pos ⟨rfl, rfl⟩, hresult, Option.map_some]

theorem scalarValue_unary {result : BitVec w}
    (hop : unary opcode w (BitVec.ofNat w x) = if w = w then some (result.setWidth w) else none) :
    scalarValue opcode w [(w, x)] = some result.toNat := by
  have hvalue : scalarValue opcode w [(w, x)] =
      (unary opcode w (BitVec.ofNat w x)).map BitVec.toNat := rfl
  rw [hvalue, hop, if_pos rfl, setWidth_eq, Option.map_some]

theorem scalarValue_mov (hx : x < 2 ^ w) : scalarValue .MOV w [(w, x)] = some x := by
  rw [scalarValue_unary rfl, toNat_ofNat, mod_eq_of_lt hx]

theorem scalarValue_not (hx : x < 2 ^ w) : scalarValue .NOT w [(w, x)] = some (2 ^ w - 1 - x) := by
  rw [scalarValue_unary rfl, toNat_not, toNat_ofNat, mod_eq_of_lt hx]

theorem scalarValue_neg (hx : x < 2 ^ w) :
    scalarValue .NEG w [(w, x)] = some ((2 ^ w - x) % 2 ^ w) := by
  rw [scalarValue_unary rfl, toNat_neg, toNat_ofNat, mod_eq_of_lt hx]

theorem scalarValue_add : scalarValue .ADD w [(w, x), (w, y)] = some ((x + y) % 2 ^ w) := by
  rw [scalarValue_arithmetic rfl rfl, toNat_add, toNat_ofNat, toNat_ofNat, ← add_mod]

variable (hx : x < 2 ^ w) (hy : y < 2 ^ w)
include hx hy

theorem scalarValue_sub : scalarValue .SUB w [(w, x), (w, y)] = some ((2 ^ w - y + x) % 2 ^ w) := by
  rw [scalarValue_arithmetic rfl rfl, toNat_sub, toNat_ofNat, toNat_ofNat,
    mod_eq_of_lt hx, mod_eq_of_lt hy]

theorem scalarValue_and : scalarValue .AND w [(w, x), (w, y)] = some (x &&& y) := by
  rw [scalarValue_arithmetic rfl rfl, toNat_and, toNat_ofNat, toNat_ofNat,
    mod_eq_of_lt hx, mod_eq_of_lt hy]

theorem scalarValue_or : scalarValue .OR w [(w, x), (w, y)] = some (x ||| y) := by
  rw [scalarValue_arithmetic rfl rfl, toNat_or, toNat_ofNat, toNat_ofNat,
    mod_eq_of_lt hx, mod_eq_of_lt hy]

theorem scalarValue_xor : scalarValue .XOR w [(w, x), (w, y)] = some (x ^^^ y) := by
  rw [scalarValue_arithmetic rfl rfl, toNat_xor, toNat_ofNat, toNat_ofNat,
    mod_eq_of_lt hx, mod_eq_of_lt hy]

theorem ofNat_eq_ofNat_iff : BitVec.ofNat w x = BitVec.ofNat w y ↔ x = y := by
  rw [← toNat_inj, toNat_ofNat, toNat_ofNat, mod_eq_of_lt hx, mod_eq_of_lt hy]

omit hx hy in
theorem scalarValue_compare {dstBits : ℕ} {p : Bool}
    (hop : scalarValue opcode dstBits [(w, x), (w, y)] =
      if w = w then
        (compare opcode (BitVec.ofNat w x) (BitVec.ofNat w y)).map Bool.toNat
      else none)
    (hresult : compare opcode (BitVec.ofNat w x) (BitVec.ofNat w y) = some p) :
    scalarValue opcode dstBits [(w, x), (w, y)] = some p.toNat := by
  rw [hop, if_pos rfl, hresult, Option.map_some]

theorem scalarValue_cmpEq (dstBits : ℕ) :
    scalarValue .CMP_EQ dstBits [(w, x), (w, y)] = some (decide (x = y)).toNat := by
  rw [scalarValue_compare rfl rfl, decide_eq_decide.mpr (ofNat_eq_ofNat_iff hx hy)]

theorem scalarValue_cmpNe (dstBits : ℕ) :
    scalarValue .CMP_NE dstBits [(w, x), (w, y)] = some (decide (x ≠ y)).toNat := by
  rw [scalarValue_compare rfl rfl, decide_eq_decide.mpr (not_congr (ofNat_eq_ofNat_iff hx hy))]

end Values

end EzPacker.Mir
