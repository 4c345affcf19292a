import EzPacker.Lib.Bytes

/-!
# Types

A type is referred to by its id in the type table. The compact id indexes the
dense tables of the targets; types without a column there share one value.
-/

namespace EzPacker.Mir

open List

inductive MirTypeKind
  | Invalid | Integer | FloatingPoint | Function | Pointer | Array | Void
  | BindingToken | Vector
  deriving DecidableEq, Repr

/-- Every type the type table creates has no alignment or a power of two. -/
structure MirType where
  kind : MirTypeKind
  id : ℕ
  compactId : ℕ
  maxAlignmentInBits : ℕ
  totalSizeInBits : ℕ
  alignment : maxAlignmentInBits = 0 ∨ ∃ k, maxAlignmentInBits = 2 ^ k
  deriving DecidableEq

theorem MirType.wordAlignment : 64 = 0 ∨ ∃ k, 64 = 2 ^ k := .inr ⟨6, rfl⟩

def MirType.getTotalSizeInBytes (type : MirType) : ℕ := type.totalSizeInBits / 8

/-!
## Integers of any width

`FlexInt` is a number with a width and a signedness; the number is kept in the range of
its width. Bytes are read from and written to memory in little-endian order.
-/

structure FlexInt where
  value : ℤ
  bitWidth : ℕ
  isSigned : Bool
  deriving DecidableEq, Repr

namespace FlexInt

def isNeg (n : FlexInt) : Bool := n.isSigned && decide (n.value < 0)

def isZero (n : FlexInt) : Bool := decide (n.value = 0)

/-- The bits from `startBit` on, read as an unsigned number. -/
def extractBits (n : FlexInt) (startBit numBits : ℕ) : ℕ :=
  (n.value / 2 ^ startBit % 2 ^ numBits).toNat

/-- One byte of `writeBytes`; the bytes behind the width repeat the sign. -/
def byteAt (n : FlexInt) (i : ℕ) : UInt8 :=
  if i * 8 < n.bitWidth then UInt8.ofNat (n.extractBits (i * 8) (min 8 (n.bitWidth - i * 8)))
  else if n.isNeg then 0xFF
  else 0

def writeBytes (n : FlexInt) (destSize : ℕ) : List UInt8 := (range destSize).map n.byteAt

/-- The unsigned number of a width that the bytes denote. -/
def readBytes (src : List UInt8) (bitWidth : ℕ) : FlexInt :=
  ⟨(leNat src % 2 ^ bitWidth : ℕ), bitWidth, false⟩

theorem readBytes_value (src : List UInt8) :
    (readBytes src (src.length * 8)).value = leNat src := by
  have hlt := leNat_lt src
  rw [show 256 = 2 ^ 8 from rfl, ← pow_mul, Nat.mul_comm] at hlt
  unfold readBytes
  rw [Nat.mod_eq_of_lt hlt]

theorem isZero_readBytes (src : List UInt8) :
    (readBytes src (src.length * 8)).isZero = true ↔ ∀ b ∈ src, b = 0 := by
  rw [isZero, decide_eq_true_iff, readBytes_value, Int.natCast_eq_zero, leNat_eq_zero]

theorem byteAt_readBytes (src : List UInt8) (i : ℕ) :
    (readBytes src (src.length * 8)).byteAt i = src[i]?.getD 0 := by
  unfold byteAt isNeg
  have hwidth : (readBytes src (src.length * 8)).bitWidth = src.length * 8 := rfl
  rw [hwidth]
  by_cases hi : i < src.length
  · have hmin : min 8 (src.length * 8 - i * 8) = 8 := by omega
    have hdiv : (leNat src : ℤ) / 2 ^ (i * 8) % 2 ^ 8 = ((leNat src / 256 ^ i % 256 : ℕ) : ℤ) := by
      rw [Nat.mul_comm, pow_mul]
      norm_cast
    rw [if_pos (by omega), hmin, extractBits, readBytes_value, hdiv, Int.toNat_natCast,
      leNat_div_mod, UInt8.ofNat_toNat]
  · rw [if_neg (by omega), getElem?_eq_none (by omega)]
    rfl

theorem writeBytes_readBytes (src : List UInt8) {destSize : ℕ} (h : src.length ≤ destSize) :
    (readBytes src (src.length * 8)).writeBytes destSize =
      src ++ replicate (destSize - src.length) 0 := by
  refine ext_getElem (by simp [writeBytes]; omega) fun i hi hi' => ?_
  have hbyte : ((readBytes src (src.length * 8)).writeBytes destSize)[i] =
      (readBytes src (src.length * 8)).byteAt i := by simp [writeBytes]
  rw [hbyte, byteAt_readBytes]
  by_cases hlt : i < src.length
  · rw [getElem_append_left hlt, getElem?_eq_getElem hlt, Option.getD_some]
  · rw [getElem_append_right (by omega), getElem_replicate,
      getElem?_eq_none (by omega), Option.getD_none]

end FlexInt

end EzPacker.Mir
