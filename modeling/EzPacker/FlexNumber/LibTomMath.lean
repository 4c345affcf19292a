import Mathlib.Data.BitVec
import EzPacker.Lib.TwosComplement
import EzPacker.Mir.Type

/-!
# The multi-precision library

The primitives of LibTomMath that integers are built on and what the library documents
of them: results are exact integers, bits are counted in the magnitude, a division
truncates, a remainder has the sign of the modulus, and the 64-bit accessors give the
two's complement of a number. Sums, products, powers of two and comparisons are those of
the integers. Counts of bits have the type `int` in the library; a count stands for
itself here.
-/

namespace EzPacker.FlexNumber

open Int

structure LibTomMath where
  mpCountBits : ℤ → ℕ
  mpCntLsb : ℤ → ℕ
  mpDiv : ℤ → ℤ → ℤ
  mpMod : ℤ → ℤ → ℤ
  mpMod2d : ℤ → ℕ → ℤ
  mpDiv2d : ℤ → ℕ → ℤ
  mpAnd : ℤ → ℤ → ℤ
  mpOr : ℤ → ℤ → ℤ
  mpXor : ℤ → ℤ → ℤ
  mpGetI64 : ℤ → BitVec 64
  mpGetU64 : ℤ → BitVec 64
  countBits_eq : ∀ a, mpCountBits a = a.natAbs.size
  cntLsb_spec : ∀ a, a ≠ 0 → ∃ m, a.natAbs = 2 ^ mpCntLsb a * (2 * m + 1)
  div_eq : ∀ a b, b ≠ 0 → mpDiv a b = a.tdiv b
  mod_eq : ∀ a b, b ≠ 0 → mpMod a b = a.fmod b
  /-- The low digits of the magnitude are kept, and the sign. -/
  mod2d_eq : ∀ a b, mpMod2d a b = a.tmod (2 ^ b)
  div2d_eq : ∀ a b, mpDiv2d a b = a.tdiv (2 ^ b)
  and_eq : ∀ a b : ℕ, mpAnd a b = (a &&& b : ℕ)
  or_eq : ∀ a b : ℕ, mpOr a b = (a ||| b : ℕ)
  xor_eq : ∀ a b : ℕ, mpXor a b = (a ^^^ b : ℕ)
  getI64_eq : ∀ a, mpGetI64 a = BitVec.ofInt 64 a
  /-- The unsigned accessor behaves like two's complement on negative numbers. -/
  getU64_eq : ∀ a, mpGetU64 a = BitVec.ofInt 64 a

namespace LibTomMath

/-- The number of zeros below the lowest bit that is set. -/
def trailingZeros : ℕ → ℕ → ℕ
  | 0, _ => 0
  | fuel + 1, n => if n % 2 = 0 then trailingZeros fuel (n / 2) + 1 else 0

theorem trailingZeros_spec (fuel n : ℕ) (h0 : n ≠ 0) (hlt : n < 2 ^ fuel) :
    ∃ m, n = 2 ^ trailingZeros fuel n * (2 * m + 1) := by
  induction fuel generalizing n with
  | zero => omega
  | succ fuel ih =>
    rw [pow_succ'] at hlt
    by_cases heven : n % 2 = 0
    · obtain ⟨m, hm⟩ := ih (n / 2) (by omega) (by omega)
      refine ⟨m, ?_⟩
      rw [trailingZeros, if_pos heven, pow_succ', mul_assoc, ← hm]
      omega
    · refine ⟨n / 2, ?_⟩
      rw [trailingZeros, if_neg heven, pow_zero, one_mul]
      omega

/-- The library on exact integers. -/
def exact : LibTomMath where
  mpCountBits a := a.natAbs.size
  mpCntLsb a := trailingZeros a.natAbs.size a.natAbs
  mpDiv := Int.tdiv
  mpMod := Int.fmod
  mpMod2d a b := a.tmod (2 ^ b)
  mpDiv2d a b := a.tdiv (2 ^ b)
  mpAnd a b := (a.toNat &&& b.toNat : ℕ)
  mpOr a b := (a.toNat ||| b.toNat : ℕ)
  mpXor a b := (a.toNat ^^^ b.toNat : ℕ)
  mpGetI64 := BitVec.ofInt 64
  mpGetU64 := BitVec.ofInt 64
  countBits_eq _ := rfl
  cntLsb_spec _ h0 := trailingZeros_spec _ _ (Int.natAbs_ne_zero.mpr h0) (Nat.lt_size_self _)
  div_eq _ _ _ := rfl
  mod_eq _ _ _ := rfl
  mod2d_eq _ _ := rfl
  div2d_eq _ _ := rfl
  and_eq _ _ := rfl
  or_eq _ _ := rfl
  xor_eq _ _ := rfl
  getI64_eq _ := rfl
  getU64_eq _ := rfl

end LibTomMath

/-!
## Operations on integers of any width

The operations as the code computes them, over a number, a width and a signedness. The
overflow policy is to wrap around, as it is in every caller. Numbers up to 64 bits are
clamped in machine words, wider ones by the library.
-/

open Mir (FlexInt)

inductive Endianness
  | Little | Big
  deriving DecidableEq, Repr

variable (mp : LibTomMath)

/-! ## The range of a width -/

inductive RangeCheck
  | fits | overflow | underflow
  deriving DecidableEq, Repr

/-- The range of a number by its bits. -/
def checkRange (n : FlexInt) : RangeCheck :=
  let bits := mp.mpCountBits n.value
  if n.isSigned then
    let maxBits := n.bitWidth - 1
    if n.value < 0 then
      if bits < n.bitWidth then .fits
      else if bits = n.bitWidth then
        -- a single bit set is the lower bound itself
        if mp.mpCntLsb n.value = maxBits then .fits else .underflow
      else .underflow
    else if bits ≤ maxBits then .fits
    else .overflow
  else if n.value < 0 then .underflow
  else if bits ≤ n.bitWidth then .fits
  else .overflow

def nativeMask (bitWidth : ℕ) : BitVec 64 :=
  if bitWidth = 64 then ~~~0#64 else (1#64 <<< bitWidth) - 1

/-- The clamped number of a width up to 64. -/
def truncateNative (n : FlexInt) : ℤ :=
  let mag := mp.mpGetU64 n.value
  let val := (if n.value < 0 then ~~~mag + 1 else mag) &&& nativeMask n.bitWidth
  if n.isSigned then
    let signBit := 1#64 <<< (n.bitWidth - 1)
    if val &&& signBit ≠ 0 then
      (if n.bitWidth = 64 then val else val ||| ~~~nativeMask n.bitWidth).toInt
    else val.toNat
  else val.toNat

/-- The clamped number of a larger width. -/
def truncateWide (n : FlexInt) : ℤ :=
  let fullRange := (2 : ℤ) ^ n.bitWidth
  let modMask := fullRange - 1
  let number := if n.value < 0 then mp.mpMod n.value fullRange + fullRange else n.value
  let number := mp.mpAnd number modMask
  if n.isSigned then
    if (2 : ℤ) ^ (n.bitWidth - 1) ≤ number then number - fullRange else number
  else number

/-- The clamped number, and whether it was out of range. -/
def clampToTwosComplement (n : FlexInt) : FlexInt × Bool :=
  if n.bitWidth = 0 then (n, false)
  else if n.value = 0 then (n, false)
  else
    match checkRange mp n with
    | .fits => (n, false)
    | _ =>
      if n.bitWidth ≤ 64 then ({ n with value := truncateNative mp n }, true)
      else ({ n with value := truncateWide mp n }, true)

/-! ## Construction -/

def ofU64 (value : BitVec 64) (bitWidth : ℕ) : FlexInt :=
  (clampToTwosComplement mp ⟨value.toNat, bitWidth, false⟩).1

def ofI64 (value : BitVec 64) (bitWidth : ℕ) : FlexInt :=
  (clampToTwosComplement mp ⟨value.toInt, bitWidth, true⟩).1

def getU64 (n : FlexInt) : BitVec 64 :=
  if n.value < 0 then mp.mpGetI64 n.value else mp.mpGetU64 n.value

/-! ## Arithmetic -/

/-- A new number in place of the old one, clamped. -/
def assign (n : FlexInt) (value : ℤ) : FlexInt × Bool :=
  clampToTwosComplement mp { n with value := value }

def add (a b : FlexInt) : FlexInt := (assign mp a (a.value + b.value)).1

def sub (a b : FlexInt) : FlexInt := (assign mp a (a.value - b.value)).1

def mul (a b : FlexInt) : FlexInt := (assign mp a (a.value * b.value)).1

def increment (a : FlexInt) : FlexInt := (assign mp a (a.value + 1)).1

def decrement (a : FlexInt) : FlexInt := (assign mp a (a.value - 1)).1

def div (a b : FlexInt) : FlexInt := (assign mp a (mp.mpDiv a.value b.value)).1

def mod (a b : FlexInt) : FlexInt := (assign mp a (mp.mpMod a.value b.value)).1

def checkCompatible (a b : FlexInt) : Except String Unit :=
  if a.bitWidth ≠ b.bitWidth ∨ a.isSigned ≠ b.isSigned then
    .error "Mismatched target types in FlexInt comparison"
  else .ok ()

def addWithOverflow (a b : FlexInt) : Except String (FlexInt × Bool) := do
  checkCompatible a b
  return assign mp a (a.value + b.value)

def subWithOverflow (a b : FlexInt) : Except String (FlexInt × Bool) := do
  checkCompatible a b
  return assign mp a (a.value - b.value)

def mulWithOverflow (a b : FlexInt) : Except String (FlexInt × Bool) := do
  checkCompatible a b
  return assign mp a (a.value * b.value)

/-! ## Comparison -/

def compareWith (holds : Ordering → Bool) (a b : FlexInt) : Except String Bool := do
  checkCompatible a b
  return holds (compare a.value b.value)

def lt : FlexInt → FlexInt → Except String Bool := compareWith Ordering.isLT

def le : FlexInt → FlexInt → Except String Bool := compareWith Ordering.isLE

def gt : FlexInt → FlexInt → Except String Bool := compareWith Ordering.isGT

def ge : FlexInt → FlexInt → Except String Bool := compareWith Ordering.isGE

/-! ## Bits -/

/-- The number in the unsigned range. -/
def normalizedUnsigned (n : FlexInt) : ℤ :=
  if n.bitWidth = 0 then 0
  else if n.bitWidth ≤ 64 then (getU64 mp n &&& nativeMask n.bitWidth).toNat
  else if n.value < 0 then
    let fullRange := (2 : ℤ) ^ n.bitWidth
    let magMod : ℤ := (mp.mpMod2d n.value n.bitWidth).natAbs
    if magMod = 0 then 0 else fullRange - magMod
  else mp.mpMod2d n.value n.bitWidth

/-- A number of the unsigned range in the range of the signedness. -/
def denormalized (isSigned : Bool) (bitWidth : ℕ) (norm : ℤ) : ℤ :=
  if isSigned then
    if (2 : ℤ) ^ (bitWidth - 1) ≤ norm then norm - 2 ^ bitWidth else norm
  else norm

def bitwise (op : ℤ → ℤ → ℤ) (a b : FlexInt) : Except String FlexInt := do
  checkCompatible a b
  if a.bitWidth = 0 then return ⟨0, 0, a.isSigned⟩
  let norm := op (normalizedUnsigned mp a) (normalizedUnsigned mp b)
  return ⟨denormalized a.isSigned a.bitWidth norm, a.bitWidth, a.isSigned⟩

def bitAnd : FlexInt → FlexInt → Except String FlexInt := bitwise mp mp.mpAnd

def bitOr : FlexInt → FlexInt → Except String FlexInt := bitwise mp mp.mpOr

def bitXor : FlexInt → FlexInt → Except String FlexInt := bitwise mp mp.mpXor

def bitNot (n : FlexInt) : FlexInt :=
  if n.bitWidth = 0 then ⟨0, 0, n.isSigned⟩
  else
    let mask := (2 : ℤ) ^ n.bitWidth - 1
    let norm := mp.mpXor (normalizedUnsigned mp n) mask
    ⟨denormalized n.isSigned n.bitWidth norm, n.bitWidth, n.isSigned⟩

/-! ## Halves and limbs -/

def ensureSplittableWidth (n : FlexInt) : Except String Unit :=
  if n.bitWidth % 2 ≠ 0 then
    .error "Cannot execute scalar expansion split on an odd bit-width."
  else .ok ()

def getHighHalf (n : FlexInt) : Except String FlexInt := do
  ensureSplittableWidth n
  let splitWidth := n.bitWidth / 2
  let high := mp.mpDiv2d (normalizedUnsigned mp n) splitWidth
  -- the library leaves a power with a negative exponent at zero
  let signBit : ℤ := if splitWidth = 0 then 0 else 2 ^ (splitWidth - 1)
  let high := if n.isSigned ∧ signBit ≤ high then high - 2 ^ splitWidth else high
  return ⟨high, splitWidth, n.isSigned⟩

def getLowHalf (n : FlexInt) : Except String FlexInt := do
  ensureSplittableWidth n
  let splitWidth := n.bitWidth / 2
  let mask := (2 : ℤ) ^ splitWidth - 1
  return ⟨mp.mpAnd (normalizedUnsigned mp n) mask, splitWidth, false⟩

def sumLimbs (bitWidth : ℕ) : List (BitVec 64) → ℕ → ℤ → ℤ
  | [], _, number => number
  | limb :: rest, i, number =>
    if bitWidth ≤ i * 64 then number
    else if limb = 0 then sumLimbs bitWidth rest (i + 1) number
    else sumLimbs bitWidth rest (i + 1) (number + limb.toNat * 2 ^ (i * 64))

def fromLimbs64 (limbs : List (BitVec 64)) (bitWidth : ℕ) (isSigned : Bool) : FlexInt :=
  let res := { ofU64 mp 0 bitWidth with isSigned := isSigned }
  if limbs = [] ∨ bitWidth = 0 then res
  else (assign mp res (sumLimbs bitWidth limbs 0 0)).1

/-! ## Shifts -/

def shl (n : FlexInt) (shiftBits : ℕ) : FlexInt :=
  if n.bitWidth ≤ shiftBits ∨ n.bitWidth = 0 then ofU64 mp 0 n.bitWidth
  else (assign mp n (normalizedUnsigned mp n * 2 ^ shiftBits)).1

def lshr (n : FlexInt) (shiftBits : ℕ) : FlexInt :=
  if n.bitWidth ≤ shiftBits ∨ n.bitWidth = 0 then ofU64 mp 0 n.bitWidth
  else
    let result := { ofU64 mp 0 n.bitWidth with isSigned := n.isSigned }
    (assign mp result (mp.mpDiv2d (normalizedUnsigned mp n) shiftBits)).1

def ashr (n : FlexInt) (shiftBits : ℕ) : FlexInt :=
  if !n.isSigned || !n.isNeg then lshr mp n shiftBits
  else if n.bitWidth = 0 then ofU64 mp 0 0
  else if n.bitWidth ≤ shiftBits then ofI64 mp (-1) n.bitWidth
  else
    let shifted := mp.mpDiv2d (normalizedUnsigned mp n) shiftBits
    let fullRange := (2 : ℤ) ^ n.bitWidth
    let highMask := fullRange - 2 ^ (n.bitWidth - shiftBits)
    { ofU64 mp 0 n.bitWidth with
      isSigned := true, value := mp.mpOr shifted highMask - fullRange }

def shiftRight (n : FlexInt) (shiftBits : ℕ) : FlexInt :=
  if n.isSigned then ashr mp n shiftBits else lshr mp n shiftBits

/-! ## Slices and bytes -/

def extractBits (n : FlexInt) (startBit numBits : ℕ) (resultSigned : Bool) : FlexInt :=
  let result := { ofU64 mp 0 numBits with isSigned := resultSigned }
  if numBits = 0 then result
  else if n.bitWidth ≤ startBit then
    if n.isSigned && n.isNeg then
      { result with value := if resultSigned then -1 else 2 ^ numBits - 1 }
    else result
  else
    let norm := normalizedUnsigned mp n
    let norm := if 0 < startBit then mp.mpDiv2d norm startBit else norm
    let norm := mp.mpMod2d norm numBits
    -- the bits above the width repeat the sign
    let norm :=
      if n.bitWidth < startBit + numBits && n.isSigned && n.isNeg then
        mp.mpOr norm (2 ^ numBits - 2 ^ (n.bitWidth - startBit))
      else norm
    { result with value := denormalized resultSigned numBits norm }

def extractWord64 (n : FlexInt) (wordIndex : ℕ) : BitVec 64 :=
  if n.bitWidth ≤ wordIndex * 64 then
    if n.isSigned && n.isNeg then ~~~0#64 else 0
  else getU64 mp (extractBits mp n (wordIndex * 64) 64 false)

/-- The byte of a position, counted from the least significant one. -/
def byteAt (n : FlexInt) (i : ℕ) : UInt8 :=
  if i * 8 < n.bitWidth then
    UInt8.ofNat (getU64 mp (extractBits mp n (i * 8) (min 8 (n.bitWidth - i * 8)) false)).toNat
  else if n.isSigned && n.isNeg then 0xFF
  else 0

/-- Bytes from the least significant one on, as they stand in memory. -/
def ordered (endian : Endianness) (bytes : List UInt8) : List UInt8 :=
  match endian with
  | .Little => bytes
  | .Big => bytes.reverse

def writeBytes (n : FlexInt) (destSize : ℕ) (endian : Endianness) : List UInt8 :=
  ordered endian ((List.range destSize).map (byteAt mp n))

def sumBytes (bitWidth : ℕ) : List UInt8 → ℕ → ℤ → ℤ
  | [], _, number => number
  | byteVal :: rest, i, number =>
    if bitWidth ≤ i * 8 then number
    else if byteVal = 0 then sumBytes bitWidth rest (i + 1) number
    else sumBytes bitWidth rest (i + 1) (number + byteVal.toNat * 2 ^ (i * 8))

def readBytes (src : List UInt8) (bitWidth : ℕ) (isSigned : Bool) (endian : Endianness) : FlexInt :=
  let res := { ofU64 mp 0 bitWidth with isSigned := isSigned }
  if src = [] ∨ bitWidth = 0 then res
  else (assign mp res (sumBytes bitWidth (ordered endian src) 0 0)).1

/-!
## What clamping computes

The check of the bits is a check of the range, and the library path wraps around. The
machine path takes the two's complement of a negative number for its magnitude, so that
it wraps the number of the opposite sign.
-/

open Mir (FlexInt)

open TwosComplement

variable (mp : LibTomMath)

/-! ## Machine words -/

variable {w : ℕ}

theorem nativeMask_toNat (hw : w ≤ 64) : (nativeMask w).toNat = 2 ^ w - 1 := by
  unfold nativeMask
  split_ifs with h
  · subst h
    rfl
  · have hlt : 2 ^ w < 2 ^ 64 := Nat.pow_lt_pow_right (by decide) (by omega)
    have hpos := Nat.two_pow_pos w
    have hshift : (1#64 <<< w).toNat = 2 ^ w := by
      rw [BitVec.toNat_shiftLeft, BitVec.toNat_ofNat, Nat.shiftLeft_eq]
      omega
    have hone : (1 : BitVec 64).toNat = 1 := rfl
    rw [BitVec.toNat_sub, hshift, hone]
    omega

theorem and_nativeMask_toNat (hw : w ≤ 64) (v : BitVec 64) :
    (v &&& nativeMask w).toNat = v.toNat % 2 ^ w := by
  rw [BitVec.toNat_and, nativeMask_toNat hw, Nat.and_two_pow_sub_one_eq_mod]

theorem signBit_toNat (hw : 1 ≤ w) (hle : w ≤ 64) : (1#64 <<< (w - 1)).toNat = 2 ^ (w - 1) := by
  have hlt : 2 ^ (w - 1) < 2 ^ 64 := Nat.pow_lt_pow_right (by decide) (by omega)
  rw [BitVec.toNat_shiftLeft, BitVec.toNat_ofNat, Nat.shiftLeft_eq]
  omega

theorem and_signBit_ne_zero_iff (hw : 1 ≤ w) (hle : w ≤ 64) {v : BitVec 64}
    (hv : v.toNat < 2 ^ w) : v &&& 1#64 <<< (w - 1) ≠ 0 ↔ 2 ^ (w - 1) ≤ v.toNat := by
  rw [← and_two_pow_ne_zero_iff hw hv, Ne, Ne, ← BitVec.toNat_inj, BitVec.toNat_and,
    signBit_toNat hw hle]
  rfl

/-- The sign is put on the bits above the width. -/
theorem or_not_nativeMask_toInt (hw : 1 ≤ w) (hle : w < 64) {v : BitVec 64}
    (hv : v.toNat < 2 ^ w) : (v ||| ~~~nativeMask w).toInt = v.toNat - 2 ^ w := by
  have hpow : 2 ^ w ≤ 2 ^ 63 := Nat.pow_le_pow_right (by decide) (by omega)
  have hnot : (~~~nativeMask w).toNat = 2 ^ 64 - 2 ^ w := by
    rw [BitVec.toNat_not, nativeMask_toNat (by omega)]
    omega
  have hor : (v ||| ~~~nativeMask w).toNat = v.toNat + (2 ^ 64 - 2 ^ w) := by
    rw [BitVec.toNat_or, hnot, or_high hv (by omega)]
  rw [BitVec.toInt_eq_toNat_cond, hor, if_neg (by omega)]
  have hcast : ((2 ^ 64 - 2 ^ w : ℕ) : ℤ) = 2 ^ 64 - 2 ^ w := by
    rw [Nat.cast_sub (by omega)]
    push_cast
    rfl
  rw [Nat.cast_add, hcast]
  push_cast
  ring

/-- The residue that the machine path starts from. -/
theorem native_toNat (hw : w ≤ 64) (x : ℤ) :
    (((if x < 0 then ~~~mp.mpGetU64 x + 1 else mp.mpGetU64 x) &&& nativeMask w).toNat : ℤ) =
      |x| % 2 ^ w := by
  have hdvd : (2 : ℤ) ^ w ∣ 2 ^ 64 := pow_dvd_pow 2 hw
  have hword : (if x < 0 then ~~~mp.mpGetU64 x + 1 else mp.mpGetU64 x) = BitVec.ofInt 64 |x| := by
    rw [mp.getU64_eq]
    split_ifs with hneg
    · rw [abs_of_neg hneg, BitVec.ofInt_neg, BitVec.neg_eq_not_add]
      rfl
    · rw [abs_of_nonneg (by omega)]
  rw [hword, and_nativeMask_toNat hw, BitVec.toNat_ofInt]
  push_cast
  rw [toNat_of_nonneg (emod_nonneg _ (by decide))]
  exact emod_emod_of_dvd _ (by simpa using hdvd)

variable {n : FlexInt}

/-- The machine path wraps the magnitude. -/
theorem truncateNative_eq (hw : 1 ≤ n.bitWidth) (hle : n.bitWidth ≤ 64) :
    truncateNative mp n = wrap n.bitWidth n.isSigned |n.value| := by
  have hval := native_toNat mp hle n.value
  unfold truncateNative
  simp only []
  generalize (if n.value < 0 then ~~~mp.mpGetU64 n.value + 1 else mp.mpGetU64 n.value) &&&
    nativeMask n.bitWidth = v at hval ⊢
  have hlt : v.toNat < 2 ^ n.bitWidth := by
    have := emod_lt_of_pos |n.value| (two_pow_pos n.bitWidth)
    zify
    omega
  have hwrap : wrap n.bitWidth n.isSigned |n.value| = wrap n.bitWidth n.isSigned v.toNat := by
    rw [hval]
    exact wrap_congr _ (mod_modEq _ _).symm
  rw [hwrap]
  cases n.isSigned with
  | false =>
    rw [wrap_unsigned, emod_eq_of_lt (by omega) (by exact_mod_cast hlt)]
    rfl
  | true =>
    rw [wrap_signed_of_residue hw (by omega) (by exact_mod_cast hlt)]
    have hbit := and_signBit_ne_zero_iff hw hle hlt
    by_cases hge : 2 ^ (n.bitWidth - 1) ≤ v.toNat
    · have hge' : (2 : ℤ) ^ (n.bitWidth - 1) ≤ v.toNat := by exact_mod_cast hge
      rw [if_pos rfl, if_pos (hbit.mpr hge), if_pos hge']
      split_ifs with h64
      · rw [h64] at hge ⊢
        rw [BitVec.toInt_eq_toNat_cond, if_neg (by omega)]
        rfl
      · exact or_not_nativeMask_toInt hw (by omega) hlt
    · have hge' : ¬ (2 : ℤ) ^ (n.bitWidth - 1) ≤ v.toNat := by exact_mod_cast hge
      rw [if_pos rfl, if_neg (hbit.not.mpr hge), if_neg hge']

/-! ## The library path -/

variable {x : ℤ}

/-- The residue of a number, kept by the mask. -/
theorem and_modMask (hx : 0 ≤ x) : mp.mpAnd x (2 ^ w - 1) = x % 2 ^ w := by
  obtain ⟨k, rfl⟩ := eq_ofNat_of_zero_le hx
  have hmask : ((2 : ℤ) ^ w - 1) = ((2 ^ w - 1 : ℕ) : ℤ) := by
    rw [Nat.cast_sub Nat.one_le_two_pow]
    push_cast
    rfl
  rw [hmask, mp.and_eq, Nat.and_two_pow_sub_one_eq_mod]
  push_cast
  rfl

/-- The library path wraps the number. -/
theorem truncateWide_eq (hw : 1 ≤ n.bitWidth) :
    truncateWide mp n = wrap n.bitWidth n.isSigned n.value := by
  have hpos := two_pow_pos n.bitWidth
  have hnumber : mp.mpAnd (if n.value < 0 then mp.mpMod n.value (2 ^ n.bitWidth) + 2 ^ n.bitWidth
      else n.value) (2 ^ n.bitWidth - 1) = n.value % 2 ^ n.bitWidth := by
    split_ifs with hneg
    · have hmod : mp.mpMod n.value (2 ^ n.bitWidth) = n.value % 2 ^ n.bitWidth := by
        rw [mp.mod_eq _ _ hpos.ne', fmod_eq_emod_of_nonneg _ hpos.le]
      have hnonneg := emod_nonneg n.value hpos.ne'
      rw [hmod, and_modMask mp (by omega), add_emod_right, emod_emod]
    · exact and_modMask mp (by omega)
  unfold truncateWide
  simp only []
  rw [hnumber, ← wrap_congr n.isSigned (mod_modEq n.value (2 ^ n.bitWidth))]
  have hnonneg := emod_nonneg n.value hpos.ne'
  have hlt := emod_lt_of_pos n.value hpos
  cases n.isSigned with
  | false => rw [wrap_unsigned, emod_emod, if_neg (by decide)]
  | true => rw [wrap_signed_of_residue hw hnonneg hlt, if_pos rfl]

/-! ## The range -/

/-- A single bit at the top of the magnitude is the power of two. -/
theorem size_and_cntLsb_iff (hw : 1 ≤ w) (hx : x ≠ 0) :
    x.natAbs.size = w ∧ mp.mpCntLsb x = w - 1 ↔ x.natAbs = 2 ^ (w - 1) := by
  obtain ⟨m, hm⟩ := mp.cntLsb_spec x hx
  constructor
  · rintro ⟨hsize, hcnt⟩
    rw [hcnt] at hm
    have hlt : x.natAbs < 2 ^ w := Nat.size_le.mp hsize.le
    obtain ⟨v, rfl⟩ := Nat.exists_eq_add_of_le' hw
    rw [Nat.add_sub_cancel] at hm ⊢
    rw [hm, pow_succ] at hlt
    have hlt2 : 2 * m + 1 < 2 := Nat.lt_of_mul_lt_mul_left hlt
    rw [hm, show m = 0 by omega, mul_zero, zero_add, mul_one]
  · intro hpow
    have hsize : x.natAbs.size = w := by
      rw [hpow, Nat.size_pow]
      omega
    have hdvd : 2 * m + 1 ∣ 2 ^ (w - 1) := by
      rw [← hpow, hm]
      exact Nat.dvd_mul_left _ _
    have hone : 2 * m + 1 = 1 := by
      have hcop : Nat.Coprime (2 * m + 1) (2 ^ (w - 1)) := by
        refine Nat.Coprime.pow_right _ ?_
        simp
      exact hcop.eq_one_of_dvd hdvd
    rw [hone, mul_one, hpow] at hm
    exact ⟨hsize, (Nat.pow_right_injective le_rfl hm).symm⟩

theorem checkRange_fits_iff (hw : 1 ≤ n.bitWidth) (hx : n.value ≠ 0) :
    checkRange mp n = .fits ↔ InRange n.bitWidth n.isSigned n.value := by
  have htop := size_and_cntLsb_iff mp hw hx
  unfold checkRange
  simp only [mp.countBits_eq]
  cases n.isSigned with
  | true =>
    rw [inRange_iff_size hw, ← htop, if_pos rfl]
    split_ifs <;> simp_all
  | false =>
    rw [inRange_unsigned_iff_size, if_neg (by decide)]
    split_ifs <;> simp_all

/-- The number that clamping leaves, by range and width. -/
def clamped (w : ℕ) (signed : Bool) (x : ℤ) : ℤ :=
  if InRange w signed x then x
  else if w ≤ 64 then wrap w signed |x|
  else wrap w signed x

theorem clampToTwosComplement_eq (hw : 1 ≤ w) (signed : Bool) (x : ℤ) :
    clampToTwosComplement mp ⟨x, w, signed⟩ =
      (⟨clamped w signed x, w, signed⟩, !decide (InRange w signed x)) := by
  unfold clampToTwosComplement clamped
  rw [if_neg (show ¬ (⟨x, w, signed⟩ : FlexInt).bitWidth = 0 by simp; omega)]
  by_cases hx : x = 0
  · subst hx
    have hzero := inRange_zero w signed
    simp [hzero]
  · rw [if_neg hx]
    have hfits := checkRange_fits_iff mp (n := ⟨x, w, signed⟩) hw hx
    by_cases hin : InRange w signed x
    · rw [hfits.mpr hin]
      simp [hin]
    · have hnative := truncateNative_eq mp (n := ⟨x, w, signed⟩) hw
      have hwide := truncateWide_eq mp (n := ⟨x, w, signed⟩) hw
      cases hcheck : checkRange mp ⟨x, w, signed⟩ with
      | fits => exact absurd (hfits.mp hcheck) hin
      | overflow | underflow =>
        by_cases h64 : w ≤ 64
        · simp [hin, h64, hnative h64]
        · simp [hin, h64, hwide]

theorem clampToTwosComplement_of_inRange (hw : 1 ≤ w) {signed : Bool} (hx : InRange w signed x) :
    clampToTwosComplement mp ⟨x, w, signed⟩ = (⟨x, w, signed⟩, false) := by
  rw [clampToTwosComplement_eq mp hw, clamped, if_pos hx]
  simp [hx]

/-- A number that is not negative is wrapped on either path. -/
theorem clampToTwosComplement_of_nonneg (hw : 1 ≤ w) (signed : Bool) (hx : 0 ≤ x) :
    (clampToTwosComplement mp ⟨x, w, signed⟩).1 = ⟨wrap w signed x, w, signed⟩ := by
  rw [clampToTwosComplement_eq mp hw, clamped]
  split_ifs with hin
  · rw [wrap_of_inRange hin]
  · rw [abs_of_nonneg hx]
  · rfl

/-- A number is clamped to its two's complement unless the machine path takes a negative
one, whose opposite it wraps. -/
def Faithful (w : ℕ) (signed : Bool) (x : ℤ) : Prop :=
  64 < w ∨ 0 ≤ x ∨ InRange w signed x ∨ 2 ^ w ∣ 2 * x

theorem clamped_eq_wrap_iff {signed : Bool} :
    clamped w signed x = wrap w signed x ↔ Faithful w signed x := by
  unfold clamped Faithful
  by_cases hin : InRange w signed x
  · simp [hin, wrap_of_inRange hin]
  by_cases h64 : w ≤ 64
  · rw [if_neg hin, if_pos h64]
    by_cases hx : 0 ≤ x
    · simp [abs_of_nonneg hx, hx]
    · rw [abs_of_neg (by omega), wrap_neg_eq_iff]
      simp [hin, hx, h64]
  · rw [if_neg hin, if_neg h64]
    simp
    omega

end EzPacker.FlexNumber
