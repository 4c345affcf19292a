import EzPacker.FlexNumber.LibBf

/-!
# Floats of any width

The constructors and the arithmetic as the code computes them. An operation rounds to the digits
of the width and then checks the range, after the number has been overwritten: one that throws
leaves the new number behind.
-/

namespace EzPacker.FlexNumber

open BinaryRounding

structure FlexFloat where
  bitWidth : ℕ
  number : BfNumber
  deriving DecidableEq

namespace FlexFloat

variable (lib : LibBf)

/-- Four times the binary logarithm, rounded to the nearest integer. A width is no odd power of the
eighth root of two, so there are no ties. -/
def roundLog4 (bitWidth : ℕ) : ℕ := (Nat.log2 (bitWidth ^ 8) + 1) / 2

/-- The digits of the width. -/
def getPrecBits (bitWidth : ℕ) : ℕ :=
  if bitWidth = 16 then 11
  else if bitWidth ≤ 32 then 24
  else if bitWidth ≤ 64 then 53
  else if bitWidth = 128 then 113
  else if 128 < bitWidth then
    let expBits := roundLog4 bitWidth - 13
    bitWidth - expBits - 1
  else bitWidth - 15

/-! ## The range of a width -/

def binary16 : Format := BfNumber.ieeeFormat 11 5

def binary32 : Format := BfNumber.ieeeFormat 24 8

def binary128 : Format := BfNumber.ieeeFormat 113 15

/-- The greatest number of a `float`. -/
def floatMax : ℚ := (2 ^ 24 - 1) * 2 ^ 104

def exceeds (b : BfNumber) (bound : ℚ) : Bool :=
  match b with
  | .nan => false
  | .inf s => !s
  | _ => bound < b.value

def overflow32 : String := "FlexFloat arithmetic caused an f32 precision target overflow."

def underflow32 : String := "FlexFloat arithmetic caused an f32 precision target underflow."

def overflow64 : String := "FlexFloat arithmetic caused an f64 precision target overflow."

/-- The object afterwards, and the error that was thrown. -/
def clampToFloatBounds (f : FlexFloat) : FlexFloat × Option String :=
  if f.bitWidth = 0 ∨ f.number.bfIsNan ∨ !f.number.bfIsFinite then (f, none)
  else if f.bitWidth ≤ 64 then
    let currentVal := lib.bfGetFloat64 f.number
    if f.bitWidth = 16 then ({ f with number := lib.bfRound f.number 11 }, none)
    else if f.bitWidth = 32 then
      if exceeds currentVal floatMax then (f, some overflow32)
      else if exceeds currentVal.negated floatMax then (f, some underflow32)
      else
        -- the conversion to `float` and back
        ({ f with number := currentVal.mapFinite (BfNumber.roundedIn binary32) }, none)
    else if f.bitWidth = 64 then
      match currentVal with
      | .inf _ => (f, some overflow64)
      | _ => (f, none)
    else (f, none)
  else ({ f with number := lib.bfRound f.number (getPrecBits f.bitWidth) }, none)

/-! ## Constructors -/

def widthError : String := "FlexFloat does not support widths below 16 bits."

def ofWidth (bitWidth : ℕ) : Except String FlexFloat :=
  if bitWidth ≠ 0 ∧ bitWidth < 16 then .error widthError else .ok ⟨bitWidth, .zero false⟩

/-- A constructor that throws makes no object. -/
def checked (r : FlexFloat × Option String) : Except String FlexFloat :=
  match r.2 with
  | some error => .error error
  | none => .ok r.1

def ofFloat (value : BfNumber) : Except String FlexFloat :=
  if value.bfIsNan then .ok ⟨32, .nan⟩ else checked (clampToFloatBounds lib ⟨32, value⟩)

def ofDouble (value : BfNumber) : Except String FlexFloat :=
  if value.bfIsNan then .ok ⟨64, .nan⟩ else checked (clampToFloatBounds lib ⟨64, value⟩)

def ofText (numberStr : List Char) (bitWidth radix : ℕ) : Except String FlexFloat := do
  let res ← ofWidth bitWidth
  if numberStr = [] ∨ radix < 2 ∨ 36 < radix then
    throw "Could not decode float because string is invalid or radix is not supported"
  let parsed := lib.bfAtof numberStr radix (getPrecBits bitWidth)
  if parsed.2 = 0 then throw "Error while decoding floating-point value from string"
  checked (clampToFloatBounds lib { res with number := parsed.1 })

/-! ## Arithmetic -/

def addAssign (f other : FlexFloat) : FlexFloat × Option String :=
  clampToFloatBounds lib
    { f with number := lib.bfAdd f.number other.number (getPrecBits f.bitWidth) }

def subAssign (f other : FlexFloat) : FlexFloat × Option String :=
  clampToFloatBounds lib
    { f with number := lib.bfSub f.number other.number (getPrecBits f.bitWidth) }

def mulAssign (f other : FlexFloat) : FlexFloat × Option String :=
  clampToFloatBounds lib
    { f with number := lib.bfMul f.number other.number (getPrecBits f.bitWidth) }

def divAssign (f other : FlexFloat) : FlexFloat × Option String :=
  if other.number.bfIsZero then (f, some "Floating-point division by zero.")
  else clampToFloatBounds lib
    { f with number := lib.bfDiv f.number other.number (getPrecBits f.bitWidth) }

def extend (f : FlexFloat) (newBitSize : ℕ) : FlexFloat × Option String :=
  if newBitSize < f.bitWidth then
    (f, some "FlexFloat::extend cannot be used to down-cast precision widths.")
  else if newBitSize ≠ 0 ∧ newBitSize < 16 then (f, some widthError)
  else if newBitSize = f.bitWidth then (f, none)
  else clampToFloatBounds lib { f with bitWidth := newBitSize }

/-! ## Numbers that the range check keeps -/

section Keeping

variable {b : BfNumber} {x : ℚ}

open BfNumber (Represents)

theorem bfRound_of_hasBits {prec : ℕ} (hp : 2 ≤ prec) (hmax : prec ≤ BF_PREC_MAX)
    (h : Represents b x) (hbits : HasBits prec x) (hlow : BfNumber.expMin ≤ magnitude x)
    (hhigh : magnitude x ≤ BfNumber.expMax) : lib.bfRound b prec = b := by
  rw [lib.round_eq b prec hp hmax, h.mapFinite_eq]
  exact BfNumber.rounded_of_hasBits (by omega) _ h hbits hlow hhigh

theorem bfGetFloat64_of_holds (h : Represents b x) (hx : BfNumber.binary64.Holds x) :
    lib.bfGetFloat64 b = b := by
  rw [lib.getFloat64_eq, h.mapFinite_eq]
  exact BfNumber.roundedIn_of_holds _ h hx

theorem binary64_of_binary32 (h : binary32.Holds x) : BfNumber.binary64.Holds x where
  onGrid := h.onGrid.mono (by decide)
  hasBits := h.hasBits.mono (by decide)
  lt := lt_of_lt_of_le h.lt (two_zpow_le (by decide))

/-- The numbers of a format end below its next power of two by one digit. -/
theorem abs_le_of_hasBits {p : ℕ} {k : ℤ} (hbits : HasBits p x) (hlt : |x| < 2 ^ (k + p)) :
    |x| ≤ (2 ^ p - 1) * 2 ^ k := by
  by_cases hx : x = 0
  · have hone : (1 : ℚ) ≤ 2 ^ p := one_le_pow₀ one_le_two
    rw [hx, abs_zero]
    exact mul_nonneg (by linarith) (two_zpow_pos k).le
  · have hmag := (magnitude_le_iff hx).mpr hlt
    obtain ⟨n, hn⟩ := hbits.onGrid.abs
    have hpos := two_zpow_pos (magnitude x - p)
    have hn' : (n : ℚ) < 2 ^ p := by
      have hsplit : (2 : ℚ) ^ p * 2 ^ (magnitude x - p) = 2 ^ magnitude x := by
        rw [← zpow_natCast, ← two_zpow_add]
        congr 1
        omega
      refine lt_of_mul_lt_mul_right ?_ hpos.le
      rw [hsplit, ← hn]
      exact lt_two_zpow_magnitude hx
    have hle : (n : ℚ) ≤ 2 ^ p - 1 := by
      have hint : n < 2 ^ p := by exact_mod_cast hn'
      have hint' : n ≤ 2 ^ p - 1 := by omega
      exact_mod_cast hint'
    have hone : (1 : ℚ) ≤ 2 ^ p := one_le_pow₀ one_le_two
    rw [hn]
    exact mul_le_mul hle (two_zpow_le (by omega)) hpos.le (by linarith)

theorem exceeds_of_represents (h : Represents b x) (bound : ℚ) :
    exceeds b bound = decide (bound < x) := by
  obtain ⟨s, m, k, hodd, rfl, rfl⟩ := h
  rfl

theorem represents_negated (h : Represents b x) : Represents b.negated (-x) := by
  obtain ⟨s, m, k, hodd, rfl, rfl⟩ := h
  refine ⟨!s, m, k, hodd, rfl, ?_⟩
  cases s <;> simp [BfNumber.negated, BfNumber.value]

theorem abs_le_floatMax (h : binary32.Holds x) : |x| ≤ floatMax := by
  have hle := abs_le_of_hasBits (k := 104) h.hasBits h.lt
  rw [show ((2 : ℚ) ^ (104 : ℤ)) = 2 ^ 104 from zpow_natCast 2 104] at hle
  exact hle

/-- The conditions under which the range check of a width keeps a number. -/
structure Keeps (w : ℕ) (x : ℚ) : Prop where
  hasBits : HasBits (getPrecBits w) x
  expMin_le : BfNumber.expMin ≤ magnitude x
  le_expMax : magnitude x ≤ BfNumber.expMax
  binary32 : w = 32 → binary32.Holds x
  binary64 : w = 64 → BfNumber.binary64.Holds x

theorem clampToFloatBounds_keeps {w : ℕ} (h : Represents b x) (hx : Keeps w x)
    (hp : 2 ≤ getPrecBits w) (hmax : getPrecBits w ≤ BF_PREC_MAX) :
    clampToFloatBounds lib ⟨w, b⟩ = (⟨w, b⟩, none) := by
  have hround := bfRound_of_hasBits lib hp hmax h hx.hasBits hx.expMin_le hx.le_expMax
  unfold clampToFloatBounds
  dsimp only
  split
  · rfl
  · split
    · rcases eq_or_ne w 16 with rfl | h16
      · rw [if_pos rfl]
        exact congrArg (fun b => (FlexFloat.mk 16 b, none)) hround
      rw [if_neg h16]
      rcases eq_or_ne w 32 with rfl | h32
      · have hholds := hx.binary32 rfl
        have hle := abs_le.mp (abs_le_floatMax hholds)
        rw [if_pos rfl, bfGetFloat64_of_holds lib h (binary64_of_binary32 hholds),
          exceeds_of_represents h, exceeds_of_represents (represents_negated h),
          if_neg (by simpa using hle.2), if_neg (by simpa using by linarith [hle.1]),
          h.mapFinite_eq, BfNumber.roundedIn_of_holds _ h hholds]
      rw [if_neg h32]
      rcases eq_or_ne w 64 with rfl | h64
      · rw [if_pos rfl, bfGetFloat64_of_holds lib h (hx.binary64 rfl)]
        obtain ⟨s, m, k, hodd, rfl, -⟩ := h
        rfl
      rw [if_neg h64]
    · exact congrArg (fun b => (FlexFloat.mk w b, none)) hround

end Keeping

end FlexFloat

end EzPacker.FlexNumber
