import EzPacker.FlexNumber.Text
import EzPacker.Lib.BinaryRounding

/-!
# The library of binary floating-point numbers

The numbers of LibBF and what its source bears out of the operations that floats are built
on. A result is rounded once to a number of digits, to nearest and to even. Without a flag a
number whose exponent leaves the range of the library is an infinity or a zero; with the flag
for subnormal numbers the range is that of so many exponent bits and the digits end at the
least multiple.
-/

namespace EzPacker.FlexNumber

open BinaryRounding

/-- A finite number other than zero has an odd mantissa here; `expn`, `len` and `tab` are the
fields of the library's own structure. -/
inductive BfNumber
  | nan
  | inf (sign : Bool)
  | zero (sign : Bool)
  | finite (sign : Bool) (mantissa : ℕ) (exponent : ℤ) (odd : mantissa % 2 = 1)
  deriving DecidableEq

namespace BfNumber

def BF_EXP_ZERO : ℤ := -2 ^ 63

def BF_EXP_INF : ℤ := 2 ^ 63 - 2

def BF_EXP_NAN : ℤ := 2 ^ 63 - 1

def sign : BfNumber → Bool
  | nan => false
  | inf s => s
  | zero s => s
  | finite s _ _ _ => s

/-- The mantissa as a fraction below one is multiplied by this power of two. -/
def expn : BfNumber → ℤ
  | nan => BF_EXP_NAN
  | inf _ => BF_EXP_INF
  | zero _ => BF_EXP_ZERO
  | finite _ m k _ => m.size + k

/-- The limbs of the mantissa, none of them a trailing zero. -/
def len : BfNumber → ℕ
  | finite _ m _ _ => (m.size + 63) / 64
  | _ => 0

/-- The mantissa with its leading digit on top of the limbs, the least limb first. -/
def tab : BfNumber → List (BitVec 64)
  | b@(finite _ m _ _) =>
    (List.range b.len).map fun i =>
      BitVec.ofNat 64 (m * 2 ^ (64 * b.len - m.size) / 2 ^ (64 * i))
  | _ => []

def bfIsNan : BfNumber → Bool
  | nan => true
  | _ => false

def bfIsFinite : BfNumber → Bool
  | nan => false
  | inf _ => false
  | _ => true

def bfIsZero : BfNumber → Bool
  | zero _ => true
  | _ => false

def value : BfNumber → ℚ
  | finite s m k _ => (if s then -1 else 1) * (m * 2 ^ k)
  | _ => 0

/-! ## Numbers of an integer and a power of two -/

def odd (n : ℕ) : ℕ := n / 2 ^ LibTomMath.trailingZeros n.size n

theorem eq_two_pow_mul_odd {n : ℕ} (h0 : n ≠ 0) :
    n = 2 ^ LibTomMath.trailingZeros n.size n * odd n := by
  obtain ⟨m, hm⟩ := LibTomMath.trailingZeros_spec n.size n h0 (Nat.lt_size_self n)
  rw [odd, Nat.mul_div_cancel']
  exact ⟨_, hm⟩

theorem odd_mod_two {n : ℕ} (h0 : n ≠ 0) : odd n % 2 = 1 := by
  obtain ⟨m, hm⟩ := LibTomMath.trailingZeros_spec n.size n h0 (Nat.lt_size_self n)
  have heq := eq_two_pow_mul_odd h0
  have hodd : odd n = 2 * m + 1 := Nat.eq_of_mul_eq_mul_left (Nat.two_pow_pos _) (heq.symm.trans hm)
  omega

/-- The number `n * 2 ^ q`, a zero of the given sign. -/
def ofScaled (sign : Bool) (n q : ℤ) : BfNumber :=
  if h : n = 0 then zero sign
  else finite (n < 0) (odd n.natAbs) (q + LibTomMath.trailingZeros n.natAbs.size n.natAbs)
    (odd_mod_two (Int.natAbs_ne_zero.mpr h))

/-! ## Rounding -/

/-- The exponents of numbers that are rounded without a flag. -/
def expMin : ℤ := -2 ^ 60 + 3

def expMax : ℤ := 2 ^ 60

/-- A rational rounded to digits. -/
def rounded (prec : ℕ) (sign : Bool) (x : ℚ) : BfNumber :=
  if x = 0 then zero sign
  else
    let q := magnitude x - prec
    let y := ofScaled sign (roundEven (x / 2 ^ q)) q
    if y.expn < expMin then zero sign
    else if expMax < y.expn then inf sign
    else y

def roundedIn (F : Format) (sign : Bool) (x : ℚ) : BfNumber :=
  let q := F.grid x
  let y := ofScaled sign (roundEven (x / 2 ^ q)) q
  if F.maxExponent < y.expn then inf sign else y

/-- The format of so many digits and exponent bits. -/
def ieeeFormat (prec expBits : ℕ) : Format where
  precision := prec
  minExponent := -2 ^ (expBits - 1) + 3 - prec
  maxExponent := 2 ^ (expBits - 1)

def binary64 : Format := ieeeFormat 53 11

def mapFinite (f : Bool → ℚ → BfNumber) : BfNumber → BfNumber
  | b@(finite s _ _ _) => f s b.value
  | b => b

/-- The sign of a sum that is zero is minus for two minus signs only. -/
def sumSign (a b : BfNumber) (x : ℚ) : Bool := if x = 0 then a.sign && b.sign else x < 0

def negated : BfNumber → BfNumber
  | nan => nan
  | inf s => inf !s
  | zero s => zero !s
  | finite s m k h => finite (!s) m k h

def sum (prec : ℕ) : BfNumber → BfNumber → BfNumber
  | nan, _ => nan
  | _, nan => nan
  | inf s, inf t => if s = t then inf s else nan
  | inf s, _ => inf s
  | _, inf t => inf t
  | a, b => rounded prec (sumSign a b (a.value + b.value)) (a.value + b.value)

def product (prec : ℕ) : BfNumber → BfNumber → BfNumber
  | nan, _ => nan
  | _, nan => nan
  | inf _, zero _ => nan
  | zero _, inf _ => nan
  | inf s, b => inf (s ^^ b.sign)
  | a, inf t => inf (a.sign ^^ t)
  | a, b => rounded prec (a.sign ^^ b.sign) (a.value * b.value)

def quotient (prec : ℕ) : BfNumber → BfNumber → BfNumber
  | nan, _ => nan
  | _, nan => nan
  | inf _, inf _ => nan
  | inf s, b => inf (s ^^ b.sign)
  | a, inf t => zero (a.sign ^^ t)
  | a, b => rounded prec (a.sign ^^ b.sign) (a.value / b.value)

/-! ## Values -/

/-- A finite number other than zero of the given value. -/
def Represents (b : BfNumber) (x : ℚ) : Prop :=
  ∃ s m k h, b = finite s m k h ∧ b.value = x

theorem abs_value (s : Bool) (m : ℕ) (k : ℤ) (h : m % 2 = 1) :
    |(finite s m k h).value| = m * 2 ^ k := by
  cases s
  · simp [value]
  · simp [value]

variable {m : ℕ}

theorem size_bounds (h0 : m ≠ 0) : 2 ^ (m.size - 1) ≤ m ∧ m < 2 ^ m.size := by
  have hpos : 0 < m.size := Nat.size_pos.mpr (Nat.pos_of_ne_zero h0)
  exact ⟨Nat.lt_size.mp (by omega), Nat.lt_size_self m⟩

theorem expn_eq_magnitude (s : Bool) (m : ℕ) (k : ℤ) (h : m % 2 = 1) :
    (finite s m k h).expn = magnitude (finite s m k h).value := by
  have h0 : m ≠ 0 := by rintro rfl; cases h
  obtain ⟨hlow, hhigh⟩ := size_bounds h0
  have hpos : 0 < m.size := Nat.size_pos.mpr (Nat.pos_of_ne_zero h0)
  symm
  rw [expn]
  refine magnitude_eq ?_ ?_
  · rw [abs_value, show (m.size + k - 1 : ℤ) = (m.size - 1 : ℕ) + k by omega, two_zpow_add,
      zpow_natCast]
    exact mul_le_mul_of_nonneg_right (by exact_mod_cast hlow) (two_zpow_pos k).le
  · rw [abs_value, two_zpow_add, zpow_natCast]
    exact mul_lt_mul_of_pos_right (by exact_mod_cast hhigh) (two_zpow_pos k)

namespace Represents

variable {a b : BfNumber} {x : ℚ}

theorem ne_zero (h : Represents b x) : x ≠ 0 := by
  obtain ⟨s, m, k, hodd, rfl, rfl⟩ := h
  have h0 : m ≠ 0 := by rintro rfl; cases hodd
  refine abs_pos.mp ?_
  rw [abs_value]
  exact mul_pos (by exact_mod_cast Nat.pos_of_ne_zero h0) (two_zpow_pos k)

theorem value_eq (h : Represents b x) : b.value = x := by
  obtain ⟨s, m, k, hodd, rfl, hx⟩ := h
  exact hx

theorem expn_eq (h : Represents b x) : b.expn = magnitude x := by
  obtain ⟨s, m, k, hodd, rfl, rfl⟩ := h
  exact expn_eq_magnitude s m k hodd

theorem sign_eq (h : Represents b x) : b.sign = decide (x < 0) := by
  obtain ⟨s, m, k, hodd, rfl, rfl⟩ := h
  have h0 : m ≠ 0 := by rintro rfl; cases hodd
  have hpos : (0 : ℚ) < m * 2 ^ k :=
    mul_pos (by exact_mod_cast Nat.pos_of_ne_zero h0) (two_zpow_pos k)
  cases s
  · simpa [sign, value] using hpos.le
  · simpa [sign, value] using hpos

/-- Lowest terms are unique. -/
theorem unique (ha : Represents a x) (hb : Represents b x) : a = b := by
  have hsign := ha.sign_eq.trans hb.sign_eq.symm
  obtain ⟨s, m, k, hodd, rfl, rfl⟩ := ha
  obtain ⟨s', m', k', hodd', rfl, hx⟩ := hb
  have habs := congrArg abs hx
  rw [abs_value, abs_value] at habs
  have hshift (m n : ℕ) (k : ℤ) (d : ℕ) (hm : m % 2 = 1)
      (h : (m : ℚ) * 2 ^ k = n * 2 ^ (k + d)) : d = 0 := by
    have hm' : (m : ℚ) = n * 2 ^ d := by
      rw [two_zpow_add, zpow_natCast] at h
      refine mul_right_cancel₀ (two_zpow_pos k).ne' (h.trans ?_)
      ring
    have hnat : m = n * 2 ^ d := by exact_mod_cast hm'
    by_contra hd
    obtain ⟨e, rfl⟩ := Nat.exists_eq_succ_of_ne_zero hd
    rw [Nat.pow_succ, ← mul_assoc] at hnat
    omega
  have hk : k = k' := by
    rcases le_total k k' with hle | hle
    · obtain ⟨d, rfl⟩ := Int.le.dest hle
      have := hshift m m' k d hodd habs.symm
      omega
    · obtain ⟨d, rfl⟩ := Int.le.dest hle
      have := hshift m' m k' d hodd' habs
      omega
  subst hk
  have hm : m = m' := by
    exact_mod_cast (mul_right_cancel₀ (two_zpow_pos k).ne' habs).symm
  subst hm
  simp only [sign] at hsign
  subst hsign
  rfl

theorem mapFinite_eq (h : Represents b x) (f : Bool → ℚ → BfNumber) :
    b.mapFinite f = f b.sign x := by
  obtain ⟨s, m, k, hodd, rfl, rfl⟩ := h
  rfl

end Represents

theorem represents_value (s : Bool) (m : ℕ) (k : ℤ) (h : m % 2 = 1) :
    Represents (finite s m k h) (finite s m k h).value := ⟨s, m, k, h, rfl, rfl⟩

variable {k : ℤ}

theorem onGrid_value_iff {q : ℤ} (s : Bool) (hodd : m % 2 = 1) :
    OnGrid q (finite s m k hodd).value ↔ q ≤ k := by
  constructor
  · intro h
    by_contra hlt
    obtain ⟨d, hd⟩ := Int.le.dest (show k + 1 ≤ q by omega)
    obtain ⟨n, hn⟩ := h.abs
    rw [abs_value, ← hd, show k + 1 + (d : ℤ) = (d + 1 : ℕ) + k by push_cast; ring, two_zpow_add,
      zpow_natCast, ← mul_assoc] at hn
    have hq := mul_right_cancel₀ (two_zpow_pos k).ne' hn
    have hint : (m : ℤ) = n * 2 ^ (d + 1) := by exact_mod_cast hq
    rw [pow_succ, ← mul_assoc] at hint
    omega
  · intro hle
    refine OnGrid.mono ⟨(if s then -1 else 1) * m, ?_⟩ hle
    cases s <;> simp [value]

theorem hasBits_value_iff {p : ℕ} (s : Bool) (hodd : m % 2 = 1) :
    HasBits p (finite s m k hodd).value ↔ m.size ≤ p := by
  have hmag := expn_eq_magnitude s m k hodd
  rw [expn] at hmag
  constructor
  · intro h
    have hgrid := (onGrid_value_iff s hodd).mp h.onGrid
    omega
  · intro hle
    refine ⟨k, (onGrid_value_iff s hodd).mpr le_rfl, ?_⟩
    refine (magnitude_le_iff (represents_value s m k hodd).ne_zero).mp ?_
    omega

theorem holds_value_iff {F : Format} (s : Bool) (hodd : m % 2 = 1) :
    F.Holds (finite s m k hodd).value ↔
      F.minExponent ≤ k ∧ m.size ≤ F.precision ∧ m.size + k ≤ F.maxExponent := by
  have hmag := expn_eq_magnitude s m k hodd
  rw [expn] at hmag
  have hlt : |(finite s m k hodd).value| < 2 ^ F.maxExponent ↔ m.size + k ≤ F.maxExponent := by
    rw [← magnitude_le_iff (represents_value s m k hodd).ne_zero, hmag]
  exact ⟨fun h => ⟨(onGrid_value_iff s hodd).mp h.onGrid, (hasBits_value_iff s hodd).mp h.hasBits,
    hlt.mp h.lt⟩, fun ⟨hgrid, hbits, hmax⟩ => ⟨(onGrid_value_iff s hodd).mpr hgrid,
    (hasBits_value_iff s hodd).mpr hbits, hlt.mpr hmax⟩⟩

theorem value_ofScaled (s : Bool) (n q : ℤ) : (ofScaled s n q).value = n * 2 ^ q := by
  unfold ofScaled
  split
  · rename_i h0
    simp [value, h0]
  · rename_i h0
    have hodd := eq_two_pow_mul_odd (Int.natAbs_ne_zero.mpr h0)
    have hcast : ((n.natAbs : ℕ) : ℚ) =
        2 ^ LibTomMath.trailingZeros n.natAbs.size n.natAbs * (odd n.natAbs : ℚ) := by
      exact_mod_cast hodd
    have hsign : (n : ℚ) = (if n < 0 then -1 else 1) * (n.natAbs : ℚ) := by
      rw [Nat.cast_natAbs, Int.cast_abs]
      split
      · rename_i hneg
        have hneg' : (n : ℚ) < 0 := by exact_mod_cast hneg
        rw [abs_of_neg hneg']
        ring
      · rename_i hnonneg
        have hnonneg' : (0 : ℚ) ≤ n := by exact_mod_cast not_lt.mp hnonneg
        rw [abs_of_nonneg hnonneg', one_mul]
    simp only [value, decide_eq_true_eq]
    rw [hsign, hcast, two_zpow_add, zpow_natCast]
    ring

theorem represents_ofScaled (s : Bool) {n : ℤ} (q : ℤ) (h0 : n ≠ 0) :
    Represents (ofScaled s n q) (n * 2 ^ q) := by
  have hvalue := value_ofScaled s n q
  rw [ofScaled, dif_neg h0] at hvalue ⊢
  exact ⟨_, _, _, _, rfl, hvalue⟩

theorem ofScaled_zero (s : Bool) (q : ℤ) : ofScaled s 0 q = zero s := rfl

variable {prec : ℕ} {x : ℚ}

/-- A rounded number, but for the range of the exponent. -/
theorem rounded_cases (hp : 1 ≤ prec) (s : Bool) (hx : x ≠ 0) :
    (magnitude (roundPrecision prec x) < expMin ∧ rounded prec s x = zero s) ∨
    (expMax < magnitude (roundPrecision prec x) ∧ rounded prec s x = inf s) ∨
    (expMin ≤ magnitude (roundPrecision prec x) ∧ magnitude (roundPrecision prec x) ≤ expMax ∧
      Represents (rounded prec s x) (roundPrecision prec x)) := by
  have hne := roundPrecision_ne_zero hp hx
  have hn : roundEven (x / 2 ^ (magnitude x - prec)) ≠ 0 := by
    intro h
    exact hne (by rw [roundPrecision, roundGrid, h]; simp)
  have hrep : Represents (ofScaled s (roundEven (x / 2 ^ (magnitude x - prec)))
      (magnitude x - prec)) (roundPrecision prec x) := represents_ofScaled s _ hn
  simp only [rounded, if_neg hx, hrep.expn_eq]
  split
  · rename_i hless
    exact .inl ⟨hless, rfl⟩
  · rename_i hless
    split
    · rename_i hmore
      exact .inr (.inl ⟨hmore, rfl⟩)
    · rename_i hmore
      exact .inr (.inr ⟨not_lt.mp hless, not_lt.mp hmore, hrep⟩)

/-- A number of few enough digits and in range is kept. -/
theorem rounded_of_hasBits (hp : 1 ≤ prec) (s : Bool) {b : BfNumber}
    (h : Represents b x) (hbits : HasBits prec x) (hlow : expMin ≤ magnitude x)
    (hhigh : magnitude x ≤ expMax) : rounded prec s x = b := by
  have hself := roundPrecision_of_hasBits hbits
  rcases rounded_cases hp s h.ne_zero with ⟨hlt, -⟩ | ⟨hgt, -⟩ | ⟨-, -, hrep⟩
  · rw [hself] at hlt; omega
  · rw [hself] at hgt; omega
  · rw [hself] at hrep; exact hrep.unique h

theorem rounded_congr (hp : 1 ≤ prec) (s : Bool) {y : ℚ} (hx : x ≠ 0) (hy : y ≠ 0)
    (h : roundPrecision prec x = roundPrecision prec y) : rounded prec s x = rounded prec s y := by
  rcases rounded_cases hp s hx with ⟨hx1, hx2⟩ | ⟨hx1, hx2⟩ | ⟨hx1, hx1', hx2⟩ <;>
    rcases rounded_cases hp s hy with ⟨hy1, hy2⟩ | ⟨hy1, hy2⟩ | ⟨hy1, hy1', hy2⟩
  all_goals rw [h] at hx1
  · rw [hx2, hy2]
  · exact absurd (hx1.trans_le (show expMin ≤ expMax by decide)) (not_lt.mpr hy1.le)
  · omega
  · exact absurd (hy1.trans_le (show expMin ≤ expMax by decide)) (not_lt.mpr hx1.le)
  · rw [hx2, hy2]
  · omega
  · omega
  · rw [h] at hx1'; omega
  · rw [h] at hx2; exact hx2.unique hy2

section Format

variable {F : Format} {x y : ℚ} (s : Bool)

theorem roundedIn_of_none (h : F.round x = none) : roundedIn F s x = inf s := by
  rw [Format.round_eq] at h
  split at h
  · cases h
  · rename_i hlt
    have hn : roundEven (x / 2 ^ F.grid x) ≠ 0 := by
      intro h0
      refine hlt ?_
      rw [roundGrid, h0]
      simpa using two_zpow_pos _
    have hrep := represents_ofScaled s (F.grid x) hn
    rw [roundedIn, if_pos]
    rw [hrep.expn_eq]
    exact not_le.mp fun hle => hlt ((magnitude_le_iff hrep.ne_zero).mp hle)

theorem roundedIn_of_zero (hp : 0 < F.maxExponent) (h : F.round x = some 0) :
    roundedIn F s x = zero s := by
  rw [Format.round_eq] at h
  split at h
  · have h0 : roundEven (x / 2 ^ F.grid x) = 0 := by
      have := Option.some.inj h
      rw [roundGrid, mul_eq_zero] at this
      rcases this with h0 | h0
      · exact_mod_cast h0
      · exact absurd h0 (two_zpow_pos _).ne'
    have hexpn : (zero s).expn ≤ 0 := show BF_EXP_ZERO ≤ 0 by decide
    rw [roundedIn]
    simp only [h0, ofScaled_zero]
    rw [if_neg (by omega)]
  · cases h

theorem represents_roundedIn (hy : y ≠ 0) (h : F.round x = some y) :
    Represents (roundedIn F s x) y := by
  rw [Format.round_eq] at h
  split at h
  · rename_i hlt
    obtain rfl := Option.some.inj h
    have hn : roundEven (x / 2 ^ F.grid x) ≠ 0 := by
      intro h0
      exact hy (by rw [roundGrid, h0]; simp)
    have hrep : Represents (ofScaled s (roundEven (x / 2 ^ F.grid x)) (F.grid x))
      (roundGrid (F.grid x) x) := represents_ofScaled s _ hn
    rw [roundedIn]
    simp only [hrep.expn_eq]
    rw [if_neg]
    · exact hrep
    · exact not_lt.mpr ((magnitude_le_iff hy).mpr hlt)
  · cases h

/-- A number of the format is kept. -/
theorem roundedIn_of_holds {b : BfNumber} (h : Represents b x) (hx : F.Holds x) :
    roundedIn F s x = b :=
  (represents_roundedIn s h.ne_zero (Format.round_of_holds hx)).unique h

end Format

end BfNumber

/-! ## The library -/

def BF_PREC_MAX : ℕ := 2 ^ 62 - 2

/-- The operations of the library, on the digits it supports. The value of a text is that of the
number it starts with. -/
structure LibBf where
  bfRound : BfNumber → ℕ → BfNumber
  /-- Rounding with the flag for subnormal numbers and with exponent bits. -/
  bfRoundSubnormal : BfNumber → ℕ → ℕ → BfNumber
  bfMul2exp : BfNumber → ℤ → ℕ → BfNumber
  bfAdd : BfNumber → BfNumber → ℕ → BfNumber
  bfSub : BfNumber → BfNumber → ℕ → BfNumber
  bfMul : BfNumber → BfNumber → ℕ → BfNumber
  bfDiv : BfNumber → BfNumber → ℕ → BfNumber
  bfGetFloat64 : BfNumber → BfNumber
  /-- The number that a text starts with, and the characters of it. -/
  bfAtof : List Char → ℕ → ℕ → BfNumber × ℕ
  textValue : List Char → ℕ → Option (Bool × ℚ)
  round_eq : ∀ b prec, 2 ≤ prec → prec ≤ BF_PREC_MAX →
    bfRound b prec = b.mapFinite (BfNumber.rounded prec)
  roundSubnormal_eq : ∀ b prec expBits, (b.len ≠ 0 → 2 ≤ prec ∧ prec ≤ BF_PREC_MAX ∧ 3 ≤ expBits ∧
    expBits ≤ 62) → bfRoundSubnormal b prec expBits =
      b.mapFinite (BfNumber.roundedIn (BfNumber.ieeeFormat prec expBits))
  mul2exp_eq : ∀ b (e : ℤ) prec, |e| < 2 ^ 62 → 2 ≤ prec → prec ≤ BF_PREC_MAX →
    bfMul2exp b e prec = b.mapFinite fun s x => BfNumber.rounded prec s (x * 2 ^ e)
  add_eq : ∀ a b prec, 2 ≤ prec → prec ≤ BF_PREC_MAX → bfAdd a b prec = BfNumber.sum prec a b
  sub_eq : ∀ a b prec, 2 ≤ prec → prec ≤ BF_PREC_MAX →
    bfSub a b prec = BfNumber.sum prec a b.negated
  mul_eq : ∀ a b prec, 2 ≤ prec → prec ≤ BF_PREC_MAX → bfMul a b prec = BfNumber.product prec a b
  div_eq : ∀ a b prec, b.bfIsZero = false → 2 ≤ prec → prec ≤ BF_PREC_MAX →
    bfDiv a b prec = BfNumber.quotient prec a b
  getFloat64_eq : ∀ b, bfGetFloat64 b = b.mapFinite (BfNumber.roundedIn BfNumber.binary64)
  atof_number : ∀ text radix prec s x, 2 ≤ radix → radix ≤ 36 → 2 ≤ prec → prec ≤ BF_PREC_MAX →
    textValue text radix = some (s, x) → (bfAtof text radix prec).1 = BfNumber.rounded prec s x
  atof_special : ∀ text radix prec, 2 ≤ radix → radix ≤ 36 → 2 ≤ prec → prec ≤ BF_PREC_MAX →
    textValue text radix = none →
    (bfAtof text radix prec).1 = .nan ∨ ∃ s, (bfAtof text radix prec).1 = .inf s
  atof_consumed : ∀ n prec, (bfAtof ('0' :: 'x' :: magnitudeText 16 n) 16 prec).2 ≠ 0
  textValue_hex : ∀ n : ℕ, textValue ('0' :: 'x' :: magnitudeText 16 n) 16 = some (false, (n : ℚ))

namespace LibBf

/-- The value of a hexadecimal integer. -/
def hexValue (text : List Char) (radix : ℕ) : Option (Bool × ℚ) :=
  match text with
  | '0' :: 'x' :: rest =>
    if radix = 16 then
      match readMagnitude 16 rest with
      | .ok n => some (false, (n : ℚ))
      | .error _ => none
    else none
  | _ => none

def numberOfText (text : List Char) (radix prec : ℕ) : BfNumber :=
  match hexValue text radix with
  | some (s, x) => BfNumber.rounded prec s x
  | none => .nan

theorem readMagnitude_magnitudeText (n : ℕ) : readMagnitude 16 (magnitudeText 16 n) = .ok n := by
  have hlt : ∀ d ∈ textDigits 16 n, d < 16 := textDigits_lt (by decide)
  have hread := readsDigits (textDigits 16 n) 16 (by decide) (by decide) hlt
  have hminus : ((textDigits 16 n).map digitChar).head? ≠ some '-' := by
    intro hhead
    obtain ⟨d, hd, hchar⟩ := List.mem_map.mp (List.mem_of_head? hhead)
    exact (digitChar_facts d (by have := hlt d hd; omega)).1 hchar
  rw [readRadix, if_neg hminus, ofDigits_textDigits] at hread
  rw [magnitudeText_eq]
  cases h : readMagnitude 16 ((textDigits 16 n).map digitChar) with
  | error e => rw [h] at hread; exact absurd hread (by simp [Except.map])
  | ok m =>
    rw [h] at hread
    have hm : (m : ℤ) = n := Except.ok.inj hread
    rw [show m = n by omega]

theorem hexValue_hex (n : ℕ) :
    hexValue ('0' :: 'x' :: magnitudeText 16 n) 16 = some (false, (n : ℚ)) := by
  simp [hexValue, readMagnitude_magnitudeText]

theorem numberOfText_number (text : List Char) (radix prec : ℕ) (s : Bool) (x : ℚ)
    (_ : 2 ≤ radix) (_ : radix ≤ 36) (_ : 2 ≤ prec) (_ : prec ≤ BF_PREC_MAX)
    (h : hexValue text radix = some (s, x)) :
    numberOfText text radix prec = BfNumber.rounded prec s x := by
  rw [numberOfText, h]

theorem numberOfText_special (text : List Char) (radix prec : ℕ)
    (_ : 2 ≤ radix) (_ : radix ≤ 36) (_ : 2 ≤ prec) (_ : prec ≤ BF_PREC_MAX)
    (h : hexValue text radix = none) :
    numberOfText text radix prec = .nan ∨ ∃ s, numberOfText text radix prec = .inf s := by
  rw [numberOfText, h]
  exact .inl rfl

/-- The library that rounds exactly and reads hexadecimal integers. -/
def exact : LibBf where
  bfRound b prec := b.mapFinite (BfNumber.rounded prec)
  bfRoundSubnormal b prec expBits :=
    b.mapFinite (BfNumber.roundedIn (BfNumber.ieeeFormat prec expBits))
  bfMul2exp b e prec := b.mapFinite fun s x => BfNumber.rounded prec s (x * 2 ^ e)
  bfAdd a b prec := BfNumber.sum prec a b
  bfSub a b prec := BfNumber.sum prec a b.negated
  bfMul a b prec := BfNumber.product prec a b
  bfDiv a b prec := BfNumber.quotient prec a b
  bfGetFloat64 b := b.mapFinite (BfNumber.roundedIn BfNumber.binary64)
  bfAtof text radix prec := (numberOfText text radix prec, text.length)
  textValue := hexValue
  round_eq _ _ _ _ := rfl
  roundSubnormal_eq _ _ _ _ := rfl
  mul2exp_eq _ _ _ _ _ _ := rfl
  add_eq _ _ _ _ _ := rfl
  sub_eq _ _ _ _ _ := rfl
  mul_eq _ _ _ _ _ := rfl
  div_eq _ _ _ _ _ _ := rfl
  getFloat64_eq _ := rfl
  atof_number := numberOfText_number
  atof_special := numberOfText_special
  atof_consumed _ _ := Nat.succ_ne_zero _
  textValue_hex := hexValue_hex

end LibBf

end EzPacker.FlexNumber
