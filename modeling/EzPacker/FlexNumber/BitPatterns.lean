import EzPacker.FlexNumber.Serialisation
import EzPacker.FlexNumber.FlexFloat

/-!
# Bit patterns of floats

The encoder rounds a number to the format of the width and takes the bits from the limbs of the
mantissa; the decoder reads the fields of a pattern as a hexadecimal integer and scales it. A
shift by more bits than a word has is undefined.
-/

namespace EzPacker.FlexNumber

open BfNumber Except Int Nat List

open Mir (FlexInt)
open BinaryRounding TwosComplement

namespace FlexFloat

variable (mp : LibTomMath) (conversions : RadixConversions) (lib : LibBf)

/-! ## The fields of a width -/

structure IeeeParams where
  totalBits : ℕ
  expBits : ℕ
  prec : ℕ
  bias : ℤ

def undefinedShift : String := "undefined: a shift by the width of a word"

def getIeeeParams (bitWidth : ℕ) : Except String IeeeParams :=
  if bitWidth = 16 then .ok ⟨16, 5, 11, 15⟩
  else if bitWidth = 32 then .ok ⟨32, 8, 24, 127⟩
  else if bitWidth = 64 then .ok ⟨64, 11, 53, 1023⟩
  else if bitWidth = 128 then .ok ⟨128, 15, 113, 16383⟩
  else if bitWidth = 256 then .ok ⟨256, 19, 237, 262143⟩
  else
    let expBits := roundLog4 bitWidth - 13
    -- one less than the sign bit of a word does not fit
    if 64 ≤ expBits then .error undefinedShift
    else .ok ⟨bitWidth, expBits, bitWidth - expBits, 2 ^ (expBits - 1) - 1⟩

def maxExpField (expBits : ℕ) : BitVec 64 := (1#64 <<< expBits) - 1

/-! ## The encoder -/

/-- A difference of sizes. -/
def subSize (a b : ℕ) : ℕ := if b ≤ a then a - b else 2 ^ 64 + a - b

/-- The bits of a slice set one by one, from a position on. -/
def setBits (totalBits : ℕ) (extracted : FlexInt) (count shiftUp : ℕ) : Except String FlexInt :=
  (List.range count).foldlM
    (fun fracPart k =>
      if getU64 mp (extractBits mp extracted k 1 false) ≠ 0 then
        bitOr mp fracPart (shl mp (ofU64 mp 1 totalBits) (k + shiftUp))
      else .ok fracPart)
    (ofU64 mp 0 totalBits)

def subnormalFraction (p : IeeeParams) (mantissaInt : FlexInt) (msbPos : ℕ) (e : ℤ) :
    Except String FlexInt :=
  let fracBits := p.prec - 1
  let shift := (1 - e).toNat
  if shift ≤ fracBits then
    let numExtract := fracBits + 1 - shift
    let startBit := subSize (msbPos + 1) numExtract
    let extracted := extractBits mp mantissaInt startBit numExtract false
    setBits mp p.totalBits extracted numExtract 0
  else .ok (ofU64 mp 0 p.totalBits)

def normalFraction (p : IeeeParams) (mantissaInt : FlexInt) (msbPos : ℕ) : Except String FlexInt :=
  let fracBits := p.prec - 1
  let startBit := if fracBits ≤ msbPos then msbPos - fracBits else 0
  let count := if fracBits ≤ msbPos then fracBits else msbPos
  let extracted := extractBits mp mantissaInt startBit count false
  let shiftUp := fracBits - count
  setBits mp p.totalBits extracted count shiftUp

/-- The pattern of a number that is rounded to the format. -/
def encodeNumber (p : IeeeParams) (b : BfNumber) : Except String FlexInt := do
  let fracBits := p.prec - 1
  let sgn : BitVec 64 := if b.sign then 1 else 0
  let signPart := shl mp (ofU64 mp sgn p.totalBits) (p.totalBits - 1)
  if b.bfIsNan then
    let expPart := shl mp (ofU64 mp (maxExpField p.expBits) p.totalBits) fracBits
    let fracPart := shl mp (ofU64 mp 1 p.totalBits) (fracBits - 1)
    let upper ← bitOr mp signPart expPart
    bitOr mp upper fracPart
  else if b.expn = BfNumber.BF_EXP_INF then
    let expPart := shl mp (ofU64 mp (maxExpField p.expBits) p.totalBits) fracBits
    bitOr mp signPart expPart
  else if b.expn = BfNumber.BF_EXP_ZERO ∨ b.len = 0 then return signPart
  else
    let e := b.expn + p.bias - 1
    let mantissaBitWidth := b.len * 64
    let mantissaInt := fromLimbs64 mp b.tab mantissaBitWidth false
    let msbPos := mantissaBitWidth - 1
    let fracPart ←
      if e ≤ 0 then subnormalFraction mp p mantissaInt msbPos e
      else normalFraction mp p mantissaInt msbPos
    let expField : BitVec 64 := if e ≤ 0 then 0 else BitVec.ofInt 64 e
    let expPart := shl mp (ofU64 mp expField p.totalBits) fracBits
    let upper ← bitOr mp signPart expPart
    bitOr mp upper fracPart

def bitcastToFlexInt (f : FlexFloat) : Except String FlexInt := do
  let p ← getIeeeParams f.bitWidth
  -- the flag of the library ends at 62 exponent bits
  if f.number.bfIsFinite ∧ f.number.len ≠ 0 ∧ 62 < p.expBits then throw undefinedShift
  let b :=
    if f.number.bfIsFinite then lib.bfRoundSubnormal f.number p.prec p.expBits else f.number
  encodeNumber mp p b

/-! ## The decoder -/

def withSign (b : BfNumber) (s : Bool) : BfNumber :=
  match b with
  | .nan => .nan
  | .inf _ => .inf s
  | .zero _ => .zero s
  | .finite _ m k h => .finite s m k h

/-- A significand read as a text and scaled. -/
def scaled (significand : FlexInt) (bitWidth : ℕ) (shiftExp : ℤ) (sgn : BitVec 64) :
    Except String FlexFloat := do
  let hexStr := toString conversions significand 16
  let read ← ofText lib ('0' :: 'x' :: hexStr) bitWidth 16
  let moved := lib.bfMul2exp read.number shiftExp (getPrecBits bitWidth)
  return ⟨bitWidth, withSign moved (sgn ≠ 0)⟩

def bitcastFromFlexInt (rawBits : FlexInt) (bitWidth : ℕ) : Except String FlexFloat := do
  let p ← getIeeeParams bitWidth
  let fracBits := p.prec - 1
  let res ← ofWidth bitWidth
  let sgn := getU64 mp (extractBits mp rawBits (p.totalBits - 1) 1 false)
  let expField := getU64 mp (extractBits mp rawBits fracBits p.expBits false)
  let frac := extractBits mp rawBits 0 fracBits false
  if expField = maxExpField p.expBits then
    if frac.value = 0 then return { res with number := .inf (sgn ≠ 0) }
    else return { res with number := .nan }
  else if expField = 0 then
    if frac.value = 0 then return { res with number := .zero (sgn ≠ 0) }
    else
      let shiftExp := (1 - p.bias) - fracBits
      scaled conversions lib frac bitWidth shiftExp sgn
  else
    let fullMantissa := shl mp (ofU64 mp 1 (fracBits + 2)) fracBits
    let fracExtended ← FlexNumber.extend mp frac (fracBits + 2) false
    let fullMantissa ← bitOr mp fullMantissa fracExtended
    let shiftExp := expField.toInt - p.bias - fracBits
    scaled conversions lib fullMantissa bitWidth shiftExp sgn

/-! ## Bytes -/

def writeIeeeBytes (f : FlexFloat) (destSize : ℕ) (endian : Endianness) :
    Except String (List UInt8) := do
  let rawBits ← bitcastToFlexInt mp lib f
  return writeBytes mp rawBits destSize endian

def readIeeeBytes (src : List UInt8) (bitWidth : ℕ) (endian : Endianness) :
    Except String FlexFloat :=
  bitcastFromFlexInt mp conversions lib (readBytes mp src bitWidth false endian) bitWidth

/-! ## Unsigned numbers -/

/-- A natural number as an integer of a width. -/
def bits (w n : ℕ) : FlexInt := ⟨n, w, false⟩

variable {m n : ℕ} {k : ℤ} {b : BfNumber}

section Unsigned

variable {w n : ℕ}

theorem inRange_bits (hn : n < 2 ^ w) : InRange w false (n : ℤ) :=
  inRange_unsigned.mpr ⟨natCast_nonneg n, by exact_mod_cast hn⟩

theorem ofU64_eq_bits (hw : 1 ≤ w) {v : BitVec 64} (hv : v.toNat < 2 ^ w) :
    ofU64 mp v w = bits w v.toNat := by
  rw [ofU64, clampToTwosComplement_of_inRange mp hw (inRange_bits hv), bits]

theorem shl_bits {s : ℕ} (hs : s < w) (hn : n * 2 ^ s < 2 ^ w) :
    shl mp (bits w n) s = bits w (n * 2 ^ s) := by
  obtain ⟨hwidth, hsigned, hrange, hcong⟩ := shl_of_lt mp hs false (n : ℤ)
  have hvalue : (shl mp (bits w n) s).value = (n * 2 ^ s : ℕ) := by
    obtain ⟨h0, hlt⟩ := inRange_unsigned.mp hrange
    have hleft := emod_eq_of_lt h0 hlt
    have hright : ((n * 2 ^ s : ℕ) : ℤ) % 2 ^ w = (n * 2 ^ s : ℕ) :=
      emod_eq_of_lt (natCast_nonneg _) (by exact_mod_cast hn)
    rw [bits, ← hleft, ← hright]
    push_cast
    exact hcong
  rw [bits] at hvalue ⊢
  rw [bits, ← hvalue]
  cases h : shl mp ⟨n, w, false⟩ s with
  | mk value bitWidth isSigned =>
    rw [h] at hwidth hsigned
    simp only at hwidth hsigned
    rw [hwidth, hsigned]

theorem normalizedUnsigned_bits (hw : 1 ≤ w) (hn : n < 2 ^ w) :
    normalizedUnsigned mp (bits w n) = n := by
  have hlt : (n : ℤ) < 2 ^ w := by exact_mod_cast hn
  rw [normalizedUnsigned_eq mp (n := bits w n) hw]
  exact emod_eq_of_lt (natCast_nonneg n) hlt

theorem bitOr_bits (hw : 1 ≤ w) (hm : m < 2 ^ w) (hn : n < 2 ^ w) :
    bitOr mp (bits w m) (bits w n) = .ok (bits w (m ||| n)) := by
  have hne : (bits w m).bitWidth ≠ 0 := by show w ≠ 0; omega
  have hcheck : checkCompatible (bits w m) (bits w n) = .ok () := checkCompatible_self w false m n
  simp only [bitOr, bitwise, normalizedUnsigned_bits mp hw hm, normalizedUnsigned_bits mp hw hn,
    mp.or_eq, if_neg hne, hcheck]
  rfl

theorem extractBits_eq_bits (hw : 1 ≤ w) {signed : Bool} {x : ℤ} (hx : InRange w signed x)
    (a m : ℕ) :
    extractBits mp ⟨x, w, signed⟩ a m false = bits m (x / 2 ^ a % 2 ^ m).toNat := by
  have hvalue := extractBits_value mp hw hx a m
  have hnonneg : 0 ≤ x / 2 ^ a % 2 ^ m := emod_nonneg _ (two_pow_pos m).ne'
  have hwidth : (extractBits mp ⟨x, w, signed⟩ a m false).bitWidth = m := by
    unfold extractBits
    simp only [ofU64_zero]
    split_ifs <;> rfl
  have hsigned : (extractBits mp ⟨x, w, signed⟩ a m false).isSigned = false := by
    unfold extractBits
    simp only [ofU64_zero]
    split_ifs <;> rfl
  rw [bits, toNat_of_nonneg hnonneg, ← hvalue]
  cases h : extractBits mp ⟨x, w, signed⟩ a m false with
  | mk value bitWidth isSigned =>
    rw [h] at hwidth hsigned
    simp only at hwidth hsigned
    rw [hwidth, hsigned]

theorem extractBits_bits (hw : 1 ≤ w) (hn : n < 2 ^ w) (a m : ℕ) :
    extractBits mp (bits w n) a m false = bits m (n / 2 ^ a % 2 ^ m) := by
  rw [bits, extractBits_eq_bits mp hw (inRange_bits hn)]
  norm_cast

theorem getU64_bits (w n : ℕ) : getU64 mp (bits w n) = BitVec.ofNat 64 n := by
  rw [getU64_eq, bits, BitVec.ofInt_natCast]

/-- Disjoint bits add up. -/
theorem or_two_pow_mul {a i : ℕ} (ha : a < 2 ^ i) (b : ℕ) : a ||| b * 2 ^ i = a + b * 2 ^ i := by
  rw [Nat.or_comm, Nat.mul_comm b, ← Nat.two_pow_add_eq_or_of_lt ha, Nat.add_comm]

/-- The loop over the bits of a slice copies it. -/
theorem setBits_bits {c : ℕ} (hc : 1 ≤ c) (hn : n < 2 ^ c) {count up : ℕ}
    (hcount : count + up ≤ w) (hw : 1 ≤ w) :
    setBits mp w (bits c n) count up = .ok (bits w (n % 2 ^ count * 2 ^ up)) := by
  unfold setBits
  induction count with
  | zero =>
    simp only [range_zero, foldlM_nil, ofU64_zero, pow_zero, mod_one, zero_mul]
    rfl
  | succ count ih =>
    have hlow : n % 2 ^ count * 2 ^ up < 2 ^ (count + up) := by
      rw [pow_add]
      exact Nat.mul_lt_mul_of_pos_right (Nat.mod_lt _ (Nat.two_pow_pos _)) (Nat.two_pow_pos _)
    have hfit : 2 ^ (count + up + 1) ≤ 2 ^ w := Nat.pow_le_pow_right (by decide) (by omega)
    have hone : shl mp (ofU64 mp 1 w) (count + up) = bits w (2 ^ (count + up)) := by
      rw [ofU64_eq_bits mp hw (Nat.one_lt_two_pow (by omega)),
        shl_bits mp (by omega) (by rw [show (1 : BitVec 64).toNat = 1 from rfl]; omega)]
      simp
    have hstep : n % 2 ^ (count + 1) * 2 ^ up =
        n % 2 ^ count * 2 ^ up + n / 2 ^ count % 2 * 2 ^ (count + up) := by
      rw [mod_pow_succ, pow_add]
      ring
    rw [range_succ, foldlM_append, ih (by omega)]
    simp only [foldlM_cons, foldlM_nil, hone,
      extractBits_bits mp hc hn, getU64_bits, pow_one]
    show (if BitVec.ofNat 64 (n / 2 ^ count % 2) ≠ 0 then
        bitOr mp (bits w (n % 2 ^ count * 2 ^ up)) (bits w (2 ^ (count + up)))
      else Except.ok (bits w (n % 2 ^ count * 2 ^ up))) >>= pure = _
    rcases mod_two_eq_zero_or_one (n / 2 ^ count) with hbit | hbit
    · rw [hbit, if_neg (by decide), hstep, hbit]
      simp [bind, Except.bind, pure, Except.pure]
    · have hor := or_two_pow_mul hlow 1
      rw [one_mul] at hor
      rw [hbit, if_pos (by decide), bitOr_bits mp hw (by omega) (by omega), hor, hstep, hbit,
        one_mul]
      rfl

/-- The mantissa with its leading digit on top of the limbs. -/
def topAligned (m : ℕ) : ℕ := m * 2 ^ (64 * ((m.size + 63) / 64) - m.size)

theorem topAligned_lt (m : ℕ) : topAligned m < 2 ^ ((m.size + 63) / 64 * 64) := by
  have hm := lt_size_self m
  calc topAligned m < 2 ^ m.size * 2 ^ (64 * ((m.size + 63) / 64) - m.size) :=
        Nat.mul_lt_mul_of_pos_right hm (Nat.two_pow_pos _)
    _ = 2 ^ ((m.size + 63) / 64 * 64) := by
        rw [← pow_add]
        congr 1
        omega

theorem fromLimbs64_tab (s : Bool) (k : ℤ) (hodd : m % 2 = 1) :
    fromLimbs64 mp (BfNumber.finite s m k hodd).tab ((BfNumber.finite s m k hodd).len * 64) false =
      bits ((BfNumber.finite s m k hodd).len * 64) (topAligned m) := by
  have hlt : topAligned m < 2 ^ ((finite s m k hodd).len * 64) := topAligned_lt m
  have hsize : 1 ≤ m.size := size_pos.mpr (by omega)
  have hlen : 1 ≤ (finite s m k hodd).len * 64 := by
    show 1 ≤ (m.size + 63) / 64 * 64
    omega
  have hrange : InRange ((finite s m k hodd).len * 64) false (topAligned m : ℤ) :=
    inRange_bits hlt
  have htab : (finite s m k hodd).tab =
      words64 mp ⟨topAligned m, (finite s m k hodd).len * 64, false⟩ 0
        (finite s m k hodd).len := by
    rw [words64, tab, range_eq_range']
    refine map_congr_left fun i hi => ?_
    rw [extractWord64_eq mp hlen hrange, mul_comm i 64]
    rw [← BitVec.ofInt_natCast]
    push_cast
    rfl
  rw [htab, bits]
  exact fromLimbs64_words64 mp hrange le_rfl

section Fractions

variable {p : IeeeParams} {m : ℕ}

theorem topAligned_div {N : ℕ} (hle : m.size ≤ N) (hfit : N ≤ (m.size + 63) / 64 * 64) :
    topAligned m / 2 ^ ((m.size + 63) / 64 * 64 - N) = m * 2 ^ (N - m.size) := by
  have hsplit : 64 * ((m.size + 63) / 64) - m.size =
      (N - m.size) + ((m.size + 63) / 64 * 64 - N) := by omega
  rw [topAligned, hsplit, pow_add, ← mul_assoc, Nat.mul_div_cancel _ (Nat.two_pow_pos _)]

theorem mul_two_pow_lt {N : ℕ} (hle : m.size ≤ N) : m * 2 ^ (N - m.size) < 2 ^ N := by
  calc m * 2 ^ (N - m.size) < 2 ^ m.size * 2 ^ (N - m.size) :=
        Nat.mul_lt_mul_of_pos_right (Nat.lt_size_self m) (Nat.two_pow_pos _)
    _ = 2 ^ N := by rw [← pow_add]; congr 1; omega

/-- The subnormal fraction, which is lost where the digits begin above the limbs. -/
theorem subnormalFraction_eq (hm : 1 ≤ m.size) {N : ℕ} (hle : m.size ≤ N) (hN : N ≤ p.prec - 1)
    (hprec : p.prec ≤ p.totalBits) (hword : p.prec < 2 ^ 64) :
    subnormalFraction mp p (bits ((m.size + 63) / 64 * 64) (topAligned m))
        ((m.size + 63) / 64 * 64 - 1) ((N : ℤ) - (p.prec - 1 : ℕ)) =
      .ok (bits p.totalBits (if N ≤ (m.size + 63) / 64 * 64 then m * 2 ^ (N - m.size) else 0)) := by
  have hshift : (1 - ((N : ℤ) - (p.prec - 1 : ℕ))).toNat = 1 + (p.prec - 1) - N := by omega
  have hextract : p.prec - 1 + 1 - (1 + (p.prec - 1) - N) = N := by omega
  have htop : (m.size + 63) / 64 * 64 - 1 + 1 = (m.size + 63) / 64 * 64 := by omega
  have hlt := topAligned_lt m
  rw [subnormalFraction, hshift, if_pos (by omega), hextract, htop]
  dsimp only
  rw [extractBits_bits mp (by omega) hlt,
    setBits_bits mp (by omega) (Nat.mod_lt _ (Nat.two_pow_pos N)) (by omega) (by omega),
    mod_mod, pow_zero, mul_one]
  split
  · rename_i hfit
    rw [subSize, if_pos hfit, topAligned_div hle hfit, mod_eq_of_lt (mul_two_pow_lt hle)]
  · rename_i hfit
    have hbig : 2 ^ ((m.size + 63) / 64 * 64) ≤ 2 ^ (2 ^ 64 + (m.size + 63) / 64 * 64 - N) :=
      Nat.pow_le_pow_right (by decide) (by omega)
    rw [subSize, if_neg hfit, div_eq_of_lt (lt_of_lt_of_le hlt hbig), zero_mod]

/-- The normal fraction has the digits below the leading one. -/
theorem normalFraction_eq (hm : 1 ≤ m.size) (hle : m.size ≤ p.prec)
    (hprec : p.prec ≤ p.totalBits) (hfrac : 1 ≤ p.prec - 1) :
    normalFraction mp p (bits ((m.size + 63) / 64 * 64) (topAligned m))
        ((m.size + 63) / 64 * 64 - 1) =
      .ok (bits p.totalBits (m * 2 ^ (p.prec - m.size) % 2 ^ (p.prec - 1))) := by
  have hlt := topAligned_lt m
  unfold normalFraction
  dsimp only
  by_cases hfit : p.prec - 1 ≤ (m.size + 63) / 64 * 64 - 1
  · have hstart :
      (m.size + 63) / 64 * 64 - 1 - (p.prec - 1) = (m.size + 63) / 64 * 64 - p.prec := by
      omega
    rw [if_pos hfit, if_pos hfit, hstart, extractBits_bits mp (by omega) hlt,
      setBits_bits mp hfrac (Nat.mod_lt _ (Nat.two_pow_pos _)) (by omega) (by omega),
      topAligned_div hle (by omega), Nat.mod_mod, Nat.sub_self, pow_zero, mul_one]
  · have hshift : topAligned m * 2 ^ (p.prec - 1 - ((m.size + 63) / 64 * 64 - 1)) =
        m * 2 ^ (p.prec - m.size) := by
      rw [topAligned, mul_assoc, ← pow_add]
      congr 2
      omega
    have hpow : 2 ^ ((m.size + 63) / 64 * 64 - 1) *
        2 ^ (p.prec - 1 - ((m.size + 63) / 64 * 64 - 1)) = 2 ^ (p.prec - 1) := by
      rw [← pow_add]
      congr 1
      omega
    rw [if_neg hfit, if_neg hfit, extractBits_bits mp (by omega) hlt,
      setBits_bits mp (by omega) (Nat.mod_lt _ (Nat.two_pow_pos _)) (by omega) (by omega),
      pow_zero, Nat.div_one, Nat.mod_mod, ← Nat.mul_mod_mul_right, hpow, hshift]

end Fractions

end Unsigned

/-! ## The layout of a width -/

def expBitsOf (bitWidth : ℕ) : ℕ :=
  if bitWidth = 16 then 5
  else if bitWidth = 32 then 8
  else if bitWidth = 64 then 11
  else if bitWidth = 128 then 15
  else if bitWidth = 256 then 19
  else roundLog4 bitWidth - 13

def layout (bitWidth : ℕ) : IeeeParams where
  totalBits := bitWidth
  expBits := expBitsOf bitWidth
  prec := bitWidth - expBitsOf bitWidth
  bias := 2 ^ (expBitsOf bitWidth - 1) - 1

theorem getIeeeParams_eq (bitWidth : ℕ) : getIeeeParams bitWidth =
      if 64 ≤ expBitsOf bitWidth then .error undefinedShift else .ok (layout bitWidth) := by
  rcases eq_or_ne bitWidth 16 with rfl | h16
  · rfl
  rcases eq_or_ne bitWidth 32 with rfl | h32
  · rfl
  rcases eq_or_ne bitWidth 64 with rfl | h64
  · rfl
  rcases eq_or_ne bitWidth 128 with rfl | h128
  · rfl
  rcases eq_or_ne bitWidth 256 with rfl | h256
  · rfl
  simp only [getIeeeParams, layout, expBitsOf, if_neg h16, if_neg h32, if_neg h64, if_neg h128,
    if_neg h256]

section Width

variable {w : ℕ}

theorem roundLog4_le (hw : 1 ≤ w) : roundLog4 w ≤ 4 * Nat.log2 w + 4 := by
  have hlt : w ^ 8 < 2 ^ (8 * log2 w + 8) := by
    calc w ^ 8 < (2 ^ (Nat.log2 w + 1)) ^ 8 := Nat.pow_lt_pow_left Nat.lt_log2_self (by decide)
      _ = 2 ^ (8 * log2 w + 8) := by rw [← pow_mul]; congr 1; ring
  have hlog := (log2_lt (pow_pos hw 8).ne').mpr hlt
  rw [roundLog4]
  omega

theorem le_roundLog4 {k : ℕ} (hk : 2 ^ k ≤ w) : 4 * k ≤ roundLog4 w := by
  have hw : w ≠ 0 := (lt_of_lt_of_le (Nat.two_pow_pos k) hk).ne'
  have hle : 2 ^ (8 * k) ≤ w ^ 8 := by
    rw [mul_comm, pow_mul]
    exact Nat.pow_le_pow_left hk 8
  have hlog := (le_log2 (pow_pos (pos_of_ne_zero hw) 8).ne').mpr hle
  rw [roundLog4]
  omega

theorem four_mul_le_two_pow {k : ℕ} (hk : 4 ≤ k) : 4 * k ≤ 2 ^ k := by
  induction k, hk using le_induction with
  | base => decide
  | succ k hk ih => rw [pow_succ]; omega

theorem roundLog4_add_le (hw : 16 ≤ w) : roundLog4 w - 13 + 9 ≤ w := by
  have hlog : 4 ≤ log2 w := (le_log2 (by omega)).mpr hw
  have hpow : 2 ^ log2 w ≤ w := log2_self_le (by omega)
  have hle := roundLog4_le (show 1 ≤ w by omega)
  have hfour := four_mul_le_two_pow hlog
  omega

theorem expBitsOf_bounds (hw : 16 ≤ w) : 3 ≤ expBitsOf w ∧ expBitsOf w + 9 ≤ w := by
  have hlog := roundLog4_add_le hw
  have hfour := le_roundLog4 (w := w) (k := 4) hw
  unfold expBitsOf
  split_ifs <;> omega

theorem width_lt (h : expBitsOf w ≤ 63) : w < 2 ^ 20 := by
  by_contra hge
  have hfour := le_roundLog4 (w := w) (k := 20) (not_lt.mp hge)
  unfold expBitsOf at h
  split_ifs at h <;> omega

theorem getPrecBits_bounds (hw : 16 ≤ w) : 2 ≤ getPrecBits w ∧ getPrecBits w ≤ max 53 w := by
  have hlog := roundLog4_add_le hw
  simp only [getPrecBits]
  split_ifs <;> omega

end Width

/-! ## Fields -/

def fracBitsOf (w : ℕ) : ℕ := w - expBitsOf w - 1

/-- The pattern of a sign, an exponent field and a fraction. -/
def fields (w : ℕ) (s : Bool) (e f : ℕ) : ℕ := s.toNat * 2 ^ (w - 1) + e * 2 ^ fracBitsOf w + f

section Fields

variable {w : ℕ} {e f : ℕ}

theorem maxExpField_toNat (hn : n ≤ 63) : (maxExpField n).toNat = 2 ^ n - 1 := by
  have hle : 2 ^ n ≤ 2 ^ 63 := Nat.pow_le_pow_right (by decide) hn
  have hpos := Nat.two_pow_pos n
  have hone : (1#64 <<< n).toNat = 2 ^ n := by
    rw [BitVec.toNat_shiftLeft, Nat.shiftLeft_eq, Nat.mod_eq_of_lt]
    · simp
    · simp; omega
  rw [maxExpField, BitVec.toNat_sub_of_le, hone]
  · rfl
  · rw [BitVec.le_def, hone]
    exact hpos

theorem signPart_eq (hw : 1 ≤ w) (s : Bool) :
    shl mp (ofU64 mp (if s then 1 else 0) w) (w - 1) = bits w (s.toNat * 2 ^ (w - 1)) := by
  have hlt := Nat.pow_lt_pow_right (show 1 < 2 by decide) (show w - 1 < w by omega)
  have hone : (if s then (1 : BitVec 64) else 0).toNat = s.toNat := by cases s <;> rfl
  have hle : s.toNat ≤ 1 := Bool.toNat_le s
  have htwo := Nat.two_pow_pos (w - 1)
  have hmul : s.toNat * 2 ^ (w - 1) < 2 ^ w := by
    calc s.toNat * 2 ^ (w - 1) ≤ 1 * 2 ^ (w - 1) := Nat.mul_le_mul_right _ hle
      _ < 2 ^ w := by omega
  rw [ofU64_eq_bits mp hw (by rw [hone]; omega), hone, shl_bits mp (by omega) hmul]

section

variable (hw : 16 ≤ w)
include hw

theorem expPart_eq {v : BitVec 64} (hv : v.toNat < 2 ^ expBitsOf w) :
    shl mp (ofU64 mp v w) (fracBitsOf w) = bits w (v.toNat * 2 ^ fracBitsOf w) := by
  obtain ⟨hlow, hhigh⟩ := expBitsOf_bounds hw
  have hle : 2 ^ expBitsOf w ≤ 2 ^ w := Nat.pow_le_pow_right (by decide) (by omega)
  have hmul : v.toNat * 2 ^ fracBitsOf w < 2 ^ w := by
    calc v.toNat * 2 ^ fracBitsOf w < 2 ^ expBitsOf w * 2 ^ fracBitsOf w :=
          Nat.mul_lt_mul_of_pos_right hv (Nat.two_pow_pos _)
      _ = 2 ^ (w - 1) := by rw [← pow_add, fracBitsOf]; congr 1; omega
      _ ≤ 2 ^ w := Nat.pow_le_pow_right (by decide) (by omega)
  rw [ofU64_eq_bits mp (by omega) (by omega), shl_bits mp (by unfold fracBitsOf; omega) hmul]

theorem exponent_lt (he : e < 2 ^ expBitsOf w) (hf : f < 2 ^ fracBitsOf w) :
    e * 2 ^ fracBitsOf w + f < 2 ^ (w - 1) := by
  obtain ⟨hlow, hhigh⟩ := expBitsOf_bounds hw
  have hpow : 2 ^ (w - 1) = 2 ^ expBitsOf w * 2 ^ fracBitsOf w := by
    rw [← pow_add, fracBitsOf]; congr 1; omega
  have hle : (e + 1) * 2 ^ fracBitsOf w ≤ 2 ^ expBitsOf w * 2 ^ fracBitsOf w :=
    mul_le_mul_right _ he
  rw [hpow]
  rw [add_mul, one_mul] at hle
  omega

theorem fields_lt (s : Bool) (he : e < 2 ^ expBitsOf w) (hf : f < 2 ^ fracBitsOf w) :
    fields w s e f < 2 ^ w := by
  have hlt := exponent_lt hw he hf
  have hpow : 2 ^ w = 2 * 2 ^ (w - 1) := by rw [← pow_succ']; congr 1; omega
  have hle : s.toNat * 2 ^ (w - 1) ≤ 1 * 2 ^ (w - 1) :=
    mul_le_mul_right _ (Bool.toNat_le s)
  rw [fields, hpow]
  omega

/-- The parts of a pattern do not meet. -/
theorem assemble (s : Bool) (he : e < 2 ^ expBitsOf w) (hf : f < 2 ^ fracBitsOf w) :
    bitOr mp (bits w (s.toNat * 2 ^ (w - 1))) (bits w (e * 2 ^ fracBitsOf w)) =
        .ok (bits w (fields w s e 0)) ∧
      bitOr mp (bits w (fields w s e 0)) (bits w f) = .ok (bits w (fields w s e f)) := by
  obtain ⟨hlow, hhigh⟩ := expBitsOf_bounds hw
  have hfrac := Nat.two_pow_pos (fracBitsOf w)
  have hexp := exponent_lt hw he hfrac
  have hfull := fields_lt hw s he hf
  have hsign : s.toNat * 2 ^ (w - 1) = s.toNat * 2 ^ expBitsOf w * 2 ^ fracBitsOf w := by
    rw [mul_assoc, ← pow_add, fracBitsOf]; congr 2; omega
  have hupper : fields w s e 0 = (s.toNat * 2 ^ expBitsOf w + e) * 2 ^ fracBitsOf w := by
    rw [fields, hsign]; ring
  unfold fields at hfull
  constructor
  · rw [bitOr_bits mp (by omega) (by omega) (by omega), Nat.or_comm, or_two_pow_mul (by omega),
      fields]
    congr 2
    omega
  · rw [bitOr_bits mp (by omega) (by unfold fields; omega) (by omega), Nat.or_comm, hupper,
      or_two_pow_mul hf, fields, hsign]
    congr 2
    ring

theorem fields_frac (s : Bool) (hf : f < 2 ^ fracBitsOf w) :
    fields w s e f % 2 ^ fracBitsOf w = f := by
  obtain ⟨hlow, hhigh⟩ := expBitsOf_bounds hw
  have hsign : s.toNat * 2 ^ (w - 1) = s.toNat * 2 ^ expBitsOf w * 2 ^ fracBitsOf w := by
    rw [mul_assoc, ← pow_add, fracBitsOf]; congr 2; omega
  rw [fields, hsign, ← add_mul, add_comm, add_mul_mod_self_right, mod_eq_of_lt hf]

theorem fields_exp (s : Bool) (he : e < 2 ^ expBitsOf w) (hf : f < 2 ^ fracBitsOf w) :
    fields w s e f / 2 ^ fracBitsOf w % 2 ^ expBitsOf w = e := by
  obtain ⟨hlow, hhigh⟩ := expBitsOf_bounds hw
  have hsign : s.toNat * 2 ^ (w - 1) = s.toNat * 2 ^ expBitsOf w * 2 ^ fracBitsOf w := by
    rw [mul_assoc, ← pow_add, fracBitsOf]; congr 2; omega
  rw [fields, hsign, ← Nat.add_mul, Nat.add_comm, Nat.add_mul_div_right _ _ (Nat.two_pow_pos _),
    div_eq_of_lt hf, zero_add, add_comm, add_mul_mod_self_right,
    mod_eq_of_lt he]

theorem fields_sign (s : Bool) (he : e < 2 ^ expBitsOf w) (hf : f < 2 ^ fracBitsOf w) :
    fields w s e f / 2 ^ (w - 1) % 2 = s.toNat := by
  have hlt := exponent_lt hw he hf
  rw [fields, Nat.add_assoc, Nat.add_comm, Nat.add_mul_div_right _ _ (Nat.two_pow_pos _),
    div_eq_of_lt hlt, zero_add]
  cases s <;> rfl

theorem fields_self (hn : n < 2 ^ w) :
    fields w (n / 2 ^ (w - 1) % 2 = 1) (n / 2 ^ fracBitsOf w % 2 ^ expBitsOf w)
      (n % 2 ^ fracBitsOf w) = n := by
  obtain ⟨hlow, hhigh⟩ := expBitsOf_bounds hw
  have hpow : 2 ^ (w - 1) = 2 ^ fracBitsOf w * 2 ^ expBitsOf w := by
    rw [← pow_add, fracBitsOf]; congr 1; omega
  have htwo : 2 ^ w = 2 ^ (w - 1) * 2 := by rw [← pow_succ]; congr 1; omega
  have hsign : (decide (n / 2 ^ (w - 1) % 2 = 1)).toNat = n / 2 ^ (w - 1) := by
    have hlt : n / 2 ^ (w - 1) < 2 := Nat.div_lt_of_lt_mul (htwo ▸ hn)
    rcases Nat.le_one_iff_eq_zero_or_eq_one.mp (Nat.lt_succ_iff.mp hlt) with h | h
    · rw [h]; rfl
    · rw [h]; rfl
  have hfrac := Nat.div_add_mod n (2 ^ fracBitsOf w)
  have hexp := Nat.div_add_mod (n / 2 ^ fracBitsOf w) (2 ^ expBitsOf w)
  rw [Nat.div_div_eq_div_mul, ← hpow] at hexp
  rw [fields, hsign]
  conv_rhs => rw [← hfrac, ← hexp]
  rw [hpow]
  ring

end

end Fields

/-! ## What the encoder gives -/

/-- The format of a width. -/
def formatOf (w : ℕ) : Format := BfNumber.ieeeFormat (w - expBitsOf w) (expBitsOf w)

section Encoding

variable {w : ℕ}

theorem maxField_lt (hexp : expBitsOf w ≤ 63) :
    (maxExpField (layout w).expBits).toNat = 2 ^ expBitsOf w - 1 ∧
      (maxExpField (layout w).expBits).toNat < 2 ^ expBitsOf w := by
  have hmax := maxExpField_toNat hexp
  have hpos := Nat.two_pow_pos (expBitsOf w)
  exact ⟨hmax, by rw [show (layout w).expBits = expBitsOf w from rfl, hmax]; omega⟩

theorem encode_nan (hw : 16 ≤ w) (hexp : expBitsOf w ≤ 63) : encodeNumber mp (layout w) .nan =
      .ok (bits w (fields w false (2 ^ expBitsOf w - 1) (2 ^ (fracBitsOf w - 1)))) := by
  obtain ⟨hlow, hhigh⟩ := expBitsOf_bounds hw
  obtain ⟨hmax, hmaxlt⟩ := maxField_lt hexp
  have hfrac : 2 ^ (fracBitsOf w - 1) < 2 ^ fracBitsOf w :=
    Nat.pow_lt_pow_right (by decide) (by unfold fracBitsOf; omega)
  have hfit : 2 ^ (fracBitsOf w - 1) < 2 ^ w :=
    Nat.pow_lt_pow_right (by decide) (by unfold fracBitsOf; omega)
  have hone : (1 : BitVec 64).toNat = 1 := rfl
  have hfracPart : shl mp (ofU64 mp 1 w) (fracBitsOf w - 1) = bits w (2 ^ (fracBitsOf w - 1)) := by
    rw [ofU64_eq_bits mp (by omega) (Nat.one_lt_two_pow (by omega)), hone,
      shl_bits mp (by unfold fracBitsOf; omega) (by rwa [one_mul]), one_mul]
  have hsign := signPart_eq mp (show 1 ≤ w by omega) false
  have hexpPart := expPart_eq mp hw hmaxlt
  rw [hmax] at hexpPart hmaxlt
  obtain ⟨hupper, hfull⟩ := assemble mp hw false hmaxlt hfrac
  show (do
    let upper ← bitOr mp (shl mp (ofU64 mp (if false then 1 else 0) w) (w - 1))
      (shl mp (ofU64 mp (maxExpField (layout w).expBits) w) (fracBitsOf w))
    bitOr mp upper (shl mp (ofU64 mp 1 w) (fracBitsOf w - 1))) = _
  rw [hsign, hexpPart, hfracPart, hupper]
  exact hfull

theorem encode_inf (hw : 16 ≤ w) (hexp : expBitsOf w ≤ 63) (s : Bool) :
    encodeNumber mp (layout w) (.inf s) = .ok (bits w (fields w s (2 ^ expBitsOf w - 1) 0)) := by
  obtain ⟨hmax, hmaxlt⟩ := maxField_lt hexp
  have hsign := signPart_eq mp (show 1 ≤ w by omega) s
  have hexpPart := expPart_eq mp hw hmaxlt
  rw [hmax] at hexpPart hmaxlt
  show bitOr mp (shl mp (ofU64 mp (if s then 1 else 0) w) (w - 1))
    (shl mp (ofU64 mp (maxExpField (layout w).expBits) w) (fracBitsOf w)) = _
  rw [hsign, hexpPart]
  exact (assemble mp hw s hmaxlt (Nat.two_pow_pos _)).1

theorem encode_zero (hw : 16 ≤ w) (s : Bool) :
    encodeNumber mp (layout w) (.zero s) = .ok (bits w (fields w s 0 0)) := by
  have hsign := signPart_eq mp (show 1 ≤ w by omega) s
  show ok (shl mp (ofU64 mp (if s then 1 else 0) w) (w - 1)) = _
  rw [hsign, fields]
  simp

theorem expn_bounds (hw : 16 ≤ w) (hexp : expBitsOf w ≤ 62) {d : ℕ}
    (hk : k = (formatOf w).minExponent + d) (hmax : m.size + k ≤ (formatOf w).maxExponent) :
    (m.size + k + (layout w).bias - 1 = ((m.size + d : ℕ) : ℤ) - fracBitsOf w) ∧
      -2 ^ 62 < m.size + k ∧ m.size + k ≤ 2 ^ 61 ∧
      (m.size + d : ℕ) < 2 ^ expBitsOf w - 1 + fracBitsOf w := by
  obtain ⟨hlow, hhigh⟩ := expBitsOf_bounds hw
  have hlt := width_lt (show expBitsOf w ≤ 63 by omega)
  have hmin : (formatOf w).minExponent = -2 ^ (expBitsOf w - 1) + 3 - (w - expBitsOf w : ℕ) := rfl
  have hmax' : (formatOf w).maxExponent = 2 ^ (expBitsOf w - 1) := rfl
  have hbias : (layout w).bias = 2 ^ (expBitsOf w - 1) - 1 := rfl
  have hpow : (2 : ℤ) ^ (expBitsOf w - 1) ≤ 2 ^ 61 := pow_le_pow_right₀ (by decide) (by omega)
  have hhalf : 2 ^ expBitsOf w = 2 * 2 ^ (expBitsOf w - 1) := by
    rw [← pow_succ']; congr 1; omega
  have hcast : ((2 ^ (expBitsOf w - 1) : ℕ) : ℤ) = 2 ^ (expBitsOf w - 1) := by push_cast; rfl
  have hfour : 4 ≤ 2 ^ (expBitsOf w - 1) := by
    calc 4 = 2 ^ 2 := rfl
      _ ≤ 2 ^ (expBitsOf w - 1) := Nat.pow_le_pow_right (by decide) (by omega)
  rw [hmin] at hk
  rw [hmax'] at hmax
  unfold fracBitsOf
  refine ⟨by rw [hbias]; omega, by omega, by omega, by omega⟩

theorem toNat_ofInt_sub {N fb : ℕ} (hN : fb < N) (hlt : N < 2 ^ 63 + fb) :
    (BitVec.ofInt 64 ((N : ℤ) - fb)).toNat = N - fb := by
  have hcast : (N : ℤ) - fb = (N - fb : ℕ) := by omega
  rw [hcast, BitVec.ofInt_natCast, BitVec.toNat_ofNat, mod_eq_of_lt (by omega)]

theorem encode_finite (hw : 16 ≤ w) (hexp : expBitsOf w ≤ 62) (s : Bool) {d : ℕ} (hodd : m % 2 = 1)
    (hk : k = (formatOf w).minExponent + d) (hsize : m.size ≤ w - expBitsOf w)
    (hmax : m.size + k ≤ (formatOf w).maxExponent) :
    encodeNumber mp (layout w) (.finite s m k hodd) = .ok (bits w
        (if m.size + d ≤ fracBitsOf w then
          fields w s 0 (if m.size + d ≤ (m.size + 63) / 64 * 64 then m * 2 ^ d else 0)
        else fields w s (m.size + d - fracBitsOf w)
          (m * 2 ^ (w - expBitsOf w - m.size) % 2 ^ fracBitsOf w))) := by
  obtain ⟨hlow, hhigh⟩ := expBitsOf_bounds hw
  obtain ⟨he, hexpnLow, hexpnHigh, hfield⟩ := expn_bounds hw hexp hk hmax
  have hword := width_lt (show expBitsOf w ≤ 63 by omega)
  have hm : 1 ≤ m.size := Nat.size_pos.mpr (by omega)
  have hinf : (finite s m k hodd).expn ≠ BF_EXP_INF := by
    show (m.size + k : ℤ) ≠ 2 ^ 63 - 2
    omega
  have hzero : ¬((finite s m k hodd).expn = BF_EXP_ZERO ∨
      (finite s m k hodd).len = 0) := by
    rintro (h | h)
    · exact absurd h (show (m.size + k : ℤ) ≠ -2 ^ 63 by omega)
    · exact absurd h (show (m.size + 63) / 64 ≠ 0 by omega)
  have hsign := signPart_eq mp (show 1 ≤ w by omega) s
  have hlimbs := fromLimbs64_tab mp s k hodd
  have hlen : (finite s m k hodd).len = (m.size + 63) / 64 := rfl
  have hprec : (layout w).prec = w - expBitsOf w := rfl
  have hfrac : (layout w).prec - 1 = fracBitsOf w := rfl
  have htotal : (layout w).totalBits = w := rfl
  have hexpn : (finite s m k hodd).expn = m.size + k := rfl
  have hpow : 2 ^ expBitsOf w ≤ 2 ^ 62 := Nat.pow_le_pow_right (by decide) hexp
  have hnan : ¬(finite s m k hodd).bfIsNan = true := Bool.false_ne_true
  unfold encodeNumber
  dsimp only
  rw [if_neg hnan, if_neg hinf, if_neg hzero, hlimbs, hfrac, htotal, hexpn, he,
    show (finite s m k hodd).sign = s from rfl, hsign, hlen]
  by_cases hsub : m.size + d ≤ fracBitsOf w
  · have hfraction := subnormalFraction_eq mp (p := layout w) hm (N := m.size + d) (by omega)
      (by rw [hfrac]; exact hsub) (by rw [hprec, htotal]; omega) (by rw [hprec]; omega)
    rw [hfrac, Nat.add_sub_cancel_left, htotal] at hfraction
    have hlost : (if m.size + d ≤ (m.size + 63) / 64 * 64 then m * 2 ^ d else 0) <
        2 ^ fracBitsOf w := by
      split
      · have hlt := mul_two_pow_lt (m := m) (show m.size ≤ m.size + d by omega)
        rw [Nat.add_sub_cancel_left] at hlt
        exact lt_of_lt_of_le hlt (Nat.pow_le_pow_right (by decide) hsub)
      · exact Nat.two_pow_pos _
    obtain ⟨hupper, hfull⟩ := assemble mp hw s (e := 0) (Nat.two_pow_pos _) hlost
    have hexpPart := expPart_eq mp hw (v := 0) (Nat.two_pow_pos _)
    rw [show (0 : BitVec 64).toNat = 0 from rfl] at hexpPart
    rw [if_pos (by omega), if_pos (by omega), if_pos hsub, hfraction, hexpPart]
    simp only [bind, bind]
    rw [hupper]
    exact hfull
  · have hfraction := normalFraction_eq mp (p := layout w) hm (by rw [hprec]; exact hsize)
      (by rw [hprec, htotal]; omega) (by rw [hprec]; omega)
    rw [hfrac, htotal, hprec] at hfraction
    have hexpField : (BitVec.ofInt 64 (((m.size + d : ℕ) : ℤ) - fracBitsOf w)).toNat =
        m.size + d - fracBitsOf w := toNat_ofInt_sub (by omega) (by omega)
    have hexpPart := expPart_eq mp hw (by rw [hexpField]; omega)
    rw [hexpField] at hexpPart
    obtain ⟨hupper, hfull⟩ := assemble mp hw s (e := m.size + d - fracBitsOf w) (by omega)
      (Nat.mod_lt (m * 2 ^ (w - expBitsOf w - m.size)) (Nat.two_pow_pos (fracBitsOf w)))
    rw [if_neg (by omega), if_neg (by omega), if_neg hsub, hfraction, hexpPart]
    simp only [bind, bind]
    rw [hupper]
    exact hfull

end Encoding

/-! ## What the decoder reads -/

section Decoding

variable {w n : ℕ}

theorem onGrid_natCast (n : ℕ) {q : ℤ} (hq : q ≤ 0) : OnGrid q (n : ℚ) :=
  OnGrid.mono ⟨n, by simp⟩ hq

theorem hasBits_natCast {p : ℕ} (hn : n < 2 ^ p) : HasBits p (n : ℚ) := by
  refine ⟨0, onGrid_natCast n le_rfl, ?_⟩
  rw [zero_add, zpow_natCast, abs_of_nonneg (cast_nonneg n)]
  exact_mod_cast hn

theorem magnitude_natCast (hn : n ≠ 0) : magnitude (n : ℚ) = n.size := by
  obtain ⟨hlow, hhigh⟩ := size_bounds hn
  have hpos : 0 < n.size := size_pos.mpr (pos_of_ne_zero hn)
  refine magnitude_eq ?_ ?_
  · rw [show (n.size : ℤ) - 1 = (n.size - 1 : ℕ) by omega, zpow_natCast,
      abs_of_nonneg (cast_nonneg n)]
    exact_mod_cast hlow
  · rw [zpow_natCast, abs_of_nonneg (cast_nonneg n)]
    exact_mod_cast hhigh

theorem holds_natCast {F : Format} (hn : n < 2 ^ F.precision) (hmin : F.minExponent ≤ 0)
    (hmax : (F.precision : ℤ) ≤ F.maxExponent) : F.Holds (n : ℚ) where
  onGrid := onGrid_natCast n hmin
  hasBits := hasBits_natCast hn
  lt := by
    refine lt_of_lt_of_le ?_ (two_zpow_le hmax)
    rw [zpow_natCast, abs_of_nonneg (cast_nonneg n)]
    exact_mod_cast hn

section

variable (hw : 16 ≤ w) (hexp : expBitsOf w ≤ 63)
include hw hexp

/-- The integers that the decoder reads pass the range check. -/
theorem keeps_natCast (h0 : n ≠ 0) (hn : n < 2 ^ (w - expBitsOf w)) :
    Keeps w (roundPrecision (getPrecBits w) n) := by
  obtain ⟨hp, hple⟩ := getPrecBits_bounds hw
  have hword := width_lt hexp
  have hx : (n : ℚ) ≠ 0 := cast_ne_zero.mpr h0
  have hsize : n.size ≤ w - expBitsOf w := size_le.mpr hn
  have hpos : 0 < n.size := size_pos.mpr (pos_of_ne_zero h0)
  have hmag := magnitude_roundPrecision_le (show 1 ≤ getPrecBits w by omega) (n : ℚ)
  rw [magnitude_natCast h0] at hmag
  have hlow : (0 : ℤ) < magnitude (roundPrecision (getPrecBits w) (n : ℚ)) := by
    by_contra hle
    have hlt := (magnitude_le_iff (roundPrecision_ne_zero (by omega) hx)).mp (not_lt.mp hle)
    have hge := le_abs_roundPrecision (show 1 ≤ getPrecBits w by omega) hx
    have hone : (2 : ℚ) ^ (0 : ℤ) ≤ 2 ^ (magnitude (n : ℚ) - 1) :=
      two_zpow_le (by rw [magnitude_natCast h0]; omega)
    linarith
  refine ⟨hasBits_roundPrecision (by omega) _, ?_, ?_, ?_, ?_⟩
  · exact le_trans (show expMin ≤ 0 by decide) hlow.le
  · unfold expMax
    omega
  · rintro rfl
    have hself : roundPrecision (getPrecBits 32) (n : ℚ) = n :=
      roundPrecision_of_hasBits (hasBits_natCast hn)
    rw [hself]
    exact holds_natCast hn (by decide) (by decide)
  · rintro rfl
    have hself : roundPrecision (getPrecBits 64) (n : ℚ) = n :=
      roundPrecision_of_hasBits (hasBits_natCast hn)
    rw [hself]
    exact holds_natCast hn (by decide) (by decide)

theorem getPrecBits_le : getPrecBits w ≤ BF_PREC_MAX := by
  obtain ⟨hp, hple⟩ := getPrecBits_bounds hw
  have hword := width_lt hexp
  unfold BF_PREC_MAX
  omega

theorem ofText_hex (h0 : n ≠ 0) (hn : n < 2 ^ (w - expBitsOf w)) :
    ∃ b, ofText lib ('0' :: 'x' :: magnitudeText 16 n) w 16 = .ok ⟨w, b⟩ ∧
      BfNumber.Represents b (roundPrecision (getPrecBits w) n) := by
  obtain ⟨hp, hple⟩ := getPrecBits_bounds hw
  have hmax := getPrecBits_le hw hexp
  have hx : (n : ℚ) ≠ 0 := cast_ne_zero.mpr h0
  have hkeeps := keeps_natCast hw hexp h0 hn
  have hread := lib.atof_number ('0' :: 'x' :: magnitudeText 16 n) 16 (getPrecBits w) false n
    (by decide) (by decide) hp hmax (lib.textValue_hex n)
  have hrep : Represents (rounded (getPrecBits w) false n)
      (roundPrecision (getPrecBits w) n) := by
    rcases rounded_cases (show 1 ≤ getPrecBits w by omega) false hx with
      ⟨hlt, -⟩ | ⟨hgt, -⟩ | ⟨-, -, hrep⟩
    · exact absurd hkeeps.expMin_le (not_le.mpr hlt)
    · exact absurd hkeeps.le_expMax (not_le.mpr hgt)
    · exact hrep
  refine ⟨_, ?_, hrep⟩
  have hclamp := clampToFloatBounds_keeps lib hrep hkeeps hp hmax
  have hwidth : ofWidth w = .ok ⟨w, .zero false⟩ := if_neg (by omega)
  have hconsumed := lib.atof_consumed n (getPrecBits w)
  simp only [ofText, hwidth, bind, Except.bind, hread, hclamp]
  simp [hconsumed, checked]

/-- A significand is read exactly but for the digits of the width. -/
theorem scaled_eq (h0 : n ≠ 0) (hn : n < 2 ^ (w - expBitsOf w)) (c : ℕ) {e : ℤ}
    (he : |e| < 2 ^ 62) (sgn : BitVec 64) : scaled conversions lib (bits c n) w e sgn =
      .ok ⟨w, withSign (BfNumber.rounded (getPrecBits w) false (n * 2 ^ e)) (sgn ≠ 0)⟩ := by
  obtain ⟨hp, hple⟩ := getPrecBits_bounds hw
  have hx : (n : ℚ) ≠ 0 := cast_ne_zero.mpr h0
  obtain ⟨b, hread, hrep⟩ := ofText_hex lib hw hexp h0 hn
  have htext : toString conversions (bits c n) 16 = magnitudeText 16 n := by
    have hnonneg : ¬(bits c n).value < 0 := show ¬(n : ℤ) < 0 by omega
    rw [toString_eq conversions (by decide) (by decide), radixText, if_neg hnonneg]
    rfl
  have hscaled : (roundPrecision (getPrecBits w) n : ℚ) * 2 ^ e =
      roundPrecision (getPrecBits w) (n * 2 ^ e) := (roundPrecision_mul_two_zpow _ hx e).symm
  have hne : (n : ℚ) * 2 ^ e ≠ 0 := mul_ne_zero hx (two_zpow_pos e).ne'
  have hsign : b.sign = false := by
    rw [hrep.sign_eq, decide_eq_false_iff_not, not_lt]
    exact roundGrid_nonneg _ (cast_nonneg n)
  have hmoved : lib.bfMul2exp b e (getPrecBits w) =
      rounded (getPrecBits w) false (n * 2 ^ e) := by
    rw [lib.mul2exp_eq b e _ he hp (getPrecBits_le hw hexp), hrep.mapFinite_eq, hsign, hscaled]
    refine rounded_congr (by omega) false (roundPrecision_ne_zero (by omega) hne) hne ?_
    exact roundPrecision_of_hasBits (hasBits_roundPrecision (by omega) _)
  simp only [scaled, htext, hread, bind, Except.bind, hmoved]
  rfl

end

end Decoding

/-! ## Patterns of finite numbers -/

def signField (w n : ℕ) : Bool := n / 2 ^ (w - 1) % 2 = 1

def expField (w n : ℕ) : ℕ := n / 2 ^ fracBitsOf w % 2 ^ expBitsOf w

def fraction (w n : ℕ) : ℕ := n % 2 ^ fracBitsOf w

/-- The digits of a pattern, with the leading one that a normal number leaves out. -/
def significand (w n : ℕ) : ℕ :=
  if expField w n = 0 then fraction w n else 2 ^ fracBitsOf w + fraction w n

/-- The position of the last digit of a pattern. -/
def scale (w n : ℕ) : ℤ := (formatOf w).minExponent + (expField w n - 1 : ℕ)

def IsSpecial (w n : ℕ) : Prop := expField w n = 2 ^ expBitsOf w - 1

def IsZero (w n : ℕ) : Prop := expField w n = 0 ∧ fraction w n = 0

instance (w n : ℕ) : Decidable (IsSpecial w n) := inferInstanceAs (Decidable (_ = _))

instance (w n : ℕ) : Decidable (IsZero w n) := inferInstanceAs (Decidable (_ ∧ _))

/-- A pattern of the number `m * 2 ^ k`, of either sign. -/
structure IsPatternOf (w n m : ℕ) (k : ℤ) : Prop where
  lt : n < 2 ^ w
  not_special : ¬IsSpecial w n
  not_zero : ¬IsZero w n
  digits : ∃ j : ℕ, significand w n = m * 2 ^ j ∧ k = scale w n + j

/-- A subnormal number that reaches above its limbs. -/
def Lost (w n m : ℕ) : Prop := expField w n = 0 ∧ (m.size + 63) / 64 * 64 < (fraction w n).size

instance (w n m : ℕ) : Decidable (Lost w n m) := inferInstanceAs (Decidable (_ ∧ _))

section Patterns

variable {w n m : ℕ} {k : ℤ}

theorem fraction_lt (w n : ℕ) : fraction w n < 2 ^ fracBitsOf w := Nat.mod_lt _ (Nat.two_pow_pos _)

theorem expField_lt (w n : ℕ) : expField w n < 2 ^ expBitsOf w := Nat.mod_lt _ (Nat.two_pow_pos _)

theorem fields_of_pattern (hw : 16 ≤ w) (hn : n < 2 ^ w) :
    fields w (signField w n) (expField w n) (fraction w n) = n := fields_self hw hn

theorem size_mul_two_pow {j : ℕ} (hm : m ≠ 0) : (m * 2 ^ j).size = m.size + j := by
  obtain ⟨hlow, hhigh⟩ := size_bounds hm
  have hpos : 0 < m.size := size_pos.mpr (pos_of_ne_zero hm)
  refine le_antisymm (size_le.mpr ?_) ?_
  · rw [pow_add]
    exact Nat.mul_lt_mul_of_pos_right hhigh (Nat.two_pow_pos j)
  · have hle : 2 ^ (m.size + j - 1) ≤ m * 2 ^ j := by
      rw [show m.size + j - 1 = m.size - 1 + j by omega, pow_add]
      exact mul_le_mul_right _ hlow
    have hlt := lt_size.mpr hle
    omega

theorem size_normal (hw : 16 ≤ w) (h : expField w n ≠ 0) :
    (significand w n).size = w - expBitsOf w := by
  obtain ⟨hlow, hhigh⟩ := expBitsOf_bounds hw
  have hfrac := fraction_lt w n
  have hprec : w - expBitsOf w = fracBitsOf w + 1 := by unfold fracBitsOf; omega
  rw [significand, if_neg h, hprec]
  refine le_antisymm (size_le.mpr ?_) (lt_size.mpr ?_)
  · rw [pow_succ]; omega
  · omega

/-- The bounds that the encoder needs of a pattern's number. -/
theorem IsPatternOf.bounds (hw : 16 ≤ w) (h : IsPatternOf w n m k) (hodd : m % 2 = 1) :
    ∃ d : ℕ, k = (formatOf w).minExponent + d ∧ m.size ≤ w - expBitsOf w ∧
      m.size + k ≤ (formatOf w).maxExponent ∧
      (expField w n = 0 → m.size + d = (fraction w n).size ∧ m * 2 ^ d = fraction w n) ∧
      (expField w n ≠ 0 → m.size + d = expField w n + fracBitsOf w ∧
        m * 2 ^ (w - expBitsOf w - m.size) = 2 ^ fracBitsOf w + fraction w n) := by
  obtain ⟨hlow, hhigh⟩ := expBitsOf_bounds hw
  obtain ⟨j, hdigits, hk⟩ := h.digits
  have hm : m ≠ 0 := by omega
  have hsize : (significand w n).size = m.size + j := by rw [hdigits, size_mul_two_pow hm]
  have hfracSize : (fraction w n).size ≤ fracBitsOf w := size_le.mpr (fraction_lt w n)
  have hlt := expField_lt w n
  have hne : expField w n ≠ 2 ^ expBitsOf w - 1 := h.not_special
  have hpow : 2 ^ expBitsOf w = 2 * 2 ^ (expBitsOf w - 1) := by
    rw [← pow_succ']; congr 1; omega
  have hcast : ((2 ^ (expBitsOf w - 1) : ℕ) : ℤ) = 2 ^ (expBitsOf w - 1) := by push_cast; rfl
  have hmin : (formatOf w).minExponent = -2 ^ (expBitsOf w - 1) + 3 - (w - expBitsOf w : ℕ) := rfl
  have hmax : (formatOf w).maxExponent = 2 ^ (expBitsOf w - 1) := rfl
  have hfour : 4 ≤ 2 ^ (expBitsOf w - 1) := by
    calc 4 = 2 ^ 2 := rfl
      _ ≤ 2 ^ (expBitsOf w - 1) := Nat.pow_le_pow_right (by decide) (by omega)
  have hprec : w - expBitsOf w = fracBitsOf w + 1 := by unfold fracBitsOf; omega
  have hscale : scale w n = (formatOf w).minExponent + (expField w n - 1 : ℕ) := rfl
  refine ⟨expField w n - 1 + j, by omega, ?_, ?_, fun he => ?_, fun he => ?_⟩
  · by_cases he : expField w n = 0
    · rw [significand, if_pos he] at hsize
      omega
    · have := size_normal hw he
      omega
  · by_cases he : expField w n = 0
    · rw [significand, if_pos he] at hsize
      omega
    · have := size_normal hw he
      omega
  · rw [significand, if_pos he] at hsize hdigits
    rw [he, Nat.zero_sub, Nat.zero_add]
    exact ⟨hsize.symm, hdigits.symm⟩
  · have hnormal := size_normal hw he
    rw [significand, if_neg he] at hdigits
    refine ⟨by omega, ?_⟩
    rw [show w - expBitsOf w - m.size = j by omega, ← hdigits]

theorem encode_pattern (hw : 16 ≤ w) (hexp : expBitsOf w ≤ 62) (h : IsPatternOf w n m k)
    (hodd : m % 2 = 1) :
    encodeNumber mp (layout w) (.finite (signField w n) m k hodd) = .ok (bits w
        (if Lost w n m then fields w (signField w n) 0 0 else n)) := by
  obtain ⟨d, hk, hsize, hmax, hsub, hnormal⟩ := h.bounds hw hodd
  have hfrac := fraction_lt w n
  rw [encode_finite mp hw hexp (signField w n) hodd hk hsize hmax]
  by_cases he : expField w n = 0
  · obtain ⟨hN, hM⟩ := hsub he
    have hle : (fraction w n).size ≤ fracBitsOf w := size_le.mpr hfrac
    have hself := fields_of_pattern hw h.lt
    rw [he] at hself
    rw [hN, hM, if_pos hle]
    by_cases hlost : (m.size + 63) / 64 * 64 < (fraction w n).size
    · rw [if_neg (by omega), if_pos ⟨he, hlost⟩]
    · rw [if_pos (by omega), if_neg fun hboth => hlost hboth.2, hself]
  · obtain ⟨hN, hM⟩ := hnormal he
    have hself := fields_of_pattern hw h.lt
    rw [if_neg (by omega), hN, hM, Nat.add_sub_cancel, Nat.add_mod_left, Nat.mod_eq_of_lt hfrac,
      hself, if_neg fun hboth => he hboth.1]

theorem two_pow_add_mod {t : ℕ} (hm : m ≠ 0) (ht : m.size + t = fracBitsOf w + 1) :
    2 ^ fracBitsOf w + m * 2 ^ t % 2 ^ fracBitsOf w = m * 2 ^ t := by
  have hsize : (m * 2 ^ t).size = fracBitsOf w + 1 := by rw [size_mul_two_pow hm, ht]
  have hlow : 2 ^ fracBitsOf w ≤ m * 2 ^ t := lt_size.mp (by omega)
  have hhigh : m * 2 ^ t < 2 ^ (fracBitsOf w + 1) := size_le.mp hsize.le
  rw [pow_succ] at hhigh
  rw [mod_eq_sub_mod hlow, mod_eq_of_lt (by omega)]
  omega

theorem exists_pattern (hw : 16 ≤ w) (hexp : expBitsOf w ≤ 62) (s : Bool) (hodd : m % 2 = 1)
    (h : (formatOf w).Holds (BfNumber.finite s m k hodd).value) :
    ∃ n, signField w n = s ∧ IsPatternOf w n m k := by
  obtain ⟨hlow, hhigh⟩ := expBitsOf_bounds hw
  obtain ⟨hgrid, hsize, hmax⟩ := (holds_value_iff s hodd).mp h
  obtain ⟨d, hd⟩ := le.dest hgrid
  obtain ⟨-, -, -, hfield⟩ := expn_bounds hw hexp hd.symm hmax
  have hm : m ≠ 0 := by omega
  have hprec : (formatOf w).precision = fracBitsOf w + 1 := by
    show w - expBitsOf w = _
    unfold fracBitsOf
    omega
  have hscale (n : ℕ) : scale w n = (formatOf w).minExponent + (expField w n - 1 : ℕ) := rfl
  have hpattern {e f : ℕ} (he : e < 2 ^ expBitsOf w - 1) (hf : f < 2 ^ fracBitsOf w)
      (hne : ¬(e = 0 ∧ f = 0)) (hdigits : ∃ j : ℕ,
        (if e = 0 then f else 2 ^ fracBitsOf w + f) = m * 2 ^ j ∧
          k = (formatOf w).minExponent + (e - 1 : ℕ) + j) :
      signField w (fields w s e f) = s ∧ IsPatternOf w (fields w s e f) m k := by
    have hexpField : expField w (fields w s e f) = e := fields_exp hw s (by omega) hf
    have hfraction : fraction w (fields w s e f) = f := fields_frac hw s hf
    refine ⟨?_, fields_lt hw s (by omega) hf, ?_, ?_, ?_⟩
    · rw [signField, fields_sign hw s (by omega) hf]
      cases s <;> rfl
    · rw [IsSpecial, hexpField]
      omega
    · rwa [IsZero, hexpField, hfraction]
    · rwa [significand, hscale, hexpField, hfraction]
  by_cases hsub : m.size + d ≤ fracBitsOf w
  · have hf : m * 2 ^ d < 2 ^ fracBitsOf w :=
      size_le.mp (by rw [size_mul_two_pow hm]; exact hsub)
    have hpos : m * 2 ^ d ≠ 0 := mul_ne_zero hm (Nat.two_pow_pos d).ne'
    have htwo : 1 < 2 ^ expBitsOf w := Nat.one_lt_two_pow (by omega)
    exact ⟨_, hpattern (e := 0) (by omega) hf (fun h => hpos h.2) ⟨d, by rw [if_pos rfl], by omega⟩⟩
  · have hsum := two_pow_add_mod (w := w) (t := fracBitsOf w + 1 - m.size) hm (by omega)
    refine ⟨_, hpattern (e := m.size + d - fracBitsOf w) (by omega)
      (Nat.mod_lt (m * 2 ^ (fracBitsOf w + 1 - m.size)) (Nat.two_pow_pos _)) (by omega)
      ⟨fracBitsOf w + 1 - m.size, ?_, by omega⟩⟩
    rw [if_neg (by omega), hsum]

end Patterns

/-! ## The decoder on the fields -/

section Reading

variable {w : ℕ} {signed : Bool} {x : ℤ}

theorem residue_slice {a : ℕ} (h : a + m ≤ w) (x : ℤ) :
    (x / 2 ^ a % 2 ^ m).toNat = residue w x / 2 ^ a % 2 ^ m := by
  have hslice := emod_ediv_emod h x
  have hcast := natCast_residue w x
  rw [← hslice, ← hcast]
  norm_cast

/-- The fields as the decoder takes them from a pattern. -/
theorem read_fields (hw : 16 ≤ w) (hx : InRange w signed x) :
    getU64 mp (extractBits mp ⟨x, w, signed⟩ (w - 1) 1 false) =
        BitVec.ofNat 64 (residue w x / 2 ^ (w - 1) % 2) ∧
      getU64 mp (extractBits mp ⟨x, w, signed⟩ (fracBitsOf w) (expBitsOf w) false) =
        BitVec.ofNat 64 (expField w (residue w x)) ∧
      extractBits mp ⟨x, w, signed⟩ 0 (fracBitsOf w) false =
        bits (fracBitsOf w) (fraction w (residue w x)) := by
  obtain ⟨hlow, hhigh⟩ := expBitsOf_bounds hw
  have hfb : fracBitsOf w = w - expBitsOf w - 1 := rfl
  refine ⟨?_, ?_, ?_⟩
  · rw [extractBits_eq_bits mp (by omega) hx, residue_slice (w := w) (by omega), getU64_bits,
      pow_one]
  · rw [extractBits_eq_bits mp (by omega) hx, residue_slice (w := w) (by omega), getU64_bits]
    rfl
  · rw [extractBits_eq_bits mp (by omega) hx, residue_slice (w := w) (by omega), pow_zero,
      Nat.div_one]
    rfl

theorem ofNat_ne_zero_iff (w n : ℕ) :
    decide (BitVec.ofNat 64 (n / 2 ^ (w - 1) % 2) ≠ 0) = signField w n := by
  unfold signField
  rcases mod_two_eq_zero_or_one (n / 2 ^ (w - 1)) with h | h
  · rw [h]; rfl
  · rw [h]; rfl

theorem ofNat_eq_max_iff {e : ℕ} (hn : n ≤ 63) (he : e < 2 ^ n) :
    BitVec.ofNat 64 e = maxExpField n ↔ e = 2 ^ n - 1 := by
  have hle : 2 ^ n ≤ 2 ^ 63 := Nat.pow_le_pow_right (by decide) hn
  rw [← BitVec.toNat_inj, maxExpField_toNat hn, BitVec.toNat_ofNat, mod_eq_of_lt (by omega)]

theorem ofNat_eq_zero_iff {e : ℕ} (hn : n ≤ 63) (he : e < 2 ^ n) :
    BitVec.ofNat 64 e = 0 ↔ e = 0 := by
  have hle : 2 ^ n ≤ 2 ^ 63 := Nat.pow_le_pow_right (by decide) hn
  rw [← BitVec.toNat_inj, BitVec.toNat_ofNat, mod_eq_of_lt (by omega)]
  rfl

/-- The number that a pattern is read as. -/
def decoded (w n : ℕ) : BfNumber :=
  if IsSpecial w n then
    if fraction w n = 0 then .inf (signField w n) else .nan
  else if IsZero w n then .zero (signField w n)
  else withSign
    (BfNumber.rounded (getPrecBits w) false (significand w n * 2 ^ scale w n)) (signField w n)

theorem extend_bits {c d : ℕ} (hn : n < 2 ^ c) (hd : c < d) :
    FlexNumber.extend mp (bits c n) d false = .ok (bits d n) := by
  have hlt : n < 2 ^ d := lt_trans hn (Nat.pow_lt_pow_right (by decide) hd)
  have hnonneg : ¬(n : ℤ) < 0 := by omega
  unfold FlexNumber.extend bits
  dsimp only
  rw [if_neg (not_lt.mpr hd.le), if_neg hd.ne', if_neg hnonneg,
    clampToTwosComplement_of_inRange mp (by omega) (inRange_bits hlt)]

theorem fullMantissa_eq {fb f : ℕ} (hf : f < 2 ^ fb) :
    bitOr mp (shl mp (ofU64 mp 1 (fb + 2)) fb) (bits (fb + 2) f) =
      .ok (bits (fb + 2) (2 ^ fb + f)) := by
  have hpow : 2 ^ (fb + 2) = 2 ^ fb * 4 := pow_add 2 fb 2
  have hpos := two_pow_pos fb
  have hone : (1 : BitVec 64).toNat = 1 := rfl
  have hshift : shl mp (ofU64 mp 1 (fb + 2)) fb = bits (fb + 2) (2 ^ fb) := by
    rw [ofU64_eq_bits mp (by omega) (by rw [hone]; omega), hone, shl_bits mp (by omega) (by omega),
      one_mul]
  have hor := or_two_pow_mul hf 1
  rw [one_mul] at hor
  rw [hshift, bitOr_bits mp (by omega) (by omega) (by omega), Nat.or_comm, hor, Nat.add_comm f]

/-- The exponent of a finite pattern is in the range of the library's shift. -/
theorem abs_scale_lt (hw : 16 ≤ w) (hexp : expBitsOf w ≤ 62) (n : ℕ) :
    |scale w n| < 2 ^ 62 := by
  obtain ⟨hlow, hhigh⟩ := expBitsOf_bounds hw
  have hword := width_lt (show expBitsOf w ≤ 63 by omega)
  have hlt := expField_lt w n
  have hpow : 2 ^ expBitsOf w = 2 * 2 ^ (expBitsOf w - 1) := by
    rw [← pow_succ']; congr 1; omega
  have hle : 2 ^ (expBitsOf w - 1) ≤ 2 ^ 61 := Nat.pow_le_pow_right (by decide) (by omega)
  have hcast : ((2 ^ (expBitsOf w - 1) : ℕ) : ℤ) = 2 ^ (expBitsOf w - 1) := by push_cast; rfl
  have hmin : (formatOf w).minExponent = -2 ^ (expBitsOf w - 1) + 3 - (w - expBitsOf w : ℕ) := rfl
  rw [scale, hmin, abs_lt]
  omega

/-- What the decoder makes of a pattern. -/
theorem decode_eq (hw : 16 ≤ w) (hexp : expBitsOf w ≤ 63) (hx : InRange w signed x)
    (hfinite : IsSpecial w (residue w x) ∨ IsZero w (residue w x) ∨ expBitsOf w ≤ 62) :
    bitcastFromFlexInt mp conversions lib ⟨x, w, signed⟩ w = .ok ⟨w, decoded w (residue w x)⟩ := by
  obtain ⟨hlow, hhigh⟩ := expBitsOf_bounds hw
  obtain ⟨hsign, hfield, hfrac⟩ := read_fields mp hw hx
  have hflt := fraction_lt w (residue w x)
  have helt := expField_lt w (residue w x)
  have hwidth : ofWidth w = .ok ⟨w, .zero false⟩ := if_neg (by omega)
  have hparams : getIeeeParams w = .ok (layout w) := by rw [getIeeeParams_eq, if_neg (by omega)]
  have hprec : (layout w).prec - 1 = fracBitsOf w := rfl
  have htotal : (layout w).totalBits = w := rfl
  have hbits : (layout w).expBits = expBitsOf w := rfl
  have hvalue : (bits (fracBitsOf w) (fraction w (residue w x))).value = 0 ↔
      fraction w (residue w x) = 0 := natCast_eq_zero
  have hmaxIff := ofNat_eq_max_iff hexp helt
  have hzeroIff := ofNat_eq_zero_iff hexp helt
  have hbias : (layout w).bias = 2 ^ (expBitsOf w - 1) - 1 := rfl
  have hmin : (formatOf w).minExponent = -2 ^ (expBitsOf w - 1) + 3 - (w - expBitsOf w : ℕ) := rfl
  have hfb : fracBitsOf w = w - expBitsOf w - 1 := rfl
  have hpow : 2 ^ expBitsOf w ≤ 2 ^ 63 := Nat.pow_le_pow_right (by decide) hexp
  have hscaleEq : scale w (residue w x) =
    (formatOf w).minExponent + (expField w (residue w x) - 1 : ℕ) := rfl
  unfold bitcastFromFlexInt
  simp only [hparams, hwidth, bind, Except.bind, hprec, htotal, hbits, hsign, hfield, hfrac,
    hmaxIff, hzeroIff, hvalue]
  unfold decoded
  by_cases hspecial : IsSpecial w (residue w x)
  · have hmax : expField w (residue w x) = 2 ^ expBitsOf w - 1 := hspecial
    rw [if_pos hmax, if_pos hspecial]
    by_cases hf : fraction w (residue w x) = 0
    · rw [if_pos hf, if_pos hf, ofNat_ne_zero_iff]
      rfl
    · rw [if_neg hf, if_neg hf]
      rfl
  have hmax : expField w (residue w x) ≠ 2 ^ expBitsOf w - 1 := hspecial
  rw [if_neg hmax, if_neg hspecial]
  by_cases he : expField w (residue w x) = 0
  · rw [if_pos he]
    by_cases hf : fraction w (residue w x) = 0
    · rw [if_pos hf, if_pos ⟨he, hf⟩, ofNat_ne_zero_iff]
      rfl
    · have hexp' : expBitsOf w ≤ 62 :=
        (hfinite.resolve_left hspecial).resolve_left fun hzero => hf hzero.2
      have hshift : 1 - (layout w).bias - (fracBitsOf w : ℤ) = scale w (residue w x) := by
        rw [hscaleEq, he, hbias, hmin]
        omega
      have hsig : significand w (residue w x) = fraction w (residue w x) := if_pos he
      have hfit : fraction w (residue w x) < 2 ^ (w - expBitsOf w) :=
        lt_of_lt_of_le hflt (Nat.pow_le_pow_right (by decide) (by omega))
      rw [if_neg hf, if_neg fun hzero => hf hzero.2, hshift,
        scaled_eq conversions lib hw hexp hf hfit _ (abs_scale_lt hw hexp' _), ofNat_ne_zero_iff,
        hsig]
  · have hexp' : expBitsOf w ≤ 62 :=
      (hfinite.resolve_left hspecial).resolve_left fun hzero => he hzero.1
    have hint : (BitVec.ofNat 64 (expField w (residue w x))).toInt = expField w (residue w x) := by
      rw [BitVec.toInt_eq_toNat_of_lt, BitVec.toNat_ofNat, mod_eq_of_lt (by omega)]
      rw [BitVec.toNat_ofNat, mod_eq_of_lt (by omega)]
      have : 2 ^ expBitsOf w ≤ 2 ^ 62 := Nat.pow_le_pow_right (by decide) hexp'
      omega
    have hshift : (expField w (residue w x) : ℤ) - (layout w).bias - (fracBitsOf w : ℤ) =
        scale w (residue w x) := by
      rw [hscaleEq, hbias, hmin]
      omega
    have hsig : significand w (residue w x) =
      2 ^ fracBitsOf w + fraction w (residue w x) := if_neg he
    have hfit : 2 ^ fracBitsOf w + fraction w (residue w x) < 2 ^ (w - expBitsOf w) := by
      rw [show w - expBitsOf w = fracBitsOf w + 1 by omega, pow_succ]
      omega
    have hpos := two_pow_pos (fracBitsOf w)
    rw [if_neg he, if_neg fun hzero => he hzero.1, extend_bits mp hflt (by omega)]
    simp only [fullMantissa_eq mp hflt, hint, hshift]
    rw [scaled_eq conversions lib hw hexp (by omega) hfit _ (abs_scale_lt hw hexp' _),
      ofNat_ne_zero_iff, hsig]

end Reading

/-! ## The encoder on a float -/

section Writing

variable {w n : ℕ}

theorem bits_inj {a b : ℕ} (h : (Except.ok (bits w a) : Except String FlexInt) = .ok (bits w b)) :
    a = b := by
  have hvalue := congrArg FlexInt.value (ok.inj h)
  exact ofNat.inj hvalue

theorem write_undefined (hexp : 63 < expBitsOf w) (b : BfNumber) :
    bitcastToFlexInt mp lib ⟨w, b⟩ = .error undefinedShift := by
  simp only [bitcastToFlexInt, getIeeeParams_eq, if_pos (show 64 ≤ expBitsOf w from hexp)]
  rfl

/-- A number without limbs is not rounded. -/
theorem write_special (hexp : expBitsOf w ≤ 63) (hlen : b.len = 0) :
    bitcastToFlexInt mp lib ⟨w, b⟩ = encodeNumber mp (layout w) b := by
  have hparams : getIeeeParams w = .ok (layout w) := by rw [getIeeeParams_eq, if_neg (by omega)]
  have hround : lib.bfRoundSubnormal b (layout w).prec (layout w).expBits = b := by
    rw [lib.roundSubnormal_eq b _ _ fun hne => absurd hlen hne]
    cases b with
    | finite s m k hodd =>
      have hpos : 0 < m.size := size_pos.mpr (by omega)
      exact absurd hlen (show (m.size + 63) / 64 ≠ 0 by omega)
    | _ => rfl
  have hdefined : ¬(b.bfIsFinite = true ∧ b.len ≠ 0 ∧ 62 < (layout w).expBits) :=
    fun h => h.2.1 hlen
  simp only [bitcastToFlexInt, hparams, bind, Except.bind, if_neg hdefined, hround, ite_self]

theorem write_finite (hw : 16 ≤ w) (hexp : expBitsOf w ≤ 62) (s : Bool) (hodd : m % 2 = 1) :
    bitcastToFlexInt mp lib ⟨w, .finite s m k hodd⟩ = encodeNumber mp (layout w)
        (BfNumber.roundedIn (formatOf w) s (BfNumber.finite s m k hodd).value) := by
  obtain ⟨hlow, hhigh⟩ := expBitsOf_bounds hw
  have hword := width_lt (show expBitsOf w ≤ 63 by omega)
  have hparams : getIeeeParams w = .ok (layout w) := by rw [getIeeeParams_eq, if_neg (by omega)]
  have hprec : 2 ≤ w - expBitsOf w ∧ w - expBitsOf w ≤ BF_PREC_MAX := by
    unfold BF_PREC_MAX
    omega
  have hround : lib.bfRoundSubnormal (.finite s m k hodd) (layout w).prec (layout w).expBits =
      roundedIn (formatOf w) s (finite s m k hodd).value :=
    lib.roundSubnormal_eq _ _ _ fun _ => ⟨hprec.1, hprec.2, hlow, hexp⟩
  have hdefined : ¬((finite s m k hodd).bfIsFinite = true ∧
      (finite s m k hodd).len ≠ 0 ∧ 62 < (layout w).expBits) :=
    fun h => absurd h.2.2 (not_lt.mpr hexp)
  have hfinite : (finite s m k hodd).bfIsFinite = true := rfl
  simp only [bitcastToFlexInt, hparams, bind, Except.bind, if_neg hdefined, if_pos hfinite, hround]

theorem write_finite_undefined (hexp : 62 < expBitsOf w) (s : Bool) (hodd : m % 2 = 1) :
    ∃ error, bitcastToFlexInt mp lib ⟨w, .finite s m k hodd⟩ = .error error := by
  by_cases h63 : 63 < expBitsOf w
  · exact ⟨_, write_undefined mp lib h63 _⟩
  · have hparams : getIeeeParams w = .ok (layout w) := by rw [getIeeeParams_eq, if_neg (by omega)]
    have hpos : 0 < m.size := size_pos.mpr (by omega)
    have hundefined : (finite s m k hodd).bfIsFinite = true ∧
        (finite s m k hodd).len ≠ 0 ∧ 62 < (layout w).expBits :=
      ⟨rfl, show (m.size + 63) / 64 ≠ 0 by omega, hexp⟩
    refine ⟨undefinedShift, ?_⟩
    simp only [bitcastToFlexInt, hparams, bind, Except.bind, if_pos hundefined]
    rfl

theorem isSpecial_inf (hw : 16 ≤ w) (s : Bool) {f : ℕ} (hf : f < 2 ^ fracBitsOf w) :
    IsSpecial w (fields w s (2 ^ expBitsOf w - 1) f) := by
  have hpos := Nat.two_pow_pos (expBitsOf w)
  exact fields_exp hw s (by omega) hf

theorem isZero_zero (hw : 16 ≤ w) (s : Bool) : IsZero w (fields w s 0 0) :=
  ⟨fields_exp hw s (Nat.two_pow_pos _) (Nat.two_pow_pos _), fields_frac hw s (Nat.two_pow_pos _)⟩

theorem write_holds (hw : 16 ≤ w) (hexp : expBitsOf w ≤ 62) (s : Bool) (hodd : m % 2 = 1)
    (h : (formatOf w).Holds (BfNumber.finite s m k hodd).value) :
    ∃ n, signField w n = s ∧ IsPatternOf w n m k ∧ bitcastToFlexInt mp lib ⟨w, .finite s m k hodd⟩ =
        .ok (bits w (if Lost w n m then fields w s 0 0 else n)) := by
  obtain ⟨n, hsign, hpattern⟩ := exists_pattern hw hexp s hodd h
  refine ⟨n, hsign, hpattern, ?_⟩
  have hencode := encode_pattern mp hw hexp hpattern hodd
  rw [hsign] at hencode
  rw [write_finite mp lib hw hexp s hodd,
    roundedIn_of_holds s (represents_value s m k hodd) h, hencode]

end Writing

/-! ## The round trip of a pattern -/

def IsNan (w n : ℕ) : Prop := IsSpecial w n ∧ fraction w n ≠ 0

instance (w n : ℕ) : Decidable (IsNan w n) := inferInstanceAs (Decidable (_ ∧ _))

/-- A pattern is read and written again: a NaN stays one, and any other pattern is the same. -/
def PatternKept (rawBits : FlexInt) : Prop :=
  ∃ f n, bitcastFromFlexInt mp conversions lib rawBits rawBits.bitWidth = .ok f ∧
    bitcastToFlexInt mp lib f = .ok (bits rawBits.bitWidth n) ∧
    if IsNan rawBits.bitWidth (residue rawBits.bitWidth rawBits.value) then
      IsNan rawBits.bitWidth n
    else n = residue rawBits.bitWidth rawBits.value

/-- The shifts are defined, and the significand of a finite pattern has no more digits, without
its trailing zeros, than floats of the width; its exponent is one of the library's, and the digits
of a subnormal one do not reach above its limbs. -/
def PatternFits (w n : ℕ) : Prop :=
  expBitsOf w ≤ 63 ∧ (IsSpecial w n ∨ IsZero w n ∨
    expBitsOf w ≤ 62 ∧ (BfNumber.odd (significand w n)).size ≤ getPrecBits w ∧
      BfNumber.expMin ≤ (significand w n).size + scale w n ∧
      (significand w n).size + scale w n ≤ BfNumber.expMax ∧
      ¬Lost w n (BfNumber.odd (significand w n)))

section RoundTrip

variable {w n m : ℕ} {k : ℤ}

theorem significand_ne_zero (h : ¬IsZero w n) : significand w n ≠ 0 := by
  have hpos := Nat.two_pow_pos (fracBitsOf w)
  unfold significand
  split
  · rename_i he
    exact fun hf => h ⟨he, hf⟩
  · omega

theorem odd_mul_two_pow {j : ℕ} (hodd : m % 2 = 1) : BfNumber.odd (m * 2 ^ j) = m := by
  have hne : m * 2 ^ j ≠ 0 := mul_ne_zero (by omega) (Nat.two_pow_pos j).ne'
  have heq := eq_two_pow_mul_odd hne
  have hodd' := odd_mod_two hne
  -- both are the odd part of one number
  have hvalue (a t : ℕ) (ha : a % 2 = 1) : Represents
      (finite false a t ha) ((a * 2 ^ t : ℕ) : ℚ) := by
    refine ⟨false, a, t, ha, rfl, ?_⟩
    simp [value]
  have hleft := hvalue m j hodd
  have hright := hvalue (odd (m * 2 ^ j))
    (LibTomMath.trailingZeros (m * 2 ^ j).size (m * 2 ^ j)) hodd'
  rw [mul_comm (odd (m * 2 ^ j)), ← heq] at hright
  have hsame := hleft.unique hright
  injection hsame with _ hm _
  exact hm.symm

theorem isPatternOf_odd (hn : n < 2 ^ w) (hspecial : ¬IsSpecial w n) (hzero : ¬IsZero w n) :
    ∃ j : ℕ, significand w n = BfNumber.odd (significand w n) * 2 ^ j ∧
      IsPatternOf w n (BfNumber.odd (significand w n)) (scale w n + j) := by
  have hdigits := eq_two_pow_mul_odd (significand_ne_zero hzero)
  rw [mul_comm] at hdigits
  exact ⟨_, hdigits, hn, hspecial, hzero, _, hdigits, rfl⟩

theorem IsPatternOf.digits_eq (h : IsPatternOf w n m k) (hodd : m % 2 = 1) :
    BfNumber.odd (significand w n) = m ∧ ((significand w n).size : ℤ) + scale w n = m.size + k := by
  obtain ⟨j, hdigits, hk⟩ := h.digits
  refine ⟨by rw [hdigits, odd_mul_two_pow hodd], ?_⟩
  rw [hdigits, size_mul_two_pow (by omega)]
  omega

theorem IsPatternOf.patternFits_iff (h : IsPatternOf w n m k) (hodd : m % 2 = 1) :
    PatternFits w n ↔ expBitsOf w ≤ 62 ∧ m.size ≤ getPrecBits w ∧
      BfNumber.expMin ≤ m.size + k ∧ m.size + k ≤ BfNumber.expMax ∧ ¬Lost w n m := by
  obtain ⟨hm, hsum⟩ := h.digits_eq hodd
  rw [PatternFits, hm, hsum, or_iff_right h.not_special, or_iff_right h.not_zero]
  exact ⟨fun hfits => hfits.2, fun hfits => ⟨by omega, hfits⟩⟩

theorem value_odd {j : ℕ} (hodd : m % 2 = 1) (hk : k = scale w n + j)
    (hdigits : significand w n = m * 2 ^ j) :
    (significand w n : ℚ) * 2 ^ scale w n = (BfNumber.finite false m k hodd).value := by
  simp only [value, Bool.false_eq_true, if_false, one_mul]
  rw [hdigits, hk, two_zpow_add, zpow_natCast]
  push_cast
  ring

theorem holds_or_le_roundPrecision {F : Format} {p : ℕ} (hp : 1 ≤ p) {x : ℚ} (h : F.Holds x) :
    F.Holds (roundPrecision p x) ∨ 2 ^ F.maxExponent ≤ |roundPrecision p x| := by
  rcases lt_or_ge |roundPrecision p x| (2 ^ F.maxExponent) with hlt | hge
  · refine .inl ⟨?_, ?_, hlt⟩
    · rcases le_total F.minExponent (magnitude x - p) with hle | hle
      · exact (onGrid_roundGrid _ _).mono hle
      · rw [roundPrecision, roundGrid_of_onGrid (h.onGrid.mono hle)]
        exact h.onGrid
    · rcases le_total p F.precision with hle | hle
      · exact (hasBits_roundPrecision hp x).mono hle
      · rw [roundPrecision_of_hasBits (h.hasBits.mono hle)]
        exact h.hasBits
  · exact .inr hge

theorem patternFits_zero (hexp : expBitsOf w ≤ 63) (h : IsZero w n) : PatternFits w n :=
  ⟨hexp, .inr (.inl h)⟩

theorem patternFits_special (hexp : expBitsOf w ≤ 63) (h : IsSpecial w n) : PatternFits w n :=
  ⟨hexp, .inl h⟩

section

variable (hw : 16 ≤ w)
include hw

theorem write_zero (hexp : expBitsOf w ≤ 63) (s : Bool) :
    bitcastToFlexInt mp lib ⟨w, .zero s⟩ = .ok (bits w (fields w s 0 0)) := by
  rw [write_special mp lib hexp (b := .zero s) rfl, encode_zero mp hw]

theorem write_inf (hexp : expBitsOf w ≤ 63) (s : Bool) :
    bitcastToFlexInt mp lib ⟨w, .inf s⟩ = .ok (bits w (fields w s (2 ^ expBitsOf w - 1) 0)) := by
  rw [write_special mp lib hexp (b := .inf s) rfl, encode_inf mp hw hexp]

/-- Too large a number is written as an infinity. -/
theorem write_overflow (hexp : expBitsOf w ≤ 62) (s : Bool) (hodd : m % 2 = 1)
    (h : (formatOf w).round (BfNumber.finite s m k hodd).value = none) :
    bitcastToFlexInt mp lib ⟨w, .finite s m k hodd⟩ =
      .ok (bits w (fields w s (2 ^ expBitsOf w - 1) 0)) := by
  rw [write_finite mp lib hw hexp, roundedIn_of_none s h, encode_inf mp hw (by omega)]

theorem write_rounded (hexp : expBitsOf w ≤ 62) (s : Bool) {x : ℚ} (hpos : 0 < x)
    (h : (formatOf w).Holds x) : ∃ n, bitcastToFlexInt mp lib
        ⟨w, withSign (BfNumber.rounded (getPrecBits w) false x) s⟩ = .ok (bits w n) ∧
      PatternFits w n := by
  obtain ⟨hlow, hhigh⟩ := expBitsOf_bounds hw
  obtain ⟨hp, -⟩ := getPrecBits_bounds hw
  have hp1 : 1 ≤ getPrecBits w := by omega
  have hexp' : expBitsOf w ≤ 63 := by omega
  rcases rounded_cases hp1 false hpos.ne' with ⟨-, hb⟩ | ⟨-, hb⟩ | ⟨hmin, hmax, hrep⟩
  · rw [hb]
    exact ⟨_, write_zero mp lib hw hexp' s, patternFits_zero hexp' (isZero_zero hw s)⟩
  · rw [hb]
    exact ⟨_, write_inf mp lib hw hexp' s,
      patternFits_special hexp' (isSpecial_inf hw s (Nat.two_pow_pos _))⟩
  · obtain ⟨s', m, k, hodd, hb, hr⟩ := id hrep
    have hresult : withSign (rounded (getPrecBits w) false x) s =
        .finite s m k hodd := by rw [hb]; rfl
    have habs : |(finite s m k hodd).value| = |roundPrecision (getPrecBits w) x| := by
      rw [← hr, hb, abs_value, abs_value]
    have hmag : (m.size : ℤ) + k = magnitude (roundPrecision (getPrecBits w) x) := by
      have := expn_eq_magnitude s m k hodd
      rwa [magnitude, habs] at this
    rw [hb] at hr
    rw [hresult]
    rcases holds_or_le_roundPrecision hp1 h with hin | hout
    · rw [← hr] at hin
      have hholds : (formatOf w).Holds (finite s m k hodd).value :=
        (holds_value_iff s hodd).mpr ((holds_value_iff s' hodd).mp hin)
      obtain ⟨n, -, hpattern, hwrite⟩ := write_holds mp lib hw hexp s hodd hholds
      refine ⟨_, hwrite, ?_⟩
      split
      · exact patternFits_zero hexp' (isZero_zero hw s)
      · rename_i hlost
        have hbits := hasBits_roundPrecision hp1 x
        rw [← hr] at hbits
        exact (hpattern.patternFits_iff hodd).mpr ⟨hexp,
          (hasBits_value_iff s' hodd).mp hbits, by omega, by omega, hlost⟩
    · -- a significand that is rounded up to the next power of two is too large
      have hrange : (formatOf w).minExponent ≤ (formatOf w).maxExponent := by
        show -2 ^ (expBitsOf w - 1) + 3 - ((w - expBitsOf w : ℕ) : ℤ) ≤ 2 ^ (expBitsOf w - 1)
        have hpow := two_pow_pos (expBitsOf w - 1)
        omega
      have hprec : 1 ≤ (formatOf w).precision := show 1 ≤ w - expBitsOf w by omega
      have hnone := Format.round_eq_none hprec hrange (by rw [habs]; exact hout)
      exact ⟨_, write_overflow mp lib hw hexp s hodd hnone,
        patternFits_special hexp' (isSpecial_inf hw s (Nat.two_pow_pos _))⟩

/-- A finite pattern is kept exactly when it fits. -/
theorem write_decoded_iff (hexp : expBitsOf w ≤ 62) (hn : n < 2 ^ w) (hspecial : ¬IsSpecial w n)
    (hzero : ¬IsZero w n) :
    bitcastToFlexInt mp lib ⟨w, decoded w n⟩ = .ok (bits w n) ↔ PatternFits w n := by
  obtain ⟨hp, -⟩ := getPrecBits_bounds hw
  obtain ⟨j, hdigits, hpattern⟩ := isPatternOf_odd hn hspecial hzero
  have hodd := odd_mod_two (significand_ne_zero hzero)
  have hvalue := value_odd hodd rfl hdigits
  have hpos : (0 : ℚ) < significand w n * 2 ^ scale w n :=
    mul_pos (by exact_mod_cast pos_of_ne_zero (significand_ne_zero hzero)) (two_zpow_pos _)
  have hmag := expn_eq_magnitude false _ (scale w n + j) hodd
  have hholds (s : Bool) : (formatOf w).Holds
      (finite s (odd (significand w n)) (scale w n + j) hodd).value := by
    obtain ⟨d, hk, hsize, hmax, -, -⟩ := hpattern.bounds hw hodd
    exact (holds_value_iff s hodd).mpr ⟨by omega, hsize, hmax⟩
  rw [decoded, if_neg hspecial, if_neg hzero]
  constructor
  · intro hkept
    obtain ⟨n', hwrite, hfits⟩ := write_rounded mp lib hw hexp (signField w n) hpos
      (hvalue ▸ hholds false)
    rwa [bits_inj (hwrite.symm.trans hkept)] at hfits
  · intro hfits
    obtain ⟨-, hsize, hmin, hmax, hlost⟩ := (hpattern.patternFits_iff hodd).mp hfits
    have hrounded := rounded_of_hasBits (show 1 ≤ getPrecBits w by omega) false
      (represents_value false _ (scale w n + j) hodd)
      ((hasBits_value_iff false hodd).mpr hsize) (by rw [← hmag]; exact hmin)
      (by rw [← hmag]; exact hmax)
    have hencode := encode_pattern mp hw hexp hpattern hodd
    rw [if_neg hlost] at hencode
    rw [hvalue, hrounded, withSign, write_finite mp lib hw hexp,
      roundedIn_of_holds _ (represents_value _ _ _ hodd) (hholds _), hencode]

theorem fields_inf_lt (s : Bool) : fields w s (2 ^ expBitsOf w - 1) 0 < 2 ^ w := by
  have hpos := Nat.two_pow_pos (expBitsOf w)
  exact fields_lt hw s (by omega) (Nat.two_pow_pos _)

end

theorem residue_natCast (hn : n < 2 ^ w) : residue w (n : ℤ) = n := by
  have hcast := natCast_residue w (n : ℤ)
  rw [emod_eq_of_lt (natCast_nonneg n) (by exact_mod_cast hn)] at hcast
  exact_mod_cast hcast

theorem read_undefined (hexp : 63 < expBitsOf w) (rawBits : FlexInt) :
    bitcastFromFlexInt mp conversions lib rawBits w = .error undefinedShift := by
  simp only [bitcastFromFlexInt, getIeeeParams_eq, if_pos (show 64 ≤ expBitsOf w from hexp)]
  rfl

theorem scaled_bitWidth {significand : FlexInt} {e : ℤ} {sgn : BitVec 64} {f : FlexFloat}
    (h : scaled conversions lib significand w e sgn = .ok f) : f.bitWidth = w := by
  unfold scaled at h
  cases hread : ofText lib ('0' :: 'x' :: toString conversions significand 16) w 16 with
  | error error => simp only [hread, bind, bind] at h; cases h
  | ok read =>
    simp only [hread, bind, bind] at h
    obtain rfl := ok.inj h
    rfl

theorem read_bitWidth (hw : 16 ≤ w) {rawBits : FlexInt} {f : FlexFloat}
    (h : bitcastFromFlexInt mp conversions lib rawBits w = .ok f) : f.bitWidth = w := by
  have hwidth : ofWidth w = .ok ⟨w, .zero false⟩ := if_neg (by omega)
  unfold bitcastFromFlexInt at h
  rw [getIeeeParams_eq] at h
  split at h
  · cases h
  · simp only [hwidth, bind, Except.bind] at h
    split_ifs at h
    · obtain rfl := Except.ok.inj h
      rfl
    · obtain rfl := Except.ok.inj h
      rfl
    · obtain rfl := Except.ok.inj h
      rfl
    · exact scaled_bitWidth conversions lib h
    · split at h
      · cases h
      · split at h
        · cases h
        · exact scaled_bitWidth conversions lib h

/-- With more exponent bits than the library has, a finite number is written by a shift that is
undefined, and any other number as a pattern that is not finite. -/
theorem write_of_undefined (hw : 16 ≤ w) (hexp : 62 < expBitsOf w) (b : BfNumber)
    (h : bitcastToFlexInt mp lib ⟨w, b⟩ = .ok (bits w n)) : IsSpecial w n ∨ IsZero w n := by
  by_cases h63 : expBitsOf w ≤ 63
  · cases b with
    | nan =>
      obtain ⟨hlow, hhigh⟩ := expBitsOf_bounds hw
      have hfrac : 2 ^ (fracBitsOf w - 1) < 2 ^ fracBitsOf w :=
        Nat.pow_lt_pow_right (by decide) (by unfold fracBitsOf; omega)
      rw [write_special mp lib h63 (b := .nan) rfl, encode_nan mp hw h63] at h
      exact .inl (bits_inj h ▸ isSpecial_inf hw false hfrac)
    | inf s =>
      rw [write_inf mp lib hw h63] at h
      exact .inl (bits_inj h ▸ isSpecial_inf hw s (Nat.two_pow_pos _))
    | zero s =>
      rw [write_zero mp lib hw h63] at h
      exact .inr (bits_inj h ▸ isZero_zero hw s)
    | finite s m k hodd =>
      obtain ⟨error, herror⟩ := write_finite_undefined mp lib hexp s (k := k) hodd
      rw [herror] at h
      cases h
  · rw [write_undefined mp lib (by omega)] at h
    cases h

theorem patternKept_iff (hw : 16 ≤ w) {signed : Bool} {x : ℤ} (hx : InRange w signed x) :
    PatternKept mp conversions lib ⟨x, w, signed⟩ ↔ PatternFits w (residue w x) := by
  have hn := residue_lt w x
  by_cases hexp : expBitsOf w ≤ 63
  swap
  · refine iff_of_false ?_ fun hfits => hexp hfits.1
    rintro ⟨f, n, hread, -⟩
    rw [read_undefined mp conversions lib (not_le.mp hexp)] at hread
    cases hread
  have hself := fields_of_pattern hw hn
  by_cases hspecial : IsSpecial w (residue w x)
  · refine iff_of_true ?_ (patternFits_special hexp hspecial)
    have hread := decode_eq mp conversions lib hw hexp hx (.inl hspecial)
    rw [decoded, if_pos hspecial] at hread
    by_cases hf : fraction w (residue w x) = 0
    · rw [if_pos hf] at hread
      refine ⟨_, _, hread, write_inf mp lib hw hexp _, ?_⟩
      rw [if_neg fun hnan : IsNan w _ => hnan.2 hf]
      rw [hf, show expField w (residue w x) = 2 ^ expBitsOf w - 1 from hspecial] at hself
      exact hself
    · rw [if_neg hf] at hread
      obtain ⟨hlow, hhigh⟩ := expBitsOf_bounds hw
      have hfrac : 2 ^ (fracBitsOf w - 1) < 2 ^ fracBitsOf w :=
        Nat.pow_lt_pow_right (by decide) (by unfold fracBitsOf; omega)
      have hwrite := write_special mp lib hexp (b := .nan) rfl
      rw [encode_nan mp hw hexp] at hwrite
      refine ⟨_, _, hread, hwrite, ?_⟩
      rw [if_pos (show IsNan w _ from ⟨hspecial, hf⟩)]
      refine ⟨isSpecial_inf hw false hfrac, ?_⟩
      rw [show fraction w _ = 2 ^ (fracBitsOf w - 1) from fields_frac hw false hfrac]
      exact (Nat.two_pow_pos _).ne'
  have hnan : ¬IsNan w (residue w x) := fun hnan => hspecial hnan.1
  by_cases hzero : IsZero w (residue w x)
  · refine iff_of_true ?_ (patternFits_zero hexp hzero)
    have hread := decode_eq mp conversions lib hw hexp hx (.inr (.inl hzero))
    rw [decoded, if_neg hspecial, if_pos hzero] at hread
    refine ⟨_, _, hread, write_zero mp lib hw hexp _, ?_⟩
    rw [if_neg hnan]
    rw [hzero.1, hzero.2] at hself
    exact hself
  by_cases hexp' : expBitsOf w ≤ 62
  · have hread := decode_eq mp conversions lib hw hexp hx (.inr (.inr hexp'))
    rw [← write_decoded_iff mp lib hw hexp' hn hspecial hzero]
    constructor
    · rintro ⟨f, n, hread', hwrite, hsame⟩
      rw [if_neg hnan] at hsame
      have hf := ok.inj (hread.symm.trans hread')
      rw [← hf, hsame] at hwrite
      exact hwrite
    · intro hwrite
      exact ⟨_, _, hread, hwrite, by rw [if_neg hnan]⟩
  · refine iff_of_false ?_ fun hfits => hexp' ((hfits.2.resolve_left hspecial).resolve_left hzero).1
    rintro ⟨⟨v, b⟩, n, hread, hwrite, hsame⟩
    obtain rfl : v = w := read_bitWidth mp conversions lib hw hread
    rw [if_neg hnan] at hsame
    rw [hsame] at hwrite
    rcases write_of_undefined mp lib hw (not_le.mp hexp') b hwrite with h | h
    · exact hspecial h
    · exact hzero h

end RoundTrip

/-! ## The round trip of the bytes -/

def BytesKept (f : FlexFloat) (destSize : ℕ) (endian : Endianness) : Prop :=
  ∃ bytes g result, writeIeeeBytes mp lib f destSize endian = .ok bytes ∧
    readIeeeBytes mp conversions lib bytes f.bitWidth endian = .ok g ∧
    bitcastToFlexInt mp lib f = .ok result ∧ bitcastToFlexInt mp lib g = .ok result

/-- A subnormal number that reaches above its limbs. -/
def LostAt (w m : ℕ) (k : ℤ) : Prop :=
  (((m.size + 63) / 64 * 64 : ℕ) : ℤ) < m.size + k - (formatOf w).minExponent ∧
    m.size + k - (formatOf w).minExponent ≤ fracBitsOf w

/-- The shifts are defined, and what a finite number is rounded to in the format has no more digits
than floats of the width, and one of the library's exponents, unless its pattern is lost. -/
def FloatFits (w : ℕ) (b : BfNumber) : Prop :=
  expBitsOf w ≤ 63 ∧ ∀ s m k hodd, b = .finite s m k hodd → expBitsOf w ≤ 62 ∧
    ∀ s' m' k' hodd', BfNumber.roundedIn (formatOf w) s b.value = .finite s' m' k' hodd' →
      LostAt w m' k' ∨ m'.size ≤ getPrecBits w ∧ BfNumber.expMin ≤ m'.size + k' ∧
        m'.size + k' ≤ BfNumber.expMax

section Bytes

variable {w n m : ℕ} {k : ℤ} {count : ℕ} {endian : Endianness}

theorem lost_iff (hw : 16 ≤ w) (h : IsPatternOf w n m k) (hodd : m % 2 = 1) :
    Lost w n m ↔ LostAt w m k := by
  obtain ⟨d, hk, -, -, hsub, hnormal⟩ := h.bounds hw hodd
  have hsize : (fraction w n).size ≤ fracBitsOf w := size_le.mpr (fraction_lt w n)
  unfold Lost LostAt
  by_cases he : expField w n = 0
  · obtain ⟨hN, -⟩ := hsub he
    constructor
    · rintro ⟨-, hlost⟩
      omega
    · rintro ⟨hlost, -⟩
      exact ⟨he, by omega⟩
  · obtain ⟨hN, -⟩ := hnormal he
    constructor
    · rintro ⟨he', -⟩
      exact absurd he' he
    · rintro ⟨-, hle⟩
      omega

theorem bytesKept_iff_read (hn : n < 2 ^ w) (hcount : w ≤ 8 * count)
    (hwrite : bitcastToFlexInt mp lib ⟨w, b⟩ = .ok (bits w n)) :
    BytesKept mp conversions lib ⟨w, b⟩ count endian ↔
      ∃ g, bitcastFromFlexInt mp conversions lib (bits w n) w = .ok g ∧
        bitcastToFlexInt mp lib g = .ok (bits w n) := by
  have hbytes : writeIeeeBytes mp lib ⟨w, b⟩ count endian =
      .ok (writeBytes mp (bits w n) count endian) := by
    simp only [writeIeeeBytes, hwrite, bind, Except.bind, pure, Except.pure]
  have hread : readBytes mp (writeBytes mp (bits w n) count endian) w false endian = bits w n :=
    readBytes_writeBytes mp (inRange_bits hn) hcount endian
  constructor
  · rintro ⟨bytes, g, result, h1, h2, h3, h4⟩
    obtain rfl := Except.ok.inj (hbytes.symm.trans h1)
    obtain rfl := Except.ok.inj (hwrite.symm.trans h3)
    rw [readIeeeBytes, hread] at h2
    exact ⟨g, h2, h4⟩
  · rintro ⟨g, h2, h4⟩
    refine ⟨_, g, _, hbytes, ?_, hwrite, h4⟩
    rw [readIeeeBytes, hread]
    exact h2

theorem bytesKept_iff_fits (hw : 16 ≤ w) (hn : n < 2 ^ w) (hnan : ¬IsNan w n)
    (hcount : w ≤ 8 * count) (hwrite : bitcastToFlexInt mp lib ⟨w, b⟩ = .ok (bits w n)) :
    BytesKept mp conversions lib ⟨w, b⟩ count endian ↔ PatternFits w n := by
  have hkept := patternKept_iff mp conversions lib hw (inRange_bits hn)
  rw [residue_natCast hn] at hkept
  rw [bytesKept_iff_read mp conversions lib hn hcount hwrite, ← hkept]
  unfold PatternKept
  dsimp only
  rw [residue_natCast hn]
  constructor
  · rintro ⟨g, hread, hback⟩
    exact ⟨g, n, hread, hback, by rw [if_neg hnan]⟩
  · rintro ⟨g, n', hread, hback, hsame⟩
    rw [if_neg hnan] at hsame
    exact ⟨g, hread, hsame ▸ hback⟩

theorem not_bytesKept_of_error {error : String}
    (hwrite : bitcastToFlexInt mp lib ⟨w, b⟩ = .error error) :
    ¬BytesKept mp conversions lib ⟨w, b⟩ count endian := by
  rintro ⟨bytes, g, result, -, -, h3, -⟩
  rw [hwrite] at h3
  cases h3

theorem floatFits_of_special (hexp : expBitsOf w ≤ 63) (hb : ∀ s m k hodd, b ≠ .finite s m k hodd) :
    FloatFits w b :=
  ⟨hexp, fun s m k hodd h => absurd h (hb s m k hodd)⟩

theorem bytesKept_nan (hw : 16 ≤ w) (hexp : expBitsOf w ≤ 63) (hcount : w ≤ 8 * count) :
    BytesKept mp conversions lib ⟨w, .nan⟩ count endian := by
  obtain ⟨hlow, hhigh⟩ := expBitsOf_bounds hw
  have hpos := Nat.two_pow_pos (expBitsOf w)
  have hfrac : 2 ^ (fracBitsOf w - 1) < 2 ^ fracBitsOf w :=
    Nat.pow_lt_pow_right (by decide) (by unfold fracBitsOf; omega)
  have hwrite := write_special mp lib hexp (b := .nan) rfl
  rw [encode_nan mp hw hexp] at hwrite
  have hn : fields w false (2 ^ expBitsOf w - 1) (2 ^ (fracBitsOf w - 1)) < 2 ^ w :=
    fields_lt hw false (by omega) hfrac
  have hspecial := isSpecial_inf hw false hfrac
  have hf : fraction w (fields w false (2 ^ expBitsOf w - 1) (2 ^ (fracBitsOf w - 1))) ≠ 0 := by
    rw [show fraction w _ = 2 ^ (fracBitsOf w - 1) from fields_frac hw false hfrac]
    exact (Nat.two_pow_pos _).ne'
  have hread := decode_eq mp conversions lib hw hexp (inRange_bits hn)
    (.inl (by rwa [residue_natCast hn]))
  rw [residue_natCast hn, decoded, if_pos hspecial, if_neg hf] at hread
  exact (bytesKept_iff_read mp conversions lib hn hcount hwrite).mpr ⟨_, hread, hwrite⟩

theorem bytesKept_holds_iff (hw : 16 ≤ w) (hexp : expBitsOf w ≤ 62) (hcount : w ≤ 8 * count)
    (s : Bool) (hodd : m % 2 = 1) (h : (formatOf w).Holds (BfNumber.finite s m k hodd).value)
    (hb : bitcastToFlexInt mp lib ⟨w, b⟩ = bitcastToFlexInt mp lib ⟨w, .finite s m k hodd⟩) :
    BytesKept mp conversions lib ⟨w, b⟩ count endian ↔
      LostAt w m k ∨ m.size ≤ getPrecBits w ∧ BfNumber.expMin ≤ m.size + k ∧
        m.size + k ≤ BfNumber.expMax := by
  obtain ⟨n, hsign, hpattern, hwrite⟩ := write_holds mp lib hw hexp s hodd h
  rw [← hb] at hwrite
  rw [← lost_iff hw hpattern hodd]
  by_cases hlost : Lost w n m
  · rw [if_pos hlost] at hwrite
    have hzero := isZero_zero hw s
    have hlt : fields w s 0 0 < 2 ^ w := fields_lt hw s (Nat.two_pow_pos _) (Nat.two_pow_pos _)
    refine iff_of_true ?_ (.inl hlost)
    refine (bytesKept_iff_fits mp conversions lib hw hlt (fun hnan => hnan.2 hzero.2) hcount
      hwrite).mpr (patternFits_zero (by omega) hzero)
  · rw [if_neg hlost] at hwrite
    rw [bytesKept_iff_fits mp conversions lib hw hpattern.lt
      (fun hnan => hpattern.not_special hnan.1) hcount hwrite, hpattern.patternFits_iff hodd,
      or_iff_right hlost]
    exact ⟨fun ⟨_, hsize, hmin, hmax, _⟩ => ⟨hsize, hmin, hmax⟩,
      fun ⟨hsize, hmin, hmax⟩ => ⟨hexp, hsize, hmin, hmax, hlost⟩⟩

theorem bytesKept_iff (hw : 16 ≤ w) (hcount : w ≤ 8 * count) (b : BfNumber) :
    BytesKept mp conversions lib ⟨w, b⟩ count endian ↔ FloatFits w b := by
  by_cases hexp : expBitsOf w ≤ 63
  swap
  · exact iff_of_false (not_bytesKept_of_error mp conversions lib
      (write_undefined mp lib (not_le.mp hexp) b)) fun hfits => hexp hfits.1
  cases b with
  | nan =>
    exact iff_of_true (bytesKept_nan mp conversions lib hw hexp hcount)
      (floatFits_of_special hexp (by simp))
  | inf s =>
    refine iff_of_true ?_ (floatFits_of_special hexp (by simp))
    have hfrac : fraction w (fields w s (2 ^ expBitsOf w - 1) 0) = 0 :=
      fields_frac hw s (Nat.two_pow_pos _)
    exact (bytesKept_iff_fits mp conversions lib hw (fields_inf_lt hw s)
      (fun hnan => hnan.2 hfrac) hcount (write_inf mp lib hw hexp s)).mpr
      (patternFits_special hexp (isSpecial_inf hw s (Nat.two_pow_pos _)))
  | zero s =>
    refine iff_of_true ?_ (floatFits_of_special hexp (by simp))
    have hzero := isZero_zero hw s
    exact (bytesKept_iff_fits mp conversions lib hw
      (fields_lt hw s (Nat.two_pow_pos _) (Nat.two_pow_pos _)) (fun hnan => hnan.2 hzero.2) hcount
      (write_zero mp lib hw hexp s)).mpr (patternFits_zero hexp hzero)
  | finite s m k hodd =>
    by_cases hexp' : expBitsOf w ≤ 62
    swap
    · obtain ⟨error, herror⟩ := write_finite_undefined mp lib (not_le.mp hexp') s (k := k) hodd
      exact iff_of_false (not_bytesKept_of_error mp conversions lib herror)
        fun hfits => hexp' (hfits.2 s m k hodd rfl).1
    have hwrite := write_finite mp lib hw hexp' s (k := k) hodd
    have hmaxE : 0 < (formatOf w).maxExponent := two_pow_pos _
    have hprec : 1 ≤ (formatOf w).precision := by
      obtain ⟨hlow, hhigh⟩ := expBitsOf_bounds hw
      show 1 ≤ w - expBitsOf w
      omega
    have hfits : FloatFits w (.finite s m k hodd) ↔ ∀ s' m' k' hodd',
        roundedIn (formatOf w) s (finite s m k hodd).value =
          .finite s' m' k' hodd' → LostAt w m' k' ∨ m'.size ≤ getPrecBits w ∧
            expMin ≤ m'.size + k' ∧ m'.size + k' ≤ expMax := by
      refine ⟨fun h => (h.2 s m k hodd rfl).2, fun h => ⟨hexp, fun s1 m1 k1 h1 heq => ?_⟩⟩
      cases heq
      exact ⟨hexp', h⟩
    rw [hfits]
    cases hround : (formatOf w).round (finite s m k hodd).value with
    | none =>
      rw [roundedIn_of_none s hround] at hwrite ⊢
      rw [encode_inf mp hw hexp] at hwrite
      refine iff_of_true ?_ (by simp)
      have hfrac : fraction w (fields w s (2 ^ expBitsOf w - 1) 0) = 0 :=
        fields_frac hw s (Nat.two_pow_pos _)
      exact (bytesKept_iff_fits mp conversions lib hw (fields_inf_lt hw s)
        (fun hnan => hnan.2 hfrac) hcount hwrite).mpr
        (patternFits_special hexp (isSpecial_inf hw s (Nat.two_pow_pos _)))
    | some y =>
      rcases eq_or_ne y 0 with rfl | hy
      · rw [roundedIn_of_zero s hmaxE hround] at hwrite ⊢
        rw [encode_zero mp hw] at hwrite
        refine iff_of_true ?_ (by simp)
        have hzero := isZero_zero hw s
        exact (bytesKept_iff_fits mp conversions lib hw
          (fields_lt hw s (Nat.two_pow_pos _) (Nat.two_pow_pos _))
          (fun hnan => hnan.2 hzero.2) hcount hwrite).mpr (patternFits_zero hexp hzero)
      · have hrep := represents_roundedIn s hy hround
        have hholds := Format.holds_of_round hprec hround
        obtain ⟨s', m', k', hodd', hb, hvalue⟩ := hrep
        rw [hb] at hvalue hwrite ⊢
        rw [← hvalue] at hholds
        have hsame : bitcastToFlexInt mp lib ⟨w, .finite s m k hodd⟩ =
            bitcastToFlexInt mp lib ⟨w, .finite s' m' k' hodd'⟩ := by
          rw [hwrite, write_finite mp lib hw hexp' s' hodd', roundedIn_of_holds s'
            (represents_value s' m' k' hodd') hholds]
        rw [bytesKept_holds_iff mp conversions lib hw hexp' hcount s' hodd' hholds hsame]
        constructor
        · intro h s1 m1 k1 h1 heq
          cases heq
          exact h
        · intro h
          exact h s' m' k' hodd' rfl

/-- Patterns and bytes come back exactly when they fit: a pattern of any width that floats have,
and any float written to bytes for all of its bits. -/
theorem bitPatterns_iff (hw : 16 ≤ w) : (∀ signed x, InRange w signed x →
      (PatternKept mp conversions lib ⟨x, w, signed⟩ ↔ PatternFits w (residue w x))) ∧
    ∀ b count endian, w ≤ 8 * count →
      (BytesKept mp conversions lib ⟨w, b⟩ count endian ↔ FloatFits w b) :=
  ⟨fun _ _ hx => patternKept_iff mp conversions lib hw hx,
    fun b _ _ hcount => bytesKept_iff mp conversions lib hw hcount b⟩

/-- The patterns and the floats of 32 bits. -/
theorem bitPatterns_binary32 : (∀ signed x, InRange 32 signed x →
      (PatternKept LibTomMath.exact RadixConversions.exact LibBf.exact ⟨x, 32, signed⟩ ↔
        PatternFits 32 (residue 32 x))) ∧
    ∀ b count endian, 32 ≤ 8 * count →
      (BytesKept LibTomMath.exact RadixConversions.exact LibBf.exact ⟨32, b⟩ count endian ↔
        FloatFits 32 b) :=
  bitPatterns_iff LibTomMath.exact RadixConversions.exact LibBf.exact (by decide)

/-- The least normal number of 80 bits but one has 68 digits, three more than its floats. -/
theorem normal80_not_kept : ¬∀ w, 16 ≤ w → ∀ signed x, InRange w signed x →
    PatternKept LibTomMath.exact RadixConversions.exact LibBf.exact ⟨x, w, signed⟩ := by
  intro h
  have hrange : InRange 80 false ((2 ^ 67 + 1 : ℕ) : ℤ) := inRange_bits (by decide)
  have hkept := h 80 (by decide) false _ hrange
  rw [patternKept_iff LibTomMath.exact RadixConversions.exact LibBf.exact (by decide) hrange,
    residue_natCast (by decide)] at hkept
  have hspecial : ¬IsSpecial 80 (2 ^ 67 + 1) := by decide +kernel
  have hzero : ¬IsZero 80 (2 ^ 67 + 1) := by decide +kernel
  have hsize := ((hkept.2.resolve_left hspecial).resolve_left hzero).2.1
  exact absurd hsize (by decide +kernel)

end Bytes

end FlexFloat

end EzPacker.FlexNumber
