import EzPacker.FlexNumber.LibTomMath

/-!
# Arithmetic

Sums, differences and products are clamped exact results, so that they are right where
clamping is. A quotient is truncated and a remainder has the sign of the divisor: the two
belong to one division where the operands have one sign or the remainder is zero.
-/

namespace EzPacker.FlexNumber

open Int

open Mir (FlexInt)
open TwosComplement

variable (mp : LibTomMath)

/-! ## Modular arithmetic -/

/-- The number of a type that is congruent to an exact result. -/
def IsWrapped (w : ℕ) (signed : Bool) (exact : ℤ) (n : FlexInt) : Prop :=
  n.bitWidth = w ∧ n.isSigned = signed ∧ InRange w signed n.value ∧ n.value ≡ exact [ZMOD 2 ^ w]

/-- The result of a checked operation: the number, and whether the exact result was out
of range. -/
def IsChecked (w : ℕ) (signed : Bool) (exact : ℤ) (r : Except String (FlexInt × Bool)) : Prop :=
  ∃ n overflow, r = .ok (n, overflow) ∧ IsWrapped w signed exact n ∧
    (overflow = true ↔ ¬ InRange w signed exact)

/-- The operations on the numbers `a` and `b` of a type, and clamping of an integer `c`
to it, are two's-complement arithmetic. -/
structure IsTwosComplement (w : ℕ) (signed : Bool) (a b c : ℤ) : Prop where
  add : IsWrapped w signed (a + b) (add mp ⟨a, w, signed⟩ ⟨b, w, signed⟩)
  sub : IsWrapped w signed (a - b) (sub mp ⟨a, w, signed⟩ ⟨b, w, signed⟩)
  mul : IsWrapped w signed (a * b) (mul mp ⟨a, w, signed⟩ ⟨b, w, signed⟩)
  increment : IsWrapped w signed (a + 1) (increment mp ⟨a, w, signed⟩)
  decrement : IsWrapped w signed (a - 1) (decrement mp ⟨a, w, signed⟩)
  addWithOverflow : IsChecked w signed (a + b) (addWithOverflow mp ⟨a, w, signed⟩ ⟨b, w, signed⟩)
  subWithOverflow : IsChecked w signed (a - b) (subWithOverflow mp ⟨a, w, signed⟩ ⟨b, w, signed⟩)
  mulWithOverflow : IsChecked w signed (a * b) (mulWithOverflow mp ⟨a, w, signed⟩ ⟨b, w, signed⟩)
  clamp : IsChecked w signed c (.ok (clampToTwosComplement mp ⟨c, w, signed⟩))
  paths : w ≤ 64 → ¬ InRange w signed c →
    truncateNative mp ⟨c, w, signed⟩ = truncateWide mp ⟨c, w, signed⟩

variable {w s : ℕ} {signed : Bool} {b x : ℤ}

theorem isWrapped_clamp_iff (hw : 1 ≤ w) (signed : Bool) (x : ℤ) :
    IsWrapped w signed x (clampToTwosComplement mp ⟨x, w, signed⟩).1 ↔ Faithful w signed x := by
  rw [clampToTwosComplement_eq mp hw, ← clamped_eq_wrap_iff, eq_wrap_iff]
  simp [IsWrapped]

theorem isChecked_clamp_iff (hw : 1 ≤ w) (signed : Bool) (x : ℤ) :
    IsChecked w signed x (.ok (clampToTwosComplement mp ⟨x, w, signed⟩)) ↔ Faithful w signed x := by
  rw [← isWrapped_clamp_iff mp hw]
  constructor
  · rintro ⟨n, overflow, hr, hn, -⟩
    rw [Except.ok.inj hr]
    exact hn
  · intro hn
    refine ⟨(clampToTwosComplement mp ⟨x, w, signed⟩).1,
      (clampToTwosComplement mp ⟨x, w, signed⟩).2, rfl, hn, ?_⟩
    rw [clampToTwosComplement_eq mp hw]
    simp

theorem checkCompatible_self (w : ℕ) (signed : Bool) (a b : ℤ) :
    checkCompatible ⟨a, w, signed⟩ ⟨b, w, signed⟩ = .ok () := by
  simp [checkCompatible]

theorem paths_of_faithful (hw : 1 ≤ w) {c : ℤ} (h : Faithful w signed c) (h64 : w ≤ 64)
    (hout : ¬ InRange w signed c) :
    truncateNative mp ⟨c, w, signed⟩ = truncateWide mp ⟨c, w, signed⟩ := by
  have hclamped := clamped_eq_wrap_iff.mpr h
  rw [clamped, if_neg hout, if_pos h64] at hclamped
  rw [truncateNative_eq mp hw h64, truncateWide_eq mp hw]
  exact hclamped

/-- The operations are two's-complement arithmetic unless a negative result out of range
is clamped in machine words and differs from its opposite. -/
theorem isTwosComplement_iff {w : ℕ} (hw : 1 ≤ w) (signed : Bool) (a b c : ℤ) :
    IsTwosComplement mp w signed a b c ↔
      ∀ x ∈ [a + b, a - b, a * b, a + 1, a - 1, c], Faithful w signed x := by
  have hwrapped := isWrapped_clamp_iff mp hw signed
  have hchecked := isChecked_clamp_iff mp hw signed
  have hcompatible := checkCompatible_self w signed a b
  simp only [List.forall_mem_cons, List.not_mem_nil, false_implies, implies_true, and_true]
  constructor
  · intro h
    exact ⟨(hwrapped _).mp h.add, (hwrapped _).mp h.sub, (hwrapped _).mp h.mul,
      (hwrapped _).mp h.increment, (hwrapped _).mp h.decrement, (hchecked _).mp h.clamp⟩
  · rintro ⟨hadd, hsub, hmul, hincrement, hdecrement, hclamp⟩
    refine ⟨(hwrapped _).mpr hadd, (hwrapped _).mpr hsub, (hwrapped _).mpr hmul,
      (hwrapped _).mpr hincrement, (hwrapped _).mpr hdecrement, ?_, ?_, ?_,
      (hchecked _).mpr hclamp, paths_of_faithful mp hw hclamp⟩
    · rw [addWithOverflow, hcompatible]
      exact (hchecked _).mpr hadd
    · rw [subWithOverflow, hcompatible]
      exact (hchecked _).mpr hsub
    · rw [mulWithOverflow, hcompatible]
      exact (hchecked _).mpr hmul

theorem isTwosComplement_int128 :
    1 ≤ 128 ∧ (IsTwosComplement LibTomMath.exact 128 true (-5) 3 (2 ^ 130) ↔
      ∀ x ∈ [-5 + 3, -5 - 3, -5 * 3, -5 + 1, -5 - 1, 2 ^ 130], Faithful 128 true x) :=
  ⟨by decide, isTwosComplement_iff LibTomMath.exact (by decide) true (-5) 3 (2 ^ 130)⟩

/-- In eight bits the sum of -100 and -100 is 56; it comes out as -56. -/
theorem add_int8_not_wrapped : InRange 8 true (-100) ∧
      add LibTomMath.exact ⟨-100, 8, true⟩ ⟨-100, 8, true⟩ = ⟨-56, 8, true⟩ ∧
      ¬ IsTwosComplement LibTomMath.exact 8 true (-100) (-100) 0 := by
  have hrange : InRange 8 true (-100) := by decide
  have hclamp := clampToTwosComplement_eq LibTomMath.exact (w := 8) (by decide) true (-200)
  refine ⟨hrange, ?_, fun h => ?_⟩
  · rw [add, assign, show (-100 : ℤ) + -100 = -200 from rfl, hclamp]
    rfl
  · have hfaithful := (isWrapped_clamp_iff LibTomMath.exact (by decide) true _).mp h.add
    revert hfaithful
    unfold Faithful
    decide

/-! ## Division -/

/-- The two remainders differ by the divisor where the signs differ. -/
theorem fmod_eq_tmod_add {a : ℤ} (hb0 : b ≠ 0) :
    a.fmod b = a.tmod b + if b ∣ a ∨ 0 ≤ a * b then 0 else b := by
  have hdvd : b ∣ a ↔ a % b = 0 := dvd_iff_emod_eq_zero
  have hnonneg := emod_nonneg a hb0
  have hlt := emod_lt_abs a hb0
  have hsign : 0 ≤ a * b ↔ 0 ≤ a ∧ 0 ≤ b ∨ a ≤ 0 ∧ b ≤ 0 := mul_nonneg_iff
  rw [fmod_eq_emod, tmod_eq_emod]
  by_cases ha : a = 0
  · subst ha
    simp
  · rcases lt_or_gt_of_ne ha with ha | ha <;> rcases lt_or_gt_of_ne hb0 with hb | hb <;>
      split_ifs <;> omega

/-- The part of a dividend that is divided lies between zero and the dividend. -/
theorem tdiv_mul_inRange {a : ℤ} (b : ℤ) (ha : InRange w signed a) :
    InRange w signed (a.tdiv b * b) := by
  have hzero := inRange_zero w signed
  have hle : (a.tmod b).natAbs ≤ a.natAbs := by
    rw [natAbs_tmod]
    exact Nat.mod_le _ _
  rw [tdiv_mul_self]
  rcases le_total 0 a with h | h
  · have hnonneg := tmod_nonneg b h
    exact hzero.between ha (by omega) (by omega)
  · have hnonpos : 0 ≤ (-a).tmod b := tmod_nonneg b (by omega)
    rw [neg_tmod] at hnonpos
    exact ha.between hzero (by omega) (by omega)

/-- A remainder lies between zero and the divisor. -/
theorem fmod_inRange (a : ℤ) (hb0 : b ≠ 0) (hb : InRange w signed b) :
    InRange w signed (a.fmod b) ∧ |a.fmod b| < |b| := by
  have hzero := inRange_zero w signed
  have hnonneg := emod_nonneg a hb0
  have hlt := emod_lt_abs a hb0
  rw [fmod_eq_emod]
  rcases lt_or_gt_of_ne hb0 with h | h
  · rw [abs_of_neg h] at hlt ⊢
    have hle : a % b + (if 0 ≤ b ∨ b ∣ a then 0 else b) ≤ 0 ∧
        b < a % b + (if 0 ≤ b ∨ b ∣ a then 0 else b) := by
      split_ifs <;> omega
    exact ⟨hb.between hzero hle.2.le hle.1, by rw [abs_of_nonpos hle.1]; omega⟩
  · rw [abs_of_pos h] at hlt ⊢
    rw [if_pos (Or.inl h.le), add_zero]
    exact ⟨hzero.between hb hnonneg hlt.le, by rwa [abs_of_nonneg hnonneg]⟩

/-- A width without bits has no number to divide by. -/
theorem one_le_of_ne_zero (hb : InRange w signed b) (hb0 : b ≠ 0) : 1 ≤ w := by
  by_contra hw
  obtain rfl : w = 0 := by omega
  exact hb0 (eq_zero_of_inRange_zero hb)

/-- The law of division in exact integers. -/
theorem tdiv_mul_add_fmod_iff {a : ℤ} (hb0 : b ≠ 0) :
    a.tdiv b * b + a.fmod b = a ↔ b ∣ a ∨ 0 ≤ a * b := by
  have hlaw := tdiv_mul_add_tmod a b
  rw [fmod_eq_tmod_add hb0]
  split_ifs with h
  · rw [add_zero]
    exact iff_of_true hlaw h
  · exact iff_of_false (by omega) h

theorem sum_inRange {a : ℤ} (ha : InRange w signed a) (hb : InRange w signed b) (hb0 : b ≠ 0) :
    InRange w signed (a.tdiv b * b + a.fmod b) := by
  have hlaw := tdiv_mul_add_tmod a b
  rw [fmod_eq_tmod_add hb0]
  split_ifs with h
  · rwa [add_zero, hlaw]
  · rw [not_or, not_le, mul_neg_iff] at h
    rw [← add_assoc, hlaw]
    rcases h.2 with ⟨hpos, hneg⟩ | ⟨hneg, hpos⟩
    · exact hb.between ha (by omega) (by omega)
    · exact ha.between hb (by omega) (by omega)

/-- Quotient and remainder of two numbers belong to one division where the numbers have
one sign or the divisor divides. -/
theorem div_mod_law_iff {w : ℕ} {signed : Bool} {a b : ℤ} (ha : InRange w signed a)
    (hb : InRange w signed b) (hb0 : b ≠ 0) (hq : InRange w signed (a.tdiv b)) :
    (add mp (mul mp (div mp ⟨a, w, signed⟩ ⟨b, w, signed⟩) ⟨b, w, signed⟩)
        (mod mp ⟨a, w, signed⟩ ⟨b, w, signed⟩) = ⟨a, w, signed⟩ ∧
      |(mod mp ⟨a, w, signed⟩ ⟨b, w, signed⟩).value| < |b|) ↔ b ∣ a ∨ 0 ≤ a * b := by
  have hw := one_le_of_ne_zero hb hb0
  have hdiv : div mp ⟨a, w, signed⟩ ⟨b, w, signed⟩ = ⟨a.tdiv b, w, signed⟩ := by
    simp only [div, assign, mp.div_eq a b hb0]
    rw [clampToTwosComplement_of_inRange mp hw hq]
  have hmod : mod mp ⟨a, w, signed⟩ ⟨b, w, signed⟩ = ⟨a.fmod b, w, signed⟩ := by
    simp only [mod, assign, mp.mod_eq a b hb0]
    rw [clampToTwosComplement_of_inRange mp hw (fmod_inRange a hb0 hb).1]
  have hmul : mul mp ⟨a.tdiv b, w, signed⟩ ⟨b, w, signed⟩ = ⟨a.tdiv b * b, w, signed⟩ := by
    simp only [mul, assign]
    rw [clampToTwosComplement_of_inRange mp hw (tdiv_mul_inRange b ha)]
  have hadd : add mp ⟨a.tdiv b * b, w, signed⟩ ⟨a.fmod b, w, signed⟩ =
      ⟨a.tdiv b * b + a.fmod b, w, signed⟩ := by
    simp only [add, assign]
    rw [clampToTwosComplement_of_inRange mp hw (sum_inRange ha hb hb0)]
  rw [hdiv, hmod, hmul, hadd, ← tdiv_mul_add_fmod_iff hb0]
  simp [(fmod_inRange a hb0 hb).2]

theorem div_mod_law_int32 : InRange 32 true (-20) ∧ InRange 32 true 5 ∧ (5 : ℤ) ≠ 0 ∧
      InRange 32 true ((-20 : ℤ).tdiv 5) ∧
      ((add LibTomMath.exact (mul LibTomMath.exact
          (div LibTomMath.exact ⟨-20, 32, true⟩ ⟨5, 32, true⟩) ⟨5, 32, true⟩)
          (mod LibTomMath.exact ⟨-20, 32, true⟩ ⟨5, 32, true⟩) = ⟨-20, 32, true⟩ ∧
        |(mod LibTomMath.exact ⟨-20, 32, true⟩ ⟨5, 32, true⟩).value| < |(5 : ℤ)|) ↔
        (5 : ℤ) ∣ -20 ∨ (0 : ℤ) ≤ -20 * 5) :=
  ⟨by decide, by decide, by decide, by decide,
    div_mod_law_iff LibTomMath.exact (by decide) (by decide) (by decide) (by decide)⟩

/-- The quotient of -7 and 2 is -3 and the remainder is 1, which gives -5 back. -/
theorem div_mod_law_int8_fails :
    InRange 8 true (-7) ∧ InRange 8 true 2 ∧ InRange 8 true ((-7 : ℤ).tdiv 2) ∧
      div LibTomMath.exact ⟨-7, 8, true⟩ ⟨2, 8, true⟩ = ⟨-3, 8, true⟩ ∧
      mod LibTomMath.exact ⟨-7, 8, true⟩ ⟨2, 8, true⟩ = ⟨1, 8, true⟩ ∧
      add LibTomMath.exact (mul LibTomMath.exact
        (div LibTomMath.exact ⟨-7, 8, true⟩ ⟨2, 8, true⟩) ⟨2, 8, true⟩)
        (mod LibTomMath.exact ⟨-7, 8, true⟩ ⟨2, 8, true⟩) ≠ ⟨-7, 8, true⟩ := by
  have hquotient : div LibTomMath.exact ⟨-7, 8, true⟩ ⟨2, 8, true⟩ = ⟨-3, 8, true⟩ := by
    decide +kernel
  have hremainder : mod LibTomMath.exact ⟨-7, 8, true⟩ ⟨2, 8, true⟩ = ⟨1, 8, true⟩ := by
    decide +kernel
  refine ⟨by decide, by decide, by decide, hquotient, hremainder, ?_⟩
  rw [hquotient, hremainder]
  decide +kernel

/-!
## Shifts

A shift by less than the width keeps the type. A larger one of a number that is not a
negative number shifted arithmetically returns an unsigned zero, which a signed operand
does not combine with.
-/

/-! ## The unsigned range -/

theorem normalizedUnsigned_eq {n : FlexInt} (hw : 1 ≤ n.bitWidth) :
    normalizedUnsigned mp n = n.value % 2 ^ n.bitWidth := by
  have hpos := two_pow_pos n.bitWidth
  unfold normalizedUnsigned
  rw [if_neg (by omega)]
  split_ifs with h64 hneg
  · have hdvd : (2 : ℤ) ^ n.bitWidth ∣ 2 ^ 64 := pow_dvd_pow 2 h64
    have hword : getU64 mp n = BitVec.ofInt 64 n.value := by
      rw [getU64, mp.getI64_eq, mp.getU64_eq, ite_self]
    rw [hword, and_nativeMask_toNat h64, BitVec.toNat_ofInt]
    push_cast
    rw [toNat_of_nonneg (emod_nonneg _ (by decide))]
    exact emod_emod_of_dvd _ (by simpa using hdvd)
  · have hmag : ((mp.mpMod2d n.value n.bitWidth).natAbs : ℤ) = -n.value % 2 ^ n.bitWidth := by
      rw [mp.mod2d_eq, ← natAbs_neg, ← neg_tmod, tmod_eq_emod_of_nonneg (by omega),
        natAbs_of_nonneg (emod_nonneg _ hpos.ne')]
    simp only [hmag]
    have hzero : -n.value % 2 ^ n.bitWidth = 0 ↔ n.value % 2 ^ n.bitWidth = 0 := by
      rw [← dvd_iff_emod_eq_zero, ← dvd_iff_emod_eq_zero, dvd_neg]
    split_ifs with h0
    · exact (hzero.mp h0).symm
    · have hsum : -n.value % 2 ^ n.bitWidth = 2 ^ n.bitWidth - n.value % 2 ^ n.bitWidth := by
        rw [neg_emod, if_neg (by rwa [dvd_iff_emod_eq_zero, ← hzero]), natAbs_pow]
        rfl
      rw [hsum]
      ring
  · rw [mp.mod2d_eq, tmod_eq_emod_of_nonneg (by omega)]

theorem normalizedUnsigned_nonneg {n : FlexInt} (hw : 1 ≤ n.bitWidth) :
    0 ≤ normalizedUnsigned mp n := by
  rw [normalizedUnsigned_eq mp hw]
  exact emod_nonneg _ (two_pow_pos _).ne'

@[simp] theorem ofU64_zero (w : ℕ) : ofU64 mp 0 w = ⟨0, w, false⟩ := by
  simp [ofU64, clampToTwosComplement]

/-! ## The three shifts -/

/-- A number that is wrapped from a number congruent to the exact result. -/
theorem isWrapped_of_nonneg (hw : 1 ≤ w) (signed : Bool) {exact : ℤ} (hx : 0 ≤ x)
    (hcong : x ≡ exact [ZMOD 2 ^ w]) :
    IsWrapped w signed exact (clampToTwosComplement mp ⟨x, w, signed⟩).1 := by
  rw [clampToTwosComplement_of_nonneg mp hw signed hx]
  exact ⟨rfl, rfl, wrap_inRange w signed x, (wrap_modEq w signed x).trans hcong⟩

theorem isWrapped_zero {exact : ℤ} (h : (0 : ℤ) ≡ exact [ZMOD 2 ^ w]) :
    IsWrapped w false exact ⟨0, w, false⟩ :=
  ⟨rfl, rfl, inRange_zero w false, h⟩

theorem shl_of_lt (hs : s < w) (signed : Bool) (x : ℤ) :
    IsWrapped w signed (x * 2 ^ s) (shl mp ⟨x, w, signed⟩ s) := by
  have hw : 1 ≤ w := by omega
  have hnonneg := normalizedUnsigned_nonneg mp (n := ⟨x, w, signed⟩) hw
  have hcong : normalizedUnsigned mp ⟨x, w, signed⟩ * 2 ^ s ≡ x * 2 ^ s [ZMOD 2 ^ w] := by
    rw [normalizedUnsigned_eq mp (n := ⟨x, w, signed⟩) hw]
    exact (mod_modEq x _).mul_right _
  rw [shl, if_neg (by simp; omega)]
  exact isWrapped_of_nonneg mp hw signed (mul_nonneg hnonneg (two_pow_pos s).le) hcong

theorem lshr_of_lt (hs : s < w) (signed : Bool) (x : ℤ) :
    IsWrapped w signed (x % 2 ^ w / 2 ^ s) (lshr mp ⟨x, w, signed⟩ s) := by
  have hw : 1 ≤ w := by omega
  have hnonneg := normalizedUnsigned_nonneg mp (n := ⟨x, w, signed⟩) hw
  have hdiv : mp.mpDiv2d (normalizedUnsigned mp ⟨x, w, signed⟩) s = x % 2 ^ w / 2 ^ s := by
    rw [mp.div2d_eq, tdiv_eq_ediv_of_nonneg hnonneg,
      normalizedUnsigned_eq mp (n := ⟨x, w, signed⟩) hw]
  rw [lshr, if_neg (by simp; omega)]
  simp only [ofU64_zero, assign, hdiv]
  refine isWrapped_of_nonneg mp hw signed ?_ (ModEq.refl _)
  exact ediv_nonneg (emod_nonneg _ (two_pow_pos w).ne') (two_pow_pos s).le

theorem shl_of_le (hs : w ≤ s) (signed : Bool) (x : ℤ) :
    shl mp ⟨x, w, signed⟩ s = ⟨0, w, false⟩ := by
  rw [shl, if_pos (Or.inl hs), ofU64_zero]

theorem lshr_of_le (hs : w ≤ s) (signed : Bool) (x : ℤ) :
    lshr mp ⟨x, w, signed⟩ s = ⟨0, w, false⟩ := by
  rw [lshr, if_pos (Or.inl hs), ofU64_zero]

theorem emod_of_neg (hw : 1 ≤ w) (hx : InRange w true x) (hneg : x < 0) :
    x % 2 ^ w = x + 2 ^ w := by
  have hpow := two_pow_pred hw
  rw [inRange_signed hw] at hx
  exact (add_emod_right x (2 ^ w)).symm.trans (emod_eq_of_lt (by omega) (by omega))

/-- The shifted residue of a negative number, and the bits that it has. -/
theorem shifted_of_neg (hs : s < w) (hx : InRange w true x) (hneg : x < 0) :
    (x + 2 ^ w) / 2 ^ s = x / 2 ^ s + 2 ^ (w - s) ∧ 0 ≤ x / 2 ^ s + 2 ^ (w - s) ∧
      x / 2 ^ s < 0 := by
  have hsplit : (2 : ℤ) ^ w = 2 ^ (w - s) * 2 ^ s := by
    rw [← pow_add]
    congr 1
    omega
  have hge : -2 ^ (w - s) ≤ x / 2 ^ s := by
    have hpow := two_pow_pred (show 1 ≤ w by omega)
    have hpos := two_pow_pos (w - 1)
    rw [inRange_signed (by omega)] at hx
    rw [Int.le_ediv_iff_mul_le (two_pow_pos s), neg_mul, ← hsplit]
    omega
  have hlt := ediv_neg_of_neg_of_pos hneg (two_pow_pos s)
  refine ⟨?_, by omega, hlt⟩
  rw [hsplit, add_mul_ediv_right _ _ (two_pow_pos s).ne']

/-- The bits from the `k`-th on are put on a number below them. -/
theorem mpOr_high {k n : ℕ} (hk : k ≤ n) {r : ℤ} (h0 : 0 ≤ r) (hlt : r < 2 ^ k) :
    mp.mpOr r (2 ^ n - 2 ^ k) = r + (2 ^ n - 2 ^ k) := by
  obtain ⟨v, rfl⟩ := eq_ofNat_of_zero_le h0
  have hhigh : (2 : ℤ) ^ n - 2 ^ k = ((2 ^ n - 2 ^ k : ℕ) : ℤ) := by
    rw [Nat.cast_sub (Nat.pow_le_pow_right (by decide) hk)]
    push_cast
    rfl
  rw [hhigh, mp.or_eq, or_high (by exact_mod_cast hlt) hk]
  push_cast
  rfl

/-- The bits above the shifted ones repeat the sign of a negative number. -/
theorem ashr_neg_of_lt (hs : s < w) (hx : InRange w true x) (hneg : x < 0) :
    ashr mp ⟨x, w, true⟩ s = ⟨x / 2 ^ s, w, true⟩ := by
  have hw : 1 ≤ w := by omega
  have hisNeg : (⟨x, w, true⟩ : FlexInt).isNeg = true := by simp [FlexInt.isNeg, hneg]
  have hnorm : normalizedUnsigned mp ⟨x, w, true⟩ = x + 2 ^ w :=
    (normalizedUnsigned_eq mp (n := ⟨x, w, true⟩) hw).trans (emod_of_neg hw hx hneg)
  have hnonneg : 0 ≤ x + 2 ^ w := hnorm ▸ normalizedUnsigned_nonneg mp hw
  obtain ⟨hdiv, hge, hlt⟩ := shifted_of_neg hs hx hneg
  rw [ashr, hisNeg]
  simp only [Bool.not_true, Bool.or_self, Bool.false_eq_true, if_false, ofU64_zero]
  rw [if_neg (by omega), if_neg (by omega), hnorm, mp.div2d_eq,
    tdiv_eq_ediv_of_nonneg hnonneg, hdiv, mpOr_high mp (Nat.sub_le w s) hge (by omega)]
  congr 1
  ring

theorem ashr_of_nonneg (h : signed = false ∨ 0 ≤ x) :
    ashr mp ⟨x, w, signed⟩ s = lshr mp ⟨x, w, signed⟩ s := by
  rw [ashr, if_pos]
  rcases h with rfl | h
  · rfl
  · simp [FlexInt.isNeg, h]

theorem emod_of_nonneg (hw : 1 ≤ w) (hx : InRange w signed x) (h : signed = false ∨ 0 ≤ x) :
    x % 2 ^ w = x := by
  have hpow := two_pow_pred hw
  cases signed with
  | false =>
    rw [inRange_unsigned] at hx
    exact emod_eq_of_lt hx.1 hx.2
  | true =>
    rw [inRange_signed hw] at hx
    have hnonneg : 0 ≤ x := by simpa using h
    exact emod_eq_of_lt hnonneg (by omega)

theorem ashr_of_lt (hs : s < w) (hx : InRange w signed x) :
    IsWrapped w signed (x / 2 ^ s) (ashr mp ⟨x, w, signed⟩ s) := by
  have hw : 1 ≤ w := by omega
  by_cases h : signed = false ∨ 0 ≤ x
  · have hlshr := lshr_of_lt mp hs signed x
    rw [emod_of_nonneg hw hx h] at hlshr
    rwa [ashr_of_nonneg mp h]
  · obtain ⟨hsigned, hneg⟩ := not_or.mp h
    rw [Bool.not_eq_false] at hsigned
    subst hsigned
    rw [ashr_neg_of_lt mp hs hx (by omega)]
    exact ⟨rfl, rfl, hx.ediv s, ModEq.refl _⟩

/-! ## Shifted numbers among the others -/

/-- The operations that ask for operands of one type accept the two. -/
def Combines (a b : FlexInt) : Prop :=
  (∀ op ∈ [bitAnd mp, bitOr mp, bitXor mp], ∃ r, op a b = .ok r) ∧
    ∀ op ∈ [lt, le, gt, ge], ∃ r, op a b = .ok r

theorem checkCompatible_ok_iff (a b : FlexInt) :
    checkCompatible a b = .ok () ↔ a.bitWidth = b.bitWidth ∧ a.isSigned = b.isSigned := by
  unfold checkCompatible
  split_ifs with h
  · exact iff_of_false (fun hok => by cases hok) (by tauto)
  · exact iff_of_true rfl (by tauto)

theorem bitwise_ok_iff (op : ℤ → ℤ → ℤ) (a b : FlexInt) :
    (∃ r, bitwise mp op a b = .ok r) ↔ checkCompatible a b = .ok () := by
  unfold bitwise
  cases checkCompatible a b with
  | error _ => exact iff_of_false (fun ⟨_, hr⟩ => by cases hr) (fun hok => by cases hok)
  | ok _ =>
    refine iff_of_true ?_ rfl
    by_cases hzero : a.bitWidth = 0
    · exact ⟨_, if_pos hzero⟩
    · exact ⟨_, if_neg hzero⟩

theorem compareWith_ok_iff (holds : Ordering → Bool) (a b : FlexInt) :
    (∃ r, compareWith holds a b = .ok r) ↔ checkCompatible a b = .ok () := by
  unfold compareWith
  cases checkCompatible a b with
  | error _ => exact iff_of_false (fun ⟨_, hr⟩ => by cases hr) (fun hok => by cases hok)
  | ok _ => exact iff_of_true ⟨_, rfl⟩ rfl

theorem combines_iff (a b : FlexInt) :
    Combines mp a b ↔ a.bitWidth = b.bitWidth ∧ a.isSigned = b.isSigned := by
  rw [← checkCompatible_ok_iff]
  simp only [Combines, bitAnd, bitOr, bitXor, lt, le, gt, ge, List.forall_mem_cons,
    bitwise_ok_iff, compareWith_ok_iff, List.not_mem_nil, false_implies, implies_true, and_true,
      and_self]

/-- The shifts of a number are numbers of its type with the shifted values, and combine
with it. -/
structure IsShift (n : FlexInt) (s : ℕ) : Prop where
  shl : IsWrapped n.bitWidth n.isSigned (n.value * 2 ^ s) (shl mp n s)
  lshr : IsWrapped n.bitWidth n.isSigned (n.value % 2 ^ n.bitWidth / 2 ^ s) (lshr mp n s)
  ashr : IsWrapped n.bitWidth n.isSigned (n.value / 2 ^ s) (ashr mp n s)
  shiftRight : IsWrapped n.bitWidth n.isSigned (n.value / 2 ^ s) (shiftRight mp n s)
  combines : ∀ r ∈ [FlexNumber.shl mp n s, FlexNumber.lshr mp n s, FlexNumber.ashr mp n s,
    FlexNumber.shiftRight mp n s], Combines mp n r ∧ Combines mp r n

theorem isShift_of_results {n : FlexInt}
    (hshl : IsWrapped n.bitWidth n.isSigned (n.value * 2 ^ s) (shl mp n s))
    (hlshr : IsWrapped n.bitWidth n.isSigned (n.value % 2 ^ n.bitWidth / 2 ^ s) (lshr mp n s))
    (hashr : IsWrapped n.bitWidth n.isSigned (n.value / 2 ^ s) (ashr mp n s))
    (hright : IsWrapped n.bitWidth n.isSigned (n.value / 2 ^ s) (shiftRight mp n s)) :
    IsShift mp n s := by
  refine ⟨hshl, hlshr, hashr, hright, ?_⟩
  have hcombines : ∀ {exact : ℤ} {r : FlexInt}, IsWrapped n.bitWidth n.isSigned exact r →
      Combines mp n r ∧ Combines mp r n := fun hr =>
    ⟨(combines_iff mp _ _).mpr ⟨hr.1.symm, hr.2.1.symm⟩, (combines_iff mp _ _).mpr ⟨hr.1, hr.2.1⟩⟩
  simp only [List.forall_mem_cons, List.not_mem_nil, false_implies, implies_true, and_true]
  exact ⟨hcombines hshl, hcombines hlshr, hcombines hashr, hcombines hright⟩

/-- An unsigned number is zero once every bit is shifted out. -/
theorem ediv_eq_zero_of_le (hs : w ≤ s) (hx : InRange w false x) : x / 2 ^ s = 0 := by
  rw [inRange_unsigned] at hx
  have hle : (2 : ℤ) ^ w ≤ 2 ^ s := pow_le_pow_right₀ (by decide) hs
  exact ediv_eq_zero_of_lt hx.1 (by omega)

theorem isShift_of_lt (hs : s < w) (hx : InRange w signed x) : IsShift mp ⟨x, w, signed⟩ s := by
  have hashr := ashr_of_lt mp hs hx
  refine isShift_of_results mp (shl_of_lt mp hs signed x) (lshr_of_lt mp hs signed x) hashr ?_
  cases signed with
  | true => exact hashr
  | false =>
    rw [ashr_of_nonneg mp (Or.inl rfl)] at hashr
    exact hashr

theorem isShift_of_le (hw : 1 ≤ w) (hs : w ≤ s) (hx : InRange w false x) :
    IsShift mp ⟨x, w, false⟩ s := by
  have hzero : IsWrapped w false (x / 2 ^ s) ⟨0, w, false⟩ :=
    isWrapped_zero (by rw [ediv_eq_zero_of_le hs hx])
  have hlshr := lshr_of_le mp hs false x
  have hashr : ashr mp ⟨x, w, false⟩ s = ⟨0, w, false⟩ :=
    (ashr_of_nonneg mp (Or.inl rfl)).trans hlshr
  refine isShift_of_results mp ?_ ?_ ?_ ?_
  · rw [shl_of_le mp hs]
    refine isWrapped_zero (modEq_zero_iff_dvd.mpr ?_).symm
    exact Dvd.dvd.mul_left (pow_dvd_pow 2 hs) x
  · rw [hlshr]
    simp only [emod_of_nonneg hw hx (Or.inl rfl)]
    exact hzero
  · rw [hashr]
    exact hzero
  · rw [shiftRight, if_neg Bool.false_ne_true, hlshr]
    exact hzero

/-- Shifts are total and keep the type of an unsigned number, and of a signed one that is
shifted by less than its width. -/
theorem isShift_iff {w : ℕ} (hw : 1 ≤ w) {signed : Bool} {x : ℤ} (hx : InRange w signed x)
    (s : ℕ) : IsShift mp ⟨x, w, signed⟩ s ↔ s < w ∨ signed = false := by
  constructor
  · intro h
    by_contra hcontra
    obtain ⟨hs, hsigned⟩ := not_or.mp hcontra
    have htype := h.shl.2.1
    rw [shl_of_le mp (by omega)] at htype
    exact hsigned htype.symm
  · rintro (hs | rfl)
    · exact isShift_of_lt mp hs hx
    · by_cases hs : s < w
      · exact isShift_of_lt mp hs hx
      · exact isShift_of_le mp hw (by omega) hx

theorem isShift_int64 : 1 ≤ 64 ∧ InRange 64 true (-4) ∧
      (IsShift LibTomMath.exact ⟨-4, 64, true⟩ 3 ↔ 3 < 64 ∨ true = false) :=
  ⟨by decide, by decide, isShift_iff LibTomMath.exact (by decide) (by decide) 3⟩

/-- A signed number shifted by its width becomes an unsigned zero and does not combine
with the number any more. -/
theorem shl_int32_unsigned :
    InRange 32 true 5 ∧ shl LibTomMath.exact ⟨5, 32, true⟩ 32 = ⟨0, 32, false⟩ ∧
      bitAnd LibTomMath.exact ⟨5, 32, true⟩ (shl LibTomMath.exact ⟨5, 32, true⟩ 32) =
        .error "Mismatched target types in FlexInt comparison" ∧
      ¬ IsShift LibTomMath.exact ⟨5, 32, true⟩ 32 := by
  have hshl := shl_of_le LibTomMath.exact (w := 32) (s := 32) le_rfl true 5
  refine ⟨by decide, hshl, by rw [hshl]; rfl, fun h => ?_⟩
  have htype := h.shl.2.1
  rw [hshl] at htype
  cases htype

end EzPacker.FlexNumber
