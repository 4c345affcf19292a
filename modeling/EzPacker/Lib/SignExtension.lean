import Mathlib.Tactic.Ring
import Mathlib.Algebra.Order.Ring.Int

/-!
# Truncation and sign extension

A signed number cut to fewer bits and extended again is the number it was when it lies in
the range of the fewer bits, and another number otherwise.
-/

namespace EzPacker

open Nat BitVec

variable {n w : ℕ}

/-- The number is in the range of `n` bits. -/
def FitsSigned (n : ℕ) (x : BitVec w) : Prop := -2 ^ (n - 1) ≤ x.toInt ∧ x.toInt < 2 ^ (n - 1)

instance (n : ℕ) (x : BitVec w) : Decidable (FitsSigned n x) :=
  inferInstanceAs (Decidable (_ ∧ _))

/-- The number is below `2 ^ n`. -/
def FitsUnsigned (n : ℕ) (x : BitVec w) : Prop := x.toNat < 2 ^ n

instance (n : ℕ) (x : BitVec w) : Decidable (FitsUnsigned n x) :=
  inferInstanceAs (Decidable (_ < _))

theorem setWidth_setWidth_iff (hw : n ≤ w) (x : BitVec w) :
    (x.setWidth n).setWidth w = x ↔ FitsUnsigned n x := by
  have hpos := Nat.two_pow_pos n
  have hpow : 2 ^ n ≤ 2 ^ w := Nat.pow_le_pow_right (by decide) hw
  have hlt : x.toNat % 2 ^ n < 2 ^ w := Nat.lt_of_lt_of_le (Nat.mod_lt _ hpos) hpow
  unfold FitsUnsigned
  rw [← toNat_inj, toNat_setWidth, toNat_setWidth, Nat.mod_eq_of_lt hlt]
  constructor
  · intro h
    rw [← h]
    exact Nat.mod_lt _ hpos
  · exact Nat.mod_eq_of_lt

variable {x : BitVec w}

theorem FitsUnsigned.getLsbD (h : FitsUnsigned n x) {i : ℕ} (hi : n ≤ i) : x.getLsbD i = false :=
  Nat.testBit_lt_two_pow (Nat.lt_of_lt_of_le h (Nat.pow_le_pow_right (by decide) hi))

theorem FitsUnsigned.setWidth (h : FitsUnsigned n x) (v : ℕ) : FitsUnsigned n (x.setWidth v) := by
  unfold FitsUnsigned at *
  rw [toNat_setWidth]
  exact lt_of_le_of_lt (mod_le _ _) h

theorem fitsUnsigned_of_setWidth (hw : n ≤ w) (x : BitVec n) : FitsUnsigned n (x.setWidth w) := by
  unfold FitsUnsigned
  rw [toNat_setWidth_of_le hw]
  exact x.isLt

theorem setWidth_signExtend_of_le (hw : n ≤ w) (x : BitVec n) :
    (x.signExtend w).setWidth n = x := by
  apply eq_of_getLsbD_eq
  intro i hi
  have hlt := lt_of_lt_of_le hi hw
  rw [getLsbD_setWidth, getLsbD_signExtend, if_pos hi]
  simp [hi, hlt]

theorem fitsSigned_of_signExtend (hw : n ≤ w) (x : BitVec n) : FitsSigned n (x.signExtend w) := by
  unfold FitsSigned
  rw [toInt_signExtend_of_le hw]
  exact ⟨le_toInt x, toInt_lt⟩

theorem signExtend_setWidth_of_fits (hn : 0 < n) (hw : n ≤ w)
    (h : FitsSigned n x) : (x.setWidth n).signExtend w = x := by
  obtain ⟨m, rfl⟩ := Nat.exists_eq_add_of_lt hn
  obtain ⟨hle, hlt⟩ := h
  rw [Nat.zero_add, Nat.add_sub_cancel] at hle hlt
  have hdvd : (2 : ℕ) ^ (0 + m + 1) ∣ 2 ^ w := pow_dvd_pow 2 hw
  rw [← toInt_inj, toInt_signExtend_of_le hw, toInt_setWidth,
    ← Int.bmod_bmod_of_dvd hdvd, ← toInt_eq_toNat_bmod, zero_add]
  apply Int.bmod_eq_of_le
  · push_cast
    omega
  · push_cast
    omega

/-- A number is got back from its low bits when it fits in them. -/
theorem signExtend_setWidth_iff (hn : 0 < n) (hw : n ≤ w) (x : BitVec w) :
    (x.setWidth n).signExtend w = x ↔ FitsSigned n x := by
  constructor
  · intro h
    rw [← h]
    exact fitsSigned_of_signExtend hw _
  · exact signExtend_setWidth_of_fits hn hw

theorem FitsSigned.mono {m : ℕ} (h : FitsSigned n x) (hle : n ≤ m) : FitsSigned m x := by
  have hpow : (2 : ℤ) ^ (n - 1) ≤ 2 ^ (m - 1) :=
    pow_le_pow_right₀ (by decide) (Nat.sub_le_sub_right hle 1)
  obtain ⟨hlow, hhigh⟩ := h
  constructor
  · omega
  · omega

/-- A number is the extension of another one when it fits and its low bits are that one. -/
theorem signExtend_eq_iff (hn : 0 < n) (hw : n ≤ w) (x : BitVec w) (y : BitVec n) :
    y.signExtend w = x ↔ FitsSigned n x ∧ x.setWidth n = y := by
  constructor
  · intro h
    rw [← h]
    exact ⟨fitsSigned_of_signExtend hw y, setWidth_signExtend_of_le hw y⟩
  · intro ⟨hfits, hlow⟩
    rw [← hlow]
    exact signExtend_setWidth_of_fits hn hw hfits

/-- A signed number of `n` bits whose low bits are a small unsigned one is that one. -/
theorem FitsSigned.unsigned {m : ℕ} (h : FitsSigned n x) (hn : 0 < n) (hw : n ≤ w)
    (hm : m < n) (hlow : FitsUnsigned m (x.setWidth n)) : FitsUnsigned m x := by
  have hmsb : (x.setWidth n).msb = false := by
    rw [msb_eq_getLsbD_last]
    exact hlow.getLsbD (le_sub_one_of_lt hm)
  rw [← signExtend_setWidth_of_fits hn hw h, signExtend_eq_setWidth_of_msb_false hmsb]
  exact hlow.setWidth w

theorem setWidth_and_not_one (h : x.getLsbD 0 = false) : x.setWidth n &&& ~~~1 = x.setWidth n := by
  apply eq_of_getLsbD_eq
  intro i hi
  cases i with
  | zero => simp [h]
  | succ i => simp [hi]

/-- The same without the lowest bit: the number has to be even too. -/
theorem signExtend_setWidth_even_iff (hn : 0 < n) (hw : n ≤ w) (x : BitVec w) :
    (x.setWidth n &&& ~~~1).signExtend w = x ↔ x.getLsbD 0 = false ∧ FitsSigned n x := by
  constructor
  · intro h
    have hfits : FitsSigned n x := by
      rw [← h]
      exact fitsSigned_of_signExtend hw _
    refine ⟨?_, hfits⟩
    rw [← h, getLsbD_signExtend]
    simp [hn]
  · intro ⟨heven, hfits⟩
    rw [setWidth_and_not_one heven]
    exact signExtend_setWidth_of_fits hn hw hfits

/-! ### Even numbers -/

theorem getLsbD_zero_iff_even (hn : 0 < n) (x : BitVec n) :
    x.getLsbD 0 = false ↔ x.toInt % 2 = 0 := by
  obtain ⟨m, rfl⟩ := Nat.exists_eq_add_of_lt hn
  have hbit : x.getLsbD 0 = decide (x.toNat % 2 = 1) := testBit_zero _
  have hpow : (2 : ℕ) ^ (0 + m + 1) = 2 * 2 ^ m := by rw [zero_add, pow_succ']
  rw [hbit, decide_eq_false_iff_not, toInt_eq_toNat_cond, hpow]
  split
  · omega
  · push_cast
    omega

theorem setWidth_ofInt_of_le (hw : n ≤ w) (d : ℤ) :
    (BitVec.ofInt w d).setWidth n = BitVec.ofInt n d := by
  have hdvd : (2 : ℤ) ^ n ∣ 2 ^ w := pow_dvd_pow 2 hw
  apply eq_of_toInt_eq
  rw [toInt_setWidth, toInt_ofInt, ← Int.emod_bmod, toNat_ofInt]
  push_cast
  rw [Int.toNat_of_nonneg (Int.emod_nonneg _ (pow_ne_zero w (by decide))),
    Int.emod_emod_of_dvd _ hdvd]
  exact_mod_cast Int.emod_bmod d (2 ^ n)

/-- The low bits agree when the difference is a multiple of the power. -/
theorem setWidth_eq_setWidth_iff (hw : n ≤ w) (x y : BitVec w) :
    x.setWidth n = y.setWidth n ↔ (2 : ℤ) ^ n ∣ x.toInt - y.toInt := by
  have hlow : ∀ z : BitVec w, z.setWidth n = BitVec.ofInt n z.toInt := fun z => by
    rw [← setWidth_ofInt_of_le hw, ofInt_toInt]
  have hpow : (2 : ℤ) ^ n = ((2 ^ n : ℕ) : ℤ) := by
    push_cast
    rfl
  rw [hlow, hlow, ← toInt_inj, toInt_ofInt, toInt_ofInt,
    Int.bmod_eq_bmod_iff_bmod_sub_eq_zero, ← Int.dvd_iff_bmod_eq_zero, hpow]

/-- The distance that is decoded from the low bits but the lowest. -/
theorem toInt_even_iff (hn : 0 < n) (hw : n ≤ w) (d : ℤ) :
    ((BitVec.ofInt w d).setWidth n &&& ~~~1).toInt = d ↔
      d % 2 = 0 ∧ -2 ^ (n - 1) ≤ d ∧ d < 2 ^ (n - 1) := by
  rw [setWidth_ofInt_of_le hw]
  constructor
  · intro h
    have hlow : (BitVec.ofInt n d &&& ~~~1).getLsbD 0 = false := by simp [hn]
    rw [getLsbD_zero_iff_even hn, h] at hlow
    refine ⟨hlow, ?_⟩
    rw [← h]
    exact ⟨le_toInt _, toInt_lt⟩
  · intro ⟨heven, hle, hlt⟩
    have hself := toInt_ofInt_eq_self hn hle hlt
    have hlow : (BitVec.ofInt n d).getLsbD 0 = false := by
      rw [getLsbD_zero_iff_even hn, hself]
      exact heven
    have hsame := setWidth_and_not_one (n := n) hlow
    rw [setWidth_eq] at hsame
    rw [hsame, hself]

variable {s : ℕ}

theorem fitsSigned_of_le (hs : s ≤ n) (y : BitVec s) : FitsSigned n y := by
  have hpow : (2 : ℤ) ^ (s - 1) ≤ 2 ^ (n - 1) :=
    pow_le_pow_right₀ (by decide) (Nat.sub_le_sub_right hs 1)
  exact ⟨le_trans (neg_le_neg hpow) (le_toInt y), lt_of_lt_of_le toInt_lt hpow⟩

theorem fitsUnsigned_of_le (hs : s ≤ n) (y : BitVec s) : FitsUnsigned n y :=
  Nat.lt_of_lt_of_le y.isLt (Nat.pow_le_pow_right (by decide) hs)

theorem getLsbD_signExtend_of_lt {i : ℕ} (hs : i < s) (hw : i < w) (x : BitVec w) :
    (x.signExtend s).getLsbD i = x.getLsbD i := by
  rw [getLsbD_signExtend, decide_eq_true hs, Bool.true_and, if_pos hw]

theorem setWidth_signExtend_eq (hs : n ≤ s) (hw : n ≤ w) (x : BitVec w) :
    (x.signExtend s).setWidth n = x.setWidth n := by
  apply eq_of_getLsbD_eq
  intro i hi
  rw [getLsbD_setWidth, getLsbD_setWidth,
    getLsbD_signExtend_of_lt (lt_of_lt_of_le hi hs) (lt_of_lt_of_le hi hw)]

theorem signExtend_signExtend (hs : n ≤ s) (hw : n ≤ w) (x : BitVec n) :
    (x.signExtend w).signExtend s = x.signExtend s := by
  have hpow : (2 : ℤ) ^ n ≤ ((2 ^ min s w : ℕ) : ℤ) := by
    push_cast
    exact pow_le_pow_right₀ (by decide) (Nat.le_min.mpr ⟨hs, hw⟩)
  have hlow := le_two_mul_toInt (x := x)
  have hhigh := two_mul_toInt_lt (x := x)
  apply eq_of_toInt_eq
  rw [toInt_signExtend, toInt_signExtend_of_le hw, toInt_signExtend_of_le hs]
  apply Int.bmod_eq_of_le_mul_two <;> omega

theorem signExtend_low_eq_iff (hn : 0 < n) (hw : n ≤ w) (x : BitVec w) :
    ((x.setWidth n).signExtend w).signExtend s = x.signExtend s ↔
      FitsSigned n (x.signExtend s) := by
  rcases le_total n s with hs | hs
  · rw [signExtend_signExtend hs hw, ← signExtend_setWidth_iff hn hs, setWidth_signExtend_eq hs hw]
  · refine iff_of_true ?_ (fitsSigned_of_le hs _)
    apply eq_of_getLsbD_eq
    intro i hi
    have hin : i < n := lt_of_lt_of_le hi hs
    have hiw : i < w := lt_of_lt_of_le hin hw
    rw [getLsbD_signExtend_of_lt hi hiw, getLsbD_signExtend_of_lt hi hiw,
      getLsbD_signExtend_of_lt hiw hin, getLsbD_setWidth, decide_eq_true hin, Bool.true_and]

theorem setWidth_low_eq_iff (hw : n < w) (x : BitVec w) :
    ((x.setWidth n).setWidth w).signExtend s = x.signExtend s ↔
      FitsUnsigned n (x.signExtend s) := by
  rcases le_total n s with hs | hs
  · have hmsb : ((x.setWidth n).setWidth w).msb = false := by
      rw [msb_eq_getLsbD_last]
      exact (fitsUnsigned_of_setWidth (le_of_lt hw) _).getLsbD (le_sub_one_of_lt hw)
    rw [← setWidth_setWidth_iff hs, setWidth_signExtend_eq hs (le_of_lt hw),
      signExtend_eq_setWidth_of_msb_false hmsb,
      setWidth_setWidth fun h => absurd h.1 (Nat.not_lt_of_lt hw)]
  · refine iff_of_true ?_ (fitsUnsigned_of_le hs _)
    apply eq_of_getLsbD_eq
    intro i hi
    have hin : i < n := lt_of_lt_of_le hi hs
    have hiw : i < w := lt_trans hin hw
    rw [getLsbD_signExtend_of_lt hi hiw, getLsbD_signExtend_of_lt hi hiw,
      getLsbD_setWidth, getLsbD_setWidth, decide_eq_true hin, decide_eq_true hiw,
      Bool.true_and, Bool.true_and]

/-- A field is shifted to the top and down again, which fills it with zeros. -/
theorem shiftLeft_ushiftRight_eq {c o w : ℕ} (u : BitVec c) (h : o + w ≤ c) :
    (u <<< (c - w - o)) >>> (c - w) = (u.extractLsb' o w).setWidth c := by
  apply eq_of_getLsbD_eq
  intro i hi
  rw [getLsbD_ushiftRight, getLsbD_shiftLeft, getLsbD_setWidth, getLsbD_extractLsb']
  by_cases hfield : i < w
  · rw [show c - w + i - (c - w - o) = o + i by omega]
    simp [hi, hfield, show c - w + i < c by omega, show ¬ c - w + i < c - w - o by omega]
  · simp [hfield, show ¬ c - w + i < c by omega]

theorem shiftLeft_sshiftRight_eq {c o w : ℕ} (u : BitVec c) (hw : 0 < w) (h : o + w ≤ c) :
    (u <<< (c - w - o)).sshiftRight (c - w) = (u.extractLsb' o w).signExtend c := by
  have hmsb : (u <<< (c - w - o)).msb = (u.extractLsb' o w).msb := by
    rw [msb_eq_getLsbD_last, msb_eq_getLsbD_last, getLsbD_shiftLeft,
      getLsbD_extractLsb', show c - 1 - (c - w - o) = o + (w - 1) by omega]
    simp [show c - 1 < c by omega, show ¬ c - 1 < c - w - o by omega, show w - 1 < w by omega]
  apply eq_of_getLsbD_eq
  intro i hi
  rw [getLsbD_sshiftRight, getLsbD_signExtend, hmsb, getLsbD_shiftLeft, getLsbD_extractLsb']
  by_cases hfield : i < w
  · rw [show c - w + i - (c - w - o) = o + i by omega]
    simp [hi, hfield, show c - w + i < c by omega, show ¬ c - w + i < c - w - o by omega]
  · simp [hi, hfield, show ¬ c - w + i < c by omega]

end EzPacker
