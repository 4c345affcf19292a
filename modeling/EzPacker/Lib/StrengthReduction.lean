import Mathlib.Algebra.Order.Ring.Int

/-!
# Shifts and masks in the place of divisions

An arithmetic shift rounds down and a mask yields the unsigned remainder; the signed
quotient by a power of two is truncated toward zero, and the signed remainder has the sign
of the dividend. They agree on a dividend that is not negative, and on multiples of the
divisor. The largest power of two is a negative divisor.
-/

namespace EzPacker.StrengthReduction

open Int Nat BitVec

/-- Rounding down is truncation for these dividends only. -/
theorem tdiv_eq_ediv_iff {x c : ℤ} (hc : 0 < c) : x.tdiv c = x / c ↔ 0 ≤ x ∨ c ∣ x := by
  rw [tdiv_eq_ediv, sign_eq_one_of_pos hc]
  split
  · next h => exact iff_of_true (add_zero _) h
  · next h =>
      refine iff_of_false (fun heq => ?_) h
      omega

theorem tmod_eq_emod_iff {x c : ℤ} (hc : 0 < c) : x.tmod c = x % c ↔ 0 ≤ x ∨ c ∣ x := by
  have hx := mul_tdiv_add_tmod x c
  have hx' := mul_ediv_add_emod x c
  rw [← tdiv_eq_ediv_iff hc]
  constructor
  · intro h
    have hmul : c * x.tdiv c = c * (x / c) := by omega
    exact Int.eq_of_mul_eq_mul_left (Int.ne_of_gt hc) hmul
  · intro h
    rw [h] at hx
    omega

section

variable {w k : ℕ} (x : BitVec w)

theorem ofInt_two_pow (w k : ℕ) : BitVec.ofInt w (2 ^ k) = BitVec.twoPow w k := by
  rw [← toNat_inj, toNat_twoPow]
  norm_cast

theorem toInt_twoPow_of_lt (hk : k + 1 < w) : (twoPow w k).toInt = 2 ^ k := by
  rw [toInt_twoPow, if_neg (by omega), if_neg (by omega)]

theorem toInt_twoPow_of_eq (hk : k + 1 = w) : (twoPow w k).toInt = -2 ^ k := by
  rw [toInt_twoPow, if_neg (by omega), if_pos hk]
  norm_cast

theorem two_pow_pos (k : ℕ) : (0 : ℤ) < 2 ^ k := Int.pow_pos (by decide)

/-- The smallest value is the negated largest power of two. -/
theorem neg_two_pow_le (hk : k + 1 = w) : -2 ^ k ≤ x.toInt ∧ x.toInt < 2 ^ k := by
  subst hk
  exact ⟨le_toInt x, toInt_lt⟩

theorem toNat_twoPow_of_lt (hk : k < w) : (twoPow w k).toNat = 2 ^ k := by
  rw [toNat_twoPow, Nat.mod_eq_of_lt (Nat.pow_lt_pow_right (by decide) hk)]

theorem twoPow_ne_neg_one (hw : 1 < w) (hk : k < w) : twoPow w k ≠ -1#w := by
  intro heq
  have hnat := congrArg BitVec.toNat heq
  rw [toNat_twoPow_of_lt hk, BitVec.toNat_neg, BitVec.toNat_ofNat,
    Nat.mod_eq_of_lt (Nat.one_lt_two_pow (by omega)), Nat.mod_eq_of_lt (by
      have := Nat.two_pow_pos w
      omega)] at hnat
  have hle : 2 ^ k ≤ 2 ^ (w - 1) := Nat.pow_le_pow_right (by decide) (by omega)
  have hhalf : 2 ^ (w - 1) * 2 = 2 ^ w := by
    rw [← Nat.pow_succ]
    congr 1
    omega
  have htwo : 2 ^ 1 ≤ 2 ^ (w - 1) := Nat.pow_le_pow_right (by decide) (by omega)
  omega

theorem toInt_sshiftRight_eq (x : BitVec w) : (x.sshiftRight k).toInt = x.toInt / 2 ^ k := by
  rw [toInt_sshiftRight, Int.shiftRight_eq_div_pow]
  norm_cast

/-- The quotient by the negated largest power is 0 or 1, the shift gives 0 or -1. -/
theorem tdiv_neg_eq_ediv_iff {x c : ℤ} (hlow : -c ≤ x) (hhigh : x < c) :
    x.tdiv (-c) = x / c ↔ 0 ≤ x := by
  rw [Int.tdiv_neg]
  constructor
  · intro heq
    by_contra hneg
    have hquot : x / c = -1 := by
      rw [Int.ediv_eq_iff_of_pos (by omega)]
      omega
    have hle : x.tdiv c ≤ 0 := by
      rw [Int.tdiv_eq_ediv, hquot]
      split
      · decide
      · rw [Int.sign_eq_one_of_pos (by omega)]
        decide
    omega
  · intro hx
    rw [Int.tdiv_eq_zero_of_lt hx hhigh, Int.ediv_eq_zero_of_lt hx hhigh]
    rfl

/-- The trailing zeros of a power of two are its exponent. -/
theorem ctz_twoPow (hk : k < w) : (twoPow w k).ctz.toNat = k := by
  have hne : twoPow w k ≠ 0#w := by
    intro heq
    have hnat := congrArg BitVec.toNat heq
    rw [toNat_twoPow_of_lt hk, toNat_ofNat, zero_mod] at hnat
    exact Nat.ne_of_gt (Nat.two_pow_pos k) hnat
  have hbit := getLsbD_true_ctz_of_ne_zero hne
  rw [getLsbD_twoPow, Bool.and_eq_true, decide_eq_true_eq, decide_eq_true_eq] at hbit
  exact hbit.2.symm

/-- An arithmetic shift is the signed quotient. -/
theorem sdiv_twoPow_eq_iff (hw : 1 < w) (hk : k < w) : x.sdiv (twoPow w k) = x.sshiftRight k ↔
      0 ≤ x.toInt ∨ ((2 : ℤ) ^ k ∣ x.toInt ∧ k + 1 < w) := by
  have hpos := two_pow_pos k
  rw [← toInt_inj, toInt_sshiftRight_eq,
    toInt_sdiv_of_ne_or_ne _ _ (.inr (twoPow_ne_neg_one hw hk))]
  rcases lt_or_ge (k + 1) w with hlt | hge
  · rw [toInt_twoPow_of_lt hlt, tdiv_eq_ediv_iff hpos]
    simp [hlt]
  · have heq : k + 1 = w := by omega
    have hrange := neg_two_pow_le x heq
    rw [toInt_twoPow_of_eq heq, tdiv_neg_eq_ediv_iff hrange.1 hrange.2]
    simp [heq]

theorem ofInt_two_pow_sub_one (w k : ℕ) :
    BitVec.ofInt w (2 ^ k - 1) = BitVec.ofNat w (2 ^ k - 1) := by
  have hcast : ((2 : ℤ) ^ k - 1) = ((2 ^ k - 1 : ℕ) : ℤ) := by
    have hpos := Nat.two_pow_pos k
    push_cast [Nat.cast_sub hpos]
    rfl
  rw [hcast, ofInt_natCast]

/-- A mask of low bits is the remainder of the unsigned value. -/
theorem toNat_and_mask (hk : k < w) :
    (x &&& BitVec.ofInt w (2 ^ k - 1)).toNat = x.toNat % 2 ^ k := by
  have hlt : 2 ^ k - 1 < 2 ^ w := by
    have hpow := Nat.pow_lt_pow_right (by decide : 1 < 2) hk
    exact lt_of_le_of_lt (sub_le _ _) hpow
  rw [ofInt_two_pow_sub_one, toNat_and, toNat_ofNat, mod_eq_of_lt hlt, and_two_pow_sub_one_eq_mod]

theorem toInt_and_mask (hk : k < w) :
    (x &&& BitVec.ofInt w (2 ^ k - 1)).toInt = x.toInt % 2 ^ k := by
  have hnat := toNat_and_mask x hk
  have hsmall : 2 * (x.toNat % 2 ^ k) < 2 ^ w := by
    have hle : 2 ^ (k + 1) ≤ 2 ^ w := Nat.pow_le_pow_right (by decide) hk
    rw [pow_succ] at hle
    omega
  have hdvd : (2 : ℤ) ^ k ∣ 2 ^ w := pow_dvd_pow 2 (le_of_lt hk)
  rw [toInt_eq_toNat_of_lt (by rw [hnat]; exact hsmall), hnat, toInt_eq_toNat_cond]
  push_cast
  split
  · rfl
  · rw [sub_emod, emod_eq_zero_of_dvd hdvd, sub_zero, emod_emod]

/-- A mask is the signed remainder. -/
theorem srem_twoPow_eq_and_iff (hk : k < w) :
    x.srem (BitVec.twoPow w k) = x &&& BitVec.ofInt w (2 ^ k - 1) ↔
      0 ≤ x.toInt ∨ (2 : ℤ) ^ k ∣ x.toInt := by
  rw [← toInt_inj, toInt_srem, toInt_and_mask x hk, ← tmod_eq_emod_iff (two_pow_pos k)]
  rcases lt_or_ge (k + 1) w with hlt | hge
  · rw [toInt_twoPow_of_lt hlt]
  · rw [toInt_twoPow_of_eq (by omega), tmod_neg]

end

end EzPacker.StrengthReduction
