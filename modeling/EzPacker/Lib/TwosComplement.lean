import Mathlib.Tactic.Positivity
import Mathlib.Data.Int.ModEq
import Mathlib.Data.Nat.Bitwise
import Mathlib.Data.Nat.Size
import Mathlib.Tactic.Ring
import Mathlib.Tactic.Linarith

/-!
# Two's complement

The numbers of a width, signed or unsigned, and the number of that range congruent to a
given integer. The bits of a number are those of its residue.
-/

namespace EzPacker.TwosComplement

/-- The least number of a width. -/
def lower (w : ℕ) (signed : Bool) : ℤ := if signed then -(2 ^ w / 2) else 0

def InRange (w : ℕ) (signed : Bool) (x : ℤ) : Prop :=
  lower w signed ≤ x ∧ x < lower w signed + 2 ^ w

instance (w : ℕ) (signed : Bool) (x : ℤ) : Decidable (InRange w signed x) :=
  inferInstanceAs (Decidable (_ ∧ _))

/-- The number of the range that is congruent to `x`. -/
def wrap (w : ℕ) (signed : Bool) (x : ℤ) : ℤ :=
  (x - lower w signed) % 2 ^ w + lower w signed

theorem two_pow_pos (w : ℕ) : (0 : ℤ) < 2 ^ w := by positivity

variable {w : ℕ}

theorem two_pow_pred (hw : 1 ≤ w) : (2 : ℤ) ^ w = 2 * 2 ^ (w - 1) := by
  obtain ⟨v, rfl⟩ := Nat.exists_eq_add_of_le' hw
  rw [Nat.add_sub_cancel, pow_succ']

theorem wrap_inRange (w : ℕ) (signed : Bool) (x : ℤ) : InRange w signed (wrap w signed x) := by
  have hnonneg := Int.emod_nonneg (x - lower w signed) (two_pow_pos w).ne'
  constructor <;> unfold wrap <;> omega

theorem wrap_modEq (w : ℕ) (signed : Bool) (x : ℤ) : wrap w signed x ≡ x [ZMOD 2 ^ w] := by
  have h := (Int.mod_modEq (x - lower w signed) (2 ^ w)).add_right (lower w signed)
  rwa [sub_add_cancel] at h

variable {x y : ℤ}

theorem wrap_congr (signed : Bool) (h : x ≡ y [ZMOD 2 ^ w]) :
    wrap w signed x = wrap w signed y := by
  unfold wrap
  rw [h.sub_right (lower w signed)]

variable {signed : Bool}

theorem wrap_of_inRange (h : InRange w signed x) : wrap w signed x = x := by
  obtain ⟨hle, hlt⟩ := h
  rw [wrap, Int.emod_eq_of_lt (by omega) (by omega), sub_add_cancel]

/-- The range holds one number of every residue. -/
theorem eq_wrap_iff : y = wrap w signed x ↔ InRange w signed y ∧ y ≡ x [ZMOD 2 ^ w] := by
  constructor
  · rintro rfl
    exact ⟨wrap_inRange w signed x, wrap_modEq w signed x⟩
  · rintro ⟨hy, hcong⟩
    rw [← wrap_congr signed hcong, wrap_of_inRange hy]

theorem wrap_eq_iff : wrap w signed x = wrap w signed y ↔ x ≡ y [ZMOD 2 ^ w] := by
  constructor
  · intro h
    exact (wrap_modEq w signed x).symm.trans (h ▸ wrap_modEq w signed y)
  · exact wrap_congr signed

/-- A number and its negative are wrapped to one number when they differ by a multiple
of the modulus. -/
theorem wrap_neg_eq_iff : wrap w signed (-x) = wrap w signed x ↔ 2 ^ w ∣ 2 * x := by
  rw [wrap_eq_iff, Int.modEq_iff_dvd]
  have hsum : x - -x = 2 * x := by ring
  rw [hsum]

theorem inRange_unsigned : InRange w false x ↔ 0 ≤ x ∧ x < 2 ^ w := by
  simp [InRange, lower]

theorem inRange_signed (hw : 1 ≤ w) : InRange w true x ↔ -2 ^ (w - 1) ≤ x ∧ x < 2 ^ (w - 1) := by
  have hpow := two_pow_pred hw
  simp only [InRange, lower, if_true]
  constructor <;> rintro ⟨hle, hlt⟩ <;> omega

theorem InRange.nonneg (h : InRange w false x) : 0 ≤ x :=
  (inRange_unsigned.mp h).1

theorem inRange_zero (w : ℕ) (signed : Bool) : InRange w signed 0 := by
  have hpos := two_pow_pos w
  unfold InRange lower
  cases signed with
  | false => simp
  | true =>
    rw [if_pos rfl]
    omega

theorem eq_zero_of_inRange_zero (h : InRange 0 signed x) : x = 0 := by
  unfold InRange lower at h
  cases signed <;> simp at h <;> omega

theorem wrap_signed_of_residue (hw : 1 ≤ w) {r : ℤ} (h0 : 0 ≤ r) (hlt : r < 2 ^ w) :
    wrap w true r = if 2 ^ (w - 1) ≤ r then r - 2 ^ w else r := by
  have hpow := two_pow_pred hw
  symm
  rw [eq_wrap_iff, inRange_signed hw]
  split_ifs with hge
  · exact ⟨⟨by omega, by omega⟩, Int.modEq_iff_dvd.mpr ⟨1, by ring⟩⟩
  · exact ⟨⟨by omega, by omega⟩, Int.ModEq.refl r⟩

theorem wrap_unsigned (w : ℕ) (x : ℤ) : wrap w false x = x % 2 ^ w := by
  simp [wrap, lower]

/-- The range of a sign and magnitude: the magnitude has a bit less than the width, or
it is the lower bound. -/
theorem inRange_iff_size (hw : 1 ≤ w) : InRange w true x ↔
      if x < 0 then x.natAbs.size < w ∨ x.natAbs = 2 ^ (w - 1) else x.natAbs.size ≤ w - 1 := by
  have hsize : x.natAbs.size < w ↔ x.natAbs < 2 ^ (w - 1) := by
    rw [← Nat.size_le]
    omega
  rw [inRange_signed hw]
  split_ifs with hneg
  · rw [hsize]
    zify
    rw [abs_of_neg hneg]
    omega
  · rw [Nat.size_le]
    zify
    rw [abs_of_nonneg (by omega)]
    have hpos := two_pow_pos (w - 1)
    omega

theorem inRange_unsigned_iff_size : InRange w false x ↔ 0 ≤ x ∧ x.natAbs.size ≤ w := by
  rw [inRange_unsigned, Nat.size_le]
  refine and_congr_right fun h0 => ?_
  zify
  rw [abs_of_nonneg h0]

theorem InRange.between {a b : ℤ} (ha : InRange w signed a)
    (hb : InRange w signed b) (hle : a ≤ x) (hge : x ≤ b) : InRange w signed x :=
  ⟨ha.1.trans hle, hge.trans_lt hb.2⟩

/-- A number divided by a power of two stays in the range. -/
theorem InRange.ediv (h : InRange w signed x) (s : ℕ) : InRange w signed (x / 2 ^ s) := by
  have hpos := two_pow_pos s
  obtain ⟨hlow, hup⟩ := inRange_zero w signed
  constructor
  · refine (Int.le_ediv_iff_mul_le hpos).mpr ?_
    have := h.1
    nlinarith
  · refine (Int.ediv_lt_iff_lt_mul hpos).mpr ?_
    have := h.2
    nlinarith

/-! ### Bits -/

/-- The bits above the lowest `k` are put on a number that has none of them. -/
theorem or_high {k n r : ℕ} (hr : r < 2 ^ k) (hk : k ≤ n) :
    r ||| (2 ^ n - 2 ^ k) = r + (2 ^ n - 2 ^ k) := by
  have hmul : 2 ^ n - 2 ^ k = 2 ^ k * (2 ^ (n - k) - 1) := by
    rw [Nat.mul_sub, mul_one, ← pow_add, Nat.add_sub_cancel' hk]
  rw [hmul, Nat.or_comm, ← Nat.two_pow_add_eq_or_of_lt hr, Nat.add_comm]

/-- The highest bit tells the upper half of the residues. -/
theorem and_two_pow_ne_zero_iff {r : ℕ} (hw : 1 ≤ w) (hr : r < 2 ^ w) :
    r &&& 2 ^ (w - 1) ≠ 0 ↔ 2 ^ (w - 1) ≤ r := by
  obtain ⟨v, rfl⟩ := Nat.exists_eq_add_of_le' hw
  rw [Nat.add_sub_cancel, Nat.and_two_pow]
  by_cases hge : 2 ^ v ≤ r
  · rw [Nat.testBit_of_two_pow_le_and_two_pow_add_one_gt hge hr]
    simp [hge]
  · rw [Nat.testBit_lt_two_pow (by omega)]
    simp [hge]

end EzPacker.TwosComplement
