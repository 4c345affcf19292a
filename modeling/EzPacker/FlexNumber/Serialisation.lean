import EzPacker.FlexNumber.Arithmetic

/-!
# Slices and bytes

A slice of a number is a slice of its two's complement of any length. The last byte of a
width that is no multiple of eight is filled up with zeros, the ones behind it with the
sign; reading drops both.
-/

namespace EzPacker.FlexNumber

open Nat List

open Mir (FlexInt)
open TwosComplement

variable (mp : LibTomMath)

/-! ## Slices -/

variable {a w i : ℕ} {signed : Bool} {x : ℤ}

/-- A slice inside the width does not see the residue. -/
theorem emod_ediv_emod {m : ℕ} (h : a + m ≤ w) (x : ℤ) :
    x % 2 ^ w / 2 ^ a % 2 ^ m = x / 2 ^ a % 2 ^ m := by
  have hsplit : (2 : ℤ) ^ w = 2 ^ a * 2 ^ (w - a) := by
    rw [← pow_add]
    congr 1
    omega
  have hdvd : (2 : ℤ) ^ m ∣ 2 ^ (w - a) := pow_dvd_pow 2 (by omega)
  have hdiv : x / 2 ^ a = x % 2 ^ w / 2 ^ a + 2 ^ (w - a) * (x / 2 ^ w) := by
    conv_lhs => rw [← Int.emod_add_mul_ediv x (2 ^ w), hsplit, mul_assoc]
    rw [Int.add_mul_ediv_left _ _ (two_pow_pos a).ne', ← hsplit]
  rw [hdiv]
  exact (Int.ModEq.symm (Int.modEq_iff_dvd.mpr ⟨-(2 ^ (w - a) / 2 ^ m * (x / 2 ^ w)), by
    obtain ⟨c, hc⟩ := hdvd
    rw [hc, Int.mul_ediv_cancel_left _ (two_pow_pos m).ne']
    ring⟩))

theorem isNeg_eq (hx : InRange w signed x) :
    (signed && (⟨x, w, signed⟩ : FlexInt).isNeg) = decide (x < 0) := by
  cases signed with
  | true => simp [FlexInt.isNeg]
  | false =>
    rw [inRange_unsigned] at hx
    simp [hx.1]

/-- Bits above the width of a negative number. -/
theorem ediv_of_neg (hw : 1 ≤ w) (hx : InRange w true x) (hneg : x < 0) (ha : w ≤ a) :
    x / 2 ^ a = -1 := by
  have hpow := two_pow_pred hw
  have hle : (2 : ℤ) ^ w ≤ 2 ^ a := pow_le_pow_right₀ (by decide) ha
  rw [inRange_signed hw] at hx
  have hlow : -1 ≤ x / 2 ^ a := (Int.le_ediv_iff_mul_le (two_pow_pos a)).mpr (by omega)
  have hhigh := Int.ediv_neg_of_neg_of_pos hneg (two_pow_pos a)
  omega

theorem neg_one_emod (m : ℕ) : (-1 : ℤ) % 2 ^ m = 2 ^ m - 1 := by
  have hpos := two_pow_pos m
  rw [← Int.add_emod_right, Int.emod_eq_of_lt (by omega) (by omega)]
  ring

theorem denormalized_false (w : ℕ) (x : ℤ) : denormalized false w x = x := if_neg (by decide)

/-- The slice of a number that the width holds. -/
theorem norm_slice {m : ℕ} (hw : 1 ≤ w) (signed : Bool) (x : ℤ) :
    mp.mpMod2d (if 0 < a then mp.mpDiv2d (normalizedUnsigned mp ⟨x, w, signed⟩) a
      else normalizedUnsigned mp ⟨x, w, signed⟩) m = x % 2 ^ w / 2 ^ a % 2 ^ m := by
  have hnorm := normalizedUnsigned_eq mp (n := ⟨x, w, signed⟩) hw
  have hnonneg := Int.emod_nonneg x (two_pow_pos w).ne'
  have hshifted : (if 0 < a then mp.mpDiv2d (normalizedUnsigned mp ⟨x, w, signed⟩) a
      else normalizedUnsigned mp ⟨x, w, signed⟩) = x % 2 ^ w / 2 ^ a := by
    rw [hnorm]
    split_ifs with ha
    · rw [mp.div2d_eq, Int.tdiv_eq_ediv_of_nonneg hnonneg]
    · obtain rfl : a = 0 := by omega
      simp
  rw [hshifted, mp.mod2d_eq, Int.tmod_eq_emod_of_nonneg
    (Int.ediv_nonneg hnonneg (two_pow_pos a).le)]

/-- A slice of a number that is not negative. -/
theorem extractBits_of_nonneg (hw : 1 ≤ w) (hx : InRange w signed x) (h0 : 0 ≤ x) (a m : ℕ) :
    (extractBits mp ⟨x, w, signed⟩ a m false).value = x / 2 ^ a % 2 ^ m := by
  have hsign : (signed && (⟨x, w, signed⟩ : FlexInt).isNeg) = false := by
    rw [isNeg_eq hx, decide_eq_false_iff_not]
    omega
  have hmod : x % 2 ^ w = x := emod_of_nonneg hw hx (Or.inr h0)
  unfold extractBits
  simp only [ofU64_zero, hsign, norm_slice mp hw, denormalized_false, hmod, Bool.and_assoc,
    Bool.and_false, Bool.false_eq_true, if_false]
  split_ifs with hm ha
  · rw [hm, pow_zero, Int.emod_one]
  · have hle : (2 : ℤ) ^ w ≤ 2 ^ a := pow_le_pow_right₀ (by decide) ha
    rw [Int.ediv_eq_zero_of_lt h0 (by omega), Int.zero_emod]
  · rfl

/-- A slice of a negative number; what lies above the width repeats the sign. -/
theorem extractBits_of_neg (hw : 1 ≤ w) (hx : InRange w true x) (hneg : x < 0) (a m : ℕ) :
    (extractBits mp ⟨x, w, true⟩ a m false).value = x / 2 ^ a % 2 ^ m := by
  have hisNeg : (⟨x, w, true⟩ : FlexInt).isNeg = true := by simp [FlexInt.isNeg, hneg]
  unfold extractBits
  simp only [ofU64_zero, hisNeg, norm_slice mp hw, denormalized_false, Bool.and_true, if_true,
    decide_eq_true_eq, Bool.false_eq_true, if_false]
  split_ifs with hm ha hout
  · rw [hm, pow_zero, Int.emod_one]
  · rw [ediv_of_neg hw hx hneg ha, neg_one_emod]
  · obtain ⟨hdiv, hge, hlt⟩ := shifted_of_neg (show a < w by omega) hx hneg
    have hle : (2 : ℤ) ^ (w - a) ≤ 2 ^ m := pow_le_pow_right₀ (by decide) (by omega)
    have hresidue : (x / 2 ^ a + 2 ^ (w - a)) % 2 ^ m = x / 2 ^ a + 2 ^ (w - a) :=
      Int.emod_eq_of_lt hge (by omega)
    have hslice : x / 2 ^ a % 2 ^ m = x / 2 ^ a + 2 ^ m :=
      (Int.add_emod_right _ (2 ^ m)).symm.trans (Int.emod_eq_of_lt (by omega) (by omega))
    rw [emod_of_neg hw hx hneg, hdiv, hresidue, mpOr_high mp (by omega) hge (by omega), hslice]
    ring
  · exact emod_ediv_emod (by omega) x

theorem signed_of_neg (hx : InRange w signed x) (hneg : x < 0) : signed = true := by
  by_contra hsigned
  rw [Bool.not_eq_true] at hsigned
  subst hsigned
  exact absurd hx.nonneg (by omega)

/-- An unsigned slice is one of the two's complement of any length. -/
theorem extractBits_value (hw : 1 ≤ w) (hx : InRange w signed x) (a m : ℕ) :
    (extractBits mp ⟨x, w, signed⟩ a m false).value = x / 2 ^ a % 2 ^ m := by
  by_cases hneg : x < 0
  · obtain rfl := signed_of_neg hx hneg
    exact extractBits_of_neg mp hw hx hneg a m
  · exact extractBits_of_nonneg mp hw hx (by omega) a m

theorem getU64_eq (n : FlexInt) : getU64 mp n = BitVec.ofInt 64 n.value := by
  rw [getU64, mp.getI64_eq, mp.getU64_eq, ite_self]

/-- A word of a number is one of its two's complement. -/
theorem extractWord64_eq (hw : 1 ≤ w) (hx : InRange w signed x) (wordIndex : ℕ) :
    extractWord64 mp ⟨x, w, signed⟩ wordIndex = BitVec.ofInt 64 (x / 2 ^ (wordIndex * 64)) := by
  unfold extractWord64
  simp only [isNeg_eq hx, decide_eq_true_eq]
  split_ifs with hout hneg
  · obtain rfl := signed_of_neg hx hneg
    rw [ediv_of_neg hw hx hneg hout]
    rfl
  · have hle : (2 : ℤ) ^ w ≤ 2 ^ (wordIndex * 64) := pow_le_pow_right₀ (by decide) hout
    have hlt : x < 2 ^ w := by
      rw [← emod_of_nonneg hw hx (Or.inr (by omega))]
      exact Int.emod_lt_of_pos x (two_pow_pos w)
    rw [Int.ediv_eq_zero_of_lt (by omega) (by omega)]
    rfl
  · rw [getU64_eq, extractBits_value mp hw hx]
    refine BitVec.eq_of_toInt_eq ?_
    rw [BitVec.toInt_ofInt, BitVec.toInt_ofInt]
    exact Int.emod_bmod (x / 2 ^ (wordIndex * 64)) (2 ^ 64)

/-! ## Bytes -/

/-- The bits of a byte that belong to the width. -/
def bitsOfByte (w i : ℕ) : ℕ := min 8 (w - i * 8)

/-- A byte inside the width holds the bits of the number that the width has there. -/
theorem byteAt_of_lt (hx : InRange w signed x) (hi : i * 8 < w) :
    ((byteAt mp ⟨x, w, signed⟩ i).toNat : ℤ) = x / 2 ^ (i * 8) % 2 ^ bitsOfByte w i := by
  have hvalue := extractBits_value mp (show 1 ≤ w by omega) hx (i * 8) (bitsOfByte w i)
  have hle : (2 : ℤ) ^ bitsOfByte w i ≤ 2 ^ 8 :=
    pow_le_pow_right₀ (by decide) (min_le_left _ _)
  unfold byteAt
  rw [if_pos hi, ← bitsOfByte, getU64_eq, hvalue, BitVec.toNat_ofInt, UInt8.toNat_ofNat']
  omega

theorem byteAt_of_le (hx : InRange w signed x) (hi : w ≤ i * 8) :
    ((byteAt mp ⟨x, w, signed⟩ i).toNat : ℤ) = x / 2 ^ (i * 8) % 2 ^ 8 := by
  unfold byteAt
  simp only [isNeg_eq hx, decide_eq_true_eq]
  rw [if_neg (by omega)]
  split_ifs with hneg
  · obtain rfl := signed_of_neg hx hneg
    have hw : 1 ≤ w := by
      by_contra hw
      obtain rfl : w = 0 := by omega
      have := eq_zero_of_inRange_zero hx
      omega
    rw [ediv_of_neg hw hx hneg hi]
    rfl
  · have hlt : x < 2 ^ (i * 8) := by
      have hle : (2 : ℤ) ^ w ≤ 2 ^ (i * 8) := pow_le_pow_right₀ (by decide) hi
      have hlt : x < 2 ^ w := by
        rcases Nat.eq_zero_or_pos w with rfl | hw
        · rw [eq_zero_of_inRange_zero hx]
          decide
        · rw [← emod_of_nonneg hw hx (Or.inr (by omega))]
          exact Int.emod_lt_of_pos x (two_pow_pos w)
      omega
    rw [Int.ediv_eq_zero_of_lt (by omega) hlt]
    rfl

/-- A digit of the two's complement of `count` bytes. -/
theorem leBytes_getElem {count : ℕ} (hi : i < count) (x : ℤ) :
    (((leBytes count (x % 2 ^ (8 * count)).toNat)[i]?.getD 0).toNat : ℤ) =
      x / 2 ^ (i * 8) % 2 ^ 8 := by
  have hpos := two_pow_pos (8 * count)
  have hbytes : (256 : ℕ) ^ count = 2 ^ (8 * count) := by
    rw [pow_mul]
    rfl
  have hpow : (256 : ℕ) ^ i = 2 ^ (i * 8) := by
    rw [mul_comm, pow_mul]
    rfl
  have hlt : (x % 2 ^ (8 * count)).toNat < 256 ^ count := by
    rw [hbytes]
    zify
    rw [Int.toNat_of_nonneg (Int.emod_nonneg _ hpos.ne')]
    exact Int.emod_lt_of_pos x hpos
  rw [← leNat_div_mod, leNat_leBytes_of_lt hlt, hpow]
  push_cast
  rw [Int.toNat_of_nonneg (Int.emod_nonneg _ hpos.ne')]
  exact emod_ediv_emod (m := 8) (by omega) x

/-- A byte is the digit of the two's complement, but for the one that the width of a
negative number ends in. -/
theorem byteAt_eq_digit_iff (hx : InRange w signed x) :
    ((byteAt mp ⟨x, w, signed⟩ i).toNat : ℤ) = x / 2 ^ (i * 8) % 2 ^ 8 ↔
      ¬ (x < 0 ∧ i * 8 < w ∧ w < i * 8 + 8) := by
  by_cases hi : i * 8 < w
  · rw [byteAt_of_lt mp hx hi]
    by_cases hfull : i * 8 + 8 ≤ w
    · rw [bitsOfByte, min_eq_left (by omega)]
      exact iff_of_true rfl (by omega)
    have hbits : bitsOfByte w i = w - i * 8 := min_eq_right (by omega)
    have hle : (2 : ℤ) ^ (w - i * 8) ≤ 2 ^ 7 := pow_le_pow_right₀ (by decide) (by omega)
    rw [hbits]
    by_cases hneg : x < 0
    · obtain rfl := signed_of_neg hx hneg
      obtain ⟨-, hge, hlt⟩ := shifted_of_neg hi hx hneg
      have hslice := Int.emod_lt_of_pos (x / 2 ^ (i * 8)) (two_pow_pos (w - i * 8))
      have hdigit : x / 2 ^ (i * 8) % 2 ^ 8 = x / 2 ^ (i * 8) + 2 ^ 8 := by omega
      exact iff_of_false (by omega) (by omega)
    · have hlt : x / 2 ^ (i * 8) < 2 ^ (w - i * 8) := by
        refine (Int.ediv_lt_iff_lt_mul (two_pow_pos _)).mpr ?_
        rw [← pow_add, Nat.sub_add_cancel hi.le,
          ← emod_of_nonneg (show 1 ≤ w by omega) hx (Or.inr (by omega))]
        exact Int.emod_lt_of_pos x (two_pow_pos w)
      have hnonneg := Int.ediv_nonneg (show 0 ≤ x by omega) (two_pow_pos (i * 8)).le
      rw [Int.emod_eq_of_lt hnonneg hlt]
      exact iff_of_true (by omega) (by omega)
  · rw [byteAt_of_le mp hx (by omega)]
    exact iff_of_true rfl (by omega)

theorem ordered_ordered (endian : Endianness) (bytes : List UInt8) :
    ordered endian (ordered endian bytes) = bytes := by
  cases endian with
  | Little => rfl
  | Big => exact reverse_reverse bytes

theorem ordered_inj {endian : Endianness} {bytes bytes' : List UInt8} :
    ordered endian bytes = ordered endian bytes' ↔ bytes = bytes' := by
  constructor
  · intro h
    rw [← ordered_ordered endian bytes, h, ordered_ordered]
  · exact congrArg _

theorem writeBytes_eq_iff (hx : InRange w signed x) (count : ℕ) (endian : Endianness) :
    writeBytes mp ⟨x, w, signed⟩ count endian =
        ordered endian (leBytes count (x % 2 ^ (8 * count)).toNat) ↔
      ¬ (x < 0 ∧ ¬ 8 ∣ w ∧ w < 8 * count) := by
  have hbyte : ∀ i, i < count → ((byteAt mp ⟨x, w, signed⟩ i =
      (leBytes count (x % 2 ^ (8 * count)).toNat)[i]?.getD 0) ↔
        ¬ (x < 0 ∧ i * 8 < w ∧ w < i * 8 + 8)) := by
    intro i hi
    rw [← byteAt_eq_digit_iff mp hx, ← leBytes_getElem hi x, Nat.cast_inj, UInt8.toNat_inj]
  rw [writeBytes, ordered_inj]
  constructor
  · rintro heq ⟨hneg, hdvd, hlt⟩
    refine (hbyte (w / 8) (by omega)).mp ?_ ⟨hneg, by omega, by omega⟩
    rw [← heq, getElem?_map, getElem?_range (by omega)]
    rfl
  · intro h
    refine ext_getElem (by simp) fun i hi hi' => ?_
    have hlt : i < count := by simpa using hi
    have hdigit := (hbyte i hlt).mpr (by omega)
    rw [getElem?_eq_getElem hi', Option.getD_some] at hdigit
    simpa using hdigit

/-! ## Reading -/

theorem sumBytes_spec (w : ℕ) (bytes : List UInt8) (i : ℕ) {number : ℤ} (h0 : 0 ≤ number) :
    0 ≤ sumBytes w bytes i number ∧
      sumBytes w bytes i number ≡ number + leNat bytes * 2 ^ (i * 8) [ZMOD 2 ^ w] := by
  induction bytes generalizing i number with
  | nil => simp [sumBytes, leNat, h0]
  | cons b bytes ih =>
    have hnonneg : 0 ≤ number + b.toNat * 2 ^ (i * 8) :=
      add_nonneg h0 (mul_nonneg (Int.natCast_nonneg _) (two_pow_pos _).le)
    have hcons : number + (leNat (b :: bytes) : ℤ) * 2 ^ (i * 8) =
        number + b.toNat * 2 ^ (i * 8) + leNat bytes * 2 ^ ((i + 1) * 8) := by
      rw [leNat, add_mul, pow_add]
      push_cast
      ring
    unfold sumBytes
    split_ifs with hout hzero
    · refine ⟨h0, (Int.modEq_iff_dvd.mpr ?_)⟩
      rw [add_sub_cancel_left]
      exact Dvd.dvd.mul_left (pow_dvd_pow 2 hout) _
    · rw [hcons, hzero]
      simpa using ih (i + 1) h0
    · rw [hcons]
      exact ih (i + 1) hnonneg

theorem mul_pow_modEq (h : w ≤ a) (y z : ℤ) : y * 2 ^ a ≡ z * 2 ^ a [ZMOD 2 ^ w] := by
  rw [Int.modEq_iff_dvd, ← sub_mul]
  exact Dvd.dvd.mul_left (pow_dvd_pow 2 h) _

theorem emod_bitsOfByte_modEq (hi : i * 8 < w) (y : ℤ) :
    y % 2 ^ bitsOfByte w i * 2 ^ (i * 8) ≡ y % 2 ^ 8 * 2 ^ (i * 8) [ZMOD 2 ^ w] := by
  by_cases hfull : i * 8 + 8 ≤ w
  · rw [bitsOfByte, min_eq_left (by omega)]
  · have hbits : bitsOfByte w i = w - i * 8 := min_eq_right (by omega)
    have hpow : (2 : ℤ) ^ w = 2 ^ (w - i * 8) * 2 ^ (i * 8) := by
      rw [← pow_add, Nat.sub_add_cancel hi.le]
    have hdvd : (2 : ℤ) ^ (w - i * 8) ∣ 2 ^ 8 := pow_dvd_pow 2 (by omega)
    have hcong : y % 2 ^ (w - i * 8) ≡ y % 2 ^ 8 [ZMOD 2 ^ (w - i * 8)] :=
      (Int.mod_modEq y _).trans ((Int.mod_modEq y (2 ^ 8)).of_dvd hdvd).symm
    rw [hbits, hpow]
    exact hcong.mul_right'

/-- Bytes with the bits of a number inside the width sum up to it. -/
theorem leNat_modEq (w : ℕ) (x : ℤ) (bytes : List UInt8) (i : ℕ) (hlen : w ≤ (i + bytes.length) * 8)
    (hbits : ∀ j (hj : j < bytes.length), (i + j) * 8 < w →
      ((bytes[j]).toNat : ℤ) = x / 2 ^ ((i + j) * 8) % 2 ^ bitsOfByte w (i + j)) :
    leNat bytes * 2 ^ (i * 8) ≡ x / 2 ^ (i * 8) * 2 ^ (i * 8) [ZMOD 2 ^ w] := by
  induction bytes generalizing i with
  | nil => exact mul_pow_modEq (by simpa using hlen) _ _
  | cons b bytes ih =>
    by_cases hi : w ≤ i * 8
    · exact mul_pow_modEq hi _ _
    have hlen' : w ≤ (i + 1 + bytes.length) * 8 := by
      simp only [length_cons] at hlen
      omega
    have htail := ih (i + 1) hlen' fun j hj hlt => by
      have hj' := hbits (j + 1) (by simpa using hj) (by omega)
      rwa [getElem_cons_succ, ← add_assoc, add_right_comm] at hj'
    have hhead : (b.toNat : ℤ) * 2 ^ (i * 8) ≡
        x / 2 ^ (i * 8) % 2 ^ 8 * 2 ^ (i * 8) [ZMOD 2 ^ w] := by
      have hb := hbits 0 (by simp) (by omega)
      rw [getElem_cons_zero, add_zero] at hb
      rw [hb]
      exact emod_bitsOfByte_modEq (by omega) _
    have hpow : (2 : ℤ) ^ ((i + 1) * 8) = 2 ^ (i * 8) * 2 ^ 8 := by rw [add_mul, pow_add]
    have hdiv : x / 2 ^ ((i + 1) * 8) = x / 2 ^ (i * 8) / 2 ^ 8 := by
      rw [hpow, Int.ediv_ediv_of_nonneg (two_pow_pos _).le]
    calc (leNat (b :: bytes) : ℤ) * 2 ^ (i * 8)
        = b.toNat * 2 ^ (i * 8) + leNat bytes * 2 ^ ((i + 1) * 8) := by
          rw [leNat, hpow]
          push_cast
          ring
      _ ≡ x / 2 ^ (i * 8) % 2 ^ 8 * 2 ^ (i * 8) +
            x / 2 ^ ((i + 1) * 8) * 2 ^ ((i + 1) * 8) [ZMOD 2 ^ w] := hhead.add htail
      _ = x / 2 ^ (i * 8) * 2 ^ (i * 8) := by
          rw [hdiv, hpow, mul_comm (2 ^ (i * 8) : ℤ), ← mul_assoc, ← add_mul,
            mul_comm (_ / 2 ^ 8) , Int.emod_add_mul_ediv]

theorem readBytes_writeBytes (hx : InRange w signed x) {count : ℕ} (hcount : w ≤ 8 * count)
    (endian : Endianness) :
    readBytes mp (writeBytes mp ⟨x, w, signed⟩ count endian) w signed endian = ⟨x, w, signed⟩ := by
  unfold readBytes
  simp only [ofU64_zero]
  rcases Nat.eq_zero_or_pos w with rfl | hw
  · rw [if_pos (Or.inr rfl), eq_zero_of_inRange_zero hx]
  have hne : writeBytes mp ⟨x, w, signed⟩ count endian ≠ [] := by
    intro hnil
    have hlen := congrArg (fun bytes => (ordered endian bytes).length) hnil
    rw [writeBytes] at hlen
    simp only [ordered_ordered, length_map, length_range] at hlen
    cases endian <;> simp [ordered] at hlen <;> omega
  rw [if_neg (by simp [hne]; omega), writeBytes, ordered_ordered]
  have hbytes := leNat_modEq w x ((range count).map (byteAt mp ⟨x, w, signed⟩)) 0
    (by simpa [mul_comm] using hcount) fun j hj hlt => by
      rw [zero_add] at hlt ⊢
      rw [← byteAt_of_lt mp hx hlt]
      simp
  obtain ⟨hnonneg, hsum⟩ := sumBytes_spec w
    ((range count).map (byteAt mp ⟨x, w, signed⟩)) 0 (le_refl (0 : ℤ))
  simp only [zero_mul, pow_zero, mul_one, zero_add, Int.ediv_one] at hbytes hsum
  rw [assign, clampToTwosComplement_of_nonneg mp hw signed hnonneg,
    wrap_congr signed (hsum.trans hbytes), wrap_of_inRange hx]

/-- Writing gives the two's complement of a number, and reading gives the number back. -/
structure IsSerialised (n : FlexInt) (count : ℕ) (endian : Endianness) : Prop where
  writes : writeBytes mp n count endian =
    ordered endian (leBytes count (n.value % 2 ^ (8 * count)).toNat)
  reads : n.bitWidth ≤ 8 * count →
    readBytes mp (writeBytes mp n count endian) n.bitWidth n.isSigned endian = n

/-- Bytes are the two's complement and give the number back, unless the width of a
negative number ends inside one of them. -/
theorem isSerialised_iff {w : ℕ} {signed : Bool} {x : ℤ} (hx : InRange w signed x)
    (count : ℕ) (endian : Endianness) :
    IsSerialised mp ⟨x, w, signed⟩ count endian ↔ ¬ (x < 0 ∧ ¬ 8 ∣ w ∧ w < 8 * count) := by
  constructor
  · intro h
    exact (writeBytes_eq_iff mp hx count endian).mp h.writes
  · intro h
    exact ⟨(writeBytes_eq_iff mp hx count endian).mpr h,
      fun hcount => readBytes_writeBytes mp hx hcount endian⟩

theorem isSerialised_int32 : InRange 32 true (-2) ∧
      (IsSerialised LibTomMath.exact ⟨-2, 32, true⟩ 8 .Big ↔
        ¬ ((-2 : ℤ) < 0 ∧ ¬ 8 ∣ 32 ∧ 32 < 8 * 8)) :=
  ⟨by decide, isSerialised_iff LibTomMath.exact (by decide) 8 .Big⟩

/-- The byte of a four-bit -1 is 0x0F, and 0xFF as two's complement. -/
theorem writeBytes_int4_not_extended : InRange 4 true (-1) ∧
      writeBytes LibTomMath.exact ⟨-1, 4, true⟩ 1 .Little = [0x0F] ∧
      ¬ IsSerialised LibTomMath.exact ⟨-1, 4, true⟩ 1 .Little := by
  refine ⟨by decide, by decide +kernel, fun h => ?_⟩
  exact (writeBytes_eq_iff LibTomMath.exact (by decide) 1 .Little).mp h.writes (by decide)

/-!
## Bit operations on two's complement

The bit operations take the numbers into the unsigned range and back, halves are split off there,
and limbs are summed up there.
-/

/-! ## Bits of a number -/

/-- A bit of the two's complement of a number, of any length. -/
def bitAt (x : ℤ) (i : ℕ) : Bool := x / 2 ^ i % 2 = 1

theorem bitAt_natCast (n i : ℕ) : bitAt n i = n.testBit i := by
  rw [bitAt, testBit_eq_decide_div_mod_eq]
  refine decide_eq_decide.mpr ?_
  norm_cast

theorem bitAt_emod (hi : i < w) (x : ℤ) : bitAt (x % 2 ^ w) i = bitAt x i := by
  have hslice := emod_ediv_emod (show i + 1 ≤ w from hi) x
  rw [pow_one] at hslice
  rw [bitAt, bitAt, hslice]

theorem bitAt_congr (hi : i < w) {y : ℤ} (h : x ≡ y [ZMOD 2 ^ w]) : bitAt x i = bitAt y i := by
  rw [← bitAt_emod hi x, h, bitAt_emod hi]

/-- A number of the type with the given bits. -/
structure IsBits (w : ℕ) (signed : Bool) (r : FlexInt) (bits : ℕ → Bool) : Prop where
  bitWidth_eq : r.bitWidth = w
  isSigned_eq : r.isSigned = signed
  inRange : InRange w signed r.value
  bitAt_eq : ∀ i < w, bitAt r.value i = bits i

theorem denormalized_eq_wrap (hw : 1 ≤ w) (signed : Bool) {norm : ℤ} (h0 : 0 ≤ norm)
    (hlt : norm < 2 ^ w) : denormalized signed w norm = wrap w signed norm := by
  cases signed with
  | false => rw [denormalized_false, wrap_unsigned, Int.emod_eq_of_lt h0 hlt]
  | true => rw [denormalized, if_pos rfl, wrap_signed_of_residue hw h0 hlt]

/-- A natural number below the range, read in the type. -/
theorem isBits_denormalized (hw : 1 ≤ w) (signed : Bool) {n : ℕ} (hlt : n < 2 ^ w) :
    IsBits w signed ⟨denormalized signed w n, w, signed⟩ n.testBit := by
  have hwrap := denormalized_eq_wrap hw signed (Int.natCast_nonneg n) (by exact_mod_cast hlt)
  refine ⟨rfl, rfl, ?_, fun i hi => ?_⟩
  · show InRange w signed (denormalized signed w n)
    rw [hwrap]
    exact wrap_inRange w signed n
  · show bitAt (denormalized signed w n) i = n.testBit i
    rw [hwrap, bitAt_congr hi (wrap_modEq w signed n), bitAt_natCast]

theorem isBits_zero (signed : Bool) (bits : ℕ → Bool) : IsBits 0 signed ⟨0, 0, signed⟩ bits :=
  ⟨rfl, rfl, inRange_zero 0 signed, fun _ hi => absurd hi (not_lt_zero _)⟩

/-- The residue of a number. -/
def residue (w : ℕ) (x : ℤ) : ℕ := (x % 2 ^ w).toNat

theorem natCast_residue (w : ℕ) (x : ℤ) : (residue w x : ℤ) = x % 2 ^ w :=
  Int.toNat_of_nonneg (Int.emod_nonneg x (two_pow_pos w).ne')

theorem residue_lt (w : ℕ) (x : ℤ) : residue w x < 2 ^ w := by
  have hlt := Int.emod_lt_of_pos x (two_pow_pos w)
  rw [← natCast_residue] at hlt
  exact_mod_cast hlt

theorem testBit_residue (hi : i < w) (x : ℤ) : (residue w x).testBit i = bitAt x i := by
  rw [← bitAt_natCast, natCast_residue, bitAt_emod hi]

theorem normalizedUnsigned_residue (hw : 1 ≤ w) (signed : Bool) (x : ℤ) :
    normalizedUnsigned mp ⟨x, w, signed⟩ = residue w x := by
  rw [normalizedUnsigned_eq mp (n := ⟨x, w, signed⟩) hw, natCast_residue]

/-! ## The operations -/

/-- An operation of the library that is one on natural numbers, bit by bit. -/
structure IsBitwiseOp (op : ℤ → ℤ → ℤ) (f : ℕ → ℕ → ℕ) (g : Bool → Bool → Bool) : Prop where
  op_eq : ∀ a b : ℕ, op a b = f a b
  lt_two_pow : ∀ {a b w : ℕ}, a < 2 ^ w → b < 2 ^ w → f a b < 2 ^ w
  testBit_eq : ∀ a b i : ℕ, (f a b).testBit i = g (a.testBit i) (b.testBit i)

theorem isBitwiseOp_and : IsBitwiseOp mp.mpAnd (· &&& ·) (· && ·) :=
  ⟨mp.and_eq, fun _ hb => and_lt_two_pow _ hb, testBit_and⟩

theorem isBitwiseOp_or : IsBitwiseOp mp.mpOr (· ||| ·) (· || ·) :=
  ⟨mp.or_eq, fun ha hb => or_lt_two_pow ha hb, testBit_or⟩

theorem isBitwiseOp_xor : IsBitwiseOp mp.mpXor (· ^^^ ·) (· ^^ ·) :=
  ⟨mp.xor_eq, fun ha hb => xor_lt_two_pow ha hb, testBit_xor⟩

theorem bitwise_isBits {op : ℤ → ℤ → ℤ} {f : ℕ → ℕ → ℕ} {g : Bool → Bool → Bool}
    (hop : IsBitwiseOp op f g) (w : ℕ) (signed : Bool) (a b : ℤ) :
    ∃ r, bitwise mp op ⟨a, w, signed⟩ ⟨b, w, signed⟩ = .ok r ∧
      IsBits w signed r fun i => g (bitAt a i) (bitAt b i) := by
  unfold bitwise
  rw [checkCompatible_self]
  rcases Nat.eq_zero_or_pos w with rfl | hw
  · exact ⟨_, rfl, isBits_zero signed _⟩
  · refine ⟨_, if_neg (show ¬(⟨a, w, signed⟩ : FlexInt).bitWidth = 0 from hw.ne'), ?_⟩
    have hnorm : op (normalizedUnsigned mp ⟨a, w, signed⟩) (normalizedUnsigned mp ⟨b, w, signed⟩) =
        f (residue w a) (residue w b) := by
      rw [normalizedUnsigned_residue mp hw, normalizedUnsigned_residue mp hw, hop.op_eq]
    have hbits := isBits_denormalized hw signed (hop.lt_two_pow (residue_lt w a) (residue_lt w b))
    simp only [hnorm]
    refine ⟨rfl, rfl, hbits.inRange, fun i hi => ?_⟩
    rw [hbits.bitAt_eq i hi, hop.testBit_eq, testBit_residue hi, testBit_residue hi]

theorem bitNot_isBits (w : ℕ) (signed : Bool) (a : ℤ) :
    IsBits w signed (bitNot mp ⟨a, w, signed⟩) fun i => !bitAt a i := by
  unfold bitNot
  rcases Nat.eq_zero_or_pos w with rfl | hw
  · exact isBits_zero signed _
  · rw [if_neg (show ¬(⟨a, w, signed⟩ : FlexInt).bitWidth = 0 from hw.ne')]
    have hmask : ((2 : ℤ) ^ w - 1) = ((2 ^ w - 1 : ℕ) : ℤ) := by
      rw [Nat.cast_sub Nat.one_le_two_pow]
      push_cast
      rfl
    have hnorm : mp.mpXor (normalizedUnsigned mp ⟨a, w, signed⟩) (2 ^ w - 1) =
        (residue w a ^^^ (2 ^ w - 1) : ℕ) := by
      rw [normalizedUnsigned_residue mp hw, hmask, mp.xor_eq]
    have hmaskLt : 2 ^ w - 1 < 2 ^ w := Nat.sub_lt (Nat.two_pow_pos w) Nat.one_pos
    have hbits := isBits_denormalized hw signed (xor_lt_two_pow (residue_lt w a) hmaskLt)
    simp only [hnorm]
    refine ⟨rfl, rfl, hbits.inRange, fun i hi => ?_⟩
    rw [hbits.bitAt_eq i hi, testBit_xor, testBit_residue hi, testBit_two_pow_sub_one,
      decide_eq_true hi, Bool.xor_true]

/-! ## Halves -/

theorem normalizedUnsigned_emod (w : ℕ) (signed : Bool) (x : ℤ) (hx : w = 0 → x = 0) :
    normalizedUnsigned mp ⟨x, w, signed⟩ = x % 2 ^ w := by
  rcases Nat.eq_zero_or_pos w with rfl | hw
  · rw [hx rfl]
    exact if_pos rfl
  · exact normalizedUnsigned_eq mp (n := ⟨x, w, signed⟩) hw

/-- The halves have half the width, the low one is unsigned, and together they are the number. -/
structure IsSplit (n high low : FlexInt) : Prop where
  high_bitWidth : high.bitWidth = n.bitWidth / 2
  high_isSigned : high.isSigned = n.isSigned
  low_bitWidth : low.bitWidth = n.bitWidth / 2
  low_isSigned : low.isSigned = false
  low_inRange : InRange (n.bitWidth / 2) false low.value
  recombine : high.value * 2 ^ (n.bitWidth / 2) + low.value ≡ n.value [ZMOD 2 ^ n.bitWidth]

theorem halves_isSplit (heven : w % 2 = 0) (hx : InRange w signed x) :
    ∃ high low, getHighHalf mp ⟨x, w, signed⟩ = .ok high ∧
      getLowHalf mp ⟨x, w, signed⟩ = .ok low ∧ IsSplit ⟨x, w, signed⟩ high low := by
  have hwidth : ensureSplittableWidth ⟨x, w, signed⟩ = .ok () :=
    if_neg (show ¬(w % 2 ≠ 0) from not_not.mpr heven)
  have hnorm : normalizedUnsigned mp ⟨x, w, signed⟩ = x % 2 ^ w := by
    refine normalizedUnsigned_emod mp w signed x ?_
    rintro rfl
    exact eq_zero_of_inRange_zero hx
  have hnonneg := Int.emod_nonneg x (two_pow_pos w).ne'
  have hpow : (2 : ℤ) ^ w = 2 ^ (w / 2) * 2 ^ (w / 2) := by
    rw [← pow_add]
    congr 1
    omega
  unfold getHighHalf getLowHalf
  rw [hwidth, hnorm]
  refine ⟨_, _, rfl, rfl, rfl, rfl, rfl, rfl, ?_, ?_⟩
  · show InRange (w / 2) false (mp.mpAnd (x % 2 ^ w) (2 ^ (w / 2) - 1))
    rw [and_modMask mp hnonneg, inRange_unsigned]
    exact ⟨Int.emod_nonneg _ (two_pow_pos _).ne', Int.emod_lt_of_pos _ (two_pow_pos _)⟩
  · show _ * 2 ^ (w / 2) + mp.mpAnd (x % 2 ^ w) (2 ^ (w / 2) - 1) ≡ x [ZMOD 2 ^ w]
    rw [and_modMask mp hnonneg]
    have hsum : x % 2 ^ w / 2 ^ (w / 2) * 2 ^ (w / 2) + x % 2 ^ w % 2 ^ (w / 2) = x % 2 ^ w := by
      rw [mul_comm, Int.mul_ediv_add_emod]
    dsimp only
    rw [mp.div2d_eq, Int.tdiv_eq_ediv_of_nonneg hnonneg]
    generalize (if w / 2 = 0 then (0 : ℤ) else 2 ^ (w / 2 - 1)) = signBit
    split_ifs with hhigh
    · have hsub : (x % 2 ^ w / 2 ^ (w / 2) - 2 ^ (w / 2)) * 2 ^ (w / 2) + x % 2 ^ w % 2 ^ (w / 2) =
          x % 2 ^ w - 2 ^ w := by
        rw [sub_mul, ← hpow]
        omega
      rw [hsub]
      exact (Int.modEq_iff_dvd.mpr ⟨1, by ring⟩).trans (Int.mod_modEq x (2 ^ w))
    · rw [hsum]
      exact Int.mod_modEq x (2 ^ w)

theorem halves_of_odd (hodd : w % 2 ≠ 0) (signed : Bool) (x : ℤ) : getHighHalf mp ⟨x, w, signed⟩ =
        .error "Cannot execute scalar expansion split on an odd bit-width." ∧
      getLowHalf mp ⟨x, w, signed⟩ =
        .error "Cannot execute scalar expansion split on an odd bit-width." := by
  have hwidth : ensureSplittableWidth ⟨x, w, signed⟩ =
      .error "Cannot execute scalar expansion split on an odd bit-width." := if_pos hodd
  unfold getHighHalf getLowHalf
  rw [hwidth]
  exact ⟨rfl, rfl⟩

/-- The halves of three bits. -/
theorem odd_width_is_not_split : ¬ ∀ (w : ℕ) (signed : Bool) (x : ℤ), InRange w signed x →
    ∃ high low, getHighHalf LibTomMath.exact ⟨x, w, signed⟩ = .ok high ∧
      getLowHalf LibTomMath.exact ⟨x, w, signed⟩ = .ok low ∧
      high.value * 2 ^ (w / 2) + low.value ≡ x [ZMOD 2 ^ w] := by
  intro hall
  obtain ⟨high, -, hhigh, -⟩ := hall 3 false 5 (by decide)
  have herror : getHighHalf LibTomMath.exact ⟨5, 3, false⟩ = _ :=
    (halves_of_odd LibTomMath.exact (by decide) false 5).1
  cases hhigh.symm.trans herror

/-! ## Limbs -/

/-- The words of a number from position `i` on. -/
def words64 (n : FlexInt) (i count : ℕ) : List (BitVec 64) :=
  (range' i count).map (extractWord64 mp n)

/-- What is missing lies above the width. -/
theorem modEq_of_le (ha : w ≤ a) {number : ℤ}
    (hnumber : number ≡ x - x / 2 ^ a * 2 ^ a [ZMOD 2 ^ w]) : number ≡ x [ZMOD 2 ^ w] := by
  have hzero : x / 2 ^ a * 2 ^ a ≡ 0 [ZMOD 2 ^ w] :=
    Int.modEq_zero_iff_dvd.mpr (Dvd.dvd.mul_left (pow_dvd_pow 2 ha) _)
  simpa using hnumber.trans ((Int.ModEq.refl x).sub hzero)

theorem sumLimbs_words64 (hw : 1 ≤ w) (hx : InRange w signed x) (count i : ℕ) {number : ℤ}
    (h0 : 0 ≤ number) (hcount : w ≤ (i + count) * 64)
    (hnumber : number ≡ x - x / 2 ^ (i * 64) * 2 ^ (i * 64) [ZMOD 2 ^ w]) :
    0 ≤ sumLimbs w (words64 mp ⟨x, w, signed⟩ i count) i number ∧
      sumLimbs w (words64 mp ⟨x, w, signed⟩ i count) i number ≡ x [ZMOD 2 ^ w] := by
  induction count generalizing i number with
  | zero => exact ⟨h0, modEq_of_le (by simpa using hcount) hnumber⟩
  | succ count ih =>
    have hcons : words64 mp ⟨x, w, signed⟩ i (count + 1) =
        extractWord64 mp ⟨x, w, signed⟩ i :: words64 mp ⟨x, w, signed⟩ (i + 1) count := by
      rw [words64, range'_succ, map_cons]
      rfl
    rw [hcons, sumLimbs]
    by_cases hi : w ≤ i * 64
    · rw [if_pos hi]
      exact ⟨h0, modEq_of_le hi hnumber⟩
    rw [if_neg hi]
    have hlimb : ((extractWord64 mp ⟨x, w, signed⟩ i).toNat : ℤ) = x / 2 ^ (i * 64) % 2 ^ 64 := by
      rw [extractWord64_eq mp hw hx, BitVec.toNat_ofInt]
      exact Int.toNat_of_nonneg (Int.emod_nonneg _ (by decide))
    have hnonneg : 0 ≤ number + (extractWord64 mp ⟨x, w, signed⟩ i).toNat * 2 ^ (i * 64) :=
      add_nonneg h0 (mul_nonneg (Int.natCast_nonneg _) (two_pow_pos _).le)
    have hnext : number + (extractWord64 mp ⟨x, w, signed⟩ i).toNat * 2 ^ (i * 64) ≡
        x - x / 2 ^ ((i + 1) * 64) * 2 ^ ((i + 1) * 64) [ZMOD 2 ^ w] := by
      have hpow : (2 : ℤ) ^ ((i + 1) * 64) = 2 ^ (i * 64) * 2 ^ 64 := by rw [add_mul, pow_add]
      have hdiv : x / 2 ^ ((i + 1) * 64) = x / 2 ^ (i * 64) / 2 ^ 64 := by
        rw [hpow, Int.ediv_ediv_of_nonneg (two_pow_pos _).le]
      have hword := Int.emod_add_mul_ediv (x / 2 ^ (i * 64)) (2 ^ 64)
      have heq : x - x / 2 ^ (i * 64) * 2 ^ (i * 64) +
          (extractWord64 mp ⟨x, w, signed⟩ i).toNat * 2 ^ (i * 64) =
            x - x / 2 ^ ((i + 1) * 64) * 2 ^ ((i + 1) * 64) := by
        rw [hlimb, hdiv, hpow]
        linear_combination (2 ^ (i * 64) : ℤ) * hword
      rw [← heq]
      exact hnumber.add_right _
    have hrest := ih (i + 1) hnonneg (by omega) hnext
    split_ifs with hzero
    · rw [hzero] at hrest
      simpa using hrest
    · exact hrest

/-- The number is the sum of its words. -/
theorem fromLimbs64_words64 (hx : InRange w signed x) {count : ℕ} (hcount : w ≤ count * 64) :
    fromLimbs64 mp (words64 mp ⟨x, w, signed⟩ 0 count) w signed = ⟨x, w, signed⟩ := by
  unfold fromLimbs64
  simp only [ofU64_zero]
  rcases Nat.eq_zero_or_pos w with rfl | hw
  · rw [if_pos (Or.inr rfl), eq_zero_of_inRange_zero hx]
  have hne : words64 mp ⟨x, w, signed⟩ 0 count ≠ [] := by
    intro hnil
    have hlength := congrArg length hnil
    rw [words64, length_map, length_range', length_nil] at hlength
    omega
  rw [if_neg (not_or.mpr ⟨hne, hw.ne'⟩)]
  obtain ⟨hnonneg, hsum⟩ := sumLimbs_words64 mp hw hx count 0 (le_refl (0 : ℤ)) (by omega) (by simp)
  rw [assign, clampToTwosComplement_of_nonneg mp hw signed hnonneg, wrap_congr signed hsum,
    wrap_of_inRange hx]

/-! ## The bit operations of a width -/

/-- The bit operations are those on two's complement. A number of an even width is its halves, and
every number is its words. -/
theorem bitOperations_correct (w : ℕ) (signed : Bool) {a : ℤ} (ha : InRange w signed a) (b : ℤ) :
    (∃ r, bitAnd mp ⟨a, w, signed⟩ ⟨b, w, signed⟩ = .ok r ∧
      IsBits w signed r fun i => bitAt a i && bitAt b i) ∧
    (∃ r, bitOr mp ⟨a, w, signed⟩ ⟨b, w, signed⟩ = .ok r ∧
      IsBits w signed r fun i => bitAt a i || bitAt b i) ∧
    (∃ r, bitXor mp ⟨a, w, signed⟩ ⟨b, w, signed⟩ = .ok r ∧
      IsBits w signed r fun i => bitAt a i ^^ bitAt b i) ∧
    (IsBits w signed (bitNot mp ⟨a, w, signed⟩) fun i => !bitAt a i) ∧
    (w % 2 = 0 → ∃ high low, getHighHalf mp ⟨a, w, signed⟩ = .ok high ∧
      getLowHalf mp ⟨a, w, signed⟩ = .ok low ∧ IsSplit ⟨a, w, signed⟩ high low) ∧
    (w % 2 ≠ 0 → getHighHalf mp ⟨a, w, signed⟩ =
        .error "Cannot execute scalar expansion split on an odd bit-width." ∧
      getLowHalf mp ⟨a, w, signed⟩ =
        .error "Cannot execute scalar expansion split on an odd bit-width.") ∧
    ∀ count, w ≤ count * 64 →
      fromLimbs64 mp (words64 mp ⟨a, w, signed⟩ 0 count) w signed = ⟨a, w, signed⟩ :=
  ⟨bitwise_isBits mp (isBitwiseOp_and mp) w signed a b,
    bitwise_isBits mp (isBitwiseOp_or mp) w signed a b,
    bitwise_isBits mp (isBitwiseOp_xor mp) w signed a b, bitNot_isBits mp w signed a,
    fun heven => halves_isSplit mp heven ha, fun hodd => halves_of_odd mp hodd signed a,
    fun _ hcount => fromLimbs64_words64 mp ha hcount⟩

theorem bitOperations_int128 :
    fromLimbs64 LibTomMath.exact (words64 LibTomMath.exact ⟨-5, 128, true⟩ 0 2) 128 true =
      ⟨-5, 128, true⟩ ∧
    ∃ r, bitAnd LibTomMath.exact ⟨-5, 128, true⟩ ⟨3, 128, true⟩ = .ok r ∧
      IsBits 128 true r fun i => bitAt (-5) i && bitAt 3 i := by
  have hcorrect := bitOperations_correct LibTomMath.exact 128 true
    (show InRange 128 true (-5) by decide) 3
  exact ⟨hcorrect.2.2.2.2.2.2 2 (by decide), hcorrect.1⟩

end EzPacker.FlexNumber
