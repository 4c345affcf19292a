import EzPacker.CFrontend.BitFields
import EzPacker.Lib.SignExtension

/-!
# The bit-fields that are accessed exactly

A field within a unit of its type is read by a pair of shifts and written under masks, and
what an assignment yields is the same field. A boolean has a single bit of its unit, and a field
that is wider than its unit is read through shift amounts that wrap around.
-/

namespace EzPacker.CFrontend

open BitVec Option

open Mir (MirInstructionOpCode shift)
open FlexNumber (LibTomMath)

/-! ## Shifts by constants -/

section Shifts

variable {c n : ℕ} {value : BitVec c}

variable {opcode : MirInstructionOpCode}

/-- An amount below the width is not cut by the constant. -/
theorem shiftedBy_of_lt (hn : n < c) : shiftedBy opcode value n = shift opcode value n := by
  unfold shiftedBy
  rw [Nat.mod_eq_of_lt (hn.trans Nat.lt_two_pow_self)]

theorem shiftedBy_SHL (hn : n < c) : shiftedBy .SHL value n = some (value <<< n) := by
  rw [shiftedBy_of_lt hn]
  exact if_neg (by omega)

theorem shiftedBy_SHR (hn : n < c) : shiftedBy .SHR value n = some (value >>> n) := by
  rw [shiftedBy_of_lt hn]
  exact if_neg (by omega)

theorem shiftedBy_SAR (hn : n < c) : shiftedBy .SAR value n = some (value.sshiftRight n) := by
  rw [shiftedBy_of_lt hn]
  exact if_neg (by omega)

/-- An amount that the constant wraps to zero. -/
theorem shiftedBy_of_mod_eq_zero (hop : IsShift opcode)
    (hc : 0 < c) (hn : n % 2 ^ c = 0) : shiftedBy opcode value n = some value := by
  rw [← shiftedBy_zero hop hc value]
  unfold shiftedBy
  rw [hn, Nat.zero_mod]

theorem shiftedBy_of_le (hn : c ≤ n % 2 ^ c) : shiftedBy opcode value n = none := if_pos hn

theorem shiftedBy_top (hc : 0 < c) (hn : n % 2 ^ c ≠ 0) (hlt : n % 2 ^ c < c) :
    shiftedBy .SHL (BitVec.ofNat c (2 ^ (c - 1))) n = some 0 := by
  have hshift : BitVec.ofNat c (2 ^ (c - 1)) <<< (n % 2 ^ c) = 0 := by
    apply BitVec.eq_of_toNat_eq
    have hpow : 2 ^ (c - 1) * 2 ^ (n % 2 ^ c) = 2 ^ c * 2 ^ (n % 2 ^ c - 1) := by
      rw [← pow_add, ← pow_add]
      congr 1
      omega
    rw [BitVec.toNat_shiftLeft, BitVec.toNat_ofNat, Nat.shiftLeft_eq, Nat.mod_mul_mod, hpow,
      Nat.mul_mod_right]
    rfl
  unfold shiftedBy
  rw [← hshift]
  exact if_neg (by omega)

theorem shiftedBy_zero_value (hop : IsShift opcode)
    (hlt : n % 2 ^ c < c) : shiftedBy opcode (0 : BitVec c) n = some 0 := by
  unfold shiftedBy shift
  rw [if_neg (by omega)]
  obtain rfl | rfl | rfl := hop <;> simp

theorem isShift_SHL : IsShift .SHL := .inl rfl

theorem isShift_right (isUnsigned : Bool) : IsShift (if isUnsigned then .SHR else .SAR) := by
  cases isUnsigned
  · exact .inr (.inr rfl)
  · exact .inr (.inl rfl)

variable {c w : ℕ}

/-- A difference of sizes of the code, in the unsigned type it is kept in. -/
theorem shiftAmount_of_le (hle : w ≤ c) (hc : c < 2 ^ 16) : shiftAmount (c - w) = c - w := by
  unfold shiftAmount
  rw [toNat_ofInt]
  omega

theorem shiftAmount_sub_of_le {o : ℕ} (hle : o + w ≤ c) (hc : c < 2 ^ 16) :
    shiftAmount (c - w - o) = c - w - o := by
  unfold shiftAmount
  rw [toNat_ofInt]
  omega

/-- A negative difference is wrapped to a constant zero where the power divides it. -/
theorem shiftAmount_mod_eq_zero_iff (hle : c ≤ w) :
    shiftAmount (c - w) % 2 ^ c = 0 ↔ 2 ^ min 16 c ∣ w - c := by
  have hamount : (shiftAmount (c - w) : ℤ) = -((w - c : ℕ) : ℤ) % 2 ^ 16 := by
    unfold shiftAmount
    rw [toNat_ofInt, Int.toNat_of_nonneg (Int.emod_nonneg _ (by decide))]
    push_cast [hle]
    ring_nf
  rcases Nat.le_total c 16 with hc | hc
  · have hdvd : (2 : ℤ) ^ c ∣ 2 ^ 16 := pow_dvd_pow 2 hc
    rw [min_eq_right hc, ← Nat.dvd_iff_mod_eq_zero, ← Int.natCast_dvd_natCast, hamount,
      Int.dvd_iff_emod_eq_zero, Nat.cast_pow, Nat.cast_ofNat, Int.emod_emod_of_dvd _ hdvd,
      ← Int.dvd_iff_emod_eq_zero, Int.dvd_neg]
    norm_cast
  · have hlt : shiftAmount (c - w) < 2 ^ c :=
      Nat.lt_of_lt_of_le (shiftAmount_lt _) (Nat.pow_le_pow_right (by decide) hc)
    rw [min_eq_left hc, Nat.mod_eq_of_lt hlt, ← Int.natCast_inj, hamount, Int.natCast_zero,
      ← Int.dvd_iff_emod_eq_zero, Int.dvd_neg, ← Int.natCast_dvd_natCast]
    norm_cast

end Shifts

/-! ## Masks -/

section Masks

variable {w o c i : ℕ}

theorem getLsbD_fieldMask (hi : i < 64) : (fieldMask w).getLsbD i = decide (i < w) := by
  unfold fieldMask
  split_ifs with hw
  · rw [getLsbD_not, decide_eq_true hi, decide_eq_true (by omega)]
    simp
  · have hlt : 2 ^ w < 2 ^ 64 := Nat.pow_lt_pow_right (by decide) (by omega)
    have hpos := Nat.two_pow_pos w
    have hmask : (1#64 <<< w - 1#64).toNat = 2 ^ w - 1 := by
      have hshift : (1#64 <<< w).toNat = 2 ^ w := by
        rw [toNat_shiftLeft, toNat_ofNat, Nat.shiftLeft_eq]
        omega
      have hone : (1#64).toNat = 1 := rfl
      rw [toNat_sub, hshift, hone]
      omega
    rw [← testBit_toNat, hmask, Nat.testBit_two_pow_sub_one]

theorem getLsbD_clearMask (hi : i < c) (hc : c ≤ 64) :
    (clearMask c w o).getLsbD i = !(decide (o ≤ i) && decide (i < o + w)) := by
  have hclear : (~~~(fieldMask w <<< o)).getLsbD i = !(decide (o ≤ i) && decide (i < o + w)) := by
    have hi' : i < 64 := by omega
    rw [getLsbD_not, getLsbD_shiftLeft, decide_eq_true hi', Bool.true_and, Bool.true_and]
    rcases Nat.lt_or_ge i o with ho | ho
    · simp [ho, show ¬ o ≤ i by omega]
    · rw [getLsbD_fieldMask (by omega)]
      simp [ho, show ¬ i < o by omega, show i - o < w ↔ i < o + w by omega]
  unfold clearMask
  dsimp only
  split_ifs with hlt
  · have hall := getLsbD_fieldMask (w := c) (show i < 64 by omega)
    rw [fieldMask, if_neg (by omega), decide_eq_true hi] at hall
    rw [getLsbD_and, hclear, hall, Bool.and_true]
  · exact hclear

end Masks

section Bits

variable {mem : Member} {ty : IntegerType} {unit value i : ℕ}

theorem mapType_le (ty : IntegerType) : mapType ty ≤ 64 := by
  unfold mapType
  split <;> decide

theorem getLsbD_ofNat_toNat {c : ℕ} {word : BitVec 64} (hi : i < c) :
    (BitVec.ofNat c word.toNat).getLsbD i = word.getLsbD i := by
  rw [getLsbD_ofNat, decide_eq_true hi, Bool.true_and, testBit_toNat]

theorem getLsbD_maskedValue (hi : i < mapType ty) :
    (maskedValue mem ty value).getLsbD i = (value.testBit i && decide (i < mem.bitWidth)) := by
  have hle := mapType_le ty
  unfold maskedValue
  rw [getLsbD_and, getLsbD_ofNat_toNat hi, getLsbD_fieldMask (by omega),
    getLsbD_ofNat, decide_eq_true hi, Bool.true_and]

theorem getLsbD_stored (hi : i < mapType ty) :
    (clearedUnit mem ty unit ||| maskedValue mem ty value <<< mem.bitOffset).getLsbD i =
      assignedBit mem unit value i := by
  have hle := mapType_le ty
  unfold clearedUnit assignedBit
  rw [getLsbD_or, getLsbD_and, getLsbD_ofNat_toNat hi, getLsbD_clearMask hi hle,
    getLsbD_ofNat, decide_eq_true hi, getLsbD_shiftLeft, decide_eq_true hi]
  rcases Nat.lt_or_ge i mem.bitOffset with ho | ho
  · simp [ho, show ¬ mem.bitOffset ≤ i by omega]
  · rw [getLsbD_maskedValue (by omega)]
    by_cases hfield : i < mem.bitOffset + mem.bitWidth
    · simp [ho, hfield, show ¬ i < mem.bitOffset by omega,
        show i - mem.bitOffset < mem.bitWidth by omega]
    · simp [ho, hfield, show ¬ i - mem.bitOffset < mem.bitWidth by omega]

end Bits

/-! ## Fields within their unit -/

section Within

variable {mem : Member} {ty : IntegerType} {unit value : ℕ}

theorem bits_of_ne_bool (h : ty.kind ≠ .TY_BOOL) : 8 * ty.size = mapType ty := by
  unfold IntegerType.size mapType
  cases hkind : ty.kind with
  | TY_BOOL => exact absurd hkind h
  | _ => rfl

variable (hwidth : mem.bitWidth ≠ 0) (hwithin : mem.bitOffset + mem.bitWidth ≤ mapType ty)
include hwidth hwithin

theorem readValue_eq : readValue mem ty unit =
    some (if isUnsignedType ty then
      ((BitVec.ofNat (mapType ty) unit).extractLsb' mem.bitOffset mem.bitWidth).setWidth
        (mapType ty)
    else ((BitVec.ofNat (mapType ty) unit).extractLsb' mem.bitOffset mem.bitWidth).signExtend
      (mapType ty)) := by
  have hle := mapType_le ty
  unfold readValue
  rw [shiftAmount_sub_of_le hwithin (by omega), shiftAmount_of_le (by omega) (by omega),
    shiftedBy_SHL (by omega), bind_some]
  split_ifs with hunsigned
  · rw [shiftedBy_SHR (by omega), shiftLeft_ushiftRight_eq _ hwithin]
  · rw [shiftedBy_SAR (by omega), shiftLeft_sshiftRight_eq _ (by omega) hwithin]

theorem storedUnit_eq : storedUnit mem ty unit value =
    some (clearedUnit mem ty unit ||| maskedValue mem ty value <<< mem.bitOffset) := by
  unfold storedUnit
  rw [shiftedBy_SHL (by omega)]
  rfl

omit hwidth in
theorem extractLsb'_stored : (clearedUnit mem ty unit ||| maskedValue mem ty value <<<
      mem.bitOffset).extractLsb' mem.bitOffset mem.bitWidth =
    (maskedValue mem ty value).extractLsb' 0 mem.bitWidth := by
  apply eq_of_getLsbD_eq
  intro i hi
  rw [getLsbD_extractLsb', getLsbD_extractLsb', getLsbD_stored (by omega),
    getLsbD_maskedValue (by omega)]
  unfold assignedBit
  rw [if_pos ⟨by omega, by omega⟩, show mem.bitOffset + i - mem.bitOffset = i by omega]
  simp [hi]

theorem assignmentValue_eq : assignmentValue mem ty value =
    some (if isUnsignedType ty then
      ((maskedValue mem ty value).extractLsb' 0 mem.bitWidth).setWidth (mapType ty)
    else ((maskedValue mem ty value).extractLsb' 0 mem.bitWidth).signExtend (mapType ty)) := by
  have hle := mapType_le ty
  unfold assignmentValue
  split_ifs with hunsigned
  · congr 1
    apply eq_of_getLsbD_eq
    intro i hi
    rw [getLsbD_setWidth, getLsbD_extractLsb', getLsbD_maskedValue hi,
      decide_eq_true hi, Bool.true_and, Nat.zero_add, getLsbD_maskedValue hi, Bool.and_comm]
    simp
  · rw [shiftAmount_of_le (by omega) (by omega), shiftedBy_SHL (by omega), bind_some,
      shiftedBy_SAR (by omega)]
    have hshifts := shiftLeft_sshiftRight_eq (o := 0) (maskedValue mem ty value)
      (show 0 < mem.bitWidth by omega) (by omega)
    rw [Nat.sub_zero] at hshifts
    rw [hshifts]

theorem valuesExact_within (hbits : 8 * ty.size = mapType ty) (rhsBits : ℕ) :
    ValuesExact mem ty rhsBits := by
  intro unit hunit value hvalue
  refine ⟨?_, _, _, storedUnit_eq hwidth hwithin, assignmentValue_eq hwidth hwithin, ?_, ?_⟩
  · rw [readValue_eq hwidth hwithin, map_some]
    unfold fieldValue
    rw [hbits]
    split_ifs <;> rfl
  · intro i hi
    rw [testBit_toNat, getLsbD_stored (by omega)]
  · rw [readValue_eq hwidth hwithin, ofNat_toNat_self, extractLsb'_stored hwithin]

end Within

/-! ## Fields wider than their unit -/

section Wide

variable {mem : Member} {ty : IntegerType} {unit value rhsBits : ℕ}

theorem mapType_le_bits (ty : IntegerType) : mapType ty ≤ 8 * ty.size := by
  unfold IntegerType.size mapType
  split <;> decide

theorem mapType_of_bool (h : ty.kind = .TY_BOOL) : mapType ty = 1 := by
  unfold mapType
  rw [h]

variable (hoffset : mem.bitOffset = 0) (hwide : 8 * ty.size < mem.bitWidth)
include hoffset hwide

omit hwide in
theorem readValue_wide (hamount : shiftAmount (mapType ty - mem.bitWidth) % 2 ^ mapType ty = 0) :
    readValue mem ty unit = some (BitVec.ofNat (mapType ty) unit) := by
  have hpos := mapType_pos ty
  unfold readValue
  rw [hoffset, Nat.cast_zero, sub_zero, shiftedBy_of_mod_eq_zero isShift_SHL hpos hamount,
    bind_some, shiftedBy_of_mod_eq_zero (isShift_right _) hpos hamount]

omit hoffset in
theorem maskedValue_wide : maskedValue mem ty value = BitVec.ofNat (mapType ty) value := by
  have hle := mapType_le_bits ty
  apply eq_of_getLsbD_eq
  intro i hi
  rw [getLsbD_maskedValue hi, getLsbD_ofNat, decide_eq_true hi,
    decide_eq_true (show i < mem.bitWidth by omega), Bool.and_true, Bool.true_and]

theorem storedUnit_wide : storedUnit mem ty unit value =
    some (BitVec.ofNat (mapType ty) value) := by
  have hle := mapType_le_bits ty
  have hpos := mapType_pos ty
  have hstored : clearedUnit mem ty unit ||| maskedValue mem ty value =
      BitVec.ofNat (mapType ty) value := by
    apply eq_of_getLsbD_eq
    intro i hi
    have hbit : (clearedUnit mem ty unit ||| maskedValue mem ty value <<< mem.bitOffset).getLsbD
        i = assignedBit mem unit value i := getLsbD_stored hi
    rw [hoffset, shiftLeft_zero] at hbit
    rw [hbit, getLsbD_ofNat, decide_eq_true hi, Bool.true_and]
    unfold assignedBit
    rw [if_pos ⟨by omega, by omega⟩, hoffset, Nat.sub_zero]
  unfold storedUnit
  rw [hoffset, shiftedBy_zero isShift_SHL hpos, map_some, ← hstored]
  unfold clearedUnit
  rw [hoffset]

theorem fieldValue_wide : fieldValue mem ty unit = (BitVec.ofNat (mapType ty) unit).toNat := by
  have hle := mapType_le_bits ty
  unfold fieldValue
  dsimp only
  have hfield (i : ℕ) (hi : i < mapType ty) :
      ((BitVec.ofNat (8 * ty.size) unit).extractLsb' mem.bitOffset mem.bitWidth).getLsbD i =
        (BitVec.ofNat (mapType ty) unit).getLsbD i := by
    rw [hoffset, BitVec.getLsbD_extractLsb', decide_eq_true (show i < mem.bitWidth by omega),
      Nat.zero_add, BitVec.getLsbD_ofNat, BitVec.getLsbD_ofNat,
      decide_eq_true (show i < 8 * ty.size by omega), decide_eq_true hi, Bool.true_and]
  split_ifs with hunsigned
  · congr 1
    apply BitVec.eq_of_getLsbD_eq
    intro i hi
    rw [BitVec.getLsbD_setWidth, decide_eq_true hi, Bool.true_and, hfield i hi]
  · congr 1
    apply BitVec.eq_of_getLsbD_eq
    intro i hi
    rw [BitVec.getLsbD_signExtend, decide_eq_true hi, Bool.true_and, if_pos (by omega), hfield i hi]

omit hoffset in
theorem assignmentValue_wide
    (hamount : shiftAmount (mapType ty - mem.bitWidth) % 2 ^ mapType ty = 0) :
    assignmentValue mem ty value = some (BitVec.ofNat (mapType ty) value) := by
  have hpos := mapType_pos ty
  unfold assignmentValue
  rw [maskedValue_wide hwide, shiftedBy_of_mod_eq_zero isShift_SHL hpos hamount, bind_some,
    shiftedBy_of_mod_eq_zero (.inr (.inr rfl)) hpos hamount, ite_self]

/-- The whole unit is read where the amounts wrap around to zero. -/
theorem valuesExact_wide (hbool : ty.kind = .TY_BOOL → rhsBits ≤ 1)
    (hamount : shiftAmount (mapType ty - mem.bitWidth) % 2 ^ mapType ty = 0) :
    ValuesExact mem ty rhsBits := by
  intro unit hunit value hvalue
  refine ⟨?_, _, _, storedUnit_wide hoffset hwide, assignmentValue_wide hwide hamount, ?_, ?_⟩
  · rw [readValue_wide hoffset hamount, map_some, fieldValue_wide hoffset hwide]
  · intro i hi
    unfold assignedBit
    rw [if_pos ⟨by omega, by omega⟩, hoffset, Nat.sub_zero, testBit_toNat, getLsbD_ofNat]
    by_cases hlow : i < mapType ty
    · rw [decide_eq_true hlow, Bool.true_and]
    · -- only the unit of a boolean is longer than its container
      have hkind : ty.kind = .TY_BOOL := by
        by_contra hne
        have := bits_of_ne_bool hne
        omega
      have hlt : value < 2 ^ i := by
        refine Nat.lt_of_lt_of_le hvalue (Nat.pow_le_pow_right (by decide) ?_)
        have := hbool hkind
        have := mapType_of_bool hkind
        omega
      rw [decide_eq_false hlow, Bool.false_and, Nat.testBit_lt_two_pow hlt]
  · rw [readValue_wide hoffset hamount, ofNat_toNat_self]

/-- The sign of the unit is lost where an amount is left. -/
theorem amount_of_valuesExact (h : ValuesExact mem ty rhsBits) :
    shiftAmount (mapType ty - mem.bitWidth) % 2 ^ mapType ty = 0 := by
  have hpos := mapType_pos ty
  have hle := mapType_le_bits ty
  by_contra hne
  have hunit : 2 ^ (mapType ty - 1) < 2 ^ (8 * ty.size) :=
    Nat.pow_lt_pow_right (by decide) (by omega)
  have hcontainer : 2 ^ (mapType ty - 1) < 2 ^ mapType ty :=
    Nat.pow_lt_pow_right (by decide) (by omega)
  obtain ⟨hread, -⟩ := h _ hunit 0 (Nat.two_pow_pos _)
  rw [fieldValue_wide hoffset hwide, toNat_ofNat, Nat.mod_eq_of_lt hcontainer] at hread
  unfold readValue at hread
  rw [hoffset, Nat.cast_zero, sub_zero] at hread
  rcases Nat.lt_or_ge (shiftAmount (mapType ty - mem.bitWidth) % 2 ^ mapType ty) (mapType ty)
    with hlt | hge
  · have hshl := shiftedBy_top hpos hne hlt
    rw [hshl, bind_some, shiftedBy_zero_value (isShift_right _) hlt] at hread
    have hzero : 0 = 2 ^ (mapType ty - 1) := by simpa using hread
    exact absurd hzero (Nat.two_pow_pos _).ne
  · rw [shiftedBy_of_le hge] at hread
    simp at hread

omit hoffset hwide in
theorem toNat_lt_of_bool (h : ty.kind = .TY_BOOL) (u : BitVec (mapType ty)) : u.toNat < 2 ^ 1 :=
  Nat.lt_of_lt_of_eq u.isLt (by rw [mapType_of_bool h])

omit hoffset hwide in
/-- The unit that is stored has the bits of the container only. -/
theorem value_lt_of_valuesExact (hoffset : mem.bitOffset = 0) (hwide : 8 * ty.size < mem.bitWidth)
    (hbool : ty.kind = .TY_BOOL) (h : ValuesExact mem ty rhsBits) : rhsBits ≤ 1 := by
  by_contra hlt
  have hvalue : 2 ^ 1 < 2 ^ rhsBits := Nat.pow_lt_pow_right (by decide) (by omega)
  have hsize : ty.size = 1 := by
    unfold IntegerType.size
    rw [hbool]
  obtain ⟨-, newUnit, result, -, -, hbits, -⟩ := h 0 (Nat.two_pow_pos _) 2 hvalue
  have hbit := hbits 1 (by omega)
  unfold assignedBit at hbit
  rw [if_pos ⟨by omega, by omega⟩, hoffset,
    Nat.testBit_lt_two_pow (toNat_lt_of_bool hbool newUnit)] at hbit
  exact absurd hbit (by decide)

end Wide

/-! ## Booleans -/

variable {mem : Member} {ty : IntegerType}

/-- A boolean's unit is stored as a number of a single bit. -/
theorem not_valuesExact_bool {rhsBits : ℕ}
    (hbool : ty.kind = .TY_BOOL) (hwithin : mem.bitOffset + mem.bitWidth ≤ 8) :
    ¬ ValuesExact mem ty rhsBits := by
  intro h
  have hone := mapType_of_bool hbool
  have hsize : ty.size = 1 := by
    unfold IntegerType.size
    rw [hbool]
  obtain ⟨hread, newUnit, result, hstored, -, hbits, -⟩ := h 255 (by rw [hsize]; decide) 0
    (Nat.two_pow_pos _)
  -- a bit outside the field is set and is not stored
  have hlost (i : ℕ) (hi : 1 ≤ i) (hlt : i < 8)
      (hout : ¬ (mem.bitOffset ≤ i ∧ i < mem.bitOffset + mem.bitWidth)) : False := by
    have hbit := hbits i (by omega)
    unfold assignedBit at hbit
    rw [if_neg hout, Nat.testBit_lt_two_pow (Nat.lt_of_lt_of_le (toNat_lt_of_bool hbool newUnit)
      (Nat.pow_le_pow_right (by decide) hi)), show 255 = 2 ^ 8 - 1 from rfl,
      Nat.testBit_two_pow_sub_one, decide_eq_true hlt] at hbit
    exact absurd hbit (by decide)
  rcases Nat.mod_two_eq_zero_or_one mem.bitOffset with heven | hodd
  · rcases Nat.eq_zero_or_pos mem.bitOffset with ho | ho
    · rcases Nat.lt_or_ge mem.bitWidth 8 with hw | hw
      · exact hlost 7 (by decide) (by decide) (by omega)
      · -- the amount of the first shift is odd
        have hw8 : mem.bitWidth = 8 := by omega
        unfold readValue at hread
        rw [shiftedBy_of_le (by rw [hone, ho, hw8]; decide)] at hread
        simp at hread
    · exact hlost 1 (by decide) (by decide) (by omega)
  · unfold storedUnit at hstored
    rw [shiftedBy_of_le (by rw [hone, pow_one, hodd])] at hstored
    simp at hstored

/-! ## The exact bit-fields -/

/-- A field of another type than a boolean within its unit, or a wider one whose difference to
the container is wrapped to zero, where a boolean has a value of a single bit only. -/
def HoldsBitfield (mem : Member) (ty : IntegerType) (rhsBits : ℕ) : Prop :=
  (mem.bitWidth ≤ 8 * ty.size ∧ ty.kind ≠ .TY_BOOL) ∨
    (8 * ty.size < mem.bitWidth ∧ 2 ^ min 16 (mapType ty) ∣ mem.bitWidth - mapType ty ∧
      (ty.kind = .TY_BOOL → rhsBits ≤ 1))

theorem valuesExact_iff (rhsBits : ℕ) (hwidth : mem.bitWidth ≠ 0)
    (hlayout : mem.bitOffset + mem.bitWidth ≤ 8 * ty.size ∨
      (8 * ty.size < mem.bitWidth ∧ mem.bitOffset = 0)) :
    ValuesExact mem ty rhsBits ↔ HoldsBitfield mem ty rhsBits := by
  have hle := mapType_le_bits ty
  unfold HoldsBitfield
  rcases hlayout with hwithin | ⟨hwide, hoffset⟩
  · by_cases hbool : ty.kind = .TY_BOOL
    · have hsize : ty.size = 1 := by
        unfold IntegerType.size
        rw [hbool]
      refine iff_of_false (not_valuesExact_bool hbool (by omega)) ?_
      rintro (⟨-, hne⟩ | ⟨hwide, -⟩)
      · exact hne hbool
      · omega
    · have hbits := bits_of_ne_bool hbool
      exact iff_of_true (valuesExact_within hwidth (by omega) hbits rhsBits)
        (.inl ⟨by omega, hbool⟩)
  · rw [← shiftAmount_mod_eq_zero_iff (by omega)]
    constructor
    · intro h
      exact .inr ⟨hwide, amount_of_valuesExact hoffset hwide h,
        fun hbool => value_lt_of_valuesExact hoffset hwide hbool h⟩
    · rintro (⟨hnarrow, -⟩ | ⟨-, hamount, hbool⟩)
      · omega
      · exact valuesExact_wide hoffset hwide hbool hamount

theorem layout_of_placed (h : PlacedBitfield mem ty) : mem.bitOffset + mem.bitWidth ≤ 8 * ty.size ∨
      (8 * ty.size < mem.bitWidth ∧ mem.bitOffset = 0) := by
  obtain ⟨hty, hbitfield, hwidth, ⟨isPacked, members, hmem⟩ | ⟨-, hoffset⟩⟩ := h
  · have hsize : mem.ty.size = ty.size := by rw [hty]; rfl
    have hpos : 0 < ty.size := by
      unfold IntegerType.size
      split <;> decide
    rw [← hsize]
    exact bitOffset_of_mem_structDecl hmem hbitfield hwidth (by omega)
  · omega

/-- A placed bit-field is accessed exactly if and only if it is within its unit and no boolean, or
the amounts wrap around to zero. -/
theorem bitfieldExact_iff (mp : LibTomMath) {mem : Member} {ty : IntegerType}
    (hplaced : PlacedBitfield mem ty) (rhsBits : ℕ) :
    BitfieldExact mp mem ty rhsBits ↔ HoldsBitfield mem ty rhsBits := by
  have hlayout := layout_of_placed hplaced
  have hoffset : mem.bitOffset < 2 ^ 16 := by
    have hle : ty.size ≤ 8 := by
      unfold IntegerType.size
      split <;> decide
    omega
  exact (bitfieldExact_iff_valuesExact mp hoffset).trans
    (valuesExact_iff rhsBits hplaced.2.2.1 hlayout)

/-- A signed field of three bits behind one of five. -/
theorem int_field_bitfieldExact : BitfieldExact FlexNumber.LibTomMath.exact
      ⟨.integer ⟨.TY_INT, false⟩, 4, true, 3, 0, 5⟩ ⟨.TY_INT, false⟩ 32 :=
  (bitfieldExact_iff _
    ⟨rfl, rfl, by decide, .inl ⟨false, [⟨.integer ⟨.TY_INT, false⟩, 4, true, 5, 0, 0⟩,
      ⟨.integer ⟨.TY_INT, false⟩, 4, true, 3, 0, 0⟩], by decide⟩⟩ 32).mpr
    (.inl ⟨by decide, by decide⟩)

/-- The second of two booleans of one bit in a unit. -/
theorem second_boolean_not_exact :
    ¬ ∀ (mp : LibTomMath) (mem : Member) (ty : IntegerType), PlacedBitfield mem ty →
      BitfieldExact mp mem ty 1 := by
  intro h
  have hexact := h FlexNumber.LibTomMath.exact
    ⟨.integer ⟨.TY_BOOL, false⟩, 1, true, 1, 0, 1⟩ ⟨.TY_BOOL, false⟩
    ⟨rfl, rfl, by decide, .inl ⟨false, [⟨.integer ⟨.TY_BOOL, false⟩, 1, true, 1, 0, 0⟩,
      ⟨.integer ⟨.TY_BOOL, false⟩, 1, true, 1, 0, 0⟩], by decide⟩⟩
  exact not_valuesExact_bool rfl (by decide)
    ((bitfieldExact_iff_valuesExact _ (by decide)).mp hexact)

end EzPacker.CFrontend
