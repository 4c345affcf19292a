import Mathlib.Data.Int.Log
import Mathlib.Data.Rat.Floor

/-!
# Rounding to binary digits

Rationals are rounded to the nearest multiple of a power of two, the even one of two. The
power comes from a number of digits, or from a format that also bounds it from below and the
numbers from above. A number that is rounded to digits first and to a format afterwards is
compared with one that is rounded once.
-/

namespace EzPacker.BinaryRounding

/-! ## The nearest integer -/

/-- The nearest integer, the even one of two. -/
def roundEven (x : ℚ) : ℤ :=
  if Int.fract x < 1 / 2 ∨ Int.fract x = 1 / 2 ∧ ⌊x⌋ % 2 = 0 then ⌊x⌋ else ⌊x⌋ + 1

def IsNearest (x : ℚ) (n : ℤ) : Prop := |x - n| < 1 / 2 ∨ |x - n| = 1 / 2 ∧ n % 2 = 0

theorem isNearest_roundEven (x : ℚ) : IsNearest x (roundEven x) := by
  have hsum := Int.floor_add_fract x
  have h0 := Int.fract_nonneg x
  have h1 := Int.fract_lt_one x
  have hlow : x - (⌊x⌋ : ℚ) = Int.fract x := by linarith
  have hhigh : x - ((⌊x⌋ + 1 : ℤ) : ℚ) = -(1 - Int.fract x) := by push_cast; linarith
  unfold roundEven IsNearest
  split
  · rename_i h
    rw [hlow, abs_of_nonneg h0]
    exact h
  · rename_i h
    rw [hhigh, abs_neg, abs_of_pos (by linarith)]
    by_cases hhalf : Int.fract x = 1 / 2
    · have hodd : ⌊x⌋ % 2 ≠ 0 := fun heven => h (.inr ⟨hhalf, heven⟩)
      exact .inr ⟨by linarith, by omega⟩
    · have hmore : 1 / 2 < Int.fract x :=
        lt_of_le_of_ne (not_lt.mp fun hless => h (.inl hless)) (Ne.symm hhalf)
      exact .inl (by linarith)

theorem IsNearest.abs_sub_le {x : ℚ} {n : ℤ} (h : IsNearest x n) : |x - n| ≤ 1 / 2 := by
  rcases h with h | ⟨h, -⟩
  · exact h.le
  · exact h.le

theorem IsNearest.unique {x : ℚ} {m n : ℤ} (hm : IsNearest x m) (hn : IsNearest x n) : m = n := by
  have hm' := abs_le.mp hm.abs_sub_le
  have hn' := abs_le.mp hn.abs_sub_le
  have hupper : m - n ≤ 1 := by
    have : (m : ℚ) - n ≤ 1 := by linarith
    exact_mod_cast this
  have hlower : n - m ≤ 1 := by
    have : (n : ℚ) - m ≤ 1 := by linarith
    exact_mod_cast this
  by_contra hne
  -- two neighbours are both nearest in the middle only, where one of them is odd
  rcases (by omega : m = n + 1 ∨ n = m + 1) with rfl | rfl
  · push_cast at hm'
    have hx : x = n + 1 / 2 := by linarith
    have hm2 : (n + 1) % 2 = 0 := by
      rcases hm with h | ⟨-, h⟩
      · rw [hx] at h; push_cast at h; norm_num at h
      · exact h
    have hn2 : n % 2 = 0 := by
      rcases hn with h | ⟨-, h⟩
      · rw [hx] at h; norm_num at h
      · exact h
    omega
  · push_cast at hn'
    have hx : x = m + 1 / 2 := by linarith
    have hn2 : (m + 1) % 2 = 0 := by
      rcases hn with h | ⟨-, h⟩
      · rw [hx] at h; push_cast at h; norm_num at h
      · exact h
    have hm2 : m % 2 = 0 := by
      rcases hm with h | ⟨-, h⟩
      · rw [hx] at h; norm_num at h
      · exact h
    omega

theorem roundEven_eq_iff {x : ℚ} {n : ℤ} : roundEven x = n ↔ IsNearest x n :=
  ⟨fun h => h ▸ isNearest_roundEven x, fun h => (isNearest_roundEven x).unique h⟩

@[simp]
theorem roundEven_intCast (n : ℤ) : roundEven n = n :=
  roundEven_eq_iff.mpr (.inl (by norm_num))

theorem roundEven_neg (x : ℚ) : roundEven (-x) = -roundEven x := by
  refine roundEven_eq_iff.mpr ?_
  have habs : |(-x : ℚ) - ((-roundEven x : ℤ) : ℚ)| = |x - roundEven x| := by
    rw [← abs_neg]; congr 1; push_cast; ring
  rcases isNearest_roundEven x with h | ⟨h, heven⟩
  · exact .inl (habs ▸ h)
  · exact .inr ⟨habs ▸ h, by omega⟩

theorem roundEven_mono {x y : ℚ} (h : x ≤ y) : roundEven x ≤ roundEven y := by
  by_contra hlt
  have hx := abs_le.mp (isNearest_roundEven x).abs_sub_le
  have hy := abs_le.mp (isNearest_roundEven y).abs_sub_le
  have hgap : (roundEven y : ℚ) + 1 ≤ roundEven x := by
    exact_mod_cast (by omega : roundEven y + 1 ≤ roundEven x)
  have heq : x = y := by linarith
  exact hlt (heq ▸ le_refl _)

/-! ## Multiples of a power of two -/

def OnGrid (q : ℤ) (x : ℚ) : Prop := ∃ n : ℤ, x = n * 2 ^ q

/-- The nearest multiple of a power of two. -/
def roundGrid (q : ℤ) (x : ℚ) : ℚ := roundEven (x / 2 ^ q) * 2 ^ q

variable {q k : ℤ} {x y : ℚ}

theorem two_zpow_pos (q : ℤ) : (0 : ℚ) < 2 ^ q := zpow_pos two_pos q

theorem two_zpow_add (a b : ℤ) : (2 : ℚ) ^ (a + b) = 2 ^ a * 2 ^ b := zpow_add₀ two_ne_zero a b

theorem two_zpow_le {a b : ℤ} (h : a ≤ b) : (2 : ℚ) ^ a ≤ 2 ^ b :=
  zpow_le_zpow_right₀ one_le_two h

theorem two_zpow_pred (q : ℤ) : (2 : ℚ) ^ (q - 1) = 2 ^ q / 2 := by
  rw [sub_eq_add_neg, two_zpow_add, zpow_neg_one]
  ring

theorem OnGrid.mono (h : OnGrid q x) (hle : k ≤ q) : OnGrid k x := by
  obtain ⟨n, rfl⟩ := h
  obtain ⟨d, rfl⟩ := Int.le.dest hle
  refine ⟨n * 2 ^ d, ?_⟩
  rw [two_zpow_add, zpow_natCast]
  push_cast
  ring

theorem onGrid_zero (q : ℤ) : OnGrid q 0 := ⟨0, by simp⟩

theorem onGrid_two_zpow (h : q ≤ k) : OnGrid q (2 ^ k) := OnGrid.mono ⟨1, by simp⟩ h

theorem OnGrid.neg (h : OnGrid q x) : OnGrid q (-x) := by
  obtain ⟨n, rfl⟩ := h
  exact ⟨-n, by push_cast; ring⟩

theorem OnGrid.abs (h : OnGrid q x) : OnGrid q |x| := by
  rcases abs_cases x with ⟨heq, -⟩ | ⟨heq, -⟩
  · rw [heq]; exact h
  · rw [heq]; exact h.neg

theorem onGrid_roundGrid (q : ℤ) (x : ℚ) : OnGrid q (roundGrid q x) := ⟨_, rfl⟩

theorem roundGrid_of_onGrid (h : OnGrid q x) : roundGrid q x = x := by
  obtain ⟨n, rfl⟩ := h
  rw [roundGrid, mul_div_cancel_right₀ _ (two_zpow_pos q).ne', roundEven_intCast]

@[simp]
theorem roundGrid_zero (q : ℤ) : roundGrid q 0 = 0 := roundGrid_of_onGrid (onGrid_zero q)

theorem roundGrid_neg (q : ℤ) (x : ℚ) : roundGrid q (-x) = -roundGrid q x := by
  rw [roundGrid, roundGrid, neg_div, roundEven_neg]
  push_cast
  ring

theorem roundGrid_mono (q : ℤ) (h : x ≤ y) : roundGrid q x ≤ roundGrid q y := by
  have hdiv : x / 2 ^ q ≤ y / 2 ^ q := div_le_div_of_nonneg_right h (two_zpow_pos q).le
  exact mul_le_mul_of_nonneg_right (by exact_mod_cast roundEven_mono hdiv) (two_zpow_pos q).le

theorem roundGrid_nonneg (q : ℤ) (h : 0 ≤ x) : 0 ≤ roundGrid q x := by
  have hmono := roundGrid_mono q h
  rwa [roundGrid_zero] at hmono

theorem abs_roundGrid (q : ℤ) (x : ℚ) : |roundGrid q x| = roundGrid q |x| := by
  rcases abs_cases x with ⟨heq, h0⟩ | ⟨heq, h0⟩
  · rw [heq, abs_of_nonneg (roundGrid_nonneg q h0)]
  · have hneg := roundGrid_nonneg q (show 0 ≤ -x by linarith)
    rw [heq, ← abs_neg, ← roundGrid_neg, abs_of_nonneg hneg]

theorem abs_sub_roundGrid_le (q : ℤ) (x : ℚ) : |x - roundGrid q x| ≤ 2 ^ (q - 1) := by
  have hpos := two_zpow_pos q
  have hscaled : x - roundGrid q x = (x / 2 ^ q - roundEven (x / 2 ^ q)) * 2 ^ q := by
    rw [roundGrid, sub_mul, div_mul_cancel₀ _ hpos.ne']
  rw [hscaled, abs_mul, abs_of_pos hpos, two_zpow_pred]
  have hnear := (isNearest_roundEven (x / 2 ^ q)).abs_sub_le
  calc |x / 2 ^ q - roundEven (x / 2 ^ q)| * 2 ^ q ≤ 1 / 2 * 2 ^ q :=
        mul_le_mul_of_nonneg_right hnear hpos.le
    _ = 2 ^ q / 2 := by ring

/-- A multiple that is close enough is the nearest. -/
theorem roundGrid_eq_of_lt (hy : OnGrid q y) (h : |x - y| < 2 ^ (q - 1)) : roundGrid q x = y := by
  obtain ⟨n, rfl⟩ := hy
  have hpos := two_zpow_pos q
  rw [two_zpow_pred] at h
  rw [roundGrid, roundEven_eq_iff.mpr (.inl ?_)]
  have hscaled : x / 2 ^ q - n = (x - n * 2 ^ q) / 2 ^ q := by
    rw [sub_div, mul_div_cancel_right₀ _ hpos.ne']
  rw [hscaled, abs_div, abs_of_pos hpos, div_lt_iff₀ hpos]
  linarith

theorem roundGrid_eq_zero_of_lt (h : |x| < 2 ^ (q - 1)) : roundGrid q x = 0 :=
  roundGrid_eq_of_lt (onGrid_zero q) (by rwa [sub_zero])

theorem abs_roundGrid_le (hy : OnGrid q y) (h : |x| ≤ y) : |roundGrid q x| ≤ y := by
  rw [abs_roundGrid, ← roundGrid_of_onGrid hy]
  exact roundGrid_mono q h

theorem le_abs_roundGrid (hy : OnGrid q y) (h : y ≤ |x|) : y ≤ |roundGrid q x| := by
  rw [abs_roundGrid, ← roundGrid_of_onGrid hy]
  exact roundGrid_mono q h

/-! ## Digits -/

/-- The position above the leading digit. -/
def magnitude (x : ℚ) : ℤ := Int.log 2 |x| + 1

theorem magnitude_le_iff (hx : x ≠ 0) : magnitude x ≤ k ↔ |x| < 2 ^ k := by
  have h := Int.lt_zpow_iff_log_lt one_lt_two (abs_pos.mpr hx) (x := k)
  rw [Nat.cast_ofNat] at h
  rw [h, magnitude]
  omega

theorem lt_two_zpow_magnitude (hx : x ≠ 0) : |x| < 2 ^ magnitude x :=
  (magnitude_le_iff hx).mp le_rfl

theorem two_zpow_le_of_lt_magnitude (hx : x ≠ 0) (h : k < magnitude x) : 2 ^ k ≤ |x| :=
  not_lt.mp fun hlt => absurd ((magnitude_le_iff hx).mpr hlt) (not_le.mpr h)

theorem two_zpow_pred_magnitude_le (hx : x ≠ 0) : 2 ^ (magnitude x - 1) ≤ |x| :=
  two_zpow_le_of_lt_magnitude hx (by omega)

theorem magnitude_eq (hlow : 2 ^ (k - 1) ≤ |x|) (hhigh : |x| < 2 ^ k) : magnitude x = k := by
  have hx : x ≠ 0 := abs_pos.mp (lt_of_lt_of_le (two_zpow_pos _) hlow)
  have hle := (magnitude_le_iff hx).mpr hhigh
  by_contra hne
  have hlt := (magnitude_le_iff hx).mp (show magnitude x ≤ k - 1 by omega)
  exact absurd hlow (not_le.mpr hlt)

/-- A number of at most `p` binary digits. -/
def HasBits (p : ℕ) (x : ℚ) : Prop := ∃ k : ℤ, OnGrid k x ∧ |x| < 2 ^ (k + p)

/-- The nearest number of `p` binary digits. -/
def roundPrecision (p : ℕ) (x : ℚ) : ℚ := roundGrid (magnitude x - p) x

variable {p : ℕ}

@[simp]
theorem roundPrecision_zero (p : ℕ) : roundPrecision p 0 = 0 := roundGrid_zero _

theorem HasBits.onGrid (h : HasBits p x) : OnGrid (magnitude x - p) x := by
  obtain ⟨k, hgrid, hlt⟩ := h
  by_cases hx : x = 0
  · exact hx ▸ onGrid_zero _
  · have hle := (magnitude_le_iff hx).mpr hlt
    exact hgrid.mono (by omega)

theorem HasBits.mono {p' : ℕ} (h : HasBits p x) (hle : p ≤ p') : HasBits p' x := by
  obtain ⟨k, hgrid, hlt⟩ := h
  exact ⟨k, hgrid, lt_of_lt_of_le hlt (two_zpow_le (by omega))⟩

theorem hasBits_zero (p : ℕ) : HasBits p 0 := ⟨0, onGrid_zero 0, by simp⟩

theorem roundPrecision_of_hasBits (h : HasBits p x) : roundPrecision p x = x :=
  roundGrid_of_onGrid h.onGrid

theorem abs_roundPrecision_le (hx : x ≠ 0) : |roundPrecision p x| ≤ 2 ^ magnitude x :=
  abs_roundGrid_le (onGrid_two_zpow (by omega)) (lt_two_zpow_magnitude hx).le

theorem le_abs_roundPrecision (hp : 1 ≤ p) (hx : x ≠ 0) :
    2 ^ (magnitude x - 1) ≤ |roundPrecision p x| :=
  le_abs_roundGrid (onGrid_two_zpow (by omega)) (two_zpow_pred_magnitude_le hx)

theorem roundPrecision_ne_zero (hp : 1 ≤ p) (hx : x ≠ 0) : roundPrecision p x ≠ 0 :=
  abs_pos.mp (lt_of_lt_of_le (two_zpow_pos _) (le_abs_roundPrecision hp hx))

theorem hasBits_of_abs_le (hp : 1 ≤ p) (hgrid : OnGrid k x) (hle : |x| ≤ 2 ^ (k + p)) :
    HasBits p x := by
  rcases hle.lt_or_eq with hlt | heq
  · exact ⟨k, hgrid, hlt⟩
  · -- a power of two has one digit
    refine ⟨k + 1, ?_, ?_⟩
    · have hpow := onGrid_two_zpow (show k + 1 ≤ k + p by omega)
      rcases abs_cases x with ⟨habs, -⟩ | ⟨habs, -⟩
      · rw [← habs, heq]; exact hpow
      · rw [show x = -|x| by linarith, heq]; exact hpow.neg
    · rw [heq]
      exact zpow_lt_zpow_right₀ one_lt_two (by omega)

theorem hasBits_roundPrecision (hp : 1 ≤ p) (x : ℚ) : HasBits p (roundPrecision p x) := by
  by_cases hx : x = 0
  · rw [hx, roundPrecision_zero]; exact hasBits_zero p
  · refine hasBits_of_abs_le hp (onGrid_roundGrid _ _) ?_
    rw [show magnitude x - p + (p : ℤ) = magnitude x by omega]
    exact abs_roundPrecision_le hx

theorem magnitude_roundPrecision_le (hp : 1 ≤ p) (x : ℚ) :
    magnitude (roundPrecision p x) ≤ magnitude x + 1 := by
  by_cases hx : x = 0
  · rw [hx, roundPrecision_zero]
    omega
  · refine (magnitude_le_iff (roundPrecision_ne_zero hp hx)).mpr ?_
    exact lt_of_le_of_lt (abs_roundPrecision_le hx) (zpow_lt_zpow_right₀ one_lt_two (by omega))

/-! ## Scaling -/

theorem roundGrid_mul_two_zpow (q e : ℤ) (x : ℚ) :
    roundGrid (q + e) (x * 2 ^ e) = roundGrid q x * 2 ^ e := by
  have hdiv : x * 2 ^ e / 2 ^ (q + e) = x / 2 ^ q := by
    rw [two_zpow_add, mul_div_mul_right _ _ (two_zpow_pos e).ne']
  rw [roundGrid, roundGrid, hdiv, two_zpow_add, mul_assoc]

theorem magnitude_mul_two_zpow (hx : x ≠ 0) (e : ℤ) : magnitude (x * 2 ^ e) = magnitude x + e := by
  have hpos := two_zpow_pos e
  refine magnitude_eq ?_ ?_
  · rw [abs_mul, abs_of_pos hpos, show magnitude x + e - 1 = magnitude x - 1 + e by ring,
      two_zpow_add]
    exact mul_le_mul_of_nonneg_right (two_zpow_pred_magnitude_le hx) hpos.le
  · rw [abs_mul, abs_of_pos hpos, two_zpow_add]
    exact mul_lt_mul_of_pos_right (lt_two_zpow_magnitude hx) hpos

theorem roundPrecision_mul_two_zpow (p : ℕ) (hx : x ≠ 0) (e : ℤ) :
    roundPrecision p (x * 2 ^ e) = roundPrecision p x * 2 ^ e := by
  rw [roundPrecision, magnitude_mul_two_zpow hx,
    show magnitude x + e - (p : ℤ) = magnitude x - p + e by ring, roundGrid_mul_two_zpow]
  rfl

/-- Digits either reach down to a position only, or the number is small. -/
theorem HasBits.onGrid_or_lt (h : HasBits p x) (k : ℤ) : OnGrid k x ∨ |x| < 2 ^ (k + p) := by
  obtain ⟨l, hgrid, hlt⟩ := h
  rcases le_or_gt k l with hle | hgt
  · exact .inl (hgrid.mono hle)
  · exact .inr (lt_of_lt_of_le hlt (two_zpow_le (by omega)))

/-! ## Formats -/

/-- Numbers of so many digits, multiples of a least power of two, below a greatest one. -/
structure Format where
  precision : ℕ
  minExponent : ℤ
  maxExponent : ℤ
  deriving DecidableEq, Repr

namespace Format

variable (F : Format)

structure Holds (x : ℚ) : Prop where
  onGrid : OnGrid F.minExponent x
  hasBits : HasBits F.precision x
  lt : |x| < 2 ^ F.maxExponent

/-- The last digit of the numbers of a format at the size of a number. -/
def grid (x : ℚ) : ℤ := max (magnitude x - F.precision) F.minExponent

/-- The nearest number of the format, nothing where it is too large. -/
def round (x : ℚ) : Option ℚ :=
  let y := roundGrid (F.grid x) x
  if y = 0 ∨ magnitude y ≤ F.maxExponent then some y else none

theorem zero_or_magnitude_le_iff : x = 0 ∨ magnitude x ≤ k ↔ |x| < 2 ^ k := by
  by_cases hx : x = 0
  · simp [hx, two_zpow_pos]
  · rw [magnitude_le_iff hx, or_iff_right hx]

theorem round_eq : F.round x =
    if |roundGrid (F.grid x) x| < 2 ^ F.maxExponent then some (roundGrid (F.grid x) x)
    else none := by
  unfold round
  simp only [zero_or_magnitude_le_iff]

variable {F}

theorem abs_lt_grid (x : ℚ) : |x| < 2 ^ (F.grid x + F.precision) := by
  by_cases hx : x = 0
  · simp [hx, two_zpow_pos]
  · refine (magnitude_le_iff hx).mp ?_
    have hle : magnitude x - F.precision ≤ F.grid x := le_max_left _ _
    omega

/-- Too large a number is rounded to none. -/
theorem round_eq_none (hp : 1 ≤ F.precision) (hmin : F.minExponent ≤ F.maxExponent)
    (h : 2 ^ F.maxExponent ≤ |x|) : F.round x = none := by
  have hx : x ≠ 0 := abs_pos.mp (lt_of_lt_of_le (two_zpow_pos _) h)
  have hmag : F.maxExponent < magnitude x := by
    by_contra hle
    exact absurd ((magnitude_le_iff hx).mp (not_lt.mp hle)) (not_lt.mpr h)
  have hgrid : F.grid x ≤ magnitude x - 1 := max_le (by omega) (by omega)
  rw [round_eq, if_neg (not_lt.mpr ?_)]
  calc (2 : ℚ) ^ F.maxExponent ≤ 2 ^ (magnitude x - 1) := two_zpow_le (by omega)
    _ ≤ |roundGrid (F.grid x) x| :=
        le_abs_roundGrid (onGrid_two_zpow hgrid) (two_zpow_pred_magnitude_le hx)

theorem holds_roundGrid (hp : 1 ≤ F.precision)
    (hlt : |roundGrid (F.grid x) x| < 2 ^ F.maxExponent) : F.Holds (roundGrid (F.grid x) x) where
  onGrid := (onGrid_roundGrid _ _).mono (le_max_right _ _)
  hasBits := hasBits_of_abs_le hp (onGrid_roundGrid _ _)
    (abs_roundGrid_le (onGrid_two_zpow (by omega)) (abs_lt_grid x).le)
  lt := hlt

theorem holds_of_round (hp : 1 ≤ F.precision) (h : F.round x = some y) : F.Holds y := by
  rw [round_eq] at h
  split at h
  · rename_i hlt
    obtain rfl := Option.some.inj h
    exact holds_roundGrid hp hlt
  · cases h

theorem Holds.onGrid_grid (h : F.Holds x) : OnGrid (F.grid x) x := by
  rcases max_choice (magnitude x - (F.precision : ℤ)) F.minExponent with heq | heq
  · rw [grid, heq]; exact h.hasBits.onGrid
  · rw [grid, heq]; exact h.onGrid

theorem round_of_holds (h : F.Holds x) : F.round x = some x := by
  rw [round_eq, roundGrid_of_onGrid h.onGrid_grid, if_pos h.lt]

theorem holds_zero (F : Format) : F.Holds 0 where
  onGrid := onGrid_zero _
  hasBits := hasBits_zero _
  lt := by simp [two_zpow_pos]

/-- A number that is rounded to the digits of a format, and is in it, is rounded to the format. -/
theorem round_of_holds_roundPrecision (h : F.Holds (roundPrecision F.precision x)) :
    F.round x = some (roundPrecision F.precision x) := by
  have hgrid : roundGrid (F.grid x) x = roundPrecision F.precision x := by
    rcases le_or_gt F.minExponent (magnitude x - F.precision) with hle | hgt
    · rw [grid, max_eq_left hle, roundPrecision]
    · rw [grid, max_eq_right hgt.le]
      refine roundGrid_eq_of_lt h.onGrid ?_
      calc |x - roundPrecision F.precision x| ≤ 2 ^ (magnitude x - F.precision - 1) :=
            abs_sub_roundGrid_le _ _
        _ < 2 ^ (F.minExponent - 1) := zpow_lt_zpow_right₀ one_lt_two (by omega)
  rw [round_eq, hgrid, if_pos h.lt]

theorem round_eq_zero_of_lt (hlt : |x| < 2 ^ (F.minExponent - 1)) : F.round x = some 0 := by
  by_cases hx : x = 0
  · subst hx
    exact round_of_holds (holds_zero F)
  · have hmag := (magnitude_le_iff hx).mpr hlt
    have hgrid : F.grid x = F.minExponent := max_eq_right (by omega)
    rw [round_eq, hgrid, roundGrid_eq_zero_of_lt hlt, if_pos (by simp [two_zpow_pos])]

/-- A number of few enough digits is rounded unless it is too large. -/
theorem exists_round_of_hasBits (hmax : F.minExponent + F.precision < F.maxExponent)
    (hbits : HasBits F.precision x) (hlt : |x| < 2 ^ F.maxExponent) : ∃ y, F.round x = some y := by
  have hle : |roundGrid (F.grid x) x| < 2 ^ F.maxExponent := by
    rcases le_or_gt F.minExponent (magnitude x - F.precision) with hle | hgt
    · rw [grid, max_eq_left hle, roundGrid_of_onGrid hbits.onGrid]
      exact hlt
    · have hgrid : F.grid x = F.minExponent := max_eq_right hgt.le
      have hsmall := abs_lt_grid (F := F) x
      rw [hgrid] at hsmall ⊢
      exact lt_of_le_of_lt (abs_roundGrid_le (onGrid_two_zpow (by omega)) hsmall.le)
        (zpow_lt_zpow_right₀ one_lt_two hmax)
  exact ⟨_, by rw [round_eq, if_pos hle]⟩

/-- Digits that a finer format keeps are rounded to a coarser one as if there were no finer one. -/
theorem round_of_round {G : Format} (hfine : G.precision ≤ F.precision)
    (hmin : F.minExponent + G.precision + 1 < G.minExponent)
    (hbits : HasBits G.precision x) (hround : F.round x = some y) : G.round y = G.round x := by
  rcases eq_or_ne x 0 with rfl | hx0
  · rw [Option.some.inj ((round_of_holds (holds_zero F)).symm.trans hround)]
  rcases hbits.onGrid_or_lt F.minExponent with hgrid | hlt
  · have hlt : |x| < 2 ^ F.maxExponent := by
      by_contra hge
      have hself : roundGrid (F.grid x) x = x := by
        refine roundGrid_of_onGrid ?_
        rcases max_choice (magnitude x - (F.precision : ℤ)) F.minExponent with heq | heq
        · rw [grid, heq]; exact (hbits.mono hfine).onGrid
        · rw [grid, heq]; exact hgrid
      rw [round_eq, hself, if_neg hge] at hround
      cases hround
    have hx : F.Holds x := ⟨hgrid, hbits.mono hfine, hlt⟩
    rw [Option.some.inj ((round_of_holds hx).symm.trans hround)]
  · have hy : |y| ≤ 2 ^ (F.minExponent + G.precision) := by
      have hgrid : F.grid x = F.minExponent := by
        have hmag := (magnitude_le_iff hx0).mpr hlt
        exact max_eq_right (by omega)
      rw [round_eq] at hround
      split at hround
      · obtain rfl := Option.some.inj hround
        rw [hgrid]
        exact abs_roundGrid_le (onGrid_two_zpow (by omega)) hlt.le
      · cases hround
    have hsmall : (2 : ℚ) ^ (F.minExponent + G.precision) < 2 ^ (G.minExponent - 1) :=
      zpow_lt_zpow_right₀ one_lt_two (by omega)
    rw [round_eq_zero_of_lt (lt_of_le_of_lt hy hsmall), round_eq_zero_of_lt (hlt.trans hsmall)]

/-! ## Rounding twice -/

/-- A middle between two multiples that a number was rounded to has the number on the side of
the even one, or is the number. -/
def TieKept (k : ℤ) (x r : ℚ) : Prop :=
  ∀ n : ℤ, r = (n + 1 / 2) * 2 ^ k → x = r ∨ (x < r ↔ n % 2 = 0)

theorem onGrid_middle (hlt : q < k) (n : ℤ) : OnGrid q ((n + 1 / 2) * 2 ^ k) := by
  refine OnGrid.mono ⟨2 * n + 1, ?_⟩ (show q ≤ k - 1 by omega)
  rw [two_zpow_pred]
  push_cast
  ring

theorem lt_of_roundGrid_lt (hy : OnGrid q y) (h : roundGrid q x < y) : x < y := by
  by_contra hle
  have hmono := roundGrid_mono q (not_lt.mp hle)
  rw [roundGrid_of_onGrid hy] at hmono
  exact absurd h (not_lt.mpr hmono)

theorem lt_of_lt_roundGrid (hy : OnGrid q y) (h : y < roundGrid q x) : y < x := by
  by_contra hle
  have hmono := roundGrid_mono q (not_lt.mp hle)
  rw [roundGrid_of_onGrid hy] at hmono
  exact absurd h (not_lt.mpr hmono)

theorem roundGrid_middle (k n : ℤ) :
    roundGrid k ((n + 1 / 2) * 2 ^ k) = (if n % 2 = 0 then n else n + 1 : ℤ) * 2 ^ k := by
  rw [roundGrid, mul_div_cancel_right₀ _ (two_zpow_pos k).ne']
  congr 2
  refine roundEven_eq_iff.mpr (.inr ?_)
  split
  · rename_i heven
    refine ⟨?_, heven⟩
    rw [add_sub_cancel_left]
    norm_num
  · rename_i hodd
    refine ⟨?_, by omega⟩
    push_cast
    rw [show (n : ℚ) + 1 / 2 - (n + 1) = -(1 / 2) by ring]
    norm_num

theorem roundGrid_roundGrid_iff (hlt : q < k) (x : ℚ) :
    roundGrid k (roundGrid q x) = roundGrid k x ↔ TieKept k x (roundGrid q x) := by
  have hpos := two_zpow_pos k
  have hnear := abs_le.mp (abs_sub_roundGrid_le q x)
  have hfine : (2 : ℚ) ^ (q - 1) ≤ 2 ^ k / 4 := by
    calc (2 : ℚ) ^ (q - 1) ≤ 2 ^ (k - 1 - 1) := two_zpow_le (by omega)
      _ = 2 ^ k / 4 := by rw [two_zpow_pred, two_zpow_pred]; ring
  by_cases hmiddle : ∃ n : ℤ, roundGrid q x = (n + 1 / 2) * 2 ^ k
  · obtain ⟨n, hn⟩ := hmiddle
    have hkept : TieKept k x (roundGrid q x) ↔
        (x = roundGrid q x ∨ (x < roundGrid q x ↔ n % 2 = 0)) := by
      refine ⟨fun h => h n hn, fun h m hm => ?_⟩
      have hmn : (m : ℚ) = n := by
        have := mul_right_cancel₀ hpos.ne' (hm.symm.trans hn)
        linarith
      rwa [show m = n by exact_mod_cast hmn]
    rw [hkept]
    rw [hn] at hnear ⊢
    rw [roundGrid_middle]
    rcases lt_trichotomy x ((n + 1 / 2) * 2 ^ k) with hless | heq | hmore
    · have hlow : roundGrid k x = n * 2 ^ k := by
        refine roundGrid_eq_of_lt ⟨n, rfl⟩ ?_
        rw [two_zpow_pred, abs_lt]
        constructor <;> linarith
      rw [hlow, mul_left_inj' hpos.ne', Int.cast_inj]
      simp only [hless, hless.ne, false_or, true_iff]
      split
      · simp [*]
      · simp [*]
    · rw [heq, roundGrid_middle]
      simp
    · have hhigh : roundGrid k x = (n + 1 : ℤ) * 2 ^ k := by
        refine roundGrid_eq_of_lt ⟨n + 1, rfl⟩ ?_
        rw [two_zpow_pred, abs_lt]
        push_cast
        constructor <;> linarith
      rw [hhigh, mul_left_inj' hpos.ne', Int.cast_inj]
      simp only [not_lt.mpr hmore.le, hmore.ne', false_or, false_iff]
      split
      · simp [*]
      · simp [*]
  · refine iff_of_true ?_ fun n hn => absurd ⟨n, hn⟩ hmiddle
    -- away from the middles both numbers lie on one side of each
    obtain ⟨n, hn⟩ := onGrid_roundGrid k (roundGrid q x)
    have hle := abs_le.mp (abs_sub_roundGrid_le k (roundGrid q x))
    rw [hn, two_zpow_pred] at hle
    have hupper : roundGrid q x < (n + 1 / 2) * 2 ^ k :=
      lt_of_le_of_ne (by linarith) fun h => hmiddle ⟨n, h⟩
    have hlower : ((n - 1 : ℤ) + 1 / 2) * 2 ^ k < roundGrid q x :=
      lt_of_le_of_ne (by push_cast; linarith) fun h => hmiddle ⟨n - 1, h.symm⟩
    have hx := lt_of_roundGrid_lt (onGrid_middle hlt n) hupper
    have hx' := lt_of_lt_roundGrid (onGrid_middle hlt (n - 1)) hlower
    push_cast at hx'
    rw [hn]
    refine (roundGrid_eq_of_lt ⟨n, rfl⟩ ?_).symm
    rw [two_zpow_pred, abs_lt]
    constructor <;> linarith

/-- Rounding to the digits of a format first changes the result at a lost tie only. -/
theorem round_roundPrecision_iff (hp : 1 ≤ F.precision)
    (hmax : F.minExponent + F.precision < F.maxExponent) (x : ℚ) :
    F.round (roundPrecision F.precision x) = F.round x ↔
      TieKept F.minExponent x (roundPrecision F.precision x) := by
  rcases le_or_gt F.minExponent (magnitude x - F.precision) with hle | hgt
  · -- the digits end above the least multiple: one rounding
    have hgrid : OnGrid F.minExponent (roundPrecision F.precision x) :=
      (onGrid_roundGrid _ _).mono hle
    have hkept : TieKept F.minExponent x (roundPrecision F.precision x) := by
      intro n hn
      obtain ⟨m, hm⟩ := hgrid
      have hmn : (m : ℚ) = n + 1 / 2 :=
        mul_right_cancel₀ (two_zpow_pos F.minExponent).ne' (hm.symm.trans hn)
      have htwice : (2 * m : ℤ) = 2 * n + 1 := by
        have : (2 * m : ℚ) = 2 * n + 1 := by linarith
        exact_mod_cast this
      omega
    refine iff_of_true ?_ hkept
    have hself : roundGrid (F.grid (roundPrecision F.precision x)) (roundPrecision F.precision x) =
        roundPrecision F.precision x := by
      refine roundGrid_of_onGrid ?_
      rcases max_choice (magnitude (roundPrecision F.precision x) - (F.precision : ℤ))
        F.minExponent with heq | heq
      · rw [grid, heq]; exact (hasBits_roundPrecision hp x).onGrid
      · rw [grid, heq]; exact hgrid
    have hx : roundGrid (F.grid x) x = roundPrecision F.precision x := by
      rw [grid, max_eq_left hle, roundPrecision]
    rw [round_eq, round_eq, hself, hx]
  · have hx : F.grid x = F.minExponent := max_eq_right hgt.le
    have hr : F.grid (roundPrecision F.precision x) = F.minExponent := by
      have hmag := magnitude_roundPrecision_le hp x
      exact max_eq_right (by omega)
    have hsmall (y : ℚ) (hy : F.grid y = F.minExponent) :
        |roundGrid F.minExponent y| < 2 ^ F.maxExponent := by
      have hlt := abs_lt_grid (F := F) y
      rw [hy] at hlt
      exact lt_of_le_of_lt (abs_roundGrid_le (onGrid_two_zpow (by omega)) hlt.le)
        (zpow_lt_zpow_right₀ one_lt_two hmax)
    rw [round_eq, round_eq, hx, hr, if_pos (hsmall _ hr), if_pos (hsmall x hx), Option.some_inj]
    exact roundGrid_roundGrid_iff (by omega) x

end Format

end EzPacker.BinaryRounding
