import EzPacker.FlexNumber.FlexFloat
import EzPacker.Lib.Run

/-!
# Sequences of float operations

Objects of the four widths of the IEEE formats are constructed, computed with and extended. An
operation is right when every object holds a number of the format of its width afterwards, whether
it threw or not, and a result is the exact rational rounded once.
-/

namespace EzPacker.FlexNumber

open Function Option BinaryRounding

namespace BfNumber

def rational : BfNumber → Option ℚ
  | nan => none
  | inf _ => none
  | zero _ => some 0
  | b@(finite _ _ _ _) => some b.value

/-- A NaN, an infinity, a zero or a number of a format. -/
def InFormat (F : Format) (b : BfNumber) : Prop := ∀ x, b.rational = some x → F.Holds x

/-- The number of a rational rounded once, an infinity where it is too large. -/
def IsRounded (F : Format) (x : ℚ) (b : BfNumber) : Prop :=
  b.rational = F.round x ∧ (F.round x = none → ∃ s, b = inf s)

end BfNumber

namespace FlexFloat

open BfNumber (rational InFormat IsRounded Represents rounded)

variable (lib : LibBf)

def widths : List ℕ := [16, 32, 64, 128]

def ieeeFormatOf (w : ℕ) : Format :=
  if w = 16 then binary16
  else if w = 32 then binary32
  else if w = 64 then BfNumber.binary64
  else binary128

/-! ## Objects and operations -/

/-- A number of a type of the machine. -/
structure Native (F : Format) where
  number : BfNumber
  inFormat : InFormat F number

abbrev Store := ℕ → Option FlexFloat

inductive Operation
  | ofWidth (dst w : ℕ)
  | ofFloat (dst : ℕ) (value : Native binary32)
  | ofDouble (dst : ℕ) (value : Native BfNumber.binary64)
  | ofText (dst : ℕ) (text : List Char) (w radix : ℕ)
  | copy (dst src : ℕ)
  | move (dst src : ℕ)
  | add (dst src : ℕ)
  | sub (dst src : ℕ)
  | mul (dst src : ℕ)
  | div (dst src : ℕ)
  | extend (dst newBitSize : ℕ)

def Operation.dst : Operation → ℕ
  | ofWidth dst _ => dst
  | ofFloat dst _ => dst
  | ofDouble dst _ => dst
  | ofText dst _ _ _ => dst
  | copy dst _ => dst
  | move dst _ => dst
  | add dst _ => dst
  | sub dst _ => dst
  | mul dst _ => dst
  | div dst _ => dst
  | extend dst _ => dst

def object (s : Store) (i : ℕ) : Option FlexFloat := (s i).filter fun f => f.bitWidth ∈ widths

def noObject : String := "no object of these widths"

/-- A constructor that throws leaves the objects as they are. -/
def construct (s : Store) (dst : ℕ) (r : Except String FlexFloat) : Store × Option String :=
  match r with
  | .ok f => (update s dst (some f), none)
  | .error error => (s, some error)

/-- An object is overwritten, also by an operation that throws. -/
def overwrite (s : Store) (dst : ℕ) (r : FlexFloat × Option String) : Store × Option String :=
  (update s dst (some r.1), r.2)

def onObject (s : Store) (i : ℕ) (action : FlexFloat → Store × Option String) :
    Store × Option String :=
  match object s i with
  | some f => action f
  | none => (s, some noObject)

def onObjects (s : Store) (i j : ℕ) (action : FlexFloat → FlexFloat → Store × Option String) :
    Store × Option String :=
  onObject s i fun f => onObject s j fun g => action f g

/-- The objects after an operation, and the error that was thrown. -/
def perform (s : Store) : Operation → Store × Option String
  | .ofWidth dst w => if w ∈ widths then construct s dst (ofWidth w) else (s, some noObject)
  | .ofFloat dst value => construct s dst (ofFloat lib value.number)
  | .ofDouble dst value => construct s dst (ofDouble lib value.number)
  | .ofText dst text w radix =>
    if w ∈ widths then construct s dst (ofText lib text w radix) else (s, some noObject)
  | .copy dst src => onObject s src fun f => (update s dst (some f), none)
  -- the object that is moved from has no number left
  | .move dst src => onObject s src fun f =>
    (update (update s src none) dst (some f), none)
  | .add dst src => onObjects s dst src fun f g => overwrite s dst (addAssign lib f g)
  | .sub dst src => onObjects s dst src fun f g => overwrite s dst (subAssign lib f g)
  | .mul dst src => onObjects s dst src fun f g => overwrite s dst (mulAssign lib f g)
  | .div dst src => onObjects s dst src fun f g => overwrite s dst (divAssign lib f g)
  | .extend dst newBitSize => onObject s dst fun f => overwrite s dst (extend lib f newBitSize)

def rationalOf (s : Store) (i : ℕ) : Option ℚ := object s i >>= fun f => f.number.rational

def exactResult (s : Store) : Operation → Option ℚ
  | .ofWidth _ _ => some 0
  | .ofFloat _ value => value.number.rational
  | .ofDouble _ value => value.number.rational
  | .ofText _ text _ radix => (lib.textValue text radix).map Prod.snd
  | .copy _ src => rationalOf s src
  | .move _ src => rationalOf s src
  | .add dst src => do return (← rationalOf s dst) + (← rationalOf s src)
  | .sub dst src => do return (← rationalOf s dst) - (← rationalOf s src)
  | .mul dst src => do return (← rationalOf s dst) * (← rationalOf s src)
  | .div dst src => do return (← rationalOf s dst) / (← rationalOf s src)
  | .extend dst _ => rationalOf s dst

/-- Every object of the widths holds a number of its format. -/
def AllInFormat (s : Store) : Prop :=
  ∀ i f, object s i = some f → InFormat (ieeeFormatOf f.bitWidth) f.number

/-- Afterwards all objects hold numbers of their formats, and the result is rounded once. -/
structure IsRight (s : Store) (op : Operation) : Prop where
  allInFormat : AllInFormat (perform lib s op).1
  isRounded : (perform lib s op).2 = none → ∀ f, object (perform lib s op).1 op.dst = some f →
    ∀ x, exactResult lib s op = some x → IsRounded (ieeeFormatOf f.bitWidth) x f.number

def step (s : Store) (op : Operation) : Store := (perform lib s op).1

/-! ## The condition -/

/-- The rational rounded to the digits of the width alone. -/
def digitsOf (w : ℕ) (x : ℚ) : ℚ := roundPrecision (getPrecBits w) x

/-- The number that the digits of the width give is one of the format. At 32 bits it is rounded to
the format a second time: it is below the range, and a tie between subnormal numbers is the rational
itself or has it on the side of the even one. What leaves the range of the library is a zero or an
infinity. -/
def ResultFits (w : ℕ) (x : ℚ) : Prop :=
  x = 0 ∨ magnitude (digitsOf w x) < BfNumber.expMin ∨ BfNumber.expMax < magnitude (digitsOf w x) ∨
    if w = 32 then
      |digitsOf w x| < 2 ^ binary32.maxExponent ∧
        Format.TieKept binary32.minExponent x (digitsOf w x)
    else (ieeeFormatOf w).Holds (digitsOf w x)

/-- A result that is too large for 32 or 64 bits throws. -/
def Throws (w : ℕ) (x : ℚ) : Prop :=
  (w = 32 ∨ w = 64) ∧ magnitude (digitsOf w x) ≤ BfNumber.expMax ∧
    2 ^ (ieeeFormatOf w).maxExponent ≤ |digitsOf w x|

def IsRead (text : List Char) (w radix : ℕ) : Prop :=
  text ≠ [] ∧ 2 ≤ radix ∧ radix ≤ 36 ∧ (lib.bfAtof text radix (getPrecBits w)).2 ≠ 0

def Fits (s : Store) : Operation → Prop
  | .ofText _ text w radix => w ∈ widths → IsRead lib text w radix →
      ∀ x ∈ (lib.textValue text radix).map Prod.snd, Throws w x ∨ ResultFits w x
  | .add dst src => ∀ f ∈ object s dst, ∀ x ∈ exactResult lib s (.add dst src),
      ResultFits f.bitWidth x
  | .sub dst src => ∀ f ∈ object s dst, ∀ x ∈ exactResult lib s (.sub dst src),
      ResultFits f.bitWidth x
  | .mul dst src => ∀ f ∈ object s dst, ∀ x ∈ exactResult lib s (.mul dst src),
      ResultFits f.bitWidth x
  | .div dst src => rationalOf s src ≠ some 0 → ∀ f ∈ object s dst,
      ∀ x ∈ exactResult lib s (.div dst src), ResultFits f.bitWidth x
  | _ => True

/-! ## The range check on a rounded number -/

variable {F : Format} {f : FlexFloat}

section Checking

variable {w : ℕ} {b : BfNumber} {x r : ℚ}

theorem rational_of_represents (h : Represents b r) : b.rational = some r := by
  obtain ⟨s, m, k, hodd, rfl, rfl⟩ := h
  rfl

theorem rational_roundedIn (s : Bool) (hmax : 0 < F.maxExponent) (h : F.round x = some r) :
    (BfNumber.roundedIn F s x).rational = some r := by
  rcases eq_or_ne r 0 with rfl | hr
  · rw [BfNumber.roundedIn_of_zero _ hmax h]
    rfl
  · exact rational_of_represents (BfNumber.represents_roundedIn _ hr h)

theorem inFormat_of_rational (hb : b.rational = some r) : InFormat F b ↔ F.Holds r := by
  unfold InFormat
  rw [hb]
  exact ⟨fun h => h r rfl, fun h y hy => some.inj hy ▸ h⟩

theorem inFormat_of_none (hb : b.rational = none) : InFormat F b := by
  intro x hx
  rw [hb] at hx
  cases hx

theorem mem_widths : w ∈ widths ↔ w = 16 ∨ w = 32 ∨ w = 64 ∨ w = 128 := by simp [widths]

theorem ieeeFormatOf_facts (hw : w ∈ widths) : (ieeeFormatOf w).precision = getPrecBits w ∧
      (ieeeFormatOf w).minExponent + getPrecBits w < (ieeeFormatOf w).maxExponent ∧
      2 ≤ getPrecBits w ∧ getPrecBits w ≤ 113 ∧
      BfNumber.expMin < (ieeeFormatOf w).minExponent ∧
      (ieeeFormatOf w).maxExponent < BfNumber.expMax := by
  rcases mem_widths.mp hw with rfl | rfl | rfl | rfl <;> decide

theorem precision_le (hw : w ∈ widths) : 2 ≤ getPrecBits w ∧ getPrecBits w ≤ BF_PREC_MAX := by
  obtain ⟨-, -, hp, hmax, -, -⟩ := ieeeFormatOf_facts hw
  exact ⟨hp, hmax.trans (by decide)⟩

theorem clamp_of_not_finite (hb : b.bfIsFinite = false) :
    clampToFloatBounds lib ⟨w, b⟩ = (⟨w, b⟩, none) := by
  simp [clampToFloatBounds, hb]

theorem clamp_zero (hw : w ∈ widths) (s : Bool) :
    clampToFloatBounds lib ⟨w, .zero s⟩ = (⟨w, .zero s⟩, none) := by
  have hround (p : ℕ) (hp : 2 ≤ p) (hmax : p ≤ BF_PREC_MAX) :
      lib.bfRound (.zero s) p = .zero s := lib.round_eq _ p hp hmax
  have hfloat : lib.bfGetFloat64 (.zero s) = .zero s := lib.getFloat64_eq _
  have hexceeds (s : Bool) : exceeds (.zero s) floatMax = false := by
    refine decide_eq_false (not_lt.mpr ?_)
    show (0 : ℚ) ≤ floatMax
    unfold floatMax
    norm_num
  rcases mem_widths.mp hw with rfl | rfl | rfl | rfl
  · simp [clampToFloatBounds, hround 11 (by decide) (by decide)]
  · simp [clampToFloatBounds, hfloat, hexceeds, BfNumber.negated, BfNumber.mapFinite]
  · simp [clampToFloatBounds, hfloat]
  · simp [clampToFloatBounds, hround (getPrecBits 128) (by decide) (by decide)]

/-- Objects of 16 and 128 bits are rounded to the digits again. -/
theorem clamp_digits (hw : w = 16 ∨ w = 128) (h : Represents b r)
    (hbits : HasBits (getPrecBits w) r) (hlow : BfNumber.expMin ≤ magnitude r)
    (hhigh : magnitude r ≤ BfNumber.expMax) :
    clampToFloatBounds lib ⟨w, b⟩ = (⟨w, b⟩, none) := by
  obtain ⟨hp, hmax⟩ := precision_le (w := w) (mem_widths.mpr (by omega))
  refine clampToFloatBounds_keeps lib h ⟨hbits, hlow, hhigh, ?_, ?_⟩ hp hmax
  · intro hw'; omega
  · intro hw'; omega

theorem getFloat64_cases (h : Represents b r) :
    (BfNumber.binary64.round r = none ∧ lib.bfGetFloat64 b = .inf b.sign) ∨
      ∃ y, BfNumber.binary64.round r = some y ∧ (lib.bfGetFloat64 b).rational = some y := by
  have hfloat : lib.bfGetFloat64 b = BfNumber.roundedIn BfNumber.binary64 b.sign r := by
    rw [lib.getFloat64_eq, h.mapFinite_eq]
  cases hround : BfNumber.binary64.round r with
  | none => exact .inl ⟨rfl, by rw [hfloat, BfNumber.roundedIn_of_none _ hround]⟩
  | some y =>
    refine .inr ⟨y, rfl, ?_⟩
    rw [hfloat]
    exact rational_roundedIn _ (by decide) hround

theorem round_binary64_none_iff (hbits : HasBits 53 r) :
    BfNumber.binary64.round r = none ↔ 2 ^ BfNumber.binary64.maxExponent ≤ |r| := by
  constructor
  · intro hnone
    by_contra hlt
    obtain ⟨y, hy⟩ := Format.exists_round_of_hasBits (F := BfNumber.binary64) (by decide) hbits
      (not_le.mp hlt)
    rw [hnone] at hy
    cases hy
  · exact Format.round_eq_none (by decide) (by decide)

/-- Objects of 64 bits keep the digits; the check throws for too large a number. -/
theorem clamp_double (h : Represents b r) (hbits : HasBits 53 r) : clampToFloatBounds lib ⟨64, b⟩ =
      (⟨64, b⟩, if 2 ^ BfNumber.binary64.maxExponent ≤ |r| then some overflow64 else none) := by
  have hfinite : b.bfIsFinite = true ∧ b.bfIsNan = false := by
    obtain ⟨s, m, k, hodd, rfl, -⟩ := h
    exact ⟨rfl, rfl⟩
  have hnone := round_binary64_none_iff hbits
  rcases getFloat64_cases lib h with ⟨hround, hfloat⟩ | ⟨y, hround, hfloat⟩
  · rw [if_pos (hnone.mp hround)]
    simp [clampToFloatBounds, hfinite, hfloat]
  · have hlt : ¬2 ^ BfNumber.binary64.maxExponent ≤ |r| := fun hle => by
      rw [hnone.mpr hle] at hround
      cases hround
    rw [if_neg hlt]
    cases hresult : lib.bfGetFloat64 b with
    | inf s | nan => rw [hresult] at hfloat; cases hfloat
    | zero s | finite s m k hodd => simp [clampToFloatBounds, hfinite, hresult]

theorem exceeds_of_rational (hb : b.rational = some r) (bound : ℚ) :
    exceeds b bound = decide (bound < r) := by
  cases b with
  | nan | inf s => cases hb
  | zero s | finite s m k hodd => cases hb; rfl

theorem rational_negated (b : BfNumber) : b.negated.rational = b.rational.map fun x => -x := by
  cases b with
  | nan | inf s => rfl
  | zero s => simp [BfNumber.negated, rational]
  | finite s m k hodd =>
    cases s <;> simp [BfNumber.negated, rational, BfNumber.value]

theorem floatMax_onGrid : OnGrid 104 floatMax :=
  ⟨2 ^ 24 - 1, by
    rw [floatMax, show ((2 : ℚ) ^ (104 : ℤ)) = 2 ^ 104 from zpow_natCast 2 104]
    norm_num⟩

theorem abs_le_floatMax_of_hasBits (hbits : HasBits 24 r) (hlt : |r| < 2 ^ binary32.maxExponent) :
    |r| ≤ floatMax := by
  have hle := abs_le_of_hasBits (k := 104) hbits hlt
  rwa [show ((2 : ℚ) ^ (104 : ℤ)) = 2 ^ 104 from zpow_natCast 2 104] at hle

theorem floatMax_lt : floatMax < 2 ^ binary32.maxExponent := by
  rw [show ((2 : ℚ) ^ binary32.maxExponent) = 2 ^ 128 from zpow_natCast 2 128, floatMax]
  norm_num

/-- The value that is compared with the greatest `float`. -/
theorem round_binary64_of_large {y : ℚ} (hbits : HasBits 24 r)
    (hle : 2 ^ binary32.maxExponent ≤ |r|) (hround : BfNumber.binary64.round r = some y) :
    y = r := by
  have hlt : |r| < 2 ^ BfNumber.binary64.maxExponent := by
    by_contra hge
    rw [(round_binary64_none_iff (hbits.mono (by decide))).mpr (not_lt.mp hge)] at hround
    cases hround
  rcases hbits.onGrid_or_lt BfNumber.binary64.minExponent with hgrid | hsmall
  · have hholds : BfNumber.binary64.Holds r := ⟨hgrid, hbits.mono (by decide), hlt⟩
    exact some.inj (hround.symm.trans (Format.round_of_holds hholds))
  · exact absurd (hle.trans_lt hsmall) (not_lt.mpr (two_zpow_le (by decide)))

theorem abs_round_binary64_le {y : ℚ} (hr0 : r ≠ 0) (hbits : HasBits 24 r)
    (hlt : |r| < 2 ^ binary32.maxExponent) (hround : BfNumber.binary64.round r = some y) :
    |y| ≤ floatMax := by
  have hmag : magnitude r ≤ 128 := (magnitude_le_iff hr0).mpr hlt
  have hgrid : BfNumber.binary64.grid r ≤ 104 := by
    refine max_le ?_ (by decide)
    show magnitude r - 53 ≤ 104
    omega
  rw [Format.round_eq] at hround
  split at hround
  · obtain rfl := some.inj hround
    exact abs_roundGrid_le (floatMax_onGrid.mono hgrid) (abs_le_floatMax_of_hasBits hbits hlt)
  · cases hround

/-- Objects of 32 bits: the check throws for too large a number, and rounds to the format after the
digits. -/
theorem clamp_single (h : Represents b r) (hbits : HasBits 24 r) : (2 ^ binary32.maxExponent ≤ |r| ∧
        ∃ error, clampToFloatBounds lib ⟨32, b⟩ = (⟨32, b⟩, some error)) ∨
      |r| < 2 ^ binary32.maxExponent ∧ ∃ b', clampToFloatBounds lib ⟨32, b⟩ = (⟨32, b'⟩, none) ∧
        ∃ y, binary32.round r = some y ∧ b'.rational = some y := by
  have hfinite : b.bfIsFinite = true ∧ b.bfIsNan = false := by
    obtain ⟨s, m, k, hodd, rfl, -⟩ := h
    exact ⟨rfl, rfl⟩
  rcases getFloat64_cases lib h with ⟨hround, hfloat⟩ | ⟨y, hround, hfloat⟩
  · have hlarge := (round_binary64_none_iff (hbits.mono (by decide))).mp hround
    refine .inl ⟨(two_zpow_le (by decide)).trans hlarge, ?_⟩
    cases hs : b.sign
    · exact ⟨overflow32, by simp [clampToFloatBounds, hfinite, hfloat, hs, exceeds]⟩
    · exact ⟨underflow32, by
        simp [clampToFloatBounds, hfinite, hfloat, hs, exceeds, BfNumber.negated]⟩
  · have hneg : (lib.bfGetFloat64 b).negated.rational = some (-y) := by
      rw [rational_negated, hfloat]
      rfl
    have hupper := exceeds_of_rational hfloat floatMax
    have hlower := exceeds_of_rational hneg floatMax
    rcases le_or_gt (2 ^ binary32.maxExponent) |r| with hle | hlt
    · obtain rfl := round_binary64_of_large hbits hle hround
      have habove : floatMax < |y| := floatMax_lt.trans_le hle
      refine .inl ⟨hle, ?_⟩
      by_cases hpos : floatMax < y
      · exact ⟨overflow32, by simp [clampToFloatBounds, hfinite, hupper, hpos]⟩
      · have hbelow : floatMax < -y := by
          rcases abs_cases y with ⟨habs, -⟩ | ⟨habs, -⟩
          · rw [habs] at habove; exact absurd habove hpos
          · rwa [habs] at habove
        exact ⟨underflow32, by simp [clampToFloatBounds, hfinite, hupper, hpos, hlower, hbelow]⟩
    · have habs := abs_le.mp (abs_round_binary64_le h.ne_zero hbits hlt hround)
      have hpos : ¬floatMax < y := not_lt.mpr habs.2
      have hbelow : ¬floatMax < -y := not_lt.mpr (by linarith [habs.1])
      obtain ⟨z, hz⟩ := Format.exists_round_of_hasBits (F := binary32) (by decide) hbits hlt
      have htwice : binary32.round y = some z := by
        rw [← hz]
        exact Format.round_of_round (by decide) (by decide) hbits hround
      refine .inr ⟨hlt, (lib.bfGetFloat64 b).mapFinite (BfNumber.roundedIn binary32), ?_, z, hz, ?_⟩
      · simp [clampToFloatBounds, hfinite, hupper, hpos, hlower, hbelow]
      · cases hresult : lib.bfGetFloat64 b with
        | nan | inf s => rw [hresult] at hfloat; cases hfloat
        | zero s =>
          rw [hresult] at hfloat
          obtain rfl := some.inj hfloat
          rw [← htwice, Format.round_of_holds (Format.holds_zero _)]
          rfl
        | finite s m k hodd =>
          rw [hresult] at hfloat
          obtain rfl := some.inj hfloat
          exact rational_roundedIn s (by decide) htwice

end Checking

/-- The object holds a number of its format, and the exact result rounded once if nothing was
thrown. -/
def IsRightResult (w : ℕ) (x : ℚ) (r : FlexFloat × Option String) : Prop :=
  InFormat (ieeeFormatOf w) r.1.number ∧ (r.2 = none → IsRounded (ieeeFormatOf w) x r.1.number)

section Results

variable {w : ℕ} {b : BfNumber} {x : ℚ}

theorem isRounded_of_rational {y : ℚ} (hb : b.rational = some y) :
    IsRounded F x b ↔ F.round x = some y := by
  constructor
  · rintro ⟨h, -⟩
    rw [← h, hb]
  · intro h
    exact ⟨by rw [hb, h], fun hnone => by rw [hnone] at h; cases h⟩

theorem isRightResult_zero (s : Bool) (h : (ieeeFormatOf w).round x = some 0) :
    IsRightResult w x (⟨w, .zero s⟩, none) :=
  ⟨(inFormat_of_rational rfl).mpr (Format.holds_zero _), fun _ => (isRounded_of_rational rfl).mpr h⟩

theorem magnitude_le_digitsOf (hw : w ∈ widths) (hx : x ≠ 0) :
    magnitude x ≤ magnitude (digitsOf w x) := by
  obtain ⟨hp, -⟩ := precision_le hw
  have hr := roundPrecision_ne_zero (show 1 ≤ getPrecBits w by omega) hx
  by_contra hlt
  have habs := (magnitude_le_iff hr).mp (show magnitude (digitsOf w x) ≤ magnitude x - 1 by omega)
  exact absurd (le_abs_roundPrecision (show 1 ≤ getPrecBits w by omega) hx) (not_le.mpr habs)

/-- What is below the range of the library is rounded to zero. -/
theorem round_of_underflow (hw : w ∈ widths) (hx : x ≠ 0)
    (h : magnitude (digitsOf w x) < BfNumber.expMin) : (ieeeFormatOf w).round x = some 0 := by
  obtain ⟨-, -, -, -, hmin, -⟩ := ieeeFormatOf_facts hw
  have hmag := magnitude_le_digitsOf hw hx
  exact Format.round_eq_zero_of_lt ((magnitude_le_iff hx).mp (by omega))

/-- What is above the range of the library is rounded to an infinity. -/
theorem round_of_overflow (hw : w ∈ widths) (hx : x ≠ 0)
    (h : BfNumber.expMax < magnitude (digitsOf w x)) : (ieeeFormatOf w).round x = none := by
  obtain ⟨hp, hgap, hp2, -, -, hmax⟩ := ieeeFormatOf_facts hw
  have hmag := magnitude_roundPrecision_le (show 1 ≤ getPrecBits w by omega) x
  refine Format.round_eq_none (by omega) (by omega) ?_
  refine two_zpow_le_of_lt_magnitude hx ?_
  have : magnitude (digitsOf w x) ≤ magnitude x + 1 := hmag
  omega

theorem resultFits_iff (hx : x ≠ 0) (hlow : BfNumber.expMin ≤ magnitude (digitsOf w x))
    (hhigh : magnitude (digitsOf w x) ≤ BfNumber.expMax) :
    ResultFits w x ↔
      if w = 32 then
        |digitsOf w x| < 2 ^ binary32.maxExponent ∧
          Format.TieKept binary32.minExponent x (digitsOf w x)
      else (ieeeFormatOf w).Holds (digitsOf w x) := by
  rw [ResultFits, or_iff_right hx, or_iff_right (not_lt.mpr hlow), or_iff_right (not_lt.mpr hhigh)]

theorem isRightResult_digits (hw : w ∈ widths) (h : Represents b (digitsOf w x))
    (error : Option String) :
    IsRightResult w x (⟨w, b⟩, error) ↔ (ieeeFormatOf w).Holds (digitsOf w x) := by
  obtain ⟨hp, -⟩ := ieeeFormatOf_facts hw
  have hb := rational_of_represents h
  constructor
  · exact fun hright => (inFormat_of_rational hb).mp hright.1
  · intro hholds
    refine ⟨(inFormat_of_rational hb).mpr hholds, fun _ => (isRounded_of_rational hb).mpr ?_⟩
    rw [digitsOf, ← hp] at hholds ⊢
    exact Format.round_of_holds_roundPrecision hholds

/-- The range check after an operation that rounded to the digits of the width. -/
theorem clamp_rounded (hw : w ∈ widths) (s : Bool) (x : ℚ) {r : FlexFloat × Option String}
    (hr : clampToFloatBounds lib ⟨w, rounded (getPrecBits w) s x⟩ = r) :
    r.1.bitWidth = w ∧ (r.2 ≠ none ↔ Throws w x) ∧ (IsRightResult w x r ↔ ResultFits w x) := by
  obtain ⟨hp, hgap, hp2, -, hmin, hmax⟩ := ieeeFormatOf_facts hw
  rcases eq_or_ne x 0 with rfl | hx
  · have hzero : rounded (getPrecBits w) s 0 = .zero s := if_pos rfl
    have hdigits : digitsOf w 0 = 0 := roundPrecision_zero _
    rw [hzero, clamp_zero lib hw] at hr
    subst hr
    refine ⟨rfl, iff_of_false (by simp) ?_, iff_of_true ?_ (.inl rfl)⟩
    · rintro ⟨-, -, hle⟩
      rw [hdigits, abs_zero] at hle
      exact absurd hle (not_le.mpr (two_zpow_pos _))
    · exact isRightResult_zero s (Format.round_of_holds (Format.holds_zero _))
  rcases BfNumber.rounded_cases (show 1 ≤ getPrecBits w by omega) s hx with
    ⟨hlow, hb⟩ | ⟨hhigh, hb⟩ | ⟨hlow, hhigh, hrep⟩
  · rw [hb, clamp_zero lib hw] at hr
    subst hr
    refine ⟨rfl, iff_of_false (by simp) ?_, iff_of_true ?_ (.inr (.inl hlow))⟩
    · rintro ⟨-, -, hle⟩
      have hne := roundPrecision_ne_zero (show 1 ≤ getPrecBits w by omega) hx
      have habs := (magnitude_le_iff hne).mp (show magnitude (digitsOf w x) ≤
        (ieeeFormatOf w).maxExponent by unfold digitsOf; omega)
      exact absurd hle (not_le.mpr habs)
    · exact isRightResult_zero s (round_of_underflow hw hx hlow)
  · rw [hb, clamp_of_not_finite lib rfl] at hr
    subst hr
    refine ⟨rfl, iff_of_false (by simp) ?_, iff_of_true ?_ (.inr (.inr (.inl hhigh)))⟩
    · rintro ⟨-, hle, -⟩
      exact absurd hhigh (not_lt.mpr hle)
    · have hnone := round_of_overflow hw hx hhigh
      exact ⟨inFormat_of_none rfl, fun _ => ⟨by rw [hnone]; rfl, fun _ => ⟨s, rfl⟩⟩⟩
  · have hbits : HasBits (getPrecBits w) (digitsOf w x) :=
      hasBits_roundPrecision (by omega) x
    rw [resultFits_iff hx hlow hhigh]
    by_cases h32 : w = 32
    · subst h32
      rw [if_pos rfl]
      rcases clamp_single lib hrep hbits with ⟨hle, error, hclamp⟩ | ⟨hlt, b', hclamp, y, hy, hb'⟩
      · rw [hclamp] at hr
        subst hr
        refine ⟨rfl, iff_of_true (by simp) ⟨.inl rfl, hhigh, hle⟩, ?_⟩
        rw [isRightResult_digits hw hrep]
        exact iff_of_false (fun hholds => absurd hholds.lt (not_lt.mpr hle))
          fun hfits => absurd hfits.1 (not_lt.mpr hle)
      · rw [hclamp] at hr
        subst hr
        refine ⟨rfl, iff_of_false (by simp) fun hthrows => absurd hthrows.2.2 (not_le.mpr hlt), ?_⟩
        have hround := Format.round_roundPrecision_iff (F := binary32) (by decide) (by decide) x
        have hin : InFormat binary32 b' :=
          (inFormat_of_rational hb').mpr (Format.holds_of_round (by decide) hy)
        have hkept : IsRounded binary32 x b' ↔ Format.TieKept binary32.minExponent x
            (digitsOf 32 x) := by
          rw [isRounded_of_rational hb', ← hy]
          exact eq_comm.trans hround
        constructor
        · exact fun hright => ⟨hlt, hkept.mp (hright.2 rfl)⟩
        · exact fun hfits => ⟨hin, fun _ => hkept.mpr hfits.2⟩
    · rw [if_neg h32]
      by_cases h64 : w = 64
      · subst h64
        rw [clamp_double lib hrep hbits] at hr
        subst hr
        refine ⟨rfl, ?_, isRightResult_digits hw hrep _⟩
        constructor
        · intro herror
          by_contra hthrows
          refine herror (if_neg fun hle => hthrows ⟨.inr rfl, hhigh, hle⟩)
        · rintro ⟨-, -, hle⟩
          have hle' : 2 ^ BfNumber.binary64.maxExponent ≤ |roundPrecision (getPrecBits 64) x| := hle
          show (if _ then some overflow64 else none) ≠ none
          rw [if_pos hle']
          simp
      · have hw' : w = 16 ∨ w = 128 := by
          have := mem_widths.mp hw
          omega
        rw [clamp_digits lib hw' hrep hbits hlow hhigh] at hr
        subst hr
        refine ⟨rfl, iff_of_false (by simp) ?_, isRightResult_digits hw hrep _⟩
        rintro ⟨hw'', -, -⟩
        omega

/-- An operation gives a NaN, an infinity or a zero where there is no exact result, and otherwise
the exact result rounded to the digits. -/
def Computes (w : ℕ) (exact : Option ℚ) (b : BfNumber) : Prop :=
  exact = none ∧ (b.rational = none ∨ ∃ s, b = .zero s) ∨
    ∃ s x, exact = some x ∧ b = rounded (getPrecBits w) s x

theorem computes_special {exact : Option ℚ} (hexact : exact = none) (hb : b.rational = none) :
    Computes w exact b := .inl ⟨hexact, .inl hb⟩

theorem computes_sum (w : ℕ) (a b : BfNumber) :
    Computes w (do return (← a.rational) + (← b.rational)) (BfNumber.sum (getPrecBits w) a b) := by
  cases a with
  | nan => exact computes_special rfl rfl
  | inf s =>
    refine computes_special rfl ?_
    cases b with
    | inf t => cases s <;> cases t <;> rfl
    | _ => rfl
  | zero s | finite s m k hodd =>
    cases b with
    | nan | inf t => exact computes_special rfl rfl
    | zero t | finite t n j hodd' => exact .inr ⟨_, _, rfl, rfl⟩

theorem computes_product (w : ℕ) (a b : BfNumber) :
    Computes w (do return (← a.rational) * (← b.rational))
      (BfNumber.product (getPrecBits w) a b) := by
  cases a with
  | nan => exact computes_special rfl rfl
  | inf s =>
    refine computes_special rfl ?_
    cases b <;> rfl
  | zero s | finite s m k hodd =>
    cases b with
    | nan | inf t => exact computes_special rfl rfl
    | zero t | finite t n j hodd' => exact .inr ⟨_, _, rfl, rfl⟩

theorem computes_quotient (w : ℕ) (a b : BfNumber) :
    Computes w (do return (← a.rational) / (← b.rational))
      (BfNumber.quotient (getPrecBits w) a b) := by
  cases a with
  | nan => exact computes_special rfl rfl
  | inf s =>
    refine computes_special rfl ?_
    cases b <;> rfl
  | zero s | finite s m k hodd =>
    cases b with
    | nan => exact computes_special rfl rfl
    | inf t => exact .inl ⟨rfl, .inr ⟨_, rfl⟩⟩
    | zero t | finite t n j hodd' => exact .inr ⟨_, _, rfl, rfl⟩

theorem computes_difference (w : ℕ) (a b : BfNumber) :
    Computes w (do return (← a.rational) - (← b.rational))
      (BfNumber.sum (getPrecBits w) a b.negated) := by
  have h := computes_sum w a b.negated
  rw [rational_negated] at h
  cases ha : a.rational with
  | none => rw [ha] at h; exact h
  | some x =>
    cases hb : b.rational with
    | none => rw [ha, hb] at h; exact h
    | some y =>
      rw [ha, hb] at h
      show Computes w (some (x - y)) _
      rw [sub_eq_add_neg]
      exact h

theorem rational_eq_some_zero : b.rational = some 0 ↔ b.bfIsZero = true := by
  cases b with
  | nan | inf s | zero s => simp [rational, BfNumber.bfIsZero]
  | finite s m k hodd =>
    have hne := (BfNumber.represents_value s m k hodd).ne_zero
    simpa [rational, BfNumber.bfIsZero] using hne

/-- The object holds a number of its format, and the exact result rounded once if there is one and
nothing was thrown. -/
def IsRightObject (exact : Option ℚ) (r : FlexFloat × Option String) : Prop :=
  r.1.bitWidth ∈ widths → InFormat (ieeeFormatOf r.1.bitWidth) r.1.number ∧
    (r.2 = none → ∀ x ∈ exact, IsRounded (ieeeFormatOf r.1.bitWidth) x r.1.number)

/-- The range check after any operation. -/
theorem isRightObject_clamp (hw : w ∈ widths) {exact : Option ℚ} (h : Computes w exact b) :
    IsRightObject exact (clampToFloatBounds lib ⟨w, b⟩) ↔ ∀ x ∈ exact, ResultFits w x := by
  rcases h with ⟨rfl, hb⟩ | ⟨s, x, rfl, rfl⟩
  · refine iff_of_true ?_ (by simp)
    rcases hb with hb | ⟨s, rfl⟩
    · have hfinite : b.bfIsFinite = false := by cases b <;> simp_all [rational, BfNumber.bfIsFinite]
      rw [clamp_of_not_finite lib hfinite]
      exact fun _ => ⟨inFormat_of_none hb, by simp⟩
    · rw [clamp_zero lib hw]
      exact fun _ => ⟨(inFormat_of_rational rfl).mpr (Format.holds_zero _), by simp⟩
  · obtain ⟨hwidth, -, hright⟩ := clamp_rounded lib hw s x rfl
    rw [IsRightObject, hwidth, forall_prop_of_true hw]
    simp only [mem_def, some.injEq, forall_eq']
    exact hright

theorem isRounded_self (h : InFormat F b) (hb : b.rational = some x) : IsRounded F x b :=
  (isRounded_of_rational hb).mpr (Format.round_of_holds (h x hb))

theorem isRightObject_self (h : f.bitWidth ∈ widths → InFormat (ieeeFormatOf f.bitWidth) f.number)
    (error : Option String) : IsRightObject f.number.rational (f, error) :=
  fun hw => ⟨h hw, fun _ _ hx => isRounded_self (h hw) hx⟩

/-! ## Numbers of narrower formats -/

theorem holds_of_narrower {w' : ℕ} (hw : w ∈ widths) (hw' : w' ∈ widths) (hle : w ≤ w')
    (h : (ieeeFormatOf w).Holds x) : (ieeeFormatOf w').Holds x := by
  have hformats : (ieeeFormatOf w').minExponent ≤ (ieeeFormatOf w).minExponent ∧
      (ieeeFormatOf w).precision ≤ (ieeeFormatOf w').precision ∧
      (ieeeFormatOf w).maxExponent ≤ (ieeeFormatOf w').maxExponent := by
    rcases mem_widths.mp hw with rfl | rfl | rfl | rfl <;>
      rcases mem_widths.mp hw' with rfl | rfl | rfl | rfl <;>
      first | decide | omega
  obtain ⟨hmin, hprec, hmax⟩ := hformats
  exact ⟨h.onGrid.mono hmin, h.hasBits.mono hprec, h.lt.trans_le (two_zpow_le hmax)⟩

theorem keeps_of_holds (hw : w ∈ widths) (hx : x ≠ 0) (h : (ieeeFormatOf w).Holds x) :
    Keeps w x := by
  obtain ⟨hprec, -, -, -, hmin, hmax⟩ := ieeeFormatOf_facts hw
  refine ⟨hprec ▸ h.hasBits, ?_, ?_, ?_, ?_⟩
  · by_contra hlt
    have hsmall : |x| < 2 ^ ((ieeeFormatOf w).minExponent - 1) :=
      (magnitude_le_iff hx).mp (by omega)
    have hzero := Format.round_eq_zero_of_lt hsmall
    rw [Format.round_of_holds h] at hzero
    exact hx (some.inj hzero)
  · have hmag := (magnitude_le_iff hx).mpr h.lt
    omega
  · rintro rfl
    exact h
  · rintro rfl
    exact h

/-- The range check keeps the numbers of the format. -/
theorem clamp_of_inFormat (hw : w ∈ widths) (h : InFormat (ieeeFormatOf w) b) :
    clampToFloatBounds lib ⟨w, b⟩ = (⟨w, b⟩, none) := by
  obtain ⟨hp, hmax⟩ := precision_le hw
  cases b with
  | nan | inf s => exact clamp_of_not_finite lib rfl
  | zero s => exact clamp_zero lib hw s
  | finite s m k hodd =>
    have hrep := BfNumber.represents_value s m k hodd
    exact clampToFloatBounds_keeps lib hrep (keeps_of_holds hw hrep.ne_zero (h _ rfl)) hp hmax

theorem clamp_bitWidth (f : FlexFloat) : (clampToFloatBounds lib f).1.bitWidth = f.bitWidth := by
  unfold clampToFloatBounds
  dsimp only
  repeat' split
  all_goals rfl

theorem isRightObject_extend (hw : f.bitWidth ∈ widths)
    (h : InFormat (ieeeFormatOf f.bitWidth) f.number) (newBitSize : ℕ) :
    IsRightObject f.number.rational (extend lib f newBitSize) := by
  have hself := isRightObject_self fun _ => h
  unfold extend
  split
  · exact hself _
  · rename_i hle
    split
    · exact hself _
    · split
      · exact hself _
      · intro hnew
        rw [clamp_bitWidth] at hnew
        have hin : InFormat (ieeeFormatOf newBitSize) f.number :=
          fun x hx => holds_of_narrower hw hnew (not_lt.mp hle) (h x hx)
        rw [clamp_of_inFormat lib hnew hin]
        exact isRightObject_self (fun _ => hin) none hnew

end Results

section Store

variable {s : Store} {i dst src : ℕ} {f : FlexFloat} {exact : Option ℚ} {error : Option String}

theorem object_eq_some : object s i = some f ↔ s i = some f ∧ f.bitWidth ∈ widths := by
  simp [object, filter_eq_some_iff]

theorem object_overwrite_self {r : FlexFloat × Option String} :
    object (overwrite s dst r).1 dst = some f ↔ r.1 = f ∧ f.bitWidth ∈ widths := by
  show object (update s dst (some r.1)) dst = some f ↔ _
  rw [object_eq_some, update_self, some.injEq]

theorem object_update_of_ne (h : i ≠ dst) (o : Option FlexFloat) :
    object (update s dst o) i = object s i := by
  rw [object, update_of_ne h, object]

/-- The objects are right after an operation with the exact result. -/
def IsRightStore (dst : ℕ) (exact : Option ℚ) (r : Store × Option String) : Prop :=
  AllInFormat r.1 ∧ (r.2 = none → ∀ f, object r.1 dst = some f →
    ∀ x, exact = some x → IsRounded (ieeeFormatOf f.bitWidth) x f.number)

theorem isRight_iff_store (s : Store) (op : Operation) :
    IsRight lib s op ↔ IsRightStore op.dst (exactResult lib s op) (perform lib s op) :=
  ⟨fun h => ⟨h.allInFormat, h.isRounded⟩, fun h => ⟨h.1, h.2⟩⟩

section

variable (h : AllInFormat s)
include h

theorem isRightStore_error (dst : ℕ) (exact : Option ℚ) (error : String) :
    IsRightStore dst exact (s, some error) :=
  ⟨h, fun herror => by cases herror⟩

theorem isRightStore_overwrite (r : FlexFloat × Option String) :
    IsRightStore dst exact (overwrite s dst r) ↔ IsRightObject exact r := by
  constructor
  · rintro ⟨hall, hrounded⟩ hw
    have hobject : object (overwrite s dst r).1 dst = some r.1 :=
      object_overwrite_self.mpr ⟨rfl, hw⟩
    exact ⟨hall _ _ hobject, fun herror x hx => hrounded herror _ hobject x hx⟩
  · intro hright
    constructor
    · intro i f hf
      rcases eq_or_ne i dst with rfl | hne
      · obtain ⟨rfl, hw⟩ := object_overwrite_self.mp hf
        exact (hright hw).1
      · rw [overwrite, object_update_of_ne hne] at hf
        exact h i f hf
    · intro herror f hf x hx
      obtain ⟨rfl, hw⟩ := object_overwrite_self.mp hf
      exact (hright hw).2 herror x hx

theorem isRightStore_construct_ok :
    IsRightStore dst exact (construct s dst (.ok f)) ↔ IsRightObject exact (f, none) :=
  isRightStore_overwrite h (f, none)

theorem isRightStore_checked (r : FlexFloat × Option String) :
    IsRightStore dst exact (construct s dst (checked r)) ↔ r.2 ≠ none ∨ IsRightObject exact r := by
  obtain ⟨f, error⟩ := r
  cases error with
  | none =>
    rw [or_iff_right (by simp)]
    exact isRightStore_construct_ok h
  | some error =>
    exact iff_of_true (isRightStore_error h dst exact error) (.inl (by simp))

theorem allInFormat_delete (src : ℕ) : AllInFormat (update s src none) := by
  intro i f hf
  rcases eq_or_ne i src with rfl | hne
  · obtain ⟨hi, -⟩ := object_eq_some.mp hf
    rw [update_self] at hi
    cases hi
  · rw [object_update_of_ne hne] at hf
    exact h i f hf

theorem isRightStore_onObject {action : FlexFloat → Store × Option String} {P : FlexFloat → Prop}
    (haction : ∀ f, object s i = some f → (IsRightStore dst exact (action f) ↔ P f)) :
    IsRightStore dst exact (onObject s i action) ↔ ∀ f ∈ object s i, P f := by
  unfold onObject
  cases hi : object s i with
  | none => exact iff_of_true (isRightStore_error h _ _ _) (by simp)
  | some f =>
    simp only [mem_def, some.injEq, forall_eq']
    exact haction f hi

end

end Store

/-! ## One operation -/

section Step

variable {s : Store}

theorem rationalOf_eq {i : ℕ} (h : object s i = some f) : rationalOf s i = f.number.rational := by
  rw [rationalOf, h]
  rfl

section

variable (h : AllInFormat s) (dst src : ℕ)
include h dst src

/-- An arithmetic operation that computes its result with the digits and checks the range. -/
theorem isRightStore_arithmetic (op : ℚ → ℚ → ℚ)
    {assign : FlexFloat → FlexFloat → FlexFloat × Option String}
    (hassign : ∀ f g, object s dst = some f → object s src = some g → ∃ b, assign f g =
      clampToFloatBounds lib ⟨f.bitWidth, b⟩ ∧
        Computes f.bitWidth (do return op (← f.number.rational) (← g.number.rational)) b) :
    IsRightStore dst (do return op (← rationalOf s dst) (← rationalOf s src))
        (onObjects s dst src fun f g => overwrite s dst (assign f g)) ↔
      ∀ f ∈ object s dst, ∀ x ∈ (do return op (← rationalOf s dst) (← rationalOf s src)),
        ResultFits f.bitWidth x := by
  refine isRightStore_onObject h fun f hf => ?_
  rw [rationalOf_eq hf]
  cases hg : object s src with
  | none =>
    have hnone : rationalOf s src = none := by rw [rationalOf, hg]; rfl
    rw [hnone, onObject, hg]
    refine iff_of_true (isRightStore_error h _ _ _) ?_
    cases f.number.rational <;> simp
  | some g =>
    obtain ⟨b, hb, hcomputes⟩ := hassign f g hf hg
    rw [rationalOf_eq hg, onObject, hg]
    show IsRightStore dst _ (overwrite s dst (assign f g)) ↔ _
    rw [isRightStore_overwrite h, hb]
    exact isRightObject_clamp lib (object_eq_some.mp hf).2 hcomputes

theorem isRight_add_iff : IsRight lib s (.add dst src) ↔ Fits lib s (.add dst src) := by
  rw [isRight_iff_store]
  refine isRightStore_arithmetic lib h dst src (· + ·) fun f g hf hg => ?_
  obtain ⟨hp, hmax⟩ := precision_le (object_eq_some.mp hf).2
  exact ⟨_, rfl, lib.add_eq _ _ _ hp hmax ▸ computes_sum _ _ _⟩

theorem isRight_sub_iff : IsRight lib s (.sub dst src) ↔ Fits lib s (.sub dst src) := by
  rw [isRight_iff_store]
  refine isRightStore_arithmetic lib h dst src (· - ·) fun f g hf hg => ?_
  obtain ⟨hp, hmax⟩ := precision_le (object_eq_some.mp hf).2
  exact ⟨_, rfl, lib.sub_eq _ _ _ hp hmax ▸ computes_difference _ _ _⟩

theorem isRight_mul_iff : IsRight lib s (.mul dst src) ↔ Fits lib s (.mul dst src) := by
  rw [isRight_iff_store]
  refine isRightStore_arithmetic lib h dst src (· * ·) fun f g hf hg => ?_
  obtain ⟨hp, hmax⟩ := precision_le (object_eq_some.mp hf).2
  exact ⟨_, rfl, lib.mul_eq _ _ _ hp hmax ▸ computes_product _ _ _⟩

/-- A division by zero throws before the number is overwritten. -/
theorem isRight_div_iff : IsRight lib s (.div dst src) ↔ Fits lib s (.div dst src) := by
  rw [isRight_iff_store]
  by_cases hzero : rationalOf s src = some 0
  · refine iff_of_true ?_ fun hne => absurd hzero hne
    refine (isRightStore_onObject h fun f hf => (isRightStore_onObject (P := fun _ => True) h
      fun g hg => iff_true_intro ?_)).mpr fun f hf g hg => trivial
    rw [rationalOf_eq hg, rational_eq_some_zero] at hzero
    show IsRightStore dst _ (overwrite s dst (divAssign lib f g))
    rw [isRightStore_overwrite h, divAssign, if_pos hzero]
    exact fun _ => ⟨h dst f hf, fun herror => by cases herror⟩
  · have hfits : Fits lib s (.div dst src) ↔ ∀ f ∈ object s dst,
        ∀ x ∈ exactResult lib s (.div dst src), ResultFits f.bitWidth x :=
      ⟨fun hf => hf hzero, fun hf _ => hf⟩
    rw [hfits]
    refine isRightStore_arithmetic lib h dst src (· / ·) fun f g hf hg => ?_
    obtain ⟨hp, hmax⟩ := precision_le (object_eq_some.mp hf).2
    have hne : ¬g.number.bfIsZero = true := by
      rwa [rationalOf_eq hg, rational_eq_some_zero] at hzero
    have hdiv := lib.div_eq f.number g.number _ (by simpa using hne) hp hmax
    exact ⟨_, by rw [divAssign, if_neg hne], hdiv ▸ computes_quotient _ _ _⟩

end

theorem isRightObject_native {w : ℕ} (hw : w ∈ widths) {b : BfNumber}
    (h : InFormat (ieeeFormatOf w) b) (dst : ℕ) (hall : AllInFormat s) :
    IsRightStore dst b.rational (construct s dst
      (if b.bfIsNan then .ok ⟨w, .nan⟩ else checked (clampToFloatBounds lib ⟨w, b⟩))) := by
  split
  · exact (isRightStore_construct_ok hall).mpr fun _ =>
      ⟨inFormat_of_none rfl, fun _ x hx => by cases b <;> simp_all [BfNumber.bfIsNan, rational]⟩
  · rw [clamp_of_inFormat lib hw h]
    exact (isRightStore_construct_ok hall).mpr (isRightObject_self (fun _ => h) none)

theorem isRight_ofWidth (h : AllInFormat s) (dst w : ℕ) : IsRight lib s (.ofWidth dst w) := by
  rw [isRight_iff_store]
  show IsRightStore dst _ (if w ∈ widths then _ else _)
  split
  · rename_i hw
    have hwidth : ¬(w ≠ 0 ∧ w < 16) := by
      have := mem_widths.mp hw
      omega
    rw [ofWidth, if_neg hwidth, isRightStore_construct_ok h]
    exact isRightObject_self (fun _ => (inFormat_of_rational rfl).mpr (Format.holds_zero _)) none
  · exact isRightStore_error h _ _ _

theorem isRight_ofText_iff (h : AllInFormat s) (dst : ℕ) (text : List Char) (w radix : ℕ) :
    IsRight lib s (.ofText dst text w radix) ↔ Fits lib s (.ofText dst text w radix) := by
  rw [isRight_iff_store]
  show IsRightStore dst _ (if w ∈ widths then _ else _) ↔ (w ∈ widths → _)
  by_cases hw : w ∈ widths
  swap
  · rw [if_neg hw]
    exact iff_of_true (isRightStore_error h _ _ _) fun hw' => absurd hw' hw
  rw [if_pos hw, forall_prop_of_true hw]
  have hwidth : ¬(w ≠ 0 ∧ w < 16) := by
    have := mem_widths.mp hw
    omega
  unfold ofText
  rw [ofWidth, if_neg hwidth]
  by_cases htext : text = [] ∨ radix < 2 ∨ 36 < radix
  · refine iff_of_true ?_ ?_
    · simp only [bind, Except.bind, if_pos htext]
      exact isRightStore_error h _ _ _
    · rintro ⟨h0, hlow, hhigh, -⟩
      rcases htext with h0' | hlow' | hhigh'
      · exact absurd h0' h0
      · omega
      · omega
  obtain ⟨h0, hlow, hhigh⟩ : text ≠ [] ∧ 2 ≤ radix ∧ radix ≤ 36 := by
    push Not at htext
    exact htext
  by_cases hread : (lib.bfAtof text radix (getPrecBits w)).2 = 0
  · refine iff_of_true ?_ fun hread' => absurd hread hread'.2.2.2
    simp only [bind, Except.bind, if_neg htext, if_pos hread]
    exact isRightStore_error h _ _ _
  rw [forall_prop_of_true (show IsRead lib text w radix from ⟨h0, hlow, hhigh, hread⟩)]
  simp only [bind, Except.bind, if_neg htext, if_neg hread]
  show IsRightStore dst _ (construct s dst (checked (clampToFloatBounds lib _))) ↔ _
  rw [isRightStore_checked h]
  obtain ⟨hp, hmax⟩ := precision_le hw
  cases hvalue : lib.textValue text radix with
  | none =>
    refine iff_of_true (.inr ?_) (by simp)
    show IsRightObject ((lib.textValue text radix).map Prod.snd) _
    rw [hvalue, map_none, isRightObject_clamp lib hw (computes_special rfl ?_)]
    · simp
    · rcases lib.atof_special text radix _ hlow hhigh hp hmax hvalue with hnan | ⟨t, hinf⟩
      · rw [hnan]; rfl
      · rw [hinf]; rfl
  | some value =>
    obtain ⟨t, x⟩ := value
    have hnumber := lib.atof_number text radix _ t x hlow hhigh hp hmax hvalue
    rw [hnumber]
    show _ ∨ IsRightObject ((lib.textValue text radix).map Prod.snd) _ ↔ _
    rw [hvalue, map_some, isRightObject_clamp lib hw (.inr ⟨t, x, rfl, rfl⟩),
      (clamp_rounded lib hw t x rfl).2.1]
    simp

theorem isRight_iff_fits (h : AllInFormat s) (op : Operation) :
    IsRight lib s op ↔ Fits lib s op := by
  cases op with
  | ofWidth dst w => exact iff_of_true (isRight_ofWidth lib h dst w) trivial
  | ofFloat dst value =>
    refine iff_of_true ((isRight_iff_store lib s _).mpr ?_) trivial
    exact isRightObject_native lib (w := 32) (by decide) value.inFormat dst h
  | ofDouble dst value =>
    refine iff_of_true ((isRight_iff_store lib s _).mpr ?_) trivial
    exact isRightObject_native lib (w := 64) (by decide) value.inFormat dst h
  | ofText dst text w radix => exact isRight_ofText_iff lib h dst text w radix
  | copy dst src =>
    refine iff_of_true ((isRight_iff_store lib s _).mpr ?_) trivial
    refine (isRightStore_onObject (P := fun _ => True) h fun f hf => iff_true_intro ?_).mpr
      fun _ _ => trivial
    show IsRightStore dst (rationalOf s src) (overwrite s dst (f, none))
    rw [isRightStore_overwrite h, rationalOf_eq hf]
    exact isRightObject_self (fun _ => h src f hf) none
  | move dst src =>
    refine iff_of_true ((isRight_iff_store lib s _).mpr ?_) trivial
    refine (isRightStore_onObject (P := fun _ => True) h fun f hf => iff_true_intro ?_).mpr
      fun _ _ => trivial
    show IsRightStore dst (rationalOf s src) (overwrite (update s src none) dst (f, none))
    rw [isRightStore_overwrite (allInFormat_delete h src), rationalOf_eq hf]
    exact isRightObject_self (fun _ => h src f hf) none
  | add dst src => exact isRight_add_iff lib h dst src
  | sub dst src => exact isRight_sub_iff lib h dst src
  | mul dst src => exact isRight_mul_iff lib h dst src
  | div dst src => exact isRight_div_iff lib h dst src
  | extend dst newBitSize =>
    refine iff_of_true ((isRight_iff_store lib s _).mpr ?_) trivial
    refine (isRightStore_onObject (P := fun _ => True) h fun f hf => iff_true_intro ?_).mpr
      fun _ _ => trivial
    show IsRightStore dst (rationalOf s dst) _
    rw [isRightStore_overwrite h, rationalOf_eq hf]
    exact isRightObject_extend lib (object_eq_some.mp hf).2 (h dst f hf) newBitSize

end Step

/-! ## Runs -/

theorem allInFormat_empty : AllInFormat fun _ => none := by
  rintro i f hf
  cases hf

/-- Every operation of a run is right exactly when every result fits. -/
theorem allRight_iff_fits (ops : List Operation) :
    Run.along (step lib) (IsRight lib) (fun _ => none) ops ↔
      Run.along (step lib) (Fits lib) (fun _ => none) ops :=
  Run.along_iff_along (fun (s : Store) op (h : AllInFormat s) => isRight_iff_fits lib h op)
    (fun _ _ _ hright => hright.allInFormat) allInFormat_empty ops

def greatestFloat : Native binary32 where
  number := .finite false (2 ^ 24 - 1) 104 (by decide)
  inFormat := by
    rw [inFormat_of_rational rfl, BfNumber.holds_value_iff]
    decide

theorem value_greatestFloat : greatestFloat.number.rational = some floatMax := by
  simp [greatestFloat, rational, BfNumber.value, floatMax]
  norm_cast

theorem not_resultFits_doubled : ¬ResultFits 32 (floatMax + floatMax) := by
  have hrep : Represents (.finite false (2 ^ 24 - 1) 105 (by decide)) (floatMax + floatMax) := by
    refine ⟨_, _, _, _, rfl, ?_⟩
    rw [floatMax, BfNumber.value, show ((2 : ℚ) ^ (105 : ℤ)) = 2 ^ 105 from zpow_natCast 2 105]
    norm_num
  have hmag : magnitude (floatMax + floatMax) = 129 := hrep.expn_eq.symm
  have hdigits : digitsOf 32 (floatMax + floatMax) = floatMax + floatMax := by
    refine roundPrecision_of_hasBits ?_
    rw [← hrep.value_eq, BfNumber.hasBits_value_iff]
    decide
  rintro (h0 | hlow | hhigh | hfits)
  · exact hrep.ne_zero h0
  · rw [hdigits, hmag] at hlow
    exact absurd hlow (by decide)
  · rw [hdigits, hmag] at hhigh
    exact absurd hhigh (by decide)
  · rw [if_pos rfl, hdigits] at hfits
    have hle := (magnitude_le_iff hrep.ne_zero).mpr hfits.1
    rw [hmag] at hle
    exact absurd hle (by decide)

/-- Twice the greatest `float` throws, and stays in the object. -/
theorem doubledFloatMax_not_right : ¬∀ (lib : LibBf) (ops : List Operation),
      Run.along (step lib) (IsRight lib) (fun _ => none) ops := by
  intro h
  have hright := (h LibBf.exact [.ofFloat 0 greatestFloat, .add 0 0]).2.1
  have hstep : step LibBf.exact (fun _ => none) (.ofFloat 0 greatestFloat) =
      update (fun _ => none) 0 (some ⟨32, greatestFloat.number⟩) := by
    have hclamp := clamp_of_inFormat LibBf.exact (show 32 ∈ widths by decide) greatestFloat.inFormat
    show (construct _ 0 (ofFloat LibBf.exact greatestFloat.number)).1 = _
    rw [ofFloat, hclamp]
    rfl
  have hobject : object (step LibBf.exact (fun _ => none) (.ofFloat 0 greatestFloat)) 0 =
      some ⟨32, greatestFloat.number⟩ := by
    rw [hstep]
    exact object_eq_some.mpr ⟨rfl, by show 32 ∈ widths; decide⟩
  have hall : AllInFormat (step LibBf.exact (fun _ => none) (.ofFloat 0 greatestFloat)) :=
    (h LibBf.exact [.ofFloat 0 greatestFloat]).1.allInFormat
  have hfits := (isRight_iff_fits LibBf.exact hall _).mp hright
  refine not_resultFits_doubled (hfits _ hobject _ ?_)
  show (do return (← rationalOf _ 0) + (← rationalOf _ 0)) = some _
  rw [rationalOf_eq hobject, value_greatestFloat]
  rfl

end FlexFloat

end EzPacker.FlexNumber
