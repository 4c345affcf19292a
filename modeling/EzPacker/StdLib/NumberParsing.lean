import Mathlib.Data.BitVec
import Mathlib.Data.List.TakeWhile

/-!
# Numbers in strings

`strtol` reads whitespace, a sign, the prefix of a base and digits. It knows the digits up to `f`,
takes the prefix `0x` only when it chooses the base itself, and its value wraps; the unsigned and
the wider functions are this one, and `atoi` has a loop of its own. What is read is compared with
the longest prefix of the string that is a number.
-/

namespace EzPacker.StdLib

open List BitVec Option

/-! ## The functions -/

def isSpace (c : UInt8) : Bool := c = 32 || (9 ≤ c && c ≤ 13)

def minusSign : UInt8 := 45

def plusSign : UInt8 := 43

def zeroDigit : UInt8 := 48

def isX (c : UInt8) : Bool := c = 120 || c = 88

/-- The sign, and what stands behind it. -/
def skipSign : List UInt8 → Bool × List UInt8
  | [] => (false, [])
  | c :: rest =>
    if c = minusSign then (true, rest)
    else if c = plusSign then (false, rest)
    else (false, c :: rest)

/-- The digits of `atoi`. -/
def decimalDigit (c : UInt8) : Option ℕ :=
  if 48 ≤ c ∧ c ≤ 57 then some (c.toNat - 48) else none

/-- The digits of `strtol`. -/
def hexDigit (c : UInt8) : Option ℕ :=
  if 48 ≤ c ∧ c ≤ 57 then some (c.toNat - 48)
  else if 97 ≤ c ∧ c ≤ 102 then some (c.toNat - 97 + 10)
  else if 65 ≤ c ∧ c ≤ 70 then some (c.toNat - 65 + 10)
  else none

/-- The loop over digits below the base. -/
def accumulate {w : ℕ} (digit : UInt8 → Option ℕ) (base : ℕ) :
    BitVec w → List UInt8 → BitVec w × List UInt8
  | res, [] => (res, [])
  | res, c :: rest =>
    match digit c with
    | none => (res, c :: rest)
    | some v =>
      if base ≤ v then (res, c :: rest)
      else accumulate digit base (res * BitVec.ofNat w base + BitVec.ofNat w v) rest

/-- The base that is used, and what stands behind its prefix. -/
def chooseBase (base : ℕ) (rest : List UInt8) : ℕ × List UInt8 :=
  if base = 0 then
    match rest with
    | [] => (10, [])
    | c :: tail =>
      if c = zeroDigit then
        if tail.head?.any isX then (16, tail.drop 1) else (8, c :: tail)
      else (10, c :: tail)
  else (base, rest)

def signed {w : ℕ} (neg : Bool) (res : BitVec w) : BitVec w := if neg then -res else res

/-- The bits of the result, and the index of the first character that is left. -/
def strtol (s : List UInt8) (base : ℕ) : BitVec 64 × ℕ :=
  let (neg, rest) := skipSign (s.dropWhile isSpace)
  let (base, rest) := chooseBase base rest
  let (res, rest) := accumulate hexDigit base 0 rest
  (signed neg res, s.length - rest.length)

def strtoul (s : List UInt8) (base : ℕ) : BitVec 64 × ℕ := strtol s base

def strtoll (s : List UInt8) (base : ℕ) : BitVec 64 × ℕ := strtol s base

def strtoull (s : List UInt8) (base : ℕ) : BitVec 64 × ℕ := strtol s base

def atoi (s : List UInt8) : BitVec 32 :=
  let (neg, rest) := skipSign (s.dropWhile isSpace)
  signed neg (accumulate decimalDigit 10 0 rest).1

def atol (s : List UInt8) : BitVec 64 := (atoi s).signExtend 64

/-! ## Numbers -/

def digitValue (c : UInt8) : Option ℕ :=
  if 48 ≤ c ∧ c ≤ 57 then some (c.toNat - 48)
  else if 97 ≤ c ∧ c ≤ 122 then some (c.toNat - 97 + 10)
  else if 65 ≤ c ∧ c ≤ 90 then some (c.toNat - 65 + 10)
  else none

def isDigit (base : ℕ) (c : UInt8) : Bool := (digitValue c).any (· < base)

/-- The number that digits are, behind those read so far. -/
def ofDigits (base acc : ℕ) (digits : List UInt8) : ℕ :=
  digits.foldl (fun acc c => acc * base + (digitValue c).getD 0) acc

def AllDigits (base : ℕ) (digits : List UInt8) : Prop := ∀ c ∈ digits, isDigit base c = true

/-- The texts of numbers without a sign. -/
inductive Magnitude (base : ℕ) : List UInt8 → ℕ → Prop
  | plain {digits : List UInt8} (hbase : base ≠ 0) (hne : digits ≠ [])
      (hdigits : AllDigits base digits) : Magnitude base digits (ofDigits base 0 digits)
  | hexadecimal {x : UInt8} {digits : List UInt8} (hbase : base = 0 ∨ base = 16)
      (hx : isX x = true) (hne : digits ≠ []) (hdigits : AllDigits 16 digits) :
      Magnitude base (zeroDigit :: x :: digits) (ofDigits 16 0 digits)
  | octal {digits : List UInt8} (hbase : base = 0) (hdigits : AllDigits 8 digits) :
      Magnitude base (zeroDigit :: digits) (ofDigits 8 0 (zeroDigit :: digits))
  | decimal {c : UInt8} {digits : List UInt8} (hbase : base = 0) (hc : c ≠ zeroDigit)
      (hdigits : AllDigits 10 (c :: digits)) :
      Magnitude base (c :: digits) (ofDigits 10 0 (c :: digits))

inductive Sign : List UInt8 → Bool → Prop
  | none : Sign [] false
  | plus : Sign [plusSign] false
  | minus : Sign [minusSign] true

/-- The texts of numbers, with whether they are negative and their magnitudes. -/
inductive Number (base : ℕ) : List UInt8 → Bool → ℕ → Prop
  | mk {spaces sign text : List UInt8} {neg : Bool} {m : ℕ}
      (hspaces : ∀ c ∈ spaces, isSpace c = true) (hsign : Sign sign neg)
      (htext : Magnitude base text m) : Number base (spaces ++ sign ++ text) neg m

/-- The longest prefix of a string that is a number. -/
structure Longest (base : ℕ) (s text : List UInt8) (neg : Bool) (m : ℕ) : Prop where
  number : Number base text neg m
  isPrefix : text <+: s
  longest : ∀ text' neg' m', Number base text' neg' m' → text' <+: s → text'.length ≤ text.length

def NoNumber (base : ℕ) (s : List UInt8) : Prop :=
  ∀ text neg m, Number base text neg m → ¬text <+: s

def valueOf (neg : Bool) (m : ℕ) : ℤ := if neg then -m else m

/-- A number clamped to a signed type. -/
def signedResult (w : ℕ) (neg : Bool) (m : ℕ) : ℤ :=
  max (-2 ^ (w - 1)) (min (2 ^ (w - 1) - 1) (valueOf neg m))

/-- A number clamped to an unsigned type, where the sign negates in the type. -/
def unsignedResult (w : ℕ) (neg : Bool) (m : ℕ) : ℤ :=
  if m < 2 ^ w then valueOf neg m % 2 ^ w else 2 ^ w - 1

/-- The longest number is consumed and its value returned; without one nothing is consumed. -/
def ParsesExactly (result : Bool → ℕ → ℤ) (base : ℕ) (s : List UInt8) (value : ℤ) (consumed : ℕ) :
    Prop :=
  (∃ text neg m, Longest base s text neg m ∧ value = result neg m ∧ consumed = text.length) ∨
    NoNumber base s ∧ value = 0 ∧ consumed = 0

def ValueExact (result : Bool → ℕ → ℤ) (base : ℕ) (s : List UInt8) (value : ℤ) : Prop :=
  (∃ text neg m, Longest base s text neg m ∧ value = result neg m) ∨ NoNumber base s ∧ value = 0

structure FamilyExact (s : List UInt8) (base : ℕ) : Prop where
  strtol : ParsesExactly (signedResult 64) base s (strtol s base).1.toInt (strtol s base).2
  strtoll : ParsesExactly (signedResult 64) base s (strtoll s base).1.toInt (strtoll s base).2
  strtoul : ParsesExactly (unsignedResult 64) base s (strtoul s base).1.toNat (strtoul s base).2
  strtoull : ParsesExactly (unsignedResult 64) base s (strtoull s base).1.toNat (strtoull s base).2
  atoi : ValueExact (signedResult 32) 10 s (atoi s).toInt
  atol : ValueExact (signedResult 64) 10 s (atol s).toInt

/-! ## When they are exact -/

/-- What stands behind the whitespace and the sign. -/
def bodyOf (s : List UInt8) : List UInt8 := (skipSign (s.dropWhile isSpace)).2

def isNegative (s : List UInt8) : Bool := (skipSign (s.dropWhile isSpace)).1

/-- The text begins with `0x`. -/
def hasHexPrefix (text : List UInt8) : Bool :=
  text.head? = some zeroDigit && (text.drop 1).head?.any isX

/-- The text begins with `0x` and a digit. -/
def hasHexNumber (text : List UInt8) : Bool :=
  hasHexPrefix text && (text.drop 2).head?.any (isDigit 16)

/-- A prefix `0x` stands in base 0 alone and has digits behind it, no digit is a letter behind
`f`, and a string without a number begins with neither whitespace nor a sign. -/
structure ReadsWhole (base : ℕ) (s : List UInt8) : Prop where
  hexBase : base = 16 → hasHexNumber (bodyOf s) = false
  hexPrefix : base = 0 → hasHexPrefix (bodyOf s) = true → hasHexNumber (bodyOf s) = true
  letters : ∀ c ∈ (bodyOf s).takeWhile (isDigit base), isDigit 16 c = true
  start : (bodyOf s).head?.any (isDigit (if base = 0 then 10 else base)) = false → bodyOf s = s

/-- A number is in the range of a signed type, or wraps onto the bound that it is clamped to. -/
def WrapsSigned (w : ℕ) (neg : Bool) (m : ℕ) : Prop :=
  -2 ^ (w - 1) ≤ valueOf neg m ∧ valueOf neg m < 2 ^ (w - 1) ∨
    2 ^ (w - 1) ≤ valueOf neg m ∧ valueOf neg m % 2 ^ w = 2 ^ (w - 1) - 1 ∨
    valueOf neg m < -2 ^ (w - 1) ∧ valueOf neg m % 2 ^ w = 2 ^ (w - 1)

def WrapsUnsigned (w : ℕ) (neg : Bool) (m : ℕ) : Prop :=
  m < 2 ^ w ∨ valueOf neg m % 2 ^ w = 2 ^ w - 1

/-- What holds of the longest number of a string. -/
def NumberIs (base : ℕ) (s : List UInt8) (P : Bool → ℕ → Prop) : Prop :=
  ∀ text neg m, Longest base s text neg m → P neg m

structure FamilyFits (s : List UInt8) (base : ℕ) : Prop where
  whole : ReadsWhole base s
  long : NumberIs base s (WrapsSigned 64)
  unsigned : NumberIs base s (WrapsUnsigned 64)
  /-- `atol` goes through the `int` of `atoi`. -/
  int : NumberIs 10 s fun neg m => -2 ^ 31 ≤ valueOf neg m ∧ valueOf neg m < 2 ^ 31

/-! ## Digits -/

variable {c : UInt8} {base m radix : ℕ} {digits text s : List UInt8} {neg : Bool}

theorem digitValue_cases {v : ℕ} (h : digitValue c = some v) :
    48 ≤ c.toNat ∧ c.toNat ≤ 57 ∧ v = c.toNat - 48 ∨
      97 ≤ c.toNat ∧ c.toNat ≤ 122 ∧ v = c.toNat - 97 + 10 ∨
      65 ≤ c.toNat ∧ c.toNat ≤ 90 ∧ v = c.toNat - 65 + 10 := by
  unfold digitValue at h
  simp only [UInt8.le_iff_toNat_le, UInt8.reduceToNat] at h
  split_ifs at h with h₁ h₂ h₃
  · exact .inl ⟨h₁.1, h₁.2, (some.inj h).symm⟩
  · exact .inr (.inl ⟨h₂.1, h₂.2, (some.inj h).symm⟩)
  · exact .inr (.inr ⟨h₃.1, h₃.2, (some.inj h).symm⟩)

theorem hexDigit_eq (c : UInt8) : hexDigit c = (digitValue c).filter (· < 16) := by
  unfold hexDigit digitValue
  simp only [UInt8.le_iff_toNat_le, UInt8.reduceToNat]
  split_ifs <;> simp only [filter_some, filter_none] <;>
    first
      | (exfalso; omega)
      | rw [if_pos (by simp only [decide_eq_true_eq]; omega)]
      | rw [if_neg (by simp only [decide_eq_true_eq]; omega)]

theorem decimalDigit_eq (c : UInt8) : decimalDigit c = (digitValue c).filter (· < 10) := by
  unfold decimalDigit digitValue
  simp only [UInt8.le_iff_toNat_le, UInt8.reduceToNat]
  split_ifs <;> simp only [filter_some, filter_none] <;>
    first
      | rw [if_pos (by simp only [decide_eq_true_eq]; omega)]
      | rw [if_neg (by simp only [decide_eq_true_eq]; omega)]

theorem isDigit_iff : isDigit base c = true ↔ ∃ v, digitValue c = some v ∧ v < base := by
  unfold isDigit
  rw [Option.any_eq_true]
  simp only [decide_eq_true_eq]

theorem isDigit_mono {base' : ℕ} (h : base ≤ base') (hc : isDigit base c = true) :
    isDigit base' c = true := by
  obtain ⟨v, hv, hlt⟩ := isDigit_iff.mp hc
  exact isDigit_iff.mpr ⟨v, hv, hlt.trans_le h⟩

/-- A digit is neither whitespace nor a sign. -/
theorem digit_spec (h : isDigit base c = true) :
    isSpace c = false ∧ c ≠ minusSign ∧ c ≠ plusSign := by
  obtain ⟨v, hv, -⟩ := isDigit_iff.mp h
  have hcases := digitValue_cases hv
  refine ⟨?_, ?_, ?_⟩
  · unfold isSpace
    rw [Bool.or_eq_false_iff, Bool.and_eq_false_iff, decide_eq_false_iff_not,
      decide_eq_false_iff_not, decide_eq_false_iff_not]
    refine ⟨fun heq => ?_, .inr fun hle => ?_⟩
    · have htoNat := congrArg UInt8.toNat heq
      simp only [UInt8.reduceToNat] at htoNat
      omega
    · rw [UInt8.le_iff_toNat_le] at hle
      simp only [UInt8.reduceToNat] at hle
      omega
  · intro heq
    have htoNat := congrArg UInt8.toNat heq
    simp only [minusSign, UInt8.reduceToNat] at htoNat
    omega
  · intro heq
    have htoNat := congrArg UInt8.toNat heq
    simp only [plusSign, UInt8.reduceToNat] at htoNat
    omega

theorem isX_not_digit {x : UInt8} (hx : isX x = true) : isDigit 16 x = false := by
  unfold isX at hx
  rcases Bool.or_eq_true_iff.mp hx with hx | hx <;> rw [of_decide_eq_true hx] <;> decide

theorem zeroDigit_isDigit (h : 0 < base) : isDigit base zeroDigit = true :=
  isDigit_iff.mpr ⟨0, by decide, h⟩

/-- The loop over digits has their number and stops behind them. -/
theorem accumulate_eq {w : ℕ} {digit : UInt8 → Option ℕ} {limit : ℕ}
    (hdigit : ∀ c, digit c = (digitValue c).filter (· < limit)) (base acc : ℕ)
    (text : List UInt8) :
    accumulate digit base (BitVec.ofNat w acc) text =
      (BitVec.ofNat w (ofDigits base acc (text.takeWhile (isDigit (min base limit)))),
        text.dropWhile (isDigit (min base limit))) := by
  induction text generalizing acc with
  | nil => rfl
  | cons c text ih =>
    unfold accumulate
    rw [hdigit]
    by_cases hc : isDigit (min base limit) c = true
    · obtain ⟨v, hv, hlt⟩ := isDigit_iff.mp hc
      have hbase : v < base := hlt.trans_le (min_le_left _ _)
      have hlimit : v < limit := hlt.trans_le (min_le_right _ _)
      have hacc : ofDigits base acc (c :: text.takeWhile (isDigit (min base limit))) =
          ofDigits base (acc * base + v) (text.takeWhile (isDigit (min base limit))) := by
        unfold ofDigits
        rw [foldl_cons, hv]
        rfl
      rw [hv, takeWhile_cons_of_pos hc, dropWhile_cons_of_pos hc, hacc, ← ih,
        filter_some, if_pos (decide_eq_true hlimit)]
      dsimp only
      rw [if_neg (not_le.mpr hbase), ← ofNat_mul, ← ofNat_add]
    · rw [takeWhile_cons_of_neg hc, dropWhile_cons_of_neg hc]
      cases hv : digitValue c with
      | none => rfl
      | some v =>
        rw [filter_some]
        by_cases hlimit : v < limit
        · have hbase : base ≤ v := by
            by_contra hlt
            exact hc (isDigit_iff.mpr ⟨v, hv, lt_min (not_le.mp hlt) hlimit⟩)
          rw [if_pos (decide_eq_true hlimit)]
          exact if_pos hbase
        · rw [if_neg (by simpa using hlimit)]
          rfl

/-! ## The longest number -/

def radixOf (base : ℕ) (text : List UInt8) : ℕ :=
  if base = 0 then if text.head? = some zeroDigit then 8 else 10 else base

def plainMagnitude (radix : ℕ) (text : List UInt8) : Option (List UInt8 × ℕ) :=
  if text.takeWhile (isDigit radix) = [] then none
  else some (text.takeWhile (isDigit radix), ofDigits radix 0 (text.takeWhile (isDigit radix)))

def hexMagnitude (text : List UInt8) : List UInt8 × ℕ :=
  (text.take 2 ++ (text.drop 2).takeWhile (isDigit 16),
    ofDigits 16 0 ((text.drop 2).takeWhile (isDigit 16)))

/-- The longest prefix of a text that is a number without a sign. -/
def longestMagnitude (base : ℕ) (text : List UInt8) : Option (List UInt8 × ℕ) :=
  if (base = 0 ∨ base = 16) ∧ hasHexNumber text = true then some (hexMagnitude text)
  else plainMagnitude (radixOf base text) text

theorem allDigits_takeWhile (base : ℕ) (text : List UInt8) :
    AllDigits base (text.takeWhile (isDigit base)) := fun _ hc => mem_takeWhile_imp hc

theorem hasHexNumber_cons {x : UInt8} {rest : List UInt8} (hx : isX x = true) (hne : digits ≠ [])
    (hdigits : AllDigits 16 digits) : hasHexNumber (zeroDigit :: x :: digits ++ rest) = true := by
  obtain ⟨d, digits, rfl⟩ := exists_cons_of_ne_nil hne
  have hd := hdigits d (mem_cons_self ..)
  unfold hasHexNumber hasHexPrefix
  simp [hx, hd]

theorem exists_of_hasHexNumber (h : hasHexNumber text = true) :
    ∃ x d rest, text = zeroDigit :: x :: d :: rest ∧ isX x = true ∧ isDigit 16 d = true := by
  unfold hasHexNumber hasHexPrefix at h
  match text with
  | [] => cases h
  | [_] => simp at h
  | [_, _] => simp at h
  | c :: x :: d :: rest =>
    simp only [head?_cons, drop_succ_cons, drop_zero, any_some,
      Bool.and_eq_true, decide_eq_true_eq, some.injEq] at h
    obtain ⟨⟨rfl, hx⟩, hd⟩ := h
    exact ⟨x, d, rest, rfl, hx, hd⟩

theorem plainMagnitude_eq_some (h : plainMagnitude radix text = some (digits, m)) :
    digits ≠ [] ∧ digits = text.takeWhile (isDigit radix) ∧ m = ofDigits radix 0 digits := by
  unfold plainMagnitude at h
  by_cases hnil : text.takeWhile (isDigit radix) = []
  · rw [if_pos hnil] at h
    cases h
  · rw [if_neg hnil] at h
    obtain ⟨rfl, rfl⟩ := Prod.mk.inj (some.inj h)
    exact ⟨hnil, rfl, rfl⟩

theorem plainMagnitude_of_ne (h : text.takeWhile (isDigit radix) ≠ []) : plainMagnitude radix text =
      some (text.takeWhile (isDigit radix), ofDigits radix 0 (text.takeWhile (isDigit radix))) :=
  if_neg h

/-- What is found is a number in front of the text. -/
theorem magnitude_of_longest (h : longestMagnitude base text = some (digits, m)) :
    Magnitude base digits m ∧ digits <+: text := by
  unfold longestMagnitude at h
  by_cases hhex : (base = 0 ∨ base = 16) ∧ hasHexNumber text = true
  · rw [if_pos hhex] at h
    obtain ⟨hbase, hhex⟩ := hhex
    obtain ⟨x, d, rest, rfl, hx, hd⟩ := exists_of_hasHexNumber hhex
    obtain ⟨rfl, rfl⟩ := Prod.mk.inj (some.inj h)
    refine ⟨.hexadecimal hbase hx ?_ (allDigits_takeWhile 16 _), ?_⟩
    · change (d :: rest).takeWhile (isDigit 16) ≠ []
      rw [takeWhile_cons_of_pos hd]
      exact cons_ne_nil _ _
    · exact (prefix_append_right_inj [zeroDigit, x]).mpr (List.takeWhile_prefix _)
  · rw [if_neg hhex] at h
    obtain ⟨hne, hdigits, rfl⟩ := plainMagnitude_eq_some h
    have hall := allDigits_takeWhile (radixOf base text) text
    rw [← hdigits] at hall
    refine ⟨?_, hdigits ▸ takeWhile_prefix _⟩
    unfold radixOf at hall hdigits ⊢
    by_cases hzero : base = 0
    · simp only [if_pos hzero] at hall hdigits ⊢
      cases digits with
      | nil => exact absurd rfl hne
      | cons c digits =>
        have hhead : text.head? = some c := by
          have hpre : c :: digits <+: text := by
            rw [hdigits]
            exact takeWhile_prefix _
          obtain ⟨rest, rfl⟩ := hpre
          rfl
        rw [hhead] at hall hdigits ⊢
        by_cases hc : c = zeroDigit
        · rw [if_pos (by rw [hc])] at hall ⊢
          rw [hc]
          exact .octal hzero fun d hd => hall d (mem_cons_of_mem _ hd)
        · rw [if_neg (by simpa using hc)] at hall ⊢
          exact .decimal hzero hc hall
    · simp only [if_neg hzero] at hall ⊢
      exact .plain hzero hne hall

theorem digits_prefix (hdigits : AllDigits base digits) (h : digits <+: text) :
    digits <+: text.takeWhile (isDigit base) := by
  obtain ⟨rest, rfl⟩ := h
  rw [takeWhile_append_of_pos hdigits]
  exact prefix_append _ _

/-- A number in front of a text is not longer than what is found, and the same if it is as
long. -/
def FoundFor (base : ℕ) (text digits : List UInt8) (m : ℕ) : Prop :=
  ∃ digits' m', longestMagnitude base text = some (digits', m') ∧
    digits.length ≤ digits'.length ∧ (digits.length = digits'.length → m = m')

theorem foundFor_plain (hhex : ¬((base = 0 ∨ base = 16) ∧ hasHexNumber text = true))
    (hradix : radixOf base text = radix) (hne : digits ≠ []) (hdigits : AllDigits radix digits)
    (hfront : digits <+: text) : FoundFor base text digits (ofDigits radix 0 digits) := by
  have hpre := digits_prefix hdigits hfront
  have hfound : text.takeWhile (isDigit radix) ≠ [] := by
    intro hnil
    rw [hnil] at hpre
    exact hne (prefix_nil.mp hpre)
  have hlongest : longestMagnitude base text = some (text.takeWhile (isDigit radix),
      ofDigits radix 0 (text.takeWhile (isDigit radix))) := by
    unfold longestMagnitude
    rw [if_neg hhex, hradix]
    exact plainMagnitude_of_ne hfound
  refine ⟨_, _, hlongest, hpre.length_le, fun hlen => ?_⟩
  exact congrArg (ofDigits radix 0) (hpre.eq_of_length hlen)

theorem foundFor_zero (hbase : base = 0 ∨ base = 16) (hhex : hasHexNumber text = true)
    (hradix : radix ≤ 16) (hdigits : AllDigits radix digits) (hfront : digits <+: text) :
    FoundFor base text digits m := by
  obtain ⟨x, d, rest, rfl, hx, hd⟩ := exists_of_hasHexNumber hhex
  have hpre := digits_prefix (fun c hc => isDigit_mono hradix (hdigits c hc)) hfront
  have hfound : (zeroDigit :: x :: d :: rest).takeWhile (isDigit 16) = [zeroDigit] := by
    rw [takeWhile_cons_of_pos (zeroDigit_isDigit (by decide)),
      takeWhile_cons_of_neg (by rw [isX_not_digit hx]; exact Bool.false_ne_true)]
  rw [hfound] at hpre
  have hlen := hpre.length_le
  have hlong : 2 ≤ (hexMagnitude (zeroDigit :: x :: d :: rest)).1.length := by
    unfold hexMagnitude
    rw [length_append]
    exact Nat.le_add_right 2 _
  rw [length_singleton] at hlen
  have hlongest : longestMagnitude base (zeroDigit :: x :: d :: rest) =
      some ((hexMagnitude (zeroDigit :: x :: d :: rest)).1,
        (hexMagnitude (zeroDigit :: x :: d :: rest)).2) := if_pos ⟨hbase, hhex⟩
  refine ⟨_, _, hlongest, by omega, fun heq => ?_⟩
  omega

theorem le_longest (h : Magnitude base digits m) (hfront : digits <+: text) :
    FoundFor base text digits m := by
  cases h with
  | plain hbase hne hdigits =>
    by_cases hhex : (base = 0 ∨ base = 16) ∧ hasHexNumber text = true
    · have hbase16 : base = 16 := hhex.1.resolve_left hbase
      exact foundFor_zero hhex.1 hhex.2 hbase16.le hdigits hfront
    · exact foundFor_plain hhex (if_neg hbase) hne hdigits hfront
  | @hexadecimal x digits hbase hx hne hdigits =>
    obtain ⟨rest, rfl⟩ := hfront
    have hhex : hasHexNumber (zeroDigit :: x :: digits ++ rest) = true :=
      hasHexNumber_cons hx hne hdigits
    have hpre : digits <+: (digits ++ rest).takeWhile (isDigit 16) :=
      digits_prefix hdigits (prefix_append _ _)
    refine ⟨_, _, if_pos ⟨hbase, hhex⟩, ?_, fun hlen => ?_⟩
    · exact ((prefix_append_right_inj [zeroDigit, x]).mpr hpre).length_le
    · have hlen' : digits.length = ((digits ++ rest).takeWhile (isDigit 16)).length := by
        have := congrArg (fun n => n - 2) hlen
        exact this
      exact congrArg (ofDigits 16 0) (hpre.eq_of_length hlen')
  | @octal digits hbase hdigits =>
    have hall : AllDigits 8 (zeroDigit :: digits) := by
      intro c hc
      rcases mem_cons.mp hc with rfl | hc
      · exact zeroDigit_isDigit (by decide)
      · exact hdigits c hc
    by_cases hhex : (base = 0 ∨ base = 16) ∧ hasHexNumber text = true
    · exact foundFor_zero hhex.1 hhex.2 (by decide) hall hfront
    · refine foundFor_plain hhex ?_ (cons_ne_nil _ _) hall hfront
      obtain ⟨rest, rfl⟩ := hfront
      unfold radixOf
      rw [if_pos hbase]
      rfl
  | @decimal c digits hbase hc hdigits =>
    obtain ⟨rest, rfl⟩ := hfront
    have hhex : ¬((base = 0 ∨ base = 16) ∧ hasHexNumber (c :: digits ++ rest) = true) := by
      rintro ⟨-, hhex⟩
      obtain ⟨x, d, rest', heq, -, -⟩ := exists_of_hasHexNumber hhex
      exact hc (cons.inj heq).1
    refine foundFor_plain hhex ?_ (cons_ne_nil _ _) hdigits (prefix_append _ _)
    unfold radixOf
    rw [if_pos hbase, if_neg]
    intro heq
    exact hc (some.inj heq)

/-! ## Whitespace and signs -/

/-- How many characters stand in front of the body. -/
def lead (s : List UInt8) : ℕ := s.length - (bodyOf s).length

theorem skipSign_cons (c : UInt8) (rest : List UInt8) :
    skipSign (c :: rest) = if c = minusSign then (true, rest)
      else if c = plusSign then (false, rest) else (false, c :: rest) := rfl

theorem skipSign_spec (rest : List UInt8) :
    ∃ sign, Sign sign (skipSign rest).1 ∧ rest = sign ++ (skipSign rest).2 := by
  cases rest with
  | nil => exact ⟨[], .none, rfl⟩
  | cons c rest =>
    rw [skipSign_cons]
    split_ifs with hminus hplus
    · exact ⟨[minusSign], .minus, by rw [hminus]; rfl⟩
    · exact ⟨[plusSign], .plus, by rw [hplus]; rfl⟩
    · exact ⟨[], .none, rfl⟩

theorem skipSign_append {sign : List UInt8} (hsign : Sign sign neg) (hminus : c ≠ minusSign)
    (hplus : c ≠ plusSign) (rest : List UInt8) :
    skipSign (sign ++ c :: rest) = (neg, c :: rest) := by
  cases hsign with
  | none =>
    change skipSign (c :: rest) = _
    rw [skipSign_cons, if_neg hminus, if_neg hplus]
  | plus | minus => rfl

theorem sign_not_space {sign : List UInt8} (h : Sign sign neg) : ∀ c ∈ sign, isSpace c = false := by
  cases h with
  | none => exact forall_mem_nil _
  | plus | minus => exact forall_mem_singleton.mpr (by decide)

theorem dropWhile_isSpace_of_head (hc : isSpace c = false) (rest : List UInt8) :
    (c :: rest).dropWhile isSpace = c :: rest :=
  dropWhile_cons_of_neg (by rw [hc]; exact Bool.false_ne_true)

theorem magnitude_head (h : Magnitude base text m) :
    ∃ c rest radix, text = c :: rest ∧ isDigit radix c = true := by
  cases h with
  | plain hbase hne hdigits =>
    obtain ⟨c, rest, rfl⟩ := exists_cons_of_ne_nil hne
    exact ⟨c, rest, base, rfl, hdigits c (mem_cons_self ..)⟩
  | hexadecimal hbase hx hne hdigits | octal hbase hdigits => exact ⟨_, _, 1, rfl, by decide⟩
  | decimal hbase hc hdigits => exact ⟨_, _, 10, rfl, hdigits _ (mem_cons_self ..)⟩

theorem exists_lead (s : List UInt8) :
    ∃ spaces sign, (∀ c ∈ spaces, isSpace c = true) ∧ Sign sign (isNegative s) ∧
      s = spaces ++ sign ++ bodyOf s := by
  obtain ⟨sign, hsign, hrest⟩ := skipSign_spec (s.dropWhile isSpace)
  refine ⟨s.takeWhile isSpace, sign, fun c hc => List.mem_takeWhile_imp hc, hsign, ?_⟩
  have hsplit := (List.takeWhile_append_dropWhile (p := isSpace) (l := s)).symm
  rw [List.append_assoc]
  exact hsplit.trans (congrArg (s.takeWhile isSpace ++ ·) hrest)

theorem length_eq_lead (s : List UInt8) : s.length = lead s + (bodyOf s).length := by
  obtain ⟨spaces, sign, -, -, hs⟩ := exists_lead s
  have hlen := congrArg length hs
  rw [length_append] at hlen
  unfold lead
  omega

theorem bodyOf_eq_iff (s : List UInt8) : bodyOf s = s ↔ lead s = 0 := by
  have hlen := length_eq_lead s
  refine ⟨fun h => ?_, fun h => ?_⟩
  · rw [h] at hlen
    omega
  · obtain ⟨spaces, sign, -, -, hs⟩ := exists_lead s
    have hsuffix : bodyOf s <:+ s := ⟨spaces ++ sign, hs.symm⟩
    exact hsuffix.eq_of_length (by omega)

theorem number_parts (h : Number base text neg m) (hfront : text <+: s) :
    neg = isNegative s ∧ ∃ body, Magnitude base body m ∧ body <+: bodyOf s ∧
      text.length = lead s + body.length := by
  cases h with
  | @mk spaces sign body _ _ hspaces hsign hbody =>
    obtain ⟨rest, rfl⟩ := hfront
    obtain ⟨c, tail, radix, rfl, hc⟩ := magnitude_head hbody
    obtain ⟨hspace, hminus, hplus⟩ := digit_spec hc
    have hshape : spaces ++ sign ++ c :: tail ++ rest =
        spaces ++ (sign ++ c :: (tail ++ rest)) := by
      simp only [List.append_assoc, List.cons_append]
    have hdrop : (spaces ++ sign ++ c :: tail ++ rest).dropWhile isSpace =
        sign ++ c :: (tail ++ rest) := by
      rw [hshape, List.dropWhile_append_of_pos hspaces]
      cases sign with
      | nil => exact dropWhile_isSpace_of_head hspace _
      | cons d sign =>
        exact dropWhile_isSpace_of_head (sign_not_space hsign d (List.mem_cons_self ..)) _
    have hskip : skipSign ((spaces ++ sign ++ c :: tail ++ rest).dropWhile isSpace) =
        (neg, c :: (tail ++ rest)) := by
      rw [hdrop]
      exact skipSign_append hsign hminus hplus _
    have hneg : isNegative (spaces ++ sign ++ c :: tail ++ rest) = neg :=
      congrArg Prod.fst hskip
    have hbodyOf : bodyOf (spaces ++ sign ++ c :: tail ++ rest) = c :: (tail ++ rest) :=
      congrArg Prod.snd hskip
    refine ⟨hneg.symm, _, hbody, ?_, ?_⟩
    · rw [hbodyOf]
      exact ⟨rest, rfl⟩
    · have hlen := length_eq_lead (spaces ++ sign ++ c :: tail ++ rest)
      rw [hbodyOf] at hlen
      simp only [List.length_append, List.length_cons] at hlen ⊢
      omega

theorem number_of_magnitude {body : List UInt8} (h : Magnitude base body m)
    (hfront : body <+: bodyOf s) : ∃ text, Number base text (isNegative s) m ∧ text <+: s ∧
      text.length = lead s + body.length := by
  obtain ⟨spaces, sign, hspaces, hsign, hs⟩ := exists_lead s
  have hnumber : Number base (spaces ++ sign ++ body) (isNegative s) m :=
    .mk hspaces hsign h
  have htext : spaces ++ sign ++ body <+: s := by
    obtain ⟨rest, hrest⟩ := hfront
    refine ⟨rest, ?_⟩
    rw [append_assoc (spaces ++ sign), hrest]
    exact hs.symm
  have hlen := congrArg length hs
  have hlead := length_eq_lead s
  refine ⟨_, hnumber, htext, ?_⟩
  simp only [length_append] at hlen ⊢
  omega

theorem exists_longest (h : longestMagnitude base (bodyOf s) = some (digits, m)) :
    ∃ text, Longest base s text (isNegative s) m ∧ text.length = lead s + digits.length := by
  obtain ⟨hmagnitude, hfront⟩ := magnitude_of_longest h
  obtain ⟨text, hnumber, htext, hlen⟩ := number_of_magnitude hmagnitude hfront
  refine ⟨text, ⟨hnumber, htext, fun text' neg' m' hnumber' htext' => ?_⟩, hlen⟩
  obtain ⟨-, body, hbody, hbodyOf, hlen'⟩ := number_parts hnumber' htext'
  obtain ⟨digits', m'', hfound, hle, -⟩ := le_longest hbody hbodyOf
  rw [h] at hfound
  obtain ⟨rfl, rfl⟩ := Prod.mk.inj (some.inj hfound)
  omega

theorem longest_spec (h : Longest base s text neg m) :
    neg = isNegative s ∧ ∃ digits, longestMagnitude base (bodyOf s) = some (digits, m) ∧
      text.length = lead s + digits.length := by
  obtain ⟨hneg, body, hbody, hbodyOf, hlen⟩ := number_parts h.number h.isPrefix
  obtain ⟨digits, m', hfound, hle, heq⟩ := le_longest hbody hbodyOf
  obtain ⟨text', hlongest', hlen'⟩ := exists_longest hfound
  have hmax := h.longest _ _ _ hlongest'.number hlongest'.isPrefix
  have hbodyLen : body.length = digits.length := by omega
  exact ⟨hneg, digits, heq hbodyLen ▸ hfound, by omega⟩

theorem noNumber_iff : NoNumber base s ↔ longestMagnitude base (bodyOf s) = none := by
  refine ⟨fun h => ?_, fun h text neg m hnumber hfront => ?_⟩
  · rw [eq_none_iff_forall_ne_some]
    rintro ⟨digits, m⟩ hfound
    obtain ⟨text, hlongest, -⟩ := exists_longest hfound
    exact h _ _ _ hlongest.number hlongest.isPrefix
  · obtain ⟨-, body, hbody, hbodyOf, -⟩ := number_parts hnumber hfront
    obtain ⟨digits, m', hfound, -⟩ := le_longest hbody hbodyOf
    rw [h] at hfound
    cases hfound

section Found

variable {base : ℕ} {s digits : List UInt8} {m : ℕ} {result : Bool → ℕ → ℤ} {value : ℤ}

theorem parsesExactly_some {consumed : ℕ}
    (h : longestMagnitude base (bodyOf s) = some (digits, m)) :
    ParsesExactly result base s value consumed ↔
      value = result (isNegative s) m ∧ consumed = lead s + digits.length := by
  constructor
  · rintro (⟨text, neg, m', hlongest, hvalue, hconsumed⟩ | ⟨hnone, -⟩)
    · obtain ⟨hneg, digits', hfound, hlen⟩ := longest_spec hlongest
      rw [h] at hfound
      obtain ⟨rfl, rfl⟩ := Prod.mk.inj (some.inj hfound)
      exact ⟨hneg ▸ hvalue, hconsumed.trans hlen⟩
    · rw [noNumber_iff.mp hnone] at h
      cases h
  · rintro ⟨hvalue, hconsumed⟩
    obtain ⟨text, hlongest, hlen⟩ := exists_longest h
    exact .inl ⟨text, _, m, hlongest, hvalue, hconsumed.trans hlen.symm⟩

theorem parsesExactly_none {consumed : ℕ} (h : longestMagnitude base (bodyOf s) = none) :
    ParsesExactly result base s value consumed ↔ value = 0 ∧ consumed = 0 := by
  constructor
  · rintro (⟨text, neg, m', hlongest, -⟩ | ⟨-, hzero⟩)
    · exact absurd hlongest.isPrefix (noNumber_iff.mpr h _ _ _ hlongest.number)
    · exact hzero
  · exact fun hzero => .inr ⟨noNumber_iff.mpr h, hzero⟩

theorem valueExact_iff :
    ValueExact result base s value ↔ ∃ consumed, ParsesExactly result base s value consumed := by
  constructor
  · rintro (⟨text, neg, m', hlongest, hvalue⟩ | ⟨hnone, hzero⟩)
    · exact ⟨_, .inl ⟨text, neg, m', hlongest, hvalue, rfl⟩⟩
    · exact ⟨_, .inr ⟨hnone, hzero, rfl⟩⟩
  · rintro ⟨consumed, ⟨text, neg, m', hlongest, hvalue, -⟩ | ⟨hnone, hzero, -⟩⟩
    · exact .inl ⟨text, neg, m', hlongest, hvalue⟩
    · exact .inr ⟨hnone, hzero⟩

theorem valueExact_some (h : longestMagnitude base (bodyOf s) = some (digits, m)) :
    ValueExact result base s value ↔ value = result (isNegative s) m := by
  rw [valueExact_iff]
  simp only [parsesExactly_some h, exists_and_left, exists_eq, and_true]

theorem valueExact_none (h : longestMagnitude base (bodyOf s) = none) :
    ValueExact result base s value ↔ value = 0 := by
  rw [valueExact_iff]
  simp only [parsesExactly_none h, exists_and_left, exists_eq, and_true]

theorem numberIs_some {P : Bool → ℕ → Prop}
    (h : longestMagnitude base (bodyOf s) = some (digits, m)) :
    NumberIs base s P ↔ P (isNegative s) m := by
  constructor
  · intro hnumber
    obtain ⟨text, hlongest, -⟩ := exists_longest h
    exact hnumber _ _ _ hlongest
  · intro hP text neg m' hlongest
    obtain ⟨rfl, digits', hfound, -⟩ := longest_spec hlongest
    rw [h] at hfound
    obtain ⟨rfl, rfl⟩ := Prod.mk.inj (some.inj hfound)
    exact hP

theorem numberIs_none {P : Bool → ℕ → Prop} (h : longestMagnitude base (bodyOf s) = none) :
    NumberIs base s P := by
  intro text neg m' hlongest
  exact absurd hlongest.isPrefix (noNumber_iff.mpr h _ _ _ hlongest.number)

end Found

/-! ## What the functions read -/

/-- What `strtol` consumes of a body, and its number. -/
def readMagnitude (base : ℕ) (text : List UInt8) : List UInt8 × ℕ :=
  if base = 0 ∧ hasHexPrefix text = true then hexMagnitude text
  else (text.takeWhile (isDigit (min (radixOf base text) 16)),
    ofDigits (radixOf base text) 0 (text.takeWhile (isDigit (min (radixOf base text) 16))))

theorem exists_of_hasHexPrefix (h : hasHexPrefix text = true) :
    ∃ x rest, text = zeroDigit :: x :: rest ∧ isX x = true := by
  unfold hasHexPrefix at h
  match text with
  | [] => cases h
  | [_] => simp at h
  | c :: x :: rest =>
    simp only [head?_cons, drop_succ_cons, drop_zero, any_some,
      Bool.and_eq_true, decide_eq_true_eq, some.injEq] at h
    obtain ⟨rfl, hx⟩ := h
    exact ⟨x, rest, rfl, hx⟩

theorem chooseBase_hex (h : hasHexPrefix text = true) :
    chooseBase 0 text = (16, text.drop 2) ∧ 2 ≤ text.length := by
  obtain ⟨x, rest, rfl, hx⟩ := exists_of_hasHexPrefix h
  have hchoose : chooseBase 0 (zeroDigit :: x :: rest) =
      if isX x = true then (16, rest) else (8, zeroDigit :: x :: rest) := rfl
  rw [hchoose, if_pos hx]
  exact ⟨rfl, by simp⟩

theorem chooseBase_plain (h : ¬(base = 0 ∧ hasHexPrefix text = true)) :
    chooseBase base text = (radixOf base text, text) := by
  unfold chooseBase radixOf
  by_cases hbase : base = 0
  · rw [if_pos hbase, if_pos hbase]
    cases text with
    | nil => rfl
    | cons c tail =>
      by_cases hc : c = zeroDigit
      · have hx : ¬tail.head?.any isX = true := by
          intro hx
          refine h ⟨hbase, ?_⟩
          unfold hasHexPrefix
          rw [Bool.and_eq_true, decide_eq_true_eq]
          exact ⟨congrArg some hc, hx⟩
        have hhead : (c :: tail).head? = some zeroDigit := congrArg some hc
        dsimp only
        rw [if_pos hc, if_neg hx, if_pos hhead]
      · have hhead : (c :: tail).head? ≠ some zeroDigit := fun heq => hc (some.inj heq)
        dsimp only
        rw [if_neg hc, if_neg hhead]
  · rw [if_neg hbase, if_neg hbase]

theorem strtol_eq (s : List UInt8) (base : ℕ) : strtol s base =
      (signed (isNegative s) (BitVec.ofNat 64 (readMagnitude base (bodyOf s)).2),
        lead s + (readMagnitude base (bodyOf s)).1.length) := by
  have hrun : strtol s base = (signed (isNegative s)
        (accumulate hexDigit (chooseBase base (bodyOf s)).1 0 (chooseBase base (bodyOf s)).2).1,
      s.length - (accumulate hexDigit (chooseBase base (bodyOf s)).1 (0 : BitVec 64)
        (chooseBase base (bodyOf s)).2).2.length) := rfl
  have hzero : (0 : BitVec 64) = BitVec.ofNat 64 0 := rfl
  have hlen := length_eq_lead s
  rw [hrun, hzero, accumulate_eq hexDigit_eq]
  unfold readMagnitude
  by_cases hhex : base = 0 ∧ hasHexPrefix (bodyOf s) = true
  · obtain ⟨hbase, hhex⟩ := hhex
    obtain ⟨hchoose, hlong⟩ := chooseBase_hex hhex
    rw [if_pos ⟨hbase, hhex⟩, hbase, hchoose]
    refine Prod.ext rfl ?_
    have hsplit := congrArg length
      (takeWhile_append_dropWhile (p := isDigit 16) (l := (bodyOf s).drop 2))
    rw [length_append, length_drop] at hsplit
    unfold hexMagnitude
    rw [length_append, length_take, min_eq_left hlong]
    dsimp only
    rw [min_self]
    omega
  · rw [if_neg hhex, chooseBase_plain hhex]
    refine Prod.ext rfl ?_
    have hsplit := congrArg length
      (takeWhile_append_dropWhile (p := isDigit (min (radixOf base (bodyOf s)) 16))
        (l := bodyOf s))
    rw [length_append] at hsplit
    dsimp only
    omega

theorem takeWhile_zeroBase (text : List UInt8) : text.takeWhile (isDigit 0) = [] := by
  cases text with
  | nil => rfl
  | cons c text =>
    refine takeWhile_cons_of_neg fun hc => ?_
    obtain ⟨v, -, hv⟩ := isDigit_iff.mp hc
    exact absurd hv (Nat.not_lt_zero v)

theorem hasHexPrefix_of_number (h : hasHexNumber text = true) :
    hasHexPrefix text = true := (Bool.and_eq_true_iff.mp h).1

theorem takeWhile_hexPrefix (h : hasHexPrefix text = true) (hpos : 0 < radix)
    (hradix : radix ≤ 16) :
    text.takeWhile (isDigit radix) = [zeroDigit] := by
  obtain ⟨x, rest, rfl, hx⟩ := exists_of_hasHexPrefix h
  rw [takeWhile_cons_of_pos (zeroDigit_isDigit hpos), takeWhile_cons_of_neg]
  intro hdigit
  have hsixteen := isDigit_mono hradix hdigit
  rw [isX_not_digit hx] at hsixteen
  cases hsixteen

theorem takeWhile_min_prefix (base : ℕ) (text : List UInt8) :
    text.takeWhile (isDigit (min base 16)) <+: text.takeWhile (isDigit base) :=
  digits_prefix (fun _ hc => isDigit_mono (min_le_left _ _) (mem_takeWhile_imp hc))
    (List.takeWhile_prefix _)

/-- The digits that are read are those of the base iff none is behind `f`. -/
theorem takeWhile_min_length :
    (text.takeWhile (isDigit (min base 16))).length = (text.takeWhile (isDigit base)).length ↔
      ∀ c ∈ text.takeWhile (isDigit base), isDigit 16 c = true := by
  have hsub := takeWhile_min_prefix base text
  constructor
  · intro hlen c hc
    rw [← hsub.eq_of_length hlen] at hc
    exact isDigit_mono (min_le_right _ _) (mem_takeWhile_imp hc)
  · intro hall
    refine le_antisymm hsub.length_le (IsPrefix.length_le ?_)
    refine digits_prefix (fun c hc => ?_) (List.takeWhile_prefix _)
    obtain ⟨v, hv, hlt⟩ := isDigit_iff.mp (hall c hc)
    obtain ⟨v', hv', hlt'⟩ := isDigit_iff.mp (mem_takeWhile_imp hc)
    rw [hv] at hv'
    exact isDigit_iff.mpr ⟨v, hv, lt_min (some.inj hv' ▸ hlt') hlt⟩

theorem takeWhile_eq_nil_of_head {p : UInt8 → Bool} (h : text.takeWhile p = []) :
    text.head?.any p = false := by
  cases text with
  | nil => rfl
  | cons c text =>
    by_cases hc : p c = true
    · rw [takeWhile_cons_of_pos hc] at h
      cases h
    · exact Bool.eq_false_iff.mpr hc

theorem head_of_takeWhile_ne_nil {p : UInt8 → Bool} (h : text.takeWhile p ≠ []) :
    text.head?.any p = true := by
  cases text with
  | nil => exact absurd rfl h
  | cons c text =>
    by_cases hc : p c = true
    · exact hc
    · rw [takeWhile_cons_of_neg hc] at h
      exact absurd rfl h

/-- A string with a number begins with a digit. -/
theorem head_of_longest (h : longestMagnitude base text = some (digits, m)) :
    text.head?.any (isDigit (if base = 0 then 10 else base)) = true := by
  unfold longestMagnitude at h
  by_cases hhex : (base = 0 ∨ base = 16) ∧ hasHexNumber text = true
  · obtain ⟨hbase, hhex⟩ := hhex
    obtain ⟨x, d, rest, rfl, -, -⟩ := exists_of_hasHexNumber hhex
    refine zeroDigit_isDigit ?_
    split_ifs with hzero
    · decide
    · exact Nat.pos_of_ne_zero hzero
  · rw [if_neg hhex] at h
    obtain ⟨hne, hdigits, -⟩ := plainMagnitude_eq_some h
    rw [hdigits] at hne
    have hhead := head_of_takeWhile_ne_nil hne
    unfold radixOf at hhead
    split_ifs at hhead ⊢ with hzero hoctal
    · obtain ⟨c, hc, hdigit⟩ := (Option.any_eq_true ..).mp hhead
      exact (Option.any_eq_true ..).mpr ⟨c, hc, isDigit_mono (by decide) hdigit⟩
    · exact hhead
    · exact hhead

theorem head_of_none (h : longestMagnitude base text = none) :
    hasHexPrefix text = false ∨ base ≠ 0 := by
  by_contra hcon
  obtain ⟨hhex, hbase⟩ := not_or.mp hcon
  have hbase : base = 0 := not_not.mp hbase
  obtain ⟨x, rest, rfl, -⟩ := exists_of_hasHexPrefix (Bool.not_eq_false _ ▸ hhex)
  unfold longestMagnitude at h
  split_ifs at h
  have hradix : radixOf base (zeroDigit :: x :: rest) = 8 := by
    unfold radixOf
    rw [if_pos hbase]
    rfl
  have hne : (zeroDigit :: x :: rest).takeWhile (isDigit 8) ≠ [] := by
    rw [takeWhile_cons_of_pos (by decide)]
    exact cons_ne_nil _ _
  rw [hradix, plainMagnitude_of_ne hne] at h
  cases h

theorem takeWhile_of_none (h : longestMagnitude base text = none) :
    text.takeWhile (isDigit (radixOf base text)) = [] := by
  unfold longestMagnitude at h
  split_ifs at h
  by_contra hne
  rw [plainMagnitude_of_ne hne] at h
  cases h

/-- Without a number the characters behind whitespace and a sign are consumed. -/
theorem readsWhole_none (h : longestMagnitude base (bodyOf s) = none) :
    readMagnitude base (bodyOf s) = ([], 0) ∧ (ReadsWhole base s ↔ lead s = 0) := by
  have hnil := takeWhile_of_none h
  have hread : (bodyOf s).takeWhile (isDigit (min (radixOf base (bodyOf s)) 16)) = [] := by
    have hsub := takeWhile_min_prefix (radixOf base (bodyOf s)) (bodyOf s)
    rw [hnil] at hsub
    exact prefix_nil.mp hsub
  have hfront : ¬(base = 0 ∧ hasHexPrefix (bodyOf s) = true) := by
    rintro ⟨hbase, hhex⟩
    rcases head_of_none h with hno | hno
    · rw [hno] at hhex
      cases hhex
    · exact hno hbase
  have hhead : (bodyOf s).head?.any (isDigit (if base = 0 then 10 else base)) = false := by
    unfold radixOf at hnil
    split_ifs at hnil ⊢ with hbase hoctal
    · have hzero := takeWhile_eq_nil_of_head hnil
      rw [hoctal] at hzero
      cases hzero
    · exact takeWhile_eq_nil_of_head hnil
    · exact takeWhile_eq_nil_of_head hnil
  refine ⟨?_, fun hwhole => (bodyOf_eq_iff s).mp (hwhole.start hhead), fun hlead => ?_⟩
  · unfold readMagnitude
    rw [if_neg hfront, hread]
    rfl
  · refine ⟨fun hbase => ?_, fun hbase hhex => absurd ⟨hbase, hhex⟩ hfront, fun c hc => ?_,
      fun _ => (bodyOf_eq_iff s).mpr hlead⟩
    · by_contra hhex
      unfold longestMagnitude at h
      rw [if_pos ⟨.inr hbase, Bool.not_eq_false _ ▸ hhex⟩] at h
      cases h
    · by_cases hbase : base = 0
      · rw [hbase, takeWhile_zeroBase] at hc
        cases hc
      · unfold radixOf at hnil
        rw [if_neg hbase] at hnil
        rw [hnil] at hc
        cases hc

/-- Where the longest number of a body is known, `ReadsWhole` says that it is read. -/
structure ReadsLongest (base : ℕ) (s digits : List UInt8) (m : ℕ) : Prop where
  iff_length : ReadsWhole base s ↔ (readMagnitude base (bodyOf s)).1.length = digits.length
  eq : ReadsWhole base s → readMagnitude base (bodyOf s) = (digits, m)

section ReadsLongest

variable {base : ℕ} {s digits : List UInt8} {m : ℕ}

theorem ReadsLongest.of_not (hwhole : ¬ReadsWhole base s)
    (hlen : (readMagnitude base (bodyOf s)).1.length ≠ digits.length) :
    ReadsLongest base s digits m :=
  ⟨⟨fun h => absurd h hwhole, fun h => absurd h hlen⟩, fun h => absurd h hwhole⟩

theorem two_le_hexMagnitude (h : hasHexPrefix text = true) : 2 ≤ (hexMagnitude text).1.length := by
  obtain ⟨x, rest, rfl, -⟩ := exists_of_hasHexPrefix h
  unfold hexMagnitude
  rw [length_append]
  exact Nat.le_add_right 2 _

theorem readsLongest_hex (hhex : hasHexNumber (bodyOf s) = true) (hbase : base = 0)
    (h : hexMagnitude (bodyOf s) = (digits, m))
    (hstart : (bodyOf s).head?.any (isDigit (if base = 0 then 10 else base)) = true) :
    ReadsLongest base s digits m := by
  have hread : readMagnitude base (bodyOf s) = (digits, m) :=
    (if_pos ⟨hbase, hasHexPrefix_of_number hhex⟩).trans h
  refine ⟨⟨fun _ => by rw [hread], fun _ => ⟨fun h16 => ?_, fun _ _ => hhex, fun c hc => ?_,
    fun hno => ?_⟩⟩, fun _ => hread⟩
  · exact absurd (hbase.symm.trans h16) (by decide)
  · rw [hbase, takeWhile_zeroBase] at hc
    cases hc
  · rw [hno] at hstart
    cases hstart

theorem readsLongest_sixteen (hhex : hasHexNumber (bodyOf s) = true) (hbase : base = 16)
    (h : hexMagnitude (bodyOf s) = (digits, m)) : ReadsLongest base s digits m := by
  have hpre := hasHexPrefix_of_number hhex
  have hradix : min (radixOf base (bodyOf s)) 16 = 16 := by
    unfold radixOf
    rw [hbase]
    rfl
  refine .of_not (fun hwhole => ?_) fun hlen => ?_
  · have hno := hwhole.hexBase hbase
    rw [hhex] at hno
    cases hno
  · have hlong := two_le_hexMagnitude hpre
    unfold readMagnitude at hlen
    rw [if_neg fun hcon => absurd (hcon.1.symm.trans hbase) (by decide), hradix,
      takeWhile_hexPrefix hpre (by decide) le_rfl] at hlen
    rw [h] at hlong
    have hone : 1 = digits.length := hlen
    have htwo : 2 ≤ digits.length := hlong
    omega

theorem readsLongest_prefix (hbase : base = 0) (hpre : hasHexPrefix (bodyOf s) = true)
    (hhex : hasHexNumber (bodyOf s) = false)
    (h : plainMagnitude (radixOf base (bodyOf s)) (bodyOf s) = some (digits, m)) :
    ReadsLongest base s digits m := by
  obtain ⟨-, hdigits, -⟩ := plainMagnitude_eq_some h
  have hradix : radixOf base (bodyOf s) = 8 := by
    obtain ⟨x, rest, hbody, -⟩ := exists_of_hasHexPrefix hpre
    unfold radixOf
    rw [hbody, if_pos hbase]
    rfl
  refine .of_not (fun hwhole => ?_) fun hlen => ?_
  · have hyes := hwhole.hexPrefix hbase hpre
    rw [hhex] at hyes
    cases hyes
  · have hlong := two_le_hexMagnitude hpre
    unfold readMagnitude at hlen
    rw [if_pos ⟨hbase, hpre⟩] at hlen
    rw [hlen, hdigits, hradix, takeWhile_hexPrefix hpre (by decide) (by decide)] at hlong
    exact absurd hlong (by decide)

theorem readsLongest_plain (hpre : ¬(base = 0 ∧ hasHexPrefix (bodyOf s) = true))
    (h16 : base = 16 → hasHexNumber (bodyOf s) = false)
    (h : plainMagnitude (radixOf base (bodyOf s)) (bodyOf s) = some (digits, m))
    (hstart : (bodyOf s).head?.any (isDigit (if base = 0 then 10 else base)) = true) :
    ReadsLongest base s digits m := by
  obtain ⟨-, rfl, rfl⟩ := plainMagnitude_eq_some h
  have hread : readMagnitude base (bodyOf s) =
      ((bodyOf s).takeWhile (isDigit (min (radixOf base (bodyOf s)) 16)),
        ofDigits (radixOf base (bodyOf s)) 0
          ((bodyOf s).takeWhile (isDigit (min (radixOf base (bodyOf s)) 16)))) := if_neg hpre
  have hletters : (∀ c ∈ (bodyOf s).takeWhile (isDigit base), isDigit 16 c = true) ↔
      ((bodyOf s).takeWhile (isDigit (min (radixOf base (bodyOf s)) 16))).length =
        ((bodyOf s).takeWhile (isDigit (radixOf base (bodyOf s)))).length := by
    by_cases hbase : base = 0
    · have hradix : min (radixOf base (bodyOf s)) 16 = radixOf base (bodyOf s) := by
        unfold radixOf
        split_ifs <;> rfl
      rw [hradix, hbase, takeWhile_zeroBase]
      exact ⟨fun _ => rfl, fun _ c hc => absurd hc not_mem_nil⟩
    · have hradix : radixOf base (bodyOf s) = base := if_neg hbase
      rw [hradix]
      exact takeWhile_min_length.symm
  have hwhole : ReadsWhole base s ↔
      ∀ c ∈ (bodyOf s).takeWhile (isDigit base), isDigit 16 c = true := by
    refine ⟨fun hwhole => hwhole.letters, fun hall => ⟨h16, fun hbase hhex => ?_, hall, ?_⟩⟩
    · exact absurd ⟨hbase, hhex⟩ hpre
    · intro hno
      rw [hno] at hstart
      cases hstart
  refine ⟨?_, fun hw => ?_⟩
  · rw [hread]
    exact hwhole.trans hletters
  · have hlen := hletters.mp (hwhole.mp hw)
    have hsub := takeWhile_min_prefix (radixOf base (bodyOf s)) (bodyOf s)
    rw [hread, hsub.eq_of_length hlen]

theorem readsLongest (h : longestMagnitude base (bodyOf s) = some (digits, m)) :
    ReadsLongest base s digits m := by
  have hstart := head_of_longest h
  unfold longestMagnitude at h
  by_cases hhex : hasHexNumber (bodyOf s) = true
  · by_cases hbase : base = 0 ∨ base = 16
    · rw [if_pos ⟨hbase, hhex⟩] at h
      have hfound := some.inj h
      rcases hbase with hbase | hbase
      · exact readsLongest_hex hhex hbase hfound hstart
      · exact readsLongest_sixteen hhex hbase hfound
    · rw [if_neg fun hcon => hbase hcon.1] at h
      obtain ⟨h0, h16⟩ := not_or.mp hbase
      exact readsLongest_plain (fun hcon => h0 hcon.1) (fun hcon => absurd hcon h16) h hstart
  · rw [if_neg fun hcon => hhex hcon.2] at h
    have hno : hasHexNumber (bodyOf s) = false := Bool.eq_false_iff.mpr hhex
    by_cases hpre : base = 0 ∧ hasHexPrefix (bodyOf s) = true
    · exact readsLongest_prefix hpre.1 hpre.2 hno h
    · exact readsLongest_plain hpre (fun _ => hno) h hstart

end ReadsLongest

/-! ## The values -/

theorem signed_ofNat (w : ℕ) (neg : Bool) (m : ℕ) :
    signed neg (BitVec.ofNat w m) = BitVec.ofInt w (valueOf neg m) := by
  cases neg with
  | false => exact (ofInt_natCast w m).symm
  | true =>
    change -BitVec.ofNat w m = BitVec.ofInt w (-(m : ℤ))
    rw [ofInt_neg, ofInt_natCast]

/-- Wrapping is clamping for numbers in range and for those that wrap onto the bound. -/
theorem bmod_eq_clamp {half : ℤ} (hpos : 0 < half) (v : ℤ) (n : ℕ) (hn : (n : ℤ) = 2 * half) :
    v.bmod n = max (-half) (min (half - 1) v) ↔
      -half ≤ v ∧ v < half ∨ half ≤ v ∧ v % n = half - 1 ∨ v < -half ∧ v % n = half := by
  have hnonneg := Int.emod_nonneg v (show (n : ℤ) ≠ 0 by omega)
  have hlt := Int.emod_lt_of_pos v (show 0 < (n : ℤ) by omega)
  by_cases hrange : -half ≤ v ∧ v < half
  · have heq : v.bmod n = v := Int.bmod_eq_of_le (by omega) (by omega)
    rw [heq]
    exact ⟨fun _ => .inl hrange, fun _ => by omega⟩
  · unfold Int.bmod
    dsimp only
    split_ifs with hr <;> omega

theorem toInt_signed (w : ℕ) (neg : Bool) (m : ℕ) :
    (signed neg (BitVec.ofNat (w + 1) m)).toInt = signedResult (w + 1) neg m ↔
      WrapsSigned (w + 1) neg m := by
  have hhalf : (0 : ℤ) < 2 ^ w := Int.pow_pos (by decide)
  have hcast : ((2 ^ (w + 1) : ℕ) : ℤ) = 2 * 2 ^ w := by
    rw [Nat.cast_pow, pow_succ, mul_comm]
    rfl
  have h := bmod_eq_clamp hhalf (valueOf neg m) (2 ^ (w + 1)) hcast
  rw [Nat.cast_pow] at h
  rw [signed_ofNat, toInt_ofInt]
  exact h

theorem toNat_signed (w : ℕ) (neg : Bool) (m : ℕ) :
    ((signed neg (BitVec.ofNat w m)).toNat : ℤ) = unsignedResult w neg m ↔
      WrapsUnsigned w neg m := by
  have hpos : (0 : ℤ) < 2 ^ w := Int.pow_pos (by decide)
  have hvalue : ((signed neg (BitVec.ofNat w m)).toNat : ℤ) = valueOf neg m % 2 ^ w := by
    rw [signed_ofNat, BitVec.toNat_ofInt, Nat.cast_pow]
    exact Int.toNat_of_nonneg (Int.emod_nonneg _ hpos.ne')
  rw [hvalue]
  unfold unsignedResult WrapsUnsigned
  by_cases hm : m < 2 ^ w
  · rw [if_pos hm]
    exact ⟨fun _ => .inl hm, fun _ => rfl⟩
  · rw [if_neg hm]
    exact ⟨.inr, fun h => h.resolve_left hm⟩

/-- An `int` is the clamped `long` iff the number is in the range of an `int`. -/
theorem toInt_signExtend (neg : Bool) (m : ℕ) :
    ((signed neg (BitVec.ofNat 32 m)).signExtend 64).toInt = signedResult 64 neg m ↔
      -2 ^ 31 ≤ valueOf neg m ∧ valueOf neg m < 2 ^ 31 := by
  rw [BitVec.toInt_signExtend_of_le (by decide)]
  have hle := BitVec.toInt_lt (x := signed neg (BitVec.ofNat 32 m))
  have hge := BitVec.le_toInt (x := signed neg (BitVec.ofNat 32 m))
  constructor
  · intro h
    rw [h] at hle hge
    unfold signedResult at hle hge
    omega
  · rintro ⟨hlow, hhigh⟩
    rw [signed_ofNat, BitVec.toInt_ofInt, Int.bmod_eq_of_le (by omega) (by omega)]
    unfold signedResult
    omega

/-! ## The family -/

theorem longestMagnitude_ten (text : List UInt8) :
    longestMagnitude 10 text = plainMagnitude 10 text := if_neg fun h => by omega

theorem atoi_eq (s : List UInt8) : atoi s = signed (isNegative s)
      (BitVec.ofNat 32 (ofDigits 10 0 ((bodyOf s).takeWhile (isDigit 10)))) := by
  have hrun : atoi s =
      signed (isNegative s) (accumulate decimalDigit 10 (BitVec.ofNat 32 0) (bodyOf s)).1 := rfl
  rw [hrun, accumulate_eq decimalDigit_eq]
  rfl

theorem atoi_some (h : longestMagnitude 10 (bodyOf s) = some (digits, m)) :
    atoi s = signed (isNegative s) (BitVec.ofNat 32 m) := by
  rw [longestMagnitude_ten] at h
  obtain ⟨-, rfl, rfl⟩ := plainMagnitude_eq_some h
  exact atoi_eq s

theorem signed_zero {w : ℕ} (neg : Bool) : signed neg (BitVec.ofNat w 0) = 0 := by
  cases neg with
  | false => rfl
  | true => exact neg_zero w

theorem atoi_none (h : longestMagnitude 10 (bodyOf s) = none) : atoi s = 0 := by
  have hnil : (bodyOf s).takeWhile (isDigit 10) = [] := takeWhile_of_none h
  rw [atoi_eq, hnil]
  exact signed_zero _

theorem atoi_exact_of_range
    (h : NumberIs 10 s fun neg m => -2 ^ 31 ≤ valueOf neg m ∧ valueOf neg m < 2 ^ 31) :
    ValueExact (signedResult 32) 10 s (atoi s).toInt := by
  cases hfound : longestMagnitude 10 (bodyOf s) with
  | none =>
    rw [valueExact_none hfound, atoi_none hfound]
    rfl
  | some found =>
    obtain ⟨digits, m⟩ := found
    rw [valueExact_some hfound, atoi_some hfound]
    exact (toInt_signed 31 _ m).mpr (.inl ((numberIs_some hfound).mp h))

theorem atol_exact_iff (s : List UInt8) : ValueExact (signedResult 64) 10 s (atol s).toInt ↔
      NumberIs 10 s fun neg m => -2 ^ 31 ≤ valueOf neg m ∧ valueOf neg m < 2 ^ 31 := by
  unfold atol
  cases hfound : longestMagnitude 10 (bodyOf s) with
  | none =>
    rw [valueExact_none hfound, atoi_none hfound]
    exact ⟨fun _ => numberIs_none hfound, fun _ => rfl⟩
  | some found =>
    obtain ⟨digits, m⟩ := found
    rw [valueExact_some hfound, numberIs_some hfound, atoi_some hfound]
    exact toInt_signExtend _ m

/-- A reading of the result that is right for the numbers that wrap rightly. -/
theorem parsesExactly_iff (number : BitVec 64 → ℤ) {result : Bool → ℕ → ℤ}
    {wraps : Bool → ℕ → Prop} (hzero : number 0 = 0)
    (hnumber : ∀ neg m, number (signed neg (BitVec.ofNat 64 m)) = result neg m ↔ wraps neg m)
    (s : List UInt8) (base : ℕ) :
    ParsesExactly result base s (number (strtol s base).1) (strtol s base).2 ↔
      ReadsWhole base s ∧ NumberIs base s wraps := by
  rw [strtol_eq]
  cases hfound : longestMagnitude base (bodyOf s) with
  | none =>
    obtain ⟨hread, hwhole⟩ := readsWhole_none hfound
    rw [parsesExactly_none hfound, hread, hwhole, signed_zero]
    exact ⟨fun h => ⟨h.2, numberIs_none hfound⟩, fun h => ⟨hzero, h.1⟩⟩
  | some found =>
    obtain ⟨digits, m⟩ := found
    obtain ⟨hiff, hread⟩ := readsLongest hfound
    rw [parsesExactly_some hfound, numberIs_some hfound]
    constructor
    · rintro ⟨hvalue, hlen⟩
      have hwhole := hiff.mpr (Nat.add_left_cancel hlen)
      rw [hread hwhole] at hvalue
      exact ⟨hwhole, (hnumber _ m).mp hvalue⟩
    · rintro ⟨hwhole, hwraps⟩
      rw [hread hwhole]
      exact ⟨(hnumber _ m).mpr hwraps, rfl⟩

theorem strtol_exact_iff (s : List UInt8) (base : ℕ) :
    ParsesExactly (signedResult 64) base s (strtol s base).1.toInt (strtol s base).2 ↔
      ReadsWhole base s ∧ NumberIs base s (WrapsSigned 64) :=
  parsesExactly_iff BitVec.toInt rfl (toInt_signed 63) s base

theorem strtoul_exact_iff (s : List UInt8) (base : ℕ) :
    ParsesExactly (unsignedResult 64) base s (strtoul s base).1.toNat (strtoul s base).2 ↔
      ReadsWhole base s ∧ NumberIs base s (WrapsUnsigned 64) :=
  parsesExactly_iff (·.toNat) rfl (toNat_signed 64) s base

/-- The functions are exact on a string iff its number is read whole and none of the values has
to be clamped. -/
theorem familyExact_iff (s : List UInt8) (base : ℕ) : FamilyExact s base ↔ FamilyFits s base := by
  constructor
  · intro h
    obtain ⟨hwhole, hlong⟩ := (strtol_exact_iff s base).mp h.strtol
    obtain ⟨-, hunsigned⟩ := (strtoul_exact_iff s base).mp h.strtoul
    exact ⟨hwhole, hlong, hunsigned, (atol_exact_iff s).mp h.atol⟩
  · intro h
    have hstrtol := (strtol_exact_iff s base).mpr ⟨h.whole, h.long⟩
    have hstrtoul := (strtoul_exact_iff s base).mpr ⟨h.whole, h.unsigned⟩
    exact ⟨hstrtol, hstrtol, hstrtoul, hstrtoul, atoi_exact_of_range h.int,
      (atol_exact_iff s).mpr h.int⟩

/-- In base 16 only the zero of `0x1F` is read. -/
theorem hexPrefix_not_exact : ¬FamilyExact [48, 120, 49, 70] 16 := by
  intro h
  have hnumber : Number 16 ([] ++ [] ++ [48, 120, 49, 70]) false 31 :=
    .mk (fun _ hc => absurd hc List.not_mem_nil) .none
      (.hexadecimal (.inr rfl) (by decide) (List.cons_ne_nil _ _)
        (forall_mem_cons.mpr ⟨by decide, forall_mem_singleton.mpr (by decide)⟩))
  rcases h.strtol with ⟨text, neg, m, hlongest, -, hconsumed⟩ | ⟨hno, -⟩
  · have hle := hlongest.longest _ _ _ hnumber List.prefix_rfl
    rw [← hconsumed] at hle
    exact absurd hle (by decide)
  · exact hno _ _ _ hnumber List.prefix_rfl

end EzPacker.StdLib
