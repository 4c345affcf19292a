import EzPacker.FlexNumber.LibTomMath

/-!
# Numbers as text

A number is written with its sign in front and without a prefix, and the constructor takes off
a sign and a prefix before it reads the digits. In the two largest radixes a plus is a digit
as well as a sign.
-/

namespace EzPacker.FlexNumber

open Nat List

open Mir (FlexInt)
open TwosComplement

/-! ## The conversions of the library -/

/-- The digits of the library, of all radixes up to 64. -/
def alphabet : List Char :=
  "0123456789ABCDEFGHIJKLMNOPQRSTUVWXYZabcdefghijklmnopqrstuvwxyz+/".toList

def digitChar (digit : ℕ) : Char := alphabet.getD digit '0'

/-- The end of a text of the library. -/
def nul : Char := Char.ofNat 0

def magnitudeText (radix n : ℕ) : List Char :=
  if n = 0 then ['0'] else (Nat.digits radix n).reverse.map digitChar

def radixText (a : ℤ) (radix : ℕ) : List Char :=
  (if a < 0 then ['-'] else []) ++ magnitudeText radix a.natAbs

/-- What the library documents of its conversions. The number of characters counts the end of
the text, the digits of a text are below the radix, and a number is only negative behind a
minus. Errors are codes. -/
structure RadixConversions where
  mpRadixSize : ℤ → ℕ → Except ℤ ℕ
  mpToRadix : ℤ → ℕ → ℕ → Except ℤ (List Char)
  mpReadRadix : List Char → ℕ → Except ℤ ℤ
  radixSize_eq : ∀ a radix, 2 ≤ radix → radix ≤ 64 →
    mpRadixSize a radix = .ok ((radixText a radix).length + 1)
  toRadix_eq : ∀ a radix, 2 ≤ radix → radix ≤ 64 →
    mpToRadix a ((radixText a radix).length + 1) radix = .ok (radixText a radix ++ [nul])
  readRadix_digits : ∀ (digits : List ℕ) (radix : ℕ), 2 ≤ radix → radix ≤ 64 →
    (∀ d ∈ digits, d < radix) →
    mpReadRadix (digits.map digitChar) radix = .ok (Nat.ofDigits radix digits.reverse : ℕ)
  readRadix_accepts : ∀ text radix number, 2 ≤ radix → radix ≤ 64 →
    mpReadRadix text radix = .ok number → ∃ digits : List ℕ,
      (∀ d ∈ digits, d < radix) ∧ digits.length ≤ text.length ∧
        number.natAbs = Nat.ofDigits radix digits ∧ (number < 0 → text.head? = some '-')

variable (mp : LibTomMath) (conversions : RadixConversions)

/-! ## The constructor and the conversion -/

def isBlank (c : Char) : Bool := c = ' ' ∨ c = Char.ofNat 9

/-- Whether there is a minus, and the text behind the sign. -/
def stripSign : List Char → Bool × List Char
  | '-' :: rest => (true, rest)
  | '+' :: rest => (false, rest)
  | text => (false, text)

def stripPrefix (radix : ℕ) : List Char → ℕ × List Char
  | '0' :: p :: rest =>
    if p = 'x' ∨ p = 'X' then (16, rest)
    else if p = 'b' ∨ p = 'B' then (2, rest)
    else if p = 'o' ∨ p = 'O' then (8, rest)
    else (radix, '0' :: p :: rest)
  | text => (radix, text)

def ofString (numberStr : List Char) (bitWidth : ℕ) (signed : Bool) (radix : ℕ) :
    Except String FlexInt :=
  if numberStr = [] ∨ (radix ≠ 0 ∧ (radix < 2 ∨ 64 < radix)) then
    .error "Could not decode number because it is invalid or radix is out of bounds"
  else
    let str := numberStr.dropWhile isBlank
    if str = [] then .error "Empty or whitespace-only string passed to FlexInt"
    else
      let (isNeg, str) := stripSign str
      let (radix, str) := stripPrefix radix str
      let radix := if radix = 0 then 10 else radix
      if str = [] then .error "Literal string has no digits after prefix"
      else
        -- the library reads up to the end of a text
        match conversions.mpReadRadix (str.takeWhile (· ≠ nul)) radix with
        | .error lastErr =>
          .error ("Error while decoding number from string: LibTomMath error " ++ Int.repr lastErr)
        | .ok number =>
          .ok (clampToTwosComplement mp ⟨if isNeg then -number else number, bitWidth, signed⟩).1

def toString (n : FlexInt) (radix : ℕ) : List Char :=
  match conversions.mpRadixSize n.value radix with
  | .error _ => "ERROR".toList
  | .ok size =>
    match conversions.mpToRadix n.value size radix with
    | .error _ => "ERROR".toList
    | .ok res => if res.getLast? = some nul then res.dropLast else res

def extend (n : FlexInt) (newBitSize : ℕ) (isSigned : Bool) : Except String FlexInt :=
  if newBitSize < n.bitWidth then
    .error "FlexInt::extend cannot be used to down-cast bit widths."
  else if newBitSize = n.bitWidth then
    .ok (clampToTwosComplement mp { n with isSigned := isSigned }).1
  else if n.value < 0 then
    if isSigned then .ok (clampToTwosComplement mp ⟨n.value, newBitSize, isSigned⟩).1
    else .ok (clampToTwosComplement mp ⟨n.value + 2 ^ n.bitWidth, newBitSize, isSigned⟩).1
  else .ok (clampToTwosComplement mp ⟨n.value, newBitSize, isSigned⟩).1

/-! ## Texts of numbers -/

theorem digitChar_facts : ∀ d < 64, digitChar d ≠ '-' ∧ digitChar d ≠ nul ∧
    isBlank (digitChar d) = false ∧ (digitChar d = '+' ↔ d = 62) ∧
    (digitChar d = '0' ↔ d = 0) := by decide +kernel

/-- The digits of a text, the most significant one first. -/
def textDigits (radix n : ℕ) : List ℕ := if n = 0 then [0] else (Nat.digits radix n).reverse

theorem magnitudeText_eq (radix n : ℕ) :
    magnitudeText radix n = (textDigits radix n).map digitChar := by
  unfold magnitudeText textDigits
  split <;> rfl

theorem textDigits_lt {radix n : ℕ} (hradix : 2 ≤ radix) : ∀ d ∈ textDigits radix n, d < radix := by
  unfold textDigits
  split
  · simp
    omega
  · intro d hd
    exact digits_lt_base hradix (mem_reverse.mp hd)

theorem ofDigits_textDigits {radix n : ℕ} :
    Nat.ofDigits radix (textDigits radix n).reverse = n := by
  unfold textDigits
  split
  next h => simp [h]
  next => rw [reverse_reverse, ofDigits_digits]

theorem textDigits_cons (radix n : ℕ) :
    ∃ first rest, textDigits radix n = first :: rest ∧ (first = 0 → rest = []) ∧
      (n ≠ 0 → (Nat.digits radix n).getLast? = some first) := by
  unfold textDigits
  split
  next h => exact ⟨0, [], rfl, fun _ => rfl, fun hne => absurd h hne⟩
  next h =>
    have hne : digits radix n ≠ [] := digits_ne_nil_iff_ne_zero.mpr h
    have hlast := getLast?_eq_some_getLast hne
    refine ⟨(digits radix n).getLast hne, (digits radix n).dropLast.reverse, ?_, ?_,
      fun _ => hlast⟩
    · conv_lhs => rw [← dropLast_append_getLast hne]
      rw [reverse_append, reverse_singleton, singleton_append]
    · intro hzero
      exact absurd hzero (getLast_digit_ne_zero radix h)

section Reading

variable {radix : ℕ} {x : ℤ}

theorem toString_eq (hradix : 2 ≤ radix) (hle : radix ≤ 64) (n : FlexInt) :
    toString conversions n radix = radixText n.value radix := by
  unfold toString
  rw [conversions.radixSize_eq _ _ hradix hle]
  dsimp only
  rw [conversions.toRadix_eq _ _ hradix hle]
  simp

theorem digits_lt_alphabet (hradix : 2 ≤ radix) (hle : radix ≤ 64) (n : ℕ) :
    ∀ d ∈ textDigits radix n, d < 64 :=
  fun d hd => lt_of_lt_of_le (textDigits_lt hradix d hd) hle

theorem stripPrefix_of_ne {c : Char} (hc : c ≠ '0') (rest : List Char) :
    stripPrefix radix (c :: rest) = (radix, c :: rest) := by
  unfold stripPrefix
  split
  next heq => exact absurd (cons.inj heq).1 hc
  next => rfl

theorem stripPrefix_text (hradix : 2 ≤ radix) (hle : radix ≤ 64) (n : ℕ) :
    stripPrefix radix ((textDigits radix n).map digitChar) =
      (radix, (textDigits radix n).map digitChar) := by
  obtain ⟨first, rest, htext, hzero, -⟩ := textDigits_cons radix n
  have hfirst : first < 64 :=
    digits_lt_alphabet hradix hle n first (by rw [htext]; exact mem_cons_self)
  rw [htext, map_cons]
  by_cases h : first = 0
  · rw [h, hzero h]
    rfl
  · exact stripPrefix_of_ne (fun hc => h ((digitChar_facts first hfirst).2.2.2.2.mp hc)) _

theorem takeWhile_text (hradix : 2 ≤ radix) (hle : radix ≤ 64) (n : ℕ) :
    ((textDigits radix n).map digitChar).takeWhile (· ≠ nul) =
      (textDigits radix n).map digitChar := by
  rw [takeWhile_eq_self_iff]
  intro c hc
  obtain ⟨d, hd, rfl⟩ := mem_map.mp hc
  exact decide_eq_true (digitChar_facts d (digits_lt_alphabet hradix hle n d hd)).2.1

theorem stripSign_of_ne {c : Char} (hminus : c ≠ '-') (hplus : c ≠ '+') (rest : List Char) :
    stripSign (c :: rest) = (false, c :: rest) := by
  unfold stripSign
  split
  next heq => exact absurd (cons.inj heq).1 hminus
  next heq => exact absurd (cons.inj heq).1 hplus
  next => rfl

section

variable (hradix : 2 ≤ radix) (hle : radix ≤ 64)
include hradix hle

/-- The sign of a text is taken off, unless the first digit of a number without one is a plus. -/
theorem stripSign_radixText (h : (Nat.digits radix x.toNat).getLast? ≠ some 62) :
    stripSign (radixText x radix) =
      (decide (x < 0), (textDigits radix x.natAbs).map digitChar) := by
  unfold radixText
  rw [magnitudeText_eq]
  by_cases hneg : x < 0
  · rw [if_pos hneg, decide_eq_true hneg]
    rfl
  · rw [if_neg hneg, decide_eq_false hneg, nil_append]
    obtain ⟨first, rest, htext, -, hlast⟩ := textDigits_cons radix x.natAbs
    have hfirst : first < 64 :=
      digits_lt_alphabet hradix hle _ first (by rw [htext]; exact mem_cons_self)
    obtain ⟨hminus, -, -, hplus, -⟩ := digitChar_facts first hfirst
    rw [htext, map_cons]
    refine stripSign_of_ne hminus (fun hc => ?_) _
    have hfirst62 := hplus.mp hc
    by_cases hzero : x.natAbs = 0
    · rw [hzero] at htext
      have hsame := (cons.inj htext).1
      omega
    · rw [show x.toNat = x.natAbs by omega, hlast hzero, hfirst62] at h
      exact h rfl

/-- No blank is in front of a number. -/
theorem dropWhile_radixText (x : ℤ) :
    radixText x radix ≠ [] ∧ (radixText x radix).dropWhile isBlank = radixText x radix := by
  unfold radixText
  rw [magnitudeText_eq]
  by_cases hneg : x < 0
  · rw [if_pos hneg]
    exact ⟨cons_ne_nil _ _, rfl⟩
  · rw [if_neg hneg, nil_append]
    obtain ⟨first, rest, htext, -, -⟩ := textDigits_cons radix x.natAbs
    have hfirst : first < 64 :=
      digits_lt_alphabet hradix hle _ first (by rw [htext]; exact mem_cons_self)
    rw [htext, map_cons]
    exact ⟨cons_ne_nil _ _, dropWhile_cons_of_neg (by simp [(digitChar_facts first hfirst).2.2.1])⟩

/-- A text whose first digit is no sign is read as its number. -/
theorem ofString_radixText (h : (Nat.digits radix x.toNat).getLast? ≠ some 62) (w : ℕ)
    (signed : Bool) : ofString mp conversions (radixText x radix) w signed radix =
      .ok (clampToTwosComplement mp ⟨x, w, signed⟩).1 := by
  obtain ⟨hne, hdrop⟩ := dropWhile_radixText hradix hle x
  have hdigits : (textDigits radix x.natAbs).map digitChar ≠ [] := by
    obtain ⟨first, rest, htext, -, -⟩ := textDigits_cons radix x.natAbs
    rw [htext]
    exact cons_ne_nil _ _
  have hnumber : (if decide (x < 0) = true then -(x.natAbs : ℤ) else x.natAbs) = x := by
    split
    next hneg =>
      have hlt := of_decide_eq_true hneg
      omega
    next hneg =>
      have hge : ¬x < 0 := fun hlt => hneg (decide_eq_true hlt)
      omega
  unfold ofString
  rw [if_neg (by simp [hne]; omega)]
  dsimp only
  rw [hdrop, if_neg hne, stripSign_radixText hradix hle h]
  dsimp only
  rw [stripPrefix_text hradix hle]
  dsimp only
  rw [if_neg hdigits, if_neg (show ¬radix = 0 by omega), takeWhile_text hradix hle,
    conversions.readRadix_digits _ _ hradix hle (textDigits_lt hradix), ofDigits_textDigits]
  dsimp only
  rw [hnumber]

end

theorem stripPrefix_cases (radix : ℕ) (text : List Char) : (stripPrefix radix text).2 <:+ text ∧
      ((stripPrefix radix text).1 = radix ∨ (stripPrefix radix text).1 = 16 ∨
        (stripPrefix radix text).1 = 2 ∨ (stripPrefix radix text).1 = 8) := by
  unfold stripPrefix
  split
  next p rest =>
    have hsuffix : rest <:+ '0' :: p :: rest := ⟨['0', p], rfl⟩
    split
    · exact ⟨hsuffix, .inr (.inl rfl)⟩
    · split
      · exact ⟨hsuffix, .inr (.inr (.inl rfl))⟩
      · split
        · exact ⟨hsuffix, .inr (.inr (.inr rfl))⟩
        · exact ⟨suffix_rfl, .inl rfl⟩
  next => exact ⟨suffix_rfl, .inl rfl⟩

/-- The number that is read behind a lost digit is too small. -/
theorem ofString_of_plus (hradix : 2 ≤ radix) (hle : radix ≤ 64) {w : ℕ} (hw : 1 ≤ w)
    {signed : Bool} (hx : InRange w signed x)
    (h : (Nat.digits radix x.toNat).getLast? = some 62) :
    ofString mp conversions (radixText x radix) w signed radix ≠ .ok ⟨x, w, signed⟩ := by
  have hne : x.toNat ≠ 0 := by
    intro hzero
    rw [hzero, digits_zero] at h
    exact absurd h (by simp)
  have hnat : x.natAbs = x.toNat := by omega
  have hlarge : 62 < radix :=
    digits_lt_base hradix (mem_of_getLast? h)
  obtain ⟨first, rest, htext, -, hlast⟩ := textDigits_cons radix x.natAbs
  rw [hnat] at htext hlast
  obtain rfl : first = 62 := (Option.some.inj ((hlast hne).symm.trans h))
  have hplain : radixText x radix = '+' :: rest.map digitChar := by
    unfold radixText
    rw [if_neg (by omega), magnitudeText_eq, hnat, htext]
    rfl
  have hvalue : radix ^ rest.length ≤ x.toNat := by
    have hof : ofDigits radix (textDigits radix x.toNat).reverse = x.toNat :=
      ofDigits_textDigits
    rw [htext, reverse_cons, ofDigits_append, length_reverse, ofDigits_singleton] at hof
    omega
  have hchars (c : Char) (hc : c ∈ rest.map digitChar) : c ≠ '-' := by
    obtain ⟨d, hd, rfl⟩ := mem_map.mp hc
    have hmem : d ∈ textDigits radix x.toNat := by
      rw [htext]
      exact mem_cons_of_mem _ hd
    exact (digitChar_facts d (digits_lt_alphabet hradix hle _ d hmem)).1
  obtain ⟨hsuffix, hradixes⟩ := stripPrefix_cases radix (rest.map digitChar)
  unfold ofString
  rw [if_neg (by simp [hplain]; omega), hplain,
    dropWhile_cons_of_neg (show ¬isBlank '+' = true by decide)]
  dsimp only
  have hstrip : stripSign ('+' :: rest.map digitChar) = (false, rest.map digitChar) := rfl
  rw [if_neg (cons_ne_nil _ _), hstrip]
  dsimp only
  generalize stripPrefix radix (rest.map digitChar) = stripped at hsuffix hradixes
  obtain ⟨radix', text⟩ := stripped
  dsimp only at hsuffix hradixes ⊢
  have hpos : radix' ≠ 0 := by omega
  rw [if_neg hpos]
  split
  next => simp
  next =>
    split
    next => simp
    next number hread =>
      obtain ⟨digits, hdigits, hlength, habs, hsign⟩ :=
        conversions.readRadix_accepts _ _ _ (by omega) (by omega) hread
      have hstart : text.takeWhile (· ≠ nul) <+: text := takeWhile_prefix _
      have hnonneg : 0 ≤ number := by
        by_contra hneg
        have hmem := hsuffix.mem (hstart.mem (mem_of_head? (hsign (by omega))))
        exact hchars _ hmem rfl
      have hshort : digits.length ≤ rest.length := by
        have htextLe := hsuffix.length_le
        have htakeLe := hstart.length_le
        rw [length_map] at htextLe
        omega
      have hsmall : number < x := by
        have hlt := ofDigits_lt_base_pow_length (b := radix') (by omega) hdigits
        have hpow : radix' ^ digits.length ≤ radix ^ rest.length :=
          (Nat.pow_le_pow_right (by omega) hshort).trans (Nat.pow_le_pow_left (by omega) _)
        omega
      have hrange : InRange w signed number :=
        InRange.between (inRange_zero w signed) hx hnonneg hsmall.le
      intro heq
      rw [if_neg Bool.false_ne_true, clampToTwosComplement_of_inRange mp hw hrange] at heq
      have hvalues := congrArg FlexInt.value (Except.ok.inj heq)
      dsimp only at hvalues
      omega

/-- Reading what was written gives the number back. -/
def RoundTrips (n : FlexInt) (radix : ℕ) : Prop :=
  ofString mp conversions (toString conversions n radix) n.bitWidth n.isSigned radix = .ok n

theorem roundTrips_iff (hradix : 2 ≤ radix) (hle : radix ≤ 64) {w : ℕ} (hw : 1 ≤ w)
    {signed : Bool} (hx : InRange w signed x) :
    RoundTrips mp conversions ⟨x, w, signed⟩ radix ↔
      (Nat.digits radix x.toNat).getLast? ≠ some 62 := by
  unfold RoundTrips
  rw [toString_eq conversions hradix hle]
  constructor
  · intro hread hplus
    exact ofString_of_plus mp conversions hradix hle hw hx hplus hread
  · intro hplus
    rw [ofString_radixText mp conversions hradix hle hplus,
      clampToTwosComplement_of_inRange mp hw hx]

end Reading

/-! ## Extending -/

/-- The number of the new type that the low bits and, where it can, the value agree with. -/
def ExtendsExactly (n : FlexInt) (newBitSize : ℕ) (isSigned : Bool) : Prop :=
  ∃ y, extend mp n newBitSize isSigned = .ok ⟨y, newBitSize, isSigned⟩ ∧
    InRange newBitSize isSigned y ∧ y ≡ n.value [ZMOD 2 ^ n.bitWidth] ∧
      (InRange newBitSize isSigned n.value → y = n.value)

section Extending

variable {w : ℕ} {signed : Bool} {x : ℤ}

section

variable (hw : 1 ≤ w) (hx : InRange w signed x)
include hw hx

theorem inRange_wider {v : ℕ} (hv : w < v) {isSigned : Bool} (h : 0 ≤ x ∨ isSigned = true) :
    InRange v isSigned x := by
  have hpow : (2 : ℤ) ^ w ≤ 2 ^ (v - 1) := pow_le_pow_right₀ (by decide) (by omega)
  have htop := two_pow_pred (show 1 ≤ v by omega)
  have hlow := two_pow_pred hw
  have hbounds : -2 ^ w ≤ x ∧ x < 2 ^ w := by
    cases signed with
    | true =>
      obtain ⟨hge, hlt⟩ := (inRange_signed hw).mp hx
      omega
    | false =>
      obtain ⟨hge, hlt⟩ := inRange_unsigned.mp hx
      omega
  cases isSigned with
  | true => exact (inRange_signed (by omega)).mpr ⟨by omega, by omega⟩
  | false =>
    have hnonneg := h.resolve_right Bool.false_ne_true
    exact inRange_unsigned.mpr ⟨hnonneg, by omega⟩

/-- A wider type holds the number or its residue. -/
theorem extendsExactly_of_lt {v : ℕ} (hv : w < v) (isSigned : Bool) :
    ExtendsExactly mp ⟨x, w, signed⟩ v isSigned := by
  have hkeeps (h : 0 ≤ x ∨ isSigned = true) :
      ∃ y, (Except.ok (clampToTwosComplement mp ⟨x, v, isSigned⟩).1 : Except String FlexInt) =
          .ok ⟨y, v, isSigned⟩ ∧ InRange v isSigned y ∧ y ≡ x [ZMOD 2 ^ w] ∧
            (InRange v isSigned x → y = x) := by
    have hin := inRange_wider hw hx hv h
    rw [clampToTwosComplement_of_inRange mp (by omega) hin]
    exact ⟨x, rfl, hin, Int.ModEq.refl x, fun _ => rfl⟩
  unfold ExtendsExactly extend
  dsimp only
  rw [if_neg (not_lt.mpr hv.le), if_neg hv.ne']
  by_cases hneg : x < 0
  · rw [if_pos hneg]
    cases isSigned with
    | true => exact hkeeps (Or.inr rfl)
    | false =>
      rw [if_neg Bool.false_ne_true]
      have hpow : (2 : ℤ) ^ w ≤ 2 ^ v := pow_le_pow_right₀ (by decide) hv.le
      have hlow := two_pow_pred hw
      have hpos := two_pow_pos (w - 1)
      have hbound : -2 ^ (w - 1) ≤ x := by
        cases signed with
        | true => exact ((inRange_signed hw).mp hx).1
        | false => exact absurd hx.nonneg (by omega)
      have hin : InRange v false (x + 2 ^ w) := inRange_unsigned.mpr ⟨by omega, by omega⟩
      rw [clampToTwosComplement_of_inRange mp (by omega) hin]
      refine ⟨x + 2 ^ w, rfl, hin, Int.add_modEq_right, fun hrepresentable => ?_⟩
      exact absurd hrepresentable.nonneg (by omega)
  · rw [if_neg hneg]
    exact hkeeps (Or.inl (by omega))

/-- At the same width the number of the other signedness is its two's complement. -/
theorem extendsExactly_same_iff (isSigned : Bool) : ExtendsExactly mp ⟨x, w, signed⟩ w isSigned ↔
      64 < w ∨ isSigned = true ∨ 0 ≤ x ∨ x = -2 ^ (w - 1) := by
  have hwrap : ExtendsExactly mp ⟨x, w, signed⟩ w isSigned ↔ Faithful w isSigned x := by
    rw [← clamped_eq_wrap_iff]
    unfold ExtendsExactly extend
    dsimp only
    rw [if_neg (lt_irrefl w), if_pos rfl, clampToTwosComplement_eq mp hw]
    constructor
    · rintro ⟨y, heq, hin, hcongr, -⟩
      have hvalue : clamped w isSigned x = y := congrArg FlexInt.value (Except.ok.inj heq)
      rw [hvalue]
      exact eq_wrap_iff.mpr ⟨hin, hcongr⟩
    · intro hclamped
      rw [hclamped]
      refine ⟨_, rfl, wrap_inRange w isSigned x, wrap_modEq w isSigned x, fun hin => ?_⟩
      exact wrap_of_inRange hin
  rw [hwrap]
  unfold Faithful
  have htop := two_pow_pred hw
  have hpos := two_pow_pos (w - 1)
  by_cases hneg : 0 ≤ x
  · simp [hneg]
  have hsigned : signed = true := by
    cases signed with
    | true => rfl
    | false => exact absurd hx.nonneg hneg
  subst hsigned
  have hbound := (inRange_signed hw).mp hx
  have hdvd : (2 : ℤ) ^ w ∣ 2 * x ↔ x = -2 ^ (w - 1) := by
    constructor
    · rintro ⟨k, hk⟩
      rw [htop, mul_assoc] at hk
      have hk' : x = 2 ^ (w - 1) * k := by omega
      have hlow : -1 ≤ k := by
        by_contra hcon
        have hmul : (2 : ℤ) ^ (w - 1) * k ≤ 2 ^ (w - 1) * -2 :=
          mul_le_mul_of_nonneg_left (by omega) hpos.le
        omega
      have hhigh : k < 0 := by
        by_contra hcon
        have hmul : 0 ≤ (2 : ℤ) ^ (w - 1) * k := mul_nonneg hpos.le (by omega)
        omega
      rw [hk', show k = -1 by omega]
      ring
    · rintro rfl
      exact ⟨-1, by rw [htop]; ring⟩
  have hin : InRange w isSigned x ↔ isSigned = true := by
    cases isSigned with
    | true => exact iff_of_true hx rfl
    | false => exact iff_of_false (fun h => hneg h.nonneg) Bool.false_ne_true
  rw [hdvd, hin]
  simp [hneg]

end

end Extending

/-- Texts give the number back unless they start with a plus for a digit, and a type is changed
exactly unless a negative number is given an unsigned one of its own width in machine words. -/
theorem textAndExtension_iff {w : ℕ} (hw : 1 ≤ w) {signed : Bool} {x : ℤ}
    (hx : InRange w signed x) :
    (∀ radix, 2 ≤ radix → radix ≤ 64 → (RoundTrips mp conversions ⟨x, w, signed⟩ radix ↔
        (Nat.digits radix x.toNat).getLast? ≠ some 62)) ∧
    ∀ newBitSize isSigned, w ≤ newBitSize → (ExtendsExactly mp ⟨x, w, signed⟩ newBitSize isSigned ↔
        w < newBitSize ∨ 64 < w ∨ isSigned = true ∨ 0 ≤ x ∨ x = -2 ^ (w - 1)) := by
  refine ⟨fun radix hradix hle => roundTrips_iff mp conversions hradix hle hw hx,
    fun newBitSize isSigned hnew => ?_⟩
  rcases lt_or_eq_of_le hnew with hlt | rfl
  · exact iff_of_true (extendsExactly_of_lt mp hw hx hlt isSigned) (Or.inl hlt)
  · rw [extendsExactly_same_iff mp hw hx, or_iff_right (lt_irrefl w)]

/-! ## The library's conversions -/

/-- A letter is read in either case where the radix has no use for both. -/
def digitOf (radix : ℕ) (c : Char) : ℕ :=
  alphabet.idxOf (if radix ≤ 36 then c.toUpper else c)

def readMagnitude (radix : ℕ) (text : List Char) : Except ℤ ℕ :=
  if text.all fun c => digitOf radix c < radix then
    .ok (Nat.ofDigits radix (text.map (digitOf radix)).reverse)
  else .error (-3)

def readRadix (text : List Char) (radix : ℕ) : Except ℤ ℤ :=
  if text.head? = some '-' then (readMagnitude radix text.tail).map fun n => -(n : ℤ)
  else (readMagnitude radix text).map fun n => (n : ℤ)

theorem digitOf_digitChar {radix d : ℕ} (hle : radix ≤ 64) (hd : d < radix) :
    digitOf radix (digitChar d) = d := by
  have hall : ∀ d < 64, alphabet.idxOf (digitChar d) = d := by decide +kernel
  have hupper : ∀ d < 36, (digitChar d).toUpper = digitChar d := by decide +kernel
  unfold digitOf
  split
  next h => rw [hupper d (by omega), hall d (by omega)]
  next => exact hall d (by omega)

theorem readMagnitude_accepts {radix n : ℕ} {text : List Char}
    (h : readMagnitude radix text = .ok n) :
    ∃ digits : List ℕ, (∀ d ∈ digits, d < radix) ∧ digits.length = text.length ∧
      n = Nat.ofDigits radix digits := by
  unfold readMagnitude at h
  split at h
  next hall =>
    refine ⟨(text.map (digitOf radix)).reverse, ?_, by simp, (Except.ok.inj h).symm⟩
    intro d hd
    obtain ⟨c, hc, rfl⟩ := mem_map.mp (mem_reverse.mp hd)
    exact of_decide_eq_true (all_eq_true.mp hall c hc)
  next => exact absurd h (by simp)

theorem readsDigits (digits : List ℕ) (radix : ℕ) (_ : 2 ≤ radix) (hle : radix ≤ 64)
    (hdigits : ∀ d ∈ digits, d < radix) :
    readRadix (digits.map digitChar) radix = .ok (Nat.ofDigits radix digits.reverse : ℕ) := by
  have hdigit (d : ℕ) (hd : d ∈ digits) : digitOf radix (digitChar d) = d :=
    digitOf_digitChar hle (hdigits d hd)
  have hmap : (digits.map digitChar).map (digitOf radix) = digits := by
    rw [map_map]
    conv_rhs => rw [← map_id digits]
    exact map_congr_left hdigit
  have hall : (digits.map digitChar).all (fun c => digitOf radix c < radix) = true := by
    rw [all_eq_true]
    intro c hc
    obtain ⟨d, hd, rfl⟩ := mem_map.mp hc
    rw [hdigit d hd]
    exact decide_eq_true (hdigits d hd)
  have hminus : (digits.map digitChar).head? ≠ some '-' := by
    intro hhead
    obtain ⟨d, hd, hchar⟩ := mem_map.mp (mem_of_head? hhead)
    exact (digitChar_facts d (lt_of_lt_of_le (hdigits d hd) hle)).1 hchar
  unfold readRadix readMagnitude
  rw [if_neg hminus, if_pos hall, hmap]
  rfl

theorem readsDigits_only (text : List Char) (radix : ℕ) (number : ℤ) (_ : 2 ≤ radix)
    (_ : radix ≤ 64) (h : readRadix text radix = .ok number) :
    ∃ digits : List ℕ, (∀ d ∈ digits, d < radix) ∧ digits.length ≤ text.length ∧
      number.natAbs = Nat.ofDigits radix digits ∧ (number < 0 → text.head? = some '-') := by
  unfold readRadix at h
  split at h
  next hminus =>
    cases hread : readMagnitude radix text.tail with
    | error e =>
      rw [hread] at h
      exact absurd h (by simp [Except.map])
    | ok n =>
      rw [hread] at h
      obtain ⟨digits, hdigits, hlength, hn⟩ := readMagnitude_accepts hread
      have hnumber : -(n : ℤ) = number := Except.ok.inj h
      refine ⟨digits, hdigits, ?_, by omega, fun _ => hminus⟩
      rw [hlength, length_tail]
      exact sub_le _ _
  next =>
    cases hread : readMagnitude radix text with
    | error e =>
      rw [hread] at h
      exact absurd h (by simp [Except.map])
    | ok n =>
      rw [hread] at h
      obtain ⟨digits, hdigits, hlength, hn⟩ := readMagnitude_accepts hread
      have hnumber : (n : ℤ) = number := Except.ok.inj h
      exact ⟨digits, hdigits, hlength.le, by omega, fun hneg => absurd hneg (by omega)⟩

/-- The number of characters, where the library knows the radix. -/
def radixSize (a : ℤ) (radix : ℕ) : Except ℤ ℕ :=
  if radix < 2 ∨ 64 < radix then .error (-3) else .ok ((radixText a radix).length + 1)

theorem radixSize_of_radix (a : ℤ) (radix : ℕ) (hradix : 2 ≤ radix) (hle : radix ≤ 64) :
    radixSize a radix = .ok ((radixText a radix).length + 1) := if_neg (by omega)

/-- The text and its end, where they have room. -/
def toRadix (a : ℤ) (size radix : ℕ) : Except ℤ (List Char) :=
  if size < (radixText a radix).length + 1 then .error (-5) else .ok (radixText a radix ++ [nul])

theorem toRadix_of_size (a : ℤ) (radix : ℕ) (_ : 2 ≤ radix) (_ : radix ≤ 64) :
    toRadix a ((radixText a radix).length + 1) radix = .ok (radixText a radix ++ [nul]) :=
  if_neg (lt_irrefl _)

/-- The conversions of texts without a line end. -/
def RadixConversions.exact : RadixConversions where
  mpRadixSize := radixSize
  mpToRadix := toRadix
  mpReadRadix := readRadix
  radixSize_eq := radixSize_of_radix
  toRadix_eq := toRadix_of_size
  readRadix_digits := readsDigits
  readRadix_accepts := readsDigits_only

/-- An eight-bit -100 in radix 64, and as a number of sixteen bits without a sign. -/
theorem textAndExtension_int8 :
    (RoundTrips LibTomMath.exact RadixConversions.exact ⟨-100, 8, true⟩ 64 ↔
      (Nat.digits 64 (Int.toNat (-100))).getLast? ≠ some 62) ∧
    (ExtendsExactly LibTomMath.exact ⟨-100, 8, true⟩ 16 false ↔
      8 < 16 ∨ 64 < 8 ∨ false = true ∨ (0 : ℤ) ≤ -100 ∨ (-100 : ℤ) = -2 ^ (8 - 1)) := by
  obtain ⟨htext, hextend⟩ := textAndExtension_iff LibTomMath.exact RadixConversions.exact
    (show 1 ≤ 8 by decide) (show InRange 8 true (-100) by decide)
  exact ⟨htext 64 (by decide) (by decide), hextend 16 false (by decide)⟩

/-- The text of 62 in radix 64 is a plus, which is taken for a sign; an eight-bit -1 without a
sign becomes 1. -/
theorem plus_and_minus_one_lost : (toString RadixConversions.exact ⟨62, 8, false⟩ 64 = ['+'] ∧
      ¬RoundTrips LibTomMath.exact RadixConversions.exact ⟨62, 8, false⟩ 64) ∧
    extend LibTomMath.exact ⟨-1, 8, true⟩ 8 false = .ok ⟨1, 8, false⟩ ∧
      ¬ExtendsExactly LibTomMath.exact ⟨-1, 8, true⟩ 8 false := by
  have htext : toString RadixConversions.exact ⟨62, 8, false⟩ 64 = ['+'] := by
    rw [toString_eq _ (by decide) (by decide)]
    norm_num [radixText, magnitudeText]
    decide +kernel
  have hextend : extend LibTomMath.exact ⟨-1, 8, true⟩ 8 false = .ok ⟨1, 8, false⟩ := by
    unfold extend
    rfl
  refine ⟨⟨htext, fun h => ?_⟩, hextend, ?_⟩
  · unfold RoundTrips at h
    rw [htext] at h
    exact absurd h (by simp [ofString, stripSign, stripPrefix, isBlank])
  · rintro ⟨y, heq, -, hcongr, -⟩
    rw [hextend] at heq
    have hy : (1 : ℤ) = y := congrArg FlexInt.value (Except.ok.inj heq)
    rw [← hy] at hcongr
    exact absurd hcongr (by decide)

end EzPacker.FlexNumber
