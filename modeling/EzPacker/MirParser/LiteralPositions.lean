import EzPacker.MirParser.NumberLexer

/-!
# Integer literals in the positions of the grammar

A position takes either the text of a literal, which it reads in the width of its type, or the
64 bits of the token, which are zero where the number does not fit.
-/

namespace EzPacker.MirParser

open Int List BitVec

open Mir (FlexInt MirType)
open FlexNumber (LibTomMath RadixConversions clampToTwosComplement digitChar ofI64 ofString
  stripSign stripPrefix)
open TwosComplement

/-- In the radixes whose digits are no letters of both cases, the case does not matter. -/
structure LiteralConversions extends RadixConversions where
  readRadix_toUpper : ∀ text radix, radix ≤ 36 →
    mpReadRadix (text.map Char.toUpper) radix = mpReadRadix text radix

variable (mp : LibTomMath) (conversions : LiteralConversions)

/-! ## The parser -/

/-- An integer operand from the text of a literal, at the width of its type. -/
def buildIntSafe (bitWidth : ℕ) (rawText : List Char) : Except String FlexInt :=
  match ofString mp conversions.toRadixConversions rawText bitWidth (rawText.head? = some '-')
    10 with
  | .ok val => .ok val
  | .error what => .error ("Integer literal overflow or error: " ++ what)

/-- The width of an immediate: that of an expected integer type, or 64. -/
def immBits (expectedType : Option MirType) : ℕ :=
  match expectedType with
  | some type => if type.kind = .Integer then type.totalSizeInBits else 64
  | none => 64

/-- The displacement that the terms of a memory operand add up to. -/
def addTerms (terms : List (Bool × MirToken)) : BitVec 64 :=
  terms.foldl (fun disp term =>
    disp + if term.1 then term.2.intVal else -term.2.intVal) 0

def displacement (terms : List (Bool × MirToken)) : FlexInt := ofI64 mp (addTerms terms) 64

/-- What a name with an offset turns out to be. -/
inductive Resolved
  | global | function | unresolved
  deriving DecidableEq, Repr

/-- The places of a single literal in the grammar. A stack index has the number of the objects of
the frame beside the type that is expected. -/
inductive Position
  | immediate (expectedType : Option MirType)
  | scale
  | globalOffset (symbol : Resolved)
  | stackIndex (objects : ℕ) (expectedType : Option MirType)
  | arrayLength
  | initializer (type : MirType)
  | arrayElement (type : MirType)

/-- A number of the module and its width. -/
structure Content where
  bits : ℕ
  value : ℤ
  deriving DecidableEq, Repr

def buildContent (bitWidth : ℕ) (token : MirToken) : Except String (Option Content) :=
  (buildIntSafe mp conversions bitWidth token.text).map fun val => some ⟨bitWidth, val.value⟩

/-- What the module holds for a literal. An offset is kept for a global only, an index without an
object becomes a constant, and the elements of an array constant are not kept. -/
def parseLiteral (token : MirToken) : Position → Except String (Option Content)
  | .immediate expectedType => buildContent mp conversions (immBits expectedType) token
  | .scale => .ok (some ⟨8, (token.intVal.setWidth 8).toNat⟩)
  | .globalOffset .global => .ok (some ⟨64, token.intVal.toNat⟩)
  | .globalOffset _ => .ok (some ⟨64, 0⟩)
  | .stackIndex objects expectedType =>
    if token.intVal.toNat < objects then .ok (some ⟨64, token.intVal.toNat⟩)
    else buildContent mp conversions
      (match expectedType with | some type => type.totalSizeInBits | none => 64) token
  | .arrayLength => .ok (some ⟨64, token.intVal.toNat⟩)
  | .initializer type => buildContent mp conversions type.totalSizeInBits token
  | .arrayElement _ => .ok none

/-! ## Exactness -/

/-- A module that is parsed has the number that is written, reduced to the width. -/
def LiteralExact (token : MirToken) (position : Position) : Prop :=
  ∀ content, parseLiteral mp conversions token position = .ok content →
    ∃ c, content = some c ∧ c.value ≡ writtenValue token.text [ZMOD 2 ^ c.bits]

/-- A term of a memory operand as it is written. -/
def termValue (term : Bool × MirToken) : ℤ :=
  if term.1 then writtenValue term.2.text else -writtenValue term.2.text

def DisplacementExact (terms : List (Bool × MirToken)) : Prop :=
  (displacement mp terms).value ≡ (terms.map termValue).sum [ZMOD 2 ^ 64]

/-- The numbers that the token of a literal holds: those of 64 bits with a sign in decimal, and
those of 64 bits and their opposites behind a prefix. -/
def TokenFits (text : List Char) : Prop :=
  if isPrefixed text then |writtenValue text| < 2 ^ 64
  else -2 ^ 63 ≤ writtenValue text ∧ writtenValue text < 2 ^ 63

instance (text : List Char) : Decidable (TokenFits text) :=
  inferInstanceAs (Decidable (if isPrefixed text then |writtenValue text| < 2 ^ 64
    else -2 ^ 63 ≤ writtenValue text ∧ writtenValue text < 2 ^ 63))

/-- The numbers that the text of a literal is read as: all in more than 64 bits, and the negative
ones of a narrower type only in its range, or where a number and its opposite are the same. -/
def TextFits (bits : ℕ) (text : List Char) : Prop :=
  bits = 0 ∨ 64 < bits ∨ 0 ≤ writtenValue text ∨ InRange bits true (writtenValue text) ∨
    2 ^ bits ∣ 2 * writtenValue text

/-- The number is held by the token, or is no other than zero in the width. -/
def TokenHolds (bits : ℕ) (text : List Char) : Prop :=
  TokenFits text ∨ 2 ^ bits ∣ writtenValue text

def PositionHolds (text : List Char) : Position → Prop
  | .immediate expectedType => TextFits (immBits expectedType) text
  | .scale => TokenHolds 8 text
  | .globalOffset .global => TokenHolds 64 text
  | .globalOffset _ => 2 ^ 64 ∣ writtenValue text
  | .stackIndex objects expectedType =>
    let slot := if TokenFits text then (writtenValue text % 2 ^ 64).toNat else 0
    if slot < objects then TokenHolds 64 text
    else TextFits (match expectedType with | some type => type.totalSizeInBits | none => 64) text
  | .arrayLength => TokenHolds 64 text
  | .initializer type => TextFits type.totalSizeInBits text
  | .arrayElement _ => False

/-- What the terms say whose tokens do not hold their numbers. -/
def lostValue (terms : List (Bool × MirToken)) : ℤ :=
  ((terms.filter fun term => ¬TokenFits term.2.text).map termValue).sum

/-! ## Digits -/

section Digits

variable {radix : ℕ} {c : Char} {digits : List Char}

section

variable (hradix : radix = 16 ∨ radix = 2 ∨ radix = 8 ∨ radix = 10) (hc : accepts radix c = true)
include hradix hc

theorem accepts_le : c.toNat ≤ 102 := by
  have hle {d : Char} (h : c ≤ d) : c.toNat ≤ d.toNat := h
  obtain rfl | rfl | rfl | rfl := hradix
  · have hx : isXDigit c = true := hc
    simp only [isXDigit, isDigit, Bool.or_eq_true, Bool.and_eq_true, decide_eq_true_eq] at hx
    obtain (⟨-, h⟩ | ⟨-, h⟩) | ⟨-, h⟩ := hx
    · exact (hle h).trans (by decide)
    · exact hle h
    · exact (hle h).trans (by decide)
  · have hb : isBinaryDigit c = true := hc
    simp only [isBinaryDigit, Bool.or_eq_true, decide_eq_true_eq] at hb
    obtain rfl | rfl := hb <;> decide
  · have ho : isOctalDigit c = true := hc
    simp only [isOctalDigit, Bool.and_eq_true, decide_eq_true_eq] at ho
    exact (hle ho.2).trans (by decide)
  · have hd : isDigit c = true := hc
    simp only [isDigit, Bool.and_eq_true, decide_eq_true_eq] at hd
    exact (hle hd.2).trans (by decide)

theorem accepted_ne_nul : c ≠ FlexNumber.nul := by
  rintro rfl
  obtain rfl | rfl | rfl | rfl := hradix <;> exact absurd hc (by decide)

end

theorem digit_not_blank (hc : isDigit c = true) : FlexNumber.isBlank c = false := by
  have hspace : c ≠ ' ' := isDigit_ne hc (by decide)
  have htab : c ≠ Char.ofNat 9 := isDigit_ne hc (by decide)
  unfold FlexNumber.isBlank
  simp [hspace, htab]

theorem digitValue_spec (hradix : radix = 16 ∨ radix = 2 ∨ radix = 8 ∨ radix = 10)
    (hc : accepts radix c = true) :
    digitValue c < radix ∧ c.toUpper = digitChar (digitValue c) := by
  have hall : ∀ n < 103, ∀ r ∈ [16, 2, 8, 10], accepts r (Char.ofNat n) = true →
      digitValue (Char.ofNat n) < r ∧
        (Char.ofNat n).toUpper = digitChar (digitValue (Char.ofNat n)) := by decide +kernel
  have hlt : c.toNat < 103 := Nat.lt_succ_of_le (accepts_le hradix hc)
  have hchar := hall c.toNat hlt radix (by simp; omega)
  rw [Char.ofNat_toNat] at hchar
  exact hchar hc

theorem fromDigits_eq (radix : ℕ) (digits : List Char) :
    fromDigits radix digits = Nat.ofDigits radix (digits.map digitValue).reverse := by
  unfold fromDigits
  rw [Nat.ofDigits_eq_foldr, foldr_reverse, foldl_map]
  simp only [Nat.cast_id, Nat.mul_comm, Nat.add_comm]

theorem mpReadRadix_digits (hradix : radix = 16 ∨ radix = 2 ∨ radix = 8 ∨ radix = 10)
    (h : ∀ c ∈ digits, accepts radix c = true) :
    conversions.mpReadRadix digits radix = .ok (fromDigits radix digits : ℕ) := by
  have hupper : digits.map Char.toUpper = (digits.map digitValue).map digitChar := by
    rw [map_map]
    exact map_congr_left fun c hc => (digitValue_spec hradix (h c hc)).2
  have hlt : ∀ d ∈ digits.map digitValue, d < radix := by
    intro d hd
    obtain ⟨c, hc, rfl⟩ := mem_map.mp hd
    exact (digitValue_spec hradix (h c hc)).1
  rw [← conversions.readRadix_toUpper _ _ (by omega), hupper, fromDigits_eq]
  exact conversions.readRadix_digits _ _ (by omega) (by omega) hlt

end Digits

/-! ## Residues -/

section Residues

theorem toInt_modEq {w : ℕ} (x : BitVec w) : x.toInt ≡ x.toNat [ZMOD 2 ^ w] := by
  unfold ModEq
  rw [toInt_eq_toNat_bmod]
  exact_mod_cast bmod_emod

theorem toInt_ofInt_modEq (w : ℕ) (x : ℤ) : (BitVec.ofInt w x).toInt ≡ x [ZMOD 2 ^ w] := by
  unfold ModEq
  rw [toInt_ofInt]
  exact_mod_cast bmod_emod

theorem toInt_add_modEq {w : ℕ} (x y : BitVec w) :
    (x + y).toInt ≡ x.toInt + y.toInt [ZMOD 2 ^ w] := by
  unfold ModEq
  rw [toInt_add]
  exact_mod_cast bmod_emod

theorem toInt_neg_modEq {w : ℕ} (x : BitVec w) : (-x).toInt ≡ -x.toInt [ZMOD 2 ^ w] := by
  unfold ModEq
  rw [toInt_neg]
  exact_mod_cast bmod_emod

theorem toNat_modEq_iff {w k : ℕ} (hk : k ≤ w) (x : BitVec w) (y : ℤ) :
    (x.toNat : ℤ) ≡ y [ZMOD 2 ^ k] ↔ x.toInt ≡ y [ZMOD 2 ^ k] := by
  have h := (toInt_modEq x).of_dvd (pow_dvd_pow 2 hk)
  exact ⟨h.trans, h.symm.trans⟩

theorem zero_modEq_iff {n v : ℤ} : 0 ≡ v [ZMOD n] ↔ n ∣ v := by
  rw [modEq_iff_dvd, sub_zero]

end Residues

theorem clamped_modEq_iff {bits : ℕ} (hbits : 1 ≤ bits) {signed : Bool} {x : ℤ} :
    (clampToTwosComplement mp ⟨x, bits, signed⟩).1.value ≡ x [ZMOD 2 ^ bits] ↔
      FlexNumber.Faithful bits signed x := by
  rw [FlexNumber.clampToTwosComplement_eq mp hbits, ← FlexNumber.clamped_eq_wrap_iff, eq_wrap_iff,
    and_iff_right]
  unfold FlexNumber.clamped
  split_ifs with hin
  · exact hin
  · exact wrap_inRange bits signed _
  · exact wrap_inRange bits signed _

/-! ## A single literal -/

section Literal

variable {token : MirToken} {isNegative : Bool} {radix : ℕ} {digits : List Char}
  (h : IsLiteral token isNegative radix digits)
include h

theorem writtenValue_eq : writtenValue token.text =
    if isNegative then -(fromDigits radix digits : ℤ) else fromDigits radix digits := by
  unfold writtenValue
  have hsign : stripSign token.text = (isNegative, (stripSign token.text).2) :=
    Prod.ext h.sign rfl
  rw [hsign]
  dsimp only
  rw [h.parts]

theorem isPrefixed_iff : isPrefixed token.text = true ↔ radix ≠ 10 := by
  unfold isPrefixed
  rw [h.parts, decide_eq_true_eq]

theorem writtenValue_nonneg (hneg : isNegative = false) : 0 ≤ writtenValue token.text := by
  rw [writtenValue_eq h, hneg]
  exact natCast_nonneg _

theorem abs_writtenValue : |writtenValue token.text| = fromDigits radix digits := by
  rw [writtenValue_eq h]
  split_ifs
  · rw [abs_neg, Nat.abs_cast]
  · exact Nat.abs_cast _

theorem token_value : (TokenFits token.text ∧
      token.intVal.toInt ≡ writtenValue token.text [ZMOD 2 ^ 64]) ∨
    (¬TokenFits token.text ∧ token.intVal = 0) := by
  have habs := abs_writtenValue h
  have hwritten := writtenValue_eq h
  have hprefixed := isPrefixed_iff h
  unfold TokenFits
  rw [h.value]
  unfold decoded
  by_cases hten : radix = 10
  · rw [if_neg (by rw [hprefixed]; exact not_not.mpr hten), if_pos hten, ← hwritten]
    by_cases hfits : -2 ^ 63 ≤ writtenValue token.text ∧ writtenValue token.text < 2 ^ 63
    · rw [if_pos hfits]
      exact .inl ⟨hfits, toInt_ofInt_modEq 64 _⟩
    · rw [if_neg hfits]
      exact .inr ⟨hfits, rfl⟩
  · rw [if_pos (hprefixed.mpr hten), if_neg hten, habs]
    unfold fromCharsU64
    by_cases hfits : fromDigits radix digits < 2 ^ 64
    · rw [if_pos hfits]
      refine .inl ⟨by exact_mod_cast hfits, ?_⟩
      have hnat : (BitVec.ofNat 64 (fromDigits radix digits)).toInt ≡
          fromDigits radix digits [ZMOD 2 ^ 64] := by
        refine (toInt_modEq _).trans ?_
        rw [toNat_ofNat, Nat.mod_eq_of_lt hfits]
      rw [hwritten]
      split_ifs
      · exact (toInt_neg_modEq _).trans hnat.neg
      · exact hnat
    · rw [if_neg hfits]
      refine .inr ⟨by exact_mod_cast hfits, ?_⟩
      split_ifs <;> rfl

/-- A position that takes the token has the number up to its width. -/
theorem tokenHolds_iff {bits : ℕ} (hbits : bits ≤ 64) :
    token.intVal.toInt ≡ writtenValue token.text [ZMOD 2 ^ bits] ↔ TokenHolds bits token.text := by
  unfold TokenHolds
  rcases token_value h with ⟨hfits, hvalue⟩ | ⟨hfits, hzero⟩
  · exact iff_of_true (hvalue.of_dvd (pow_dvd_pow 2 hbits)) (.inl hfits)
  · rw [hzero, or_iff_right hfits]
    exact zero_modEq_iff

theorem toNat_intVal : token.intVal.toNat =
    if TokenFits token.text then (writtenValue token.text % 2 ^ 64).toNat else 0 := by
  rcases token_value h with ⟨hfits, hvalue⟩ | ⟨hfits, hzero⟩
  · rw [if_pos hfits, ← hvalue, toInt_modEq token.intVal]
    omega
  · rw [if_neg hfits, hzero]
    rfl

/-- A position that takes the text has the number clamped to its width. -/
theorem buildIntSafe_eq (bits : ℕ) : buildIntSafe mp conversions bits token.text =
    .ok (clampToTwosComplement mp ⟨writtenValue token.text, bits, isNegative⟩).1 := by
  have hsigned : decide (token.text.head? = some '-') = isNegative := by
    rw [Bool.eq_iff_iff, decide_eq_true_eq, h.head]
  obtain ⟨c, rest, hc, htext⟩ := h.start
  have hne : token.text ≠ [] := by
    rw [htext]
    exact append_ne_nil_of_right_ne_nil _ (cons_ne_nil _ _)
  have hblank : token.text.dropWhile FlexNumber.isBlank = token.text := by
    rw [htext]
    cases isNegative
    · exact dropWhile_cons_of_neg (by rw [digit_not_blank hc]; decide)
    · rfl
  have hnul : digits.takeWhile (· ≠ FlexNumber.nul) = digits := by
    rw [takeWhile_eq_self_iff]
    intro d hd
    exact decide_eq_true (accepted_ne_nul h.radix_mem (h.digits_accepted d hd))
  have hsign : stripSign token.text = (isNegative, (stripSign token.text).2) :=
    Prod.ext h.sign rfl
  unfold buildIntSafe
  rw [hsigned]
  unfold ofString
  rw [if_neg (by simp [hne])]
  dsimp only
  rw [hblank, if_neg hne, hsign]
  dsimp only
  rw [h.parts]
  dsimp only
  rw [if_neg h.ne_nil, if_neg (show ¬radix = 0 by have := h.radix_mem; omega), hnul,
    mpReadRadix_digits conversions h.radix_mem h.digits_accepted]
  dsimp only
  rw [writtenValue_eq h]

/-- A text is read exactly where the clamping of its number is. -/
theorem textFits_iff (bits : ℕ) :
    (clampToTwosComplement mp ⟨writtenValue token.text, bits, isNegative⟩).1.value ≡
      writtenValue token.text [ZMOD 2 ^ bits] ↔ TextFits bits token.text := by
  unfold TextFits
  rcases Nat.eq_zero_or_pos bits with hzero | hpos
  · rw [hzero, pow_zero]
    exact iff_of_true modEq_one (.inl rfl)
  rw [or_iff_right hpos.ne', clamped_modEq_iff mp hpos]
  unfold FlexNumber.Faithful
  cases hneg : isNegative with
  | true => rfl
  | false =>
    have hnonneg := writtenValue_nonneg h hneg
    exact iff_of_true (.inr (.inl hnonneg)) (.inr (.inl hnonneg))

theorem buildContent_iff (bits : ℕ) :
    (∀ content, buildContent mp conversions bits token = .ok content →
      ∃ c, content = some c ∧ c.value ≡ writtenValue token.text [ZMOD 2 ^ c.bits]) ↔
    TextFits bits token.text := by
  rw [← textFits_iff mp h]
  unfold buildContent
  rw [buildIntSafe_eq mp conversions h]
  constructor
  · intro hexact
    obtain ⟨c, hc, hvalue⟩ := hexact _ rfl
    rw [← Option.some.inj hc] at hvalue
    exact hvalue
  · rintro hvalue content hcontent
    exact ⟨_, (Except.ok.inj hcontent).symm, hvalue⟩

omit h in
theorem ok_iff {c : Content} :
    (∀ content, (Except.ok (some c) : Except String (Option Content)) = .ok content →
      ∃ c, content = some c ∧ c.value ≡ writtenValue token.text [ZMOD 2 ^ c.bits]) ↔
    c.value ≡ writtenValue token.text [ZMOD 2 ^ c.bits] := by
  constructor
  · intro hexact
    obtain ⟨c', hc, hvalue⟩ := hexact _ rfl
    rwa [← Option.some.inj hc] at hvalue
  · rintro hvalue content hcontent
    exact ⟨c, (Except.ok.inj hcontent).symm, hvalue⟩

theorem word_iff : (∀ content,
      (Except.ok (some ⟨64, token.intVal.toNat⟩) : Except String (Option Content)) = .ok content →
      ∃ c, content = some c ∧ c.value ≡ writtenValue token.text [ZMOD 2 ^ c.bits]) ↔
    TokenHolds 64 token.text := by
  rw [ok_iff, ← tokenHolds_iff h le_rfl]
  exact toNat_modEq_iff le_rfl token.intVal _

theorem literalExact_iff (position : Position) :
    LiteralExact mp conversions token position ↔ PositionHolds token.text position := by
  unfold LiteralExact
  cases position with
  | immediate expectedType | initializer type => exact buildContent_iff mp conversions h _
  | scale =>
    refine ok_iff.trans ?_
    have hlow : ((token.intVal.setWidth 8).toNat : ℤ) ≡ token.intVal.toNat [ZMOD 2 ^ 8] := by
      rw [toNat_setWidth]
      push_cast
      exact mod_modEq _ _
    rw [PositionHolds, ← tokenHolds_iff h (show 8 ≤ 64 by decide), ← toNat_modEq_iff (by decide)]
    exact ⟨hlow.symm.trans, hlow.trans⟩
  | globalOffset symbol =>
    cases symbol with
    | global => exact word_iff h
    | function | unresolved => exact ok_iff.trans zero_modEq_iff
  | stackIndex objects expectedType =>
    unfold parseLiteral PositionHolds
    dsimp only
    rw [← toNat_intVal h]
    split_ifs
    · exact word_iff h
    · exact buildContent_iff mp conversions h _
  | arrayLength => exact word_iff h
  | arrayElement type =>
    refine iff_of_false (fun hexact => ?_) not_false
    obtain ⟨c, hc, -⟩ := hexact none rfl
    exact absurd hc (by simp)

end Literal

/-! ## Displacements -/

/-- A token that the lexer takes for an integer. -/
def IsToken (token : MirToken) : Prop :=
  ∃ source lexed, lexToken source = some lexed ∧ lexed.token = token ∧ token.kind = .IntegerLiteral

theorem IsToken.isLiteral {token : MirToken} (h : IsToken token) :
    ∃ isNegative radix digits, IsLiteral token isNegative radix digits := by
  obtain ⟨source, lexed, hlex, rfl, hkind⟩ := h
  exact isLiteral_of_lexToken hlex hkind

section Displacement

variable {terms : List (Bool × MirToken)}

/-- A term adds what it says, unless its number is lost. -/
theorem term_modEq {term : Bool × MirToken} (h : IsToken term.2) :
    (if term.1 then term.2.intVal else -term.2.intVal).toInt ≡
      if TokenFits term.2.text then termValue term else 0 [ZMOD 2 ^ 64] := by
  obtain ⟨isNegative, radix, digits, hliteral⟩ := h.isLiteral
  unfold termValue
  rcases token_value hliteral with ⟨hfits, hvalue⟩ | ⟨hfits, hzero⟩
  · rw [if_pos hfits]
    split_ifs
    · exact hvalue
    · exact (toInt_neg_modEq _).trans hvalue.neg
  · rw [if_neg hfits, hzero]
    split_ifs <;> exact ModEq.refl 0

theorem foldl_modEq (h : ∀ term ∈ terms, IsToken term.2) (disp : BitVec 64) :
    (terms.foldl (fun disp term =>
      disp + if term.1 then term.2.intVal else -term.2.intVal) disp).toInt ≡
      disp.toInt + ((terms.map termValue).sum - lostValue terms) [ZMOD 2 ^ 64] := by
  induction terms generalizing disp with
  | nil =>
    change disp.toInt ≡ disp.toInt + (0 - 0) [ZMOD 2 ^ 64]
    rw [sub_zero, add_zero]
  | cons term rest ih =>
    have hterm := term_modEq (h term mem_cons_self)
    have hrest := ih (fun t ht => h t (mem_cons_of_mem _ ht))
      (disp + if term.1 then term.2.intVal else -term.2.intVal)
    refine hrest.trans ?_
    have hstep := (toInt_add_modEq disp
      (if term.1 then term.2.intVal else -term.2.intVal)).trans (hterm.add_left disp.toInt)
    refine (hstep.add_right _).trans ?_
    unfold lostValue
    rw [map_cons, sum_cons, filter_cons]
    by_cases hfits : TokenFits term.2.text
    · simp only [hfits, if_pos, not_true_eq_false, decide_false, Bool.false_eq_true, if_false]
      ring_nf
      rfl
    · simp only [hfits, not_false_eq_true, decide_true, if_true, if_false, map_cons, sum_cons]
      ring_nf
      rfl

theorem displacement_value : (displacement mp terms).value = (addTerms terms).toInt := by
  unfold displacement ofI64
  have hrange : InRange 64 true (addTerms terms).toInt := by
    have hle := le_toInt (addTerms terms)
    have hlt := toInt_lt (x := addTerms terms)
    rw [inRange_signed (by decide)]
    exact ⟨hle, hlt⟩
  rw [FlexNumber.clampToTwosComplement_eq mp (by decide), FlexNumber.clamped, if_pos hrange]

theorem displacementExact_iff (h : ∀ term ∈ terms, IsToken term.2) :
    DisplacementExact mp terms ↔ 2 ^ 64 ∣ lostValue terms := by
  have hsum : (addTerms terms).toInt ≡ (terms.map termValue).sum - lostValue terms
      [ZMOD 2 ^ 64] := by
    have hfold := foldl_modEq h 0
    rwa [show (0 : BitVec 64).toInt = 0 from rfl, zero_add] at hfold
  unfold DisplacementExact
  rw [displacement_value]
  have hdiff : ((terms.map termValue).sum - lostValue terms ≡ (terms.map termValue).sum
      [ZMOD 2 ^ 64]) ↔ 2 ^ 64 ∣ lostValue terms := by
    rw [modEq_iff_dvd, sub_sub_cancel]
  rw [← hdiff]
  exact ⟨hsum.symm.trans, hsum.trans⟩

end Displacement

/-! ## The literals that are kept -/

/-- A literal is kept in a position if and only if its text or its token holds it, and a
displacement if and only if what is lost of it adds up to nothing. -/
theorem literals_exact_iff : (∀ token, IsToken token → ∀ position,
      (LiteralExact mp conversions token position ↔ PositionHolds token.text position)) ∧
    ∀ terms : List (Bool × MirToken), (∀ term ∈ terms, IsToken term.2) →
      (DisplacementExact mp terms ↔ 2 ^ 64 ∣ lostValue terms) := by
  refine ⟨fun token htoken position => ?_, fun terms hterms => displacementExact_iff mp hterms⟩
  obtain ⟨isNegative, radix, digits, h⟩ := htoken.isLiteral
  exact literalExact_iff mp conversions h position

/-- A small letter has a capital one, and any other character is its own. -/
theorem toUpper_cases (c : Char) : (c.toUpper ≠ '-' ∧ c ≠ '-' ∧ c.toUpper.toUpper = c.toUpper) ∨
    c.toUpper = c := by
  by_cases hlower : 97 ≤ c.toNat ∧ c.toNat ≤ 122
  · have hall : ∀ n < 123, 97 ≤ n → (Char.ofNat n).toUpper ≠ '-' ∧ Char.ofNat n ≠ '-' ∧
        (Char.ofNat n).toUpper.toUpper = (Char.ofNat n).toUpper := by decide +kernel
    have hchar := hall c.toNat (by omega) hlower.1
    rw [Char.ofNat_toNat] at hchar
    exact .inl hchar
  · exact .inr (dif_neg hlower)

theorem toUpper_toUpper (c : Char) : c.toUpper.toUpper = c.toUpper := by
  rcases toUpper_cases c with ⟨-, -, h⟩ | h
  · exact h
  · rw [h, h]

theorem toUpper_eq_minus_iff (c : Char) : c.toUpper = '-' ↔ c = '-' := by
  rcases toUpper_cases c with ⟨hupper, hc, -⟩ | h
  · exact iff_of_false hupper hc
  · rw [h]

theorem readsUpper (text : List Char) {radix : ℕ} (hle : radix ≤ 36) :
    FlexNumber.readRadix (text.map Char.toUpper) radix = FlexNumber.readRadix text radix := by
  have hdigit (c : Char) : FlexNumber.digitOf radix c.toUpper = FlexNumber.digitOf radix c := by
    unfold FlexNumber.digitOf
    rw [if_pos hle, if_pos hle, toUpper_toUpper]
  have hmagnitude (text : List Char) : FlexNumber.readMagnitude radix (text.map Char.toUpper) =
      FlexNumber.readMagnitude radix text := by
    unfold FlexNumber.readMagnitude
    rw [all_map, map_map]
    simp only [Function.comp_def, hdigit]
  have hhead : (text.map Char.toUpper).head? = some '-' ↔ text.head? = some '-' := by
    cases text with
    | nil => rfl
    | cons c rest => simp [toUpper_eq_minus_iff]
  unfold FlexNumber.readRadix
  rw [← map_tail, hmagnitude, hmagnitude]
  simp only [hhead]

def LiteralConversions.exact : LiteralConversions where
  toRadixConversions := RadixConversions.exact
  readRadix_toUpper := fun text _ hle => readsUpper text hle

def minusHex : MirToken := ⟨.IntegerLiteral, "-0x2A".toList, -42⟩

def largeDecimal : MirToken := ⟨.IntegerLiteral, "9223372036854775808".toList, 0⟩

theorem isToken_minusHex : IsToken minusHex :=
  ⟨"-0x2A]".toList, ⟨minusHex, none, [']']⟩, by decide, rfl, rfl⟩

theorem isToken_largeDecimal : IsToken largeDecimal :=
  ⟨"9223372036854775808 x".toList, ⟨largeDecimal, none, " x".toList⟩, by decide +kernel, rfl, rfl⟩

/-- -42 as an offset, and as the second term of a displacement. -/
theorem minusHex_exact :
    LiteralExact LibTomMath.exact LiteralConversions.exact minusHex (.globalOffset .global) ∧
      DisplacementExact LibTomMath.exact [(true, minusHex), (false, minusHex)] := by
  obtain ⟨hposition, hterms⟩ := literals_exact_iff LibTomMath.exact LiteralConversions.exact
  refine ⟨(hposition minusHex isToken_minusHex _).mpr (.inl (by decide)), (hterms _ ?_).mpr ?_⟩
  · intro term hterm
    rcases mem_cons.mp hterm with rfl | hterm
    · exact isToken_minusHex
    · rw [mem_singleton.mp hterm]
      exact isToken_minusHex
  · decide

/-- 2^63 in decimal becomes a length of zero. -/
theorem largeDecimal_not_exact :
    ¬ ∀ (mp : LibTomMath) (conversions : LiteralConversions) (token : MirToken),
      IsToken token → ∀ position, LiteralExact mp conversions token position := by
  intro h
  obtain ⟨c, hc, hvalue⟩ := h LibTomMath.exact LiteralConversions.exact largeDecimal
    isToken_largeDecimal .arrayLength _ rfl
  rw [← Option.some.inj hc] at hvalue
  exact absurd hvalue (by decide)

end EzPacker.MirParser
