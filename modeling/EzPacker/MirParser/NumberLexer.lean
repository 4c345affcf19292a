import EzPacker.FlexNumber.Text

/-!
# Numbers in the text of a module

The lexer decodes a number into 64 bits and keeps its text. A number that the conversion of
the standard library does not take leaves the value that stood there, which is zero.
-/

namespace EzPacker.MirParser

open List

open FlexNumber (digitChar stripSign stripPrefix)

/-! ## Characters -/

def isDigit (c : Char) : Bool := '0' ≤ c && c ≤ '9'

def isXDigit (c : Char) : Bool :=
  isDigit c || ('a' ≤ c && c ≤ 'f') || ('A' ≤ c && c ≤ 'F')

def isBinaryDigit (c : Char) : Bool := c = '0' || c = '1'

def isOctalDigit (c : Char) : Bool := '0' ≤ c && c ≤ '7'

def digitValue (c : Char) : ℕ :=
  if isDigit c then c.toNat - 48 else if 'a' ≤ c then c.toNat - 87 else c.toNat - 55

/-- The number of some digits, the most significant one first. -/
def fromDigits (radix : ℕ) (digits : List Char) : ℕ :=
  digits.foldl (fun n c => n * radix + digitValue c) 0

/-! ## Conversions of the standard library -/

/-- A number without a sign that does not fit leaves zero. -/
def fromCharsU64 (digits : List Char) (radix : ℕ) : BitVec 64 :=
  if fromDigits radix digits < 2 ^ 64 then BitVec.ofNat 64 (fromDigits radix digits) else 0

/-- A minus is taken and a plus is not. -/
def fromCharsI64 (text : List Char) : BitVec 64 :=
  let isNegative := text.head? = some '-'
  let digits := (if isNegative then text.tail else text).takeWhile isDigit
  let number : ℤ := if isNegative then -fromDigits 10 digits else fromDigits 10 digits
  if digits ≠ [] ∧ -2 ^ 63 ≤ number ∧ number < 2 ^ 63 then BitVec.ofInt 64 number else 0

/-! ## The lexer -/

inductive MirTokenKind
  | IntegerLiteral | FloatLiteral | Unknown
  deriving DecidableEq, Repr

structure MirToken where
  kind : MirTokenKind
  text : List Char
  intVal : BitVec 64
  deriving DecidableEq, Repr

/-- A token, the error that it records and the source behind it. -/
structure Lexed where
  token : MirToken
  error : Option String
  rest : List Char
  deriving DecidableEq, Repr

/-- A number behind a zero and a letter. -/
def lexPrefixed (name : String) (radix : ℕ) (accepts : Char → Bool) (isNegative : Bool)
    (sign : List Char) (mark : Char) (source : List Char) : Lexed :=
  let digits := source.takeWhile accepts
  let text := sign ++ '0' :: mark :: digits
  if digits = [] then
    ⟨⟨.Unknown, text, 0⟩, some ("Invalid " ++ name ++ " literal without digits: '" ++
      String.ofList text ++ "'"), source⟩
  else
    let val := fromCharsU64 digits radix
    ⟨⟨.IntegerLiteral, text, if isNegative then -val else val⟩, none, source.dropWhile accepts⟩

/-- The digits behind a point, and the source behind them. -/
def lexFraction (source : List Char) : List Char × List Char :=
  match source with
  | '.' :: c :: rest =>
    if isDigit c then
      ('.' :: (c :: rest).takeWhile isDigit, (c :: rest).dropWhile isDigit)
    else ([], source)
  | _ => ([], source)

def lexExponent (source : List Char) : List Char × List Char :=
  match source with
  | [] => ([], [])
  | c :: rest =>
    if c = 'e' ∨ c = 'E' then
      let sign := if rest.head? = some '+' ∨ rest.head? = some '-' then rest.take 1 else []
      let digits := rest.drop sign.length
      (c :: sign ++ digits.takeWhile isDigit, digits.dropWhile isDigit)
    else ([], source)

def lexDecimal (sign source : List Char) : Lexed :=
  let digits := source.takeWhile isDigit
  let (fraction, rest) := lexFraction (source.dropWhile isDigit)
  let (exponent, rest) := lexExponent rest
  let text := sign ++ digits ++ fraction ++ exponent
  if fraction ≠ [] ∨ exponent ≠ [] then ⟨⟨.FloatLiteral, text, 0⟩, none, rest⟩
  else ⟨⟨.IntegerLiteral, text, fromCharsI64 text⟩, none, rest⟩

/-- A number behind its sign. -/
def lexMagnitude (isNegative : Bool) (sign body : List Char) : Lexed :=
  match body with
  | '0' :: mark :: rest =>
    if mark = 'x' ∨ mark = 'X' then lexPrefixed "hex" 16 isXDigit isNegative sign mark rest
    else if mark = 'b' ∨ mark = 'B' then
      lexPrefixed "binary" 2 isBinaryDigit isNegative sign mark rest
    else if mark = 'o' ∨ mark = 'O' then
      lexPrefixed "octal" 8 isOctalDigit isNegative sign mark rest
    else lexDecimal sign body
  | _ => lexDecimal sign body

def lexNumber (source : List Char) : Lexed :=
  let isNegative := source.head? = some '-'
  let sign := if isNegative ∨ source.head? = some '+' then source.take 1 else []
  lexMagnitude isNegative sign (source.drop sign.length)

/-- The numbers among the tokens: a digit starts one, and so does a minus in front of a digit. -/
def lexToken (source : List Char) : Option Lexed :=
  match source with
  | '-' :: c :: _ => if isDigit c then some (lexNumber source) else none
  | c :: _ => if isDigit c then some (lexNumber source) else none
  | [] => none

/-! ## What a literal says -/

/-- The number that is written. -/
def writtenValue (text : List Char) : ℤ :=
  let (isNegative, body) := stripSign text
  let (radix, digits) := stripPrefix 10 body
  if isNegative then -fromDigits radix digits else fromDigits radix digits

def isPrefixed (text : List Char) : Bool := (stripPrefix 10 (stripSign text).2).1 ≠ 10

/-- The digits of a radix. -/
def accepts (radix : ℕ) : Char → Bool :=
  if radix = 16 then isXDigit else if radix = 2 then isBinaryDigit
  else if radix = 8 then isOctalDigit else isDigit

/-- The value of a token, by its sign, its radix and its digits. -/
def decoded (isNegative : Bool) (radix : ℕ) (digits : List Char) : BitVec 64 :=
  let number : ℤ := if isNegative then -fromDigits radix digits else fromDigits radix digits
  if radix = 10 then
    if -2 ^ 63 ≤ number ∧ number < 2 ^ 63 then BitVec.ofInt 64 number else 0
  else if isNegative then -fromCharsU64 digits radix else fromCharsU64 digits radix

/-- The sign of a number: a minus or nothing. -/
def signText (isNegative : Bool) : List Char := if isNegative then ['-'] else []

/-- The parts of the text of a literal and the value of its token. -/
structure IsLiteral (token : MirToken) (isNegative : Bool) (radix : ℕ) (digits : List Char) :
    Prop where
  start : ∃ c rest, isDigit c = true ∧ token.text = signText isNegative ++ c :: rest
  sign : (stripSign token.text).1 = isNegative
  parts : stripPrefix 10 (stripSign token.text).2 = (radix, digits)
  head : isNegative = true ↔ token.text.head? = some '-'
  radix_mem : radix = 16 ∨ radix = 2 ∨ radix = 8 ∨ radix = 10
  ne_nil : digits ≠ []
  digits_accepted : ∀ c ∈ digits, accepts radix c = true
  value : token.intVal = decoded isNegative radix digits

/-! ## The texts of literals -/

section Texts

variable {c d : Char} {rest text : List Char}

theorem isDigit_ne (hc : isDigit c = true) (hd : isDigit d = false) : c ≠ d := by
  rintro rfl
  rw [hc] at hd
  exact absurd hd (by decide)

theorem stripSign_of_digit (hc : isDigit c = true) :
    stripSign (c :: rest) = (false, c :: rest) := by
  unfold stripSign
  split
  next heq => exact absurd (cons.inj heq).1 (isDigit_ne hc (by decide))
  next heq => exact absurd (cons.inj heq).1 (isDigit_ne hc (by decide))
  next => rfl

theorem stripPrefix_of_digits (h : ∀ c ∈ text, isDigit c = true) :
    stripPrefix 10 text = (10, text) := by
  unfold stripPrefix
  split
  next p rest =>
    have hp : isDigit p = true := h p (mem_cons_of_mem _ mem_cons_self)
    have hne (d : Char) (hd : isDigit d = false) : p ≠ d := isDigit_ne hp hd
    rw [if_neg (not_or.mpr ⟨hne 'x' (by decide), hne 'X' (by decide)⟩),
      if_neg (not_or.mpr ⟨hne 'b' (by decide), hne 'B' (by decide)⟩),
      if_neg (not_or.mpr ⟨hne 'o' (by decide), hne 'O' (by decide)⟩)]
  next => rfl

theorem takeWhile_ne_nil (hc : isDigit c = true) : (c :: rest).takeWhile isDigit ≠ [] := by
  rw [takeWhile_cons_of_pos hc]
  exact cons_ne_nil _ _

end Texts

section Shapes

variable {isNegative : Bool} {digits rest : List Char}

theorem isLiteral_prefixed {name : String} {radix : ℕ} {mark : Char}
    (hradix : radix = 16 ∨ radix = 2 ∨ radix = 8)
    (hmark : stripPrefix 10 ('0' :: mark :: rest.takeWhile (accepts radix)) =
      (radix, rest.takeWhile (accepts radix)))
    (hkind : (lexPrefixed name radix (accepts radix) isNegative (signText isNegative) mark
      rest).token.kind = .IntegerLiteral) :
    IsLiteral (lexPrefixed name radix (accepts radix) isNegative (signText isNegative) mark
      rest).token isNegative radix (rest.takeWhile (accepts radix)) := by
  unfold lexPrefixed at hkind ⊢
  dsimp only at hkind ⊢
  by_cases hnil : rest.takeWhile (accepts radix) = []
  · rw [if_pos hnil] at hkind
    simp at hkind
  rw [if_neg hnil]
  have hne : radix ≠ 10 := by omega
  have hsign : stripSign (signText isNegative ++ '0' :: mark :: rest.takeWhile (accepts radix)) =
      (isNegative, '0' :: mark :: rest.takeWhile (accepts radix)) := by
    cases isNegative <;> rfl
  refine ⟨⟨'0', _, by decide, rfl⟩, by rw [hsign], by rw [hsign]; exact hmark, ?_, by omega, hnil,
    ?_, ?_⟩
  · cases isNegative <;> simp [signText]
  · intro c hc
    exact mem_takeWhile_imp hc
  · unfold decoded
    rw [if_neg hne]

theorem isLiteral_decimal {c : Char} (hc : isDigit c = true)
    (hkind : (lexDecimal (signText isNegative) (c :: rest)).token.kind = .IntegerLiteral) :
    IsLiteral (lexDecimal (signText isNegative) (c :: rest)).token isNegative 10
      ((c :: rest).takeWhile isDigit) := by
  have hall : ∀ d ∈ (c :: rest).takeWhile isDigit, isDigit d = true :=
    fun d hd => mem_takeWhile_imp hd
  have htake : (c :: rest).takeWhile isDigit = c :: rest.takeWhile isDigit :=
    takeWhile_cons_of_pos hc
  unfold lexDecimal at hkind ⊢
  generalize lexFraction ((c :: rest).dropWhile isDigit) = fraction at hkind ⊢
  obtain ⟨fraction, behind⟩ := fraction
  dsimp only at hkind ⊢
  generalize lexExponent behind = exponent at hkind ⊢
  obtain ⟨exponent, behind⟩ := exponent
  dsimp only at hkind ⊢
  split_ifs at hkind ⊢ with hfloat
  obtain ⟨rfl, rfl⟩ : fraction = [] ∧ exponent = [] := by
    rwa [not_or, not_not, not_not] at hfloat
  have hsign : stripSign (signText isNegative ++ (c :: rest).takeWhile isDigit ++ [] ++ []) =
      (isNegative, (c :: rest).takeWhile isDigit) := by
    rw [append_nil, append_nil, htake]
    cases isNegative
    · exact stripSign_of_digit hc
    · rfl
  have hfrom : fromCharsI64 (signText isNegative ++ (c :: rest).takeWhile isDigit ++ [] ++ []) =
      decoded isNegative 10 ((c :: rest).takeWhile isDigit) := by
    have htwice : ((c :: rest).takeWhile isDigit).takeWhile isDigit =
        (c :: rest).takeWhile isDigit := takeWhile_eq_self_iff.mpr hall
    have hhead : ((c :: rest).takeWhile isDigit).head? ≠ some '-' := by
      rw [htake]
      exact fun h => isDigit_ne hc (by decide) (Option.some.inj h)
    have hne : (c :: rest).takeWhile isDigit ≠ [] := takeWhile_ne_nil hc
    rw [append_nil, append_nil]
    unfold fromCharsI64 decoded
    generalize (c :: rest).takeWhile isDigit = digits at htwice hhead hne ⊢
    rw [if_pos rfl]
    cases isNegative
    · simp [signText, hhead, htwice, hne]
    · simp [signText, htwice, hne]
  have hstart : signText isNegative ++ (c :: rest).takeWhile isDigit ++ [] ++ [] =
      signText isNegative ++ c :: rest.takeWhile isDigit := by
    rw [append_nil, append_nil, htake]
  refine ⟨⟨c, _, hc, hstart⟩, by rw [hsign], by rw [hsign]; exact stripPrefix_of_digits hall, ?_,
    by omega, takeWhile_ne_nil hc, hall, hfrom⟩
  rw [append_nil, append_nil, htake]
  cases isNegative
  · have hminus : c ≠ '-' := isDigit_ne hc (by decide)
    simp [signText, hminus]
  · simp [signText]

theorem isLiteral_magnitude {c : Char} (hc : isDigit c = true)
    (hkind : (lexMagnitude isNegative (signText isNegative) (c :: rest)).token.kind =
      .IntegerLiteral) :
    ∃ radix digits, IsLiteral (lexMagnitude isNegative (signText isNegative) (c :: rest)).token
      isNegative radix digits := by
  generalize hlexed : lexMagnitude isNegative (signText isNegative) (c :: rest) = lexed at hkind ⊢
  unfold lexMagnitude at hlexed
  split at hlexed
  next mark rest' heq =>
    split_ifs at hlexed with hx hb ho
    · subst hlexed
      exact ⟨16, _, isLiteral_prefixed (.inl rfl) (if_pos hx) hkind⟩
    · subst hlexed
      exact ⟨2, _, isLiteral_prefixed (.inr (.inl rfl)) ((if_neg hx).trans (if_pos hb)) hkind⟩
    · subst hlexed
      exact ⟨8, _, isLiteral_prefixed (.inr (.inr rfl))
        ((if_neg hx).trans ((if_neg hb).trans (if_pos ho))) hkind⟩
    · subst hlexed
      exact ⟨10, _, isLiteral_decimal hc hkind⟩
  next =>
    subst hlexed
    exact ⟨10, _, isLiteral_decimal hc hkind⟩

theorem lexNumber_eq (isNegative : Bool) {c : Char} (hc : isDigit c = true) :
    lexNumber (signText isNegative ++ c :: rest) =
      lexMagnitude isNegative (signText isNegative) (c :: rest) := by
  have hminus : c ≠ '-' := isDigit_ne hc (by decide)
  have hplus : c ≠ '+' := isDigit_ne hc (by decide)
  unfold lexNumber
  cases isNegative
  · simp [signText, hminus, hplus]
  · simp [signText]

/-- The token of a number has the parts of its text. -/
theorem isLiteral_of_lexToken {source : List Char} {lexed : Lexed}
    (h : lexToken source = some lexed) (hkind : lexed.token.kind = .IntegerLiteral) :
    ∃ isNegative radix digits, IsLiteral lexed.token isNegative radix digits := by
  unfold lexToken at h
  split at h
  next c rest =>
    split_ifs at h with hc
    rw [← Option.some.inj h] at hkind ⊢
    have heq : lexNumber ('-' :: c :: rest) = _ := lexNumber_eq true hc
    rw [heq] at hkind ⊢
    exact ⟨true, isLiteral_magnitude hc hkind⟩
  next c rest hne =>
    split_ifs at h with hc
    rw [← Option.some.inj h] at hkind ⊢
    have heq : lexNumber (c :: rest) = _ := lexNumber_eq false hc
    rw [heq] at hkind ⊢
    exact ⟨false, isLiteral_magnitude hc hkind⟩
  next => exact absurd h (by simp)

end Shapes

end EzPacker.MirParser
