import EzPacker.MirParser.LiteralPositions

/-!
# Memory operands

The loop over the terms of an address keeps one index register, one scale and one displacement. A
register takes the place of the one before it, whatever its sign; a scale is cut to a byte and stays
for a register without one. A minus in front of a digit is a part of the literal, so that no sign
is left for the loop and the bracket is missed.
-/

namespace EzPacker.MirParser

open List Function Option

open Mir (FlexInt MirTypeKind)
open FlexNumber (LibTomMath ofI64)

variable (mp : LibTomMath)

/-! ## The parser -/

/-- What the lexer makes of an integer. -/
abbrev IntegerToken := {token : MirToken // IsToken token}

inductive Token
  | typePtr
  | localName (name : String)
  | sign (isPlus : Bool)
  | star
  | integer (token : IntegerToken)
  | rBracket
  | other

/-- Only an integer has a value. -/
def Token.intVal : Token → BitVec 64
  | .integer token => token.1.intVal
  | _ => 0

/-- The registers of the function and the kinds of their types. -/
abbrev RegisterKinds := String → Option MirTypeKind

def getOrCreateRegister (name : String) (kind : MirTypeKind) (regs : RegisterKinds) :
    RegisterKinds :=
  update regs name (some ((regs name).getD kind))

structure TermState where
  regs : RegisterKinds
  indexReg : Option String
  scale : BitVec 8
  disp : BitVec 64

def TermState.withIndex (s : TermState) (name : String) : TermState :=
  { s with regs := getOrCreateRegister name .Integer s.regs, indexReg := some name }

/-- The loop over the terms. Behind the last token only the end of the file is read. -/
def parseTerms (s : TermState) : List Token → TermState × List Token
  | .sign _ :: .localName name :: .star :: scaleTok :: rest =>
    parseTerms { s.withIndex name with scale := scaleTok.intVal.setWidth 8 } rest
  | [.sign _, .localName name, .star] => ({ s.withIndex name with scale := 0 }, [])
  | .sign _ :: .localName name :: rest => parseTerms (s.withIndex name) rest
  | .sign isPlus :: .integer token :: rest =>
    parseTerms { s with disp := s.disp + if isPlus then token.1.intVal else -token.1.intVal } rest
  | .sign _ :: rest => parseTerms s rest
  | rest => (s, rest)

structure MirMemory where
  base : String
  displacement : FlexInt
  index : Option String
  scale : BitVec 8

def validateMemoryRegisters (regs : RegisterKinds) (base : String) (index : Option String) : Bool :=
  regs base = some .Pointer &&
    index.all fun index => regs index = some .Integer || regs index = some .Pointer

/-- The operand with the registers and the tokens behind it; every error is recorded. -/
def parseMemoryOperand (regs : RegisterKinds) (tokens : List Token) :
    Option (MirMemory × RegisterKinds × List Token) :=
  let tokens := match tokens with
    | .typePtr :: rest => rest
    | tokens => tokens
  match tokens with
  | .localName base :: rest =>
    let (s, rest) := parseTerms ⟨getOrCreateRegister base .Pointer regs, none, 1, 0⟩ rest
    match rest with
    | .rBracket :: rest =>
      if validateMemoryRegisters s.regs base s.indexReg then
        some (⟨base, ofI64 mp s.disp 64, s.indexReg, s.scale⟩, s.regs, rest)
      else none
    | _ => none
  | _ => none

/-! ## The text -/

/-- A term of an address. In a glued one the minus stands directly in front of the digits. -/
inductive MemoryTerm
  | register (isPlus : Bool) (name : String) (scale : Option IntegerToken)
  | literal (isPlus : Bool) (value : IntegerToken)
  | glued (value : IntegerToken)

def MemoryTerm.tokens : MemoryTerm → List Token
  | .register isPlus name none => [.sign isPlus, .localName name]
  | .register isPlus name (some scale) => [.sign isPlus, .localName name, .star, .integer scale]
  | .literal isPlus value => [.sign isPlus, .integer value]
  | .glued value => [.integer value]

structure MemoryText where
  isPtr : Bool
  base : String
  terms : List MemoryTerm

/-- The tokens behind the opening bracket. -/
def MemoryText.tokens (text : MemoryText) (rest : List Token) : List Token :=
  (if text.isPtr then [.typePtr] else []) ++
    .localName text.base :: (text.terms.flatMap MemoryTerm.tokens ++ .rBracket :: rest)

/-- The register of a term and the number that it is multiplied with. -/
def MemoryTerm.scaled : MemoryTerm → Option (String × ℤ)
  | .register isPlus name scale =>
    let scale : ℤ := scale.elim 1 fun token => writtenValue token.1.text
    some (name, if isPlus then scale else -scale)
  | _ => none

def MemoryTerm.constant : MemoryTerm → Option (Bool × MirToken)
  | .register _ _ _ => none
  | .literal isPlus value => some (isPlus, value.1)
  | .glued value => some (true, value.1)

/-- The sum of multiples of registers. -/
def sumOf (env : String → BitVec 64) (multiples : List (String × ℤ)) : ℤ :=
  (multiples.map fun t => t.2 * ((env t.1).toNat : ℤ)).sum

/-- The sum that the text writes. -/
def MemoryText.address (text : MemoryText) (env : String → BitVec 64) : ℤ :=
  (env text.base).toNat + sumOf env (text.terms.filterMap MemoryTerm.scaled) +
    ((text.terms.filterMap MemoryTerm.constant).map termValue).sum

def MirMemory.multiples (m : MirMemory) : List (String × ℤ) :=
  m.index.toList.map fun name => (name, (m.scale.toNat : ℤ))

def MirMemory.address (m : MirMemory) (env : String → BitVec 64) : ℤ :=
  (env m.base).toNat + sumOf env m.multiples + m.displacement.value

/-- An operand that is parsed denotes its text. -/
def MemoryText.Right (regs : RegisterKinds) (text : MemoryText) (rest : List Token) : Prop :=
  ∀ m regs' rest', parseMemoryOperand mp regs (text.tokens rest) = some (m, regs', rest') →
    ∀ env, m.address env ≡ text.address env [ZMOD 2 ^ 64]

/-! ## Where it is right -/

/-- What the terms of a register multiply it with. -/
def coefficient (multiples : List (String × ℤ)) (name : String) : ℤ :=
  ((multiples.filter fun t => t.1 = name).map Prod.snd).sum

def MemoryTerm.isGlued : MemoryTerm → Bool
  | .glued _ => true
  | _ => false

/-- The last register. -/
def lastIndex (terms : List MemoryTerm) : Option String :=
  ((terms.filterMap MemoryTerm.scaled).map Prod.fst).getLast?

/-- The low byte of the last scale. -/
def lastScale (terms : List MemoryTerm) : BitVec 8 :=
  terms.foldl (fun scale term => match term with
    | .register _ _ (some token) => token.1.intVal.setWidth 8
    | _ => scale) 1

/-- The kinds of the base and the last register are such that the address is no error. -/
def MemoryText.Accepted (regs : RegisterKinds) (text : MemoryText) : Prop :=
  (∀ term ∈ text.terms, term.isGlued = false) ∧
    (regs text.base = none ∨ regs text.base = some .Pointer) ∧
    ∀ name, lastIndex text.terms = some name →
      regs name = none ∨ regs name = some .Integer ∨ regs name = some .Pointer

/-- Every register is multiplied with what its terms add up to, that is the last scale for the last
register and nothing for the others, and no literal is lost. -/
def MemoryText.Kept (text : MemoryText) : Prop :=
  (∀ name, coefficient (text.terms.filterMap MemoryTerm.scaled) name ≡
    if lastIndex text.terms = some name then (lastScale text.terms).toNat else 0 [ZMOD 2 ^ 64]) ∧
    2 ^ 64 ∣ lostValue (text.terms.filterMap MemoryTerm.constant)

/-! ## Sums of multiples -/

section Sums

variable {l l' : List (String × ℤ)} {n c c' : ℤ}

/-- The value of one makes a register's coefficient. -/
theorem sumOf_single (l : List (String × ℤ)) (name : String) :
    sumOf (fun x => if x = name then 1 else 0) l = coefficient l name := by
  unfold sumOf coefficient
  induction l with
  | nil => rfl
  | cons t rest ih =>
    rw [map_cons, sum_cons, ih, filter_cons]
    by_cases ht : t.1 = name <;> simp [ht]

theorem sumOf_eq_sum (env : String → BitVec 64) {names : Finset String} (h : ∀ t ∈ l, t.1 ∈ names) :
    sumOf env l = ∑ name ∈ names, coefficient l name * (env name).toNat := by
  unfold sumOf coefficient
  induction l with
  | nil => simp
  | cons t rest ih =>
    rw [forall_mem_cons] at h
    have hone : ∑ name ∈ names, (if t.1 = name then t.2 else 0) * ((env name).toNat : ℤ) =
        t.2 * (env t.1).toNat := by
      simp [ite_mul, Finset.sum_ite_eq, h.1]
    rw [map_cons, sum_cons, ih h.2, ← hone, ← Finset.sum_add_distrib]
    refine Finset.sum_congr rfl fun name _ => ?_
    rw [filter_cons]
    by_cases ht : t.1 = name <;> simp [ht, add_mul]

/-- Two sums agree for all registers exactly when their coefficients and constants do. -/
theorem sums_modEq_iff : (∀ env, sumOf env l + c ≡ sumOf env l' + c' [ZMOD n]) ↔
    (∀ name, coefficient l name ≡ coefficient l' name [ZMOD n]) ∧ c ≡ c' [ZMOD n] := by
  constructor
  · intro h
    have hzero (l : List (String × ℤ)) : sumOf (fun _ => 0) l = 0 := by simp [sumOf]
    have hconst : c ≡ c' [ZMOD n] := by simpa only [hzero, zero_add] using h fun _ => 0
    refine ⟨fun name => Int.ModEq.add_right_cancel hconst ?_, hconst⟩
    have hname := h fun x => if x = name then 1 else 0
    rwa [sumOf_single, sumOf_single] at hname
  · rintro ⟨h, hconst⟩ env
    refine Int.ModEq.add ?_ hconst
    let names := (l.map Prod.fst ++ l'.map Prod.fst).toFinset
    have hl : ∀ t ∈ l, t.1 ∈ names := fun t ht =>
      mem_toFinset.mpr (mem_append_left _ (mem_map_of_mem ht))
    have hl' : ∀ t ∈ l', t.1 ∈ names := fun t ht =>
      mem_toFinset.mpr (mem_append_right _ (mem_map_of_mem ht))
    rw [sumOf_eq_sum env hl, sumOf_eq_sum env hl']
    rw [Int.modEq_iff_dvd, ← Finset.sum_sub_distrib]
    exact Finset.dvd_sum fun name _ => ((h name).mul_right _).dvd

end Sums

/-! ## The loop on the tokens of a text -/

def TermState.add (s : TermState) : MemoryTerm → TermState
  | .register _ name none => s.withIndex name
  | .register _ name (some scale) =>
    { s.withIndex name with scale := scale.1.intVal.setWidth 8 }
  | .literal isPlus value =>
    { s with disp := s.disp + if isPlus then value.1.intVal else -value.1.intVal }
  | .glued _ => s

section Loop

variable {terms : List MemoryTerm} {rest : List Token}

theorem parseTerms_term (s : TermState) {term : MemoryTerm} (hterm : term.isGlued = false)
    {more : List Token} (hmore : ∀ l, more ≠ .star :: l) :
    parseTerms s (term.tokens ++ more) = parseTerms (s.add term) more := by
  cases term with
  | register isPlus name scale =>
    cases scale with
    | some scale => rfl
    | none =>
      cases more with
      | nil => rfl
      | cons token more =>
        cases token with
        | star => exact absurd rfl (hmore more)
        | _ => rfl
  | literal isPlus value => rfl
  | glued value => cases hterm

theorem terms_ne_star (terms : List MemoryTerm) (rest l : List Token) :
    terms.flatMap MemoryTerm.tokens ++ .rBracket :: rest ≠ .star :: l := by
  cases terms with
  | nil => simp
  | cons term terms =>
    cases term with
    | register isPlus name scale => cases scale <;> simp [MemoryTerm.tokens]
    | _ => simp [MemoryTerm.tokens]

theorem parseTerms_terms (s : TermState) (h : ∀ term ∈ terms, term.isGlued = false) :
    parseTerms s (terms.flatMap MemoryTerm.tokens ++ .rBracket :: rest) =
      (terms.foldl TermState.add s, .rBracket :: rest) := by
  induction terms generalizing s with
  | nil => rfl
  | cons term terms ih =>
    rw [forall_mem_cons] at h
    rw [flatMap_cons, append_assoc,
      parseTerms_term s h.1 fun l => terms_ne_star terms rest l, ih _ h.2, foldl_cons]

/-- The loop ends in front of a glued literal. -/
theorem parseTerms_glued (s : TermState) (h : ∃ term ∈ terms, term.isGlued = true) :
    ∃ s' token rest', parseTerms s (terms.flatMap MemoryTerm.tokens ++ .rBracket :: rest) =
      (s', .integer token :: rest') := by
  induction terms generalizing s with
  | nil => simp at h
  | cons term terms ih =>
    by_cases hterm : term.isGlued = true
    · cases term with
      | glued value => exact ⟨s, value, _, rfl⟩
      | _ => cases hterm
    · rw [flatMap_cons, append_assoc,
        parseTerms_term s (by simpa using hterm) fun l => terms_ne_star terms rest l]
      exact ih _ (by simpa [hterm] using h)

variable (s : TermState)

theorem disp_foldl (h : ∀ term ∈ terms, term.isGlued = false) : (terms.foldl TermState.add s).disp =
    (terms.filterMap MemoryTerm.constant).foldl (fun disp term =>
      disp + if term.1 then term.2.intVal else -term.2.intVal) s.disp := by
  induction terms generalizing s with
  | nil => rfl
  | cons term terms ih =>
    rw [forall_mem_cons] at h
    rw [foldl_cons, ih _ h.2]
    cases term with
    | register isPlus name scale => cases scale <;> rfl
    | literal isPlus value => rfl
    | glued value => cases h.1

theorem scale_foldl (h : s.scale = 1) : (terms.foldl TermState.add s).scale = lastScale terms := by
  unfold lastScale
  rw [← h]
  clear h
  induction terms generalizing s with
  | nil => rfl
  | cons term terms ih =>
    rw [foldl_cons, ih, foldl_cons]
    cases term with
    | register isPlus name scale => cases scale <;> rfl
    | _ => rfl

theorem add_register (isPlus : Bool) (name : String) (scale : Option IntegerToken) :
    (s.add (.register isPlus name scale)).indexReg = some name ∧
      (s.add (.register isPlus name scale)).regs = getOrCreateRegister name .Integer s.regs := by
  cases scale <;> exact ⟨rfl, rfl⟩

theorem lastIndex_cons (term : MemoryTerm) (terms : List MemoryTerm) :
    lastIndex (term :: terms) = (lastIndex terms).or (term.scaled.map Prod.fst) := by
  unfold lastIndex
  cases hterm : term.scaled with
  | none => simp [filterMap_cons_none hterm]
  | some t =>
    rw [filterMap_cons_some hterm, map_cons, getLast?_cons]
    cases ((terms.filterMap MemoryTerm.scaled).map Prod.fst).getLast? <;> rfl

theorem indexReg_foldl :
    (terms.foldl TermState.add s).indexReg = (lastIndex terms).or s.indexReg := by
  induction terms generalizing s with
  | nil => rfl
  | cons term terms ih =>
    rw [List.foldl_cons, ih, lastIndex_cons, Option.or_assoc]
    cases term with
    | register isPlus name scale => rw [(add_register s isPlus name scale).1]; rfl
    | _ => rfl

theorem regs_foldl_of_some {name : String} {kind : MirTypeKind} (h : s.regs name = some kind) :
    (terms.foldl TermState.add s).regs name = some kind := by
  induction terms generalizing s with
  | nil => exact h
  | cons term terms ih =>
    refine ih _ ?_
    cases term with
    | register isPlus name' scale =>
      rw [(add_register s isPlus name' scale).2, getOrCreateRegister]
      by_cases hname : name = name'
      · subst hname
        rw [update_self, h, getD_some]
      · rw [update_of_ne hname, h]
    | _ => exact h

/-- The last register has the kind that it had, or that of an integer. -/
theorem regs_foldl_lastIndex {name : String} (h : lastIndex terms = some name) :
    (terms.foldl TermState.add s).regs name = some ((s.regs name).getD .Integer) := by
  induction terms generalizing s with
  | nil => cases h
  | cons term terms ih =>
    rw [lastIndex_cons] at h
    rw [foldl_cons]
    cases hlast : lastIndex terms with
    | some last =>
      rw [hlast, some_or] at h
      rw [ih _ (hlast.trans h)]
      cases term with
      | register isPlus name' scale =>
        rw [(add_register s isPlus name' scale).2, getOrCreateRegister]
        by_cases hname : name = name'
        · subst hname
          rw [update_self, getD_some]
        · rw [update_of_ne hname]
      | _ => rfl
    | none =>
      rw [hlast, none_or] at h
      cases term with
      | register isPlus name' scale =>
        cases h
        refine regs_foldl_of_some _ ?_
        rw [(add_register s isPlus _ scale).2, getOrCreateRegister, update_self]
      | literal isPlus value | glued value => cases h

end Loop

/-! ## Operands -/

section Operand

variable {regs : RegisterKinds} {text : MemoryText} {rest : List Token}

/-- The state behind the terms. -/
def MemoryText.state (regs : RegisterKinds) (text : MemoryText) : TermState :=
  text.terms.foldl TermState.add ⟨getOrCreateRegister text.base .Pointer regs, none, 1, 0⟩

/-- The operand of a text without an error. -/
def MemoryText.operand (regs : RegisterKinds) (text : MemoryText) : MirMemory :=
  ⟨text.base, ofI64 mp (text.state regs).disp 64, lastIndex text.terms, lastScale text.terms⟩

theorem parseMemoryOperand_eq : parseMemoryOperand mp regs (text.tokens rest) =
    let (s, rest) := parseTerms ⟨getOrCreateRegister text.base .Pointer regs, none, 1, 0⟩
      (text.terms.flatMap MemoryTerm.tokens ++ .rBracket :: rest)
    match rest with
    | .rBracket :: rest =>
      if validateMemoryRegisters s.regs text.base s.indexReg then
        some (⟨text.base, ofI64 mp s.disp 64, s.indexReg, s.scale⟩, s.regs, rest)
      else none
    | _ => none := by
  unfold MemoryText.tokens
  cases text.isPtr <;> rfl

theorem indexReg_state : (text.state regs).indexReg = lastIndex text.terms :=
  (indexReg_foldl _).trans or_none

theorem validateMemoryRegisters_iff :
    validateMemoryRegisters (text.state regs).regs text.base (text.state regs).indexReg = true ↔
      (regs text.base = none ∨ regs text.base = some .Pointer) ∧
        ∀ name, lastIndex text.terms = some name →
          regs name = none ∨ regs name = some .Integer ∨ regs name = some .Pointer := by
  have hbase : (text.state regs).regs text.base = some ((regs text.base).getD .Pointer) :=
    regs_foldl_of_some _ (update_self ..)
  have hpointer : (regs text.base).getD .Pointer = .Pointer ↔
      regs text.base = none ∨ regs text.base = some .Pointer := by
    cases regs text.base <;> simp
  unfold validateMemoryRegisters
  rw [indexReg_state, hbase, Bool.and_eq_true, decide_eq_true_iff, some.injEq, hpointer]
  refine and_congr_right fun hok => ?_
  cases hlast : lastIndex text.terms with
  | none => simp
  | some name =>
    have hkind : (text.state regs).regs name = some _ := regs_foldl_lastIndex _ hlast
    simp only [all_some, hkind, getOrCreateRegister]
    by_cases hname : name = text.base
    · subst hname
      rcases hok with hok | hok <;> simp [hok]
    · rw [update_of_ne hname]
      cases hregs : regs name <;> simp [hregs]

/-- A text is parsed exactly when it is accepted. -/
theorem parse_eq_some_iff {result : MirMemory × RegisterKinds × List Token} :
    parseMemoryOperand mp regs (text.tokens rest) = some result ↔
      text.Accepted regs ∧ (text.operand mp regs, (text.state regs).regs, rest) = result := by
  rw [parseMemoryOperand_eq]
  by_cases hglued : ∀ term ∈ text.terms, term.isGlued = false
  · have hscale : (text.state regs).scale = lastScale text.terms := scale_foldl _ rfl
    have hstate : (⟨text.base, ofI64 mp (text.state regs).disp 64, (text.state regs).indexReg,
        (text.state regs).scale⟩ : MirMemory) = text.operand mp regs := by
      rw [indexReg_state, hscale, MemoryText.operand]
    rw [parseTerms_terms _ hglued, MemoryText.Accepted, and_iff_right hglued,
      ← validateMemoryRegisters_iff, ← hstate]
    exact (ite_none_right_eq_some ..).trans (and_congr_right fun _ => some_inj)
  · obtain ⟨s', token, rest', hparse⟩ := @parseTerms_glued _ rest
      ⟨getOrCreateRegister text.base .Pointer regs, none, 1, 0⟩ (by simpa using hglued)
    rw [hparse]
    exact iff_of_false (by simp) fun h => hglued h.1.1

theorem isToken_constant : ∀ term ∈ text.terms.filterMap MemoryTerm.constant, IsToken term.2 := by
  intro term hterm
  obtain ⟨source, -, hsource⟩ := mem_filterMap.mp hterm
  cases source with
  | register isPlus name scale => cases hsource
  | literal isPlus value | glued value => cases hsource; exact value.2

theorem displacement_operand (h : text.Accepted regs) : (text.operand mp regs).displacement.value ≡
    ((text.terms.filterMap MemoryTerm.constant).map termValue).sum -
      lostValue (text.terms.filterMap MemoryTerm.constant) [ZMOD 2 ^ 64] := by
  have hdisp : (text.state regs).disp = addTerms (text.terms.filterMap MemoryTerm.constant) :=
    disp_foldl _ h.1
  have hvalue := @displacement_value mp (text.terms.filterMap MemoryTerm.constant)
  unfold displacement at hvalue
  have hfold := foldl_modEq (@isToken_constant text) 0
  rw [show (0 : BitVec 64).toInt = 0 from rfl, zero_add] at hfold
  unfold MemoryText.operand
  rw [hdisp, hvalue]
  exact hfold

theorem coefficient_operand (name : String) : coefficient (text.operand mp regs).multiples name =
      if lastIndex text.terms = some name then ((lastScale text.terms).toNat : ℤ) else 0 := by
  unfold coefficient MirMemory.multiples MemoryText.operand
  cases lastIndex text.terms with
  | none => rfl
  | some last => by_cases hlast : last = name <;> simp [hlast]

/-- An operand is an error or denotes its text exactly when it is not accepted or keeps its
terms. -/
theorem memoryOperand_right_iff : text.Right mp regs rest ↔ (text.Accepted regs → text.Kept) := by
  have hright : text.Right mp regs rest ↔ (text.Accepted regs → ∀ env,
      (text.operand mp regs).address env ≡ text.address env [ZMOD 2 ^ 64]) := by
    unfold MemoryText.Right
    simp only [parse_eq_some_iff, Prod.mk.injEq]
    refine ⟨fun h ha => h _ _ _ ⟨ha, rfl, rfl, rfl⟩, ?_⟩
    rintro h m regs' rest' ⟨ha, rfl, -, -⟩
    exact h ha
  rw [hright]
  refine forall_congr' fun ha => ?_
  have hdisp := displacement_operand mp ha
  have hsums : (∀ env, (text.operand mp regs).address env ≡ text.address env [ZMOD 2 ^ 64]) ↔
      ∀ env, sumOf env (text.operand mp regs).multiples +
          (((text.terms.filterMap MemoryTerm.constant).map termValue).sum -
            lostValue (text.terms.filterMap MemoryTerm.constant)) ≡
        sumOf env (text.terms.filterMap MemoryTerm.scaled) +
          ((text.terms.filterMap MemoryTerm.constant).map termValue).sum [ZMOD 2 ^ 64] := by
    refine forall_congr' fun env => ?_
    unfold MirMemory.address MemoryText.address
    rw [add_assoc, add_assoc]
    have hleft := (hdisp.add_left (sumOf env (text.operand mp regs).multiples))
    exact ⟨fun h => hleft.symm.trans (Int.ModEq.add_left_cancel' _ h),
      fun h => (hleft.trans h).add_left _⟩
  rw [hsums, sums_modEq_iff, Int.modEq_iff_dvd, sub_sub_cancel]
  refine and_congr_left fun _ => forall_congr' fun name => ?_
  rw [coefficient_operand]
  exact Int.modEq_comm

end Operand

/-- `[%a - %b]` -/
def subtractedRegister : MemoryText := ⟨false, "a", [.register false "b" none]⟩

/-- The register is added. -/
theorem subtractedRegister_not_right : ¬ subtractedRegister.Right .exact (fun _ => none) [] := by
  intro h
  have haccepted : subtractedRegister.Accepted fun _ => none :=
    ⟨by simp [subtractedRegister, MemoryTerm.isGlued], .inl rfl, fun _ _ => .inl rfl⟩
  have haddress := h _ _ _ (parse_eq_some_iff .exact |>.mpr ⟨haccepted, rfl⟩)
    fun name => if name = "b" then 1 else 0
  have hdisp := displacement_operand .exact haccepted
  have hzero : (1 : ℤ) + 0 ≡ -1 [ZMOD 2 ^ 64] := (hdisp.symm.add_left 1).trans haddress
  exact absurd hzero (by decide)

end EzPacker.MirParser
