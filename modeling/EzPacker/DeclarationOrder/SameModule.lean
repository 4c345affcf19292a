import EzPacker.DeclarationOrder.ModuleReading

/-!
# Declaration order

A text and a rearrangement of it: the declarations are permuted, and in each function
the blocks behind the first. Both are parsed without errors. The parsed modules are the
same up to the permutation exactly if the order that matters to a single pass is kept:
what the names stand for, on which side of a function a global variable stands whose
offset is read there, the types of the first mentions, the order of the parts of a block,
and the entry.
-/

namespace EzPacker.DeclarationOrder

open ModuleText List Option

/-! ## Rearranged texts -/

/-- The first block stays. -/
def RearrangedBody (body body' : List BlockText) : Prop :=
  body.head? = body'.head? ∧ body.tail.Perm body'.tail

inductive Rearranged : TopLevelText → TopLevelText → Prop
  | globalVar (name : String) (type : InternedType) :
      Rearranged (.globalVar name type) (.globalVar name type)
  | declare (name : String) (returnType : InternedType) (parameterTypes : List InternedType) :
      Rearranged (.declare name returnType parameterTypes) (.declare name returnType parameterTypes)
  | fn (f : FunctionText) {body' : Option (List BlockText)} (h : Rel RearrangedBody f.body body') :
      Rearranged (.fn f) (.fn { f with body := body' })

/-- The declaration at `i` stands at `σ i`. -/
def Permuted (σ : Equiv.Perm ℕ) (text text' : ModuleText) : Prop :=
  ∀ i, Rel Rearranged text[i]? text'[σ i]?

/-! ## The same module -/

/-- The bodies have the same entry, registers and blocks; objects are renamed by `σ`. -/
structure SameBody (σ : ℕ → ℕ) (m m' : ParsedModule) (parsed parsed' : ParsedBody) : Prop where
  entry : parsed.blocks.head?.map ParsedBlock.name = parsed'.blocks.head?.map ParsedBlock.name
  registers : ∀ name, lookup parsed.registers name = lookup parsed'.registers name
  statements : ∀ label,
    (m.statementsOf parsed label).map (List.map (Option.map (Instruction.rename σ id))) =
      m'.statementsOf parsed' label

inductive SameObject (σ : ℕ → ℕ) (m m' : ParsedModule) : ParsedObject → ParsedObject → Prop
  | globalVar (name : String) (type : InternedType) :
      SameObject σ m m' (.globalVar name type) (.globalVar name type)
  | declaration (name : String) (type : InternedType) (parameters : List InternedType) :
      SameObject σ m m' (.function name type parameters none) (.function name type parameters none)
  | definition (name : String) (type : InternedType) (parameters : List InternedType)
      {parsed parsed' : ParsedBody} (h : SameBody σ m m' parsed parsed') :
      SameObject σ m m' (.function name type parameters (some parsed))
        (.function name type parameters (some parsed'))

def SameModule (σ : Equiv.Perm ℕ) (m m' : ParsedModule) : Prop :=
  ∀ i, Option.Rel (SameObject σ m m') m.objects[i]? m'.objects[σ i]?

/-! ## The order that is kept -/

def OperandText.symbols : OperandText → List (String × ℤ)
  | symbol name offset => [(name, offset)]
  | _ => []

def StatementText.symbols (s : StatementText) : List (String × ℤ) :=
  s.operands.flatMap fun op => op.2.symbols

def symbolsOf (body : List BlockText) : List (String × ℤ) :=
  body.flatMap fun b => b.body.flatMap StatementText.symbols

/-- What is kept of a function at `i`. -/
structure FunctionKept (σ : ℕ → ℕ) (text text' : ModuleText) (i : ℕ)
    (parameters : List (String × InternedType)) (body body' : List BlockText) : Prop where
  targets : ∀ symbol ∈ symbolsOf body,
    (text.denotes i symbol.1).map σ = text'.denotes (σ i) symbol.1
  sides : ∀ symbol ∈ symbolsOf body, ∀ x type, text.denotes i symbol.1 = some x →
    text[x]? = some (.globalVar symbol.1 type) → BitVec.ofInt 64 symbol.2 ≠ 0 → (x < i ↔ σ x < σ i)
  registers : ∀ name, registerType parameters body name = registerType parameters body' name
  parts : ∀ label, (bodyOf body label).map (StatementText.meaning (text.symbolMeaning i)) =
    (bodyOf body' label).map (StatementText.meaning (text.symbolMeaning i))
  entry : (blockOrder body).head? = (blockOrder body').head?
  labels : ∀ label, label ∈ blockOrder body ↔ label ∈ blockOrder body'

def OrderKept (σ : Equiv.Perm ℕ) (text text' : ModuleText) : Prop :=
  ∀ i f body body', text[i]? = some (.fn f) → f.body = some body →
    text'[σ i]? = some (.fn { f with body := some body' }) →
      FunctionKept σ text text' i f.parameters body body'

/-! ## Meanings under the permutation -/

variable {d d' : TopLevelText} {n : String × ℤ} {name : String} {s : StatementText}
  {symbol symbol' : String → ℤ → Operand (Option String)} {β : Type}

section

variable {σ : Equiv.Perm ℕ} {text text' : ModuleText} {i : ℕ}

theorem Permuted.getElem? (h : Permuted σ text text') (hi : text[i]? = some d) :
    ∃ d', text'[σ i]? = some d' ∧ Rearranged d d' := by
  have hrel := h i
  rw [hi] at hrel
  cases htext' : text'[σ i]? with
  | none =>
    rw [htext'] at hrel
    cases hrel
  | some d' =>
    rw [htext'] at hrel
    cases hrel with
    | some hd => exact ⟨d', rfl, hd⟩

theorem Rearranged.isFunction (h : Rearranged d d') (name : String) :
    d'.isFunction name = d.isFunction name := by
  cases h <;> rfl

theorem Rearranged.type (h : Rearranged d d') : d'.type = d.type := by
  cases h <;> rfl

variable {body : List BlockText}

theorem RearrangedBody.perm {body' : List BlockText} (h : RearrangedBody body body') :
    body.Perm body' := by
  obtain ⟨hhead, htail⟩ := h
  cases body with
  | nil =>
    cases body' with
    | nil => exact .nil
    | cons b' rest' => cases hhead
  | cons b rest =>
    cases body' with
    | nil => cases hhead
    | cons b' rest' =>
      obtain rfl := some.inj hhead
      exact .cons b htail

theorem RearrangedBody.mem_symbolsOf {body' : List BlockText} (h : RearrangedBody body body')
    {symbol : String × ℤ} : symbol ∈ symbolsOf body' ↔ symbol ∈ symbolsOf body := by
  unfold symbolsOf
  rw [mem_flatMap, mem_flatMap]
  exact exists_congr fun b => and_congr_left fun _ => h.perm.mem_iff.symm

/-- A symbol keeps its meaning if it keeps its target and its side. -/
theorem Permuted.rename_symbolMeaning (h : Permuted σ text text') {offset : ℤ}
    (htarget : (text.denotes i name).map σ = text'.denotes (σ i) name) (hside : ∀ x type,
      text.denotes i name = some x → text[x]? = some (.globalVar name type) → BitVec.ofInt 64 offset
      ≠ 0 → (x < i ↔ σ x < σ i)) : (text.symbolMeaning i name offset : Operand β).rename σ id =
      text'.symbolMeaning (σ i) name offset := by
  rcases text.denotes_cases i name with hnone | ⟨x, type, hx, hget⟩ | ⟨x, d, hx, hget, hd⟩
  · rw [hnone] at htarget
    rw [symbolMeaning_none hnone, symbolMeaning_none htarget.symm]
    rfl
  · rw [hx] at htarget
    obtain ⟨d', hget', hd'⟩ := h.getElem? hget
    cases hd'
    rw [symbolMeaning_global hx hget, symbolMeaning_global htarget.symm hget']
    have hoffset : (if x < i then BitVec.ofInt 64 offset else 0) =
        if σ x < σ i then BitVec.ofInt 64 offset else 0 := by
      by_cases hzero : BitVec.ofInt 64 offset = 0
      · rw [hzero, ite_self, ite_self]
      · simp only [hside x type hx hget hzero]
    rw [hoffset]
    rfl
  · rw [hx] at htarget
    obtain ⟨d', hget', hd'⟩ := h.getElem? hget
    rw [symbolMeaning_function hx hget hd,
      symbolMeaning_function htarget.symm hget' ((hd'.isFunction name).trans hd),
      hd'.type]
    rfl

theorem ValueText.rename_meaning (v : ValueText) (expected : Option InternedType) (σ : ℕ → ℕ) :
    (v.meaning expected : Operand β).rename σ id = v.meaning expected := by
  cases v <;> rfl

theorem OperandText.rename_meaning {σ : ℕ → ℕ} {t : OperandText}
    (h : ∀ s ∈ t.symbols, (symbol s.1 s.2).rename σ id = symbol' s.1 s.2)
    (expected : Option InternedType) :
    (t.meaning symbol expected).rename σ id = t.meaning symbol' expected := by
  cases t with
  | label block => rfl
  | value v | pair v block => exact v.rename_meaning expected σ
  | memory base terms => rfl
  | symbol name offset => exact h (name, offset) (mem_singleton_self _)

theorem StatementText.rename_meaning {σ : ℕ → ℕ}
    (h : ∀ n ∈ s.symbols, (symbol n.1 n.2).rename σ id = symbol' n.1 n.2) :
    (s.meaning symbol).rename σ id = s.meaning symbol' := by
  have hdst : (s.dst.toList.map Operand.register).map
      (Operand.rename (β := Option String) σ id) = s.dst.toList.map .register := by
    cases s.dst <;> rfl
  unfold StatementText.meaning Instruction.rename
  dsimp only
  rw [List.map_append, hdst, List.map_map]
  congr 2
  refine List.map_congr_left fun op hop => OperandText.rename_meaning (fun n hn => ?_) _
  exact h n (List.mem_flatMap.mpr ⟨op, hop, hn⟩)

theorem symbols_of_mem_bodyOf {label : String} (hs : s ∈ bodyOf body label) (hn : n ∈ s.symbols) :
    n ∈ symbolsOf body := by
  obtain ⟨b, hb, hsb⟩ := mem_flatMap.mp hs
  have hsb' : s ∈ b.body := by
    split at hsb
    · exact hsb
    · cases hsb
  exact mem_flatMap.mpr ⟨b, hb, mem_flatMap.mpr ⟨s, hsb', hn⟩⟩

end

/-! ## Order kept -/

section

variable {σ : Equiv.Perm ℕ} {text text' : ModuleText} {i : ℕ} {m m' : ParsedModule}
  {parameters : List (String × InternedType)} {body body' : List BlockText}
  {parsed parsed' : ParsedBody}

theorem FunctionKept.sameBody (hperm : Permuted σ text text') (hbody : RearrangedBody body body')
    (h : FunctionKept σ text text' i parameters body body')
    (hmeans : text.MeansBody i m parameters body parsed)
    (hmeans' : text'.MeansBody (σ i) m' parameters body' parsed') :
    SameBody σ m m' parsed parsed' := by
  obtain ⟨hnames, hregisters, hstatements, -⟩ := hmeans
  obtain ⟨hnames', hregisters', hstatements', -⟩ := hmeans'
  refine ⟨?_, fun name => ?_, fun label => ?_⟩
  · rw [← head?_map, ← head?_map, hnames, hnames', h.entry]
  · rw [hregisters, hregisters', h.registers]
  · rw [hstatements, hstatements']
    by_cases hlabel : label ∈ blockOrder body
    · rw [if_pos hlabel, if_pos ((h.labels label).mp hlabel), map_some]
      have hkept : ∀ s ∈ bodyOf body' label, (s.meaning (text.symbolMeaning i)).rename σ id =
            s.meaning (text'.symbolMeaning (σ i)) := by
        intro s hs
        refine StatementText.rename_meaning fun n hn => ?_
        have hmem := hbody.mem_symbolsOf.mp (symbols_of_mem_bodyOf hs hn)
        exact hperm.rename_symbolMeaning (h.targets n hmem) (h.sides n hmem)
      have hparts := congrArg (map fun inst => some (Instruction.rename (⇑σ) id inst))
        (h.parts label)
      rw [List.map_map, List.map_map] at hparts
      congr 1
      rw [List.map_map]
      exact hparts.trans (map_congr_left fun s hs => congrArg some (hkept s hs))
    · rw [if_neg hlabel, if_neg fun hmem => hlabel ((h.labels label).mpr hmem)]
      rfl

/-! ### From the parsed modules -/

def Operand.isSymbol {β : Type} : Operand β → Bool
  | reference (.Function _) _ _ => true
  | reference (.GlobalVar _) _ _ => true
  | runtimeSymbol _ => true
  | _ => false

theorem Operand.isSymbol_rename {γ : Type} (σ : ℕ → ℕ) (f : β → γ) (op : Operand β) :
    (op.rename σ f).isSymbol = op.isSymbol := by
  cases op with
  | reference target offset type => cases target <;> rfl
  | _ => rfl

theorem ModuleText.isSymbol_symbolMeaning (text : ModuleText) (i : ℕ) (name : String) (offset : ℤ) :
    (text.symbolMeaning i name offset : Operand β).isSymbol = true := by
  rcases text.denotes_cases i name with h | ⟨x, type, h, hx⟩ | ⟨x, d, h, hx, hd⟩
  · rw [symbolMeaning_none h]
    rfl
  · rw [symbolMeaning_global h hx]
    rfl
  · rw [symbolMeaning_function h hx hd]
    rfl

theorem OperandText.eq_symbol_of_meaning {t : OperandText} {expected : Option InternedType}
    (h : (t.meaning symbol expected).isSymbol = true) :
    ∃ name offset, t = .symbol name offset ∧ (name, offset) ∈ t.symbols := by
  cases t with
  | label block => cases h
  | value v | pair v block => cases v <;> cases h
  | memory base terms => cases h
  | symbol name offset => exact ⟨name, offset, rfl, mem_singleton_self _⟩

theorem StatementText.symbol_of_same {s' : StatementText}
    {f g : Operand (Option String) → Operand (Option String)}
    (hf : ∀ op, (f op).isSymbol = op.isSymbol) (hg : ∀ op, (g op).isSymbol = op.isSymbol)
    (h : (s.meaning symbol).operands.map f = (s'.meaning symbol').operands.map g)
    (hmem : n ∈ s.symbols) (hsymbol : (symbol n.1 n.2).isSymbol = true) :
    ∃ n', n' ∈ s'.symbols ∧ f (symbol n.1 n.2) = g (symbol' n'.1 n'.2) := by
  obtain ⟨op, hop, hopmem⟩ := mem_flatMap.mp hmem
  obtain ⟨expected, t⟩ := op
  have ht : t = .symbol n.1 n.2 := by
    cases t <;> simp_all [OperandText.symbols]
  subst ht
  have himage : f (symbol n.1 n.2) ∈ (s'.meaning symbol').operands.map g := by
    rw [← h]
    exact mem_map_of_mem (mem_append_right _ (mem_map.mpr ⟨_, hop, rfl⟩))
  obtain ⟨op, hop', hgop⟩ := mem_map.mp himage
  have hyes : op.isSymbol = true := by rw [← hg, hgop, hf, hsymbol]
  rcases mem_append.mp hop' with hdst | hrest
  · obtain ⟨dst, -, rfl⟩ := mem_map.mp hdst
    cases hyes
  · obtain ⟨t', ht', rfl⟩ := mem_map.mp hrest
    obtain ⟨name, offset, heq, hn⟩ := OperandText.eq_symbol_of_meaning hyes
    refine ⟨(name, offset), mem_flatMap.mpr ⟨t', ht', hn⟩, ?_⟩
    rw [← hgop, heq]
    rfl

theorem TopLevelText.isFunction_unique {name' : String} (h : d.isFunction name = true)
    (h' : d.isFunction name' = true) : name = name' := by
  cases d with
  | globalVar n type => cases h
  | declare n r ps | fn f => exact (eq_of_beq h).symm.trans (eq_of_beq h')

theorem Permuted.of_rename_symbolMeaning (h : Permuted σ text text') {name' : String}
    {offset offset' : ℤ} (heq : (text.symbolMeaning i name offset : Operand β).rename σ id =
      text'.symbolMeaning (σ i) name' offset') :
    name' = name ∧ (text.denotes i name).map σ = text'.denotes (σ i) name ∧
      ∀ x type, text.denotes i name = some x → text[x]? = some (.globalVar name type) →
        (if x < i then BitVec.ofInt 64 offset else 0) =
          if σ x < σ i then BitVec.ofInt 64 offset' else 0 := by
  rcases text.denotes_cases i name with hnone | ⟨x, type, hx, hget⟩ | ⟨x, d, hx, hget, hd⟩ <;>
    rcases text'.denotes_cases (σ i) name' with
      hnone' | ⟨x', type', hx', hget'⟩ | ⟨x', d', hx', hget', hd'⟩
  · rw [symbolMeaning_none hnone, symbolMeaning_none hnone'] at heq
    obtain rfl : name = name' := Operand.runtimeSymbol.inj heq
    refine ⟨rfl, by rw [hnone, hnone', map_none], fun x type hx => ?_⟩
    rw [hnone] at hx
    cases hx
  · rw [symbolMeaning_none hnone, symbolMeaning_global hx' hget'] at heq
    cases heq
  · rw [symbolMeaning_none hnone, symbolMeaning_function hx' hget' hd'] at heq
    cases heq
  · rw [symbolMeaning_global hx hget, symbolMeaning_none hnone'] at heq
    cases heq
  · rw [symbolMeaning_global hx hget, symbolMeaning_global hx' hget'] at heq
    obtain ⟨htarget, hoffset, -⟩ := Operand.reference.inj heq
    obtain rfl : σ x = x' := ReferenceTarget.GlobalVar.inj htarget
    obtain ⟨d', hd', hrearranged⟩ := h.getElem? hget
    cases hrearranged
    have hsame := some.inj (hd'.symm.trans hget')
    obtain ⟨rfl, rfl⟩ := TopLevelText.globalVar.inj hsame
    refine ⟨rfl, by rw [hx, hx', map_some], fun y ytype hy _ => ?_⟩
    obtain rfl := some.inj (hx.symm.trans hy)
    exact hoffset
  · rw [symbolMeaning_global hx hget,
      symbolMeaning_function hx' hget' hd'] at heq
    cases heq
  · rw [symbolMeaning_function hx hget hd, symbolMeaning_none hnone'] at heq
    cases heq
  · rw [symbolMeaning_function hx hget hd,
      symbolMeaning_global hx' hget'] at heq
    cases heq
  · rw [symbolMeaning_function hx hget hd,
      symbolMeaning_function hx' hget' hd'] at heq
    obtain ⟨htarget, -, -⟩ := Operand.reference.inj heq
    obtain rfl : σ x = x' := ReferenceTarget.Function.inj htarget
    obtain ⟨e, he, hrearranged⟩ := h.getElem? hget
    obtain rfl := some.inj (he.symm.trans hget')
    obtain rfl := TopLevelText.isFunction_unique hd' ((hrearranged.isFunction name).trans hd)
    refine ⟨rfl, by rw [hx, hx', map_some], fun y ytype hy hyget => ?_⟩
    obtain rfl := some.inj (hx.symm.trans hy)
    obtain rfl := some.inj (hget.symm.trans hyget)
    cases hd

theorem SameBody.statements_eq (h : SameBody σ m m' parsed parsed')
    (hmeans : text.MeansBody i m parameters body parsed)
    (hmeans' : text'.MeansBody (σ i) m' parameters body' parsed') (label : String) :
    (label ∈ blockOrder body ↔ label ∈ blockOrder body') ∧
      (bodyOf body label).map (fun s => (s.meaning (text.symbolMeaning i)).rename σ id) =
        (bodyOf body' label).map (StatementText.meaning (text'.symbolMeaning (σ i))) := by
  obtain ⟨-, -, hstatements, habsent⟩ := hmeans
  obtain ⟨-, -, hstatements', habsent'⟩ := hmeans'
  have hlabel := h.statements label
  rw [hstatements, hstatements'] at hlabel
  by_cases hmem : label ∈ blockOrder body <;> by_cases hmem' : label ∈ blockOrder body'
  · rw [if_pos hmem, if_pos hmem', Option.map_some, Option.some.injEq, List.map_map] at hlabel
    refine ⟨iff_of_true hmem hmem', ?_⟩
    have hsome : Function.Injective (some : Instruction (Option String) → _) :=
      fun _ _ heq => some.inj heq
    apply map_injective_iff.mpr hsome
    rw [List.map_map, List.map_map]
    exact hlabel
  · rw [if_pos hmem, if_neg hmem'] at hlabel
    cases hlabel
  · rw [if_neg hmem, if_pos hmem'] at hlabel
    cases hlabel
  · rw [habsent label hmem, habsent' label hmem']
    exact ⟨iff_of_false hmem hmem', rfl⟩

theorem mem_bodyOf_of_symbol (hn : n ∈ symbolsOf body) :
    ∃ label, ∃ s ∈ bodyOf body label, n ∈ s.symbols := by
  obtain ⟨b, hb, hn⟩ := mem_flatMap.mp hn
  obtain ⟨s, hs, hn⟩ := mem_flatMap.mp hn
  refine ⟨b.label, s, mem_flatMap.mpr ⟨b, hb, ?_⟩, hn⟩
  rw [if_pos rfl]
  exact hs

/-- In the same bodies every symbol of the one has its image in the other, and back. -/
theorem SameBody.symbols (h : SameBody σ m m' parsed parsed')
    (hmeans : text.MeansBody i m parameters body parsed)
    (hmeans' : text'.MeansBody (σ i) m' parameters body' parsed') :
    (∀ n ∈ symbolsOf body, ∃ n' : String × ℤ,
      (text.symbolMeaning i n.1 n.2 : Operand (Option String)).rename σ id =
        text'.symbolMeaning (σ i) n'.1 n'.2) ∧
      ∀ n' ∈ symbolsOf body', ∃ n : String × ℤ,
        (text.symbolMeaning i n.1 n.2 : Operand (Option String)).rename σ id =
          text'.symbolMeaning (σ i) n'.1 n'.2 := by
  constructor
  · intro n hn
    obtain ⟨label, s, hs, hns⟩ := mem_bodyOf_of_symbol hn
    have hlabel := (h.statements_eq hmeans hmeans' label).2
    have himage := mem_map_of_mem
      (f := fun s => (s.meaning (text.symbolMeaning i)).rename (⇑σ) id) hs
    rw [hlabel] at himage
    obtain ⟨s', -, hs'⟩ := mem_map.mp himage
    have hoperands := congrArg Instruction.operands hs'.symm
    rw [← map_id (s'.meaning (text'.symbolMeaning (σ i))).operands] at hoperands
    obtain ⟨n', -, heq⟩ := StatementText.symbol_of_same (fun op => op.isSymbol_rename (⇑σ) id)
      (fun op => rfl) hoperands hns (text.isSymbol_symbolMeaning i n.1 n.2)
    exact ⟨n', heq⟩
  · intro n' hn'
    obtain ⟨label, s', hs', hns⟩ := mem_bodyOf_of_symbol hn'
    have hlabel := (h.statements_eq hmeans hmeans' label).2
    have himage := mem_map_of_mem (f := StatementText.meaning (text'.symbolMeaning (σ i))) hs'
    rw [← hlabel] at himage
    obtain ⟨s, -, hs⟩ := mem_map.mp himage
    have hoperands := congrArg Instruction.operands hs.symm
    rw [← map_id (s'.meaning (text'.symbolMeaning (σ i))).operands] at hoperands
    obtain ⟨n, -, heq⟩ := StatementText.symbol_of_same (fun op => rfl)
      (fun op => op.isSymbol_rename (⇑σ) id) hoperands hns
      (text'.isSymbol_symbolMeaning (σ i) n'.1 n'.2)
    exact ⟨n, heq.symm⟩

/-- What is kept of a function can be read off the same bodies. -/
theorem SameBody.functionKept (hperm : Permuted σ text text')
    (hbody : RearrangedBody body body') (h : SameBody σ m m' parsed parsed')
    (hmeans : text.MeansBody i m parameters body parsed)
    (hmeans' : text'.MeansBody (σ i) m' parameters body' parsed') :
    FunctionKept σ text text' i parameters body body' := by
  obtain ⟨hforth, hback⟩ := h.symbols hmeans hmeans'
  have htargets : ∀ symbol ∈ symbolsOf body,
      (text.denotes i symbol.1).map σ = text'.denotes (σ i) symbol.1 := by
    intro n hn
    obtain ⟨n', heq⟩ := hforth n hn
    exact (hperm.of_rename_symbolMeaning heq).2.1
  have hsides : ∀ symbol ∈ symbolsOf body, ∀ x type, text.denotes i symbol.1 = some x →
      text[x]? = some (.globalVar symbol.1 type) → BitVec.ofInt 64 symbol.2 ≠ 0 →
        (x < i ↔ σ x < σ i) := by
    intro n hn x type hx hget hoffset
    constructor
    · intro hlt
      obtain ⟨n', heq⟩ := hforth n hn
      have hsame := (hperm.of_rename_symbolMeaning heq).2.2 x type hx hget
      by_contra hnot
      rw [if_pos hlt, if_neg hnot] at hsame
      exact hoffset hsame
    · intro hlt
      obtain ⟨n', heq⟩ := hback n (hbody.mem_symbolsOf.mpr hn)
      obtain ⟨hname, -, hsame⟩ := hperm.of_rename_symbolMeaning heq
      rw [← hname] at hsame
      have hsame := hsame x type hx hget
      by_contra hnot
      rw [if_neg hnot, if_pos hlt] at hsame
      exact hoffset hsame.symm
  refine ⟨htargets, hsides, fun name => ?_, fun label => ?_, ?_, fun label =>
    (h.statements_eq hmeans hmeans' label).1⟩
  · rw [← hmeans.2.1, ← hmeans'.2.1, h.registers]
  · have hinjective := map_injective_iff.mpr
      (Instruction.rename_injective (β := Option String) σ.injective)
    apply hinjective
    rw [List.map_map, List.map_map]
    refine (h.statements_eq hmeans hmeans' label).2.trans ?_
    refine map_congr_left fun s hs => ?_
    refine (StatementText.rename_meaning fun n hn => ?_).symm
    have hmem := hbody.mem_symbolsOf.mp (symbols_of_mem_bodyOf hs hn)
    exact hperm.rename_symbolMeaning (htargets n hmem) (hsides n hmem)
  · rw [← hmeans.1, ← hmeans'.1, head?_map, head?_map, h.entry]

/-! ### Objects -/

theorem getElem?_of_means (hmeans : Means text m) (hi : text[i]? = some d) :
    ∃ o, m.objects[i]? = some o ∧ ReadsObject (text.MeansBody i m) d o := by
  obtain ⟨hlt, -⟩ := List.getElem?_eq_some_iff.mp hi
  have ho : m.objects[i]? = some (m.objects.get ⟨i, hmeans.length.symm ▸ hlt⟩) :=
    getElem?_eq_getElem _
  exact ⟨_, ho, hmeans.objects i d _ hi ho⟩

theorem getElem?_none_of_means (hmeans : Means text m) (hi : text[i]? = none) :
    m.objects[i]? = none := by
  rw [getElem?_eq_none_iff] at hi ⊢
  rw [hmeans.length]
  exact hi

/-- The objects of one declaration are the same exactly if what matters of it is kept. -/
theorem sameObject_iff (hperm : Permuted σ text text') (hd : Rearranged d d') {o o' : ParsedObject}
    (ho : ReadsObject (text.MeansBody i m) d o)
    (ho' : ReadsObject (text'.MeansBody (σ i) m') d' o') :
    SameObject σ m m' o o' ↔
      ∀ f body body', d = .fn f → f.body = some body → d' = .fn { f with body := some body' } →
        FunctionKept σ text text' i f.parameters body body' := by
  cases hd with
  | globalVar name type =>
    cases ho
    cases ho'
    exact ⟨fun _ _ _ _ hf => (nomatch hf), fun _ => .globalVar name type⟩
  | declare name returnType parameterTypes =>
    cases ho
    cases ho'
    exact ⟨fun _ _ _ _ hf => (nomatch hf), fun _ => .declaration name _ parameterTypes⟩
  | fn f hrel =>
    cases ho with
    | prototype _ hnone =>
      rw [hnone] at hrel
      cases hrel
      cases ho' with
      | prototype _ _ =>
        refine ⟨fun _ g body _ hg hsome => ?_, fun _ => .declaration f.name _ _⟩
        obtain rfl := TopLevelText.fn.inj hg
        rw [hnone] at hsome
        cases hsome
      | fn _ hsome _ => cases hsome
    | fn _ hsome hread =>
      rw [hsome] at hrel
      cases hrel with
      | some hbody =>
        cases ho' with
        | prototype _ hnone => cases hnone
        | fn _ hsome' hread' =>
          obtain rfl := some.inj hsome'
          constructor
          · intro hsame g gbody gbody' hg hgbody hg'
            obtain rfl := TopLevelText.fn.inj hg
            obtain rfl := some.inj (hsome.symm.trans hgbody)
            have hg' := congrArg FunctionText.body (TopLevelText.fn.inj hg')
            obtain rfl := some.inj hg'
            cases hsame with
            | definition _ _ _ hsame =>
              exact hsame.functionKept hperm hbody hread hread'
          · intro hkept
            exact .definition f.name _ _
              ((hkept f _ _ rfl hsome rfl).sameBody hperm hbody hread hread')

end

section

variable {σ : Equiv.Perm ℕ} {text text' : ModuleText} {m m' : ParsedModule}
  (hperm : Permuted σ text text') (hmeans : Means text m) (hmeans' : Means text' m')
include hperm hmeans hmeans'

/-- The order that matters can be read off the same modules. -/
theorem SameModule.orderKept (hsame : SameModule σ m m') : OrderKept σ text text' := by
  intro i f body body' hi hbody hi'
  obtain ⟨o, ho, hread⟩ := getElem?_of_means hmeans hi
  obtain ⟨o', ho', hread'⟩ := getElem?_of_means hmeans' hi'
  obtain ⟨d', hd', hrearranged⟩ := hperm.getElem? hi
  obtain rfl := some.inj (hd'.symm.trans hi')
  have hobject := hsame i
  rw [ho, ho'] at hobject
  cases hobject with
  | some hobject =>
    exact (sameObject_iff hperm hrearranged hread hread').mp hobject f body body' rfl hbody rfl

theorem OrderKept.sameModule (hkept : OrderKept σ text text') : SameModule σ m m' := by
  intro i
  have hrel := hperm i
  cases hi : text[i]? with
  | none =>
    rw [hi] at hrel
    cases hi' : text'[σ i]? with
    | none =>
      rw [getElem?_none_of_means hmeans hi, getElem?_none_of_means hmeans' hi']
      exact .none
    | some d' =>
      rw [hi'] at hrel
      cases hrel
  | some d =>
    obtain ⟨d', hi', hrearranged⟩ := hperm.getElem? hi
    obtain ⟨o, ho, hread⟩ := getElem?_of_means hmeans hi
    obtain ⟨o', ho', hread'⟩ := getElem?_of_means hmeans' hi'
    rw [ho, ho']
    refine .some ((sameObject_iff hperm hrearranged hread hread').mpr ?_)
    intro f body body' hf hbody hf'
    subst hf hf'
    exact hkept i f body body' hi hbody hi'

end

/-- The parsed modules are the same exactly if the order that matters is kept. -/
theorem sameModule_iff {verifySsa : Bool} {σ : Equiv.Perm ℕ} {text text' : ModuleText}
    {m m' : ParsedModule} (hperm : Permuted σ text text')
    (hparse : parseModule verifySsa text = some m)
    (hparse' : parseModule verifySsa text' = some m') :
    SameModule σ m m' ↔ OrderKept σ text text' :=
  ⟨fun hsame => hsame.orderKept hperm (means_parseModule hparse) (means_parseModule hparse'),
    fun hkept => hkept.sameModule hperm (means_parseModule hparse) (means_parseModule hparse')⟩

/-! ### The offset of a forward reference -/

/-- `fn @f() -> i64 { entry: CALL @g+8; }` -/
def callerText : TopLevelText :=
  .fn ⟨"f", .i64, [], some [⟨"entry", [⟨none, .CALL, none, [(none, .symbol "g" 8)]⟩]⟩]⟩

/-- `@g = i64;` -/
def calledText : TopLevelText := .globalVar "g" .i64

theorem permuted_caller : Permuted (Equiv.swap 0 1) [calledText, callerText]
    [callerText, calledText] := by
  have hcaller : Rearranged callerText callerText :=
    .fn _ (.some ⟨rfl, .refl _⟩)
  have hcalled : Rearranged calledText calledText := .globalVar _ _
  intro i
  rcases i with - | - | i
  · rw [Equiv.swap_apply_left]
    exact .some hcalled
  · rw [Equiv.swap_apply_right]
    exact .some hcaller
  · rw [Equiv.swap_apply_of_ne_of_ne (by omega) (by omega)]
    exact .none

theorem isSome_parse_caller : (parseModule true [calledText, callerText]).isSome = true ∧
    (parseModule true [callerText, calledText]).isSome = true := by
  decide +kernel

theorem sameModule_iff_caller : ∃ m m', parseModule true [calledText, callerText] = some m ∧
      parseModule true [callerText, calledText] = some m' ∧ (SameModule (Equiv.swap 0 1) m m' ↔
          OrderKept (Equiv.swap 0 1) [calledText, callerText] [callerText, calledText]) := by
  obtain ⟨m, hm⟩ := isSome_iff_exists.mp isSome_parse_caller.1
  obtain ⟨m', hm'⟩ := isSome_iff_exists.mp isSome_parse_caller.2
  exact ⟨m, m', hm, hm', sameModule_iff permuted_caller hm hm'⟩

/-- Behind its use the global variable is referred to without the offset. -/
theorem forwardReference_loses_offset : ∃ m m',
    Permuted (Equiv.swap 0 1) [calledText, callerText] [callerText, calledText] ∧
      parseModule true [calledText, callerText] = some m ∧
        parseModule true [callerText, calledText] = some m' ∧
          ¬ SameModule (Equiv.swap 0 1) m m' := by
  obtain ⟨m, hm⟩ := isSome_iff_exists.mp isSome_parse_caller.1
  obtain ⟨m', hm'⟩ := isSome_iff_exists.mp isSome_parse_caller.2
  refine ⟨m, m', permuted_caller, hm, hm', fun hsame => ?_⟩
  have hkept := hsame.orderKept permuted_caller (means_parseModule hm) (means_parseModule hm')
  have hfunction := hkept 1 ⟨"f", .i64, [], _⟩ _ _ rfl rfl (by rw [Equiv.swap_apply_right]; rfl)
  have hside := hfunction.sides ("g", 8) (mem_singleton_self _) 0 .i64 (by decide +kernel)
    rfl (by decide)
  rw [Equiv.swap_apply_left, Equiv.swap_apply_right] at hside
  exact absurd (hside.mp Nat.zero_lt_one) (Nat.not_lt_zero 1)

end EzPacker.DeclarationOrder
