import EzPacker.Lib.PostfixSyntax
import EzPacker.Mir.Type

/-!
# The type table

The table creates one type for every name. Pointers, arrays and functions are named after their
subtypes, and a type is found again by its name, a pointer also by what it points to. A type is
referred to by its place in the order of creation, which stands for its address.
-/

namespace EzPacker.TypeTable

open List

open Mir (MirTypeKind)

abbrev Name := List Char

structure MirType where
  kind : MirTypeKind
  id : ℕ
  maxAlignmentInBits : ℕ
  totalSizeInBits : ℕ
  name : Name
  subTypes : List ℕ
  compactId : ℕ

def noType : MirType := ⟨.Invalid, 0, 0, 0, [], [], 0⟩

structure MirTypeTable where
  types : List MirType
  typeNames : List (Name × ℕ)
  pointerCache : List (ℕ × Option ℕ)
  currentId : ℕ
  pointerBitWidth : ℕ

def customCompactId : ℕ := 255

def MirTypeTable.get (s : MirTypeTable) (type : ℕ) : MirType := s.types[type]?.getD noType

def MirTypeTable.nameOf (s : MirTypeTable) (type : ℕ) : Name := (s.get type).name

/-! ## Creation -/

/-- A new type, or the one that has the name; null without a name. -/
def create (s : MirTypeTable) (kind : MirTypeKind) (totalSizeInBits totalAlignmentInBits : ℕ)
    (subTypes : List ℕ) (name : Name) (compactId : ℕ) : Option ℕ × MirTypeTable :=
  if name = [] then (none, s)
  else
    match s.typeNames.lookup name with
    | some type => (some type, s)
    | none =>
      let uniqueType : MirType :=
        ⟨kind, s.currentId + 1, totalAlignmentInBits, totalSizeInBits, name, subTypes, compactId⟩
      (some s.types.length,
        { s with
          types := s.types ++ [uniqueType]
          typeNames := (name, s.types.length) :: s.typeNames
          currentId := s.currentId + 1 })

def parentheses : Brackets Char :=
  ⟨'(', ')', ',', by decide, by decide, by decide⟩

/-- A parameter is null where it is missing or has no type. -/
def getFuncType (s : MirTypeTable) (returnType : Option ℕ) (parameters : List (Option ℕ)) :
    Option ℕ × MirTypeTable :=
  match returnType with
  | none => (none, s)
  | some returnType =>
    let paramTypes := parameters.filterMap id
    let lookupKey := parentheses.followed (s.nameOf returnType) (paramTypes.map s.nameOf)
    match s.typeNames.lookup lookupKey with
    | some type => (some type, s)
    | none => create s .Function s.pointerBitWidth s.pointerBitWidth (returnType :: paramTypes)
        lookupKey customCompactId

def getPtr (s : MirTypeTable) (srcType : Option ℕ) : Option ℕ × MirTypeTable :=
  match srcType with
  | none => (none, s)
  | some srcType =>
    match s.pointerCache.lookup srcType with
    | some type => (type, s)
    | none =>
      let (newPointerType, s) := create s .Pointer s.pointerBitWidth s.pointerBitWidth [srcType]
        (s.nameOf srcType ++ ['*']) customCompactId
      (newPointerType, { s with pointerCache := (srcType, newPointerType) :: s.pointerCache })

def getArray (s : MirTypeTable) (elementType : Option ℕ) (elementCount : ℕ) :
    Option ℕ × MirTypeTable :=
  match elementType with
  | none => (none, s)
  | some elementType =>
    let lookupName := s.nameOf elementType ++ '[' :: Nat.toDigits 10 elementCount ++ [']']
    match s.typeNames.lookup lookupName with
    | some type => (some type, s)
    | none => create s .Array ((s.get elementType).totalSizeInBits * elementCount % 2 ^ 64)
        (s.get elementType).maxAlignmentInBits [elementType] lookupName customCompactId

/-- The characters of identifiers; a digit does not come first. -/
def isIdentifierChar (c : Char) : Bool := c.isAlphanum || c = '_'

structure BaseType where
  kind : MirTypeKind
  totalSizeInBits : ℕ
  totalAlignmentInBits : ℕ
  name : Name
  compactId : ℕ
  name_ne : name ≠ []
  name_chars : ∀ c ∈ name, isIdentifierChar c = true

def initializeTypes (pointerBitWidth : ℕ) (bases : List BaseType) : MirTypeTable :=
  bases.foldl (fun s base => (create s base.kind base.totalSizeInBits base.totalAlignmentInBits []
    base.name base.compactId).2) ⟨[], [], [], 0, pointerBitWidth⟩

/-! ## Calls -/

inductive Call
  | getPtr (srcType : ℕ)
  | getArray (elementType elementCount : ℕ)
  | getFuncType (returnType : ℕ) (parameters : List (Option ℕ))

def Call.run (s : MirTypeTable) : Call → Option ℕ × MirTypeTable
  | .getPtr srcType => TypeTable.getPtr s (some srcType)
  | .getArray elementType elementCount => TypeTable.getArray s (some elementType) elementCount
  | .getFuncType returnType parameters => TypeTable.getFuncType s (some returnType) parameters

/-- What is returned by calls one after another. -/
def runCalls (s : MirTypeTable) : List Call → List (Option ℕ) × MirTypeTable
  | [] => ([], s)
  | call :: calls =>
    ((call.run s).1 :: (runCalls (call.run s).2 calls).1, (runCalls (call.run s).2 calls).2)

/-! ## What they are asked for -/

/-- A type that is built from others. -/
inductive Shape
  | pointer (pointee : ℕ)
  | array (element count : ℕ)
  | function (result : ℕ) (parameters : List ℕ)
  deriving DecidableEq

def Call.shape : Call → Shape
  | .getPtr srcType => .pointer srcType
  | .getArray elementType elementCount => .array elementType elementCount
  | .getFuncType returnType parameters => .function returnType (parameters.filterMap id)

def Shape.kind : Shape → MirTypeKind
  | .pointer _ => .Pointer
  | .array _ _ => .Array
  | .function _ _ => .Function

def Shape.subTypes : Shape → List ℕ
  | .pointer pointee => [pointee]
  | .array element _ => [element]
  | .function result parameters => result :: parameters

def Shape.size (s : MirTypeTable) : Shape → ℕ
  | .array element count => (s.get element).totalSizeInBits * count
  | _ => s.pointerBitWidth

def Shape.alignment (s : MirTypeTable) : Shape → ℕ
  | .array element _ => (s.get element).maxAlignmentInBits
  | _ => s.pointerBitWidth

def Call.Valid (s : MirTypeTable) (call : Call) : Prop :=
  ∀ type ∈ call.shape.subTypes, type < s.types.length

def ValidRun : MirTypeTable → List Call → Prop
  | _, [] => True
  | s, call :: calls => call.Valid s ∧ ValidRun (call.run s).2 calls

/-- A type is what its shape says. -/
structure Described (s : MirTypeTable) (shape : Shape) (type : ℕ) : Prop where
  exists_type : type < s.types.length
  kind : (s.get type).kind = shape.kind
  subTypes : (s.get type).subTypes = shape.subTypes
  size : (s.get type).totalSizeInBits = shape.size s
  alignment : (s.get type).maxAlignmentInBits = shape.alignment s

/-- Every call returns the type it describes, calls return the same type iff they describe the
same, and types that were there before stay where and what they are. -/
structure RunRight (s : MirTypeTable) (calls : List Call) : Prop where
  described : ∀ (i : ℕ) (call : Call), calls[i]? = some call → ∃ type,
    (runCalls s calls).1[i]? = some (some type) ∧ Described (runCalls s calls).2 call.shape type
  same_iff : ∀ (i j : ℕ) (call call' : Call), calls[i]? = some call → calls[j]? = some call' →
    ((runCalls s calls).1[i]? = (runCalls s calls).1[j]? ↔ call.shape = call'.shape)
  stable : ∀ n, (runCalls s (calls.take n)).2.types <+: (runCalls s calls).2.types

def Call.Fits (s : MirTypeTable) : Call → Prop
  | .getArray elementType elementCount =>
    (s.get elementType).totalSizeInBits * elementCount < 2 ^ 64
  | _ => True

def RunFits : MirTypeTable → List Call → Prop
  | _, [] => True
  | s, call :: calls => call.Fits s ∧ RunFits (call.run s).2 calls

/-! ## Names -/

/-- The name of a type that is built from others. -/
def Shape.name (s : MirTypeTable) : Shape → Name
  | .pointer pointee => s.nameOf pointee ++ ['*']
  | .array element count => s.nameOf element ++ '[' :: Nat.toDigits 10 count ++ [']']
  | .function result parameters =>
    parentheses.followed (s.nameOf result) (parameters.map s.nameOf)

/-- A name that can be part of others. -/
def Readable (name : Name) : Prop := parentheses.Transparent name ∧ name ≠ []

def IsIdentifier (name : Name) : Prop := name ≠ [] ∧ ∀ c ∈ name, isIdentifierChar c = true

theorem identifierChar_plain {c : Char} (h : isIdentifierChar c = true) :
    c ≠ '(' ∧ c ≠ ')' ∧ c ≠ ',' ∧ c ≠ '*' ∧ c ≠ ']' := by
  refine ⟨?_, ?_, ?_, ?_, ?_⟩ <;> rintro rfl <;> exact absurd h (by decide)

theorem IsIdentifier.readable {name : Name} (h : IsIdentifier name) : Readable name := by
  refine ⟨Brackets.transparent_of_plain fun c hc => ?_, h.1⟩
  obtain ⟨hopening, hclosing, hseparator, -⟩ := identifierChar_plain (h.2 c hc)
  exact ⟨hopening, hclosing, hseparator⟩

theorem digit_plain {n : ℕ} {c : Char} (h : c ∈ Nat.toDigits 10 n) :
    c ≠ '(' ∧ c ≠ ')' ∧ c ≠ ',' ∧ c ≠ '[' := by
  have hdigit := Nat.isDigit_of_mem_toDigits (by decide) le_rfl h
  refine ⟨?_, ?_, ?_, ?_⟩ <;> rintro rfl <;> exact absurd hdigit (by decide)

theorem readable_array {name : Name} (h : Readable name) (n : ℕ) :
    Readable (name ++ '[' :: Nat.toDigits 10 n ++ [']']) := by
  refine ⟨?_, by simp⟩
  rw [append_assoc]
  refine h.1.append (Brackets.transparent_of_plain fun c hc => ?_)
  simp only [cons_append, mem_cons, mem_append, not_mem_nil, or_false] at hc
  rcases hc with rfl | hc | rfl
  · decide
  · obtain ⟨hopening, hclosing, hseparator, -⟩ := digit_plain hc
    exact ⟨hopening, hclosing, hseparator⟩
  · decide

variable {shape : Shape} {type : ℕ}

theorem readable_name {s : MirTypeTable} (h : ∀ type ∈ shape.subTypes, Readable (s.nameOf type)) :
    Readable (shape.name s) := by
  cases shape with
  | pointer pointee =>
    have hpointee := h pointee (List.mem_singleton_self _)
    refine ⟨hpointee.1.append (Brackets.transparent_of_plain ?_), by simp [Shape.name]⟩
    exact List.forall_mem_singleton.mpr (by decide)
  | array element count => exact readable_array (h element (List.mem_singleton_self _)) count
  | function result parameters =>
    refine ⟨Brackets.transparent_followed (h result (List.mem_cons_self ..)).1 ?_, by
      simp [Shape.name, Brackets.followed]⟩
    intro name hname
    obtain ⟨type, htype, rfl⟩ := List.mem_map.mp hname
    exact (h type (List.mem_cons_of_mem _ htype)).1

def Shape.lastChar : Shape → Char
  | .pointer _ => '*'
  | .array _ _ => ']'
  | .function _ _ => ')'

theorem getLast_name (s : MirTypeTable) (shape : Shape) :
    (shape.name s).getLast? = some shape.lastChar := by
  cases shape <;> exact getLast?_concat

theorem IsIdentifier.ne_name {name : Name} (h : IsIdentifier name) (s : MirTypeTable)
    (shape : Shape) : name ≠ shape.name s := by
  rintro rfl
  have hlast := getLast_name s shape
  obtain ⟨hopening, hclosing, hseparator, hstar, hbracket⟩ :=
    identifierChar_plain (h.2 _ (mem_of_getLast? hlast))
  cases shape with
  | pointer pointee => exact hstar rfl
  | array element count => exact hbracket rfl
  | function result parameters => exact hclosing rfl

theorem toDigits_inj {n m : ℕ} (h : Nat.toDigits 10 n = Nat.toDigits 10 m) : n = m := by
  rw [← @Nat.ofDigitChars_ten_toDigits n, h, Nat.ofDigitChars_ten_toDigits]

/-- The texts before and behind the first of a character. -/
theorem split_inj {c : Char} {l l' r r' : List Char} (hl : c ∉ l) (hl' : c ∉ l')
    (h : l ++ c :: r = l' ++ c :: r') : l = l' ∧ r = r' := by
  have hlength : l.length = l'.length := by
    have hidx := congrArg (idxOf c) h
    rwa [idxOf_append_of_notMem hl, idxOf_append_of_notMem hl', idxOf_cons_self,
      idxOf_cons_self, Nat.add_zero, Nat.add_zero] at hidx
  obtain ⟨hleft, hright⟩ := append_inj h hlength
  exact ⟨hleft, (cons.inj hright).2⟩

theorem arrayName_inj {name name' : Name} {n m : ℕ}
    (h : name ++ '[' :: Nat.toDigits 10 n ++ [']'] = name' ++ '[' :: Nat.toDigits 10 m ++ [']']) :
    name = name' ∧ n = m := by
  have hbody := append_cancel_right h
  have hreverse := congrArg reverse hbody
  simp only [reverse_append, reverse_cons, append_assoc, singleton_append] at hreverse
  have hnot : ∀ k, '[' ∉ (Nat.toDigits 10 k).reverse := fun k hmem =>
    (digit_plain (mem_reverse.mp hmem)).2.2.2 rfl
  obtain ⟨hdigits, hname⟩ := split_inj (hnot n) (hnot m) hreverse
  exact ⟨reverse_injective hname, toDigits_inj (reverse_injective hdigits)⟩

/-! ## The invariant -/

def Shape.storedSize (s : MirTypeTable) : Shape → ℕ
  | .array element count => (s.get element).totalSizeInBits * count % 2 ^ 64
  | _ => s.pointerBitWidth

/-- A record is the one that is created for a shape. -/
structure IsFor (s : MirTypeTable) (shape : Shape) (type : MirType) : Prop where
  valid : ∀ sub ∈ shape.subTypes, sub < s.types.length
  name : type.name = shape.name s
  kind : type.kind = shape.kind
  subTypes : type.subTypes = shape.subTypes
  size : type.totalSizeInBits = shape.storedSize s
  alignment : type.maxAlignmentInBits = shape.alignment s

/-- Every type is found by its name, and is a base type or the one created for its shape. -/
structure Consistent (s : MirTypeTable) : Prop where
  found : ∀ type < s.types.length, s.typeNames.lookup (s.nameOf type) = some type
  named : ∀ name type, s.typeNames.lookup name = some type →
    type < s.types.length ∧ s.nameOf type = name
  readable : ∀ type < s.types.length, Readable (s.nameOf type)
  origin : ∀ type < s.types.length,
    IsIdentifier (s.nameOf type) ∨ ∃ shape, IsFor s shape (s.get type)
  cache : ∀ src entry, s.pointerCache.lookup src = some entry → src < s.types.length ∧
    ∃ type < s.types.length, entry = some type ∧ s.nameOf type = (Shape.pointer src).name s

/-- Types that are there stay. -/
structure Extends (s s' : MirTypeTable) : Prop where
  types : s.types <+: s'.types
  pointerBitWidth : s'.pointerBitWidth = s.pointerBitWidth

section Extension

variable {s s' s'' : MirTypeTable}

theorem Extends.refl : Extends s s := ⟨prefix_rfl, rfl⟩

section

variable (h : Extends s s')
include h

theorem Extends.trans (h' : Extends s' s'') : Extends s s'' :=
  ⟨h.types.trans h'.types, h'.pointerBitWidth.trans h.pointerBitWidth⟩

theorem Extends.get (htype : type < s.types.length) : s'.get type = s.get type := by
  obtain ⟨rest, hrest⟩ := h.types
  unfold MirTypeTable.get
  rw [← hrest, getElem?_append_left htype]

theorem Extends.nameOf (htype : type < s.types.length) :
    s'.nameOf type = s.nameOf type := congrArg MirType.name (h.get htype)

theorem Extends.lt (htype : type < s.types.length) :
    type < s'.types.length := htype.trans_le h.types.length_le

theorem Extends.name {shape : Shape} (hvalid : ∀ sub ∈ shape.subTypes, sub < s.types.length) :
    shape.name s' = shape.name s := by
  cases shape with
  | pointer pointee =>
    exact congrArg (· ++ ['*']) (h.nameOf (hvalid pointee (mem_singleton_self _)))
  | array element count =>
    have hname := h.nameOf (hvalid element (mem_singleton_self _))
    dsimp only [Shape.name]
    rw [hname]
  | function result parameters =>
    have hname := h.nameOf (hvalid result (mem_cons_self ..))
    have hnames : parameters.map s'.nameOf = parameters.map s.nameOf :=
      map_congr_left fun type htype =>
        h.nameOf (hvalid type (mem_cons_of_mem _ htype))
    dsimp only [Shape.name]
    rw [hname, hnames]

theorem Extends.sizes (hvalid : ∀ sub ∈ shape.subTypes, sub < s.types.length) :
    shape.storedSize s' = shape.storedSize s ∧ shape.size s' = shape.size s ∧
      shape.alignment s' = shape.alignment s := by
  cases shape with
  | pointer pointee | function result parameters =>
    exact ⟨h.pointerBitWidth, h.pointerBitWidth, h.pointerBitWidth⟩
  | array element count =>
    have hget := h.get (hvalid element (mem_singleton_self _))
    dsimp only [Shape.storedSize, Shape.size, Shape.alignment]
    rw [hget]
    exact ⟨rfl, rfl, rfl⟩

theorem IsFor.extends {shape : Shape} {type : MirType} (hfor : IsFor s shape type) :
    IsFor s' shape type := by
  obtain ⟨hstored, -, halignment⟩ := h.sizes hfor.valid
  exact ⟨fun sub hsub => h.lt (hfor.valid sub hsub), hfor.name.trans (h.name hfor.valid).symm,
    hfor.kind, hfor.subTypes, hfor.size.trans hstored.symm, hfor.alignment.trans halignment.symm⟩

end

end Extension

def MirTypeTable.append (s : MirTypeTable) (type : MirType) : MirTypeTable :=
  { s with
    types := s.types ++ [type]
    typeNames := (type.name, s.types.length) :: s.typeNames
    currentId := s.currentId + 1 }

section Consistent

variable {s : MirTypeTable}

theorem extends_append (type : MirType) : Extends s (s.append type) :=
  ⟨prefix_append _ _, rfl⟩

theorem get_append_self (type : MirType) : (s.append type).get s.types.length = type := by
  unfold MirTypeTable.get MirTypeTable.append
  rw [getElem?_concat_length]
  rfl

theorem lt_append {type : MirType} {t : ℕ} (h : t < (s.append type).types.length) :
    t < s.types.length ∨ t = s.types.length := by
  unfold MirTypeTable.append at h
  rw [length_append, length_singleton] at h
  exact Nat.lt_succ_iff_lt_or_eq.mp h

section

variable (h : Consistent s)
include h

theorem Consistent.append {type : MirType} (hnew : s.typeNames.lookup type.name = none)
    (hreadable : Readable type.name)
    (horigin : IsIdentifier type.name ∨ ∃ shape, IsFor s shape type) :
    Consistent (s.append type) := by
  have hext : Extends s (s.append type) := extends_append type
  have hself : (s.append type).nameOf s.types.length = type.name :=
    congrArg MirType.name (get_append_self type)
  have hlookup : ∀ name, (s.append type).typeNames.lookup name =
      if name = type.name then some s.types.length else s.typeNames.lookup name := by
    intro name
    change ((type.name, s.types.length) :: s.typeNames).lookup name = _
    rw [lookup_cons]
    by_cases heq : name = type.name
    · rw [if_pos heq, heq, beq_self_eq_true]
    · rw [if_neg heq, beq_false_of_ne heq]
  refine ⟨fun t ht => ?_, fun name t ht => ?_, fun t ht => ?_, fun t ht => ?_,
    fun src entry hentry => ?_⟩
  · rw [hlookup]
    rcases lt_append ht with ht | rfl
    · have hfound := h.found t ht
      rw [hext.nameOf ht, if_neg, hfound]
      intro heq
      rw [heq, hnew] at hfound
      cases hfound
    · rw [hself, if_pos rfl]
  · rw [hlookup] at ht
    split_ifs at ht with heq
    · cases ht
      refine ⟨?_, hself.trans heq.symm⟩
      unfold MirTypeTable.append
      simp
    · obtain ⟨hlt, hname⟩ := h.named name t ht
      exact ⟨hext.lt hlt, (hext.nameOf hlt).trans hname⟩
  · rcases lt_append ht with ht | rfl
    · rw [hext.nameOf ht]
      exact h.readable t ht
    · rw [hself]
      exact hreadable
  · rcases lt_append ht with ht | rfl
    · rw [hext.nameOf ht, hext.get ht]
      exact (h.origin t ht).imp_right fun ⟨shape, hshape⟩ => ⟨shape, hshape.extends hext⟩
    · rw [hself, get_append_self]
      exact horigin.imp_right fun ⟨shape, hshape⟩ => ⟨shape, hshape.extends hext⟩
  · obtain ⟨hsrc, t, ht, heq, hname⟩ := h.cache src entry hentry
    have hvalid : ∀ sub ∈ (Shape.pointer src).subTypes, sub < s.types.length := by
      intro sub hsub
      rwa [mem_singleton.mp hsub]
    exact ⟨hext.lt hsrc, t, hext.lt ht, heq,
      (hext.nameOf ht).trans (hname.trans (hext.name hvalid).symm)⟩

theorem Consistent.nameOf_inj {t t' : ℕ} (ht : t < s.types.length) (ht' : t' < s.types.length)
    (heq : s.nameOf t = s.nameOf t') : t = t' := by
  have hfound := h.found t ht
  rw [heq, h.found t' ht'] at hfound
  exact (Option.some.inj hfound).symm

theorem Consistent.map_nameOf_inj {l l' : List ℕ} (hl : ∀ t ∈ l, t < s.types.length)
    (hl' : ∀ t ∈ l', t < s.types.length) (heq : l.map s.nameOf = l'.map s.nameOf) : l = l' := by
  induction l generalizing l' with
  | nil => exact (map_eq_nil_iff.mp heq.symm).symm
  | cons t l ih =>
    cases l' with
    | nil => cases heq
    | cons t' l' =>
      obtain ⟨hhead, htail⟩ := cons.inj heq
      rw [h.nameOf_inj (hl t (mem_cons_self ..)) (hl' t' (mem_cons_self ..)) hhead,
        ih (fun u hu => hl u (mem_cons_of_mem _ hu))
          (fun u hu => hl' u (mem_cons_of_mem _ hu)) htail]

theorem Consistent.name_inj {shape' : Shape} (hvalid : ∀ sub ∈ shape.subTypes, sub < s.types.length)
    (hvalid' : ∀ sub ∈ shape'.subTypes, sub < s.types.length) (heq : shape.name s = shape'.name s) :
    shape = shape' := by
  have hlast := getLast_name s shape
  rw [heq, getLast_name] at hlast
  have hlast := Option.some.inj hlast
  cases shape with
  | pointer pointee =>
    cases shape' with
    | pointer pointee' =>
      rw [h.nameOf_inj (hvalid _ (mem_singleton_self _))
        (hvalid' _ (mem_singleton_self _)) (append_cancel_right heq)]
    | array element count | function result parameters =>
      exact absurd hlast (by simp [Shape.lastChar])
  | array element count =>
    cases shape' with
    | pointer pointee | function result parameters => exact absurd hlast (by simp [Shape.lastChar])
    | array element' count' =>
      obtain ⟨hname, hcount⟩ := arrayName_inj heq
      rw [h.nameOf_inj (hvalid _ (mem_singleton_self _))
        (hvalid' _ (mem_singleton_self _)) hname, hcount]
  | function result parameters =>
    cases shape' with
    | pointer pointee | array element count => exact absurd hlast (by simp [Shape.lastChar])
    | function result' parameters' =>
      have hreadable : ∀ l : List ℕ, (∀ t ∈ l, t < s.types.length) →
          ∀ name ∈ l.map s.nameOf, Readable name := by
        intro l hl name hname
        obtain ⟨t, ht, rfl⟩ := mem_map.mp hname
        exact h.readable t (hl t ht)
      have hl := fun t ht => hvalid t (mem_cons_of_mem _ ht)
      have hl' := fun t ht => hvalid' t (mem_cons_of_mem _ ht)
      obtain ⟨hname, hnames⟩ := Brackets.followed_inj (hreadable _ hl) (hreadable _ hl') heq
      rw [h.nameOf_inj (hvalid _ (mem_cons_self ..)) (hvalid' _ (mem_cons_self ..))
        hname, h.map_nameOf_inj hl hl' hnames]

theorem Consistent.isFor (hvalid : ∀ sub ∈ shape.subTypes, sub < s.types.length)
    (htype : type < s.types.length) (hname : s.nameOf type = shape.name s) :
    IsFor s shape (s.get type) := by
  rcases h.origin type htype with hident | ⟨shape', hfor⟩
  · exact absurd hname (hident.ne_name s shape)
  · rw [h.name_inj hvalid hfor.valid (hname.symm.trans hfor.name)]
    exact hfor

theorem Consistent.readable_shape {shape : Shape}
    (hvalid : ∀ sub ∈ shape.subTypes, sub < s.types.length) : Readable (shape.name s) :=
  readable_name fun sub hsub => h.readable sub (hvalid sub hsub)

end

theorem create_new {kind : MirTypeKind} {size alignment compactId : ℕ} {subTypes : List ℕ}
    {name : Name} (hne : name ≠ []) (hnew : s.typeNames.lookup name = none) :
    create s kind size alignment subTypes name compactId = (some s.types.length,
        s.append ⟨kind, s.currentId + 1, alignment, size, name, subTypes, compactId⟩) := by
  unfold create
  rw [if_neg hne, hnew]
  rfl

theorem create_found {kind : MirTypeKind} {size alignment compactId : ℕ} {subTypes : List ℕ}
    {name : Name} (hne : name ≠ []) (hfound : s.typeNames.lookup name = some type) :
    create s kind size alignment subTypes name compactId = (some type, s) := by
  unfold create
  rw [if_neg hne, hfound]

/-- What a call returns, and the table behind it. -/
structure Returns (s : MirTypeTable) (shape : Shape) (result : Option ℕ × MirTypeTable) :
    Prop where
  consistent : Consistent result.2
  extends_table : Extends s result.2
  type : ∃ type < result.2.types.length, result.1 = some type ∧
    IsFor result.2 shape (result.2.get type)

theorem Consistent.create_shape (h : Consistent s) {shape : Shape}
    (hvalid : ∀ sub ∈ shape.subTypes, sub < s.types.length) (compactId : ℕ) :
    Returns s shape (create s shape.kind (shape.storedSize s) (shape.alignment s) shape.subTypes
      (shape.name s) compactId) := by
  have hreadable := h.readable_shape hvalid
  cases hlookup : s.typeNames.lookup (shape.name s) with
  | some type =>
    obtain ⟨htype, hname⟩ := h.named _ _ hlookup
    rw [create_found hreadable.2 hlookup]
    exact ⟨h, .refl, type, htype, rfl, h.isFor hvalid htype hname⟩
  | none =>
    rw [create_new hreadable.2 hlookup]
    have hfor : IsFor s shape ⟨shape.kind, s.currentId + 1, shape.alignment s,
        shape.storedSize s, shape.name s, shape.subTypes, compactId⟩ :=
      ⟨hvalid, rfl, rfl, rfl, rfl, rfl⟩
    have hext := @extends_append s ⟨shape.kind, s.currentId + 1, shape.alignment s,
      shape.storedSize s, shape.name s, shape.subTypes, compactId⟩
    refine ⟨h.append hlookup hreadable (.inr ⟨shape, hfor⟩), hext, s.types.length, ?_, rfl, ?_⟩
    · unfold MirTypeTable.append
      simp
    · rw [get_append_self]
      exact hfor.extends hext

theorem Consistent.getArray (h : Consistent s) {element : ℕ} (hvalid : element < s.types.length)
    (count : ℕ) : Returns s (.array element count) (getArray s (some element) count) := by
  have hvalid : ∀ sub ∈ (Shape.array element count).subTypes, sub < s.types.length := by
    intro sub hsub
    rwa [mem_singleton.mp hsub]
  have hcreate := h.create_shape hvalid customCompactId
  cases hlookup : s.typeNames.lookup ((Shape.array element count).name s) with
  | some type =>
    rw [create_found (h.readable_shape hvalid).2 hlookup] at hcreate
    unfold TypeTable.getArray
    dsimp only [Shape.name] at hlookup ⊢
    rw [hlookup]
    exact hcreate
  | none =>
    unfold TypeTable.getArray
    dsimp only [Shape.name] at hlookup ⊢
    rw [hlookup]
    exact hcreate

theorem Consistent.getFuncType (h : Consistent s) {result : ℕ} {parameters : List (Option ℕ)}
    (hvalid : ∀ sub ∈ result :: parameters.filterMap id, sub < s.types.length) :
    Returns s (.function result (parameters.filterMap id))
      (getFuncType s (some result) parameters) := by
  have hcreate := @create_shape s h (.function result (parameters.filterMap id)) hvalid
    customCompactId
  have hne := (@readable_shape s h (.function result (parameters.filterMap id)) hvalid).2
  cases hlookup : s.typeNames.lookup
      ((Shape.function result (parameters.filterMap id)).name s) with
  | some type =>
    rw [create_found hne hlookup] at hcreate
    unfold TypeTable.getFuncType
    dsimp only [Shape.name] at hlookup ⊢
    rw [hlookup]
    exact hcreate
  | none =>
    unfold TypeTable.getFuncType
    dsimp only [Shape.name] at hlookup ⊢
    rw [hlookup]
    exact hcreate

variable {src : ℕ}

theorem Consistent.cachePointer (h : Consistent s) (hsrc : src < s.types.length)
    (htype : type < s.types.length) (hname : s.nameOf type = (Shape.pointer src).name s) :
    Consistent { s with pointerCache := (src, some type) :: s.pointerCache } := by
  have hext : Extends s { s with pointerCache := (src, some type) :: s.pointerCache } :=
    ⟨prefix_rfl, rfl⟩
  refine ⟨h.found, h.named, h.readable, fun t ht => ?_, fun other entry hentry => ?_⟩
  · exact (h.origin t ht).imp_right fun ⟨shape, hshape⟩ => ⟨shape, hshape.extends hext⟩
  · change ((src, some type) :: s.pointerCache).lookup other = some entry at hentry
    rw [lookup_cons] at hentry
    by_cases heq : other = src
    · rw [heq, beq_self_eq_true] at hentry
      rw [heq]
      exact ⟨hsrc, type, htype, (Option.some.inj hentry).symm, hname⟩
    · rw [beq_false_of_ne heq] at hentry
      exact h.cache other entry hentry

theorem getPtr_cached {entry : Option ℕ} (h : s.pointerCache.lookup src = some entry) :
    getPtr s (some src) = (entry, s) := by
  unfold getPtr
  dsimp only
  rw [h]

theorem getPtr_new (h : s.pointerCache.lookup src = none) {entry : Option ℕ} {s' : MirTypeTable}
      (hcreate : create s .Pointer s.pointerBitWidth s.pointerBitWidth [src] (s.nameOf src ++ ['*'])
      customCompactId = (entry, s')) :
    getPtr s (some src) = (entry, { s' with pointerCache := (src, entry) :: s'.pointerCache }) := by
  unfold getPtr
  dsimp only
  rw [h]
  dsimp only
  rw [hcreate]

theorem Consistent.getPtr (h : Consistent s) (hsrc : src < s.types.length) :
    Returns s (.pointer src) (getPtr s (some src)) := by
  have hvalid : ∀ sub ∈ (Shape.pointer src).subTypes, sub < s.types.length := by
    intro sub hsub
    rwa [mem_singleton.mp hsub]
  cases hlookup : s.pointerCache.lookup src with
  | some entry =>
    obtain ⟨-, type, htype, rfl, hname⟩ := h.cache src entry hlookup
    rw [getPtr_cached hlookup]
    exact ⟨h, .refl, type, htype, rfl, h.isFor hvalid htype hname⟩
  | none =>
    obtain ⟨hconsistent, hext, type, htype, hresult, hfor⟩ :=
      h.create_shape hvalid customCompactId
    rw [getPtr_new hlookup (Prod.ext hresult rfl)]
    have hcached := hconsistent.cachePointer (hext.lt hsrc) htype hfor.name
    refine ⟨hcached, ⟨hext.types, hext.pointerBitWidth⟩, type, htype, rfl, ?_⟩
    exact hcached.isFor (fun sub hsub => hext.lt (hvalid sub hsub)) htype hfor.name

theorem Consistent.run (h : Consistent s) {call : Call} (hvalid : call.Valid s) :
    Returns s call.shape (call.run s) := by
  cases call with
  | getPtr srcType => exact h.getPtr (hvalid srcType (mem_singleton_self _))
  | getArray elementType elementCount =>
    exact h.getArray (hvalid elementType (mem_singleton_self _)) elementCount
  | getFuncType returnType parameters => exact h.getFuncType hvalid

end Consistent

/-! ## Runs -/

theorem consistent_initializeTypes (pointerBitWidth : ℕ) (bases : List BaseType) :
    Consistent (initializeTypes pointerBitWidth bases) := by
  have hfold : ∀ s, Consistent s → Consistent (bases.foldl (fun s base =>
      (create s base.kind base.totalSizeInBits base.totalAlignmentInBits [] base.name
        base.compactId).2) s) := by
    induction bases with
    | nil => exact fun s hs => hs
    | cons base bases ih =>
      intro s hs
      refine ih _ ?_
      dsimp only
      have hident : IsIdentifier base.name := ⟨base.name_ne, base.name_chars⟩
      cases hlookup : s.typeNames.lookup base.name with
      | some type =>
        rw [create_found base.name_ne hlookup]
        exact hs
      | none =>
        rw [create_new base.name_ne hlookup]
        exact hs.append hlookup hident.readable (.inl hident)
  refine hfold _ ⟨?_, ?_, ?_, ?_, ?_⟩ <;> intro a
  · exact fun h => absurd h (Nat.not_lt_zero a)
  · intro b h
    cases h
  · exact fun h => absurd h (Nat.not_lt_zero a)
  · exact fun h => absurd h (Nat.not_lt_zero a)
  · intro b h
    cases h

section Runs

variable {s : MirTypeTable}

section

variable {calls : List Call} (h : Consistent s) (hvalid : ValidRun s calls)
include h hvalid

theorem runCalls_extends : Extends s (runCalls s calls).2 ∧ Consistent (runCalls s calls).2 := by
  induction calls generalizing s with
  | nil => exact ⟨.refl, h⟩
  | cons call calls ih =>
    have hrun := h.run hvalid.1
    obtain ⟨hext, hconsistent⟩ := ih hrun.consistent hvalid.2
    exact ⟨hrun.extends_table.trans hext, hconsistent⟩

theorem runCalls_isFor {i : ℕ} {call : Call} (hcall : calls[i]? = some call) :
    ∃ type < (runCalls s calls).2.types.length, (runCalls s calls).1[i]? = some (some type) ∧
      IsFor (runCalls s calls).2 call.shape ((runCalls s calls).2.get type) := by
  induction calls generalizing s i with
  | nil => cases hcall
  | cons first calls ih =>
    have hrun := h.run hvalid.1
    obtain ⟨hext, -⟩ := runCalls_extends hrun.consistent hvalid.2
    cases i with
    | zero =>
      cases hcall
      obtain ⟨type, htype, hresult, hfor⟩ := hrun.type
      refine ⟨type, hext.lt htype, congrArg some hresult, ?_⟩
      have hget := hext.get htype
      change IsFor _ _ ((runCalls (call.run s).2 calls).2.get type)
      rw [hget]
      exact hfor.extends hext
    | succ i => exact ih hrun.consistent hvalid.2 hcall

theorem runCalls_take (n : ℕ) :
    (runCalls s (calls.take n)).2.types <+: (runCalls s calls).2.types := by
  induction calls generalizing s n with
  | nil =>
    rw [take_nil]
  | cons call calls ih =>
    have hrun := h.run hvalid.1
    cases n with
    | zero => exact (runCalls_extends h hvalid).1.types
    | succ n => exact ih hrun.consistent hvalid.2 n

end

theorem Call.fits_iff (s : MirTypeTable) (call : Call) :
    call.Fits s ↔ call.shape.storedSize s = call.shape.size s := by
  cases call with
  | getPtr srcType | getFuncType returnType parameters => exact ⟨fun _ => rfl, fun _ => trivial⟩
  | getArray elementType elementCount => exact (Nat.mod_eq_iff_lt (by decide)).symm

theorem runFits_iff (h : Consistent s) {calls : List Call} (hvalid : ValidRun s calls) :
    RunFits s calls ↔ ∀ (i : ℕ) (call : Call), calls[i]? = some call →
      call.shape.storedSize (runCalls s calls).2 = call.shape.size (runCalls s calls).2 := by
  induction calls generalizing s with
  | nil => exact ⟨fun _ i call hcall => absurd hcall (by simp), fun _ => trivial⟩
  | cons first calls ih =>
    have hrun := h.run hvalid.1
    obtain ⟨hstored, hsize, -⟩ := (runCalls_extends h hvalid).1.sizes hvalid.1
    have hrest := ih hrun.consistent hvalid.2
    constructor
    · rintro ⟨hfits, hfitsRest⟩ i call hcall
      cases i with
      | zero =>
        cases hcall
        rw [hstored, hsize]
        exact (first.fits_iff s).mp hfits
      | succ i => exact hrest.mp hfitsRest i call hcall
    · intro hall
      have hfirst := hall 0 first rfl
      rw [hstored, hsize] at hfirst
      exact ⟨(first.fits_iff s).mpr hfirst, hrest.mpr fun i => hall (i + 1)⟩

/-- In every run over base types with identifiers for names, types are interned by their
structure; they are as described iff no array is too large. -/
theorem typesInterned_iff (pointerBitWidth : ℕ) (bases : List BaseType) (calls : List Call)
    (hvalid : ValidRun (initializeTypes pointerBitWidth bases) calls) :
    RunRight (initializeTypes pointerBitWidth bases) calls ↔
      RunFits (initializeTypes pointerBitWidth bases) calls := by
  have hconsistent := consistent_initializeTypes pointerBitWidth bases
  have hfinal := (runCalls_extends hconsistent hvalid).2
  rw [runFits_iff hconsistent hvalid]
  constructor
  · intro hright i call hcall
    obtain ⟨type, -, hresult, hfor⟩ := runCalls_isFor hconsistent hvalid hcall
    obtain ⟨type', hresult', hdescribed⟩ := hright.described i call hcall
    rw [hresult] at hresult'
    cases hresult'
    exact hfor.size.symm.trans hdescribed.size
  · intro hfits
    refine ⟨fun i call hcall => ?_, fun i j call call' hcall hcall' => ?_,
      runCalls_take hconsistent hvalid⟩
    · obtain ⟨type, htype, hresult, hfor⟩ := runCalls_isFor hconsistent hvalid hcall
      exact ⟨type, hresult, htype, hfor.kind, hfor.subTypes,
        hfor.size.trans (hfits i call hcall), hfor.alignment⟩
    · obtain ⟨type, htype, hresult, hfor⟩ := runCalls_isFor hconsistent hvalid hcall
      obtain ⟨type', htype', hresult', hfor'⟩ := runCalls_isFor hconsistent hvalid hcall'
      rw [hresult, hresult', Option.some_inj, Option.some_inj]
      constructor
      · rintro rfl
        exact hfinal.name_inj hfor.valid hfor'.valid (hfor.name.symm.trans hfor'.name)
      · intro hshape
        refine hfinal.nameOf_inj htype htype' ?_
        exact hfor.name.trans ((congrArg (Shape.name _) hshape).trans hfor'.name.symm)

/-- A pointer, an array of pointers and a function of the two, each asked for twice. -/
theorem typesInterned_nested :
    RunRight (initializeTypes 64
        [⟨.Integer, 32, 32, ['i'], 4, by decide, forall_mem_singleton.mpr (by decide)⟩])
      [.getPtr 0, .getArray 1 3, .getFuncType 0 [some 2, none, some 1], .getArray 1 3] :=
  (typesInterned_iff 64
    [⟨.Integer, 32, 32, ['i'], 4, by decide, forall_mem_singleton.mpr (by decide)⟩]
    [.getPtr 0, .getArray 1 3, .getFuncType 0 [some 2, none, some 1], .getArray 1 3]
    ⟨by unfold Call.Valid; decide, by unfold Call.Valid; decide, by unfold Call.Valid; decide,
      by unfold Call.Valid; decide, trivial⟩).mpr
    ⟨trivial, Nat.lt_of_le_of_lt (by decide : _ ≤ 192) (by decide), trivial,
      Nat.lt_of_le_of_lt (by decide : _ ≤ 192) (by decide), trivial⟩

/-- The size of an array of `2 ^ 60` integers of 32 bits wraps to zero. -/
theorem largeArray_not_right :
    ¬RunRight (initializeTypes 64
        [⟨.Integer, 32, 32, ['i'], 4, by decide, forall_mem_singleton.mpr (by decide)⟩])
      [.getArray 0 (2 ^ 60)] := by
  intro h
  obtain ⟨type, hresult, hdescribed⟩ := h.described 0 _ rfl
  have htype : type = 1 := by
    cases hresult
    rfl
  have hsize := hdescribed.size
  rw [htype] at hsize
  exact absurd hsize (by decide)

end Runs

end EzPacker.TypeTable
