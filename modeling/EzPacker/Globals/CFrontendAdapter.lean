import EzPacker.Mir.Type
import EzPacker.Object.CodeSection

/-!
# Global variables of a C translation unit

The first pass of `lowerAstToMir` over the objects that chibicc has parsed, those that are
no functions. A C type has become a size in bits. The initial bytes of an object become
one integer of that many bytes; the relocation entries of the object are not read.
-/

namespace EzPacker.Globals

open List Function Mir

/-! ## Objects of chibicc -/

inductive TypeKind
  | VOID | BOOL | CHAR | SHORT | INT | LONG | FLOAT | DOUBLE | LDOUBLE | ENUM | PTR | FUNC
  | ARRAY | VLA | STRUCT | UNION
  deriving DecidableEq, Repr

/-- A complete type. Pointers, arrays and variable-length arrays are derived from a base. -/
inductive CType
  | basic (kind : TypeKind) (size : ℕ)
  | derived (kind : TypeKind) (size arrayLen : ℕ) (base : CType)
  deriving DecidableEq, Repr

def CType.size : CType → ℕ
  | basic _ size => size
  | derived _ size _ _ => size

/-- A pointer to another object at an offset of the initial bytes. -/
structure Relocation where
  offset : ℕ
  label : String
  addend : ℤ
  deriving DecidableEq, Repr

/-- The initial bytes are as many as the type has. -/
structure Obj where
  name : String
  ty : CType
  align : ℕ
  isDefinition : Bool
  isStatic : Bool
  initData : Option (List UInt8)
  rel : List Relocation
  length_initData : ∀ bytes, initData = some bytes → bytes.length = ty.size

/-! ## Lowering -/

/-- What is asked of a type of the type table here. -/
structure GlobalType where
  kind : MirTypeKind
  totalSizeInBits : ℕ
  deriving DecidableEq, Repr

def integerType (bits : ℕ) : GlobalType := ⟨.Integer, bits⟩

def getArray (elementType : GlobalType) (elementCount : ℕ) : GlobalType :=
  ⟨.Array, elementType.totalSizeInBits * elementCount⟩

/-- The types that are told apart by nothing but their size. -/
def mapBySize (size : ℕ) : GlobalType :=
  if size ≤ 1 then integerType 8
  else if size ≤ 2 then integerType 16
  else if size ≤ 4 then integerType 32
  else if size ≤ 8 then integerType 64
  else getArray (integerType 8) size

/-- The kinds whose type does not depend on a base. -/
def mapKind (pointerBitWidth : ℕ) (kind : TypeKind) (size : ℕ) : GlobalType :=
  match kind with
  | .VOID => ⟨.Void, 0⟩
  | .BOOL => integerType 1
  | .CHAR => integerType 8
  | .SHORT => integerType 16
  | .INT | .ENUM => integerType 32
  | .LONG => integerType 64
  | .FLOAT => ⟨.FloatingPoint, 32⟩
  | .DOUBLE | .LDOUBLE => ⟨.FloatingPoint, 64⟩
  | .PTR => ⟨.Pointer, pointerBitWidth⟩
  | .ARRAY | .VLA => getArray (integerType 8) (if size > 0 then size else 1)
  | .FUNC | .STRUCT | .UNION => mapBySize size

def mapType (pointerBitWidth : ℕ) : CType → GlobalType
  | .basic kind size => mapKind pointerBitWidth kind size
  | .derived kind size arrayLen base =>
    if kind = .ARRAY ∨ kind = .VLA then
      let len :=
        if arrayLen > 0 then arrayLen
        else if base.size > 0 then size / base.size
        else size
      getArray (mapType pointerBitWidth base) (if len > 0 then len else 1)
    else mapKind pointerBitWidth kind size

inductive MirLinkage
  | External | Internal | Weak
  deriving DecidableEq, Repr

/-- A constant operand, with its type. -/
inductive Initializer
  | integer (type : GlobalType) (value : FlexInt)
  | floatingPoint (type : GlobalType) (isZero : Bool) (bits : ℕ)
  deriving DecidableEq, Repr

structure MirGlobalVar where
  name : String
  linkage : MirLinkage
  type : GlobalType
  initializer : Option Initializer
  isConstant : Bool
  isDeclaration : Bool
  deriving DecidableEq, Repr

/-- `buildInt` for a value of the width of its type, as both callers pass it. -/
def buildInt (type : GlobalType) (value : FlexInt) : Option Initializer :=
  if type.kind = .Integer then some (.integer type value) else none

def initType (gType : GlobalType) (bitWidth : ℕ) : GlobalType :=
  if gType.kind = .Integer ∧ gType.totalSizeInBits = bitWidth then gType
  else integerType bitWidth

/-- The table of names that would skip an object of a known name is never filled. -/
def lowerGlobal (pointerBitWidth : ℕ) (obj : Obj) : MirGlobalVar :=
  let gType := mapType pointerBitWidth obj.ty
  { name := obj.name
    linkage := if obj.isStatic then .Internal else .External
    type := gType
    initializer :=
      match obj.initData with
      | some bytes =>
        if obj.ty.size > 0 then
          let bitWidth := obj.ty.size * 8
          buildInt (initType gType bitWidth) (FlexInt.readBytes bytes bitWidth)
        else if obj.isDefinition ∧ gType.kind = .Integer then
          buildInt gType ⟨0, gType.totalSizeInBits % 2 ^ 16, true⟩
        else none
      | none =>
        if obj.isDefinition ∧ gType.kind = .Integer then
          buildInt gType ⟨0, gType.totalSizeInBits % 2 ^ 16, true⟩
        else none
    isConstant := false
    isDeclaration := !obj.isDefinition }

def lowerAstToMir (pointerBitWidth : ℕ) (objs : List Obj) : List MirGlobalVar :=
  objs.map (lowerGlobal pointerBitWidth)

/-!
## Emission of global variables

What `emitModule` hands to the object writer of a module's globals: the sections, one
symbol for each global, and the relocations. Functions write to the text section alone;
the relocations that they record there are given as a list, each with the offset of its
field and the name of its target.
-/

open Mir Object

inductive TargetObjectFormat
  | ELF | COFF
  deriving DecidableEq, Repr

/-- The sections of a binary, each referred to by a number. Every object format makes the
sections for data; no section holds undefined symbols. -/
structure BinaryDesc where
  objectFormat : TargetObjectFormat
  sectionOf : SectionType → Option ℕ
  sections : ℕ → CodeSection
  isFresh : ∀ k, ∃ type alignment endianness padByte,
    sections k = .new type alignment endianness padByte
  hasData : (sectionOf .Data).isSome = true
  hasReadOnly : (sectionOf .ReadOnly).isSome = true
  hasNonInitialized : (sectionOf .NonInitialized).isSome = true
  noUndefined : sectionOf .Undefined = none

structure ObjectSymbol where
  name : String
  section_ : SectionType
  offset : ℕ
  size : ℕ
  isGlobal : Bool
  isWeak : Bool
  isFunction : Bool
  deriving DecidableEq, Repr

structure ObjectRelocEntry where
  section_ : SectionType
  offset : ℕ
  symbolName : String
  type : TargetCodeRelocationType
  addend : ℤ
  deriving DecidableEq, Repr

/-! ## Globals -/

namespace Initializer

def type : Initializer → GlobalType
  | integer type _ => type
  | floatingPoint type _ _ => type

def isZero : Initializer → Bool
  | integer _ value => value.isZero
  | floatingPoint _ isZero _ => isZero

def writeBytes (size : ℕ) : Initializer → List UInt8
  | integer _ value => value.writeBytes size
  | floatingPoint _ _ bits => leBytes size bits

end Initializer

namespace MirGlobalVar

variable (gvar : MirGlobalVar)

/-- The bytes of the object: those of its type or of its initialiser, rounded up. -/
def gvSize : ℕ :=
  let valSize := (gvar.type.totalSizeInBits + 7) / 8
  let size :=
    match gvar.initializer with
    | some init =>
      let initSize := (init.type.totalSizeInBits + 7) / 8
      if init.type.totalSizeInBits > 0 ∧ initSize > valSize then initSize else valSize
    | none => valSize
  if size = 0 then 8 else size

def align : ℕ :=
  let align := min gvar.gvSize 16
  if align < 1 then 1 else align

/-- Constants are read-only; what is zero is left to the loader. -/
def targetSecType : SectionType :=
  if gvar.isConstant then .ReadOnly
  else
    match gvar.initializer with
    | some init => if init.isZero then .NonInitialized else .Data
    | none => .NonInitialized

def bytes : List UInt8 :=
  if gvar.targetSecType = .NonInitialized then replicate gvar.gvSize 0
  else
    match gvar.initializer with
    | some init => init.writeBytes gvar.gvSize
    | none => replicate gvar.gvSize 0

end MirGlobalVar

def isGlobalSymbol (linkage : MirLinkage) : Bool := decide (linkage ≠ .Internal)

structure EmissionState where
  sections : ℕ → CodeSection
  symbols : List ObjectSymbol

/-- The section that a global is written to. -/
def BinaryDesc.targetSection (desc : BinaryDesc) (type : SectionType) : Option ℕ :=
  (desc.sectionOf type).or (desc.sectionOf .Data)

def emitGlobalVar (desc : BinaryDesc) (st : EmissionState) (gvar : MirGlobalVar) :
    EmissionState :=
  let symbol : ObjectSymbol :=
    { name := gvar.name
      section_ := .Undefined
      offset := 0
      size := 0
      isGlobal := isGlobalSymbol gvar.linkage
      isWeak := decide (gvar.linkage = .Weak)
      isFunction := false }
  if gvar.isDeclaration then { st with symbols := st.symbols ++ [symbol] }
  else
    let symbol := { symbol with section_ := gvar.targetSecType, size := gvar.gvSize }
    match desc.targetSection gvar.targetSecType with
    | none => { st with symbols := st.symbols ++ [symbol] }
    | some k =>
      let sec := (st.sections k).alignTo gvar.align
      { sections := update st.sections k (sec.emitBytes gvar.bytes)
        symbols := st.symbols ++ [{ symbol with offset := sec.getCurrentOffset }] }

/-! ## Relocations -/

/-- What a recorded relocation refers to; a function or a global without a name is not in
the module. -/
inductive RelocationTarget
  | block
  | function (name : Option String)
  | globalVar (name : Option String)
  deriving DecidableEq, Repr

structure TextRelocation where
  target : RelocationTarget
  fieldOffset : ℕ
  relocType : TargetCodeRelocationType
  deriving DecidableEq, Repr

/-- Branches are patched in place; the other references of the text section become
relocations of the object. -/
def objectReloc (format : TargetObjectFormat) (reloc : TextRelocation) :
    Option ObjectRelocEntry :=
  match reloc.target with
  | .block | .function none | .globalVar none => none
  | .function (some name) | .globalVar (some name) =>
    some
      { section_ := .Text
        offset := reloc.fieldOffset
        symbolName := name
        type := reloc.relocType
        addend := match format with
          | .ELF => -4
          | .COFF => 0 }

/-! ## The module -/

structure EmittedModule where
  sections : ℕ → CodeSection
  symbols : List ObjectSymbol
  objectRelocs : List ObjectRelocEntry

def emitGlobals (desc : BinaryDesc) (gvars : List MirGlobalVar) : EmissionState :=
  gvars.foldl (emitGlobalVar desc) ⟨desc.sections, []⟩

def emitModule (desc : BinaryDesc) (gvars : List MirGlobalVar)
    (textRelocs : List TextRelocation) : EmittedModule :=
  let st := emitGlobals desc gvars
  { sections := fun k => (st.sections k).finalize
    symbols := st.symbols
    objectRelocs := textRelocs.filterMap (objectReloc desc.objectFormat) }

/-!
## Where globals come to stand

Each global is an aligned block of its section: the sections of an emitted module are the
layouts of the blocks written to them, and the symbol of a global gives the start of its
block.
-/

/-! ## Blocks of a section -/

namespace MirGlobalVar

def block (gvar : MirGlobalVar) : AlignedBlock UInt8 := ⟨gvar.align, gvar.bytes⟩

/-- The section that a global takes room in. -/
def room (desc : BinaryDesc) (gvar : MirGlobalVar) : Option ℕ :=
  if gvar.isDeclaration then none else desc.targetSection gvar.targetSecType

/-- The offset behind the globals of a section. -/
def endOf (desc : BinaryDesc) (k : ℕ) (gvars : List MirGlobalVar) : ℕ :=
  place AlignedBlock.behind 0 ((gvars.filter fun g => g.room desc = some k).map block)

/-- The symbol of a global that comes behind others. -/
def symbol (desc : BinaryDesc) (before : List MirGlobalVar) (gvar : MirGlobalVar) :
    ObjectSymbol where
  name := gvar.name
  section_ := if gvar.isDeclaration then .Undefined else gvar.targetSecType
  offset :=
    match gvar.room desc with
    | some k => gvar.block.start (endOf desc k before)
    | none => 0
  size := if gvar.isDeclaration then 0 else gvar.gvSize
  isGlobal := isGlobalSymbol gvar.linkage
  isWeak := decide (gvar.linkage = .Weak)
  isFunction := false

end MirGlobalVar

open MirGlobalVar

section

variable (desc : BinaryDesc)

/-- The bytes of a section that holds the blocks of these globals. -/
def sectionImage (k : ℕ) (gvars : List MirGlobalVar) : List UInt8 :=
  AlignedBlock.layout (desc.sections k).padByte 0
    ((gvars.filter fun g => g.room desc = some k).map block)

/-- The state behind the emission of these globals. -/
structure Emitted (gvars : List MirGlobalVar) (st : EmissionState) : Prop where
  image : ∀ k, (st.sections k).HasImage (sectionImage desc k gvars)
  padByte : ∀ k, (st.sections k).padByte = (desc.sections k).padByte
  alignment : ∀ k, (st.sections k).alignment = (desc.sections k).alignment
  symbols : ∀ before gvar after, gvars = before ++ gvar :: after →
    st.symbols[before.length]? = some (gvar.symbol desc before)
  length_symbols : st.symbols.length = gvars.length

variable {desc} {gvars : List MirGlobalVar} {st : EmissionState}

theorem emitted_nil : Emitted desc [] ⟨desc.sections, []⟩ where
  image k := by
    obtain ⟨type, alignment, endianness, padByte, hnew⟩ := desc.isFresh k
    dsimp only
    rw [hnew]
    exact CodeSection.hasImage_new ..
  padByte _ := rfl
  alignment _ := rfl
  symbols before gvar after h := by simp at h
  length_symbols := rfl

theorem symbols_snoc {symbols : List ObjectSymbol}
    (hsymbols : ∀ before gvar after, gvars = before ++ gvar :: after →
      symbols[before.length]? = some (gvar.symbol desc before))
    (hlength : symbols.length = gvars.length) (g : MirGlobalVar) :
    ∀ before gvar after, gvars ++ [g] = before ++ gvar :: after →
      (symbols ++ [g.symbol desc gvars])[before.length]? = some (gvar.symbol desc before) := by
  intro before gvar after h
  rcases eq_nil_or_concat' after with rfl | ⟨after', last, rfl⟩
  · obtain ⟨rfl, hg⟩ := append_inj' h rfl
    obtain rfl := singleton_inj.mp hg
    rw [← hlength, getElem?_append_right (Nat.le_refl _), Nat.sub_self]
    rfl
  · rw [← cons_append, ← append_assoc] at h
    obtain ⟨rfl, -⟩ := append_inj' h rfl
    rw [getElem?_append_left (by rw [hlength]; simp)]
    exact hsymbols before gvar after' rfl

theorem Emitted.step (h : Emitted desc gvars st) (g : MirGlobalVar) :
    Emitted desc (gvars ++ [g]) (emitGlobalVar desc st g) := by
  have hlength : ∀ sym, (st.symbols ++ [sym]).length = (gvars ++ [g]).length := by
    intro sym
    rw [length_append, length_append, h.length_symbols]
    rfl
  have hsymbols := symbols_snoc h.symbols h.length_symbols g
  -- A section that takes no room of the global keeps its image.
  have hkeep : ∀ k, g.room desc ≠ some k →
      sectionImage desc k (gvars ++ [g]) = sectionImage desc k gvars := by
    intro k hk
    unfold sectionImage
    rw [filter_append, filter_singleton, decide_eq_false hk]
    simp
  unfold emitGlobalVar
  dsimp only
  by_cases hdecl : g.isDeclaration = true
  · have hroom : g.room desc = none := if_pos hdecl
    rw [if_pos hdecl]
    refine ⟨fun k => ?_, h.padByte, h.alignment, ?_, hlength _⟩
    · rw [hkeep k (by simp [hroom])]
      exact h.image k
    · simpa [MirGlobalVar.symbol, hdecl, hroom] using hsymbols
  · have hroom : g.room desc = desc.targetSection g.targetSecType := if_neg hdecl
    rw [if_neg hdecl]
    cases hsec : desc.targetSection g.targetSecType with
    | none =>
      rw [hsec] at hroom
      refine ⟨fun k => ?_, h.padByte, h.alignment, ?_, hlength _⟩
      · rw [hkeep k (by simp [hroom])]
        exact h.image k
      · simpa [MirGlobalVar.symbol, hdecl, hroom] using hsymbols
    | some k =>
      rw [hsec] at hroom
      have himage := h.image k
      unfold sectionImage at himage
      rw [← h.padByte k] at himage
      obtain ⟨hoffset, hemit⟩ := himage.emitAligned g.block
      have hsection := CodeSection.padByte_emitBytes (st.sections k) g.align g.bytes
      refine ⟨fun k' => ?_, fun k' => ?_, fun k' => ?_, ?_, hlength _⟩
      · dsimp only
        by_cases hk : k' = k
        · subst hk
          rw [update_self]
          unfold sectionImage
          rw [filter_append, filter_singleton, decide_eq_true hroom, ← h.padByte k']
          rw [map_append]
          exact hemit
        · rw [update_of_ne hk, hkeep k' (by simp [hroom, Ne.symm hk])]
          exact h.image k'
      · dsimp only
        by_cases hk : k' = k
        · subst hk
          rw [update_self, hsection.1, h.padByte]
        · rw [update_of_ne hk, h.padByte]
      · dsimp only
        by_cases hk : k' = k
        · subst hk
          rw [update_self, hsection.2, h.alignment]
        · rw [update_of_ne hk, h.alignment]
      · have hstart : ((st.sections k).alignTo g.align).getCurrentOffset =
            g.block.start (endOf desc k gvars) := hoffset
        simpa [MirGlobalVar.symbol, hdecl, hroom, hstart] using hsymbols

/-- The sections are the layouts of their globals, and each global has its symbol. -/
theorem emitted_emitGlobals (gvars : List MirGlobalVar) :
    Emitted desc gvars (emitGlobals desc gvars) := by
  induction gvars using reverseRecOn with
  | nil => exact emitted_nil
  | append_singleton gvars g ih =>
    unfold emitGlobals at ih ⊢
    rw [foldl_append]
    exact ih.step g

theorem blocks_split {before after : List MirGlobalVar} {g : MirGlobalVar} {k : ℕ}
    (hroom : g.room desc = some k) :
    ((before ++ g :: after).filter fun g => g.room desc = some k).map block =
      (before.filter fun g => g.room desc = some k).map block ++
        g.block :: (after.filter fun g => g.room desc = some k).map block := by
  rw [filter_append, map_append]
  congr 1
  rw [filter_cons, decide_eq_true hroom]
  rfl

theorem slice_sectionImage {before after : List MirGlobalVar} {g : MirGlobalVar} {k : ℕ}
    (hroom : g.room desc = some k) :
    slice (sectionImage desc k (before ++ g :: after)) (g.symbol desc before).offset
      g.bytes.length = g.bytes := by
  have hoffset : (g.symbol desc before).offset = g.block.start (endOf desc k before) := by
    simp [MirGlobalVar.symbol, hroom]
  rw [hoffset]
  unfold sectionImage slice
  rw [blocks_split hroom]
  exact AlignedBlock.items_layout _ _ g.block

/-- A later global of the same section starts behind an earlier one. -/
theorem behind_le_offset {before between : List MirGlobalVar} {g g' : MirGlobalVar} {k : ℕ}
    (hroom : g.room desc = some k) (hroom' : g'.room desc = some k) :
    (g.symbol desc before).offset + g.bytes.length ≤
      (g'.symbol desc (before ++ g :: between)).offset := by
  have hoffset : (g.symbol desc before).offset = g.block.start (endOf desc k before) := by
    simp [MirGlobalVar.symbol, hroom]
  have hoffset' : (g'.symbol desc (before ++ g :: between)).offset =
      g'.block.start (endOf desc k (before ++ g :: between)) := by
    simp [MirGlobalVar.symbol, hroom']
  rw [hoffset, hoffset']
  unfold endOf
  rw [blocks_split hroom, place_append, place_cons]
  exact AlignedBlock.behind_le_start _ g.block g'.block _

end

end EzPacker.Globals
