import EzPacker.Globals.CFrontendAdapter

/-!
# Initialised globals of an object file

A translation unit is emitted right when each object with storage lies in a section of the
module, is aligned in memory and has its initial bytes, when different objects do not
overlap, and when the relocations outside the text section are those of the objects.
-/

namespace EzPacker.Globals

open Nat List Option Mir Object MirGlobalVar

/-! ## Purpose -/

namespace Obj

variable (obj : Obj)

/-- Definitions and objects with initial bytes take storage. -/
def HasStorage : Prop := obj.isDefinition = true ∨ obj.initData.isSome = true

instance : Decidable obj.HasStorage := inferInstanceAs (Decidable (_ ∨ _))

/-- The bytes the object has at the start of the program, without its pointers. -/
def contents : List UInt8 := obj.initData.getD (replicate obj.ty.size 0)

end Obj

/-- The object lies in a section at the place of its symbol. Sections are loaded at any
multiple of their alignment. -/
structure LiesAt (desc : BinaryDesc) (out : EmittedModule) (obj : Obj) (sym : ObjectSymbol)
    (k : ℕ) : Prop where
  sectionOf : desc.sectionOf sym.section_ = some k
  fits : obj.ty.size ≤ sym.size
  aligned : ∀ base, (out.sections k).alignment ∣ base → obj.align ∣ base + sym.offset
  contents : slice (out.sections k).getData sym.offset obj.ty.size = obj.contents

abbrev RelocKey := SectionType × ℕ × String × ℤ

def ObjectRelocEntry.key (r : ObjectRelocEntry) : RelocKey :=
  (r.section_, r.offset, r.symbolName, r.addend)

def expectedRelocs (objs : List Obj) (symbols : List ObjectSymbol) : List RelocKey :=
  (objs.zip symbols).flatMap fun p =>
    if p.1.HasStorage then
      p.1.rel.map fun r => (p.2.section_, p.2.offset + r.offset, r.label, r.addend)
    else []

/-- The relocations outside the text section. -/
def dataRelocs (out : EmittedModule) : List RelocKey :=
  (out.objectRelocs.filter fun r => r.section_ ≠ .Text).map ObjectRelocEntry.key

structure EmitsGlobals (desc : BinaryDesc) (out : EmittedModule) (objs : List Obj) : Prop where
  placed : ∀ (i : ℕ) obj, objs[i]? = some obj → obj.HasStorage →
    ∃ sym k, out.symbols[i]? = some sym ∧ LiesAt desc out obj sym k
  disjoint : ∀ (i j : ℕ) obj obj' sym sym', i < j → objs[i]? = some obj →
    objs[j]? = some obj' → obj.HasStorage → obj'.HasStorage → out.symbols[i]? = some sym →
    out.symbols[j]? = some sym' →
    desc.sectionOf sym.section_ = desc.sectionOf sym'.section_ →
      sym.offset + sym.size ≤ sym'.offset ∨ sym'.offset + sym'.size ≤ sym.offset
  relocs : (dataRelocs out).Perm (expectedRelocs objs out.symbols)

/-! ## Condition -/

namespace Obj

variable (pointerBitWidth : ℕ) (obj : Obj)

/-- The bytes of storage that an object is given: those of its mapped type or, when it has
initial bytes, at least as many as these. -/
def storage : ℕ :=
  let typeSize := ((mapType pointerBitWidth obj.ty).totalSizeInBits + 7) / 8
  let size := if obj.initData.isSome then max typeSize obj.ty.size else typeSize
  if size = 0 then 8 else size

/-- Objects that are zero need no bytes in the file. -/
def sectionType : SectionType :=
  if obj.contents.all fun b => decide (b = 0) then .NonInitialized else .Data

/-- An object is aligned to its size, at most to 16 bytes. -/
def place (off : ℕ) : ℕ := alignUp (min (obj.storage pointerBitWidth) 16) off

end Obj

/-- The room that the definitions of a section take. -/
def roomOf (desc : BinaryDesc) (pointerBitWidth k : ℕ) (objs : List Obj) : ℕ :=
  (objs.filter fun obj => obj.isDefinition = true ∧ desc.sectionOf obj.sectionType = some k).foldl
    (fun off obj => obj.place pointerBitWidth off + obj.storage pointerBitWidth) 0

/-- No object has relocation entries or is an initialised declaration, the mapped type of
each is large enough, and the alignment of each divides that of its section and the place
behind the objects in front of it. -/
structure Emittable (desc : BinaryDesc) (pointerBitWidth : ℕ) (objs : List Obj) : Prop where
  defined : ∀ obj ∈ objs, obj.HasStorage → obj.isDefinition = true
  noRelocs : ∀ obj ∈ objs, obj.HasStorage → obj.rel = []
  fits : ∀ obj ∈ objs, obj.HasStorage → obj.ty.size ≤ obj.storage pointerBitWidth
  aligned : ∀ before obj after, objs = before ++ obj :: after → obj.HasStorage →
    ∀ k, desc.sectionOf obj.sectionType = some k → obj.align ∣ (desc.sections k).alignment ∧
        obj.align ∣ obj.place pointerBitWidth (roomOf desc pointerBitWidth k before)

/-! ## The lowered global -/

section

variable {desc : BinaryDesc} {pointerBitWidth : ℕ} {obj : Obj}

theorem buildInt_initType (gType : GlobalType) (bits : ℕ) (value : FlexInt) :
    buildInt (initType gType bits) value = some (.integer (initType gType bits) value) := by
  unfold buildInt initType
  split
  · next h => rw [if_pos h.1]
  · rfl

theorem totalSizeInBits_initType (gType : GlobalType) (bits : ℕ) :
    (initType gType bits).totalSizeInBits = bits := by
  unfold initType
  split
  · next h => exact h.2
  · rfl

theorem initializer_cases (hdef : obj.isDefinition = true) :
    (∃ bytes, obj.initData = some bytes ∧ obj.ty.size > 0 ∧
      (lowerGlobal pointerBitWidth obj).initializer =
        some (.integer (initType (mapType pointerBitWidth obj.ty) (obj.ty.size * 8))
          (FlexInt.readBytes bytes (obj.ty.size * 8)))) ∨
    (obj.initData = none ∨ obj.ty.size = 0) ∧
      ((lowerGlobal pointerBitWidth obj).initializer = none ∨
        ∃ width, (lowerGlobal pointerBitWidth obj).initializer =
          some (.integer (mapType pointerBitWidth obj.ty) ⟨0, width, true⟩)) := by
  have hzero : ∀ gType : GlobalType,
      (if obj.isDefinition = true ∧ gType.kind = .Integer then
          buildInt gType ⟨0, gType.totalSizeInBits % 2 ^ 16, true⟩
        else none) = none ∨
      ∃ width, (if obj.isDefinition = true ∧ gType.kind = .Integer then
          buildInt gType ⟨0, gType.totalSizeInBits % 2 ^ 16, true⟩
        else none) = some (.integer gType ⟨0, width, true⟩) := by
    intro gType
    by_cases hkind : gType.kind = .Integer
    · right
      refine ⟨gType.totalSizeInBits % 2 ^ 16, ?_⟩
      rw [if_pos ⟨hdef, hkind⟩, buildInt, if_pos hkind]
    · left
      rw [if_neg fun h => hkind h.2]
  unfold lowerGlobal
  dsimp only
  cases hinit : obj.initData with
  | none => exact .inr ⟨.inl rfl, hzero _⟩
  | some bytes =>
    by_cases hsize : obj.ty.size > 0
    · refine .inl ⟨bytes, rfl, hsize, ?_⟩
      dsimp only
      rw [if_pos hsize, buildInt_initType]
    · refine .inr ⟨.inr (Nat.eq_zero_of_not_pos hsize), ?_⟩
      dsimp only
      rw [if_neg hsize]
      exact hzero _

theorem contents_eq_of_initData {bytes : List UInt8} (h : obj.initData = some bytes) :
    obj.contents = bytes ∧ bytes.length = obj.ty.size := by
  refine ⟨?_, obj.length_initData bytes h⟩
  rw [Obj.contents, h, getD_some]

theorem length_contents (obj : Obj) : obj.contents.length = obj.ty.size := by
  cases h : obj.initData with
  | none => rw [Obj.contents, h, getD_none, length_replicate]
  | some bytes =>
    obtain ⟨hcontents, hlength⟩ := contents_eq_of_initData h
    rw [hcontents, hlength]

theorem contents_eq_zeros (h : obj.initData = none ∨ obj.ty.size = 0) :
    obj.contents = replicate obj.ty.size 0 := by
  rcases h with h | h
  · rw [Obj.contents, h, getD_none]
  · have hnil := length_contents obj
    rw [h] at hnil ⊢
    exact length_eq_zero_iff.mp hnil

theorem sectionType_of_zeros (h : obj.contents = replicate obj.ty.size 0) :
    obj.sectionType = .NonInitialized :=
  if_pos (by
    rw [h, List.all_eq_true]
    exact fun b hb => decide_eq_true (List.eq_of_mem_replicate hb))

/-- Zeros fill the storage behind an object of zeros. -/
theorem zeros_eq {n size : ℕ} (h : size ≤ n) :
    replicate n (0 : UInt8) = replicate size 0 ++ replicate (n - size) 0 := by
  rw [replicate_append_replicate, Nat.add_sub_cancel' h]

theorem gvSize_of_initialised {bytes : List UInt8} (hinit : obj.initData = some bytes)
    (hlowered : (lowerGlobal pointerBitWidth obj).initializer =
      some (.integer (initType (mapType pointerBitWidth obj.ty) (obj.ty.size * 8))
        (FlexInt.readBytes bytes (obj.ty.size * 8)))) (hsize : obj.ty.size > 0) :
    (lowerGlobal pointerBitWidth obj).gvSize = obj.storage pointerBitWidth := by
  have htype : (lowerGlobal pointerBitWidth obj).type = mapType pointerBitWidth obj.ty := rfl
  have hbytes : (obj.ty.size * 8 + 7) / 8 = obj.ty.size := by omega
  have hmax : ∀ n : ℕ, (if obj.ty.size * 8 > 0 ∧ obj.ty.size > n then obj.ty.size else n) =
      max n obj.ty.size := by
    intro n
    split <;> omega
  unfold MirGlobalVar.gvSize Obj.storage
  simp only [hlowered, htype, hinit, Initializer.type, totalSizeInBits_initType, hbytes, hmax,
    isSome_some, if_true]

theorem gvSize_of_zero (hinit : obj.initData = none ∨ obj.ty.size = 0)
    (hlowered : (lowerGlobal pointerBitWidth obj).initializer = none ∨
      ∃ width, (lowerGlobal pointerBitWidth obj).initializer =
        some (.integer (mapType pointerBitWidth obj.ty) ⟨0, width, true⟩)) :
    (lowerGlobal pointerBitWidth obj).gvSize = obj.storage pointerBitWidth := by
  have htype : (lowerGlobal pointerBitWidth obj).type = mapType pointerBitWidth obj.ty := rfl
  have hstorage : obj.storage pointerBitWidth =
      if ((mapType pointerBitWidth obj.ty).totalSizeInBits + 7) / 8 = 0 then 8
      else ((mapType pointerBitWidth obj.ty).totalSizeInBits + 7) / 8 := by
    unfold Obj.storage
    rcases hinit with hinit | hinit
    · rw [hinit]
      rfl
    · simp only [hinit, max_zero, ite_self]
  rw [hstorage]
  unfold MirGlobalVar.gvSize
  rcases hlowered with hlowered | ⟨width, hlowered⟩
  · simp only [hlowered, htype]
  · simp only [hlowered, htype, Initializer.type, gt_iff_lt, lt_irrefl, and_false, if_false]

variable (pointerBitWidth) in
theorem lowered (hdef : obj.isDefinition = true) :
    (lowerGlobal pointerBitWidth obj).gvSize = obj.storage pointerBitWidth ∧
      (lowerGlobal pointerBitWidth obj).targetSecType = obj.sectionType ∧
      (obj.ty.size ≤ obj.storage pointerBitWidth → (lowerGlobal pointerBitWidth obj).bytes =
          obj.contents ++ replicate (obj.storage pointerBitWidth - obj.ty.size) 0) := by
  have hconstant : (lowerGlobal pointerBitWidth obj).isConstant = false := rfl
  have hcases := @initializer_cases pointerBitWidth obj hdef
  rcases hcases with ⟨bytes, hinit, hsize, hlowered⟩ | ⟨hinit, hlowered⟩
  · obtain ⟨hcontents, hlength⟩ := contents_eq_of_initData hinit
    have hgvSize := gvSize_of_initialised hinit hlowered hsize
    have hzero := FlexInt.isZero_readBytes bytes
    rw [hlength] at hzero
    have hsection : (lowerGlobal pointerBitWidth obj).targetSecType = obj.sectionType := by
      unfold MirGlobalVar.targetSecType Obj.sectionType
      rw [hconstant, hlowered, hcontents]
      dsimp only [Initializer.isZero]
      simp only [hzero, Bool.false_eq_true, if_false, List.all_eq_true, decide_eq_true_eq]
    refine ⟨hgvSize, hsection, fun hfits => ?_⟩
    unfold MirGlobalVar.bytes
    rw [hsection, hgvSize]
    by_cases hall : (obj.contents.all fun b => decide (b = 0)) = true
    · have hreplicate : obj.contents = List.replicate obj.ty.size 0 := by
        rw [← length_contents]
        exact List.eq_replicate_of_mem fun b hb =>
          of_decide_eq_true (List.all_eq_true.mp hall b hb)
      rw [if_pos (sectionType_of_zeros hreplicate), hreplicate]
      exact zeros_eq hfits
    · have hdata : obj.sectionType = .Data := if_neg hall
      rw [hdata, if_neg (by decide), hlowered]
      dsimp only [Initializer.writeBytes]
      rw [hcontents, ← hlength]
      exact FlexInt.writeBytes_readBytes bytes (hlength ▸ hfits)
  · have hzeros := contents_eq_zeros hinit
    have hgvSize := gvSize_of_zero hinit hlowered
    have hsection : (lowerGlobal pointerBitWidth obj).targetSecType = .NonInitialized := by
      unfold MirGlobalVar.targetSecType
      rw [hconstant]
      rcases hlowered with hlowered | ⟨width, hlowered⟩
      · rw [hlowered]
        rfl
      · rw [hlowered]
        rfl
    refine ⟨hgvSize, hsection.trans (sectionType_of_zeros hzeros).symm, fun hfits => ?_⟩
    unfold MirGlobalVar.bytes
    rw [if_pos hsection, hgvSize, hzeros]
    exact zeros_eq hfits

theorem length_bytes (gvar : MirGlobalVar) : gvar.bytes.length = gvar.gvSize := by
  unfold MirGlobalVar.bytes
  split
  · exact length_replicate
  · split
    · next init _ =>
        cases init with
        | integer type value => exact (length_map _).trans length_range
        | floatingPoint type isZero bits => exact length_leBytes _ _
    · exact length_replicate

theorem storage_pos (pointerBitWidth : ℕ) (obj : Obj) : 0 < obj.storage pointerBitWidth := by
  unfold Obj.storage
  dsimp only
  split <;> split <;> omega

theorem sectionType_eq (obj : Obj) :
    obj.sectionType = .NonInitialized ∨ obj.sectionType = .Data := by
  unfold Obj.sectionType
  split
  · exact .inl rfl
  · exact .inr rfl

variable (desc pointerBitWidth) in
theorem room_lowered (hdef : obj.isDefinition = true) :
    (lowerGlobal pointerBitWidth obj).room desc = desc.sectionOf obj.sectionType := by
  have hdecl : (lowerGlobal pointerBitWidth obj).isDeclaration = false := by
    change (!obj.isDefinition) = false
    rw [hdef]
    rfl
  have hsome : (desc.sectionOf obj.sectionType).isSome = true := by
    rcases sectionType_eq obj with h | h
    · rw [h]
      exact desc.hasNonInitialized
    · rw [h]
      exact desc.hasData
  unfold MirGlobalVar.room BinaryDesc.targetSection
  rw [hdecl, (lowered pointerBitWidth hdef).2.1, if_neg Bool.false_ne_true]
  exact or_of_isSome hsome

variable (desc pointerBitWidth) in
theorem room_declared (hdef : ¬ obj.isDefinition = true) :
    (lowerGlobal pointerBitWidth obj).room desc = none := by
  refine if_pos ?_
  change (!obj.isDefinition) = true
  rw [Bool.not_eq_true] at hdef
  rw [hdef]
  rfl

theorem behind_lowered (hdef : obj.isDefinition = true) (off : ℕ) :
    (lowerGlobal pointerBitWidth obj).block.start off = obj.place pointerBitWidth off ∧
      (lowerGlobal pointerBitWidth obj).block.behind off =
        obj.place pointerBitWidth off + obj.storage pointerBitWidth := by
  have hsize := (lowered pointerBitWidth hdef).1
  have hpos := storage_pos pointerBitWidth obj
  have halign : (lowerGlobal pointerBitWidth obj).align = min (obj.storage pointerBitWidth) 16 := by
    unfold MirGlobalVar.align
    rw [hsize]
    exact if_neg (by omega)
  have hstart : (lowerGlobal pointerBitWidth obj).block.start off =
      obj.place pointerBitWidth off := by
    unfold AlignedBlock.start MirGlobalVar.block Obj.place
    dsimp only
    rw [halign]
  refine ⟨hstart, ?_⟩
  rw [AlignedBlock.behind, hstart]
  congr 1
  exact (length_bytes _).trans hsize

/-- The room in front of a global is that of the objects in front of it. -/
theorem endOf_lowered (desc : BinaryDesc) (pointerBitWidth k : ℕ) (objs : List Obj) :
    endOf desc k (lowerAstToMir pointerBitWidth objs) = roomOf desc pointerBitWidth k objs := by
  unfold endOf roomOf lowerAstToMir
  induction objs using reverseRecOn with
  | nil => rfl
  | append_singleton objs obj ih =>
    rw [map_append, filter_append, map_append, place_append, ih, filter_append, foldl_append]
    by_cases hdef : obj.isDefinition = true
    · have hroom := room_lowered desc pointerBitWidth hdef
      by_cases hk : desc.sectionOf obj.sectionType = some k
      · rw [map_singleton, filter_singleton, filter_singleton,
          decide_eq_true (hroom.trans hk), decide_eq_true ⟨hdef, hk⟩]
        exact (behind_lowered hdef _).2
      · rw [map_singleton, filter_singleton, filter_singleton,
          decide_eq_false (hroom ▸ hk), decide_eq_false fun h => hk h.2]
        rfl
    · have hroom := room_declared desc pointerBitWidth hdef
      rw [map_singleton, filter_singleton, filter_singleton,
        decide_eq_false (by rw [hroom]; exact nofun), decide_eq_false fun h => hdef h.1]
      rfl

end

/-! ## The emitted module -/

section

variable {desc : BinaryDesc} {pointerBitWidth : ℕ} {textRelocs : List TextRelocation}

theorem dataRelocs_emitModule (gvars : List MirGlobalVar) :
    dataRelocs (emitModule desc gvars textRelocs) = [] := by
  unfold dataRelocs emitModule
  dsimp only
  rw [map_eq_nil_iff, filter_eq_nil_iff]
  intro r hr
  obtain ⟨reloc, -, hreloc⟩ := mem_filterMap.mp hr
  unfold objectReloc at hreloc
  split at hreloc
  -- Block references leave no relocation, the others one of the text section.
  all_goals first
    | (obtain rfl := some.inj hreloc
       exact Bool.false_ne_true)
    | cases hreloc

variable {objs after before : List Obj} {obj : Obj}

theorem expectedRelocs_eq_nil_iff {symbols : List ObjectSymbol}
    (hlength : symbols.length = objs.length) :
    expectedRelocs objs symbols = [] ↔ ∀ obj ∈ objs, obj.HasStorage → obj.rel = [] := by
  unfold expectedRelocs
  rw [flatMap_eq_nil_iff]
  constructor
  · intro hall obj hobj hstorage
    obtain ⟨i, hi, rfl⟩ := mem_iff_getElem.mp hobj
    have hmem : (objs[i], symbols[i]) ∈ objs.zip symbols := by
      rw [mem_iff_getElem]
      exact ⟨i, by simpa [hlength] using hi, getElem_zip⟩
    have hnil := hall _ hmem
    rw [if_pos hstorage, map_eq_nil_iff] at hnil
    exact hnil
  · intro hall p hp
    split
    · next hstorage =>
        rw [hall p.1 (of_mem_zip hp).1 hstorage]
        rfl
    · rfl

/-- What the module has of an object and those in front of it. -/
theorem emitModule_symbol :
    (emitModule desc (lowerAstToMir pointerBitWidth (before ++ obj :: after))
        textRelocs).symbols[before.length]? =
      some ((lowerGlobal pointerBitWidth obj).symbol desc
        (lowerAstToMir pointerBitWidth before)) := by
  have hemitted : Emitted desc _ _ :=
    emitted_emitGlobals (lowerAstToMir pointerBitWidth (before ++ obj :: after))
  have hlength : (lowerAstToMir pointerBitWidth before).length = before.length :=
    length_map _
  have hsymbol := hemitted.symbols (lowerAstToMir pointerBitWidth before)
    (lowerGlobal pointerBitWidth obj) (lowerAstToMir pointerBitWidth after)
    (map_append.trans (congrArg _ map_cons))
  rwa [hlength] at hsymbol

theorem emitModule_section (gvars : List MirGlobalVar) (k : ℕ) :
    ((emitModule desc gvars textRelocs).sections k).getData = sectionImage desc k gvars ∧
      ((emitModule desc gvars textRelocs).sections k).alignment = (desc.sections k).alignment := by
  have hemitted : Emitted desc _ _ := emitted_emitGlobals gvars
  exact ⟨(hemitted.image k).getData_finalize, hemitted.alignment k⟩

theorem symbol_lowered {obj : Obj} (hdef : obj.isDefinition = true) {before : List Obj} {k : ℕ}
    (hk : desc.sectionOf obj.sectionType = some k) :
    let sym := (lowerGlobal pointerBitWidth obj).symbol desc (lowerAstToMir pointerBitWidth before)
    sym.section_ = obj.sectionType ∧ sym.size = obj.storage pointerBitWidth ∧
      sym.offset = obj.place pointerBitWidth (roomOf desc pointerBitWidth k before) := by
  have hdecl : (lowerGlobal pointerBitWidth obj).isDeclaration = false := by
    change (!obj.isDefinition) = false
    rw [hdef]
    rfl
  have hroom := (room_lowered desc pointerBitWidth hdef).trans hk
  obtain ⟨hsize, hsection, -⟩ := lowered pointerBitWidth hdef
  refine ⟨?_, ?_, ?_⟩
  · simp [MirGlobalVar.symbol, hdecl, hsection]
  · simp [MirGlobalVar.symbol, hdecl, hsize]
  · simp only [MirGlobalVar.symbol, hroom, (behind_lowered hdef _).1, endOf_lowered]

theorem exists_split {α : Type*} {l : List α} {i : ℕ} {a : α} (h : l[i]? = some a) :
    ∃ before after, l = before ++ a :: after ∧ before.length = i := by
  obtain ⟨hi, rfl⟩ := List.getElem?_eq_some_iff.mp h
  refine ⟨l.take i, l.drop (i + 1), ?_, length_take_of_le (le_of_lt hi)⟩
  rw [← drop_eq_getElem_cons hi, take_append_drop]

theorem exists_section (desc : BinaryDesc) (obj : Obj) :
    ∃ k, desc.sectionOf obj.sectionType = some k := by
  rw [← isSome_iff_exists]
  rcases sectionType_eq obj with heq | heq
  · rw [heq]
    exact desc.hasNonInitialized
  · rw [heq]
    exact desc.hasData

theorem slice_of_le {buf : List UInt8} {off n m : ℕ} (h : n ≤ m) :
    slice buf off n = (slice buf off m).take n := by
  unfold slice
  rw [take_take, min_eq_left h]

/-- A defined object that fits has its bytes at the place of its symbol. -/
theorem slice_lowered {k : ℕ} (hdef : obj.isDefinition = true)
    (hfits : obj.ty.size ≤ obj.storage pointerBitWidth)
    (hk : desc.sectionOf obj.sectionType = some k) :
    slice (sectionImage desc k (lowerAstToMir pointerBitWidth (before ++ obj :: after)))
      ((lowerGlobal pointerBitWidth obj).symbol desc
        (lowerAstToMir pointerBitWidth before)).offset obj.ty.size = obj.contents := by
  obtain ⟨hsize, -, hbytes⟩ := lowered pointerBitWidth hdef
  have hsplit : lowerAstToMir pointerBitWidth (before ++ obj :: after) =
      lowerAstToMir pointerBitWidth before ++
        lowerGlobal pointerBitWidth obj :: lowerAstToMir pointerBitWidth after :=
    map_append.trans (congrArg _ map_cons)
  have hlength := length_bytes (lowerGlobal pointerBitWidth obj)
  rw [hsize] at hlength
  rw [hsplit, slice_of_le (hlength ▸ hfits),
    slice_sectionImage ((room_lowered desc pointerBitWidth hdef).trans hk), hbytes hfits,
    ← length_contents, take_left]

theorem EmitsGlobals.liesAt (h : EmitsGlobals desc (emitModule desc (lowerAstToMir pointerBitWidth
      (before ++ obj :: after)) textRelocs) (before ++ obj :: after)) (hstorage : obj.HasStorage) :
    ∃ k, obj.isDefinition = true ∧ desc.sectionOf obj.sectionType = some k ∧
      LiesAt desc (emitModule desc (lowerAstToMir pointerBitWidth (before ++ obj :: after))
          textRelocs) obj
        ((lowerGlobal pointerBitWidth obj).symbol desc
          (lowerAstToMir pointerBitWidth before)) k := by
  obtain ⟨sym, k, hsym, hlies⟩ := h.placed before.length obj (by simp) hstorage
  rw [emitModule_symbol] at hsym
  obtain rfl := some.inj hsym
  have hsection := hlies.sectionOf
  have hdef : obj.isDefinition = true := by
    by_contra hdef
    have hdecl : (lowerGlobal pointerBitWidth obj).isDeclaration = true := by
      change (!obj.isDefinition) = true
      rw [Bool.not_eq_true] at hdef
      rw [hdef]
      rfl
    simp [MirGlobalVar.symbol, hdecl, desc.noUndefined] at hsection
  obtain ⟨k', hk'⟩ := exists_section desc obj
  rw [(symbol_lowered hdef hk').1, hk'] at hsection
  obtain rfl := some.inj hsection
  exact ⟨k', hdef, hk', hlies⟩

theorem length_symbols (objs : List Obj) :
    (emitModule desc (lowerAstToMir pointerBitWidth objs) textRelocs).symbols.length =
      objs.length := by
  have hemitted : Emitted desc _ _ :=
    emitted_emitGlobals (lowerAstToMir pointerBitWidth objs)
  exact hemitted.length_symbols.trans (length_map _)

theorem EmitsGlobals.emittable
    (h : EmitsGlobals desc (emitModule desc (lowerAstToMir pointerBitWidth objs) textRelocs) objs) :
    Emittable desc pointerBitWidth objs where
  defined obj hobj hstorage := by
    obtain ⟨before, after, rfl⟩ := append_of_mem hobj
    obtain ⟨k, hdef, -⟩ := h.liesAt hstorage
    exact hdef
  noRelocs := by
    rw [← expectedRelocs_eq_nil_iff (length_symbols objs)]
    have hrelocs := h.relocs
    rw [dataRelocs_emitModule] at hrelocs
    exact hrelocs.symm.eq_nil
  fits obj hobj hstorage := by
    obtain ⟨before, after, rfl⟩ := append_of_mem hobj
    obtain ⟨k, hdef, hk, hat⟩ := h.liesAt hstorage
    have hfits := hat.fits
    rwa [(symbol_lowered hdef hk).2.1] at hfits
  aligned before obj after hsplit hstorage k hk := by
    subst hsplit
    obtain ⟨k', hdef, hk', hat⟩ := h.liesAt hstorage
    obtain rfl := some.inj (hk'.symm.trans hk)
    have haligned := hat.aligned
    rw [(emitModule_section _ k').2, (symbol_lowered hdef hk).2.2] at haligned
    -- The section may be loaded at zero or at its own alignment.
    have hplace := haligned 0 (dvd_zero _)
    rw [zero_add] at hplace
    exact ⟨(Nat.dvd_add_left hplace).mp (haligned _ (Nat.dvd_refl _)), hplace⟩

theorem Emittable.liesAt {before after : List Obj} {obj : Obj}
    (h : Emittable desc pointerBitWidth (before ++ obj :: after)) (hstorage : obj.HasStorage) :
    ∃ k, LiesAt desc (emitModule desc (lowerAstToMir pointerBitWidth (before ++ obj :: after))
        textRelocs) obj
      ((lowerGlobal pointerBitWidth obj).symbol desc (lowerAstToMir pointerBitWidth before)) k := by
  have hmem : obj ∈ before ++ obj :: after := mem_append_right _ (mem_cons_self ..)
  have hdef := h.defined obj hmem hstorage
  obtain ⟨k, hk⟩ := exists_section desc obj
  obtain ⟨hsection, hsize, hoffset⟩ :=
    @symbol_lowered desc pointerBitWidth obj hdef before k hk
  obtain ⟨halign, hplace⟩ := h.aligned before obj after rfl hstorage k hk
  have hfits := h.fits obj hmem hstorage
  refine ⟨k, ?_, ?_, ?_, ?_⟩
  · rw [hsection, hk]
  · rwa [hsize]
  · intro base hbase
    rw [(emitModule_section _ k).2] at hbase
    rw [hoffset]
    exact dvd_add (dvd_trans halign hbase) hplace
  · rw [(emitModule_section _ k).1]
    exact slice_lowered hdef hfits hk

theorem disjoint_lowered {between : List Obj} {obj' : Obj} (hdef : obj.isDefinition = true)
    (hdef' : obj'.isDefinition = true)
    (hshared : desc.sectionOf obj.sectionType = desc.sectionOf obj'.sectionType) :
    let sym := (lowerGlobal pointerBitWidth obj).symbol desc (lowerAstToMir pointerBitWidth before)
    sym.offset + sym.size ≤ ((lowerGlobal pointerBitWidth obj').symbol desc
      (lowerAstToMir pointerBitWidth (before ++ obj :: between))).offset := by
  obtain ⟨k, hk⟩ := exists_section desc obj
  have hroom := (room_lowered desc pointerBitWidth hdef).trans hk
  have hroom' := (room_lowered desc pointerBitWidth hdef').trans (hshared.symm.trans hk)
  have hsize : ((lowerGlobal pointerBitWidth obj).symbol desc
      (lowerAstToMir pointerBitWidth before)).size =
        (lowerGlobal pointerBitWidth obj).bytes.length := by
    rw [(symbol_lowered hdef hk).2.1, length_bytes, (lowered pointerBitWidth hdef).1]
  have hsplit : lowerAstToMir pointerBitWidth (before ++ obj :: between) =
      lowerAstToMir pointerBitWidth before ++
        lowerGlobal pointerBitWidth obj :: lowerAstToMir pointerBitWidth between :=
    map_append.trans (congrArg _ map_cons)
  dsimp only
  rw [hsize, hsplit]
  exact behind_le_offset hroom hroom'

theorem Emittable.emitsGlobals (h : Emittable desc pointerBitWidth objs) :
    EmitsGlobals desc (emitModule desc (lowerAstToMir pointerBitWidth objs) textRelocs)
      objs where
  placed i obj hobj hstorage := by
    obtain ⟨before, after, rfl, rfl⟩ := exists_split hobj
    obtain ⟨k, hlies⟩ := h.liesAt hstorage
    exact ⟨_, k, emitModule_symbol, hlies⟩
  disjoint i j obj obj' sym sym' hij hobj hobj' hstorage hstorage' hsym hsym' hshared := by
    obtain ⟨before, rest, rfl, rfl⟩ := exists_split hobj
    have hrest : rest[j - before.length - 1]? = some obj' := by
      rw [getElem?_append_right (le_of_lt hij)] at hobj'
      rwa [← getElem?_cons_succ (a := obj), Nat.sub_add_cancel (by omega)]
    obtain ⟨between, after, rfl, hlength⟩ := exists_split hrest
    have hassoc : before ++ obj :: (between ++ obj' :: after) =
        (before ++ obj :: between) ++ obj' :: after := by simp
    have hj : j = (before ++ obj :: between).length := by
      simp
      omega
    subst hj
    rw [emitModule_symbol] at hsym
    rw [hassoc, emitModule_symbol] at hsym'
    obtain rfl := some.inj hsym
    obtain rfl := some.inj hsym'
    have hdef := h.defined obj (by simp) hstorage
    have hdef' := h.defined obj' (by simp) hstorage'
    obtain ⟨k, hk⟩ := exists_section desc obj
    obtain ⟨k', hk'⟩ := exists_section desc obj'
    rw [(symbol_lowered hdef hk).1, (symbol_lowered hdef' hk').1] at hshared
    exact .inl (disjoint_lowered hdef hdef' hshared)
  relocs := by
    rw [dataRelocs_emitModule, (expectedRelocs_eq_nil_iff (length_symbols objs)).mpr h.noRelocs]

/-- A unit is emitted right exactly when it is emittable. -/
theorem emitsGlobals_iff (desc : BinaryDesc) (pointerBitWidth : ℕ)
    (textRelocs : List TextRelocation) (objs : List Obj) :
    EmitsGlobals desc (emitModule desc (lowerAstToMir pointerBitWidth objs) textRelocs) objs ↔
      Emittable desc pointerBitWidth objs :=
  ⟨EmitsGlobals.emittable, Emittable.emitsGlobals⟩

end

/-! ## A pointer -/

/-- The sections that are made for an ELF file. -/
def elfDesc : BinaryDesc where
  objectFormat := .ELF
  sectionOf
    | .Text => some 0
    | .ReadOnly | .CString | .Const4 | .Const8 | .Const16AndBigger => some 1
    | .ReadOnlyWithRel => some 2
    | .Data | .DataWithRel => some 3
    | .NonInitialized => some 4
    | .Custom => some 5
    | .Undefined => none
  sections
    | 0 => .new .Text 16 .Little 0x90
    | 1 => .new .ReadOnly 16 .Little 0
    | 2 => .new .ReadOnlyWithRel 8 .Little 0
    | 3 => .new .Data 8 .Little 0
    | 4 => .new .NonInitialized 8 .Little 0
    | _ => .new .Custom 8 .Little 0
  isFresh k := by
    split <;> exact ⟨_, _, _, _, rfl⟩
  hasData := rfl
  hasReadOnly := rfl
  hasNonInitialized := rfl
  noUndefined := rfl

/-- `int x; int *p = &x;`, the last object first. -/
def pointerUnit : List Obj :=
  [{ name := "p"
     ty := .derived .PTR 8 0 (.basic .INT 4)
     align := 8
     isDefinition := true
     isStatic := false
     initData := some (replicate 8 0)
     rel := [⟨0, "x", 0⟩]
     length_initData := by
       intro bytes hbytes
       rw [← some.inj hbytes]
       rfl },
    { name := "x"
      ty := .basic .INT 4
      align := 4
      isDefinition := true
      isStatic := false
      initData := none
      rel := []
      length_initData := nofun }]

/-- The pointer has no relocation. -/
theorem pointerUnit_not_emitted :
    ¬ EmitsGlobals elfDesc (emitModule elfDesc (lowerAstToMir 64 pointerUnit) []) pointerUnit := by
  intro h
  exact absurd (h.emittable.noRelocs _ (mem_cons_self ..) (.inl rfl)) (cons_ne_nil _ _)

end EzPacker.Globals
