import EzPacker.Lib.Bytes
import EzPacker.Lib.Placement
import EzPacker.Lib.Run

/-!
# Code sections

A `CodeSection` is a stream of nodes, written at a cursor: data chunks, label
markers and alignment directives. The doubly linked node list is kept split at
the cursor, as the nodes in front of it (`before`), the cursor node itself and
the nodes behind it (`after`), so that a section always has a cursor node. Node
addresses are numbers handed out by `nextNode`.

The offset of the cursor is maintained incrementally by the emit and align
operations and recomputed from the head of the stream when the cursor is moved;
`finalize` flattens the stream and resolves the label offsets in one pass.
-/

namespace EzPacker.Object

open AlignedBlock

/-- Output section classification. -/
inductive SectionType
  | Text | ReadOnly | ReadOnlyWithRel | CString | Const4 | Const8
  | Const16AndBigger | Data | DataWithRel | NonInitialized | Custom | Undefined
  deriving DecidableEq, Repr

/-- Byte order of the multi-byte emit helpers. -/
inductive TargetEndianness
  | Little | Big
  deriving DecidableEq, Repr

/-- Payload of a stream node: a chunk of bytes, a label marker with the offset
that `finalize` resolves, or an alignment directive with its fill byte. -/
inductive SectionNodeKind
  | data (bytes : List UInt8)
  | label (labelId : ℕ) (calculatedOffset : ℕ)
  | align (alignment : ℕ) (padByte : UInt8)
  deriving DecidableEq, Repr

/-- A stream node with its address. -/
structure SectionNode where
  node : ℕ
  kind : SectionNodeKind
  deriving DecidableEq, Repr

/-- The offset behind the padding that an alignment directive inserts at `off`. -/
def padded (alignment off : ℕ) : ℕ :=
  if alignment > 1 then
    if off % alignment ≠ 0 then off + (alignment - off % alignment) else off
  else off

theorem padded_eq_alignUp (alignment off : ℕ) : padded alignment off = alignUp alignment off := by
  unfold padded
  split
  · next h =>
      have ha : alignment ≠ 0 := by omega
      split
      · next hmod => rw [alignUp.eq_add_sub_mod hmod ha]
      · next hmod =>
          rw [alignUp.of_dvd (Nat.dvd_of_mod_eq_zero (not_not.mp hmod))]
  · next h =>
      have hcases : alignment = 0 ∨ alignment = 1 := by omega
      rcases hcases with rfl | rfl <;> simp

namespace SectionNode

/-- The offset behind the node when it starts at `off`. -/
def advance (n : SectionNode) (off : ℕ) : ℕ :=
  match n.kind with
  | .data bytes => off + bytes.length
  | .label _ _ => off
  | .align alignment _ => padded alignment off

/-- The bytes the node contributes to the flattened section at `off`. -/
def expand (n : SectionNode) (off : ℕ) : List UInt8 :=
  match n.kind with
  | .data bytes => bytes
  | .label _ _ => []
  | .align alignment padByte =>
    List.replicate (padded alignment off - off) padByte

/-- The node with its label offset resolved, when it is a label. -/
def resolve (n : SectionNode) (off : ℕ) : SectionNode :=
  match n.kind with
  | .label labelId _ => { n with kind := .label labelId off }
  | _ => n

/-- The node is a data chunk that holds at least one byte. -/
def hasBytes (n : SectionNode) : Bool :=
  match n.kind with
  | .data bytes => !bytes.isEmpty
  | _ => false

theorem le_advance (n : SectionNode) (off : ℕ) : off ≤ n.advance off := by
  unfold advance
  split
  · exact Nat.le_add_right _ _
  · exact le_rfl
  · rw [padded_eq_alignUp]
    exact alignUp.le_alignUp _ _

theorem advance_mono (n : SectionNode) : Monotone n.advance := by
  intro a b hab
  unfold advance
  split
  · exact Nat.add_le_add_right hab _
  · exact hab
  · rw [padded_eq_alignUp, padded_eq_alignUp]
    exact alignUp.mono _ hab

theorem length_expand (n : SectionNode) (off : ℕ) :
    off + (n.expand off).length = n.advance off := by
  have hle := n.le_advance off
  unfold expand advance at *
  split <;> simp_all

end SectionNode

def flatten : ℕ → List SectionNode → List UInt8
  | _, [] => []
  | off, n :: ns => n.expand off ++ flatten (n.advance off) ns

theorem flatten_append (off : ℕ) (ms ns : List SectionNode) : flatten off (ms ++ ns) =
      flatten off ms ++ flatten (place SectionNode.advance off ms) ns := by
  induction ms generalizing off with
  | nil => rfl
  | cons m ms ih => simp [flatten, ih]

theorem length_flatten (off : ℕ) (ns : List SectionNode) :
    off + (flatten off ns).length = place SectionNode.advance off ns := by
  induction ns generalizing off with
  | nil => rfl
  | cons n ns ih =>
    have hn := n.length_expand off
    rw [flatten, List.length_append, ← Nat.add_assoc, hn, ih, place_cons]

def resolveLabels : ℕ → List SectionNode → List SectionNode
  | _, [] => []
  | off, n :: ns => n.resolve off :: resolveLabels (n.advance off) ns

/-- An output section with its node stream split at the cursor. -/
structure CodeSection where
  type : SectionType
  alignment : ℕ
  endianness : TargetEndianness
  padByte : UInt8
  isFinalized : Bool
  before : List SectionNode
  cursor : SectionNode
  after : List SectionNode
  cursorOffset : ℕ
  buffer : List UInt8
  nextNode : ℕ
  deriving DecidableEq, Repr

namespace CodeSection

/-- A fresh section, seeded with one empty data node. -/
def new (type : SectionType) (alignment : ℕ) (endianness : TargetEndianness)
    (padByte : UInt8) : CodeSection where
  type := type
  alignment := alignment
  endianness := endianness
  padByte := padByte
  isFinalized := false
  before := []
  cursor := ⟨0, .data []⟩
  after := []
  cursorOffset := 0
  buffer := []
  nextNode := 1

/-- The node stream from head to tail. -/
def nodes (sec : CodeSection) : List SectionNode :=
  sec.before ++ sec.cursor :: sec.after

/-- The nodes from the head up to and including the cursor. -/
def front (sec : CodeSection) : List SectionNode :=
  sec.before ++ [sec.cursor]

/-- Replays the stream from the head up to and including the cursor node. -/
def computeOffsetTo (front : List SectionNode) : ℕ :=
  place SectionNode.advance 0 front

/-- Links a new node behind the cursor and moves the cursor to it. -/
def insertNodeAfter (sec : CodeSection) (kind : SectionNodeKind) : CodeSection :=
  { sec with
    before := sec.before ++ [sec.cursor]
    cursor := ⟨sec.nextNode, kind⟩
    nextNode := sec.nextNode + 1 }

/-- Inserts a label marker; its offset is resolved by `finalize`. -/
def bindLabel (sec : CodeSection) (labelId : ℕ) : CodeSection :=
  sec.insertNodeAfter (.label labelId 0)

/-- Inserts an alignment directive and moves the running offset past the padding. -/
def alignTo (sec : CodeSection) (alignment : ℕ) : CodeSection :=
  { sec.insertNodeAfter (.align alignment sec.padByte) with
    cursorOffset := padded alignment sec.cursorOffset }

/-- Appends bytes to the active data buffer: the cursor's own buffer when it is a
data node, a new data node behind it otherwise. -/
def appendBytes (sec : CodeSection) (bytes : List UInt8) : CodeSection :=
  match sec.cursor.kind with
  | .data old =>
    { sec with
      cursor := { sec.cursor with kind := .data (old ++ bytes) }
      cursorOffset := sec.cursorOffset + bytes.length }
  | _ =>
    { sec.insertNodeAfter (.data bytes) with
      cursorOffset := sec.cursorOffset + bytes.length }

def scalarBytes (sec : CodeSection) (n v : ℕ) : List UInt8 :=
  match sec.endianness with
  | .Little => leBytes n v
  | .Big => (leBytes n v).reverse

def emit8 (sec : CodeSection) (val : UInt8) : CodeSection :=
  sec.appendBytes [val]

def emit16 (sec : CodeSection) (val : UInt16) : CodeSection :=
  sec.appendBytes (sec.scalarBytes 2 val.toNat)

def emit32 (sec : CodeSection) (val : UInt32) : CodeSection :=
  sec.appendBytes (sec.scalarBytes 4 val.toNat)

def emit64 (sec : CodeSection) (val : UInt64) : CodeSection :=
  sec.appendBytes (sec.scalarBytes 8 val.toNat)

/-- An empty span emits nothing and opens no data node. -/
def emitBytes (sec : CodeSection) (data : List UInt8) : CodeSection :=
  if data.isEmpty then sec else sec.appendBytes data

def emitBytesWithEndian (sec : CodeSection) (data : List UInt8)
    (inputEndianness : TargetEndianness) : CodeSection :=
  if data.isEmpty then sec
  else if inputEndianness = sec.endianness then sec.appendBytes data
  else sec.appendBytes data.reverse

/-- Flattens the stream into the output buffer and resolves every label. -/
def finalize (sec : CodeSection) : CodeSection :=
  let atCursor := computeOffsetTo sec.before
  let behind := sec.cursor.advance atCursor
  { sec with
    before := resolveLabels 0 sec.before
    cursor := sec.cursor.resolve atCursor
    after := resolveLabels behind sec.after
    buffer := flatten 0 sec.nodes
    isFinalized := true
    cursorOffset := place SectionNode.advance 0 sec.nodes }

/-- Splits a stream at the node with the given address. -/
def splitAtNode (target : ℕ) :
    List SectionNode → Option (List SectionNode × SectionNode × List SectionNode)
  | [] => none
  | n :: ns =>
    if n.node = target then some ([], n, ns)
    else (splitAtNode target ns).map fun s => (n :: s.1, s.2.1, s.2.2)

/-- The section with the cursor on another node of its own stream. -/
def moveCursor (sec : CodeSection)
    (s : List SectionNode × SectionNode × List SectionNode) : CodeSection :=
  { sec with
    before := s.1
    cursor := s.2.1
    after := s.2.2
    cursorOffset := computeOffsetTo (s.1 ++ [s.2.1]) }

def splitAtTail (sec : CodeSection) : List SectionNode × SectionNode × List SectionNode :=
  match sec.after.getLast? with
  | none => (sec.before, sec.cursor, [])
  | some tail => (sec.before ++ sec.cursor :: sec.after.dropLast, tail, [])

def resetCursorToEnd (sec : CodeSection) : CodeSection :=
  sec.moveCursor sec.splitAtTail

/-- Moves the cursor to a node of the stream, to the tail when none is given. A
node of another section is never passed; the model then leaves the cursor. -/
def setCursor (sec : CodeSection) : Option ℕ → CodeSection
  | none => sec.resetCursorToEnd
  | some target =>
    match splitAtNode target sec.nodes with
    | none => sec
    | some s => sec.moveCursor s

/-- The offset where the next emitted byte lands. -/
def getCurrentOffset (sec : CodeSection) : ℕ :=
  if sec.isFinalized then sec.buffer.length else sec.cursorOffset

/-- The bytes of the finalized section. -/
def getData (sec : CodeSection) : List UInt8 := sec.buffer

end CodeSection

/-!
## The image of a section

A section whose cursor stays at the end is known by the bytes that it flattens to. An
alignment directive and the bytes behind it append an aligned block to them.
-/

namespace CodeSection

/-- An open section, written at its end, that flattens to an image. -/
structure HasImage (sec : CodeSection) (image : List UInt8) : Prop where
  notFinalized : sec.isFinalized = false
  after_eq : sec.after = []
  flatten_eq : flatten 0 sec.nodes = image
  cursorOffset_eq : sec.cursorOffset = image.length

variable {sec : CodeSection} {image : List UInt8}

theorem hasImage_new (type : SectionType) (alignment : ℕ) (endianness : TargetEndianness)
    (padByte : UInt8) : (new type alignment endianness padByte).HasImage [] :=
  ⟨rfl, rfl, rfl, rfl⟩

theorem HasImage.getCurrentOffset (h : sec.HasImage image) :
    sec.getCurrentOffset = image.length := by
  rw [CodeSection.getCurrentOffset, h.notFinalized, h.cursorOffset_eq]
  rfl

theorem HasImage.place_nodes (h : sec.HasImage image) :
    place SectionNode.advance 0 sec.nodes = image.length := by
  rw [← length_flatten, h.flatten_eq, Nat.zero_add]

theorem HasImage.nodes_insertNodeAfter (h : sec.HasImage image) (kind : SectionNodeKind) :
    (sec.insertNodeAfter kind).nodes = sec.nodes ++ [⟨sec.nextNode, kind⟩] := by
  simp [insertNodeAfter, nodes, h.after_eq]

/-- An alignment directive fills up to the next multiple. -/
theorem HasImage.alignTo (h : sec.HasImage image) (alignment : ℕ) : (sec.alignTo alignment).HasImage
      (image ++ List.replicate (alignUp alignment image.length - image.length) sec.padByte) where
  notFinalized := h.notFinalized
  after_eq := h.after_eq
  flatten_eq := by
    have hnodes : (sec.alignTo alignment).nodes =
        sec.nodes ++ [⟨sec.nextNode, .align alignment sec.padByte⟩] :=
      h.nodes_insertNodeAfter _
    rw [hnodes, flatten_append, h.flatten_eq, h.place_nodes, ← padded_eq_alignUp]
    simp [flatten, SectionNode.expand]
  cursorOffset_eq := by
    have hoffset : (sec.alignTo alignment).cursorOffset = padded alignment sec.cursorOffset := rfl
    have hle := alignUp.le_alignUp alignment image.length
    rw [hoffset, h.cursorOffset_eq, padded_eq_alignUp, List.length_append, List.length_replicate]
    omega

theorem HasImage.appendBytes (h : sec.HasImage image) (bytes : List UInt8) :
    (sec.appendBytes bytes).HasImage (image ++ bytes) := by
  have hplace := h.place_nodes
  have hflatten := h.flatten_eq
  have hafter := h.after_eq
  unfold CodeSection.appendBytes
  split
  · next old hkind =>
      -- The cursor's own chunk grows.
      rw [nodes, hafter] at hplace hflatten
      rw [flatten_append] at hflatten
      refine ⟨h.notFinalized, hafter, ?_, ?_⟩
      · rw [nodes, flatten_append, ← hflatten]
        simp [hafter, flatten, SectionNode.expand, hkind]
      · simp [h.cursorOffset_eq]
  · refine ⟨h.notFinalized, hafter, ?_, ?_⟩
    · have hnodes := h.nodes_insertNodeAfter (.data bytes)
      refine Eq.trans (congrArg (flatten 0) hnodes) ?_
      rw [flatten_append, hflatten]
      simp [flatten, SectionNode.expand]
    · simp [h.cursorOffset_eq]

theorem HasImage.emitBytes (h : sec.HasImage image) (bytes : List UInt8) :
    (sec.emitBytes bytes).HasImage (image ++ bytes) := by
  unfold CodeSection.emitBytes
  cases bytes with
  | nil => simpa using h
  | cons b bytes => exact h.appendBytes _

theorem HasImage.getData_finalize (h : sec.HasImage image) :
    sec.finalize.getData = image := h.flatten_eq

theorem HasImage.emitAligned {blocks : List (AlignedBlock UInt8)}
    (h : sec.HasImage (AlignedBlock.layout sec.padByte 0 blocks)) (b : AlignedBlock UInt8) :
    (sec.alignTo b.alignment).getCurrentOffset = b.start (place AlignedBlock.behind 0 blocks) ∧
      ((sec.alignTo b.alignment).emitBytes b.items).HasImage
        (AlignedBlock.layout sec.padByte 0 (blocks ++ [b])) := by
  have hlength : 0 + (layout sec.padByte 0 blocks).length =
      place behind 0 blocks := length_layout 0 blocks
  rw [Nat.zero_add] at hlength
  have halign := h.alignTo b.alignment
  have hstart := b.le_start (place behind 0 blocks)
  unfold start at hstart ⊢
  refine ⟨?_, ?_⟩
  · rw [halign.getCurrentOffset, List.length_append, List.length_replicate, hlength]
    omega
  · have hemit := halign.emitBytes b.items
    rw [hlength] at hemit
    rw [layout_append]
    simpa [layout, start] using hemit

theorem padByte_emitBytes (sec : CodeSection) (alignment : ℕ) (bytes : List UInt8) :
    ((sec.alignTo alignment).emitBytes bytes).padByte = sec.padByte ∧
      ((sec.alignTo alignment).emitBytes bytes).alignment = sec.alignment := by
  unfold CodeSection.emitBytes CodeSection.appendBytes
  split
  · exact ⟨rfl, rfl⟩
  · split <;> exact ⟨rfl, rfl⟩

end CodeSection

/-!
## The emitter context

`CodeEmitterContext` owns the sections, the labels and the relocations of a
module under emission. Sections, labels and relocations are referred to by their
position of allocation, which stands for the pointer of the source.

An emission session is a list of `EmitOp`. The session state keeps, besides the
context, one `EmissionRecord` for every emission: the value `getCurrentOffset` had
when the emission began, which is what relocations and debug records store, and
the place in the node stream its bytes were written to.
-/

inductive TargetCodeRelocationType
  | None | Absolute32 | Absolute64 | PCRel32 | BranchRel32 | GOTPCREL | PLTRel32
  deriving DecidableEq, Repr

structure CodeLabel where
  definingSection : Option ℕ
  node : Option ℕ
  id : ℕ
  labelAddress : ℕ
  name : String
  deriving DecidableEq, Repr

structure CodeRelocation where
  relocType : TargetCodeRelocationType
  definingSection : ℕ
  srcRef : ℕ
  address : ℕ
  deriving DecidableEq, Repr

/-- `sectionOf` maps a section type to the section that holds it; several types
may share one section. -/
structure CodeEmitterContext where
  sectionOf : SectionType → ℕ
  sections : ℕ → CodeSection
  labels : List CodeLabel
  currentLabel : Option ℕ
  currentFuncLabels : List (ℕ × ℕ)
  allLabels : List (ℕ × ℕ)
  currentFuncRelocs : List CodeRelocation
  relocations : List CodeRelocation

/-- The id that marks a label without one. -/
def MIRID_INVALID : ℕ := 2 ^ 64 - 1

namespace CodeEmitterContext

def new (sectionOf : SectionType → ℕ) (sections : ℕ → CodeSection) :
    CodeEmitterContext :=
  ⟨sectionOf, sections, [], none, [], [], [], []⟩

def updateSection (ctx : CodeEmitterContext) (sec : ℕ)
    (f : CodeSection → CodeSection) : CodeEmitterContext :=
  { ctx with sections := Function.update ctx.sections sec (f (ctx.sections sec)) }

def updateLabel (ctx : CodeEmitterContext) (label : ℕ)
    (f : CodeLabel → CodeLabel) : CodeEmitterContext :=
  { ctx with labels := ctx.labels.modify label f }

def getOrCreateLabel (ctx : CodeEmitterContext) (definingSection : Option ℕ)
    (id : ℕ) (name : String) : CodeEmitterContext × ℕ :=
  match ctx.currentFuncLabels.lookup id with
  | some label =>
    (ctx.updateLabel label fun l =>
      if l.definingSection = none then { l with definingSection := definingSection }
      else l, label)
  | none =>
    let newLabel : CodeLabel :=
      { definingSection := definingSection
        node := none
        id := id
        labelAddress := definingSection.elim 0 fun sec =>
          (ctx.sections sec).getCurrentOffset
        name := name }
    let index := ctx.labels.length
    ({ ctx with
        labels := ctx.labels ++ [newLabel]
        currentFuncLabels := (id, index) :: ctx.currentFuncLabels
        allLabels :=
          if id ≠ MIRID_INVALID ∧ ctx.allLabels.lookup id = none then
            (id, index) :: ctx.allLabels
          else ctx.allLabels }, index)

/-- Binds a label at the cursor of its section the first time, and rewinds the
cursor to the label's node when it has been bound before. -/
def bindLabel (ctx : CodeEmitterContext) (label : ℕ) : CodeEmitterContext :=
  let ctx := { ctx with currentLabel := some label }
  match ctx.labels[label]? with
  | none => ctx
  | some l =>
    match l.definingSection with
    | none => ctx
    | some sec =>
      match l.node with
      | none =>
        let fresh := (ctx.sections sec).nextNode
        let ctx := ctx.updateSection sec fun s => s.bindLabel l.id
        ctx.updateLabel label fun l =>
          { l with
            node := some fresh
            labelAddress := (ctx.sections sec).getCurrentOffset }
      | some node => ctx.updateSection sec fun s => s.setCursor (some node)

/-- The section of the current label, the text section when there is none. -/
def getCurrentSection (ctx : CodeEmitterContext) : ℕ :=
  ((ctx.currentLabel.bind fun label => ctx.labels[label]?).bind
    CodeLabel.definingSection).getD (ctx.sectionOf .Text)

def addRelocAt (ctx : CodeEmitterContext) (srcRef : ℕ)
    (relocType : TargetCodeRelocationType) (address : ℕ) : CodeEmitterContext :=
  { ctx with
    currentFuncRelocs := ctx.currentFuncRelocs ++
      [⟨relocType, ctx.getCurrentSection, srcRef, address⟩] }

def addReloc (ctx : CodeEmitterContext) (srcRef : ℕ)
    (relocType : TargetCodeRelocationType) : CodeEmitterContext :=
  ctx.addRelocAt srcRef relocType (ctx.sections ctx.getCurrentSection).getCurrentOffset

def resetFuncState (ctx : CodeEmitterContext) : CodeEmitterContext :=
  { ctx with
    relocations := ctx.relocations ++ ctx.currentFuncRelocs
    currentFuncLabels := []
    currentFuncRelocs := []
    currentLabel := none }

def finalize (ctx : CodeEmitterContext) : CodeEmitterContext :=
  { ctx with sections := fun sec => (ctx.sections sec).finalize }

/-- The resolved offset of the label's node when it has one. -/
def getAddress (ctx : CodeEmitterContext) (l : CodeLabel) : ℕ :=
  match l.definingSection, l.node with
  | some sec, some node =>
    match CodeSection.splitAtNode node (ctx.sections sec).nodes with
    | some (_, ⟨_, .label _ calculatedOffset⟩, _) => calculatedOffset
    | _ => 0
  | _, _ => l.labelAddress

end CodeEmitterContext

/-- The argument of an emit operation. -/
inductive EmitData
  | emit8 (val : UInt8)
  | emit16 (val : UInt16)
  | emit32 (val : UInt32)
  | emit64 (val : UInt64)
  | emitBytes (data : List UInt8)
  | emitBytesWithEndian (data : List UInt8) (inputEndianness : TargetEndianness)
  deriving Repr

def EmitData.bytes (sec : CodeSection) : EmitData → List UInt8
  | emit8 val => [val]
  | emit16 val => sec.scalarBytes 2 val.toNat
  | emit32 val => sec.scalarBytes 4 val.toNat
  | emit64 val => sec.scalarBytes 8 val.toNat
  | emitBytes data => data
  | emitBytesWithEndian data inputEndianness =>
    if inputEndianness = sec.endianness then data else data.reverse

def CodeSection.emit (sec : CodeSection) : EmitData → CodeSection
  | .emit8 val => sec.emit8 val
  | .emit16 val => sec.emit16 val
  | .emit32 val => sec.emit32 val
  | .emit64 val => sec.emit64 val
  | .emitBytes data => sec.emitBytes data
  | .emitBytesWithEndian data e => sec.emitBytesWithEndian data e

/-- Every emit operation appends its bytes, and an empty one does nothing. -/
theorem CodeSection.emit_eq (sec : CodeSection) (d : EmitData) : sec.emit d =
      if (d.bytes sec).isEmpty then sec else sec.appendBytes (d.bytes sec) := by
  have hscalar : ∀ n v, n ≠ 0 → (sec.scalarBytes n v).isEmpty = false := by
    intro n v hn
    have hlen : (sec.scalarBytes n v).length = n := by
      unfold scalarBytes
      split <;> simp
    cases h : sec.scalarBytes n v with
    | nil => simp_all
    | cons b bs => rfl
  cases d with
  | emit8 val => simp [emit, emit8, EmitData.bytes]
  | emit16 val => simp [emit, emit16, EmitData.bytes, hscalar]
  | emit32 val => simp [emit, emit32, EmitData.bytes, hscalar]
  | emit64 val => simp [emit, emit64, EmitData.bytes, hscalar]
  | emitBytes data => rfl
  | emitBytesWithEndian data e =>
    by_cases he : e = sec.endianness
    · simp [emit, emitBytesWithEndian, EmitData.bytes, he]
    · simp [emit, emitBytesWithEndian, EmitData.bytes, he]

/-- One emission: its section, the data node it wrote to and the index of its
first byte there, the offset recorded for it and its bytes. -/
structure EmissionRecord where
  sec : ℕ
  node : ℕ
  index : ℕ
  offset : ℕ
  bytes : List UInt8
  deriving DecidableEq, Repr

inductive EmitOp
  | emit (sec : ℕ) (data : EmitData)
  | alignTo (sec : ℕ) (alignment : ℕ)
  | setCursor (sec : ℕ) (node : Option ℕ)
  | resetCursorToEnd (sec : ℕ)
  | getOrCreateLabel (sec : Option ℕ) (id : ℕ) (name : String)
  | bindLabel (label : ℕ)
  | addReloc (srcRef : ℕ) (relocType : TargetCodeRelocationType)
  | addRelocAt (srcRef : ℕ) (relocType : TargetCodeRelocationType) (address : ℕ)
  | resetFuncState
  deriving Repr

structure EmitState where
  ctx : CodeEmitterContext
  log : List EmissionRecord

def CodeSection.recordAt (sec : CodeSection) (index : ℕ) (bytes : List UInt8) :
    EmissionRecord :=
  match sec.cursor.kind with
  | .data old => ⟨index, sec.cursor.node, old.length, sec.getCurrentOffset, bytes⟩
  | _ => ⟨index, sec.nextNode, 0, sec.getCurrentOffset, bytes⟩

def EmitState.step (s : EmitState) : EmitOp → EmitState
  | .emit sec data =>
    let bytes := data.bytes (s.ctx.sections sec)
    { ctx := s.ctx.updateSection sec fun c => c.emit data
      log := if bytes.isEmpty then s.log
        else s.log ++ [(s.ctx.sections sec).recordAt sec bytes] }
  | .alignTo sec alignment =>
    { s with ctx := s.ctx.updateSection sec fun c => c.alignTo alignment }
  | .setCursor sec node =>
    { s with ctx := s.ctx.updateSection sec fun c => c.setCursor node }
  | .resetCursorToEnd sec =>
    { s with ctx := s.ctx.updateSection sec CodeSection.resetCursorToEnd }
  | .getOrCreateLabel sec id name =>
    { s with ctx := (s.ctx.getOrCreateLabel sec id name).1 }
  | .bindLabel label => { s with ctx := s.ctx.bindLabel label }
  | .addReloc srcRef relocType => { s with ctx := s.ctx.addReloc srcRef relocType }
  | .addRelocAt srcRef relocType address =>
    { s with ctx := s.ctx.addRelocAt srcRef relocType address }
  | .resetFuncState => { s with ctx := s.ctx.resetFuncState }

/-- The session before its first operation, over fresh sections. -/
def EmitState.start (sectionOf : SectionType → ℕ) (type : ℕ → SectionType)
    (alignment : ℕ → ℕ) (endianness : TargetEndianness) (padByte : ℕ → UInt8) :
    EmitState where
  ctx := .new sectionOf fun i => .new (type i) (alignment i) endianness (padByte i)
  log := []

end EzPacker.Object
