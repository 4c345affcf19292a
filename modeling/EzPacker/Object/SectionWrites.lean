import EzPacker.Object.CodeSection

/-!
# Writing at the cursor

What the operations of an emission session do to one section. The cursor is
`Repositioned` within an unchanged stream, or the operation `Extends` the stream at
the cursor: nodes in front of the cursor keep their offsets and nodes behind it are
pushed back. `Writes` adds what an emission records about itself.

The bytes of an `EmissionRecord` are found through the node they were written to;
`EmissionRecord.position` is the offset of that node plus the index in it. A write
never moves a position backwards, and moves none when the first bytes behind the
cursor stay where they are.
-/

namespace EzPacker.Object

open CodeSection SectionNode List

variable {n : SectionNode} {sec : CodeSection}

namespace CodeSection

/-- The offset of the node with the given address. -/
def nodeOffset (id off : ℕ) (ns : List SectionNode) : Option ℕ :=
  offsetOf SectionNode.advance (fun n => n.node == id) off ns

def firstByteOffset (off : ℕ) (ns : List SectionNode) : Option ℕ :=
  offsetOf SectionNode.advance SectionNode.hasBytes off ns

/-- An open section whose running offset is the replayed one and whose nodes have
distinct addresses. -/
structure WellFormed (sec : CodeSection) : Prop where
  notFinalized : sec.isFinalized = false
  cursorOffset_eq : sec.cursorOffset = computeOffsetTo sec.front
  nodup : (sec.nodes.map SectionNode.node).Nodup
  lt_nextNode : ∀ n ∈ sec.nodes, n.node < sec.nextNode

theorem nodes_eq_front_append (sec : CodeSection) : sec.nodes = sec.front ++ sec.after := by
  simp [nodes, front]

theorem wellFormed_new (type : SectionType) (alignment : ℕ)
    (endianness : TargetEndianness) (padByte : UInt8) :
    (new type alignment endianness padByte).WellFormed where
  notFinalized := rfl
  cursorOffset_eq := rfl
  nodup := by simp [new, nodes]
  lt_nextNode := by simp [new, nodes]

/-- The cursor moved within an unchanged stream. -/
structure Repositioned (sec sec' : CodeSection) : Prop where
  nodes_eq : sec'.nodes = sec.nodes
  nextNode_eq : sec'.nextNode = sec.nextNode
  wellFormed : sec'.WellFormed

/-- What an operation that writes at the cursor does to a section: the nodes
behind the cursor are the same, the nodes in front of it keep their offsets, and
chunks only grow at their end. -/
structure Extends (sec sec' : CodeSection) : Prop where
  after_eq : sec'.after = sec.after
  cursorOffset_le : sec.cursorOffset ≤ sec'.cursorOffset
  nodeOffset_eq : ∀ id < sec.nextNode, nodeOffset id 0 sec'.front = nodeOffset id 0 sec.front
  chunk : ∀ id bytes, ⟨id, .data bytes⟩ ∈ sec.nodes →
    ∃ more, ⟨id, .data (bytes ++ more)⟩ ∈ sec'.nodes
  label : ∀ id labelId off, ⟨id, .label labelId off⟩ ∈ sec.nodes →
    ⟨id, .label labelId off⟩ ∈ sec'.nodes
  wellFormed : sec'.WellFormed

theorem Repositioned.refl (h : sec.WellFormed) : Repositioned sec sec := ⟨rfl, rfl, h⟩

variable {ns : List SectionNode}

theorem splitAtNode_nodes {target : ℕ} {s : List SectionNode × SectionNode × List SectionNode}
    (h : splitAtNode target ns = some s) : ns = s.1 ++ s.2.1 :: s.2.2 := by
  induction ns generalizing s with
  | nil => cases h
  | cons n ns ih =>
    by_cases hn : n.node = target
    · have hs : ([], n, ns) = s := by simpa [splitAtNode, hn] using h
      rw [← hs]
      rfl
    · simp only [splitAtNode, hn, if_false, Option.map_eq_some_iff] at h
      obtain ⟨s', hs', rfl⟩ := h
      rw [ih hs']
      rfl

theorem repositioned_moveCursor (h : sec.WellFormed)
    {s : List SectionNode × SectionNode × List SectionNode}
    (hs : sec.nodes = s.1 ++ s.2.1 :: s.2.2) :
    Repositioned sec (sec.moveCursor s) := by
  have hnodes : (sec.moveCursor s).nodes = sec.nodes := hs.symm
  refine ⟨hnodes, rfl, h.notFinalized, rfl, ?_, ?_⟩
  · rw [hnodes]
    exact h.nodup
  · rw [hnodes]
    exact h.lt_nextNode

theorem splitAtTail_nodes (sec : CodeSection) : sec.nodes =
      sec.splitAtTail.1 ++ sec.splitAtTail.2.1 :: sec.splitAtTail.2.2 := by
  unfold splitAtTail
  cases h : sec.after.getLast? with
  | none =>
    have hnil : sec.after = [] := getLast?_eq_none_iff.mp h
    simp [nodes, hnil]
  | some tail =>
    have hlast := dropLast_append_getLast? tail h
    simp [nodes, hlast]

section

variable {sec : CodeSection} (h : sec.WellFormed)
include h

theorem repositioned_resetCursorToEnd : Repositioned sec sec.resetCursorToEnd :=
  repositioned_moveCursor h sec.splitAtTail_nodes

theorem repositioned_setCursor (target : Option ℕ) : Repositioned sec (sec.setCursor target) := by
  cases target with
  | none => exact repositioned_resetCursorToEnd h
  | some target =>
    cases hs : splitAtNode target sec.nodes with
    | none => simpa [setCursor, hs] using Repositioned.refl h
    | some s =>
      simpa [setCursor, hs] using repositioned_moveCursor h (splitAtNode_nodes hs)

/-- Linking a fresh node behind the cursor, with the running offset moved past
it. -/
theorem extends_insertNodeAfter (kind : SectionNodeKind) {off : ℕ}
    (hoff : off = SectionNode.advance ⟨sec.nextNode, kind⟩ sec.cursorOffset) :
    Extends sec { sec.insertNodeAfter kind with cursorOffset := off } := by
  have hmem : ∀ n, n ∈ ({ sec.insertNodeAfter kind with
      cursorOffset := off } : CodeSection).nodes ↔ n ∈ sec.nodes ∨ n = ⟨sec.nextNode, kind⟩ := by
    intro n
    simp only [insertNodeAfter, nodes, mem_append, mem_cons, not_mem_nil, or_false]
    tauto
  have hfresh : sec.nextNode ∉ sec.nodes.map node := by
    intro hin
    obtain ⟨n, hn, heq⟩ := mem_map.mp hin
    exact absurd heq (h.lt_nextNode n hn).ne
  refine ⟨rfl, ?_, ?_, ?_, ?_, h.notFinalized, ?_, ?_, ?_⟩
  · rw [hoff]
    exact le_advance _ _
  · intro id hid
    have hne : (sec.nextNode == id) = false := by simpa using hid.ne'
    simp only [nodeOffset, insertNodeAfter, front, offsetOf_append]
    simp [offsetOf, hne]
  · intro id bytes hin
    exact ⟨[], (hmem _).mpr (.inl (by simpa using hin))⟩
  · intro id labelId loff hin
    exact (hmem _).mpr (.inl hin)
  · rw [hoff, h.cursorOffset_eq]
    simp [computeOffsetTo, insertNodeAfter, front]
  · have hperm : ({ sec.insertNodeAfter kind with
        cursorOffset := off } : CodeSection).nodes.Perm (⟨sec.nextNode, kind⟩ :: sec.nodes) := by
      rw [nodes_eq_front_append sec]
      have hmiddle : (sec.front ++ ⟨sec.nextNode, kind⟩ :: sec.after).Perm
          (⟨sec.nextNode, kind⟩ :: (sec.front ++ sec.after)) := perm_middle
      simpa [insertNodeAfter, nodes, front] using hmiddle
    rw [(hperm.map node).nodup_iff]
    exact nodup_cons.mpr ⟨hfresh, h.nodup⟩
  · intro n hn
    rcases (hmem n).mp hn with hn | rfl
    · exact Nat.lt_succ_of_lt (h.lt_nextNode n hn)
    · exact Nat.lt_succ_self _

theorem extends_growCursor {old : List UInt8} (hcursor : sec.cursor.kind = .data old)
    (bytes : List UInt8) : Extends sec { sec with
      cursor := { sec.cursor with kind := .data (old ++ bytes) }
      cursorOffset := sec.cursorOffset + bytes.length } := by
  have hsame : sec.cursor = ⟨sec.cursor.node, .data old⟩ := by rw [← hcursor]
  refine ⟨rfl, Nat.le_add_right _ _, ?_, ?_, ?_, h.notFinalized, ?_, ?_, ?_⟩
  · intro id _
    simp [nodeOffset, front, offsetOf_append, offsetOf]
  · intro id chunk hin
    simp only [nodes, mem_append, mem_cons] at hin ⊢
    rcases hin with hin | hin | hin
    · exact ⟨[], .inl (by simpa using hin)⟩
    · rw [hsame] at hin
      cases hin
      exact ⟨bytes, .inr (.inl rfl)⟩
    · exact ⟨[], .inr (.inr (by simpa using hin))⟩
  · intro id labelId off hin
    simp only [nodes, mem_append, mem_cons] at hin ⊢
    rcases hin with hin | hin | hin
    · exact .inl hin
    · rw [hsame] at hin
      cases hin
    · exact .inr (.inr hin)
  · rw [h.cursorOffset_eq]
    simp [computeOffsetTo, front, advance, hcursor, Nat.add_assoc]
  · simpa [nodes] using h.nodup
  · intro n hn
    simp only [nodes, mem_append, mem_cons] at hn
    rcases hn with hn | rfl | hn
    · exact h.lt_nextNode n (by simp [nodes, hn])
    · exact h.lt_nextNode sec.cursor (by simp [nodes])
    · exact h.lt_nextNode n (by simp [nodes, hn])

theorem extends_appendBytes (bytes : List UInt8) : Extends sec (sec.appendBytes bytes) := by
  unfold appendBytes
  split
  · next old hcursor => exact extends_growCursor h hcursor bytes
  · exact extends_insertNodeAfter h (.data bytes) rfl

theorem extends_alignTo (alignment : ℕ) : Extends sec (sec.alignTo alignment) :=
  extends_insertNodeAfter h (.align alignment sec.padByte) rfl

theorem extends_bindLabel (labelId : ℕ) : Extends sec (sec.bindLabel labelId) :=
  extends_insertNodeAfter h (.label labelId 0) rfl

end

@[simp] theorem cursorOffset_appendBytes (sec : CodeSection) (bytes : List UInt8) :
    (sec.appendBytes bytes).cursorOffset = sec.cursorOffset + bytes.length := by
  unfold appendBytes
  split <;> rfl

theorem cursorOffset_eq_place (h : sec.WellFormed) :
    sec.cursorOffset = place SectionNode.advance 0 sec.front :=
  h.cursorOffset_eq

theorem nodeOffset_nodes (h : sec.WellFormed) (id : ℕ) : nodeOffset id 0 sec.nodes =
      (nodeOffset id 0 sec.front).or (nodeOffset id sec.cursorOffset sec.after) := by
  rw [nodes_eq_front_append, cursorOffset_eq_place h]
  exact offsetOf_append _ _ _ _ _

/-- Addresses are distinct, so a node is found where it stands. -/
theorem nodeOffset_of_split {pre post : List SectionNode} (hnodup : (ns.map SectionNode.node).Nodup)
    (hns : ns = pre ++ n :: post) (off : ℕ) :
    nodeOffset n.node off ns = some (place SectionNode.advance off pre) := by
  subst hns
  refine offsetOf_of_split _ off post (by simp) ?_
  intro m hm
  have hdisj := (nodup_append.mp (by simpa using hnodup)).2.2
  have hne := hdisj m.node (mem_map_of_mem hm) n.node (by simp)
  simpa using hne

theorem exists_nodeOffset_of_mem (hn : n ∈ ns) (off : ℕ) :
    ∃ a, nodeOffset n.node off ns = some a := by
  cases h : nodeOffset n.node off ns with
  | some a => exact ⟨a, rfl⟩
  | none =>
    have hall := (offsetOf_eq_none _).mp h n hn
    simp at hall

theorem eq_of_mem_of_node_eq (h : sec.WellFormed) {m : SectionNode} (hm : m ∈ sec.nodes)
    (hn : n ∈ sec.nodes) (heq : m.node = n.node) : m = n :=
  inj_on_of_nodup_map h.nodup hm hn heq

end CodeSection

namespace EmissionRecord

/-- The offset of the record's first byte in a section. -/
def position (r : EmissionRecord) (sec : CodeSection) : Option ℕ :=
  (CodeSection.nodeOffset r.node 0 sec.nodes).map fun off => off + r.index

/-- The record's bytes are part of the chunk they were written to. -/
def LocatedIn (r : EmissionRecord) (sec : CodeSection) : Prop :=
  r.bytes ≠ [] ∧ ∃ pre suf, ⟨r.node, .data (pre ++ r.bytes ++ suf)⟩ ∈ sec.nodes ∧
    pre.length = r.index

variable {sec' : CodeSection}

theorem LocatedIn.of_extends {r : EmissionRecord} (hr : r.LocatedIn sec)
    (h : CodeSection.Extends sec sec') : r.LocatedIn sec' := by
  obtain ⟨hbytes, pre, suf, hin, hpre⟩ := hr
  obtain ⟨more, hin'⟩ := h.chunk _ _ hin
  exact ⟨hbytes, pre, suf ++ more, by simpa using hin', hpre⟩

theorem LocatedIn.of_repositioned {r : EmissionRecord} (hr : r.LocatedIn sec)
    (h : CodeSection.Repositioned sec sec') : r.LocatedIn sec' := by
  obtain ⟨hbytes, pre, suf, hin, hpre⟩ := hr
  exact ⟨hbytes, pre, suf, h.nodes_eq ▸ hin, hpre⟩

theorem position_of_repositioned (r : EmissionRecord) (h : CodeSection.Repositioned sec sec') :
    r.position sec' = r.position sec := by
  rw [position, position, h.nodes_eq]

section

variable {sec : CodeSection} {r : EmissionRecord} (h : sec.WellFormed) (hr : r.LocatedIn sec)
include h hr

theorem node_lt_nextNode : r.node < sec.nextNode := by
  obtain ⟨_, pre, suf, hin, _⟩ := hr
  exact h.lt_nextNode _ hin

/-- A write moves a recorded byte forwards or not at all. -/
theorem position_le_of_extends (hext : CodeSection.Extends sec sec') :
    ∃ a b, r.position sec = some a ∧ r.position sec' = some b ∧ a ≤ b := by
  have hlt := node_lt_nextNode h hr
  have hfront := hext.nodeOffset_eq r.node hlt
  have hnodes := nodeOffset_nodes h r.node
  have hnodes' := nodeOffset_nodes hext.wellFormed r.node
  obtain ⟨_, pre, suf, hin, _⟩ := hr
  obtain ⟨a, ha⟩ := exists_nodeOffset_of_mem hin 0
  rw [hext.after_eq, hfront] at hnodes'
  rw [ha] at hnodes
  cases hf : nodeOffset r.node 0 sec.front with
  | some f =>
    have haf : a = f := by simpa [hf] using hnodes
    refine ⟨a + r.index, a + r.index, ?_, ?_, le_rfl⟩
    · simp [position, ha]
    · simp [position, hnodes', hf, haf]
  | none =>
    have hafter : nodeOffset r.node sec.cursorOffset sec.after =
        some a := by simpa [hf] using hnodes.symm
    obtain ⟨b, hb, hab⟩ := offsetOf_mono advance_mono hext.cursorOffset_le hafter
    have hb' : nodeOffset r.node sec'.cursorOffset sec.after = some b := hb
    refine ⟨a + r.index, b + r.index, ?_, ?_, Nat.add_le_add_right hab _⟩
    · simp [position, ha]
    · simp [position, hnodes', hf, hb']

theorem position_eq_of_extends (hext : CodeSection.Extends sec sec') (hkeep :
      CodeSection.firstByteOffset sec'.cursorOffset sec.after = CodeSection.firstByteOffset
      sec.cursorOffset sec.after) : r.position sec' = r.position sec := by
  have hlt := node_lt_nextNode h hr
  have hbytes : ∀ n ∈ sec.after, (n.node == r.node) = true → n.hasBytes = true := by
    intro n hn hid
    obtain ⟨hne, pre, suf, hin, _⟩ := hr
    have hmem : n ∈ sec.nodes := by simp [nodes, hn]
    have heq := eq_of_mem_of_node_eq h hmem hin (by simpa using hid)
    rw [heq]
    simp [hasBytes, hne]
  have hafter := offsetOf_congr advance hbytes hkeep
  rw [position, position, nodeOffset_nodes h,
    nodeOffset_nodes hext.wellFormed, hext.after_eq,
    hext.nodeOffset_eq r.node hlt]
  exact congrArg _ (congrArg _ hafter)

end

end EmissionRecord

namespace CodeSection

/-- A write to a section together with the records it adds: every node that holds
bytes held bytes before or is where a new record starts, and the new records tell
where their bytes are. -/
structure Writes (index : ℕ) (sec sec' : CodeSection)
    (new : List EmissionRecord) : Prop extends Extends sec sec' where
  started : ∀ n ∈ sec'.nodes, n.hasBytes = true →
    (∃ m ∈ sec.nodes, m.node = n.node ∧ m.hasBytes = true) ∨
      ∃ r ∈ new, r.node = n.node ∧ r.index = 0
  sec_eq : ∀ r ∈ new, r.sec = index
  located : ∀ r ∈ new, r.LocatedIn sec'
  position_eq : ∀ r ∈ new, r.position sec' = some r.offset

theorem mem_insertNodeAfter {kind : SectionNodeKind} (hn : n ∈ (sec.insertNodeAfter kind).nodes) :
    n ∈ sec.nodes ∨ n = ⟨sec.nextNode, kind⟩ := by
  simp only [insertNodeAfter, nodes, mem_append, mem_cons, not_mem_nil, or_false] at hn ⊢
  tauto

theorem writes_of_marker {kind : SectionNodeKind} {off : ℕ} (index : ℕ)
    (hext : Extends sec { sec.insertNodeAfter kind with cursorOffset := off })
    (hkind : SectionNode.hasBytes ⟨sec.nextNode, kind⟩ = false) :
    Writes index sec { sec.insertNodeAfter kind with cursorOffset := off } [] where
  toExtends := hext
  started := by
    intro n hn hbytes
    rcases mem_insertNodeAfter hn with hn | rfl
    · exact .inl ⟨n, hn, rfl, hbytes⟩
    · rw [hkind] at hbytes
      cases hbytes
  sec_eq := by simp
  located := by simp
  position_eq := by simp

section

variable {sec : CodeSection} (h : sec.WellFormed)
include h

theorem writes_alignTo (index alignment : ℕ) : Writes index sec (sec.alignTo alignment) [] :=
  writes_of_marker index (extends_alignTo h alignment) rfl

theorem writes_bindLabel (index labelId : ℕ) : Writes index sec (sec.bindLabel labelId) [] :=
  writes_of_marker index (extends_bindLabel h labelId) rfl

theorem getCurrentOffset_of_wellFormed : sec.getCurrentOffset = sec.cursorOffset := by
  simp [getCurrentOffset, h.notFinalized]

variable {bytes : List UInt8}

/-- An emission into the chunk at the cursor lands at the running offset. -/
theorem writes_growCursor (index : ℕ) {old : List UInt8} (hcursor : sec.cursor.kind = .data old)
    (hbytes : bytes ≠ []) :
    Writes index sec (sec.appendBytes bytes) [sec.recordAt index bytes] := by
  have happend : sec.appendBytes bytes = { sec with
      cursor := { sec.cursor with kind := .data (old ++ bytes) }
      cursorOffset := sec.cursorOffset + bytes.length } := by
    simp [appendBytes, hcursor]
  have hrecord : sec.recordAt index bytes =
      ⟨index, sec.cursor.node, old.length, sec.cursorOffset, bytes⟩ := by
    simp [recordAt, hcursor, getCurrentOffset_of_wellFormed h]
  have hext := extends_appendBytes h bytes
  rw [happend] at hext ⊢
  refine ⟨hext, ?_, by simp [hrecord], ?_, ?_⟩
  · intro n hn hn'
    simp only [nodes, mem_append, mem_cons] at hn
    rcases hn with hn | rfl | hn
    · exact .inl ⟨n, by simp [nodes, hn], rfl, hn'⟩
    · rcases eq_or_ne old [] with rfl | hold
      · exact .inr ⟨sec.recordAt index bytes, by simp, by simp [hrecord], by simp [hrecord]⟩
      · refine .inl ⟨sec.cursor, by simp [nodes], rfl, ?_⟩
        simp [hasBytes, hcursor, hold]
    · exact .inl ⟨n, by simp [nodes, hn], rfl, hn'⟩
  · rw [hrecord]
    simp only [mem_singleton, forall_eq]
    exact ⟨hbytes, old, [], by simp [nodes], rfl⟩
  · rw [hrecord]
    simp only [mem_singleton, forall_eq]
    have hsplit := nodeOffset_of_split hext.wellFormed.nodup rfl 0
    rw [EmissionRecord.position, hsplit, cursorOffset_eq_place h]
    simp [front, advance, hcursor]

/-- An emission behind a marker opens a chunk at the running offset. -/
theorem writes_openChunk (index : ℕ) (hcursor : ∀ old, sec.cursor.kind ≠ .data old)
    (hbytes : bytes ≠ []) :
    Writes index sec (sec.appendBytes bytes) [sec.recordAt index bytes] := by
  have happend : sec.appendBytes bytes = { sec.insertNodeAfter (.data bytes) with
      cursorOffset := sec.cursorOffset + bytes.length } := by
    unfold appendBytes
    split
    · next old hold => exact absurd hold (hcursor old)
    · rfl
  have hrecord : sec.recordAt index bytes = ⟨index, sec.nextNode, 0, sec.cursorOffset, bytes⟩ := by
    rw [← getCurrentOffset_of_wellFormed h]
    unfold recordAt
    split
    · next old hold => exact absurd hold (hcursor old)
    · rfl
  have hext := extends_appendBytes h bytes
  rw [happend] at hext ⊢
  refine ⟨hext, ?_, by simp [hrecord], ?_, ?_⟩
  · intro n hn hn'
    rcases mem_insertNodeAfter hn with hn | rfl
    · exact .inl ⟨n, hn, rfl, hn'⟩
    · exact .inr ⟨sec.recordAt index bytes, by simp, by simp [hrecord], by simp [hrecord]⟩
  · rw [hrecord]
    simp only [mem_singleton, forall_eq]
    exact ⟨hbytes, [], [], by simp [nodes, insertNodeAfter], rfl⟩
  · rw [hrecord]
    simp only [mem_singleton, forall_eq]
    have hsplit := nodeOffset_of_split hext.wellFormed.nodup rfl 0
    simp only [insertNodeAfter] at hsplit
    rw [EmissionRecord.position]
    simp only [insertNodeAfter]
    rw [hsplit, cursorOffset_eq_place h]
    simp [front]

theorem writes_appendBytes (index : ℕ) (hbytes : bytes ≠ []) :
    Writes index sec (sec.appendBytes bytes) [sec.recordAt index bytes] := by
  cases hcursor : sec.cursor.kind with
  | data old => exact writes_growCursor h index hcursor hbytes
  | label labelId off | align alignment padByte =>
    refine writes_openChunk h index ?_ hbytes
    rw [hcursor]
    rintro old ⟨⟩

end

end CodeSection

end EzPacker.Object
