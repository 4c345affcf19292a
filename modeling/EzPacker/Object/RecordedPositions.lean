import EzPacker.Object.SectionWrites

/-!
# Recorded positions and finalisation

An emission session records for every emission the offset at which its bytes
land. The cursor can be rewound to a label that has been bound before, and what is
written there moves the nodes behind the cursor, but not the offsets recorded for
them.

`Keeps` is the condition on one operation under which nothing recorded moves: the
first bytes behind the cursor stay where they are, because there are none or
because an alignment directive in front of them absorbs what is written. A session
keeps its recorded positions exactly when every operation of it meets `Keeps`.
Nothing ever moves backwards, so a position that has moved once stays wrong.
Label addresses are resolved from the node stream and are always exact.
-/

namespace EzPacker.Object

open CodeSection SectionNode EmitState List Function

variable {l : CodeLabel} {s : EmitState}

namespace EmitState

/-- What `step` preserves: sections are well formed, records lie in their chunks,
chunks with bytes have a record of their first byte, and bound labels have a marker
in their section. -/
structure Inv (s : EmitState) : Prop where
  wellFormed : ∀ i, (s.ctx.sections i).WellFormed
  located : ∀ r ∈ s.log, r.LocatedIn (s.ctx.sections r.sec)
  started : ∀ i, ∀ n ∈ (s.ctx.sections i).nodes, n.hasBytes = true →
    ∃ r ∈ s.log, r.sec = i ∧ r.node = n.node ∧ r.index = 0
  bound : ∀ l ∈ s.ctx.labels, ∀ node, l.node = some node →
    ∃ i labelId off, l.definingSection = some i ∧
      ⟨node, .label labelId off⟩ ∈ (s.ctx.sections i).nodes

/-- The first bytes behind the cursor of a section stay where they are when the
running offset becomes `off`. -/
def KeepsBehind (sec : CodeSection) (off : ℕ) : Prop :=
  CodeSection.firstByteOffset off sec.after = CodeSection.firstByteOffset sec.cursorOffset sec.after

instance (sec : CodeSection) (off : ℕ) : Decidable (KeepsBehind sec off) :=
  inferInstanceAs (Decidable (_ = _))

/-- The operation writes nothing in front of recorded bytes, except where an
alignment directive absorbs it. -/
def Keeps (s : EmitState) : EmitOp → Prop
  | .emit sec data =>
    KeepsBehind (s.ctx.sections sec) ((s.ctx.sections sec).cursorOffset +
      (data.bytes (s.ctx.sections sec)).length)
  | .alignTo sec alignment =>
    KeepsBehind (s.ctx.sections sec) (padded alignment (s.ctx.sections sec).cursorOffset)
  | _ => True

instance decidableKeeps (s : EmitState) : ∀ op, Decidable (s.Keeps op)
  | .emit _ _ => inferInstanceAs (Decidable (KeepsBehind _ _))
  | .alignTo _ _ => inferInstanceAs (Decidable (KeepsBehind _ _))
  | .setCursor _ _ => isTrue trivial
  | .resetCursorToEnd _ => isTrue trivial
  | .getOrCreateLabel _ _ _ => isTrue trivial
  | .bindLabel _ => isTrue trivial
  | .addReloc _ _ => isTrue trivial
  | .addRelocAt _ _ _ => isTrue trivial
  | .resetFuncState => isTrue trivial

/-- The effect of one operation on the sections and the log: one section has its
cursor repositioned or is written to, and the others stay. -/
structure Effect (s : EmitState) (op : EmitOp) (i : ℕ)
    (new : List EmissionRecord) : Prop where
  log_eq : (s.step op).log = s.log ++ new
  others : ∀ j ≠ i, (s.step op).ctx.sections j = s.ctx.sections j
  here : (new = [] ∧ s.Keeps op ∧
      CodeSection.Repositioned (s.ctx.sections i) ((s.step op).ctx.sections i)) ∨
    (CodeSection.Writes i (s.ctx.sections i) ((s.step op).ctx.sections i) new ∧ (s.Keeps op ↔
        KeepsBehind (s.ctx.sections i) ((s.step op).ctx.sections i).cursorOffset))

section

variable {s : EmitState}

variable {op : EmitOp} {i : ℕ} {new : List EmissionRecord}

/-- An operation that leaves the sections and the log alone. -/
theorem effect_of_quiet (hs : s.Inv) (hkeeps : s.Keeps op)
    (hsections : (s.step op).ctx.sections = s.ctx.sections) (hlog : (s.step op).log = s.log) :
    Effect s op 0 [] where
  log_eq := by simp [hlog]
  others := by simp [hsections]
  here := by
    refine .inl ⟨rfl, hkeeps, ?_⟩
    rw [hsections]
    exact .refl (hs.wellFormed 0)

theorem effect_of_repositioned (hkeeps : s.Keeps op) {sec' : CodeSection}
    (hrep : CodeSection.Repositioned (s.ctx.sections i) sec')
    (hsections : (s.step op).ctx.sections = update s.ctx.sections i sec')
    (hlog : (s.step op).log = s.log) : Effect s op i [] where
  log_eq := by simp [hlog]
  others := by
    intro j hj
    rw [hsections, update_of_ne hj]
  here := by
    refine .inl ⟨rfl, hkeeps, ?_⟩
    rw [hsections, update_self]
    exact hrep

theorem effect_of_writes {sec' : CodeSection}
    (hwrites : CodeSection.Writes i (s.ctx.sections i) sec' new)
    (hkeeps : s.Keeps op ↔ KeepsBehind (s.ctx.sections i) sec'.cursorOffset)
    (hsections : (s.step op).ctx.sections = update s.ctx.sections i sec')
    (hlog : (s.step op).log = s.log ++ new) : Effect s op i new where
  log_eq := hlog
  others := by
    intro j hj
    rw [hsections, update_of_ne hj]
  here := by
    refine .inr ?_
    rw [hsections, update_self]
    exact ⟨hwrites, hkeeps⟩

theorem effect_emit (hs : s.Inv) (sec : ℕ) (data : EmitData) :
    ∃ new, Effect s (.emit sec data) sec new := by
  have hwf := hs.wellFormed sec
  have hemit := emit_eq (s.ctx.sections sec) data
  cases hbytes : data.bytes (s.ctx.sections sec) with
  | nil =>
    refine ⟨[], effect_of_repositioned ?_ (.refl hwf) ?_ ?_⟩
    · simp [Keeps, KeepsBehind, hbytes]
    · simp [step, CodeEmitterContext.updateSection, hemit, hbytes]
    · simp [step, hbytes]
  | cons b bs =>
    have hne : b :: bs ≠ [] := by simp
    refine ⟨_, effect_of_writes (writes_appendBytes hwf sec hne) ?_ ?_ ?_⟩
    · simp [Keeps, hbytes]
    · simp [step, CodeEmitterContext.updateSection, hemit, hbytes]
    · simp [step, hbytes]

theorem bindLabel_eq_of_unbound {ctx : CodeEmitterContext} {label sec : ℕ}
    (hl : ctx.labels[label]? = some l) (hsec : l.definingSection = some sec)
    (hnode : l.node = none) :
    (ctx.bindLabel label).sections = update ctx.sections sec ((ctx.sections sec).bindLabel l.id) ∧
      (ctx.bindLabel label).labels = ctx.labels.modify label fun l' =>
        { l' with
          node := some (ctx.sections sec).nextNode
          labelAddress := ((ctx.sections sec).bindLabel l.id).getCurrentOffset } := by
  simp [CodeEmitterContext.bindLabel, hl, hsec, hnode,
    CodeEmitterContext.updateSection, CodeEmitterContext.updateLabel]

theorem bindLabel_eq_of_bound {ctx : CodeEmitterContext} {label sec node : ℕ}
    (hl : ctx.labels[label]? = some l) (hsec : l.definingSection = some sec)
    (hnode : l.node = some node) : (ctx.bindLabel label).sections = update ctx.sections sec
          ((ctx.sections sec).setCursor (some node)) ∧
      (ctx.bindLabel label).labels = ctx.labels := by
  simp [CodeEmitterContext.bindLabel, hl, hsec, hnode, CodeEmitterContext.updateSection]

theorem effect_bindLabel (hs : s.Inv) (label : ℕ) : ∃ i, Effect s (.bindLabel label) i [] := by
  cases hl : s.ctx.labels[label]? with
  | none =>
    refine ⟨0, effect_of_quiet hs trivial ?_ rfl⟩
    simp [step, CodeEmitterContext.bindLabel, hl]
  | some l =>
    cases hsec : l.definingSection with
    | none =>
      refine ⟨0, effect_of_quiet hs trivial ?_ rfl⟩
      simp [step, CodeEmitterContext.bindLabel, hl, hsec]
    | some sec =>
      have hwf := hs.wellFormed sec
      cases hnode : l.node with
      | none =>
        refine ⟨sec, effect_of_writes (writes_bindLabel hwf sec l.id) ?_
          (bindLabel_eq_of_unbound hl hsec hnode).1 ?_⟩
        · exact ⟨fun _ => rfl, fun _ => trivial⟩
        · simp [step]
      | some node =>
        have hkeeps : s.Keeps (.bindLabel label) := trivial
        exact ⟨sec, effect_of_repositioned hkeeps
          (repositioned_setCursor hwf (some node))
          (bindLabel_eq_of_bound hl hsec hnode).1 rfl⟩

theorem sections_getOrCreateLabel (ctx : CodeEmitterContext) (sec : Option ℕ)
    (id : ℕ) (name : String) :
    (ctx.getOrCreateLabel sec id name).1.sections = ctx.sections := by
  unfold CodeEmitterContext.getOrCreateLabel
  split <;> rfl

/-- Every operation has an effect of one of the two kinds. -/
theorem exists_effect (hs : s.Inv) (op : EmitOp) : ∃ i new, Effect s op i new := by
  cases op with
  | emit sec data => exact ⟨sec, effect_emit hs sec data⟩
  | alignTo sec alignment =>
    exact ⟨sec, [], effect_of_writes
      (writes_alignTo (hs.wellFormed sec) sec alignment) Iff.rfl rfl
      (by simp [step])⟩
  | setCursor sec node =>
    have hkeeps : s.Keeps (.setCursor sec node) := trivial
    exact ⟨sec, [], effect_of_repositioned hkeeps
      (repositioned_setCursor (hs.wellFormed sec) node) rfl rfl⟩
  | resetCursorToEnd sec =>
    have hkeeps : s.Keeps (.resetCursorToEnd sec) := trivial
    exact ⟨sec, [], effect_of_repositioned hkeeps
      (repositioned_resetCursorToEnd (hs.wellFormed sec)) rfl rfl⟩
  | getOrCreateLabel sec id name =>
    exact ⟨0, [], effect_of_quiet hs trivial (sections_getOrCreateLabel s.ctx sec id name) rfl⟩
  | bindLabel label =>
    obtain ⟨i, hi⟩ := effect_bindLabel hs label
    exact ⟨i, [], hi⟩
  | addReloc srcRef relocType | addRelocAt srcRef relocType address =>
    exact ⟨0, [], effect_of_quiet hs trivial rfl rfl⟩
  | resetFuncState => exact ⟨0, [], effect_of_quiet hs trivial rfl rfl⟩

theorem mem_of_mem_modify {α : Type*} {f : α → α} {xs : List α} {x : α} (hx : x ∈ xs.modify i f) :
    x ∈ xs ∨ ∃ y, xs[i]? = some y ∧ x = f y := by
  obtain ⟨k, hk⟩ := mem_iff_getElem?.mp hx
  rw [getElem?_modify, Option.map_eq_map, Option.map_eq_some_iff] at hk
  obtain ⟨y, hy, rfl⟩ := hk
  by_cases hik : i = k
  · exact .inr ⟨y, hik ▸ hy, by simp [hik]⟩
  · exact .inl (by simpa [hik] using mem_of_getElem? hy)

theorem Effect.wellFormed (hs : s.Inv) (he : Effect s op i new) (j : ℕ) :
    ((s.step op).ctx.sections j).WellFormed := by
  by_cases hj : j = i
  · subst hj
    rcases he.here with ⟨_, _, hrep⟩ | ⟨hwrites, _⟩
    · exact hrep.wellFormed
    · exact hwrites.wellFormed
  · rw [he.others j hj]
    exact hs.wellFormed j

theorem Effect.located (he : Effect s op i new) {r : EmissionRecord}
    (hr : r.LocatedIn (s.ctx.sections r.sec)) : r.LocatedIn ((s.step op).ctx.sections r.sec) := by
  by_cases hj : r.sec = i
  · rw [hj] at hr ⊢
    rcases he.here with ⟨_, _, hrep⟩ | ⟨hwrites, _⟩
    · exact hr.of_repositioned hrep
    · exact hr.of_extends hwrites.toExtends
  · rw [he.others r.sec hj]
    exact hr

theorem Effect.label_mem (he : Effect s op i new) {j node labelId off : ℕ}
    (hin : ⟨node, .label labelId off⟩ ∈ (s.ctx.sections j).nodes) :
    ⟨node, .label labelId off⟩ ∈ ((s.step op).ctx.sections j).nodes := by
  by_cases hj : j = i
  · subst hj
    rcases he.here with ⟨_, _, hrep⟩ | ⟨hwrites, _⟩
    · rw [hrep.nodes_eq]
      exact hin
    · exact hwrites.label _ _ _ hin
  · rw [he.others j hj]
    exact hin

theorem Effect.started (hs : s.Inv) (he : Effect s op i new) (j : ℕ) {n : SectionNode}
    (hn : n ∈ ((s.step op).ctx.sections j).nodes) (hbytes : n.hasBytes = true) :
    ∃ r ∈ (s.step op).log, r.sec = j ∧ r.node = n.node ∧ r.index = 0 := by
  have hold : ∀ m ∈ (s.ctx.sections j).nodes, m.node = n.node →
      m.hasBytes = true → ∃ r ∈ (s.step op).log, r.sec = j ∧ r.node = n.node ∧ r.index = 0 := by
    intro m hm hmn hmb
    obtain ⟨r, hr, hsec, hnode, hindex⟩ := hs.started j m hm hmb
    exact ⟨r, by simp [he.log_eq, hr], hsec, hnode.trans hmn, hindex⟩
  by_cases hj : j = i
  · subst hj
    rcases he.here with ⟨_, _, hrep⟩ | ⟨hwrites, _⟩
    · rw [hrep.nodes_eq] at hn
      exact hold n hn rfl hbytes
    · rcases hwrites.started n hn hbytes with ⟨m, hm, hmn, hmb⟩ | ⟨r, hr, hnode, hindex⟩
      · exact hold m hm hmn hmb
      · exact ⟨r, by simp [he.log_eq, hr], hwrites.sec_eq r hr, hnode, hindex⟩
  · rw [he.others j hj] at hn
    exact hold n hn rfl hbytes

/-- The markers of bound labels: a label that an operation leaves bound was bound
to the same marker before, or the operation has just inserted its marker. -/
theorem bound_step (hs : s.Inv) (op : EmitOp) :
    ∀ l ∈ (s.step op).ctx.labels, ∀ node, l.node = some node →
      (∃ l₀ ∈ s.ctx.labels, l₀.node = some node ∧ l₀.definingSection = l.definingSection) ∨
      ∃ i labelId off, l.definingSection = some i ∧
        ⟨node, .label labelId off⟩ ∈ ((s.step op).ctx.sections i).nodes := by
  intro l hl node hnode
  cases op with
  | getOrCreateLabel sec id name =>
    refine .inl ?_
    simp only [step, CodeEmitterContext.getOrCreateLabel] at hl
    split at hl
    · rcases mem_of_mem_modify hl with hl | ⟨l₀, hl₀, rfl⟩
      · exact ⟨l, hl, hnode, rfl⟩
      · have hmem : l₀ ∈ s.ctx.labels := mem_of_getElem? hl₀
        by_cases hdef : l₀.definingSection = none
        · have hnode₀ : l₀.node = some node := by simpa [hdef] using hnode
          obtain ⟨i, _, _, hi, _⟩ := hs.bound l₀ hmem node hnode₀
          rw [hdef] at hi
          cases hi
        · exact ⟨l₀, hmem, by simpa [hdef] using hnode, by simp [hdef]⟩
    · simp only [mem_append, mem_singleton] at hl
      rcases hl with hl | rfl
      · exact ⟨l, hl, hnode, rfl⟩
      · cases hnode
  | bindLabel label =>
    cases hlabel : s.ctx.labels[label]? with
    | none =>
      have hl' : l ∈ s.ctx.labels := by
        simpa [step, CodeEmitterContext.bindLabel, hlabel] using hl
      exact .inl ⟨l, hl', hnode, rfl⟩
    | some l₀ =>
      cases hsec : l₀.definingSection with
      | none =>
        have hl' : l ∈ s.ctx.labels := by
          simpa [step, CodeEmitterContext.bindLabel, hlabel, hsec] using hl
        exact .inl ⟨l, hl', hnode, rfl⟩
      | some sec =>
        cases hnode₀ : l₀.node with
        | some node₀ =>
          have heq := (bindLabel_eq_of_bound hlabel hsec hnode₀).2
          exact .inl ⟨l, heq ▸ hl, hnode, rfl⟩
        | none =>
          obtain ⟨hsections, hlabels⟩ :=
            bindLabel_eq_of_unbound hlabel hsec hnode₀
          have hl' : l ∈ (s.ctx.bindLabel label).labels := hl
          rw [hlabels] at hl'
          rcases mem_of_mem_modify hl' with hl' | ⟨l₁, hl₁, rfl⟩
          · exact .inl ⟨l, hl', hnode, rfl⟩
          · obtain rfl : l₀ = l₁ := by simpa [hlabel] using hl₁
            have hfresh : (s.ctx.sections sec).nextNode = node := by
              simpa using hnode
            refine .inr ⟨sec, l₀.id, 0, by simp [hsec], ?_⟩
            have hsections' : (s.step (.bindLabel label)).ctx.sections =
                _ := hsections
            rw [hsections', update_self, ← hfresh]
            simp [bindLabel, insertNodeAfter, nodes]
  | emit _ _ | alignTo _ _ | setCursor _ _ | resetCursorToEnd _ | addReloc _ _
  | addRelocAt _ _ _ | resetFuncState => exact .inl ⟨l, hl, hnode, rfl⟩

theorem Inv.step (hs : s.Inv) (op : EmitOp) : (s.step op).Inv := by
  obtain ⟨i, new, he⟩ := exists_effect hs op
  refine ⟨he.wellFormed hs, ?_, fun j n => he.started hs j, ?_⟩
  · intro r hr
    rw [he.log_eq, mem_append] at hr
    rcases hr with hr | hr
    · exact he.located (hs.located r hr)
    · rcases he.here with ⟨rfl, _, _⟩ | ⟨hwrites, _⟩
      · cases hr
      · rw [hwrites.sec_eq r hr]
        exact hwrites.located r hr
  · intro l hl node hnode
    rcases bound_step hs op l hl node hnode with ⟨l₀, hl₀, hnode₀, hdef⟩ | hfresh
    · obtain ⟨j, labelId, off, hj, hin⟩ := hs.bound l₀ hl₀ node hnode₀
      exact ⟨j, labelId, off, hdef ▸ hj, he.label_mem hin⟩
    · exact hfresh

/-- Every record is where it says its bytes are. -/
def Exact (s : EmitState) : Prop :=
  ∀ r ∈ s.log, r.position (s.ctx.sections r.sec) = some r.offset

/-- Some record's bytes have moved behind the offset recorded for them. -/
def Moved (s : EmitState) : Prop :=
  ∃ r ∈ s.log, ∃ p, r.position (s.ctx.sections r.sec) = some p ∧ r.offset < p

theorem Exact.not_moved (h : s.Exact) : ¬ s.Moved := by
  rintro ⟨r, hr, p, hp, hlt⟩
  have heq : p = r.offset := by simpa [h r hr] using hp.symm
  exact absurd heq hlt.ne'

theorem Exact.step (hs : s.Inv) (hexact : s.Exact) (hkeeps : s.Keeps op) : (s.step op).Exact := by
  obtain ⟨i, new, he⟩ := exists_effect hs op
  intro r hr
  rw [he.log_eq, mem_append] at hr
  rcases hr with hr | hr
  · by_cases hj : r.sec = i
    · have hold := hexact r hr
      have hloc := hs.located r hr
      rw [hj] at hold hloc ⊢
      rcases he.here with ⟨_, _, hrep⟩ | ⟨hwrites, hiff⟩
      · rw [r.position_of_repositioned hrep]
        exact hold
      · rw [EmissionRecord.position_eq_of_extends (hs.wellFormed i) hloc
          hwrites.toExtends (hiff.mp hkeeps)]
        exact hold
    · rw [he.others r.sec hj]
      exact hexact r hr
  · rcases he.here with ⟨rfl, _, _⟩ | ⟨hwrites, _⟩
    · cases hr
    · rw [hwrites.sec_eq r hr]
      exact hwrites.position_eq r hr

/-- A step moves a recorded byte forwards or not at all. -/
theorem position_le_step (hs : s.Inv) (op : EmitOp) {r : EmissionRecord} (hr : r ∈ s.log) {p : ℕ}
    (hp : r.position (s.ctx.sections r.sec) = some p) :
    ∃ q, r.position ((s.step op).ctx.sections r.sec) = some q ∧ p ≤ q := by
  obtain ⟨i, new, he⟩ := exists_effect hs op
  by_cases hj : r.sec = i
  · have hloc := hs.located r hr
    rw [hj] at hp hloc ⊢
    rcases he.here with ⟨_, _, hrep⟩ | ⟨hwrites, _⟩
    · exact ⟨p, by rw [r.position_of_repositioned hrep, hp], Nat.le_refl p⟩
    · obtain ⟨a, b, ha, hb, hab⟩ := EmissionRecord.position_le_of_extends
        (hs.wellFormed i) hloc hwrites.toExtends
      have hpa : p = a := by simpa [hp] using ha
      exact ⟨b, hb, hpa ▸ hab⟩
  · exact ⟨p, by rw [he.others r.sec hj, hp], Nat.le_refl p⟩

theorem Moved.step (hs : s.Inv) (hmoved : s.Moved) (op : EmitOp) : (s.step op).Moved := by
  obtain ⟨i, new, he⟩ := exists_effect hs op
  obtain ⟨r, hr, p, hp, hlt⟩ := hmoved
  obtain ⟨q, hq, hle⟩ := position_le_step hs op hr hp
  exact ⟨r, by simp [he.log_eq, hr], q, hq, hlt.trans_le hle⟩

/-- Writing in front of recorded bytes that nothing absorbs moves a record: the
one of the first byte behind the cursor. -/
theorem moved_of_not_keepsBehind (hs : s.Inv) (hexact : s.Exact) (he : Effect s op i new)
    (hwrites : CodeSection.Writes i (s.ctx.sections i) ((s.step op).ctx.sections i) new)
    (hnot : ¬ KeepsBehind (s.ctx.sections i) ((s.step op).ctx.sections i).cursorOffset) :
    (s.step op).Moved := by
  have hwf := hs.wellFormed i
  have hwf' := hwrites.wellFormed
  have hle := hwrites.cursorOffset_le
  cases hfirst : firstByteOffset (s.ctx.sections i).cursorOffset
      (s.ctx.sections i).after with
  | none =>
    have hnone := (offsetOf_eq_none _).mp hfirst
    refine absurd ?_ hnot
    rw [KeepsBehind, hfirst]
    exact (offsetOf_eq_none _).mpr hnone
  | some a =>
    obtain ⟨pre, n, post, hafter, hn, hpre, ha⟩ :=
      exists_split_of_offsetOf _ hfirst
    have hnodes : (s.ctx.sections i).nodes = ((s.ctx.sections i).front ++ pre) ++ n :: post := by
      rw [nodes_eq_front_append, hafter, append_assoc]
    have hnodes' : ((s.step op).ctx.sections i).nodes =
        (((s.step op).ctx.sections i).front ++ pre) ++ n :: post := by
      rw [nodes_eq_front_append, hwrites.after_eq, hafter, append_assoc]
    obtain ⟨r, hr, hsec, hnode, hindex⟩ :=
      hs.started i n (by simp [hnodes]) hn
    have hbefore := nodeOffset_of_split hwf.nodup hnodes 0
    have hbehind := nodeOffset_of_split hwf'.nodup hnodes' 0
    rw [place_append, ← cursorOffset_eq_place hwf, ← ha] at hbefore
    rw [place_append, ← cursorOffset_eq_place hwf'] at hbehind
    have hoffset : r.offset = a := by
      have hpos := hexact r hr
      rw [hsec, EmissionRecord.position, hnode, hbefore, hindex] at hpos
      simpa using hpos.symm
    refine ⟨r, by simp [he.log_eq, hr],
      place advance ((s.step op).ctx.sections i).cursorOffset pre,
      ?_, ?_⟩
    · rw [hsec, EmissionRecord.position, hnode, hbehind, hindex]
      rfl
    · rw [hoffset, ha]
      refine lt_of_le_of_ne (place_mono advance_mono pre hle) ?_
      intro heq
      refine hnot ?_
      rw [KeepsBehind, hfirst, hafter, ha, heq]
      exact offsetOf_of_split _ _ _ hn hpre

theorem Exact.moved_of_not_keeps (hs : s.Inv) (hexact : s.Exact) (hnot : ¬ s.Keeps op) :
    (s.step op).Moved := by
  obtain ⟨i, new, he⟩ := exists_effect hs op
  rcases he.here with ⟨_, hkeeps, _⟩ | ⟨hwrites, hiff⟩
  · exact absurd hkeeps hnot
  · exact moved_of_not_keepsBehind hs hexact he hwrites fun h => hnot (hiff.mpr h)

end

theorem inv_start (sectionOf : SectionType → ℕ) (type : ℕ → SectionType)
    (alignment : ℕ → ℕ) (endianness : TargetEndianness) (padByte : ℕ → UInt8) :
    (start sectionOf type alignment endianness padByte).Inv where
  wellFormed := fun i => wellFormed_new _ _ _ _
  located := by simp [start]
  started := by
    intro i n hn hbytes
    have hn' : n = ⟨0, .data []⟩ := by
      simpa [start, CodeEmitterContext.new, new, nodes] using hn
    rw [hn'] at hbytes
    cases hbytes
  bound := by simp [start, CodeEmitterContext.new]

theorem exact_of_along (hs : s.Inv) (hexact : s.Exact) {ops : List EmitOp}
    (hkeeps : Run.along step Keeps s ops) :
    (Run.run step s ops).Inv ∧ (Run.run step s ops).Exact := by
  refine Run.invariant_of_along (I := fun s : EmitState => s.Inv ∧ s.Exact) ?_ ⟨hs, hexact⟩ hkeeps
  intro s op h hop
  exact ⟨h.1.step op, h.2.step h.1 hop⟩

theorem moved_run (hs : s.Inv) (hmoved : s.Moved) (ops : List EmitOp) :
    (Run.run step s ops).Moved := by
  refine (Run.invariant_of_step (I := fun s : EmitState => s.Inv ∧ s.Moved) ?_ ⟨hs, hmoved⟩ ops).2
  intro s op h
  exact ⟨h.1.step op, h.2.step h.1 op⟩

/-- No recorded byte stands in front of the offset that was recorded for it. -/
def NotBefore (s : EmitState) : Prop :=
  ∀ r ∈ s.log, ∃ p, r.position (s.ctx.sections r.sec) = some p ∧ r.offset ≤ p

theorem NotBefore.step (hs : s.Inv) (h : s.NotBefore) (op : EmitOp) : (s.step op).NotBefore := by
  obtain ⟨i, new, he⟩ := exists_effect hs op
  intro r hr
  rw [he.log_eq, mem_append] at hr
  rcases hr with hr | hr
  · obtain ⟨p, hp, hle⟩ := h r hr
    obtain ⟨q, hq, hpq⟩ := position_le_step hs op hr hp
    exact ⟨q, hq, hle.trans hpq⟩
  · rcases he.here with ⟨rfl, _, _⟩ | ⟨hwrites, _⟩
    · cases hr
    · rw [hwrites.sec_eq r hr]
      exact ⟨_, hwrites.position_eq r hr, Nat.le_refl _⟩

/-- Over a whole run the records are exact while every step keeps what is behind
the cursor, and one has moved for good after the first step that does not. -/
theorem exact_run_iff (hs : s.Inv) (hexact : s.Exact) (ops : List EmitOp) :
    (Run.run step s ops).Exact ↔ Run.along step Keeps s ops := by
  constructor
  · intro hend
    by_contra hnot
    obtain ⟨pre, op, post, rfl, hpre, hop⟩ := Run.exists_first_of_not_along hnot
    obtain ⟨hmid, hmidExact⟩ := exact_of_along hs hexact hpre
    have hmoved := hmidExact.moved_of_not_keeps hmid hop
    rw [Run.run_append] at hend
    exact hend.not_moved (moved_run (hmid.step op) hmoved post)
  · intro hkeeps
    exact (exact_of_along hs hexact hkeeps).2

end EmitState

/-! Finalisation keeps the stream, resolves its labels and concatenates its
bytes. -/

section

variable {off : ℕ}

@[simp] theorem SectionNode.node_resolve (n : SectionNode) (off : ℕ) :
    (n.resolve off).node = n.node := by
  unfold resolve
  split <;> rfl

@[simp] theorem SectionNode.advance_resolve (n : SectionNode) (off : ℕ) :
    (n.resolve off).advance = n.advance := by
  funext x
  cases h : n.kind with
  | data bytes | align alignment padByte => simp [resolve, h]
  | label labelId old => simp [resolve, advance, h]

@[simp] theorem SectionNode.expand_resolve (n : SectionNode) (off : ℕ) :
    (n.resolve off).expand = n.expand := by
  funext x
  cases h : n.kind with
  | data bytes | align alignment padByte => simp [resolve, h]
  | label labelId old => simp [resolve, expand, h]

theorem nodeOffset_resolveLabels (id off : ℕ) (ns : List SectionNode) :
    CodeSection.nodeOffset id off (resolveLabels off ns) = CodeSection.nodeOffset id off ns := by
  induction ns generalizing off with
  | nil => rfl
  | cons n ns ih =>
    simp only [nodeOffset] at ih ⊢
    simp [resolveLabels, offsetOf, ih]

theorem flatten_resolveLabels (off : ℕ) (ns : List SectionNode) :
    flatten off (resolveLabels off ns) = flatten off ns := by
  induction ns generalizing off with
  | nil => rfl
  | cons n ns ih => simp [resolveLabels, flatten, ih]

theorem resolveLabels_append (off : ℕ) (ms ns : List SectionNode) : resolveLabels off (ms ++ ns) =
      resolveLabels off ms ++ resolveLabels (place SectionNode.advance off ms) ns := by
  induction ms generalizing off with
  | nil => rfl
  | cons m ms ih => simp [resolveLabels, ih]

theorem map_node_resolveLabels (off : ℕ) (ns : List SectionNode) :
    (resolveLabels off ns).map SectionNode.node = ns.map SectionNode.node := by
  induction ns generalizing off with
  | nil => rfl
  | cons n ns ih => simp [resolveLabels, ih]

theorem splitAtNode_of_split {ns pre post : List SectionNode} {n : SectionNode}
    (hnodup : (ns.map SectionNode.node).Nodup) (hns : ns = pre ++ n :: post) :
    CodeSection.splitAtNode n.node ns = some (pre, n, post) := by
  subst hns
  induction pre with
  | nil => simp [splitAtNode]
  | cons m pre ih =>
    have hcons := nodup_cons.mp hnodup
    have hne : m.node ≠ n.node := by
      intro heq
      exact hcons.1 (by simp [heq])
    simp [splitAtNode, hne, ih hcons.2]

end

namespace CodeSection

theorem nodes_finalize (sec : CodeSection) : sec.finalize.nodes = resolveLabels 0 sec.nodes := by
  simp [finalize, nodes, resolveLabels_append, resolveLabels, computeOffsetTo]

end CodeSection

namespace EmissionRecord

@[simp] theorem position_finalize (r : EmissionRecord) (sec : CodeSection) :
    r.position sec.finalize = r.position sec := by
  rw [position, position, nodes_finalize, nodeOffset_resolveLabels]

/-- The finalized section shows the record's bytes at the offset recorded for
them, which is where the chunk they were written to is placed. -/
def Survives (ctx : CodeEmitterContext) (r : EmissionRecord) : Prop :=
  r.position (ctx.sections r.sec) = some r.offset ∧
    ((ctx.sections r.sec).getData.drop r.offset).take r.bytes.length = r.bytes

theorem getData_at_position {r : EmissionRecord} {sec : CodeSection}
    (h : sec.WellFormed) (hr : r.LocatedIn sec) {p : ℕ}
    (hp : r.position sec = some p) :
    (sec.finalize.getData.drop p).take r.bytes.length = r.bytes := by
  obtain ⟨_, before, behind, hin, hindex⟩ := hr
  obtain ⟨pre, post, hnodes⟩ := append_of_mem hin
  have hoff := nodeOffset_of_split h.nodup hnodes 0
  have hlen := length_flatten 0 pre
  have hp' : (flatten 0 pre).length + before.length = p := by
    rw [position, hoff] at hp
    simpa [← hlen, hindex] using hp
  have hdata : sec.finalize.getData = (flatten 0 pre ++ before) ++ (r.bytes ++ (behind ++
        flatten (place advance 0 (pre ++
          [⟨r.node, .data (before ++ r.bytes ++ behind)⟩])) post)) := by
    simp [getData, finalize, hnodes, flatten_append, flatten,
      expand, advance]
  rw [hdata, ← hp', ← length_append, drop_left, take_left]

end EmissionRecord

/-- The label's address is the number of bytes in front of its marker in the
finalized section, that is the offset of the first byte behind it. -/
def CodeLabel.Resolved (ctx : CodeEmitterContext) (l : CodeLabel) : Prop :=
  ∀ node, l.node = some node → ∃ i pre marker post, l.definingSection = some i ∧
    (ctx.sections i).nodes = pre ++ marker :: post ∧ marker.node = node ∧
    (ctx.sections i).getData = flatten 0 pre ++ flatten (flatten 0 pre).length post ∧
    ctx.getAddress l = (flatten 0 pre).length

namespace EmitState

theorem resolved_finalize (hs : s.Inv) (hl : l ∈ s.ctx.labels) : l.Resolved s.ctx.finalize := by
  intro node hnode
  obtain ⟨i, labelId, off, hsec, hin⟩ := hs.bound l hl node hnode
  obtain ⟨pre, post, hnodes⟩ := append_of_mem hin
  have hwf := hs.wellFormed i
  have hfinal : (s.ctx.finalize.sections i).nodes =
      resolveLabels 0 pre ++ ⟨node, .label labelId (place advance 0 pre)⟩ ::
        resolveLabels (place advance 0 pre) post := by
    rw [CodeEmitterContext.finalize, nodes_finalize, hnodes, resolveLabels_append]
    simp [resolveLabels, resolve, advance]
  have hnodup : ((s.ctx.finalize.sections i).nodes.map SectionNode.node).Nodup := by
    rw [CodeEmitterContext.finalize, nodes_finalize, map_node_resolveLabels]
    exact hwf.nodup
  have hsplit := splitAtNode_of_split hnodup hfinal
  have hlen := length_flatten 0 pre
  refine ⟨i, _, _, _, hsec, hfinal, rfl, ?_, ?_⟩
  · rw [flatten_resolveLabels, ← Nat.zero_add (flatten 0 pre).length, hlen, flatten_resolveLabels]
    simp [CodeEmitterContext.finalize, finalize, getData,
      hnodes, flatten_append, flatten, expand, advance]
  · rw [flatten_resolveLabels, ← Nat.zero_add (flatten 0 pre).length, hlen]
    simp [CodeEmitterContext.getAddress, hsec, hnode, hsplit]

theorem survives_iff_exact (hs : s.Inv) : (∀ r ∈ s.log, r.Survives s.ctx.finalize) ↔ s.Exact := by
  constructor
  · intro h r hr
    simpa [CodeEmitterContext.finalize] using (h r hr).1
  · intro h r hr
    have hpos := h r hr
    refine ⟨by simpa [CodeEmitterContext.finalize] using hpos, ?_⟩
    exact EmissionRecord.getData_at_position (hs.wellFormed r.sec) (hs.located r hr) hpos

end EmitState

/-- Recorded code positions and label addresses survive finalisation exactly in
the sessions that write nothing in front of recorded bytes. -/
theorem recordedPositions_survive_iff (sectionOf : SectionType → ℕ)
    (type : ℕ → SectionType) (alignment : ℕ → ℕ) (endianness : TargetEndianness)
    (padByte : ℕ → UInt8) (ops : List EmitOp) :
    ((∀ r ∈ (Run.run EmitState.step (.start sectionOf type alignment endianness padByte) ops).log,
        r.Survives (Run.run EmitState.step
          (.start sectionOf type alignment endianness padByte) ops).ctx.finalize) ∧
      ∀ l ∈ (Run.run EmitState.step
          (.start sectionOf type alignment endianness padByte) ops).ctx.labels,
        l.Resolved (Run.run EmitState.step
          (.start sectionOf type alignment endianness padByte) ops).ctx.finalize) ↔
      Run.along EmitState.step EmitState.Keeps
        (.start sectionOf type alignment endianness padByte) ops := by
  have hstart := inv_start sectionOf type alignment endianness padByte
  have hend := Run.invariant_of_step (fun _ op h => h.step op) hstart ops
  have hexact : (EmitState.start sectionOf type alignment endianness padByte).Exact := by
    simp [EmitState.Exact, EmitState.start]
  rw [survives_iff_exact hend, exact_run_iff hstart hexact]
  constructor
  · rintro ⟨hkeeps, _⟩
    exact hkeeps
  · intro hkeeps
    exact ⟨hkeeps, fun l hl => resolved_finalize hend hl⟩

/-- However the cursor is moved, the bytes of every emission are in the data of their section, at
the recorded offset or behind it. -/
theorem emitted_bytes_kept (sectionOf : SectionType → ℕ) (type : ℕ → SectionType)
    (alignment : ℕ → ℕ) (endianness : TargetEndianness) (padByte : ℕ → UInt8) (ops : List EmitOp) :
    let s := Run.run step (.start sectionOf type alignment endianness padByte) ops
    ∀ r ∈ s.log, ∃ p, r.offset ≤ p ∧
      ((s.ctx.finalize.sections r.sec).getData.drop p).take r.bytes.length = r.bytes := by
  intro s r hr
  have hstart := inv_start sectionOf type alignment endianness padByte
  obtain ⟨hs, hbehind⟩ : s.Inv ∧ s.NotBefore := by
    refine Run.invariant_of_step (I := fun s : EmitState => s.Inv ∧ s.NotBefore) ?_ ⟨hstart, ?_⟩ ops
    · exact fun _ op h => ⟨h.1.step op, h.2.step h.1 op⟩
    · simp [NotBefore, start]
  obtain ⟨p, hp, hle⟩ := hbehind r hr
  exact ⟨p, hle, EmissionRecord.getData_at_position (hs.wellFormed r.sec) (hs.located r hr) hp⟩

/-- Binding a label again rewinds the cursor: the byte emitted there pushes the
first one from offset 0 to offset 1. -/
theorem recordedPositions_lost_by_rewind : ¬ ∀ ops : List EmitOp,
      ∀ r ∈ (Run.run EmitState.step (.start (fun _ => 0) (fun _ => .Text)
          (fun _ => 16) .Little fun _ => 0x90) ops).log,
        r.Survives (Run.run EmitState.step (.start (fun _ => 0) (fun _ => .Text)
          (fun _ => 16) .Little fun _ => 0x90) ops).ctx.finalize := by
  intro h
  have hfirst := h [.getOrCreateLabel (some 0) 7 "loop", .bindLabel 0, .emit 0 (.emit8 0xAA),
      .bindLabel 0, .emit 0 (.emit8 0xBB)] ⟨0, 2, 0, 0, [0xAA]⟩ (by decide)
  exact absurd hfirst.2 (by decide)

end EzPacker.Object
