import EzPacker.RegAlloc.InterferenceGraph

/-!
# What the interference graph contains

The graph is symmetric and without loops whatever is connected, and building it only
ever adds to it. Behind the walk over a block, each definition is joined to everything
live behind its instruction that may be of the same bank.
-/

namespace EzPacker.RegAlloc

open List Mir KeyedSet InterferenceGraph

/-- The registers live in front of the last instructions of a block. -/
def liveAt (liveOut : List MirRegisterRef) : List MirInstruction → RegKey → Prop
  | [], k => k ∈ keys regKey liveOut
  | inst :: rest, k =>
    liveAt liveOut rest k ∧ k ∉ keys regKey inst.getDefinedRegisters ∨
      k ∈ keys regKey inst.getUsedRegisters

def LiveAtDef (liveOut : List MirRegisterRef) (instructions : List MirInstruction)
    (d l : RegKey) : Prop :=
  ∃ pre inst post, instructions = pre ++ inst :: post ∧
    d ∈ keys regKey inst.getDefinedRegisters ∧ liveAt liveOut post l

/-- What is true of a graph however it came about. -/
structure GraphOk (banks : ℕ → ℕ) (g : InterferenceGraph) : Prop where
  symm : ∀ {a b}, g.Adj a b → g.Adj b a
  irrefl : ∀ a, ¬ g.Adj a a
  isNode : ∀ {a b}, g.Adj a b → g.IsNode a
  nodup : (keys regKey g.nodes).Nodup
  inBank : ∀ r ∈ g.nodes, InBank banks r
  neighborInBank : ∀ {a r}, r ∈ g.neighbors a → InBank banks r

/-- A graph with more nodes and more edges. -/
structure Extends (g g' : InterferenceGraph) : Prop where
  adj : ∀ {a b}, g.Adj a b → g'.Adj a b
  isNode : ∀ {a}, g.IsNode a → g'.IsNode a

namespace Extends

theorem refl (g : InterferenceGraph) : Extends g g := ⟨id, id⟩

theorem trans {g₁ g₂ g₃ : InterferenceGraph} (h : Extends g₁ g₂) (h' : Extends g₂ g₃) :
    Extends g₁ g₃ :=
  ⟨fun hadj => h'.adj (h.adj hadj), fun hnode => h'.isNode (h.isNode hnode)⟩

theorem foldl {α : Type*} {step : InterferenceGraph → α → InterferenceGraph}
    (hstep : ∀ g a, Extends g (step g a)) (as : List α) (g : InterferenceGraph) :
    Extends g (as.foldl step g) := by
  induction as generalizing g with
  | nil => exact refl g
  | cons a as ih => exact (hstep g a).trans (ih (step g a))

end Extends

variable {g : InterferenceGraph} {a : RegKey} {r w x : MirRegisterRef}

theorem foldl_keeps {α : Type*} {P : InterferenceGraph → Prop}
    {step : InterferenceGraph → α → InterferenceGraph} {as : List α}
    (hstep : ∀ g, ∀ a ∈ as, P g → P (step g a)) (h : P g) : P (as.foldl step g) := by
  induction as generalizing g with
  | nil => exact h
  | cons a as ih =>
    apply ih
    · intro g' a' ha'
      exact hstep g' a' (mem_cons_of_mem _ ha')
    · exact hstep g a mem_cons_self h

/-! ### Nodes and edges -/

@[simp] theorem isNode_addNode : (g.addNode r).IsNode a ↔ g.IsNode a ∨ a = regKey r := by
  simp [IsNode, addNode]

@[simp] theorem adj_addNode {b : RegKey} : (g.addNode r).Adj a b ↔ g.Adj a b := Iff.rfl

@[simp] theorem isNode_insertNeighbor :
    (g.insertNeighbor r w).IsNode a ↔ g.IsNode a ∨ a = regKey r := by
  simp [IsNode, insertNeighbor]

@[simp] theorem adj_insertNeighbor {b : RegKey} :
    (g.insertNeighbor r w).Adj a b ↔ g.Adj a b ∨ a = regKey r ∧ b = regKey w := by
  unfold Adj insertNeighbor
  by_cases ha : a = regKey r
  · simp [ha]
  · simp [ha]

theorem mem_addNode (h : x ∈ (g.addNode r).nodes) : x ∈ g.nodes ∨ x = r := mem_of_mem_insert h

theorem mem_neighbors_insertNeighbor (h : x ∈ (g.insertNeighbor r w).neighbors a) :
    x ∈ g.neighbors a ∨ x = w := by
  unfold insertNeighbor at h
  dsimp only at h
  split at h
  · exact mem_of_mem_insert h
  · exact .inl h

theorem mem_insertNeighbor (h : x ∈ (g.insertNeighbor r w).nodes) :
    x ∈ g.nodes ∨ x = r := mem_of_mem_insert h

section

variable {banks : ℕ → ℕ}

theorem GraphOk.empty : GraphOk banks InterferenceGraph.empty where
  symm := by
    intro a b h
    cases h
  irrefl := by
    intro a h
    cases h
  isNode := by
    intro a b h
    cases h
  nodup := nodup_nil
  inBank := by
    intro r h
    cases h
  neighborInBank := by
    intro a r h
    cases h

theorem GraphOk.addNode (h : GraphOk banks g) (hr : InBank banks r) :
    GraphOk banks (g.addNode r) where
  symm := h.symm
  irrefl := h.irrefl
  isNode := by
    intro a b hadj
    exact isNode_addNode.mpr (.inl (h.isNode hadj))
  nodup := nodup_keys_insert h.nodup
  inBank := by
    intro x hx
    rcases mem_addNode hx with hx | rfl
    · exact h.inBank x hx
    · exact hr
  neighborInBank := h.neighborInBank

theorem addNode_extends (g : InterferenceGraph) (r : MirRegisterRef) : Extends g (g.addNode r) :=
  ⟨id, fun h => isNode_addNode.mpr (.inl h)⟩

variable {b : MirRegisterRef} {live : List MirRegisterRef} {inst : MirInstruction}
  {cc : Option CallingConvDesc} {s : InterferenceGraph × List MirRegisterRef}

theorem GraphOk.insertEdge (h : GraphOk banks g) {a : MirRegisterRef} (hne : regKey a ≠ regKey b)
    (ha : InBank banks a) (hb : InBank banks b) :
    GraphOk banks ((g.insertNeighbor a b).insertNeighbor b a) where
  symm := by
    intro x y
    simp only [adj_insertNeighbor]
    rintro ((hadj | ⟨rfl, rfl⟩) | ⟨rfl, rfl⟩)
    · exact .inl (.inl (h.symm hadj))
    · exact .inr ⟨rfl, rfl⟩
    · exact .inl (.inr ⟨rfl, rfl⟩)
  irrefl := by
    intro x
    simp only [adj_insertNeighbor]
    rintro ((hadj | ⟨rfl, heq⟩) | ⟨rfl, heq⟩)
    · exact h.irrefl x hadj
    · exact hne heq
    · exact hne heq.symm
  isNode := by
    intro x y
    simp only [adj_insertNeighbor, isNode_insertNeighbor]
    rintro ((hadj | ⟨rfl, rfl⟩) | ⟨rfl, rfl⟩)
    · exact .inl (.inl (h.isNode hadj))
    · exact .inl (.inr rfl)
    · exact .inr rfl
  nodup := nodup_keys_insert (nodup_keys_insert h.nodup)
  inBank := by
    intro x hx
    rcases mem_insertNeighbor hx with hx | rfl
    · rcases mem_insertNeighbor hx with hx | rfl
      · exact h.inBank x hx
      · exact ha
    · exact hb
  neighborInBank := by
    intro k x hx
    rcases mem_neighbors_insertNeighbor hx with hx | rfl
    · rcases mem_neighbors_insertNeighbor hx with hx | rfl
      · exact h.neighborInBank hx
      · exact hb
    · exact ha

theorem connect_extends (g : InterferenceGraph) (a b : MirRegisterRef) :
    Extends g (g.connect a b) := by
  unfold connect
  constructor
  · intro x y h
    split
    · exact h
    · simp [h]
  · intro x h
    split
    · exact isNode_addNode.mpr (.inl h)
    · simp [h]

theorem GraphOk.connect (h : GraphOk banks g) {a : MirRegisterRef} (hne : regKey a ≠ regKey b)
    (ha : InBank banks a) (hb : InBank banks b) : GraphOk banks (g.connect a b) := by
  unfold InterferenceGraph.connect
  split
  · exact h.addNode ha
  · exact (h.addNode ha).insertEdge hne ha hb

theorem adj_connect (g : InterferenceGraph) (a b : MirRegisterRef) :
    (g.connect a b).Adj (regKey a) (regKey b) := by
  unfold connect
  split
  · next hin => exact contains_iff.mp hin
  · simp

/-! ### Interference with what is live -/

theorem interfere_step_extends (r : MirRegisterRef) (g : InterferenceGraph) (l : MirRegisterRef) :
    Extends g (if regKey r ≠ regKey l ∧ mayShareBank r l then g.connect r l else g) := by
  split
  · exact connect_extends g r l
  · exact Extends.refl g

theorem interfere_extends (live : List MirRegisterRef) (g : InterferenceGraph)
    (r : MirRegisterRef) : Extends g (interfere live g r) :=
  (addNode_extends g r).trans (Extends.foldl (interfere_step_extends r) live _)

theorem GraphOk.interfere (h : GraphOk banks g) (hlive : ∀ l ∈ live, InBank banks l)
    (hr : InBank banks r) : GraphOk banks (interfere live g r) := by
  apply foldl_keeps (P := GraphOk banks)
  · intro g' l hl h'
    split
    · next hcond => exact h'.connect hcond.1 hr (hlive l hl)
    · exact h'
  · exact h.addNode hr

theorem adj_interfere {l : MirRegisterRef} (hl : l ∈ live) (hne : regKey r ≠ regKey l)
    (hbank : mayShareBank r l = true) : (interfere live g r).Adj (regKey r) (regKey l) := by
  obtain ⟨before, after, rfl⟩ := append_of_mem hl
  unfold interfere
  rw [foldl_append, foldl_cons]
  apply (Extends.foldl (interfere_step_extends r) after _).adj
  rw [if_pos ⟨hne, hbank⟩]
  exact adj_connect _ r l

theorem foldl_interfere_adj {rs : List MirRegisterRef} {l : MirRegisterRef} (hr : r ∈ rs)
    (hl : l ∈ live) (hne : regKey r ≠ regKey l) (hbank : mayShareBank r l = true) :
    (rs.foldl (interfere live) g).Adj (regKey r) (regKey l) := by
  obtain ⟨before, after, rfl⟩ := append_of_mem hr
  rw [foldl_append, foldl_cons]
  apply (Extends.foldl (interfere_extends live) after _).adj
  exact adj_interfere hl hne hbank

theorem mayShareBank_of_bankOf {a : MirRegisterRef} (ha : InBank banks a) (hb : InBank banks b)
    (h : bankOf banks (regKey a) = bankOf banks (regKey b)) : mayShareBank a b = true := by
  have hclass : ∀ {r : MirRegisterRef} {c : MirRegisterClass}, InBank banks r →
      r.regClass = some c → bankOf banks (regKey r) = some c.bank := by
    intro r c hr hc
    unfold regKey
    cases hv : r.isVirtual with
    | true =>
      obtain ⟨c', hc', hbank⟩ := hr hv
      obtain rfl : c' = c := Option.some.inj (hc'.symm.trans hc)
      simp [bankOf, hbank]
    | false => simp [bankOf, hc]
  unfold mayShareBank
  split
  · next c d hc hd =>
      rw [hclass ha hc, hclass hb hd] at h
      simpa using h
  · rfl

/-! ### The registers of an instruction -/

theorem map_fst_visitOperandRegisters (operand : MirOperand) (flag : MirOperandFlag) :
    (visitOperandRegisters operand flag).map Prod.fst = operandRefs operand := by
  cases operand <;> simp [visitOperandRegisters, operandRefs, Function.comp_def]

theorem operandRefs_of_mem_visits {v : MirRegisterRef × MirOperandFlag} (h : v ∈ inst.visits) :
    v.1 ∈ inst.operands.flatMap operandRefs := by
  obtain ⟨index, _, hv⟩ := mem_flatMap.mp h
  unfold MirInstruction.visitsAt at hv
  split at hv
  · next operand hoperand =>
      apply mem_flatMap.mpr
      refine ⟨operand, mem_of_getElem? hoperand, ?_⟩
      rw [← map_fst_visitOperandRegisters operand (inst.getOperandFlag index)]
      exact mem_map_of_mem hv
  · cases hv

theorem defined_mem_instRefs (h : r ∈ inst.getDefinedRegisters) : r ∈ instRefs inst := by
  rcases mem_append.mp h with h | h
  · obtain ⟨v, hv, rfl⟩ := mem_map.mp h
    have hvisit := operandRefs_of_mem_visits (mem_of_mem_filter hv)
    exact mem_append_left _ (mem_append_left _ hvisit)
  · exact mem_append_left _ (mem_append_right _ h)

theorem used_mem_instRefs (h : r ∈ inst.getUsedRegisters) : r ∈ instRefs inst := by
  rcases mem_append.mp h with h | h
  · obtain ⟨v, hv, rfl⟩ := mem_map.mp h
    have hvisit := operandRefs_of_mem_visits (mem_of_mem_filter hv)
    exact mem_append_left _ (mem_append_left _ hvisit)
  · exact mem_append_right _ h

theorem operand_mem_instRefs (h : .register r ∈ inst.operands) : r ∈ instRefs inst := by
  apply mem_append_left
  apply mem_append_left
  apply mem_flatMap.mpr
  exact ⟨.register r, h, by simp [operandRefs, visitOperandRegisters]⟩

/-! ### The walk over a block -/

theorem protectSources_extends (g : InterferenceGraph) (inst : MirInstruction) :
    Extends g (protectSources g inst) := by
  unfold protectSources
  split
  · split
    · apply Extends.foldl
      intro g' operand
      split
      · split
        · exact connect_extends _ _ _
        · exact Extends.refl _
      · exact Extends.refl _
    · exact Extends.refl g
  · exact Extends.refl g

theorem GraphOk.protectSources (h : GraphOk banks g) (hrefs : ∀ r ∈ instRefs inst, InBank banks r) :
    GraphOk banks (protectSources g inst) := by
  unfold RegAlloc.protectSources
  split
  · next defReg hdefs =>
      have hdef : InBank banks defReg := by
        apply hrefs
        apply defined_mem_instRefs
        rw [hdefs]
        exact mem_singleton_self defReg
      split
      · apply foldl_keeps (P := GraphOk banks)
        · intro g' operand hoperand h'
          split
          · next srcReg =>
              split
              · next hne =>
                  apply h'.connect hne hdef
                  exact hrefs _ (operand_mem_instRefs (mem_of_mem_drop hoperand))
              · exact h'
          · exact h'
        · exact h
      · exact h
  · exact h

theorem mem_keys_visitInstruction {k : RegKey} : k ∈ keys regKey (visitInstruction cc inst s).2 ↔
      k ∈ keys regKey s.2 ∧ k ∉ keys regKey inst.getDefinedRegisters ∨
        k ∈ keys regKey inst.getUsedRegisters := by
  simp [visitInstruction]

theorem visitInstruction_extends (cc : Option CallingConvDesc) (inst : MirInstruction)
    (s : InterferenceGraph × List MirRegisterRef) :
    Extends s.1 (visitInstruction cc inst s).1 := by
  have hclobber := fun clobbered : List MirRegisterRef =>
    Extends.foldl (interfere_extends s.2) clobbered s.1
  have hdefs := fun g => Extends.foldl (interfere_extends s.2) inst.getDefinedRegisters g
  have huses := fun g => Extends.foldl addNode_extends inst.getUsedRegisters g
  unfold visitInstruction
  exact (((hclobber _).trans (hdefs _)).trans (protectSources_extends _ inst)).trans (huses _)

/-- The walk keeps the graph sound and the references within their banks. -/
theorem GraphOk.visitInstruction (cc : Option CallingConvDesc) (h : GraphOk banks s.1)
    (hlive : ∀ l ∈ s.2, InBank banks l) (hrefs : ∀ r ∈ instRefs inst, InBank banks r) :
    GraphOk banks (visitInstruction cc inst s).1 ∧
      ∀ l ∈ (visitInstruction cc inst s).2, InBank banks l := by
  constructor
  · unfold RegAlloc.visitInstruction
    apply foldl_keeps (P := GraphOk banks)
    · intro g r hr h'
      exact h'.addNode (hrefs r (used_mem_instRefs hr))
    · apply GraphOk.protectSources _ hrefs
      apply foldl_keeps (P := GraphOk banks)
      · intro g r hr h'
        exact h'.interfere hlive (hrefs r (defined_mem_instRefs hr))
      · apply foldl_keeps (P := GraphOk banks) _ h
        intro g r hr h'
        apply h'.interfere hlive
        -- The convention names physical registers only.
        intro hvirtual
        split at hr
        · next cc =>
            split at hr
            · rw [cc.callerSaved_physical r hr] at hvirtual
              cases hvirtual
            · cases hr
        · cases hr
  · intro l hl
    rcases mem_of_mem_insertAll hl with hl | hl
    · exact hlive l (mem_of_mem_eraseAll hl)
    · exact hrefs l (used_mem_instRefs hl)

theorem adj_visitInstruction {d l : RegKey} (hlive : ∀ l ∈ s.2, InBank banks l)
    (hrefs : ∀ r ∈ instRefs inst, InBank banks r) (hd : d ∈ keys regKey inst.getDefinedRegisters)
    (hl : l ∈ keys regKey s.2) (hne : d ≠ l) (hbank : bankOf banks d = bankOf banks l) :
    (visitInstruction cc inst s).1.Adj d l := by
  obtain ⟨dr, hdr, rfl⟩ := mem_keys.mp hd
  obtain ⟨lr, hlr, rfl⟩ := mem_keys.mp hl
  have hmay := mayShareBank_of_bankOf (hrefs dr (defined_mem_instRefs hdr)) (hlive lr hlr) hbank
  unfold visitInstruction
  apply (Extends.foldl addNode_extends _ _).adj
  apply (protectSources_extends _ inst).adj
  exact foldl_interfere_adj hdr hlr hne hmay

/-- The walk over the last instructions of a block. -/
theorem foldr_visitInstruction (cc : Option CallingConvDesc) {liveOut : List MirRegisterRef}
    (h : GraphOk banks g) (hout : ∀ l ∈ liveOut, InBank banks l)
    {instructions : List MirInstruction}
    (hrefs : ∀ inst ∈ instructions, ∀ r ∈ instRefs inst, InBank banks r) :
    let s := instructions.foldr (visitInstruction cc) (g, liveOut)
    GraphOk banks s.1 ∧ (∀ l ∈ s.2, InBank banks l) ∧
      ∀ k, k ∈ keys regKey s.2 ↔ liveAt liveOut instructions k := by
  induction instructions with
  | nil => exact ⟨h, hout, fun k => Iff.rfl⟩
  | cons inst instructions ih =>
    obtain ⟨hok, hlive, hkeys⟩ :=
      ih fun i hi => hrefs i (mem_cons_of_mem _ hi)
    obtain ⟨hok', hlive'⟩ :=
      hok.visitInstruction cc hlive (hrefs inst mem_cons_self)
    refine ⟨hok', hlive', ?_⟩
    intro k
    rw [foldr_cons, mem_keys_visitInstruction, hkeys]
    rfl

theorem foldr_visitInstruction_extends (cc : Option CallingConvDesc)
    (instructions : List MirInstruction) (s : InterferenceGraph × List MirRegisterRef) :
    Extends s.1 (instructions.foldr (visitInstruction cc) s).1 := by
  induction instructions with
  | nil => exact Extends.refl s.1
  | cons inst instructions ih => exact ih.trans (visitInstruction_extends cc inst _)

theorem visitBlock_extends (cc : Option CallingConvDesc) (liveOut : ℕ → List MirRegisterRef)
    (g : InterferenceGraph) (b : MirBlock) : Extends g (visitBlock cc liveOut g b) :=
  (Extends.foldl addNode_extends (liveOut b.id) g).trans
    (foldr_visitInstruction_extends cc b.instructions ((liveOut b.id).foldl addNode g, _))

section

variable {g : InterferenceGraph} {liveOut : ℕ → List MirRegisterRef} {b : MirBlock}
  (h : GraphOk banks g) (hout : ∀ l ∈ liveOut b.id, InBank banks l)
  (hrefs : ∀ inst ∈ b.instructions, ∀ r ∈ instRefs inst, InBank banks r)
include h hout hrefs

theorem GraphOk.visitBlock : GraphOk banks (visitBlock cc liveOut g b) := by
  have hnodes : GraphOk banks ((liveOut b.id).foldl InterferenceGraph.addNode g) := by
    apply foldl_keeps (P := GraphOk banks) _ h
    intro g' l hl h'
    exact h'.addNode (hout l hl)
  exact (foldr_visitInstruction cc hnodes hout hrefs).1

theorem adj_visitBlock {d l : RegKey} (hlive : LiveAtDef (liveOut b.id) b.instructions d l)
    (hne : d ≠ l) (hbank : bankOf banks d = bankOf banks l) :
    (visitBlock cc liveOut g b).Adj d l := by
  obtain ⟨pre, inst, post, hsplit, hd, hl⟩ := hlive
  have hnodes : GraphOk banks ((liveOut b.id).foldl addNode g) := by
    apply foldl_keeps (P := GraphOk banks) _ h
    intro g' l hl h'
    exact h'.addNode (hout l hl)
  have hpost : ∀ i ∈ post, ∀ r ∈ instRefs i, InBank banks r := by
    intro i hi
    exact hrefs i (by simp [hsplit, hi])
  obtain ⟨_, hinBank, hkeys⟩ := foldr_visitInstruction cc hnodes hout hpost
  unfold visitBlock
  rw [hsplit, foldr_append, foldr_cons]
  apply (foldr_visitInstruction_extends cc pre _).adj
  apply adj_visitInstruction hinBank (hrefs inst (by simp [hsplit])) hd _ hne hbank
  exact (hkeys l).mpr hl

end

end

variable {f : SelectedFunction} {liveness : LivenessResult f}

theorem interferenceGraph_ok (cc : Option CallingConvDesc) :
    GraphOk f.banks (interferenceGraph cc f liveness) := by
  apply foldl_keeps (P := GraphOk f.banks)
  · intro g b hb h
    exact h.visitBlock (liveness.inBank b.id) (f.inBank b hb)
  · exact GraphOk.empty

theorem adj_interferenceGraph (cc : Option CallingConvDesc) {b : MirBlock}
    (hb : b ∈ f.blocks) {d l : RegKey}
    (hlive : LiveAtDef (liveness.liveOut b.id) b.instructions d l) (hne : d ≠ l)
    (hbank : bankOf f.banks d = bankOf f.banks l) :
    (interferenceGraph cc f liveness).Adj d l := by
  obtain ⟨before, after, hsplit⟩ := append_of_mem hb
  have hbefore : GraphOk f.banks (before.foldl (visitBlock cc liveness.liveOut) empty) := by
    apply foldl_keeps (P := GraphOk f.banks)
    · intro g b' hb' h
      exact h.visitBlock (liveness.inBank b'.id) (f.inBank b' (by simp [hsplit, hb']))
    · exact GraphOk.empty
  unfold interferenceGraph
  rw [hsplit, foldl_append, foldl_cons]
  apply (Extends.foldl (visitBlock_extends cc liveness.liveOut) after _).adj
  exact adj_visitBlock hbefore (liveness.inBank b.id) (f.inBank b hb) hlive hne hbank

end EzPacker.RegAlloc
