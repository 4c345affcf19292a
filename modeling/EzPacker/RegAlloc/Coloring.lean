import Mathlib.Data.List.Perm.Subperm
import EzPacker.RegAlloc.CoalesceFacts

/-!
# The colours of interfering nodes

Simplification puts every virtual node of the graph on the stack once. Selection keeps
apart what it has coloured: whichever of two neighbours is coloured later sees the
colour of the other.
-/

namespace EzPacker.RegAlloc

open List Option Mir KeyedSet InterferenceGraph

/-- A reference that names a virtual node of the graph. -/
structure NodeRef (banks : ℕ → ℕ) (g : InterferenceGraph) (r : MirRegisterRef) : Prop where
  virtual : r.isVirtual = true
  isNode : g.IsNode (regKey r)
  inBank : InBank banks r

/-! ### Simplification -/

theorem popLowDegree_spec (removed queue : List MirRegisterRef) :
    (∀ node, (popLowDegree removed queue).1 = some node →
      node ∈ queue ∧ regKey node ∉ keys regKey removed) ∧
      ∀ r ∈ (popLowDegree removed queue).2, r ∈ queue := by
  induction queue with
  | nil => simp [popLowDegree]
  | cons node queue ih =>
    unfold popLowDegree
    split
    · constructor
      · intro n hn
        obtain ⟨hmem, hnot⟩ := ih.1 n hn
        exact ⟨mem_cons_of_mem _ hmem, hnot⟩
      · intro r hr
        exact mem_cons_of_mem _ (ih.2 r hr)
    · next hnot =>
        constructor
        · intro n hn
          obtain rfl := some.inj hn
          exact ⟨mem_cons_self, by simpa using hnot⟩
        · intro r hr
          exact mem_cons_of_mem _ hr

variable {r : MirRegisterRef}

theorem mem_of_mem_swapRemove {l : List MirRegisterRef} {i : ℕ} (h : r ∈ swapRemove l i) :
    r ∈ l := by
  unfold swapRemove at h
  split at h
  · next back hback =>
      rcases mem_or_eq_of_mem_set (dropLast_subset _ h) with h | rfl
      · exact h
      · exact mem_of_getLast? hback
  · exact h

theorem scanSpill_spec (removed : List MirRegisterRef)
    (cheaper : MirRegisterRef → MirRegisterRef → Bool) {P : MirRegisterRef → Prop} (n i : ℕ)
    {l : List MirRegisterRef} (hl : ∀ r ∈ l, P r) {best : Option (ℕ × MirRegisterRef)}
    (hbest : ∀ b, best = some b → P b.2 ∧ regKey b.2 ∉ keys regKey removed) :
    (∀ r ∈ (scanSpill removed cheaper n i l best).1, P r) ∧
      ∀ b, (scanSpill removed cheaper n i l best).2 = some b →
        P b.2 ∧ regKey b.2 ∉ keys regKey removed := by
  induction n generalizing i l best with
  | zero => exact ⟨hl, hbest⟩
  | succ n ih =>
    unfold scanSpill
    cases hentry : l[i]? with
    | none => exact ⟨hl, hbest⟩
    | some node =>
      have hnode : P node := hl node (mem_of_getElem? hentry)
      dsimp only
      split
      · exact ih i (fun r hr => hl r (mem_of_mem_swapRemove hr)) hbest
      · next hnot =>
          have hfree : regKey node ∉ keys regKey removed := by
            simpa using hnot
          have hchosen : ∀ b, some (i, node) = some b →
              P b.2 ∧ regKey b.2 ∉ keys regKey removed := by
            intro b hb
            obtain rfl := some.inj hb
            exact ⟨hnode, hfree⟩
          cases best with
          | none => exact ih (i + 1) hl hchosen
          | some b =>
            apply ih (i + 1) hl
            split
            · exact hchosen
            · exact hbest

section

variable {target : TargetRegisters} {mapOrder setOrder : IterationOrder}
  {f : SelectedFunction} {ctx : RegisterAllocatorCtx} {banks : ℕ → ℕ}

/-- What holds while nodes are taken off the graph. -/
structure SimplifyInv (banks : ℕ → ℕ) (ctx : RegisterAllocatorCtx) (st : SimplifyState) :
    Prop where
  queue : ∀ r ∈ st.lowDegreeQueue, NodeRef banks ctx.iGraph r
  candidates : ∀ r ∈ st.spillCandidates, NodeRef banks ctx.iGraph r
  stack : ∀ r ∈ st.selectStack, NodeRef banks ctx.iGraph r
  removed : ∀ r ∈ st.removedNodes, NodeRef banks ctx.iGraph r
  onStack : ∀ k ∈ keys regKey st.removedNodes, k ∈ keys regKey st.selectStack
  nodup : (keys regKey st.removedNodes).Nodup

theorem mem_keys_virtualNodes {k : RegKey} :
    k ∈ keys regKey (virtualNodes ctx) ↔ ctx.iGraph.IsNode k ∧ k.isVirtual = true := by
  unfold IsNode virtualNodes
  simp only [KeyedSet.mem_keys, List.mem_filter]
  constructor
  · rintro ⟨r, ⟨hr, hvirtual⟩, rfl⟩
    exact ⟨⟨r, hr, rfl⟩, by simpa using hvirtual⟩
  · rintro ⟨⟨r, hr, rfl⟩, hvirtual⟩
    exact ⟨r, ⟨hr, by simpa using hvirtual⟩, rfl⟩

theorem NodeRef.mem_virtualNodes (h : NodeRef banks ctx.iGraph r) :
    regKey r ∈ keys regKey (virtualNodes ctx) := by
  apply mem_keys_virtualNodes.mpr
  exact ⟨h.isNode, by rw [regKey_isVirtual, h.virtual]⟩

theorem nodeRef_of_mem (h : GraphOk banks ctx.iGraph) (hr : r ∈ virtualNodes ctx) :
    NodeRef banks ctx.iGraph r := by
  obtain ⟨hnode, hvirtual⟩ := mem_filter.mp hr
  exact ⟨hvirtual, key_mem hnode, h.inBank r hnode⟩

variable {st : SimplifyState}

theorem pickCandidate_spec (mapOrder : IterationOrder) (f : SelectedFunction)
    (h : GraphOk banks ctx.iGraph) (hinv : SimplifyInv banks ctx st)
    (hleft : ∃ r ∈ virtualNodes ctx, regKey r ∉ keys regKey st.removedNodes) :
    ∃ node, (pickCandidate mapOrder f ctx st).1 = some node ∧
      NodeRef banks ctx.iGraph node ∧ regKey node ∉ keys regKey st.removedNodes ∧
      (pickCandidate mapOrder f ctx st).2.removedNodes = st.removedNodes ∧
      (pickCandidate mapOrder f ctx st).2.selectStack = st.selectStack ∧
      (∀ r ∈ (pickCandidate mapOrder f ctx st).2.lowDegreeQueue, NodeRef banks ctx.iGraph r) ∧
      ∀ r ∈ (pickCandidate mapOrder f ctx st).2.spillCandidates, NodeRef banks ctx.iGraph r := by
  obtain ⟨hpop, hqueue⟩ := popLowDegree_spec st.removedNodes st.lowDegreeQueue
  unfold pickCandidate
  cases hq : popLowDegree st.removedNodes st.lowDegreeQueue with
  | mk found queue =>
    rw [hq] at hpop hqueue
    have hqueue' : ∀ r ∈ queue, NodeRef banks ctx.iGraph r :=
      fun r hr => hinv.queue r (hqueue r hr)
    cases found with
    | some node =>
      obtain ⟨hmem, hfree⟩ := hpop node rfl
      exact ⟨node, rfl, hinv.queue node hmem, hfree, rfl, rfl, hqueue', hinv.candidates⟩
    | none =>
      obtain ⟨hkept, hchosen⟩ := scanSpill_spec st.removedNodes
        (isCheaper f st.degree) st.spillCandidates.length 0 hinv.candidates
        (fun b (hb : none = some b) => nomatch hb)
      dsimp only
      cases hs : scanSpill st.removedNodes (isCheaper f st.degree)
          st.spillCandidates.length 0 st.spillCandidates none with
      | mk l best =>
        rw [hs] at hkept hchosen
        cases best with
        | some b =>
          obtain ⟨hnode, hfree⟩ := hchosen b rfl
          refine ⟨b.2, rfl, hnode, hfree, rfl, rfl, hqueue', ?_⟩
          intro r hr
          exact hkept r (mem_of_mem_swapRemove hr)
        | none =>
          obtain ⟨r, hr, hfree⟩ := hleft
          obtain ⟨hnode, hvirtual⟩ := mem_filter.mp hr
          have hsome : ((mapOrder.order ctx.iGraph.nodes).find? fun node =>
              node.isVirtual ∧ contains regKey st.removedNodes node = false).isSome = true := by
            apply find?_isSome.mpr
            refine ⟨r, (mapOrder.perm _).mem_iff.mpr hnode, ?_⟩
            simpa [hvirtual, contains_eq_false] using hfree
          obtain ⟨node, hfound⟩ := isSome_iff_exists.mp hsome
          have hcond := find?_some hfound
          simp only [decide_eq_true_eq, contains_eq_false] at hcond
          have hmem := (mapOrder.perm _).mem_iff.mp (mem_of_find?_eq_some hfound)
          refine ⟨node, hfound, ?_, hcond.2, rfl, rfl, hqueue', hkept⟩
          exact ⟨hcond.1, key_mem hmem, h.inBank node hmem⟩

theorem lowerDegree_spec (target : TargetRegisters) (ctx : RegisterAllocatorCtx)
    (st : SimplifyState) (neighbor : MirRegisterRef) :
    (lowerDegree target ctx st neighbor).removedNodes = st.removedNodes ∧
      (lowerDegree target ctx st neighbor).selectStack = st.selectStack ∧
      (lowerDegree target ctx st neighbor).spillCandidates = st.spillCandidates ∧
      ∀ r ∈ (lowerDegree target ctx st neighbor).lowDegreeQueue,
        r ∈ st.lowDegreeQueue ∨ r = neighbor ∧ neighbor.isVirtual = true := by
  unfold lowerDegree
  split
  · next hvirtual =>
      split
      · refine ⟨rfl, rfl, rfl, ?_⟩
        dsimp only
        intro r hr
        split at hr
        · rcases mem_cons.mp hr with rfl | hr
          · exact .inr ⟨rfl, hvirtual.1⟩
          · exact .inl hr
        · exact .inl hr
      · exact ⟨rfl, rfl, rfl, fun r hr => .inl hr⟩
  · exact ⟨rfl, rfl, rfl, fun r hr => .inl hr⟩

theorem foldl_lowerDegree_spec (target : TargetRegisters) {neighbors : List MirRegisterRef}
    (hneighbors : ∀ r ∈ neighbors, r.isVirtual = true → NodeRef banks ctx.iGraph r)
    (hqueue : ∀ r ∈ st.lowDegreeQueue, NodeRef banks ctx.iGraph r) :
    (neighbors.foldl (lowerDegree target ctx) st).removedNodes = st.removedNodes ∧
      (neighbors.foldl (lowerDegree target ctx) st).selectStack = st.selectStack ∧
      (neighbors.foldl (lowerDegree target ctx) st).spillCandidates = st.spillCandidates ∧
      ∀ r ∈ (neighbors.foldl (lowerDegree target ctx) st).lowDegreeQueue,
        NodeRef banks ctx.iGraph r := by
  induction neighbors generalizing st with
  | nil => exact ⟨rfl, rfl, rfl, hqueue⟩
  | cons neighbor neighbors ih =>
    obtain ⟨hremoved, hstack, hspill, hnew⟩ := lowerDegree_spec target ctx st neighbor
    have hqueue' : ∀ r ∈ (lowerDegree target ctx st neighbor).lowDegreeQueue,
        NodeRef banks ctx.iGraph r := by
      intro r hr
      rcases hnew r hr with hr | ⟨rfl, hvirtual⟩
      · exact hqueue r hr
      · exact hneighbors _ mem_cons_self hvirtual
    obtain ⟨h1, h2, h3, h4⟩ :=
      ih (fun r hr => hneighbors r (mem_cons_of_mem _ hr)) hqueue'
    exact ⟨h1.trans hremoved, h2.trans hstack, h3.trans hspill, h4⟩

/-- A step takes one more node away. -/
theorem SimplifyInv.step (h : GraphOk banks ctx.iGraph) (hinv : SimplifyInv banks ctx st)
    (hleft : ∃ r ∈ virtualNodes ctx, regKey r ∉ keys regKey st.removedNodes) :
    SimplifyInv banks ctx (simplifyStep target mapOrder setOrder f ctx st) ∧
      (simplifyStep target mapOrder setOrder f ctx st).removedNodes.length =
        st.removedNodes.length + 1 := by
  obtain ⟨node, hpick, hnode, hfree, hsame, hsameStack, hqueue, hcandidates⟩ :=
    pickCandidate_spec mapOrder f h hinv hleft
  have hneighbors : ∀ r ∈ setOrder.order (ctx.iGraph.neighbors (regKey node)),
      r.isVirtual = true → NodeRef banks ctx.iGraph r := by
    intro r hr hvirtual
    have hmem := (setOrder.perm _).mem_iff.mp hr
    exact ⟨hvirtual, h.isNode (h.symm (key_mem hmem)), h.neighborInBank hmem⟩
  unfold simplifyStep
  rw [hpick, getD_some]
  generalize (pickCandidate mapOrder f ctx st).2 = st' at hsame hsameStack hqueue hcandidates ⊢
  let start : SimplifyState :=
    { st' with
      removedNodes := insert regKey st'.removedNodes node
      selectStack := node :: st'.selectStack }
  have hqueueStart : ∀ r ∈ start.lowDegreeQueue, NodeRef banks ctx.iGraph r := hqueue
  obtain ⟨hremoved, hstack, hspill, hqueue'⟩ :=
    foldl_lowerDegree_spec target hneighbors hqueueStart
  have hremoved' : (removeNode target setOrder ctx node st').removedNodes =
      insert regKey st.removedNodes node := by
    rw [← hsame]
    exact hremoved
  have hstack' : (removeNode target setOrder ctx node st').selectStack =
      node :: st.selectStack := by
    rw [← hsameStack]
    exact hstack
  have hinsert : insert regKey st.removedNodes node = st.removedNodes ++ [node] := by
    simp [KeyedSet.insert, contains_eq_false.mpr hfree]
  constructor
  · constructor
    case queue => exact hqueue'
    case candidates =>
      intro r hr
      have hr' : r ∈ st'.spillCandidates := by
        have heq : (removeNode target setOrder ctx node st').spillCandidates =
            st'.spillCandidates := hspill
        rw [← heq]
        exact hr
      exact hcandidates r hr'
    case stack =>
      rw [hstack']
      intro r hr
      rcases mem_cons.mp hr with rfl | hr
      · exact hnode
      · exact hinv.stack r hr
    case removed =>
      rw [hremoved']
      intro r hr
      rcases mem_of_mem_insert hr with hr | rfl
      · exact hinv.removed r hr
      · exact hnode
    case onStack =>
      rw [hremoved', hstack']
      intro k hk
      rcases mem_keys_insert.mp hk with hk | rfl
      · exact mem_cons_of_mem _ (hinv.onStack k hk)
      · exact mem_cons_self
    case nodup =>
      rw [hremoved']
      exact nodup_keys_insert hinv.nodup
  · rw [hremoved', hinsert]
    simp

theorem SimplifyInv.exists_left (h : GraphOk banks ctx.iGraph)
    (hlt : st.removedNodes.length < (virtualNodes ctx).length) :
    ∃ r ∈ virtualNodes ctx, regKey r ∉ keys regKey st.removedNodes := by
  by_contra hnone
  have hsub : keys regKey (virtualNodes ctx) ⊆ keys regKey st.removedNodes := by
    intro k hk
    obtain ⟨r, hr, rfl⟩ := KeyedSet.mem_keys.mp hk
    by_contra hfree
    exact hnone ⟨r, hr, hfree⟩
  have hnodup : (keys regKey (virtualNodes ctx)).Nodup :=
    h.nodup.sublist (List.filter_sublist.map regKey)
  have hle := (hnodup.subperm hsub).length_le
  simp only [KeyedSet.keys, List.length_map] at hle
  omega

theorem SimplifyInv.loop (target : TargetRegisters) (mapOrder setOrder : IterationOrder)
    (f : SelectedFunction) (h : GraphOk banks ctx.iGraph) {n : ℕ} (hinv : SimplifyInv banks ctx st)
    (hn : st.removedNodes.length + n = (virtualNodes ctx).length) :
    SimplifyInv banks ctx (simplifyLoop target mapOrder setOrder f ctx n st) ∧
      (simplifyLoop target mapOrder setOrder f ctx n st).removedNodes.length =
        (virtualNodes ctx).length := by
  induction n generalizing st with
  | zero => exact ⟨hinv, hn⟩
  | succ n ih =>
    have hlt : st.removedNodes.length < (virtualNodes ctx).length := by omega
    obtain ⟨hstep, hlength⟩ := hinv.step h (SimplifyInv.exists_left h hlt)
    exact ih hstep (by rw [hlength]; omega)

theorem simplify_spec (h : GraphOk banks ctx.iGraph) {ctx' : RegisterAllocatorCtx}
    (hsimplify : simplify target mapOrder setOrder f ctx = some ctx') :
    (ctx'.iGraph = ctx.iGraph ∧ ctx'.coalescedRegs = ctx.coalescedRegs ∧
      ctx'.affinity = ctx.affinity ∧ ctx'.allocatedRegs = ctx.allocatedRegs) ∧
      (∀ r ∈ ctx'.selectStack, NodeRef banks ctx.iGraph r) ∧
      (∀ k ∈ keys regKey ctx'.removedNodes, k ∈ keys regKey ctx'.selectStack) ∧
      ∀ k, k ∈ keys regKey ctx'.removedNodes ↔ ctx.iGraph.IsNode k ∧ k.isVirtual = true := by
  unfold simplify at hsimplify
  split at hsimplify
  · cases hsimplify
  · obtain rfl := Option.some.inj hsimplify
    have hvirtual : ∀ r ∈ mapOrder.order (virtualNodes ctx), NodeRef banks ctx.iGraph r := by
      intro r hr
      exact nodeRef_of_mem h ((mapOrder.perm _).mem_iff.mp hr)
    have hstart : SimplifyInv banks ctx (simplifyStart target mapOrder ctx) := by
      constructor
      case queue =>
        intro r hr
        exact hvirtual r (List.mem_of_mem_filter (List.mem_reverse.mp hr))
      case candidates => exact fun r hr => hvirtual r (List.mem_of_mem_filter hr)
      case stack => exact fun r hr => nomatch hr
      case removed => exact fun r hr => nomatch hr
      case onStack => exact fun k hk => nomatch hk
      case nodup => exact List.nodup_nil
    obtain ⟨hinv, hlength⟩ :=
      hstart.loop target mapOrder setOrder f h (Nat.zero_add (virtualNodes ctx).length)
    refine ⟨⟨rfl, rfl, rfl, rfl⟩, hinv.stack, hinv.onStack, ?_⟩
    intro k
    rw [← mem_keys_virtualNodes]
    -- As many different nodes are removed as there are.
    have hsub : keys regKey (simplifyLoop target mapOrder setOrder f ctx
        (virtualNodes ctx).length (simplifyStart target mapOrder ctx)).removedNodes ⊆
        keys regKey (virtualNodes ctx) := by
      intro k hk
      obtain ⟨r, hr, rfl⟩ := KeyedSet.mem_keys.mp hk
      exact (hinv.removed r hr).mem_virtualNodes
    have hperm := (hinv.nodup.subperm hsub).perm_of_length_le (by
      simp only [KeyedSet.keys, List.length_map, hlength]
      exact Nat.le_refl _)
    exact hperm.mem_iff

end

/-! ### Selection -/

section

variable {target : TargetRegisters} {ctx : RegisterAllocatorCtx} {banks : ℕ → ℕ}

def SmallId (r : MirRegisterRef) : Prop := r.isVirtual = false → r.id < 64

variable {used : List ℕ} {node p : MirRegisterRef}

theorem mem_markUsed_of_mem {id color : ℕ} (h : color ∈ used) : color ∈ markUsed used id := by
  unfold markUsed
  split
  · exact mem_cons_of_mem _ h
  · exact h

theorem mem_markUsed {id : ℕ} (h : id < 64) : id ∈ markUsed used id := by
  unfold markUsed
  rw [if_pos h]
  exact mem_cons_self

theorem mem_markNeighbor_of_mem {neighbor : MirRegisterRef} {color : ℕ} (h : color ∈ used) :
    color ∈ markNeighbor ctx node used neighbor := by
  unfold markNeighbor
  split
  · exact h
  · split
    · split
      · exact mem_markUsed_of_mem h
      · exact h
    · split
      · split
        · exact mem_markUsed_of_mem h
        · exact h
      · exact h

theorem mem_foldl_markNeighbor {color : ℕ} (l : List MirRegisterRef) (h : color ∈ used) :
    color ∈ l.foldl (markNeighbor ctx node) used := by
  induction l generalizing used with
  | nil => exact h
  | cons n l ih => exact ih (mem_markNeighbor_of_mem h)

theorem mem_usedColors {neighbor : MirRegisterRef} {color : ℕ}
    (hmem : neighbor ∈ ctx.iGraph.neighbors (regKey node))
    (hmark : ∀ used, color ∈ markNeighbor ctx node used neighbor) :
    color ∈ usedColors target ctx node := by
  obtain ⟨before, after, hsplit⟩ := append_of_mem hmem
  unfold usedColors
  rw [hsplit, foldl_append, foldl_cons]
  exact mem_foldl_markNeighbor after (hmark _)

def colorOf (ctx : RegisterAllocatorCtx) : RegKey → Option ℕ
  | .preg _ id => some id
  | .vreg id => (ctx.allocatedRegs (.vreg id)).map MirRegisterRef.id

/-- Not waiting for a colour. -/
def IsColored (ctx : RegisterAllocatorCtx) (k : RegKey) : Prop :=
  k ∉ keys regKey ctx.removedNodes

/-- What holds while colours are given. -/
structure SelectInv (banks : ℕ → ℕ) (ctx : RegisterAllocatorCtx) : Prop where
  graph : GraphOk banks ctx.iGraph
  waiting : ∀ k ∈ keys regKey ctx.removedNodes, k.isVirtual = true
  small : ∀ k, k.isVirtual = true → ∀ p, ctx.allocatedRegs k = some p → p.id < 64
  partners : (∀ e ∈ ctx.coalescedRegs, SmallId e.2) ∧ ∀ k, ∀ r ∈ ctx.affinity k, SmallId r
  assigned : ∀ k, k.isVirtual = true → ctx.iGraph.IsNode k → IsColored ctx k →
    ∃ p, ctx.allocatedRegs k = some p ∧ p.isVirtual = false ∧
      bankOf banks (regKey p) = bankOf banks k
  apart : ∀ {a b}, ctx.iGraph.Adj a b → bankOf banks a = bankOf banks b →
    IsColored ctx a → IsColored ctx b → (a.isVirtual = true ∨ b.isVirtual = true) →
    colorOf ctx a ≠ colorOf ctx b

theorem partnerColor_small (h : SelectInv banks ctx) {k : RegKey} {partner color : MirRegisterRef}
    (hpartner : partner ∈ ctx.affinity k) (hcolor : partnerColor ctx partner = some color)
    (hphysical : color.isVirtual = false) : color.id < 64 := by
  unfold partnerColor at hcolor
  dsimp only at hcolor
  split at hcolor
  · obtain rfl := some.inj hcolor
    unfold RegisterAllocatorCtx.getCoalescedLeader at hphysical ⊢
    rcases leaderFrom_eq_or_mem ctx.coalescedRegs ctx.coalescedRegs.length partner with
      heq | ⟨e, he, heq⟩
    · rw [heq] at hphysical ⊢
      exact h.partners.2 k partner hpartner hphysical
    · rw [heq] at hphysical ⊢
      exact h.partners.1 e he hphysical
  · next hvirtual =>
      apply h.small _ _ _ hcolor
      rw [regKey_isVirtual]
      simpa using hvirtual

theorem pickColor_spec (h : SelectInv banks ctx) (hsmall : ∀ c, ∀ id ∈ target.classRegs c, id < 64)
    (hpick : pickColor target ctx node = some p) :
    p.isVirtual = false ∧ p.regClass = node.regClass ∧ p.id < 64 ∧
      p.id ∉ usedColors target ctx node := by
  unfold pickColor at hpick
  dsimp only at hpick
  have hfree : ∀ {id}, isUsed (usedColors target ctx node) id = false → id < 64 →
      id ∉ usedColors target ctx node := by
    intro id hused hid hmem
    simp [isUsed, hid, hmem] at hused
  split at hpick
  · next color hpreferred =>
      obtain rfl := some.inj hpick
      obtain ⟨partner, hpartner, hfilter⟩ := exists_of_findSome?_eq_some hpreferred
      obtain ⟨hcolor, hcond⟩ := filter_eq_some_iff.mp hfilter
      simp only [decide_eq_true_eq] at hcond
      obtain ⟨hphysical, hclass, hused⟩ := hcond
      have hid := partnerColor_small h hpartner hcolor hphysical
      exact ⟨hphysical, hclass, hid, hfree hused hid⟩
  · have hmem := mem_of_find?_eq_some hpick
    have hused : isUsed (usedColors target ctx node) p.id = false := by
      simpa using find?_some hpick
    unfold availableColors at hmem
    split at hmem
    · next c hc =>
        obtain ⟨id, hid, rfl⟩ := mem_map.mp hmem
        exact ⟨rfl, hc.symm, hsmall c id hid, hfree hused (hsmall c id hid)⟩
    · cases hmem

theorem bankOf_of_class (hvirtual : node.isVirtual = true) (hnode : InBank banks node)
    (hp : p.isVirtual = false) (hclass : p.regClass = node.regClass) :
    bankOf banks (regKey p) = bankOf banks (regKey node) := by
  obtain ⟨c, hc, hbank⟩ := hnode hvirtual
  simp [regKey, hp, hvirtual, bankOf, hclass, hc, hbank]

/-- A coloured neighbour of the bank does not have an unused colour. -/
theorem colorOf_neighbor_ne (h : SelectInv banks ctx) {b : RegKey} {id : ℕ}
    (hnode : NodeRef banks ctx.iGraph node) (hadj : ctx.iGraph.Adj (regKey node) b)
    (hbank : bankOf banks (regKey node) = bankOf banks b) (hcolored : IsColored ctx b)
    (hid : id < 64) (hfree : id ∉ usedColors target ctx node) : colorOf ctx b ≠ some id := by
  obtain ⟨t, ht, rfl⟩ := KeyedSet.mem_keys.mp hadj
  have hremoved : contains regKey ctx.removedNodes t = false := contains_eq_false.mpr hcolored
  intro hcolor
  apply hfree
  cases hvirtual : t.isVirtual with
  | false =>
    have hshare := mayShareBank_of_bankOf (a := t) (fun hv => by simp [hvirtual] at hv)
      hnode.inBank hbank.symm
    have hsame : t.id = id := by
      simpa [regKey, hvirtual, colorOf] using hcolor
    apply mem_usedColors ht
    intro used
    unfold markNeighbor
    rw [hremoved, if_neg Bool.false_ne_true, if_pos hvirtual, if_pos hshare, hsame]
    exact mem_markUsed hid
  | true =>
    obtain ⟨q, hq, hphysical, hbankq⟩ := h.assigned (regKey t) (by simp [hvirtual])
      (h.graph.isNode (h.graph.symm hadj)) hcolored
    have hshare := mayShareBank_of_bankOf (a := q) (fun hv => by simp [hphysical] at hv)
      hnode.inBank (hbankq.trans hbank.symm)
    have hsame : q.id = id := by
      have hkey : regKey t = .vreg t.id := by simp [regKey, hvirtual]
      rw [hkey] at hcolor hq
      simpa [colorOf, hq] using hcolor
    apply mem_usedColors ht
    intro used
    unfold markNeighbor
    rw [hremoved, if_neg Bool.false_ne_true, if_neg (by simp [hvirtual]), hq]
    dsimp only
    rw [if_pos hshare, hsame]
    exact mem_markUsed hid

/-- Giving a node an unused colour keeps coloured neighbours apart. -/
theorem SelectInv.assign (h : SelectInv banks ctx) (hnode : NodeRef banks ctx.iGraph node)
    (hphysical : p.isVirtual = false) (hclass : p.regClass = node.regClass) (hid : p.id < 64)
    (hfree : p.id ∉ usedColors target ctx node) : SelectInv banks (ctx.assign node p) := by
  have hcolored : ∀ {k}, IsColored (ctx.assign node p) k → k ≠ regKey node → IsColored ctx k := by
    intro k hk hne hmem
    exact hk (mem_keys_erase.mpr ⟨hmem, hne⟩)
  have hkey : regKey node = .vreg node.id := by simp [regKey, hnode.virtual]
  have hcolorNode : colorOf (ctx.assign node p) (regKey node) = some p.id := by
    rw [hkey]
    simp [colorOf, RegisterAllocatorCtx.assign, hkey]
  have hcolor : ∀ k, k ≠ regKey node → colorOf (ctx.assign node p) k = colorOf ctx k := by
    intro k hk
    cases k with
    | preg c id => rfl
    | vreg id =>
      show ((if RegKey.vreg id = regKey node then some p
        else ctx.allocatedRegs (.vreg id)).map MirRegisterRef.id) = _
      rw [if_neg hk]
      rfl
  constructor
  case graph => exact h.graph
  case waiting =>
    intro k hk
    exact h.waiting k (mem_keys_erase.mp hk).1
  case small =>
    intro k hk q hq
    change (if k = regKey node then some p else ctx.allocatedRegs k) = some q at hq
    split at hq
    · obtain rfl := some.inj hq
      exact hid
    · exact h.small k hk q hq
  case partners => exact h.partners
  case assigned =>
    intro k hk hisNode hcol
    show ∃ q, (if k = regKey node then some p else ctx.allocatedRegs k) = some q ∧ _
    by_cases hkn : k = regKey node
    · rw [if_pos hkn]
      refine ⟨p, rfl, hphysical, ?_⟩
      rw [hkn]
      exact bankOf_of_class hnode.virtual hnode.inBank hphysical hclass
    · rw [if_neg hkn]
      exact h.assigned k hk hisNode (hcolored hcol hkn)
  case apart =>
    intro a b hadj hbank ha hb hvirtual
    have hadj' : ctx.iGraph.Adj a b := hadj
    by_cases han : a = regKey node
    · have hbn : b ≠ regKey node := by
        rintro rfl
        exact h.graph.irrefl _ (han ▸ hadj')
      rw [han, hcolorNode, hcolor b hbn]
      rw [han] at hadj' hbank
      exact (colorOf_neighbor_ne h hnode hadj' hbank (hcolored hb hbn) hid hfree).symm
    · by_cases hbn : b = regKey node
      · rw [hbn, hcolorNode, hcolor a han]
        rw [hbn] at hadj' hbank
        exact colorOf_neighbor_ne h hnode (h.graph.symm hadj') hbank.symm (hcolored ha han)
          hid hfree
      · rw [hcolor a han, hcolor b hbn]
        exact h.apart hadj' hbank (hcolored ha han) (hcolored hb hbn) hvirtual

theorem SelectInv.selectLoop (hsmall : ∀ c, ∀ id ∈ target.classRegs c, id < 64)
    {stack spilled : List MirRegisterRef} {ctx ctx' : RegisterAllocatorCtx}
    (h : SelectInv banks ctx) (hstack : ∀ r ∈ stack, NodeRef banks ctx.iGraph r)
    (hwaiting : ∀ k ∈ keys regKey ctx.removedNodes, k ∈ keys regKey stack ∨ k ∈ keys regKey spilled)
    (hresult : selectLoop target stack spilled ctx = .colored ctx') :
    SelectInv banks ctx' ∧ ctx'.iGraph = ctx.iGraph ∧
      ctx'.coalescedRegs = ctx.coalescedRegs ∧ ∀ k, IsColored ctx' k := by
  induction stack generalizing spilled ctx with
  | nil =>
    cases spilled with
    | nil =>
      cases hresult
      refine ⟨h, rfl, rfl, ?_⟩
      intro k hk
      rcases hwaiting k hk with hk | hk
      · cases hk
      · cases hk
    | cons node spilled => cases hresult
  | cons node stack ih =>
    unfold RegAlloc.selectLoop at hresult
    have hrest : ∀ r ∈ stack, NodeRef banks ctx.iGraph r :=
      fun r hr => hstack r (mem_cons_of_mem _ hr)
    split at hresult
    · next p hpick =>
        obtain ⟨hphysical, hclass, hid, hfree⟩ := pickColor_spec h hsmall hpick
        have hnode := hstack node mem_cons_self
        have h' := h.assign hnode hphysical hclass hid hfree
        obtain ⟨hinv, hgraph, hcoalesced, hall⟩ := ih h' hrest (by
          intro k hk
          obtain ⟨hk, hne⟩ := mem_keys_erase.mp hk
          rcases hwaiting k hk with hk | hk
          · rcases mem_cons.mp hk with rfl | hk
            · exact absurd rfl hne
            · exact .inl hk
          · exact .inr hk) hresult
        exact ⟨hinv, hgraph, hcoalesced, hall⟩
    · split at hresult
      · cases hresult
      · apply ih h hrest _ hresult
        intro k hk
        rcases hwaiting k hk with hk | hk
        · rcases mem_cons.mp hk with rfl | hk
          · exact .inr (mem_keys_insert.mpr (.inr rfl))
          · exact .inl hk
        · exact .inr (mem_keys_insert.mpr (.inl hk))

end

end EzPacker.RegAlloc
