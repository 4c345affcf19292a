import EzPacker.Dominance.ImmediateDominators

/-!
# What the pass records

The immediate dominators are exact for every graph. The runner records a block in the
frontier of everything between one of its predecessors and its immediate dominator. The
entry has itself for an immediate dominator, where the runner stops, so an entry with a
predecessor is missing from its own frontier.
-/

namespace EzPacker.Dominance

open List Option CodeFlow RootedGraph

section Runner

variable {g : Cfg} {P : g.graph.PostOrder} {T : ℕ → Option ℕ} (h : Candidates P T)

include h

theorem runUp_eq {fuel bIdom runner : ℕ} (bId : ℕ) (domFrontier : ℕ → Finset ℕ)
    (hrunner : (T runner).isSome) (hidom : Above T bIdom runner)
    (hfuel : P.rank g.graph.root - P.rank runner < fuel) :
    ∃ domFrontier', runUp T bId bIdom fuel runner domFrontier = some domFrontier' ∧
      ∀ x y, y ∈ domFrontier' x ↔
        y ∈ domFrontier x ∨ y = bId ∧ Above T x runner ∧ ¬ Above T x bIdom := by
  induction fuel generalizing runner domFrontier with
  | zero => omega
  | succ fuel ih =>
    by_cases heq : runner = bIdom
    · refine ⟨domFrontier, by rw [runUp, if_pos heq], fun x y => ?_⟩
      rw [heq]
      tauto
    · obtain ⟨next, hnext⟩ := isSome_iff_exists.mp hrunner
      have hroot : runner ≠ g.graph.root := by
        rintro rfl
        exact heq (h.above_root.mp hidom).symm
      have hlt := h.rank_lt hroot hnext
      have hne : next ≠ runner := by
        rintro rfl
        exact lt_irrefl _ hlt
      have hsome := h.kept _ _ hnext
      have hup : Above T bIdom next := ((above_iff hnext).mp hidom).resolve_left (Ne.symm heq)
      have hnot : ¬ Above T runner bIdom := fun habove =>
        heq (h.above_antisymm hrunner hidom habove).symm
      obtain ⟨domFrontier', hrun, hmem⟩ :=
        ih (Function.update domFrontier runner (insert bId (domFrontier runner))) hsome hup
          (by have := h.rank_le (h.root_above hsome); omega)
      refine ⟨domFrontier', ?_, fun x y => ?_⟩
      · simp only [runUp, heq, hnext, hne, if_false]
        exact hrun
      · rw [hmem, above_iff hnext]
        by_cases hx : x = runner
        · rw [hx, Function.update_self, Finset.mem_insert]
          tauto
        · rw [Function.update_of_ne hx]
          tauto

theorem runPreds_eq {fuel bIdom : ℕ} (bId : ℕ) (hfuel : P.rank g.graph.root < fuel) (preds : List ℕ)
    (hpreds : ∀ p ∈ preds, (T p).isSome ∧ Above T bIdom p) (domFrontier : ℕ → Finset ℕ) :
    ∃ domFrontier', preds.foldlM (fun domFrontier p => runUp T bId bIdom fuel p domFrontier)
        domFrontier = some domFrontier' ∧
      ∀ x y, y ∈ domFrontier' x ↔
        y ∈ domFrontier x ∨ y = bId ∧ ∃ p ∈ preds, Above T x p ∧ ¬ Above T x bIdom := by
  induction preds generalizing domFrontier with
  | nil => exact ⟨domFrontier, rfl, by simp⟩
  | cons p preds ih =>
    rw [forall_mem_cons] at hpreds
    have hroom : P.rank g.graph.root - P.rank p < fuel := by omega
    obtain ⟨domFrontier₁, hrun₁, hmem₁⟩ := runUp_eq h bId domFrontier hpreds.1.1 hpreds.1.2 hroom
    obtain ⟨domFrontier', hrun, hmem⟩ := ih hpreds.2 domFrontier₁
    refine ⟨domFrontier', ?_, fun x y => ?_⟩
    · rw [foldlM_cons, hrun₁]
      exact hrun
    · rw [hmem, hmem₁, exists_mem_cons_iff]
      tauto

end Runner

section Frontier

variable {g : Cfg} {P : g.graph.PostOrder} {T : ℕ → Option ℕ} (h : Stable P T)

/-- What the runner records of a block. -/
def Recorded (g : Cfg) (T : ℕ → Option ℕ) (x y : ℕ) : Prop :=
  2 ≤ (g.result.getPredecessors y).length ∧
    ∃ t, T y = some t ∧ ∃ p ∈ g.result.getPredecessors y, Above T x p ∧ ¬ Above T x t

include h

theorem above_candidate {b t p : ℕ} (hb : b ∈ g.func.blocks) (ht : T b = some t)
    (hp : p ∈ g.result.getPredecessors b) : (T p).isSome ∧ Above T t p := by
  have hnode : g.graph.Node p := g.node_iff.mpr (g.pred_mem b hb p hp)
  have hsome := h.isSome p hnode
  refine ⟨hsome, ?_⟩
  by_cases hroot : b = g.graph.root
  · subst hroot
    rw [← some.inj (h.root.symm.trans ht)]
    exact h.root_above hsome
  · exact h.above_pred b t p hroot ht ((g.converse p b).mpr hp) hnode

theorem frontierOf_eq {fuel b : ℕ} (hfuel : P.rank g.graph.root < fuel)
    (hb : b ∈ g.func.blocks) (domFrontier : ℕ → Finset ℕ) :
    ∃ domFrontier', frontierOf g.result T fuel domFrontier b = some domFrontier' ∧
      ∀ x y, y ∈ domFrontier' x ↔ y ∈ domFrontier x ∨ y = b ∧ Recorded g T x b := by
  obtain ⟨t, ht⟩ := isSome_iff_exists.mp (h.isSome b (g.node_iff.mpr hb))
  by_cases hlen : (g.result.getPredecessors b).length < 2
  · refine ⟨domFrontier, by simp only [frontierOf, ht, hlen, if_true], fun x y => ?_⟩
    have hnot : ¬ Recorded g T x b := fun hr => absurd hr.1 (not_le.mpr hlen)
    tauto
  · obtain ⟨domFrontier', hrun, hmem⟩ :=
      runPreds_eq h.toCandidates b hfuel (g.result.getPredecessors b)
        (fun p hp => above_candidate h hb ht hp) domFrontier
    refine ⟨domFrontier', by simp only [frontierOf, ht, hlen, if_false]; exact hrun, fun x y => ?_⟩
    rw [hmem]
    refine or_congr_right (and_congr_right fun _ => ?_)
    constructor
    · exact fun hex => ⟨not_lt.mp hlen, t, ht, hex⟩
    · rintro ⟨-, t', ht', hex⟩
      rwa [some.inj (ht.symm.trans ht')]

theorem foldlM_frontierOf {fuel : ℕ} (hfuel : P.rank g.graph.root < fuel) (bs : List ℕ)
    (hbs : ∀ b ∈ bs, b ∈ g.func.blocks) (domFrontier : ℕ → Finset ℕ) :
    ∃ domFrontier', bs.foldlM (frontierOf g.result T fuel) domFrontier = some domFrontier' ∧
      ∀ x y, y ∈ domFrontier' x ↔ y ∈ domFrontier x ∨ y ∈ bs ∧ Recorded g T x y := by
  induction bs generalizing domFrontier with
  | nil => exact ⟨domFrontier, rfl, by simp⟩
  | cons b bs ih =>
    rw [forall_mem_cons] at hbs
    obtain ⟨domFrontier₁, hrun₁, hmem₁⟩ := frontierOf_eq h hfuel hbs.1 domFrontier
    obtain ⟨domFrontier', hrun, hmem⟩ := ih hbs.2 domFrontier₁
    refine ⟨domFrontier', ?_, fun x y => ?_⟩
    · rw [foldlM_cons, hrun₁]
      exact hrun
    · have hy : y = b ∧ Recorded g T x b ↔ y = b ∧ Recorded g T x y := by
        refine and_congr_right ?_
        rintro rfl
        rfl
      rw [hmem, hmem₁, hy, mem_cons]
      tauto

/-- A block behind the entry is recorded exactly where it is in the frontier. A single
predecessor of it dominates it, and then nothing is to be recorded. -/
theorem recorded_iff_frontier {x y : ℕ} (hy : y ∈ g.func.blocks) (hroot : y ≠ g.graph.root) :
    Recorded g T x y ↔ y ∈ g.graph.frontier x := by
  have hnode : g.graph.Node y := g.node_iff.mpr hy
  obtain ⟨t, ht⟩ := isSome_iff_exists.mp (h.isSome y hnode)
  have hidom := h.isImmediateDominator hroot ht
  have htnode : g.graph.Node t := h.node_of_isSome (h.kept y t ht)
  have hstrict : Above T x t ↔ g.graph.StrictlyDominates x y := by
    rw [h.above_iff_dominates htnode, hidom.strictlyDominates_iff hnode]
  have hpnode : ∀ p ∈ g.result.getPredecessors y, g.graph.Node p := fun p hp =>
    g.node_iff.mpr (g.pred_mem y hy p hp)
  constructor
  · rintro ⟨-, t', ht', p, hp, hxp, hxt⟩
    rw [← some.inj (ht.symm.trans ht'), hstrict] at hxt
    have hxp' := (h.above_iff_dominates (hpnode p hp)).mp hxp
    exact ⟨⟨p, (g.converse p y).mpr hp, hpnode p hp, hxp'⟩, hxt⟩
  · rintro ⟨⟨p, hpy, hpn, hxp⟩, hxy⟩
    have hp := (g.converse p y).mp hpy
    refine ⟨?_, t, ht, p, hp, (h.above_iff_dominates hpn).mpr hxp, by rwa [hstrict]⟩
    by_contra hlen
    have honly : ∀ q, g.graph.edge q y → q = p := by
      intro q hq
      have hq' := (g.converse q y).mp hq
      have hone : (g.result.getPredecessors y).length ≤ 1 := by omega
      obtain ⟨a, ha⟩ := length_eq_one_iff.mp (le_antisymm hone (length_pos_of_mem hp))
      rw [ha, mem_singleton] at hp hq'
      rw [hq', hp]
    have hpdom : g.graph.Dominates p y := dominates_of_only_edge hroot honly
    have hxydom : g.graph.Dominates x y := hxp.trans hpdom
    by_cases hxeq : x = y
    · subst hxeq
      obtain rfl : p = x := Dominates.antisymm hnode hpdom hxp
      exact not_node_of_only_self hroot honly hnode
    · exact hxy ⟨hxydom, hxeq⟩

end Frontier

/-! ### The whole run -/

/-- Enough for the loops over a graph with `n` blocks. -/
def enough (n : ℕ) : ℕ := n * n + 2 * n + 1

theorem buildDominance_eq (g : Cfg) {fuel : ℕ} (hfuel : enough g.func.blocks.toFinset.card ≤ fuel) :
    ∃ r, buildDominance g.result fuel g.func .empty = some r ∧
      (∀ b ∈ g.func.blocks, b ≠ g.func.entryPoint → ∀ t, r.immDomTree b = some t ↔
        g.graph.IsImmediateDominator t b) ∧
      ∀ x ∈ g.func.blocks, ∀ y, y ∈ r.domFrontier x ↔
        y ≠ g.func.entryPoint ∧ y ∈ g.graph.frontier x ∨
          y = g.func.entryPoint ∧ x ≠ g.func.entryPoint ∧ 2 ≤ (g.result.getPredecessors y).length ∧
              ∃ p ∈ g.result.getPredecessors y, g.graph.Dominates x p := by
  unfold enough at hfuel
  have hdeep : g.func.blocks.toFinset.card ≤ fuel := by omega
  obtain ⟨visited, l, hdfs, hl⟩ := g.isPostOrder_dfs hdeep
  have hlen : l.length = g.func.blocks.toFinset.card := by
    rw [← List.toFinset_card_of_nodup hl.nodup]
    congr 1
    ext x
    rw [List.mem_toFinset, List.mem_toFinset, hl.mem, g.node_iff]
  rw [← hlen] at hfuel
  have hidx : ∀ b, g.graph.Node b → indexNodes l (fun _ => none) b = some (l.idxOf b) :=
    fun b hb => indexNodes_eq l _ hl.nodup ((hl.mem b).mpr hb)
  have htwice : 2 * l.length < fuel := by omega
  obtain ⟨T, htree, hT⟩ := visitUntilStable_eq hl hidx htwice fuel
    (startTree g) (candidates_start hl.postOrder) (Or.inl rfl) (by omega)
  have hroom : hl.postOrder.rank g.graph.root < fuel := by
    have hlt : l.idxOf g.graph.root < l.length :=
      List.idxOf_lt_length_of_mem ((hl.mem _).mpr Node.root)
    change l.idxOf g.graph.root < fuel
    omega
  obtain ⟨domFrontier, hfront, hmem⟩ :=
    foldlM_frontierOf hT hroom g.func.blocks (fun _ hb => hb) (fun _ => ∅)
  refine ⟨⟨T, indexNodes l fun _ => none, domFrontier, l⟩, ?_, fun b hb hne t => ?_,
    fun x hx y => ?_⟩
  · have hpost : buildPostOrderIndexList g.result fuel g.func .empty =
        some ⟨fun _ => none, indexNodes l fun _ => none, fun _ => ∅, l⟩ := by
      rw [buildPostOrderIndexList, NonSsaToSsaPassResult.empty, hdfs]
      rfl
    have hdom : buildImmDomTree g.result fuel g.func
        ⟨fun _ => none, indexNodes l fun _ => none, fun _ => ∅, l⟩ =
          some ⟨T, indexNodes l fun _ => none, fun _ => ∅, l⟩ := by
      rw [buildImmDomTree]
      change (visitUntilStable g.result _ _ fuel l fuel (startTree g)).bind _ = _
      rw [htree]
      rfl
    have hfrontier : buildDominanceFrontier g.result fuel g.func
        ⟨T, indexNodes l fun _ => none, fun _ => ∅, l⟩ =
          some ⟨T, indexNodes l fun _ => none, domFrontier, l⟩ := by
      rw [buildDominanceFrontier, hfront]
      rfl
    rw [buildDominance, hpost]
    change (buildImmDomTree _ _ _ _).bind _ = _
    rw [hdom]
    exact hfrontier
  · exact hT.eq_some_iff (g.node_iff.mpr hb) hne
  · change y ∈ domFrontier x ↔ _
    rw [hmem]
    by_cases hy : y = g.func.entryPoint
    · have hxentry : Above T x g.func.entryPoint ↔ x = g.func.entryPoint := hT.above_root
      have hyblock : y ∈ g.func.blocks := hy ▸ g.entry_mem
      have hrec : Recorded g T x y ↔ x ≠ g.func.entryPoint ∧
          2 ≤ (g.result.getPredecessors y).length ∧
            ∃ p ∈ g.result.getPredecessors y, g.graph.Dominates x p := by
        have hdom : ∀ p ∈ g.result.getPredecessors y, Above T x p ↔ g.graph.Dominates x p :=
          fun p hp => hT.above_iff_dominates (g.node_iff.mpr (g.pred_mem y hyblock p hp))
        have hroot : T y = some g.func.entryPoint := by
          rw [hy]
          exact hT.root
        constructor
        · rintro ⟨htwo, t, ht, p, hp, hxp, hxt⟩
          rw [← Option.some.inj (hroot.symm.trans ht), hxentry] at hxt
          exact ⟨hxt, htwo, p, hp, (hdom p hp).mp hxp⟩
        · rintro ⟨hne, htwo, p, hp, hxp⟩
          exact ⟨htwo, _, hroot, p, hp, (hdom p hp).mpr hxp, hxentry.not.mpr hne⟩
      rw [hrec]
      simp [hy, g.entry_mem]
    · have hout : y ∈ g.graph.frontier x → y ∈ g.func.blocks := by
        rintro ⟨⟨p, hpy, hp, -⟩, -⟩
        exact g.node_iff.mp (hp.step hpy)
      by_cases hyblock : y ∈ g.func.blocks
      · have hrec := recorded_iff_frontier hT (x := x) hyblock hy
        simp [hy, hyblock, hrec]
      · have hnot : y ∉ g.graph.frontier x := fun hf => hyblock (hout hf)
        simp [hy, hyblock, hnot]

/-- The tree has the immediate dominators, and the frontiers are the frontiers. -/
structure RecordsDominance (g : Cfg) (r : NonSsaToSsaPassResult) : Prop where
  immDomTree : ∀ b ∈ g.func.blocks, b ≠ g.func.entryPoint → ∀ t, r.immDomTree b = some t ↔
    g.graph.IsImmediateDominator t b
  domFrontier : ∀ b ∈ g.func.blocks, ∀ y, y ∈ r.domFrontier b ↔ y ∈ g.graph.frontier b

/-- The pass ends, and its records are exact. -/
def DominanceExact (g : Cfg) : Prop :=
  ∃ bound, ∀ fuel, bound ≤ fuel → ∃ r,
    buildDominance g.result fuel g.func .empty = some r ∧ RecordsDominance g r

theorem entry_mem_frontier (g : Cfg) {x : ℕ} : g.func.entryPoint ∈ g.graph.frontier x ↔
    ∃ p ∈ g.result.getPredecessors g.func.entryPoint, g.graph.Dominates x p := by
  constructor
  · rintro ⟨⟨p, hp, -, hxp⟩, -⟩
    exact ⟨p, (g.converse _ _).mp hp, hxp⟩
  · rintro ⟨p, hp, hxp⟩
    refine ⟨⟨p, (g.converse _ _).mpr hp, g.node_iff.mpr (g.pred_mem _ g.entry_mem p hp), hxp⟩, ?_⟩
    rintro ⟨hdom, hne⟩
    exact hne (dominates_root.mp hdom)

theorem dominanceExact_iff (g : Cfg) :
    DominanceExact g ↔ g.result.getPredecessors g.func.entryPoint = [] := by
  constructor
  · rintro ⟨bound, hexact⟩
    obtain ⟨r, hr, hrec⟩ := hexact (max bound (enough g.func.blocks.toFinset.card))
      (le_max_left _ _)
    obtain ⟨r', hr', -, hfront⟩ := buildDominance_eq g (le_max_right bound _)
    obtain rfl : r = r' := some.inj (hr.symm.trans hr')
    by_contra hne
    obtain ⟨p, hp⟩ := exists_mem_of_ne_nil _ hne
    have hentry : g.func.entryPoint ∈ g.graph.frontier g.func.entryPoint :=
      (entry_mem_frontier g).mpr ⟨p, hp, root_dominates p⟩
    rw [← hrec.domFrontier _ g.entry_mem, hfront _ g.entry_mem] at hentry
    simp at hentry
  · intro hnone
    refine ⟨enough g.func.blocks.toFinset.card, fun fuel hfuel => ?_⟩
    obtain ⟨r, hr, htree, hfront⟩ := buildDominance_eq g hfuel
    refine ⟨r, hr, htree, fun x hx y => ?_⟩
    rw [hfront x hx]
    by_cases hy : y = g.func.entryPoint
    · subst hy
      rw [entry_mem_frontier, hnone]
      simp
    · simp [hy]

/-- A function of one block that branches back to itself. -/
def selfLoop : Cfg where
  func := ⟨[1], 1⟩
  result := CodeFlowResult.empty.addEdge 1 1
  entry_mem := by decide
  converse a b := by
    change b ∈ (CodeFlowResult.empty.addEdge 1 1).toAdjacency.successors a ↔
      a ∈ (CodeFlowResult.empty.addEdge 1 1).toAdjacency.predecessors b
    rw [CodeFlowResult.toAdjacency_addEdge]
    exact (Adjacency.WellKept.empty.addEdge 1 1).converse a b
  succ_mem := by decide
  pred_mem := by decide
  reached := by
    intro b hb
    rw [mem_singleton.mp hb]

/-- The block is in its own frontier, and its record is empty. -/
theorem selfLoop_not_exact : ¬ DominanceExact selfLoop := by
  rintro ⟨bound, hexact⟩
  obtain ⟨r, hr, hrec⟩ := hexact (max bound (enough 1)) (le_max_left _ _)
  have hroom : enough selfLoop.func.blocks.toFinset.card ≤ max bound (enough 1) :=
    le_max_right bound _
  obtain ⟨r', hr', -, hfront⟩ := buildDominance_eq selfLoop hroom
  obtain rfl : r = r' := some.inj (hr.symm.trans hr')
  have hentry : (1 : ℕ) ∈ selfLoop.graph.frontier 1 :=
    (entry_mem_frontier selfLoop).mpr ⟨1, by decide, root_dominates _⟩
  rw [← hrec.domFrontier 1 (by decide), hfront 1 (by decide)] at hentry
  rcases hentry with ⟨hne, -⟩ | ⟨-, hne, -⟩ <;> exact hne rfl

end EzPacker.Dominance
