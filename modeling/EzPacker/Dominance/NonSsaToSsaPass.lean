import EzPacker.CodeFlow.ControlTransfer
import EzPacker.Lib.DepthFirstOrder
import Mathlib.Data.Finset.Card

/-!
# Dominators in the construction of SSA form

The pass numbers the blocks in depth-first post-order, finds their immediate dominators
in rounds over the reverse of that order, and from these the dominance frontiers. Its
loops take a bound on the number of their steps; a run that meets its bound returns
nothing.
-/

namespace EzPacker.Dominance

open List CodeFlow

/-- What the pass records before it places PHI instructions. -/
structure NonSsaToSsaPassResult where
  immDomTree : ℕ → Option ℕ
  postOrderIndexes : ℕ → Option ℕ
  domFrontier : ℕ → Finset ℕ
  postOrderNodes : List ℕ

def NonSsaToSsaPassResult.empty : NonSsaToSsaPassResult :=
  ⟨fun _ => none, fun _ => none, fun _ => ∅, []⟩

/-- The numbers of the blocks of a function in layout order. -/
structure MirFunction where
  blocks : List ℕ
  entryPoint : ℕ
  deriving DecidableEq, Repr

section Pass

variable (cfg : CodeFlowResult)

/-! ### Post-order -/

/-- The search from a block, with the blocks visited and the post-order so far. -/
def dfs : ℕ → ℕ → Finset ℕ × List ℕ → Option (Finset ℕ × List ℕ)
  | 0, _, _ => none
  | fuel + 1, currentBlock, s => do
      let s ← (cfg.getSuccessors currentBlock).foldlM
        (fun s succ => if succ ∈ s.1 then some s else dfs fuel succ s)
        (insert currentBlock s.1, s.2)
      some (s.1, s.2 ++ [currentBlock])

def indexNodes (postOrder : List ℕ) (indexes : ℕ → Option ℕ) : ℕ → Option ℕ :=
  postOrder.zipIdx.foldl (fun m e => Function.update m e.1 (some e.2)) indexes

def buildPostOrderIndexList (fuel : ℕ) (func : MirFunction) (r : NonSsaToSsaPassResult) :
    Option NonSsaToSsaPassResult := do
  let s ← dfs cfg fuel func.entryPoint (∅, r.postOrderNodes)
  some { r with
    postOrderNodes := s.2
    postOrderIndexes := indexNodes s.2 r.postOrderIndexes }

/-! ### Immediate dominators -/

/-- Moves the finger with the smaller number up the tree until the fingers meet. -/
def intersect (indexes domTree : ℕ → Option ℕ) : ℕ → ℕ → ℕ → Option ℕ
  | 0, _, _ => none
  | fuel + 1, finger1, finger2 =>
    if finger1 = finger2 then some finger1
    else
      match indexes finger1, indexes finger2 with
      | some idx1, some idx2 =>
        if idx1 < idx2 then
          match domTree finger1 with
          | none => some finger1
          | some next =>
            if next = finger1 then some finger1
            else intersect indexes domTree fuel next finger2
        else
          match domTree finger2 with
          | none => some finger1
          | some next =>
            if next = finger2 then some finger1
            else intersect indexes domTree fuel finger1 next
      | _, _ => some finger1

/-- One predecessor of the loop that finds `newIdom`, none before `foundFirst`. -/
def intersectPred (indexes domTree : ℕ → Option ℕ) (fuel : ℕ) (newIdom : Option ℕ)
    (pred : ℕ) : Option (Option ℕ) :=
  if (domTree pred).isSome then
    match newIdom with
    | none => some (some pred)
    | some newIdom => (intersect indexes domTree fuel pred newIdom).map some
  else some newIdom

/-- One block of a round, with the tree so far and `changed`. -/
def visitBlock (indexes : ℕ → Option ℕ) (entryId fuel : ℕ) (s : (ℕ → Option ℕ) × Bool)
    (blockId : ℕ) : Option ((ℕ → Option ℕ) × Bool) :=
  if blockId = entryId then some s
  else do
    let newIdom ← (cfg.getPredecessors blockId).foldlM (intersectPred indexes s.1 fuel) none
    match newIdom with
    | none => some s
    | some newIdom =>
      -- reading the map at a block without an entry inserts 0
      let old := (s.1 blockId).getD 0
      if old ≠ newIdom then some (Function.update s.1 blockId (some newIdom), true)
      else some (Function.update s.1 blockId (some old), s.2)

def visitBlocks (indexes : ℕ → Option ℕ) (entryId fuel : ℕ) (postOrderNodes : List ℕ)
    (domTree : ℕ → Option ℕ) : Option ((ℕ → Option ℕ) × Bool) :=
  postOrderNodes.reverse.foldlM (visitBlock cfg indexes entryId fuel) (domTree, false)

/-- Rounds until one changes nothing. -/
def visitUntilStable (indexes : ℕ → Option ℕ) (entryId fuel : ℕ) (postOrderNodes : List ℕ) :
    ℕ → (ℕ → Option ℕ) → Option (ℕ → Option ℕ)
  | 0, _ => none
  | rounds + 1, domTree => do
      let s ← visitBlocks cfg indexes entryId fuel postOrderNodes domTree
      if s.2 then visitUntilStable indexes entryId fuel postOrderNodes rounds s.1
      else some s.1

def buildImmDomTree (fuel : ℕ) (func : MirFunction) (r : NonSsaToSsaPassResult) :
    Option NonSsaToSsaPassResult := do
  let domTree ← visitUntilStable cfg r.postOrderIndexes func.entryPoint fuel r.postOrderNodes
    fuel (Function.update r.immDomTree func.entryPoint (some func.entryPoint))
  some { r with immDomTree := domTree }

/-! ### Dominance frontiers -/

/-- The runner walks up the tree from a predecessor and stops at the immediate dominator. -/
def runUp (idom : ℕ → Option ℕ) (bId bIdom : ℕ) : ℕ → ℕ → (ℕ → Finset ℕ) → Option (ℕ → Finset ℕ)
  | 0, _, _ => none
  | fuel + 1, runner, domFrontier =>
    if runner = bIdom then some domFrontier
    else
      match idom runner with
      | none => some domFrontier
      | some nextRunner =>
        let domFrontier :=
          Function.update domFrontier runner (insert bId (domFrontier runner))
        if nextRunner = runner then some domFrontier
        else runUp idom bId bIdom fuel nextRunner domFrontier

def frontierOf (idom : ℕ → Option ℕ) (fuel : ℕ) (domFrontier : ℕ → Finset ℕ) (bId : ℕ) :
    Option (ℕ → Finset ℕ) :=
  match idom bId with
  | none => some domFrontier
  | some bIdom =>
    if (cfg.getPredecessors bId).length < 2 then some domFrontier
    else
      (cfg.getPredecessors bId).foldlM
        (fun domFrontier p => runUp idom bId bIdom fuel p domFrontier) domFrontier

def buildDominanceFrontier (fuel : ℕ) (func : MirFunction) (r : NonSsaToSsaPassResult) :
    Option NonSsaToSsaPassResult := do
  let domFrontier ← func.blocks.foldlM (frontierOf cfg r.immDomTree fuel) r.domFrontier
  some { r with domFrontier }

/-- The part of `NonSsaToSsaPass::run` between the definition sites and the PHIs. -/
def buildDominance (fuel : ℕ) (func : MirFunction) (r : NonSsaToSsaPassResult) :
    Option NonSsaToSsaPassResult := do
  let r ← buildPostOrderIndexList cfg fuel func r
  let r ← buildImmDomTree cfg fuel func r
  buildDominanceFrontier cfg fuel func r

end Pass

/-- The control-flow graph of a function: its edges lie between its blocks, the two
directions agree, and every block is reached from the entry. -/
structure Cfg where
  func : MirFunction
  result : CodeFlowResult
  entry_mem : func.entryPoint ∈ func.blocks
  converse : ∀ a b, b ∈ result.getSuccessors a ↔ a ∈ result.getPredecessors b
  succ_mem : ∀ a ∈ func.blocks, ∀ b ∈ result.getSuccessors a, b ∈ func.blocks
  pred_mem : ∀ b ∈ func.blocks, ∀ a ∈ result.getPredecessors b, a ∈ func.blocks
  reached : ∀ b ∈ func.blocks,
    Relation.ReflTransGen (fun x y => y ∈ result.getSuccessors x) func.entryPoint b

namespace Cfg

variable (g : Cfg)

def graph : RootedGraph ℕ := ⟨fun a b => b ∈ g.result.getSuccessors a, g.func.entryPoint⟩

theorem node_iff {b : ℕ} : g.graph.Node b ↔ b ∈ g.func.blocks := by
  rw [RootedGraph.node_iff]
  constructor
  · intro h
    induction h with
    | refl => exact g.entry_mem
    | tail _ hab ih => exact g.succ_mem _ ih _ hab
  · exact g.reached b

end Cfg

/-!
## The post-order of the blocks

The search from the entry visits every block once and lists it behind the blocks that it
reached from there. Each call leaves the blocks it visited at the end of the list, closed
under successors up to the blocks visited before.
-/

open CodeFlow RootedGraph

namespace Cfg

variable {g : Cfg}

/-- What a part of the search adds: the blocks of `l`, visited for the first time, whose
successors are all visited afterwards. -/
structure Explored (g : Cfg) (visited visited' : Finset ℕ) (l : List ℕ) : Prop where
  nodup : l.Nodup
  fresh : ∀ x ∈ l, x ∉ visited
  mem : ∀ x, x ∈ visited' ↔ x ∈ visited ∨ x ∈ l
  closed : ∀ x ∈ l, ∀ s ∈ g.result.getSuccessors x, s ∈ visited'

theorem Explored.refl (visited : Finset ℕ) : Explored g visited visited [] where
  nodup := nodup_nil
  fresh := by simp
  mem := by simp
  closed := by simp

theorem Explored.append {v₁ v₂ v₃ : Finset ℕ} {l l' : List ℕ} (h : Explored g v₁ v₂ l)
    (h' : Explored g v₂ v₃ l') : Explored g v₁ v₃ (l ++ l') where
  nodup := by
    refine nodup_append.mpr ⟨h.nodup, h'.nodup, ?_⟩
    rintro x hx _ hx' rfl
    exact h'.fresh x hx' ((h.mem x).mpr (Or.inr hx))
  fresh := by
    intro x hx hv
    rcases mem_append.mp hx with hx | hx
    · exact h.fresh x hx hv
    · exact h'.fresh x hx ((h.mem x).mpr (Or.inl hv))
  mem x := by rw [h'.mem, h.mem, mem_append, or_assoc]
  closed := by
    intro x hx s hs
    rcases mem_append.mp hx with hx | hx
    · exact (h'.mem s).mpr (Or.inl (h.closed x hx s hs))
    · exact h'.closed x hx s hs

/-- The block whose successors were searched comes last. -/
theorem Explored.finish {visited visited' : Finset ℕ} {l : List ℕ} {c : ℕ}
    (h : Explored g (insert c visited) visited' l) (hc : c ∉ visited)
    (hsucc : ∀ s ∈ g.result.getSuccessors c, s ∈ visited') :
    Explored g visited visited' (l ++ [c]) where
  nodup := by
    refine nodup_append.mpr ⟨h.nodup, nodup_singleton c, ?_⟩
    rintro x hx _ hx' rfl
    exact h.fresh x hx (by rw [mem_singleton.mp hx']; exact Finset.mem_insert_self _ _)
  fresh := by
    intro x hx hv
    rcases mem_append.mp hx with hx | hx
    · exact h.fresh x hx (Finset.mem_insert_of_mem hv)
    · exact hc (mem_singleton.mp hx ▸ hv)
  mem x := by
    rw [h.mem, Finset.mem_insert, mem_append, mem_singleton]
    tauto
  closed := by
    intro x hx
    rcases mem_append.mp hx with hx | hx
    · exact h.closed x hx
    · rw [mem_singleton.mp hx]
      exact hsucc

def unvisited (g : Cfg) (visited : Finset ℕ) : Finset ℕ := g.func.blocks.toFinset \ visited

theorem card_unvisited_insert {visited : Finset ℕ} {c : ℕ} (hc : c ∈ g.func.blocks)
    (hv : c ∉ visited) : (g.unvisited (insert c visited)).card < (g.unvisited visited).card := by
  refine Finset.card_lt_card ⟨Finset.sdiff_subset_sdiff le_rfl (Finset.subset_insert c visited),
    fun hsub => ?_⟩
  have hmem : c ∈ g.unvisited visited := by
    rw [unvisited, Finset.mem_sdiff, mem_toFinset]
    exact ⟨hc, hv⟩
  have hout := hsub hmem
  rw [unvisited, Finset.mem_sdiff] at hout
  exact hout.2 (Finset.mem_insert_self c visited)

theorem Explored.card_unvisited_le {visited visited' : Finset ℕ} {l : List ℕ}
    (h : Explored g visited visited' l) :
    (g.unvisited visited').card ≤ (g.unvisited visited).card :=
  Finset.card_le_card (Finset.sdiff_subset_sdiff le_rfl fun x hx => (h.mem x).mpr (Or.inl hx))

/-- A call at a block that was not visited, with as many steps as there are blocks left. -/
def Searches (g : Cfg) (fuel : ℕ) : Prop :=
  ∀ c visited post, c ∈ g.func.blocks → c ∉ visited → (g.unvisited visited).card ≤ fuel →
    ∃ front visited', dfs g.result fuel c (visited, post) =
        some (visited', post ++ (front ++ [c])) ∧
      Explored g visited visited' (front ++ [c]) ∧ g.graph.LaterEdges [c] front

theorem Searches.successors {fuel : ℕ} (ih : g.Searches fuel) {c : ℕ} (succs : List ℕ)
    (hsuccs : ∀ s ∈ succs, s ∈ g.result.getSuccessors c) (hc : c ∈ g.func.blocks)
    (visited : Finset ℕ) (post : List ℕ) (hcard : (g.unvisited visited).card ≤ fuel) :
    ∃ l visited', succs.foldlM
        (fun s succ => if succ ∈ s.1 then some s else dfs g.result fuel succ s)
        (visited, post) = some (visited', post ++ l) ∧
      Explored g visited visited' l ∧ g.graph.LaterEdges [c] l ∧ ∀ s ∈ succs, s ∈ visited' := by
  induction succs generalizing visited post with
  | nil => exact ⟨[], visited, by simp, Explored.refl visited, trivial, by simp⟩
  | cons s succs ihs =>
    have hs : s ∈ g.result.getSuccessors c := hsuccs s mem_cons_self
    have hrest := fun x hx => hsuccs x (mem_cons_of_mem s hx)
    by_cases hv : s ∈ visited
    · obtain ⟨l, visited', hrun, hexp, hlater, hmem⟩ := ihs hrest visited post hcard
      refine ⟨l, visited', ?_, hexp, hlater, ?_⟩
      · rw [foldlM_cons, if_pos hv]
        exact hrun
      · intro x hx
        rcases mem_cons.mp hx with rfl | hx
        · exact (hexp.mem x).mpr (Or.inl hv)
        · exact hmem x hx
    · obtain ⟨front, v₁, hdfs, hexp₁, hlater₁⟩ :=
        ih s visited post (g.succ_mem c hc s hs) hv hcard
      obtain ⟨l, visited', hrun, hexp, hlater, hmem⟩ := ihs hrest v₁ (post ++ (front ++ [s]))
        (hexp₁.card_unvisited_le.trans hcard)
      refine ⟨front ++ [s] ++ l, visited', ?_, hexp₁.append hexp, ?_, ?_⟩
      · rw [foldlM_cons, if_neg hv, hdfs]
        refine hrun.trans ?_
        rw [append_assoc post]
      · have hself : g.graph.LaterEdges (l ++ [c]) [s] := ⟨⟨c, by simp, hs⟩, trivial⟩
        have hfront : g.graph.LaterEdges ([s] ++ (l ++ [c])) front :=
          hlater₁.mono (subset_append_left _ _)
        exact (hfront.append hself).append hlater
      · intro x hx
        rcases mem_cons.mp hx with rfl | hx
        · exact (hexp.mem x).mpr (Or.inl ((hexp₁.mem x).mpr (Or.inr (by simp))))
        · exact hmem x hx

theorem searches (fuel : ℕ) : g.Searches fuel := by
  induction fuel with
  | zero =>
    intro c visited post hc hv hcard
    have hlt := card_unvisited_insert hc hv
    omega
  | succ fuel ih =>
    intro c visited post hc hv hcard
    have hlt := card_unvisited_insert hc hv
    obtain ⟨l, visited', hrun, hexp, hlater, hmem⟩ :=
      ih.successors (g.result.getSuccessors c) (fun _ hs => hs) hc (insert c visited) post
        (by omega)
    refine ⟨l, visited', ?_, hexp.finish hv hmem, hlater⟩
    rw [dfs, hrun]
    simp [append_assoc]

theorem isPostOrder_dfs (g : Cfg) {fuel : ℕ} (hfuel : g.func.blocks.toFinset.card ≤ fuel) :
    ∃ visited l, dfs g.result fuel g.func.entryPoint (∅, []) = some (visited, l) ∧
      g.graph.IsPostOrder l := by
  have hcard : (g.unvisited ∅).card ≤ fuel := by rwa [unvisited, Finset.sdiff_empty]
  obtain ⟨front, visited', hdfs, hexp, hlater⟩ :=
    searches fuel g.func.entryPoint ∅ [] g.entry_mem (Finset.notMem_empty _) hcard
  refine ⟨visited', front ++ [g.func.entryPoint], hdfs, hexp.nodup, fun x => ?_, front, rfl, hlater⟩
  constructor
  · refine hlater.node ?_ x
    intro y hy
    rw [mem_singleton.mp hy]
    exact Node.root
  · intro hx
    have hvisited : x ∈ visited' := by
      obtain ⟨l, hl⟩ := hx
      induction hl with
      | root => exact (hexp.mem _).mpr (Or.inr (mem_append_right _ (mem_singleton_self _)))
      | step _ hab ih =>
        have ha := ((hexp.mem _).mp ih).resolve_left (Finset.notMem_empty _)
        exact hexp.closed _ ha _ hab
    exact ((hexp.mem x).mp hvisited).resolve_left (Finset.notMem_empty _)

end Cfg

/-- The index of a block is its position in the post-order. -/
theorem indexNodes_eq (l : List ℕ) (indexes : ℕ → Option ℕ) (hl : l.Nodup) {b : ℕ} (hb : b ∈ l) :
    indexNodes l indexes b = some (l.idxOf b) := by
  have hgen : ∀ (l : List ℕ) (k : ℕ) (indexes : ℕ → Option ℕ), l.Nodup →
      (l.zipIdx k).foldl (fun (m : ℕ → Option ℕ) e => Function.update m e.1 (some e.2)) indexes b =
        if b ∈ l then some (k + l.idxOf b) else indexes b := by
    intro l
    induction l with
    | nil => simp
    | cons a l ih =>
      intro k indexes hl
      rw [nodup_cons] at hl
      rw [zipIdx_cons, foldl_cons, ih (k + 1) _ hl.2]
      by_cases hab : b = a
      · subst hab
        rw [if_neg hl.1, Function.update_self, if_pos mem_cons_self, idxOf_cons_self]
        rfl
      · rw [Function.update_of_ne hab, idxOf_cons_ne _ (Ne.symm hab)]
        by_cases hmem : b ∈ l
        · rw [if_pos hmem, if_pos (mem_cons_of_mem a hmem)]
          congr 1
          omega
        · rw [if_neg hmem, if_neg (by simp [hab, hmem])]
  have h := hgen l 0 indexes hl
  rw [if_pos hb, Nat.zero_add] at h
  exact h

end EzPacker.Dominance
