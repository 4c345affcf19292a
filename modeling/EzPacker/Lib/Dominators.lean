import Mathlib.Data.Nat.Basic
import Mathlib.Logic.Relation
import Mathlib.Order.Basic

/-!
# Dominators of a rooted graph

A node dominates another when it is on every walk from the root to it. The nodes of the
graph are those that a walk reaches.
-/

namespace EzPacker

open List Function Option

/-- A directed graph with a root. -/
structure RootedGraph (ι : Type*) where
  edge : ι → ι → Prop
  root : ι

namespace RootedGraph

variable {ι : Type*} (G : RootedGraph ι)

/-- A walk from the root to a node, with the nodes on it, the last one first. -/
inductive Walk : ι → List ι → Prop
  | root : Walk G.root [G.root]
  | step {a b : ι} {l : List ι} : Walk a l → G.edge a b → Walk b (b :: l)

def Node (b : ι) : Prop := ∃ l, G.Walk b l

def Dominates (x b : ι) : Prop := ∀ l, G.Walk b l → x ∈ l

def StrictlyDominates (x b : ι) : Prop := G.Dominates x b ∧ x ≠ b

/-- The strict dominator that all the others dominate. -/
structure IsImmediateDominator (t b : ι) : Prop where
  strict : G.StrictlyDominates t b
  closest : ∀ x, G.StrictlyDominates x b → G.Dominates x t

/-- The nodes where the dominance of a node ends. -/
def frontier (x : ι) : Set ι :=
  {y | (∃ p, G.edge p y ∧ G.Node p ∧ G.Dominates x p) ∧ ¬ G.StrictlyDominates x y}

variable {G}

theorem Node.root : G.Node G.root := ⟨_, Walk.root⟩

variable {b : ι}

theorem Node.step {a : ι} (ha : G.Node a) (hab : G.edge a b) : G.Node b := by
  obtain ⟨l, hl⟩ := ha
  exact ⟨_, hl.step hab⟩

theorem node_iff : G.Node b ↔ Relation.ReflTransGen G.edge G.root b := by
  constructor
  · rintro ⟨l, hl⟩
    induction hl with
    | root => exact Relation.ReflTransGen.refl
    | step _ hab ih => exact ih.tail hab
  · intro h
    induction h with
    | refl => exact Node.root
    | tail _ hab ih => exact ih.step hab

variable {l : List ι}

theorem Walk.self_mem (h : G.Walk b l) : b ∈ l := by
  cases h <;> exact mem_cons_self

theorem Walk.root_mem (h : G.Walk b l) : G.root ∈ l := by
  induction h with
  | root => exact mem_cons_self
  | step _ _ ih => exact mem_cons_of_mem _ ih

variable {x : ι}

/-- A walk through a node starts with a walk to it. -/
theorem Walk.exists_prefix (h : G.Walk b l) (hx : x ∈ l) (hne : x ≠ b) :
    ∃ l', G.Walk x l' ∧ l' ⊆ l ∧ l'.length < l.length := by
  induction h with
  | root => exact absurd (mem_singleton.mp hx) hne
  | @step a b l hl _ ih =>
    have hxl : x ∈ l := (mem_cons.mp hx).resolve_left hne
    by_cases hxa : x = a
    · subst hxa
      exact ⟨l, hl, subset_cons_self _ _, Nat.lt_succ_self _⟩
    · obtain ⟨l', hl', hsub, hlen⟩ := ih hxl hxa
      exact ⟨l', hl', Subset.trans hsub (subset_cons_self _ _), Nat.lt_succ_of_lt hlen⟩

theorem Dominates.refl (b : ι) : G.Dominates b b := fun _ hl => hl.self_mem

theorem root_dominates (b : ι) : G.Dominates G.root b := fun _ hl => hl.root_mem

theorem Dominates.trans {y : ι} (hxy : G.Dominates x y) (hyb : G.Dominates y b) :
    G.Dominates x b := by
  intro l hl
  by_cases h : y = b
  · subst h
    exact hxy l hl
  · obtain ⟨l', hl', hsub, -⟩ := hl.exists_prefix (hyb l hl) h
    exact hsub (hxy l' hl')

/-- Two nodes that dominate each other would make a walk ever shorter. -/
theorem Dominates.antisymm (hb : G.Node b) (hxb : G.Dominates x b)
    (hbx : G.Dominates b x) : x = b := by
  obtain ⟨l, hl⟩ := hb
  by_contra hne
  induction hn : l.length using Nat.strongRecOn generalizing l with
  | _ n ih =>
    obtain ⟨l₁, hl₁, -, hlen₁⟩ := hl.exists_prefix (hxb l hl) hne
    obtain ⟨l₂, hl₂, -, hlen₂⟩ := hl₁.exists_prefix (hbx l₁ hl₁) (Ne.symm hne)
    exact ih l₂.length (by omega) l₂ hl₂ rfl

theorem dominates_root : G.Dominates x G.root ↔ x = G.root := by
  constructor
  · intro h
    exact mem_singleton.mp (h _ Walk.root)
  · rintro rfl
    exact Dominates.refl _

theorem StrictlyDominates.of_edge {p : ι} (h : G.StrictlyDominates x b) (hpb : G.edge p b) :
    G.Dominates x p := by
  intro l hl
  exact (mem_cons.mp (h.1 _ (hl.step hpb))).resolve_left h.2

theorem dominates_of_edges (hb : b ≠ G.root)
    (h : ∀ p, G.edge p b → G.Node p → G.Dominates x p) : G.Dominates x b := by
  intro l hl
  cases hl with
  | root => exact absurd rfl hb
  | step hl hab => exact mem_cons_of_mem _ (h _ hab ⟨_, hl⟩ _ hl)

theorem IsImmediateDominator.unique {s t : ι} (hb : G.Node b) (hs : G.IsImmediateDominator s b)
    (ht : G.IsImmediateDominator t b) : s = t := by
  have hnode : G.Node t := by
    obtain ⟨l, hl⟩ := hb
    obtain ⟨l', hl', -⟩ := hl.exists_prefix (ht.strict.1 l hl) ht.strict.2
    exact ⟨l', hl'⟩
  exact Dominates.antisymm hnode (ht.closest s hs.strict) (hs.closest t ht.strict)

theorem IsImmediateDominator.strictlyDominates_iff {t : ι} (hb : G.Node b)
    (ht : G.IsImmediateDominator t b) : G.StrictlyDominates x b ↔ G.Dominates x t := by
  refine ⟨ht.closest x, fun hx => ⟨hx.trans ht.strict.1, ?_⟩⟩
  rintro rfl
  exact ht.strict.2 (Dominates.antisymm hb ht.strict.1 hx)

/-- The only node that leads to another dominates it. -/
theorem dominates_of_only_edge {p : ι} (hb : b ≠ G.root) (h : ∀ q, G.edge q b → q = p) :
    G.Dominates p b := by
  refine dominates_of_edges hb fun q hq _ => ?_
  rw [h q hq]
  exact Dominates.refl p

/-- No walk enters a node that only the node itself leads to. -/
theorem not_node_of_only_self (hb : b ≠ G.root) (h : ∀ q, G.edge q b → q = b) : ¬ G.Node b := by
  rintro ⟨l, hl⟩
  induction hl with
  | root => exact hb rfl
  | step hl hab ih =>
    obtain rfl := h _ hab
    exact ih hb h

end RootedGraph

end EzPacker

/-!
## Finding immediate dominators by nearest common ancestors

Every node keeps a candidate for its immediate dominator. A visit of a node replaces its
candidate by the nearest common ancestor, in the tree of the candidates, of those of its
predecessors that have one. The nodes are visited in the reverse of a depth-first
post-order, round after round.

No candidate lies below its immediate dominator's dominators, and every visit moves the
candidate of a node up the tree. Where no visit moves a candidate any more, the
candidates are the immediate dominators.
-/

namespace EzPacker.RootedGraph

variable {ι : Type*}

/-- The numbers of a depth-first post-order: every node but the root was reached from a
node with a larger number. -/
structure PostOrder (G : RootedGraph ι) where
  rank : ι → ℕ
  parent : ι → ι
  node_parent : ∀ b, G.Node b → b ≠ G.root → G.Node (parent b)
  edge_parent : ∀ b, G.Node b → b ≠ G.root → G.edge (parent b) b
  rank_lt_parent : ∀ b, G.Node b → b ≠ G.root → rank b < rank (parent b)
  rank_lt_root : ∀ b, G.Node b → b ≠ G.root → rank b < rank G.root
  rank_inj : ∀ a b, G.Node a → G.Node b → rank a = rank b → a = b

variable {G : RootedGraph ι} (P : G.PostOrder)

/-- A node or one that the search came through to reach it. -/
def PostOrder.Over (x b : ι) : Prop :=
  Relation.ReflTransGen (fun a c => a ≠ G.root ∧ P.parent a = c) b x

variable {P}

variable {x b : ι}

theorem PostOrder.Over.node (h : P.Over x b) (hb : G.Node b) : G.Node x := by
  induction h with
  | refl => exact hb
  | tail _ hstep ih =>
    obtain ⟨hroot, rfl⟩ := hstep
    exact P.node_parent _ ih hroot

theorem PostOrder.Over.rank_le (h : P.Over x b) (hb : G.Node b) : P.rank b ≤ P.rank x := by
  induction h with
  | refl => exact le_rfl
  | tail hpath hstep ih =>
    obtain ⟨hroot, rfl⟩ := hstep
    exact ih.trans (P.rank_lt_parent _ (PostOrder.Over.node hpath hb) hroot).le

/-- An ancestor in the tree of the candidates. -/
def Above (T : ι → Option ι) (x b : ι) : Prop :=
  Relation.ReflTransGen (fun a c => T a = some c) b x

variable {T : ι → Option ι}

theorem above_iff {t : ι} (ht : T b = some t) : Above T x b ↔ x = b ∨ Above T x t := by
  constructor
  · intro h
    rcases Relation.ReflTransGen.cases_head h with heq | ⟨c, hc, hrest⟩
    · exact Or.inl heq.symm
    · obtain rfl := Option.some.inj (ht.symm.trans hc)
      exact Or.inr hrest
  · rintro (rfl | h)
    · exact Relation.ReflTransGen.refl
    · exact h.head ht

/-- The nearest common ancestor of the predecessors that have a candidate. -/
def Nearest (T : ι → Option ι) (b n : ι) : Prop :=
  (T n).isSome ∧ ∀ x, Above T x n ↔ ∀ p, G.edge p b → (T p).isSome → Above T x p

variable (P)

/-- What holds of the candidates between any two visits. -/
structure Candidates (T : ι → Option ι) : Prop where
  root : T G.root = some G.root
  node : ∀ b t, T b = some t → G.Node b
  kept : ∀ b t, T b = some t → (T t).isSome
  over_parent : ∀ b t, b ≠ G.root → T b = some t → P.Over t (P.parent b)
  dominates : ∀ b t, b ≠ G.root → T b = some t → ∀ x, G.StrictlyDominates x b → G.Dominates x t
  below : ∀ b t, b ≠ G.root → T b = some t →
    ∀ x, (∀ p, G.edge p b → (T p).isSome → Above T x p) → P.rank t ≤ P.rank x

variable {P}

namespace Candidates

variable {T : ι → Option ι} (h : Candidates P T)

include h

variable {b : ι}

theorem rank_lt {t : ι} (hb : b ≠ G.root) (ht : T b = some t) : P.rank b < P.rank t := by
  have hnode := h.node b t ht
  exact (P.rank_lt_parent b hnode hb).trans_le
    ((h.over_parent b t hb ht).rank_le (P.node_parent b hnode hb))

variable {x : ι}

theorem isSome_above (hx : Above T x b) (hb : (T b).isSome) : (T x).isSome := by
  induction hx with
  | refl => exact hb
  | tail _ hstep _ => exact h.kept _ _ hstep

theorem over_of_above (hx : Above T x b) : P.Over x b := by
  induction hx using Relation.ReflTransGen.head_induction_on with
  | refl => exact Relation.ReflTransGen.refl
  | @head a c hac _ ih =>
    by_cases ha : a = G.root
    · subst ha
      rw [h.root] at hac
      rwa [← Option.some.inj hac] at ih
    · exact ((h.over_parent a c ha hac).trans ih).head ⟨ha, rfl⟩

theorem rank_le (hx : Above T x b) : P.rank b ≤ P.rank x := by
  rcases Relation.ReflTransGen.cases_head hx with rfl | ⟨c, hc, _⟩
  · exact le_rfl
  · exact (h.over_of_above hx).rank_le (h.node b c hc)

theorem above_root : Above T x G.root ↔ x = G.root := by
  constructor
  · intro hx
    induction hx with
    | refl => rfl
    | tail _ hstep ih =>
      rw [ih, h.root] at hstep
      exact (Option.some.inj hstep).symm
  · rintro rfl
    exact Relation.ReflTransGen.refl

theorem node_of_isSome (hb : (T b).isSome) : G.Node b := by
  obtain ⟨t, ht⟩ := Option.isSome_iff_exists.mp hb
  exact h.node b t ht

theorem above_antisymm (hb : (T b).isSome) (hx : Above T x b) (hbx : Above T b x) : x = b :=
  P.rank_inj x b (h.node_of_isSome (h.isSome_above hx hb)) (h.node_of_isSome hb)
    (le_antisymm (h.rank_le hbx) (h.rank_le hx))

theorem root_above (hb : (T b).isSome) : Above T G.root b := by
  induction hn : P.rank G.root - P.rank b using Nat.strongRecOn generalizing b with
  | _ n ih =>
    obtain ⟨t, ht⟩ := Option.isSome_iff_exists.mp hb
    by_cases hroot : b = G.root
    · rw [hroot]
      exact Relation.ReflTransGen.refl
    · have hlt := h.rank_lt hroot ht
      have htop := P.rank_lt_root b (h.node b t ht) hroot
      exact (ih _ (by omega) (h.kept b t ht) rfl).head ht

/-- All dominators of a node are among its ancestors. -/
theorem above_of_dominates (hb : (T b).isSome) (hx : G.Dominates x b) : Above T x b := by
  induction hn : P.rank G.root - P.rank b using Nat.strongRecOn generalizing b with
  | _ n ih =>
    obtain ⟨t, ht⟩ := Option.isSome_iff_exists.mp hb
    by_cases hroot : b = G.root
    · subst hroot
      exact h.above_root.mpr (dominates_root.mp hx)
    · by_cases hne : x = b
      · rw [hne]
        exact Relation.ReflTransGen.refl
      · have hlt := h.rank_lt hroot ht
        have htop := P.rank_lt_root b (h.node b t ht) hroot
        exact (ih _ (by omega) (h.kept b t ht) (h.dominates b t hroot ht x ⟨hx, hne⟩) rfl).head ht

theorem dominates_ancestor {n p : ι} (hp : (T p).isSome) (hn : Above T n p)
    (hxn : Above T x n) (hx : G.Dominates x p) : G.Dominates x n := by
  induction hn using Relation.ReflTransGen.head_induction_on with
  | refl => exact hx
  | @head a c hac hrest ih =>
    by_cases ha : a = G.root
    · subst ha
      rw [h.root] at hac
      rw [← Option.some.inj hac] at ih
      exact ih hp hx
    · by_cases hne : x = a
      · subst hne
        rw [h.above_antisymm hp (hrest.head hac) hxn]
        exact Dominates.refl _
      · exact ih (h.kept a c hac) (h.dominates a c ha hac x ⟨hx, hne⟩)

end Candidates

/-! ## A visit -/

variable (P)

/-- The nodes with a number from `k` on were visited in the current round. -/
def Settled (T : ι → Option ι) (k : ℕ) : Prop :=
  ∀ c, G.Node c → c ≠ G.root → k ≤ P.rank c → ∃ t, T c = some t ∧ Above T t (P.parent c)

variable {P}

theorem Settled.isSome {k : ℕ} (h : Candidates P T) (hs : Settled P T k)
    {c : ι} (hc : G.Node c) (hk : k ≤ P.rank c) : (T c).isSome := by
  by_cases hroot : c = G.root
  · rw [hroot, h.root]
    rfl
  · obtain ⟨t, ht, -⟩ := hs c hc hroot hk
    rw [ht]
    rfl

/-- Between a visited node and an ancestor of it, the search came through no node that
lies below the ancestor. -/
theorem Settled.above_of_over {k : ℕ} (hs : Settled P T k)
    {u d : ι} (hd : P.Over d u) (hu : G.Node u) (hk : k ≤ P.rank u)
    (hx : Above T x u) (hrank : P.rank d ≤ P.rank x) : Above T x d := by
  induction hd using Relation.ReflTransGen.head_induction_on with
  | refl => exact hx
  | @head a c hac hrest ih =>
    obtain ⟨hroot, rfl⟩ := hac
    have hnode := P.node_parent a hu hroot
    have hlt := P.rank_lt_parent a hu hroot
    obtain ⟨t, ht, hparent⟩ := hs a hu hroot hk
    have hne : x ≠ a := by
      rintro rfl
      exact absurd (PostOrder.Over.rank_le hrest hnode) (by omega)
    have hxt : Above T x t := ((above_iff ht).mp hx).resolve_left hne
    exact ih hnode (by omega) (hparent.trans hxt)

section Visit

variable {T : ι → Option ι} {b n : ι}
  (h : Candidates P T) (hs : Settled P T (P.rank b + 1)) (hb : G.Node b) (hroot : b ≠ G.root)
  (hn : Nearest (G := G) T b n)

include h hroot hn

variable {o : ι}

theorem Candidates.rank_le_nearest (ho : T b = some o) : P.rank o ≤ P.rank n :=
  h.below b o hroot ho n fun p hp hsome => (hn.2 n).mp Relation.ReflTransGen.refl p hp hsome

omit hn in
include hs hb in
theorem Candidates.isSome_parent : (T (P.parent b)).isSome :=
  hs.isSome h (P.node_parent b hb hroot) (P.rank_lt_parent b hb hroot)

include hs hb

theorem Candidates.nearest_above_parent : Above T n (P.parent b) :=
  (hn.2 n).mp Relation.ReflTransGen.refl _ (P.edge_parent b hb hroot) (h.isSome_parent hs hb hroot)

/-- A visit moves the candidate of a node up the tree. -/
theorem Candidates.nearest_above_old (ho : T b = some o) : Above T n o :=
  hs.above_of_over (h.over_parent b o hroot ho) (P.node_parent b hb hroot)
    (P.rank_lt_parent b hb hroot) (h.nearest_above_parent hs hb hroot hn)
    (h.rank_le_nearest hroot hn ho)

omit hs hb in
theorem Candidates.rank_lt_of_ne (ho : T b = some o) (hne : o ≠ n) : P.rank o < P.rank n := by
  refine lt_of_le_of_ne (h.rank_le_nearest hroot hn ho) fun heq => hne ?_
  exact P.rank_inj o n (h.node_of_isSome (h.kept b o ho)) (h.node_of_isSome hn.1) heq

variable [DecidableEq ι]

omit hs hb hroot hn in
theorem Candidates.above_update_of_lt {c x : ι} (hc : P.rank b < P.rank c) :
    Above (Function.update T b (some n)) x c ↔ Above T x c := by
  have hstep : ∀ a d, P.rank b < P.rank a →
      (Function.update T b (some n) a = some d ↔ T a = some d) := by
    intro a d ha
    rw [Function.update_of_ne]
    rintro rfl
    exact absurd ha (lt_irrefl _)
  have hnext : ∀ a d, P.rank b < P.rank a → T a = some d → P.rank b < P.rank d :=
    fun a d ha had => ha.trans_le (h.rank_le (Relation.ReflTransGen.single had))
  constructor
  · intro hx
    induction hx using Relation.ReflTransGen.head_induction_on with
    | refl => exact Relation.ReflTransGen.refl
    | @head a d had _ ih =>
      have had' := (hstep a d hc).mp had
      exact (ih (hnext a d hc had')).head had'
  · intro hx
    induction hx using Relation.ReflTransGen.head_induction_on with
    | refl => exact Relation.ReflTransGen.refl
    | @head a d had _ ih => exact (ih (hnext a d hc had)).head ((hstep a d hc).mpr had)

/-- A visit takes ancestors away and adds none. -/
theorem Candidates.above_of_update {c x : ι} (hc : (T c).isSome)
    (hx : Above (Function.update T b (some n)) x c) : Above T x c := by
  induction hx using Relation.ReflTransGen.head_induction_on with
  | refl => exact Relation.ReflTransGen.refl
  | @head a d had _ ih =>
    by_cases hab : a = b
    · subst hab
      rw [Function.update_self] at had
      obtain rfl := Option.some.inj had
      obtain ⟨o, ho⟩ := Option.isSome_iff_exists.mp hc
      have hup : Above T n a := (above_iff ho).mpr (Or.inr (h.nearest_above_old hs hb hroot hn ho))
      exact hup.trans (ih hn.1)
    · rw [Function.update_of_ne hab] at had
      exact (ih (h.kept a d had)).head had

theorem Candidates.update : Candidates P (Function.update T b (some n)) := by
  have hsome : ∀ c, (T c).isSome → (Function.update T b (some n) c).isSome := by
    intro c hc
    by_cases hcb : c = b
    · rw [hcb, Function.update_self]
      rfl
    · rwa [Function.update_of_ne hcb]
  have hcases : ∀ c t, Function.update T b (some n) c = some t →
      c = b ∧ t = n ∨ c ≠ b ∧ T c = some t := by
    intro c t ht
    by_cases hcb : c = b
    · rw [hcb, Function.update_self] at ht
      exact Or.inl ⟨hcb, (Option.some.inj ht).symm⟩
    · rw [Function.update_of_ne hcb] at ht
      exact Or.inr ⟨hcb, ht⟩
  have hshrink := fun c x => h.above_of_update (c := c) (x := x) hs hb hroot hn
  constructor
  case root => rw [Function.update_of_ne (Ne.symm hroot), h.root]
  case node =>
    intro c t ht
    rcases hcases c t ht with ⟨rfl, rfl⟩ | ⟨_, ht⟩
    · exact hb
    · exact h.node c t ht
  case kept =>
    intro c t ht
    rcases hcases c t ht with ⟨rfl, rfl⟩ | ⟨_, ht⟩
    · exact hsome _ hn.1
    · exact hsome _ (h.kept c t ht)
  case over_parent =>
    intro c t hc ht
    rcases hcases c t ht with ⟨rfl, rfl⟩ | ⟨_, ht⟩
    · exact h.over_of_above (h.nearest_above_parent hs hb hroot hn)
    · exact h.over_parent c t hc ht
  case dominates =>
    intro c t hc ht x hx
    rcases hcases c t ht with ⟨rfl, rfl⟩ | ⟨_, ht⟩
    · have habove : Above T x t := (hn.2 x).mpr fun p hp hp' =>
        h.above_of_dominates hp' (hx.of_edge hp)
      exact h.dominates_ancestor (h.isSome_parent hs hb hroot)
        (h.nearest_above_parent hs hb hroot hn) habove (hx.of_edge (P.edge_parent c hb hroot))
    · exact h.dominates c t hc ht x hx
  case below =>
    intro c t hc ht x hx
    have hx' : ∀ p, G.edge p c → (T p).isSome → Above T x p :=
      fun p hp hp' => hshrink p x hp' (hx p hp (hsome p hp'))
    rcases hcases c t ht with ⟨rfl, rfl⟩ | ⟨_, ht⟩
    · exact h.rank_le ((hn.2 x).mpr hx')
    · exact h.below c t hc ht x hx'

theorem Settled.update : Settled P (Function.update T b (some n)) (P.rank b) := by
  intro c hc hcroot hk
  by_cases hcb : c = b
  · subst hcb
    refine ⟨n, Function.update_self _ _ _, ?_⟩
    rw [h.above_update_of_lt (P.rank_lt_parent c hb hroot)]
    exact h.nearest_above_parent hs hb hroot hn
  · have hlt : P.rank b < P.rank c :=
      lt_of_le_of_ne hk fun heq => hcb (P.rank_inj c b hc hb heq.symm)
    obtain ⟨t, ht, hparent⟩ := hs c hc hcroot hlt
    refine ⟨t, by rwa [Function.update_of_ne hcb], ?_⟩
    rwa [h.above_update_of_lt (hlt.trans (P.rank_lt_parent c hc hcroot))]

end Visit

/-! ## The candidates that no visit moves -/

/-- Every candidate is an ancestor of all predecessors of its node. -/
structure Stable (P : G.PostOrder) (T : ι → Option ι) : Prop extends Candidates P T where
  isSome : ∀ b, G.Node b → (T b).isSome
  above_pred : ∀ b t p, b ≠ G.root → T b = some t → G.edge p b → G.Node p → Above T t p

namespace Stable

variable {T : ι → Option ι} (h : Stable P T)

include h

variable {b : ι}

/-- A walk meets all ancestors of its last node. -/
theorem dominates_of_above {x : ι} (hx : Above T x b) : G.Dominates x b := by
  intro l hl
  induction hl generalizing x with
  | root =>
    rw [h.above_root.mp hx]
    exact List.mem_cons_self
  | @step a b l hl hab ih =>
    have ha : G.Node a := ⟨_, hl⟩
    by_cases hroot : b = G.root
    · rw [hroot] at hx ⊢
      rw [h.above_root.mp hx]
      exact List.mem_cons_self
    · obtain ⟨t, ht⟩ := Option.isSome_iff_exists.mp (h.isSome b (ha.step hab))
      rcases (above_iff ht).mp hx with rfl | hxt
      · exact List.mem_cons_self
      · exact List.mem_cons_of_mem _ (ih ((h.above_pred b t a hroot ht hab ha).trans hxt))

theorem above_iff_dominates {x : ι} (hb : G.Node b) : Above T x b ↔ G.Dominates x b :=
  ⟨h.dominates_of_above, h.above_of_dominates (h.isSome b hb)⟩

theorem isImmediateDominator {t : ι} (hroot : b ≠ G.root) (ht : T b = some t) :
    G.IsImmediateDominator t b := by
  constructor
  case strict =>
    refine ⟨h.dominates_of_above (Relation.ReflTransGen.single ht), ?_⟩
    rintro rfl
    exact absurd (h.rank_lt hroot ht) (lt_irrefl _)
  case closest => exact h.dominates b t hroot ht

theorem eq_some_iff {t : ι} (hb : G.Node b) (hroot : b ≠ G.root) :
    T b = some t ↔ G.IsImmediateDominator t b := by
  constructor
  · exact h.isImmediateDominator hroot
  · intro ht
    obtain ⟨s, hs⟩ := Option.isSome_iff_exists.mp (h.isSome b hb)
    rw [hs, IsImmediateDominator.unique hb (h.isImmediateDominator hroot hs) ht]

end Stable

end EzPacker.RootedGraph
