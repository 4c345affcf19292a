import EzPacker.Lib.Dominators
import Mathlib.Data.List.Nodup

/-!
# Lists in depth-first post-order

A list of the nodes of a rooted graph that ends with the root, and in which every other
node has an edge from a node further behind, numbers the nodes in post-order.
-/

namespace EzPacker

open List

namespace RootedGraph

variable {ι : Type*} (G : RootedGraph ι)

def LaterEdges (last : List ι) : List ι → Prop
  | [] => True
  | x :: l => (∃ p ∈ l ++ last, G.edge p x) ∧ LaterEdges last l

variable {G}

theorem LaterEdges.mono {last last' l : List ι} (h : G.LaterEdges last l) (hsub : last ⊆ last') :
    G.LaterEdges last' l := by
  induction l with
  | nil => trivial
  | cons x l ih =>
    obtain ⟨⟨p, hp, hedge⟩, hrest⟩ := h
    refine ⟨⟨p, ?_, hedge⟩, ih hrest⟩
    rw [mem_append] at hp ⊢
    exact hp.imp_right (hsub ·)

theorem LaterEdges.append {last l l' : List ι} (h : G.LaterEdges (l' ++ last) l)
    (h' : G.LaterEdges last l') : G.LaterEdges last (l ++ l') := by
  induction l with
  | nil => exact h'
  | cons x l ih =>
    obtain ⟨⟨p, hp, hedge⟩, hrest⟩ := h
    refine ⟨⟨p, ?_, hedge⟩, ih hrest⟩
    change p ∈ (l ++ l') ++ last
    rwa [append_assoc]

theorem LaterEdges.node {last l : List ι} (h : G.LaterEdges last l) (hlast : ∀ x ∈ last, G.Node x) :
    ∀ x ∈ l ++ last, G.Node x := by
  induction l with
  | nil => exact hlast
  | cons y l ih =>
    obtain ⟨⟨p, hp, hedge⟩, hrest⟩ := h
    intro x hx
    rcases mem_cons.mp hx with rfl | hx
    · exact (ih hrest p hp).step hedge
    · exact ih hrest x hx

variable [DecidableEq ι]

theorem LaterEdges.exists_idxOf_lt {last l : List ι} (h : G.LaterEdges last l)
    (hnodup : (l ++ last).Nodup) {x : ι} (hx : x ∈ l) :
    ∃ p ∈ l ++ last, G.edge p x ∧ (l ++ last).idxOf x < (l ++ last).idxOf p := by
  induction l with
  | nil => cases hx
  | cons y l ih =>
    obtain ⟨⟨q, hq, hedge⟩, hrest⟩ := h
    rw [cons_append, nodup_cons] at hnodup
    have hne : ∀ p ∈ l ++ last, y ≠ p := by
      rintro p hp rfl
      exact hnodup.1 hp
    by_cases hxy : x = y
    · subst hxy
      refine ⟨q, mem_cons_of_mem _ hq, hedge, ?_⟩
      rw [cons_append, idxOf_cons_self, idxOf_cons_ne _ (hne q hq)]
      exact Nat.succ_pos _
    · have hxl : x ∈ l := (mem_cons.mp hx).resolve_left hxy
      obtain ⟨p, hp, hpx, hlt⟩ := ih hrest hnodup.2 hxl
      refine ⟨p, mem_cons_of_mem _ hp, hpx, ?_⟩
      rw [cons_append, idxOf_cons_ne _ (Ne.symm hxy), idxOf_cons_ne _ (hne p hp)]
      exact Nat.succ_lt_succ hlt

/-- A list that a depth-first search from the root leaves behind. -/
structure IsPostOrder (G : RootedGraph ι) (l : List ι) : Prop where
  nodup : l.Nodup
  mem : ∀ x, x ∈ l ↔ G.Node x
  later : ∃ front, l = front ++ [G.root] ∧ G.LaterEdges [G.root] front

namespace IsPostOrder

variable {l : List ι} (h : G.IsPostOrder l)

include h

theorem exists_parent (b : ι) (hb : G.Node b) (hroot : b ≠ G.root) :
    ∃ p, G.Node p ∧ G.edge p b ∧ l.idxOf b < l.idxOf p := by
  obtain ⟨front, rfl, hlater⟩ := h.later
  have hfront : b ∈ front := by
    rcases mem_append.mp ((h.mem b).mpr hb) with hb | hb
    · exact hb
    · exact absurd (mem_singleton.mp hb) hroot
  obtain ⟨p, hp, hpb, hlt⟩ := hlater.exists_idxOf_lt h.nodup hfront
  exact ⟨p, (h.mem p).mp hp, hpb, hlt⟩

theorem idxOf_lt_root (b : ι) (hb : G.Node b) (hroot : b ≠ G.root) :
    l.idxOf b < l.idxOf G.root := by
  obtain ⟨front, rfl, -⟩ := h.later
  have hnodup := h.nodup
  have hfront : b ∈ front := by
    rcases mem_append.mp ((h.mem b).mpr hb) with hb | hb
    · exact hb
    · exact absurd (mem_singleton.mp hb) hroot
  have hnot : G.root ∉ front := fun hmem =>
    (nodup_append.mp hnodup).2.2 _ hmem _ mem_cons_self rfl
  rw [idxOf_append_of_mem hfront, idxOf_append_of_notMem hnot]
  exact Nat.lt_add_right _ (idxOf_lt_length_of_mem hfront)

open Classical in
/-- The numbering by positions, each node with one of the nodes that lead to it. -/
noncomputable def postOrder : G.PostOrder where
  rank := l.idxOf
  parent b :=
    if hb : G.Node b ∧ b ≠ G.root then (h.exists_parent b hb.1 hb.2).choose else b
  node_parent b hb hroot := by
    rw [dif_pos ⟨hb, hroot⟩]
    exact (h.exists_parent b hb hroot).choose_spec.1
  edge_parent b hb hroot := by
    rw [dif_pos ⟨hb, hroot⟩]
    exact (h.exists_parent b hb hroot).choose_spec.2.1
  rank_lt_parent b hb hroot := by
    rw [dif_pos ⟨hb, hroot⟩]
    exact (h.exists_parent b hb hroot).choose_spec.2.2
  rank_lt_root := h.idxOf_lt_root
  rank_inj a b ha _ hab := (idxOf_inj ((h.mem a).mpr ha)).mp hab

end IsPostOrder

end RootedGraph

end EzPacker

/-!
## Topological orders

A list in which everything that an element depends on stands in front of it.
-/

namespace EzPacker

open Relation

variable {ι : Type*} {dep : ι → ι → Prop} {l : List ι}

/-- What an element depends on stands in front of it. -/
def BehindDependencies (dep : ι → ι → Prop) (l : List ι) : Prop :=
  ∀ front p back, l = front ++ p :: back → ∀ d, dep p d → d ∈ front

theorem BehindDependencies.nil : BehindDependencies dep [] := by
  intro front p back h
  cases front <;> cases h

theorem BehindDependencies.concat {p : ι} (h : BehindDependencies dep l)
    (hp : ∀ d, dep p d → d ∈ l) : BehindDependencies dep (l ++ [p]) := by
  intro front q back heq
  rcases List.eq_nil_or_concat back with rfl | ⟨back, r, rfl⟩
  · obtain ⟨rfl, hlast⟩ := List.append_inj' heq rfl
    obtain rfl := List.singleton_inj.mp hlast
    exact hp
  · rw [List.concat_eq_append, ← List.cons_append, ← List.append_assoc] at heq
    exact h front q back (List.append_inj' heq rfl).1

theorem BehindDependencies.of_append {back : List ι} (h : BehindDependencies dep (l ++ back)) :
    BehindDependencies dep l := by
  intro front p rest heq
  refine h front p (rest ++ back) ?_
  rw [heq, List.append_assoc, List.cons_append]

section Closed

variable (h : BehindDependencies dep l)
include h

theorem BehindDependencies.mem_of_dep {p d : ι} (hp : p ∈ l) (hd : dep p d) : d ∈ l := by
  obtain ⟨front, back, rfl⟩ := List.append_of_mem hp
  exact List.mem_append_left _ (h front p back rfl d hd)

theorem BehindDependencies.mem_of_reach {p q : ι} (hp : p ∈ l) (hq : ReflTransGen dep p q) :
    q ∈ l := by
  induction hq with
  | refl => exact hp
  | tail _ hstep ih => exact h.mem_of_dep ih hstep

/-- Everything that an element depends on through others stands in front of it. -/
theorem BehindDependencies.mem_front {front back : List ι} {p q : ι} (hl : l = front ++ p :: back)
    (hq : TransGen dep p q) : q ∈ front := by
  obtain ⟨d, hd, hreach⟩ := TransGen.head'_iff.mp hq
  have hfront : BehindDependencies dep front := (hl ▸ h).of_append
  exact hfront.mem_of_reach (h front p back hl d hd) hreach

theorem BehindDependencies.not_cyclic (hnodup : l.Nodup) {p : ι} (hp : p ∈ l) :
    ¬TransGen dep p p := by
  intro hcycle
  obtain ⟨front, back, rfl⟩ := List.append_of_mem hp
  have hmem : p ∈ front := h.mem_front rfl hcycle
  exact (List.nodup_append.mp hnodup).2.2 p hmem p List.mem_cons_self rfl

end Closed

end EzPacker
