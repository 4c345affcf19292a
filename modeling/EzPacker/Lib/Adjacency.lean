import Mathlib.Data.List.Pairwise
import Mathlib.Order.Lattice
import Mathlib.Data.List.TakeWhile
import Mathlib.Tactic.Tauto

/-!
# Adjacency lists in both directions

A directed graph that is kept as two families of lists, the successors and the
predecessors of every node, each list sorted and without repetition. An edge is added
to both sides at once.
-/

namespace EzPacker

open List Function

variable {α : Type*} [LinearOrder α]

/-- Inserts into a sorted list without repetition, in front of the first element that is
not smaller. -/
def insertSorted (l : List α) (a : α) : List α :=
  if (l.dropWhile (· < a)).head? = some a then l
  else l.takeWhile (· < a) ++ a :: l.dropWhile (· < a)

variable {l : List α}

theorem mem_insertSorted {a x : α} : x ∈ insertSorted l a ↔ x ∈ l ∨ x = a := by
  unfold insertSorted
  split
  · next hhead =>
      have ha : a ∈ l :=
        (dropWhile_sublist _).subset (mem_of_mem_head? hhead)
      constructor
      · exact Or.inl
      · rintro (h | rfl)
        · exact h
        · exact ha
  · have hl : x ∈ l ↔ x ∈ l.takeWhile (· < a) ∨ x ∈ l.dropWhile (· < a) := by
      rw [← mem_append, takeWhile_append_dropWhile]
    rw [hl, mem_append, mem_cons]
    tauto

/-- What stands behind the smaller elements of a sorted list is not smaller. -/
theorem le_of_mem_dropWhile (h : l.Pairwise (· < ·)) {a x : α}
    (hx : x ∈ l.dropWhile (· < a)) : a ≤ x := by
  induction l with
  | nil => cases hx
  | cons b l ih =>
    rw [pairwise_cons] at h
    by_cases hb : b < a
    · rw [dropWhile_cons_of_pos (by simpa using hb)] at hx
      exact ih h.2 hx
    · rw [dropWhile_cons_of_neg (by simpa using hb)] at hx
      rcases mem_cons.mp hx with rfl | hx
      · exact not_lt.mp hb
      · exact (not_lt.mp hb).trans (h.1 x hx).le

theorem insertSorted_sorted (h : l.Pairwise (· < ·)) (a : α) :
    (insertSorted l a).Pairwise (· < ·) := by
  unfold insertSorted
  split
  · exact h
  · next hhead =>
      have hbefore : ∀ x ∈ l.takeWhile (· < a), x < a := by
        intro x hx
        simpa using mem_takeWhile_imp hx
      have hbehind : ∀ x ∈ l.dropWhile (· < a), a < x := by
        intro x hx
        have hsorted := h.sublist (dropWhile_sublist (· < a))
        cases hdrop : l.dropWhile (· < a) with
        | nil =>
          rw [hdrop] at hx
          cases hx
        | cons b rest =>
          rw [hdrop] at hhead hsorted
          have hab : a < b :=
            lt_of_le_of_ne (le_of_mem_dropWhile h (hdrop ▸ mem_cons_self))
              fun hab => hhead (by rw [hab]; rfl)
          rw [hdrop] at hx
          rcases mem_cons.mp hx with rfl | hx
          · exact hab
          · exact hab.trans ((pairwise_cons.mp hsorted).1 x hx)
      rw [pairwise_append, pairwise_cons]
      refine ⟨h.sublist (takeWhile_sublist _), ⟨hbehind, h.sublist (dropWhile_sublist _)⟩, ?_⟩
      intro x hx y hy
      rcases mem_cons.mp hy with rfl | hy
      · exact hbefore x hx
      · exact (hbefore x hx).trans (hbehind y hy)

/-- The successors and the predecessors of every node. -/
structure Adjacency (α : Type*) where
  successors : α → List α
  predecessors : α → List α

namespace Adjacency

def empty : Adjacency α := ⟨fun _ => [], fun _ => []⟩

def addEdge (g : Adjacency α) (source target : α) : Adjacency α where
  successors := update g.successors source (insertSorted (g.successors source) target)
  predecessors := update g.predecessors target (insertSorted (g.predecessors target) source)

def addEdges (g : Adjacency α) (source : α) (targets : List α) : Adjacency α :=
  targets.foldl (fun g target => g.addEdge source target) g

theorem successors_addEdge (g : Adjacency α) (source target : α) :
    (g.addEdge source target).successors =
      update g.successors source (insertSorted (g.successors source) target) :=
  rfl

theorem predecessors_addEdge (g : Adjacency α) (source target : α) :
    (g.addEdge source target).predecessors =
      update g.predecessors target (insertSorted (g.predecessors target) source) :=
  rfl

/-- The two directions agree, and every list is sorted without repetition. -/
structure WellKept (g : Adjacency α) : Prop where
  converse : ∀ a b, b ∈ g.successors a ↔ a ∈ g.predecessors b
  successors_sorted : ∀ a, (g.successors a).Pairwise (· < ·)
  predecessors_sorted : ∀ a, (g.predecessors a).Pairwise (· < ·)

variable {g : Adjacency α} {source a b : α}

theorem mem_successors_addEdge {target : α} : b ∈ (g.addEdge source target).successors a ↔
      b ∈ g.successors a ∨ a = source ∧ b = target := by
  rw [successors_addEdge]
  by_cases ha : a = source
  · subst ha
    rw [update_self, mem_insertSorted]
    tauto
  · rw [update_of_ne ha]
    tauto

theorem mem_predecessors_addEdge {target : α} : a ∈ (g.addEdge source target).predecessors b ↔
      a ∈ g.predecessors b ∨ a = source ∧ b = target := by
  rw [predecessors_addEdge]
  by_cases hb : b = target
  · subst hb
    rw [update_self, mem_insertSorted]
    tauto
  · rw [update_of_ne hb]
    tauto

theorem WellKept.empty : (empty : Adjacency α).WellKept where
  converse _ _ := by simp [Adjacency.empty]
  successors_sorted _ := Pairwise.nil
  predecessors_sorted _ := Pairwise.nil

theorem WellKept.addEdge (h : g.WellKept) (source target : α) :
    (g.addEdge source target).WellKept where
  converse a b := by
    rw [mem_successors_addEdge, mem_predecessors_addEdge, h.converse]
  successors_sorted a := by
    rw [successors_addEdge]
    by_cases ha : a = source
    · subst ha
      rw [update_self]
      exact insertSorted_sorted (h.successors_sorted a) target
    · rw [update_of_ne ha]
      exact h.successors_sorted a
  predecessors_sorted b := by
    rw [predecessors_addEdge]
    by_cases hb : b = target
    · subst hb
      rw [update_self]
      exact insertSorted_sorted (h.predecessors_sorted b) source
    · rw [update_of_ne hb]
      exact h.predecessors_sorted b

theorem mem_successors_addEdges {targets : List α} : b ∈ (g.addEdges source targets).successors a ↔
      b ∈ g.successors a ∨ a = source ∧ b ∈ targets := by
  unfold addEdges
  induction targets generalizing g with
  | nil => simp
  | cons target targets ih =>
    rw [foldl_cons, ih, mem_successors_addEdge, mem_cons]
    tauto

theorem WellKept.addEdges (h : g.WellKept) (source : α)
    (targets : List α) : (g.addEdges source targets).WellKept := by
  unfold Adjacency.addEdges
  induction targets generalizing g with
  | nil => exact h
  | cons target targets ih => exact ih (h.addEdge source target)

end Adjacency

end EzPacker
