import Mathlib.Data.List.Nodup

/-!
# Doubly linked segments

Nodes with a link in each direction. A segment is a list of nodes whose links follow the list in
both directions, up to the given ends.
-/

namespace EzPacker

open List Function

structure Links (α : Type*) where
  prev : α → Option α
  next : α → Option α

namespace Links

variable {α : Type*}

/-- The links of the nodes follow the list, from `p` in front of it to `n` behind it. -/
def Segment (L : Links α) : Option α → List α → Option α → Prop
  | _, [], _ => True
  | p, x :: xs, n => L.prev x = p ∧ L.next x = xs.head?.or n ∧ L.Segment (some x) xs n

variable {L : Links α} {p n : Option α}

theorem segment_append (xs ys : List α) : L.Segment p (xs ++ ys) n ↔
      L.Segment p xs (ys.head?.or n) ∧ L.Segment (xs.getLast?.or p) ys n := by
  induction xs generalizing p with
  | nil => simp only [nil_append, Segment, getLast?_nil, Option.none_or, true_and]
  | cons x xs ih =>
    rw [cons_append, Segment, Segment, ih, head?_append, Option.or_assoc,
      getLast?_cons, and_assoc, and_assoc]
    cases xs.getLast? <;> rfl

theorem segment_singleton (x : α) : L.Segment (L.prev x) [x] (L.next x) :=
  ⟨rfl, rfl, trivial⟩

/-- The two neighbours of a node of a segment. -/
theorem Segment.prev_next {front back : List α} {x : α} (h : L.Segment p (front ++ x :: back) n) :
    L.prev x = front.getLast?.or p ∧ L.next x = back.head?.or n := by
  obtain ⟨-, hprev, hnext, -⟩ := (segment_append front (x :: back)).mp h
  exact ⟨hprev, hnext⟩

theorem Segment.congr {L' : Links α} {xs : List α}
    (hprev : ∀ x ∈ xs, L'.prev x = L.prev x) (hnext : ∀ x ∈ xs, L'.next x = L.next x)
    (h : L.Segment p xs n) : L'.Segment p xs n := by
  induction xs generalizing p with
  | nil => trivial
  | cons x xs ih =>
    obtain ⟨hp, hn, hrest⟩ := h
    rw [forall_mem_cons] at hprev hnext
    exact ⟨hprev.1.trans hp, hnext.1.trans hn, ih hprev.2 hnext.2 hrest⟩

/-- Two segments from the same first node to the end are equal. -/
theorem Segment.unique {q : Option α} {xs ys : List α}
    (hx : L.Segment p xs none) (hy : L.Segment q ys none) (hhead : xs.head? = ys.head?) :
    xs = ys := by
  induction xs generalizing p q ys with
  | nil =>
    cases ys with
    | nil => rfl
    | cons y ys => cases hhead
  | cons x xs ih =>
    cases ys with
    | nil => cases hhead
    | cons y ys =>
      obtain rfl : x = y := Option.some.inj hhead
      have hnext : xs.head?.or none = ys.head?.or none := hx.2.1.symm.trans hy.2.1
      rw [Option.or_none, Option.or_none] at hnext
      rw [ih hx.2.2 hy.2.2 hnext]

section Update

variable [DecidableEq α]

def setPrev (L : Links α) (x : α) (p : Option α) : Links α :=
  { L with prev := update L.prev x p }

def setNext (L : Links α) (x : α) (n : Option α) : Links α :=
  { L with next := update L.next x n }

variable {L : Links α} {p n : Option α} {xs : List α}

@[simp] theorem setPrev_prev (x : α) (p : Option α) :
    (L.setPrev x p).prev = update L.prev x p := rfl

@[simp] theorem setPrev_next (x : α) (p : Option α) : (L.setPrev x p).next = L.next := rfl

@[simp] theorem setNext_prev (x : α) (n : Option α) : (L.setNext x n).prev = L.prev := rfl

@[simp] theorem setNext_next (x : α) (n : Option α) :
    (L.setNext x n).next = update L.next x n := rfl

variable {x : α} {q : Option α}

theorem Segment.setPrev_of_notMem (hx : x ∉ xs)
    (h : L.Segment p xs n) : (L.setPrev x q).Segment p xs n := by
  refine h.congr ?_ ?_
  · exact fun y hy => update_of_ne (ne_of_mem_of_not_mem hy hx) _ _
  · exact fun _ _ => rfl

theorem Segment.setNext_of_notMem (hx : x ∉ xs)
    (h : L.Segment p xs n) : (L.setNext x q).Segment p xs n := by
  refine h.congr ?_ ?_
  · exact fun _ _ => rfl
  · exact fun y hy => update_of_ne (ne_of_mem_of_not_mem hy hx) _ _

theorem Segment.setPrev_head (hx : x ∉ xs)
    (h : L.Segment p (x :: xs) n) : (L.setPrev x q).Segment q (x :: xs) n :=
  ⟨update_self _ _ _, h.2.1, h.2.2.setPrev_of_notMem hx⟩

theorem Segment.setNext_last (hx : x ∉ xs)
    (h : L.Segment p (xs ++ [x]) n) : (L.setNext x q).Segment p (xs ++ [x]) q := by
  obtain ⟨hfront, hlast⟩ := (segment_append xs [x]).mp h
  exact (segment_append xs [x]).mpr
    ⟨hfront.setNext_of_notMem hx, hlast.1, update_self _ _ _, trivial⟩

/-- The two nodes become neighbours; at an end of a list there is one node. -/
def link (L : Links α) (a b : Option α) : Links α where
  prev := match b with
    | none => L.prev
    | some b => update L.prev b a
  next := match a with
    | none => L.next
    | some a => update L.next a b

theorem Segment.link_of_notMem {a b : Option α} (ha : ∀ x ∈ xs, a ≠ some x)
    (hb : ∀ x ∈ xs, b ≠ some x) (h : L.Segment p xs n) : (L.link a b).Segment p xs n := by
  refine h.congr (fun x hx => ?_) fun x hx => ?_
  · cases b with
    | none => rfl
    | some b => exact update_of_ne (fun heq => hb x hx (congrArg some heq.symm)) _ _
  · cases a with
    | none => rfl
    | some a => exact update_of_ne (fun heq => ha x hx (congrArg some heq.symm)) _ _

@[simp] theorem link_none_prev (a : Option α) : (L.link a none).prev = L.prev := rfl

@[simp] theorem link_some_prev (a : Option α) (b : α) :
    (L.link a (some b)).prev = update L.prev b a := rfl

@[simp] theorem link_none_next (b : Option α) : (L.link none b).next = L.next := rfl

@[simp] theorem link_some_next (a : α) (b : Option α) :
    (L.link (some a) b).next = update L.next a b := rfl

/-- Two segments become one when the last node of the first is linked to the first of the second. -/
theorem Segment.join {p' n' : Option α} {xs ys : List α} (hnodup : (xs ++ ys).Nodup)
    (hxs : L.Segment p xs n) (hys : L.Segment p' ys n') (hp : xs = [] → p = none)
    (hn : ys = [] → n' = none) :
    (L.link xs.getLast? ys.head?).Segment p (xs ++ ys) n' := by
  rw [nodup_append] at hnodup
  obtain ⟨hnodupx, hnodupy, hdisjoint⟩ := hnodup
  refine (segment_append xs ys).mpr ⟨?_, ?_⟩
  · rcases eq_nil_or_concat xs with rfl | ⟨front, x, rfl⟩
    · trivial
    · rw [concat_eq_append] at *
      have hx : x ∉ front := fun hmem =>
        (nodup_append.mp hnodupx).2.2 x hmem x mem_cons_self rfl
      rw [getLast?_concat]
      cases ys with
      | nil =>
        obtain rfl := hn rfl
        exact hxs.setNext_last hx
      | cons y ys =>
        have hy : y ∉ front ++ [x] := fun hmem => hdisjoint y hmem y mem_cons_self rfl
        exact (hxs.setNext_last hx).setPrev_of_notMem hy
  · cases ys with
    | nil => trivial
    | cons y ys =>
      have hy : y ∉ ys := (nodup_cons.mp hnodupy).1
      rcases eq_nil_or_concat xs with rfl | ⟨front, x, rfl⟩
      · obtain rfl := hp rfl
        exact hys.setPrev_head hy
      · rw [concat_eq_append] at *
        have hx : x ∉ y :: ys := fun hmem =>
          hdisjoint x (mem_append_right _ mem_cons_self) x hmem rfl
        rw [getLast?_concat]
        exact (hys.setNext_of_notMem hx).setPrev_head hy

end Update

end Links

end EzPacker
