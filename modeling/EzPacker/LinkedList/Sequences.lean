import EzPacker.LinkedList.IntrusiveLinkedList

/-!
# Lists of nodes as sequences

What each operation means on the sequences of nodes that the lists stand for.
-/

namespace EzPacker.LinkedList

open List Function

variable {ι α : Type} [DecidableEq α]

/-- Before the node at the position, or at the end. -/
def insertBefore (pos : Option α) (nodes xs : List α) : List α :=
  xs.takeWhile (fun x => some x ≠ pos) ++ nodes ++ xs.dropWhile (fun x => some x ≠ pos)

def between (first last : Option α) (xs : List α) : List α :=
  (xs.dropWhile fun x => some x ≠ first).takeWhile fun x => some x ≠ last

def removeAll (nodes xs : List α) : List α := xs.filter (· ∉ nodes)

/-- The node behind the position. -/
def behind (pos : Option α) (xs : List α) : Option α :=
  (xs.dropWhile fun x => some x ≠ pos).tail.head?

section Meaning

variable [DecidableEq ι]

/-- The nodes leave the other list and stand before the position. -/
def moveBefore (i : ι) (pos : Option α) (other : ι) (nodes : List α) (seqs : ι → List α) :
    ι → List α :=
  let seqs := update seqs other (removeAll nodes (seqs other))
  update seqs i (insertBefore pos nodes (seqs i))

def moveRange (i : ι) (pos : Option α) (other : ι) (nodes : List α) (seqs : ι → List α) :
    ι → List α :=
  if i = other ∧ ∃ x ∈ nodes, pos = some x then seqs else moveBefore i pos other nodes seqs

/-- The sequences behind the operation and the node that it returns. -/
def apply : Operation ι α → (ι → List α) → (ι → List α) × Option α
  | .push_back i node, seqs => (update seqs i (seqs i ++ node.toList), none)
  | .push_front i node, seqs => (update seqs i (node.toList ++ seqs i), none)
  | .insert i pos node, seqs =>
    (update seqs i (insertBefore pos node.toList (seqs i)), node.or pos)
  | .erase i pos, seqs =>
    (update seqs i (removeAll pos.toList (seqs i)), behind pos (seqs i))
  | .remove i node, seqs => (update seqs i (removeAll node.toList (seqs i)), none)
  | .pop_front i, seqs => (update seqs i (seqs i).tail, (seqs i).head?)
  | .pop_back i, seqs => (update seqs i (seqs i).dropLast, (seqs i).getLast?)
  | .spliceList i pos other, seqs =>
    (if i = other then seqs else moveBefore i pos other (seqs other) seqs, none)
  | .spliceElement i pos other it, seqs => (moveRange i pos other it.toList seqs, none)
  | .spliceCount i pos other first last _, seqs =>
    (moveRange i pos other (between first last (seqs other)) seqs, none)
  | .spliceRange i pos other first last, seqs =>
    (moveRange i pos other (between first last (seqs other)) seqs, none)
  | .clear i, seqs => (update seqs i [], none)

def applyAll : List (Operation ι α) → (ι → List α) → (ι → List α) × List (Option α)
  | [], seqs => (seqs, [])
  | operation :: operations, seqs =>
    ((applyAll operations (apply operation seqs).1).1,
      (apply operation seqs).2 :: (applyAll operations (apply operation seqs).1).2)

end Meaning

/-! ## Preconditions -/

def New (node : Option α) (seqs : ι → List α) : Prop := ∀ x, node = some x → ∀ i, x ∉ seqs i

/-- An iterator of a list: a node of the list, or past its end. -/
def IteratorOf (pos : Option α) (xs : List α) : Prop := ∀ x, pos = some x → x ∈ xs

/-- `last` is reached from `first`. -/
structure RangeOf (first last : Option α) (front nodes back xs : List α) : Prop where
  split : xs = front ++ nodes ++ back
  first_eq : first = (nodes ++ back).head?
  last_eq : last = back.head?

def Admissible : Operation ι α → (ι → List α) → Prop
  | .push_back _ node, seqs => New node seqs
  | .push_front _ node, seqs => New node seqs
  | .insert i pos node, seqs => IteratorOf pos (seqs i) ∧ New node seqs
  | .erase i pos, seqs => IteratorOf pos (seqs i)
  | .remove i node, seqs => IteratorOf node (seqs i)
  | .pop_front _, _ => True
  | .pop_back _, _ => True
  | .spliceList i pos _, seqs => IteratorOf pos (seqs i)
  | .spliceElement i pos other it, seqs => IteratorOf pos (seqs i) ∧ IteratorOf it (seqs other)
  | .spliceCount i pos other first last count, seqs =>
    IteratorOf pos (seqs i) ∧ ∃ front nodes back,
      RangeOf first last front nodes back (seqs other) ∧ count = nodes.length
  | .spliceRange i pos other first last, seqs =>
    IteratorOf pos (seqs i) ∧ ∃ front nodes back, RangeOf first last front nodes back (seqs other)
  | .clear _, _ => True

def PositionOutside : Operation ι α → (ι → List α) → Prop
  | .spliceCount i pos other first last _, seqs =>
    i = other → between first last (seqs other) = seqs other ∨
      ∀ x ∈ between first last (seqs other), pos ≠ some x
  | .spliceRange i pos other first last, seqs =>
    i = other → between first last (seqs other) = seqs other ∨
      ∀ x ∈ between first last (seqs other), pos ≠ some x
  | _, _ => True

section Run

variable [DecidableEq ι]

def AdmissibleRun : List (Operation ι α) → (ι → List α) → Prop
  | [], _ => True
  | operation :: operations, seqs =>
    Admissible operation seqs ∧ AdmissibleRun operations (apply operation seqs).1

/-- No range splice of the run is to a position in its own range. -/
def PositionsOutside : List (Operation ι α) → (ι → List α) → Prop
  | [], _ => True
  | operation :: operations, seqs =>
    PositionOutside operation seqs ∧ PositionsOutside operations (apply operation seqs).1

end Run

/-! ## Sequences without duplicates -/

section Nodup

variable {xs front nodes back : List α}

theorem takeWhile_append_head? (h : ∀ x ∈ front, back.head? ≠ some x) :
    (front ++ back).takeWhile (fun x => some x ≠ back.head?) = front := by
  induction front with
  | nil =>
    cases back with
    | nil => rfl
    | cons y back => simp
  | cons x front ih =>
    rw [forall_mem_cons] at h
    have hx : decide (some x ≠ back.head?) = true := decide_eq_true (Ne.symm h.1)
    rw [cons_append, takeWhile_cons, hx, if_pos rfl, ih h.2]

theorem dropWhile_append_head? (h : ∀ x ∈ front, back.head? ≠ some x) :
    (front ++ back).dropWhile (fun x => some x ≠ back.head?) = back := by
  have happend := takeWhile_append_dropWhile (p := fun x => decide (some x ≠ back.head?))
    (l := front ++ back)
  rw [takeWhile_append_head? h] at happend
  exact append_cancel_left happend

omit [DecidableEq α] in
theorem head?_ne_of_nodup (hnodup : (front ++ back).Nodup) : ∀ x ∈ front, back.head? ≠ some x := by
  intro x hx hhead
  exact (nodup_append.mp hnodup).2.2 x hx x (mem_of_head? hhead) rfl

omit [DecidableEq α] in
/-- The position splits the sequence. -/
theorem exists_split {pos : Option α} (hpos : IteratorOf pos xs) :
    ∃ front back, xs = front ++ back ∧ pos = back.head? := by
  cases pos with
  | none => exact ⟨xs, [], (append_nil xs).symm, rfl⟩
  | some x =>
    obtain ⟨front, back, rfl⟩ := append_of_mem (hpos x rfl)
    exact ⟨front, x :: back, rfl, rfl⟩

theorem insertBefore_append (hnodup : (front ++ back).Nodup) :
    insertBefore back.head? nodes (front ++ back) = front ++ nodes ++ back := by
  unfold insertBefore
  rw [takeWhile_append_head? (head?_ne_of_nodup hnodup),
    dropWhile_append_head? (head?_ne_of_nodup hnodup)]

theorem removeAll_range (hnodup : (front ++ nodes ++ back).Nodup) :
    removeAll nodes (front ++ nodes ++ back) = front ++ back := by
  rw [append_assoc, nodup_append] at hnodup
  obtain ⟨-, hrest, hfront⟩ := hnodup
  have hback := (nodup_append.mp hrest).2.2
  unfold removeAll
  rw [filter_append, filter_append, filter_eq_self.mpr, filter_eq_nil_iff.mpr,
    filter_eq_self.mpr, append_nil]
  · exact fun x hx => decide_eq_true fun hmem => hback x hmem x hx rfl
  · exact fun x hx => by simpa using hx
  · exact fun x hx => decide_eq_true fun hmem =>
      hfront x hx x (mem_append_left _ hmem) rfl

theorem RangeOf.between_eq {first last : Option α} (hnodup : xs.Nodup)
    (h : RangeOf first last front nodes back xs) : between first last xs = nodes := by
  obtain ⟨rfl, rfl, rfl⟩ := h
  unfold between
  rw [append_assoc] at hnodup ⊢
  rw [dropWhile_append_head? (head?_ne_of_nodup hnodup),
    takeWhile_append_head? (head?_ne_of_nodup (nodup_append.mp hnodup).2.1)]

end Nodup

/-!
## Lists that represent sequences

Nodes enter a list and leave it through two links; every operation is one of these two or one
behind the other.
-/

open Links

variable {ι α : Type}

/-- The list of a sequence of nodes. -/
def IntrusiveLinkedList.ofList (xs : List α) : IntrusiveLinkedList α :=
  ⟨xs.head?, xs.getLast?, xs.length⟩

namespace IntrusiveLinkedList

@[simp] theorem ofList_head (xs : List α) : (ofList xs).head = xs.head? := rfl

@[simp] theorem ofList_tail (xs : List α) : (ofList xs).tail = xs.getLast? := rfl

@[simp] theorem ofList_size (xs : List α) : (ofList xs).size = xs.length := rfl

@[simp] theorem ofList_empty (xs : List α) : (ofList xs).empty = xs.isEmpty := by
  cases xs <;> simp [empty]

end IntrusiveLinkedList

/-- Every list holds one finite sequence without duplicates and no node is in two lists. -/
structure Represents (mem : Memory ι α) (seqs : ι → List α) : Prop where
  lists_eq : ∀ i, mem.lists i = .ofList (seqs i)
  segment : ∀ i, mem.links.Segment none (seqs i) none
  nodup : ∀ i, (seqs i).Nodup
  disjoint : ∀ i j x, x ∈ seqs i → x ∈ seqs j → i = j

/-- Linked nodes that are in no list. -/
structure Apart (mem : Memory ι α) (seqs : ι → List α) (nodes : List α) : Prop where
  nodup : nodes.Nodup
  notMem : ∀ x ∈ nodes, ∀ i, x ∉ seqs i
  segment : ∃ p n, mem.links.Segment p nodes n

theorem New.apart {mem : Memory ι α} {seqs : ι → List α} {node : α}
    (h : New (some node) seqs) : Apart mem seqs [node] where
  nodup := nodup_singleton node
  notMem x hx := by
    obtain rfl := mem_singleton.mp hx
    exact h x rfl
  segment := ⟨_, _, segment_singleton node⟩

theorem getLast?_ne_of_notMem {xs : List α} {x : α} (h : x ∉ xs) : xs.getLast? ≠ some x :=
  fun hlast => h (mem_of_getLast? hlast)

theorem head?_ne_of_notMem {xs : List α} {x : α} (h : x ∉ xs) : xs.head? ≠ some x :=
  fun hhead => h (mem_of_head? hhead)

section Free

variable [DecidableEq α] {mem : Memory ι α} {seqs : ι → List α}

theorem Represents.setPrev {x : α} {p : Option α} (h : Represents mem seqs)
    (hx : ∀ i, x ∉ seqs i) : Represents (mem.setPrev x p) seqs :=
  ⟨h.lists_eq, fun i => (h.segment i).setPrev_of_notMem (hx i), h.nodup, h.disjoint⟩

theorem Represents.setNext {x : α} {n : Option α} (h : Represents mem seqs)
    (hx : ∀ i, x ∉ seqs i) : Represents (mem.setNext x n) seqs :=
  ⟨h.lists_eq, fun i => (h.segment i).setNext_of_notMem (hx i), h.nodup, h.disjoint⟩

theorem Apart.setPrev {nodes : List α} {x : α} {p : Option α} (hapart : Apart mem seqs nodes)
    (hfirst : nodes.head? = some x) : Apart (mem.setPrev x p) seqs nodes := by
  obtain ⟨rest, rfl⟩ := head?_eq_some_iff.mp hfirst
  obtain ⟨hnodup, hnotMem, q, n, hsegment⟩ := hapart
  exact ⟨hnodup, hnotMem, _, _, hsegment.setPrev_head (nodup_cons.mp hnodup).1⟩

theorem Apart.setNext {nodes : List α} {x : α} {n : Option α} (hapart : Apart mem seqs nodes)
    (hlast : nodes.getLast? = some x) : Apart (mem.setNext x n) seqs nodes := by
  obtain ⟨rest, rfl⟩ := getLast?_eq_some_iff.mp hlast
  obtain ⟨hnodup, hnotMem, p, q, hsegment⟩ := hapart
  refine ⟨hnodup, hnotMem, _, _, hsegment.setNext_last fun hmem => ?_⟩
  exact (nodup_append.mp hnodup).2.2 x hmem x mem_cons_self rfl

end Free

variable [DecidableEq ι] [DecidableEq α]

/-- The nodes enter the list between the two parts. -/
def attach (i : ι) (front nodes back : List α) (mem : Memory ι α) : Memory ι α where
  links := (mem.links.link front.getLast? nodes.head?).link nodes.getLast? back.head?
  lists := update mem.lists i (.ofList (front ++ nodes ++ back))

/-- What is between the two parts leaves the list. -/
def detach (i : ι) (front back : List α) (mem : Memory ι α) : Memory ι α where
  links := mem.links.link front.getLast? back.head?
  lists := update mem.lists i (.ofList (front ++ back))

section Projections

variable (mem : Memory ι α) (i : ι) (front nodes back : List α)

@[simp] theorem attach_links : (attach i front nodes back mem).links =
    (mem.links.link front.getLast? nodes.head?).link nodes.getLast? back.head? := rfl

@[simp] theorem attach_lists : (attach i front nodes back mem).lists =
    update mem.lists i (.ofList (front ++ nodes ++ back)) := rfl

@[simp] theorem detach_links : (detach i front back mem).links =
    mem.links.link front.getLast? back.head? := rfl

@[simp] theorem detach_lists : (detach i front back mem).lists =
    update mem.lists i (.ofList (front ++ back)) := rfl

end Projections

section Attach

variable {mem : Memory ι α} {seqs : ι → List α} {i : ι} {front nodes back : List α}

omit [DecidableEq α] in
/-- What represents a new sequence of one list and leaves the other lists alone. -/
theorem Represents.update {mem' : Memory ι α} {xs : List α} (h : Represents mem seqs)
    (hlists : mem'.lists = update mem.lists i (.ofList xs)) (hnodup : xs.Nodup)
    (hdisjoint : ∀ j, j ≠ i → ∀ x ∈ xs, x ∉ seqs j)
    (hsegment : mem'.links.Segment none xs none)
    (hothers : ∀ j, j ≠ i → mem'.links.Segment none (seqs j) none) :
    Represents mem' (update seqs i xs) where
  lists_eq j := by
    rw [hlists]
    by_cases hj : j = i
    · rw [hj, update_self, update_self]
    · rw [update_of_ne hj, update_of_ne hj, h.lists_eq]
  segment j := by
    by_cases hj : j = i
    · rw [hj, update_self]
      exact hsegment
    · rw [update_of_ne hj]
      exact hothers j hj
  nodup j := by
    by_cases hj : j = i
    · rw [hj, update_self]
      exact hnodup
    · rw [update_of_ne hj]
      exact h.nodup j
  disjoint j k x hx hy := by
    by_cases hj : j = i <;> by_cases hk : k = i
    · rw [hj, hk]
    · rw [hj, update_self] at hx
      rw [update_of_ne hk] at hy
      exact absurd hy (hdisjoint k hk x hx)
    · rw [hk, update_self] at hy
      rw [update_of_ne hj] at hx
      exact absurd hx (hdisjoint j hj x hy)
    · rw [update_of_ne hj] at hx
      rw [update_of_ne hk] at hy
      exact h.disjoint j k x hx hy

theorem Represents.attach (h : Represents mem seqs) (hapart : Apart mem seqs nodes)
    (hsplit : seqs i = front ++ back) (hne : nodes ≠ []) :
    Represents (attach i front nodes back mem)
      (Function.update seqs i (front ++ nodes ++ back)) := by
  obtain ⟨p, n, hnodes⟩ := hapart.segment
  have hmem : ∀ x ∈ nodes, x ∉ front ∧ x ∉ back := by
    intro x hx
    have hnot := hapart.notMem x hx i
    rw [hsplit, mem_append, not_or] at hnot
    exact hnot
  have hseq := h.segment i
  have hnodup := h.nodup i
  rw [hsplit] at hseq hnodup
  obtain ⟨hfront, hback⟩ := (segment_append front back).mp hseq
  obtain ⟨hnodupFront, hnodupBack, hfrontBack⟩ := nodup_append.mp hnodup
  have hnodupLeft : (front ++ nodes).Nodup :=
    nodup_append.mpr ⟨hnodupFront, hapart.nodup, fun x hx y hy heq =>
      (hmem y hy).1 (heq ▸ hx)⟩
  have hnodupAll : (front ++ nodes ++ back).Nodup := by
    refine nodup_append.mpr ⟨hnodupLeft, hnodupBack, fun x hx y hy heq => ?_⟩
    rcases mem_append.mp hx with hx | hx
    · exact hfrontBack x hx y hy heq
    · exact (hmem x hx).2 (heq ▸ hy)
  -- a node outside the two parts and the new nodes keeps its links
  have hlinks : ∀ {p n : Option α} {xs : List α}, (∀ x ∈ xs, x ∉ front ∧ x ∉ nodes ∧ x ∉ back) →
      mem.links.Segment p xs n → (LinkedList.attach i front nodes back mem).links.Segment p xs
        n := by
    intro p n xs hxs hsegment
    refine Segment.link_of_notMem ?_ ?_ (Segment.link_of_notMem ?_ ?_ hsegment)
    · exact fun x hx => getLast?_ne_of_notMem (hxs x hx).2.1
    · exact fun x hx => head?_ne_of_notMem (hxs x hx).2.2
    · exact fun x hx => getLast?_ne_of_notMem (hxs x hx).1
    · exact fun x hx => head?_ne_of_notMem (hxs x hx).2.1
  refine h.update rfl hnodupAll ?_ ?_ ?_
  · intro j hj x hx hxj
    rcases mem_append.mp hx with hx | hx
    · rcases mem_append.mp hx with hx | hx
      · exact hj (h.disjoint j i x hxj (hsplit ▸ mem_append_left _ hx))
      · exact hapart.notMem x hx j hxj
    · exact hj (h.disjoint j i x hxj (hsplit ▸ mem_append_right _ hx))
  · have hleft : (mem.links.link front.getLast? nodes.head?).Segment none (front ++ nodes) n :=
      Segment.join hnodupLeft hfront hnodes (fun _ => rfl) fun hnil => absurd hnil hne
    have hright : (mem.links.link front.getLast? nodes.head?).Segment
        (front.getLast?.or none) back none := by
      refine hback.link_of_notMem ?_ ?_
      · exact fun x hx => getLast?_ne_of_notMem fun hmem => hfrontBack x hmem x hx rfl
      · exact fun x hx => head?_ne_of_notMem fun hmemx => (hmem x hmemx).2 hx
    have hjoin := Segment.join hnodupAll hleft hright (fun _ => rfl) fun _ => rfl
    rwa [getLast?_append_of_ne_nil _ hne] at hjoin
  · intro j hj
    refine hlinks (fun x hx => ⟨?_, ?_, ?_⟩) (h.segment j)
    · exact fun hmem => hj (h.disjoint j i x hx (hsplit ▸ mem_append_left _ hmem))
    · exact fun hmem => hapart.notMem x hmem j hx
    · exact fun hmem => hj (h.disjoint j i x hx (hsplit ▸ mem_append_right _ hmem))

theorem Represents.detach (h : Represents mem seqs) (hsplit : seqs i = front ++ nodes ++ back) :
    Represents (detach i front back mem) (Function.update seqs i (front ++ back)) ∧
      Apart (detach i front back mem) (Function.update seqs i (front ++ back)) nodes := by
  have hseq := h.segment i
  have hnodup := h.nodup i
  rw [hsplit] at hseq hnodup
  obtain ⟨hleft, hback⟩ := (segment_append (front ++ nodes) back).mp hseq
  obtain ⟨hfront, hnodes⟩ := (segment_append front nodes).mp hleft
  obtain ⟨hnodupLeft, hnodupBack, hleftBack⟩ := nodup_append.mp hnodup
  obtain ⟨hnodupFront, hnodupNodes, hfrontNodes⟩ := nodup_append.mp hnodupLeft
  have hfrontBack : ∀ x ∈ front, ∀ y ∈ back, x ≠ y :=
    fun x hx => hleftBack x (mem_append_left _ hx)
  have hnodesBack : ∀ x ∈ nodes, ∀ y ∈ back, x ≠ y :=
    fun x hx => hleftBack x (mem_append_right _ hx)
  have hsub : ∀ x ∈ front ++ back, x ∈ seqs i := by
    intro x hx
    rw [hsplit]
    rcases mem_append.mp hx with hx | hx
    · exact mem_append_left _ (mem_append_left _ hx)
    · exact mem_append_right _ hx
  have hnodesSub : ∀ x ∈ nodes, x ∈ seqs i := by
    intro x hx
    rw [hsplit]
    exact mem_append_left _ (mem_append_right _ hx)
  have hlinks : ∀ {p n : Option α} {xs : List α}, (∀ x ∈ xs, x ∉ front ++ back) →
      mem.links.Segment p xs n → (LinkedList.detach i front back mem).links.Segment p xs n := by
    intro p n xs hxs hsegment
    refine hsegment.link_of_notMem ?_ ?_
    · exact fun x hx => getLast?_ne_of_notMem fun hmem => hxs x hx (mem_append_left _ hmem)
    · exact fun x hx => head?_ne_of_notMem fun hmem => hxs x hx (mem_append_right _ hmem)
  have hnodupAll : (front ++ back).Nodup :=
    nodup_append.mpr ⟨hnodupFront, hnodupBack, hfrontBack⟩
  have hout : ∀ x ∈ nodes, x ∉ front ++ back := by
    intro x hx hmem
    rcases mem_append.mp hmem with hmem | hmem
    · exact hfrontNodes x hmem x hx rfl
    · exact hnodesBack x hx x hmem rfl
  refine ⟨h.update rfl hnodupAll ?_ ?_ ?_, hnodupNodes, ?_, _, _, hlinks hout hnodes⟩
  · exact fun j hj x hx hxj => hj (h.disjoint j i x hxj (hsub x hx))
  · exact Segment.join hnodupAll hfront hback (fun _ => rfl) fun _ => rfl
  · exact fun j hj => hlinks (fun x hx hmem => hj (h.disjoint j i x hx (hsub x hmem))) (h.segment j)
  · intro x hx j
    by_cases hj : j = i
    · rw [hj, update_self]
      exact hout x hx
    · rw [update_of_ne hj]
      exact fun hxj => hj (h.disjoint j i x hxj (hnodesSub x hx))

end Attach

end EzPacker.LinkedList
