import EzPacker.LinkedList.Operations

/-!
# The operations on single nodes

Each operation leads from lists that represent sequences to lists that represent the sequences
behind it.
-/

namespace EzPacker.LinkedList

open LinkedList List Function Links

variable {ι α : Type} [DecidableEq ι] [DecidableEq α] {mem : Memory ι α} {seqs : ι → List α} {i : ι}

/-! ## Single nodes -/

section Single

variable {node pos : Option α}

theorem Represents.push_back (h : Represents mem seqs) (hnew : New node seqs) :
    Represents (push_back i node mem) (apply (.push_back i node) seqs).1 := by
  cases node with
  | none =>
    show Represents mem (Function.update seqs i (seqs i ++ []))
    rw [append_nil, update_eq_self]
    exact h
  | some node =>
    rw [push_back_eq h hnew]
    have hattach := h.attach (hnew.apart) (append_nil (seqs i)).symm (cons_ne_nil node [])
    rwa [append_nil] at hattach

theorem Represents.push_front (h : Represents mem seqs) (hnew : New node seqs) :
    Represents (push_front i node mem) (apply (.push_front i node) seqs).1 := by
  cases node with
  | none =>
    show Represents mem (Function.update seqs i ([] ++ seqs i))
    rw [nil_append, update_eq_self]
    exact h
  | some node =>
    rw [push_front_eq h hnew]
    exact h.attach hnew.apart (nil_append (seqs i)).symm (cons_ne_nil node [])

theorem insertBefore_nil (xs : List α) : insertBefore pos [] xs = xs := by
  rw [insertBefore, append_nil, takeWhile_append_dropWhile]

theorem Represents.insert (h : Represents mem seqs) (hpos : IteratorOf pos (seqs i))
    (hnew : New node seqs) :
    Represents (insert i pos node mem).1 (apply (.insert i pos node) seqs).1 ∧
      (insert i pos node mem).2 = (apply (.insert i pos node) seqs).2 := by
  cases node with
  | none =>
    refine ⟨?_, rfl⟩
    show Represents mem (Function.update seqs i (insertBefore pos [] (seqs i)))
    rw [insertBefore_nil, update_eq_self]
    exact h
  | some node =>
    obtain ⟨front, back, hsplit, rfl⟩ := exists_split hpos
    rw [insert_eq h hnew hsplit]
    refine ⟨?_, rfl⟩
    show Represents _ (Function.update seqs i (insertBefore back.head? [node] (seqs i)))
    rw [hsplit, insertBefore_append (hsplit ▸ h.nodup i)]
    exact h.attach hnew.apart hsplit (cons_ne_nil node [])

theorem behind_append {front back : List α} {curr : α} (hnodup : (front ++ [curr] ++ back).Nodup) :
    behind (some curr) (front ++ [curr] ++ back) = back.head? := by
  rw [append_assoc] at hnodup ⊢
  have hdrop : (front ++ curr :: back).dropWhile (fun x => some x ≠ (curr :: back).head?) =
      curr :: back := dropWhile_append_head? (head?_ne_of_nodup hnodup)
  exact congrArg (fun xs => xs.tail.head?) hdrop

theorem behind_none (xs : List α) : behind none xs = none := by
  have hdrop : (xs ++ []).dropWhile (fun x => some x ≠ ([] : List α).head?) = [] :=
    dropWhile_append_head? fun _ _ => nofun
  rw [append_nil] at hdrop
  exact congrArg (fun xs => xs.tail.head?) hdrop

theorem removeAll_nil (xs : List α) : removeAll [] xs = xs :=
  filter_eq_self.mpr fun _ _ => decide_eq_true not_mem_nil

section

variable (h : Represents mem seqs)
include h

theorem Represents.erase (hpos : IteratorOf pos (seqs i)) :
    Represents (erase i pos mem).1 (apply (.erase i pos) seqs).1 ∧
      (erase i pos mem).2 = (apply (.erase i pos) seqs).2 := by
  cases pos with
  | none =>
    refine ⟨?_, (behind_none (seqs i)).symm⟩
    show Represents mem (Function.update seqs i (removeAll [] (seqs i)))
    rw [removeAll_nil, update_eq_self]
    exact h
  | some curr =>
    obtain ⟨front, back, hsplit⟩ := append_of_mem (hpos curr rfl)
    rw [append_cons] at hsplit
    have hdetach := h.detach hsplit
    have hnot := hdetach.2.notMem curr mem_cons_self
    rw [erase_eq h hsplit]
    have hnodup := h.nodup i
    rw [hsplit] at hnodup
    have hremove : (apply (.erase i (some curr)) seqs).1 =
        Function.update seqs i (front ++ back) := by
      show Function.update seqs i (removeAll [curr] (seqs i)) = _
      rw [hsplit, removeAll_range hnodup]
    rw [hremove]
    refine ⟨(hdetach.1.setPrev hnot).setNext hnot, ?_⟩
    show back.head? = behind (some curr) (seqs i)
    rw [hsplit, behind_append hnodup]

theorem Represents.remove (hnode : IteratorOf node (seqs i)) :
    Represents (remove i node mem) (apply (.remove i node) seqs).1 := by
  have herase := (h.erase hnode).1
  cases node with
  | none | some node => exact herase

theorem Represents.pop_front : Represents (pop_front i mem).1 (apply (.pop_front i) seqs).1 ∧
      (pop_front i mem).2 = (apply (.pop_front i) seqs).2 := by
  have hlist := h.lists_eq i
  unfold LinkedList.pop_front
  show Represents _ (Function.update seqs i (seqs i).tail) ∧ _ = (seqs i).head?
  cases hseq : seqs i with
  | nil =>
    rw [hseq] at hlist
    rw [if_pos (by rw [hlist]; rfl)]
    refine ⟨?_, rfl⟩
    rw [tail_nil, ← hseq, update_eq_self]
    exact h
  | cons head back =>
    rw [hseq] at hlist
    have hsplit : seqs i = [] ++ [head] ++ back := hseq
    have hdetach := h.detach hsplit
    have hnot := hdetach.2.notMem head mem_cons_self
    rw [if_neg (by simp [hlist]), hlist, IntrusiveLinkedList.ofList_head, head?_cons,
      erase_eq h hsplit]
    exact ⟨(hdetach.1.setPrev hnot).setNext hnot, rfl⟩

theorem Represents.pop_back : Represents (pop_back i mem).1 (apply (.pop_back i) seqs).1 ∧
      (pop_back i mem).2 = (apply (.pop_back i) seqs).2 := by
  have hlist := h.lists_eq i
  unfold LinkedList.pop_back
  show Represents _ (Function.update seqs i (seqs i).dropLast) ∧ _ = (seqs i).getLast?
  rcases eq_nil_or_concat (seqs i) with hseq | ⟨front, tail, hseq⟩
  · rw [hseq] at hlist ⊢
    rw [if_pos (by rw [hlist]; rfl)]
    refine ⟨?_, rfl⟩
    rw [dropLast_nil, ← hseq, update_eq_self]
    exact h
  · rw [concat_eq_append] at hseq
    rw [hseq] at hlist ⊢
    have hsplit : seqs i = front ++ [tail] ++ [] := by rw [hseq, append_nil]
    have hdetach := h.detach hsplit
    have hnot := hdetach.2.notMem tail mem_cons_self
    rw [if_neg (by simp [hlist]), hlist, IntrusiveLinkedList.ofList_tail, getLast?_concat,
      erase_eq h hsplit, dropLast_concat]
    have herased := (hdetach.1.setPrev (p := none) hnot).setNext (n := none) hnot
    rw [append_nil] at herased
    exact ⟨herased, rfl⟩

end

end Single

/-! ## Clearing a list -/

theorem clearNodes_spec {p : Option α} (xs : List α) (L : Links α) (hnodup : xs.Nodup)
    (h : L.Segment p xs none) (fuel : ℕ) (hfuel : xs.length < fuel) :
    ∃ L', clearNodes fuel xs.head? L = some L' ∧
      (∀ x, x ∉ xs → L'.prev x = L.prev x) ∧ ∀ x, x ∉ xs → L'.next x = L.next x := by
  induction xs generalizing p L fuel with
  | nil =>
    obtain ⟨fuel, rfl⟩ := Nat.exists_eq_succ_of_ne_zero (Nat.ne_zero_of_lt hfuel)
    exact ⟨L, rfl, fun _ _ => rfl, fun _ _ => rfl⟩
  | cons x xs ih =>
    obtain ⟨fuel, rfl⟩ := Nat.exists_eq_succ_of_ne_zero (Nat.ne_zero_of_lt hfuel)
    obtain ⟨-, hnext, hrest⟩ := h
    obtain ⟨hx, hnodup⟩ := nodup_cons.mp hnodup
    have hreset := (hrest.setPrev_of_notMem (q := none) hx).setNext_of_notMem (q := none) hx
    obtain ⟨L', hclear, hprev', hnext'⟩ := ih _ hnodup hreset fuel (by simpa using hfuel)
    refine ⟨L', ?_, fun y hy => ?_, fun y hy => ?_⟩
    · rw [Option.or_none] at hnext
      show clearNodes fuel (L.next x) _ = some L'
      rw [hnext]
      exact hclear
    · rw [mem_cons, not_or] at hy
      rw [hprev' y hy.2, setNext_prev, setPrev_prev, update_of_ne hy.1]
    · rw [mem_cons, not_or] at hy
      rw [hnext' y hy.2, setNext_next, update_of_ne hy.1, setPrev_next]

/-- More steps than the walk takes change nothing. -/
theorem clearNodes_mono {L L' : Links α} {curr : Option α} {fuel : ℕ}
    (h : clearNodes fuel curr L = some L') (fuel' : ℕ) (hle : fuel ≤ fuel') :
    clearNodes fuel' curr L = some L' := by
  induction fuel generalizing fuel' curr L with
  | zero => cases h
  | succ fuel ih =>
    obtain ⟨fuel', rfl⟩ := Nat.exists_eq_succ_of_ne_zero (Nat.ne_zero_of_lt hle)
    cases curr with
    | none => exact h
    | some curr => exact ih h fuel' (Nat.le_of_succ_le_succ hle)

theorem Represents.clear (h : Represents mem seqs) :
    ∃ fuel₀ mem', (∀ fuel ≥ fuel₀, clear fuel i mem = some mem') ∧
      Represents mem' (apply (.clear i) seqs).1 := by
  obtain ⟨L', hclear, hprev, hnext⟩ :=
    clearNodes_spec (seqs i) mem.links (h.nodup i) (h.segment i) _ (Nat.lt_succ_self _)
  refine ⟨(seqs i).length.succ, ({ mem with links := L' } : Memory ι α).setList i .nil,
    fun fuel hfuel => ?_, ?_⟩
  · rw [LinkedList.clear, h.lists_eq i, IntrusiveLinkedList.ofList_head,
      clearNodes_mono hclear fuel hfuel]
    rfl
  · refine h.update rfl nodup_nil (fun _ _ _ hx => absurd hx not_mem_nil) trivial ?_
    intro j hj
    refine (h.segment j).congr (fun x hx => hprev x ?_) fun x hx => hnext x ?_
    · exact fun hmem => hj (h.disjoint j i x hx hmem)
    · exact fun hmem => hj (h.disjoint j i x hx hmem)

/-!
## The splices

A splice moves its range before its position. A range splice to a position in its own range leads
to lists that represent no sequences.
-/

/-! ## The range -/

/-- The walk from the first node of a range to its end. -/
theorem countRange_eq {L : Links α} {p : Option α} (nodes back : List α)
    (hnodup : (nodes ++ back).Nodup) (h : L.Segment p (nodes ++ back) none) (fuel : ℕ) :
    countRange L fuel (nodes ++ back).head? back.head? =
      if nodes.length < fuel then some nodes.length else none := by
  induction nodes generalizing p fuel with
  | nil => cases fuel <;> simp [countRange]
  | cons x nodes ih =>
    obtain ⟨-, hnext, hrest⟩ := h
    have hne : (x :: nodes ++ back).head? ≠ back.head? :=
      fun heq => head?_ne_of_nodup hnodup x mem_cons_self heq.symm
    rw [Option.or_none] at hnext
    cases fuel with
    | zero => rfl
    | succ fuel =>
      have hstep : (x :: nodes ++ back).head?.bind L.next = (nodes ++ back).head? := hnext
      rw [countRange, if_neg hne, hstep, ih (nodup_cons.mp hnodup).2 hrest]
      by_cases hlt : nodes.length < fuel
      · rw [if_pos hlt, if_pos (by simpa using hlt)]
        rfl
      · rw [if_neg hlt, if_neg (by simpa using hlt)]
        rfl

/-- The memory in which a range has left its list and its outer links are reset. -/
def unlinked (other : ι) (front back : List α) (first last : α) (mem : Memory ι α) : Memory ι α :=
  ((detach other front back mem).setPrev first none).setNext last none

theorem unlinked_prev (other : ι) (front back : List α) (first last : α) :
    (unlinked other front back first last mem).links.prev first = none := by
  simp [unlinked]

theorem unlinked_next (other : ι) (front back : List α) (first last : α) :
    (unlinked other front back first last mem).links.next last = none := by
  simp [unlinked]

section Range

variable {other : ι} {front nodes back : List α} {first last : α} {pos : Option α}

theorem Represents.unlinked (h : Represents mem seqs) (hsplit : seqs other = front ++ nodes ++ back)
    (hfirst : nodes.head? = some first) (hlast : nodes.getLast? = some last) :
    Represents (unlinked other front back first last mem)
        (Function.update seqs other (front ++ back)) ∧
      Apart (unlinked other front back first last mem)
        (Function.update seqs other (front ++ back)) nodes := by
  obtain ⟨hdetach, hapart⟩ := h.detach hsplit
  have hprev := hdetach.setPrev (p := none) (hapart.notMem first (mem_of_head? hfirst))
  exact ⟨hprev.setNext (hapart.notMem last (mem_of_getLast? hlast)),
    (hapart.setPrev hfirst).setNext hlast⟩

/-- A position outside the range splits the list without the range, and there the range enters. -/
theorem moveBefore_eq (h : Represents mem seqs) (hsplit : seqs other = front ++ nodes ++ back)
    (hpos : IteratorOf pos (seqs i)) (hout : i = other → ∀ x ∈ nodes, pos ≠ some x) :
    ∃ front' back', update seqs other (front ++ back) i = front' ++ back' ∧
      pos = back'.head? ∧ moveBefore i pos other nodes seqs =
        update (update seqs other (front ++ back)) i (front' ++ nodes ++ back') := by
  have hremove : removeAll nodes (seqs other) = front ++ back := by
    rw [hsplit, removeAll_range (hsplit ▸ h.nodup other)]
  have hpos' : IteratorOf pos (update seqs other (front ++ back) i) := by
    intro x hx
    have hmem := hpos x hx
    by_cases hi : i = other
    · subst hi
      rw [update_self]
      rw [hsplit] at hmem
      rcases mem_append.mp hmem with hmem | hmem
      · rcases mem_append.mp hmem with hmem | hmem
        · exact mem_append_left _ hmem
        · exact absurd hx (hout rfl x hmem)
      · exact mem_append_right _ hmem
    · rwa [update_of_ne hi]
  obtain ⟨front', back', hsplit', rfl⟩ := exists_split hpos'
  have hnodup : (front' ++ back').Nodup := hsplit' ▸ (h.detach hsplit).1.nodup i
  refine ⟨front', back', hsplit', rfl, ?_⟩
  unfold moveBefore
  rw [hremove]
  dsimp only
  rw [hsplit', insertBefore_append hnodup]

omit [DecidableEq ι] [DecidableEq α] in
theorem exists_ends (hne : nodes ≠ []) :
    ∃ first last, nodes.head? = some first ∧ nodes.getLast? = some last := by
  obtain ⟨first, hfirst⟩ := Option.ne_none_iff_exists'.mp (mt head?_eq_none_iff.mp hne)
  obtain ⟨last, hlast⟩ := Option.ne_none_iff_exists'.mp (mt getLast?_eq_none_iff.mp hne)
  exact ⟨first, last, hfirst, hlast⟩

theorem moveBefore_nil : moveBefore i pos other [] seqs = seqs := by
  unfold moveBefore
  rw [removeAll_nil, update_eq_self]
  dsimp only
  rw [insertBefore_nil, update_eq_self]

theorem Represents.spliceList (h : Represents mem seqs) (hpos : IteratorOf pos (seqs i)) :
    ∃ mem', spliceList i pos other mem = some mem' ∧
      Represents mem' (apply (.spliceList i pos other) seqs).1 := by
  show ∃ mem', _ ∧ Represents mem'
    (if i = other then seqs else moveBefore i pos other (seqs other) seqs)
  by_cases hi : i = other
  · rw [if_pos hi, LinkedList.spliceList, if_pos (Or.inr hi)]
    exact ⟨mem, rfl, h⟩
  · rw [if_neg hi]
    by_cases hempty : seqs other = []
    · rw [LinkedList.spliceList, if_pos (Or.inl (by rw [h.lists_eq, hempty]; rfl)), hempty,
        moveBefore_nil]
      exact ⟨mem, rfl, h⟩
    · have hsplit : seqs other = [] ++ seqs other ++ [] := by rw [nil_append, append_nil]
      obtain ⟨front, back, hsplit', rfl, hmove⟩ :=
        moveBefore_eq h hsplit hpos fun heq => absurd heq hi
      obtain ⟨hdetach, hapart⟩ := h.detach hsplit
      have hseq := hsplit'
      rw [update_of_ne hi] at hseq
      rw [spliceList_eq h hi hempty hseq, hmove]
      exact ⟨_, rfl, hdetach.attach hapart hsplit' hempty⟩

/-- A range that is not its whole list. -/
theorem Represents.spliceProper (h : Represents mem seqs)
    (hsplit : seqs other = front ++ nodes ++ back) (hne : nodes ≠ [])
    (hproper : front ≠ [] ∨ back ≠ []) (hpos : IteratorOf pos (seqs i))
    (hout : i = other → ∀ x ∈ nodes, pos ≠ some x) :
    ∃ mem', spliceCount i pos other nodes.head? back.head? nodes.length mem = some mem' ∧
      Represents mem' (moveBefore i pos other nodes seqs) := by
  obtain ⟨first, last, hfirst, hlast⟩ := exists_ends hne
  obtain ⟨front', back', hsplit', rfl, hmove⟩ := moveBefore_eq h hsplit hpos hout
  obtain ⟨hunlinked, hapart⟩ := h.unlinked hsplit hfirst hlast
  rw [hfirst, spliceCount_eq h hsplit hfirst hlast hproper,
    ← LinkedList.unlinked, linkRange_eq hunlinked hapart hfirst hlast
    (unlinked_prev other front back first last) (unlinked_next other front back first last) hsplit',
    hmove]
  exact ⟨_, rfl, hunlinked.attach hapart hsplit' hne⟩

theorem moveRange_of_outside {nodes : List α} (hout : i = other → ∀ x ∈ nodes, pos ≠ some x) :
    moveRange i pos other nodes seqs = moveBefore i pos other nodes seqs := by
  refine if_neg ?_
  rintro ⟨hi, x, hx, hpos⟩
  exact hout hi x hx hpos

theorem moveRange_self (hpos : IteratorOf pos (seqs i)) :
    moveRange i pos i (seqs i) seqs = seqs := by
  unfold moveRange
  split_ifs with hin
  · rfl
  · have hnone : pos = none := by
      refine Option.eq_none_iff_forall_ne_some.mpr fun x hx => ?_
      exact hin ⟨rfl, x, hpos x hx, hx⟩
    have hremove : removeAll (seqs i) (seqs i) = [] :=
      filter_eq_nil_iff.mpr fun x hx => by simpa using hx
    unfold moveBefore
    rw [hremove, hnone]
    simp [insertBefore]

theorem Represents.spliceWhole (h : Represents mem seqs) (hpos : IteratorOf pos (seqs i)) :
    ∃ mem', LinkedList.spliceList i pos other mem = some mem' ∧
      Represents mem' (moveRange i pos other (seqs other) seqs) := by
  have hsplice : ∃ mem', LinkedList.spliceList i pos other mem = some mem' ∧ Represents mem'
      (if i = other then seqs else moveBefore i pos other (seqs other) seqs) := h.spliceList hpos
  obtain ⟨mem', hsplice, hrepresents⟩ := hsplice
  refine ⟨mem', hsplice, ?_⟩
  by_cases hi : i = other
  · subst hi
    rw [moveRange_self hpos]
    rwa [if_pos rfl] at hrepresents
  · rw [moveRange_of_outside fun heq => absurd heq hi]
    rwa [if_neg hi] at hrepresents

theorem spliceCount_zero (firstIt lastIt : Option α) :
    spliceCount i pos other firstIt lastIt 0 mem = some mem := by
  unfold spliceCount
  cases firstIt with
  | none => rfl
  | some firstNode => exact if_pos (Or.inl rfl)

theorem spliceCount_whole (h : Represents mem seqs) (hne : seqs other ≠ []) :
    spliceCount i pos other (seqs other).head? none (seqs other).length mem =
      spliceList i pos other mem := by
  obtain ⟨first, -, hfirst, -⟩ := exists_ends hne
  have hlist := h.lists_eq other
  rw [hfirst, spliceCount]
  rw [if_neg (by simp [hlist, hne]), if_pos ⟨by simp [hlist, hfirst], rfl, by simp [hlist]⟩]

variable {firstIt lastIt : Option α}

theorem Represents.spliceCount (h : Represents mem seqs)
    (hrange : RangeOf firstIt lastIt front nodes back (seqs other)) (hpos : IteratorOf pos (seqs i))
    (houtside : i = other → nodes = seqs other ∨ ∀ x ∈ nodes, pos ≠ some x) :
    ∃ mem', spliceCount i pos other firstIt lastIt nodes.length mem = some mem' ∧
      Represents mem' (moveRange i pos other nodes seqs) := by
  obtain ⟨hsplit, rfl, rfl⟩ := hrange
  by_cases hne : nodes = []
  · subst hne
    refine ⟨mem, spliceCount_zero _ _, ?_⟩
    rw [moveRange_of_outside fun _ x hx => absurd hx not_mem_nil, moveBefore_nil]
    exact h
  · have hhead : (nodes ++ back).head? = nodes.head? := head?_append_of_ne_nil _ hne
    by_cases hwhole : front = [] ∧ back = []
    · obtain ⟨rfl, rfl⟩ := hwhole
      rw [nil_append, append_nil] at hsplit
      rw [append_nil, ← hsplit, head?_nil, spliceCount_whole h (hsplit ▸ hne)]
      exact h.spliceWhole hpos
    · have hproper : front ≠ [] ∨ back ≠ [] := by
        by_contra hnot
        rw [not_or, not_not, not_not] at hnot
        exact hwhole hnot
      have hout : i = other → ∀ x ∈ nodes, pos ≠ some x := by
        intro hi
        refine (houtside hi).resolve_left fun heq => ?_
        have hlength := congrArg length (heq.trans hsplit)
        rw [length_append, length_append] at hlength
        exact hwhole ⟨eq_nil_of_length_eq_zero (by omega), eq_nil_of_length_eq_zero (by omega)⟩
      rw [hhead, moveRange_of_outside hout]
      exact h.spliceProper hsplit hne hproper hpos hout

theorem moveRange_stays {front back : List α} {node : α} (hnodup : (seqs i).Nodup)
    (hsplit : seqs i = front ++ [node] ++ back)
    (hpos : pos = some node ∨ (pos.isSome ∧ pos = back.head?)) :
    moveRange i pos i [node] seqs = seqs := by
  unfold moveRange
  split_ifs with hin
  · rfl
  · rcases hpos with rfl | ⟨-, rfl⟩
    · exact absurd ⟨rfl, node, mem_cons_self, rfl⟩ hin
    · rw [hsplit] at hnodup
      have hsub : (front ++ back).Nodup := by
        refine hnodup.sublist ?_
        exact (sublist_append_left front [node]).append_right back
      unfold moveBefore
      dsimp only
      rw [update_self, hsplit, removeAll_range hnodup, insertBefore_append hsub,
        update_idem, ← hsplit, update_eq_self]

theorem Represents.spliceElement {it : Option α} (h : Represents mem seqs)
    (hpos : IteratorOf pos (seqs i)) (hit : IteratorOf it (seqs other)) :
    Represents (spliceElement i pos other it mem) (moveRange i pos other it.toList seqs) := by
  cases it with
  | none =>
    rw [Option.toList_none, moveRange_of_outside fun _ x hx => absurd hx not_mem_nil,
      moveBefore_nil]
    exact h
  | some node =>
    obtain ⟨front, back, hsplit⟩ := append_of_mem (hit node rfl)
    have hseq := h.segment other
    rw [hsplit] at hseq
    obtain ⟨hprev, hnext⟩ := hseq.prev_next
    rw [Option.or_none] at hprev hnext
    rw [append_cons] at hsplit
    rw [LinkedList.spliceElement, Option.toList_some, hprev, hnext]
    dsimp only
    split_ifs with hstay
    · obtain ⟨rfl, hstay⟩ := hstay
      rw [moveRange_stays (h.nodup i) hsplit hstay]
      exact h
    · have hout : i = other → ∀ x ∈ [node], pos ≠ some x := by
        rintro hi x hx hpos
        obtain rfl := mem_singleton.mp hx
        exact hstay ⟨hi, Or.inl hpos⟩
      obtain ⟨front', back', hsplit', rfl, hmove⟩ := moveBefore_eq h hsplit hpos hout
      obtain ⟨hunlinked, hapart⟩ := h.unlinked hsplit head?_cons getLast?_singleton
      have hnew : New (some node) (Function.update seqs other (front ++ back)) := by
        intro x hx
        obtain rfl := Option.some.inj hx
        exact hapart.notMem node mem_cons_self
      rw [← length_singleton (a := node), unlink_eq h hsplit, ← LinkedList.unlinked,
        insert_eq hunlinked hnew hsplit', moveRange_of_outside hout, hmove]
      exact hunlinked.attach hapart hsplit' (cons_ne_nil node [])

/-- The walk over the range takes more steps than the range has nodes. -/
theorem spliceRange_eq (h : Represents mem seqs)
    (hrange : RangeOf firstIt lastIt front nodes back (seqs other)) (fuel : ℕ) :
    spliceRange fuel i pos other firstIt lastIt mem =
      if nodes = [] ∨ (front = [] ∧ back = []) ∨ nodes.length < fuel then
        spliceCount i pos other firstIt lastIt nodes.length mem
      else none := by
  obtain ⟨hsplit, rfl, rfl⟩ := hrange
  have hnodup := h.nodup other
  have hseq := h.segment other
  rw [hsplit] at hnodup hseq
  by_cases hne : nodes = []
  · subst hne
    rw [if_pos (Or.inl rfl), spliceRange, nil_append, if_pos (Or.inl rfl)]
    exact (spliceCount_zero _ _).symm
  · obtain ⟨first, -, hfirst, -⟩ := exists_ends hne
    have hhead : (nodes ++ back).head? = some first := by
      rw [head?_append_of_ne_nil _ hne, hfirst]
    rw [append_assoc] at hnodup hseq
    have hnodupRest : (nodes ++ back).Nodup := (nodup_append.mp hnodup).2.1
    have hends : ¬((nodes ++ back).head? = back.head? ∨ (nodes ++ back).head? = none) := by
      rw [hhead, not_or]
      exact ⟨fun heq => head?_ne_of_nodup hnodupRest first (mem_of_head? hfirst) heq.symm, nofun⟩
    unfold spliceRange
    rw [if_neg hends]
    by_cases hwhole : front = [] ∧ back = []
    · rw [if_pos (Or.inr (Or.inl hwhole))]
      obtain ⟨rfl, rfl⟩ := hwhole
      rw [nil_append, append_nil] at hsplit
      rw [append_nil, ← hsplit, head?_nil, h.lists_eq other, if_pos ⟨rfl, rfl⟩,
        spliceCount_whole h (hsplit ▸ hne)]
    · have hproper : ¬((nodes ++ back).head? = (mem.lists other).head ∧ back.head? = none) := by
        rintro ⟨heq, hback⟩
        have hback := head?_eq_none_iff.mp hback
        cases front with
        | nil => exact hwhole ⟨rfl, hback⟩
        | cons x front =>
          rw [h.lists_eq, hsplit, hhead] at heq
          obtain rfl := Option.some.inj heq
          exact (nodup_cons.mp hnodup).1
            (mem_append_right _ (mem_append_left _ (mem_of_head? hfirst)))
      obtain ⟨-, hsegment⟩ := (segment_append front (nodes ++ back)).mp hseq
      rw [if_neg hproper, countRange_eq nodes back hnodupRest hsegment]
      by_cases hlt : nodes.length < fuel
      · rw [if_pos hlt, if_pos (Or.inr (Or.inr hlt))]
        rfl
      · have hnot : ¬(nodes = [] ∨ (front = [] ∧ back = []) ∨ nodes.length < fuel) := by
          simp only [hne, hwhole, hlt, or_self, not_false_eq_true]
        rw [if_neg hlt, if_neg hnot]
        rfl

/-! ## A position in the range -/

omit [DecidableEq ι] [DecidableEq α] in
/-- A list whose count is not that of its nodes. -/
theorem not_represents_of_size (xs : List α) (hhead : (mem.lists i).head = xs.head?)
    (hsize : (mem.lists i).size ≠ xs.length) (hsegment : mem.links.Segment none xs none) :
    ¬Represents mem seqs := by
  intro h
  rw [h.lists_eq i] at hhead hsize
  have heq : seqs i = xs := (h.segment i).unique hsegment hhead
  exact hsize (congrArg length heq)

theorem linkRange_inside {curr : α} {count : ℕ} {mem' : Memory ι α} (h : Represents mem seqs)
    (hapart : Apart mem seqs nodes) (hfirst : nodes.head? = some first)
    (hlast : nodes.getLast? = some last) (hprev : mem.links.prev first = none)
    (hne : seqs i ≠ []) (hcount : 0 < count) (hcurr : curr ∈ nodes)
    (hlink : linkRange i (some curr) first last count mem = some mem') (seqs' : ι → List α) :
    ¬Represents mem' seqs' := by
  have hlist := h.lists_eq i
  have hout : ∀ x ∈ nodes, x ∉ seqs i := fun x hx => hapart.notMem x hx i
  have hhead : some curr ≠ (mem.lists i).head := by
    rw [hlist]
    exact fun heq => hout curr hcurr (mem_of_head? heq.symm)
  unfold linkRange at hlink
  rw [if_neg (by simp [hlist, hne])] at hlink
  dsimp only at hlink
  rw [if_neg hhead] at hlink
  cases hprevCurr : mem.links.prev curr with
  | none =>
    rw [hprevCurr] at hlink
    cases hlink
  | some prev =>
    have hmem : prev ∈ nodes := by
      obtain ⟨front, back, rfl⟩ := append_of_mem hcurr
      obtain ⟨p, n, hsegment⟩ := hapart.segment
      rw [hsegment.prev_next.1] at hprevCurr
      rcases eq_nil_or_concat front with rfl | ⟨front, x, rfl⟩
      · obtain rfl := Option.some.inj hfirst
        rw [hsegment.1] at hprev
        rw [hprev] at hprevCurr
        cases hprevCurr
      · rw [concat_eq_append, getLast?_concat] at hprevCurr
        obtain rfl := Option.some.inj hprevCurr
        simp
    rw [hprevCurr] at hlink
    obtain rfl := Option.some.inj hlink
    refine not_represents_of_size (i := i) (seqs i) ?_ ?_ ?_
    · simp [hlist]
    · simp [hlist]
      omega
    · have hnotFirst := hout first (mem_of_head? hfirst)
      have hnotLast := hout last (mem_of_getLast? hlast)
      exact ((((h.segment i).setNext_of_notMem (hout prev hmem)).setPrev_of_notMem
        hnotFirst).setNext_of_notMem hnotLast).setPrev_of_notMem (hout curr hcurr)

theorem spliceCount_inside {curr : α} {mem' : Memory ι α}
    (h : Represents mem seqs) (hrange : RangeOf firstIt lastIt front nodes back (seqs i))
    (hwhole : nodes ≠ seqs i) (hcurr : curr ∈ nodes)
    (hsplice : spliceCount i (some curr) i firstIt lastIt nodes.length mem = some mem')
    (seqs' : ι → List α) : ¬Represents mem' seqs' := by
  obtain ⟨hsplit, rfl, rfl⟩ := hrange
  have hne : nodes ≠ [] := ne_nil_of_mem hcurr
  have hproper : front ≠ [] ∨ back ≠ [] := by
    by_contra hnot
    rw [not_or, not_not, not_not] at hnot
    rw [hnot.1, hnot.2, nil_append, append_nil] at hsplit
    exact hwhole hsplit.symm
  obtain ⟨first, last, hfirst, hlast⟩ := exists_ends hne
  obtain ⟨hunlinked, hapart⟩ := h.unlinked hsplit hfirst hlast
  have hrest : update seqs i (front ++ back) i ≠ [] := by
    rw [update_self]
    exact fun hnil => hproper.elim (fun hf => hf (append_eq_nil_iff.mp hnil).1)
      fun hb => hb (append_eq_nil_iff.mp hnil).2
  rw [head?_append_of_ne_nil _ hne, hfirst, spliceCount_eq h hsplit hfirst hlast hproper,
    ← unlinked] at hsplice
  exact linkRange_inside hunlinked hapart hfirst hlast (unlinked_prev i front back first last) hrest
    (length_pos_iff.mpr hne) hcurr hsplice seqs'

end Range

end EzPacker.LinkedList
