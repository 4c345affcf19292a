import EzPacker.LinkedList.Sequences

/-!
# The operations on their sequences

Each operation is `attach`, `detach` or both, in the memory that it is called in.
-/

namespace EzPacker.LinkedList

open IntrusiveLinkedList Memory List Function Option Links

variable {ι α : Type} [DecidableEq ι] [DecidableEq α]

namespace Memory

omit [DecidableEq ι] [DecidableEq α] in
theorem ext {mem mem' : Memory ι α} (hprev : mem.links.prev = mem'.links.prev)
    (hnext : mem.links.next = mem'.links.next) (hlists : mem.lists = mem'.lists) : mem = mem' := by
  obtain ⟨⟨prev, next⟩, lists⟩ := mem
  cases hprev
  cases hnext
  cases hlists
  rfl

end Memory

section Equations

variable {mem : Memory ι α} {seqs : ι → List α} {i : ι} {node : α}

theorem push_back_eq (h : Represents mem seqs) (hnew : New (some node) seqs) :
    push_back i (some node) mem = attach i (seqs i) [node] [] mem := by
  have hlist := h.lists_eq i
  have hnode : node ∉ seqs i := hnew node rfl i
  rcases eq_nil_or_concat (seqs i) with hnil | ⟨front, tail, hconcat⟩
  · rw [hnil] at hlist
    apply Memory.ext <;> simp [push_back, hlist, hnil, ofList]
  · rw [concat_eq_append] at hconcat
    rw [hconcat] at hlist hnode
    have hne : node ≠ tail := fun heq => hnode (heq ▸ mem_append_right _ mem_cons_self)
    apply Memory.ext
    · simp [push_back, hlist, hconcat]
    · simp [push_back, hlist, hconcat, update_comm hne]
    · simp [push_back, hlist, hconcat, ofList]

theorem push_front_eq (h : Represents mem seqs) (hnew : New (some node) seqs) :
    push_front i (some node) mem = attach i [] [node] (seqs i) mem := by
  have hlist := h.lists_eq i
  have hnode : node ∉ seqs i := hnew node rfl i
  cases hseq : seqs i with
  | nil =>
    rw [hseq] at hlist
    apply Memory.ext <;> simp [push_front, hlist, ofList]
  | cons head back =>
    rw [hseq] at hlist hnode
    apply Memory.ext <;> simp [push_front, hlist, ofList]

variable {front back : List α}

theorem insert_eq (h : Represents mem seqs) (hnew : New (some node) seqs)
    (hsplit : seqs i = front ++ back) :
    insert i back.head? (some node) mem = (attach i front [node] back mem, some node) := by
  have hlist := h.lists_eq i
  have hnode : node ∉ seqs i := hnew node rfl i
  cases back with
  | nil =>
    rw [append_nil] at hsplit
    rw [← hsplit, ← push_back_eq h hnew]
    rfl
  | cons curr back =>
    have hseq := h.segment i
    have hnodup := h.nodup i
    rw [hsplit] at hlist hnode hseq hnodup
    rcases eq_nil_or_concat front with rfl | ⟨front, prev, rfl⟩
    · rw [nil_append] at hsplit
      have hfront : push_front i (some node) mem = attach i [] [node] (curr :: back) mem := by
        rw [push_front_eq h hnew, hsplit]
      simp [insert, hlist, hfront]
    · rw [concat_eq_append] at *
      obtain ⟨hprev, -⟩ := hseq.prev_next
      have hcurr : some curr ≠ (front ++ [prev] ++ curr :: back).head? :=
        fun hhead => head?_ne_of_notMem (fun hmem => (nodup_append.mp hnodup).2.2 curr hmem
          curr mem_cons_self rfl) (by simpa using hhead.symm)
      have hne : node ≠ prev := fun heq => hnode (by simp [heq])
      rw [getLast?_concat, some_or] at hprev
      unfold insert
      rw [head?_cons, hlist, ofList_head]
      dsimp only
      rw [if_neg hcurr, hprev]
      refine Prod.ext (ext ?_ ?_ ?_) rfl
      · simp
      · simp [update_comm hne]
      · simp [hlist, ofList, Nat.add_assoc]

omit [DecidableEq α] in
/-- Only the ends of the list change. -/
theorem ofList_unlink (front nodes back : List α) :
    (⟨if front.getLast? = none then back.head? else (front ++ nodes ++ back).head?,
      if back.head? = none then front.getLast? else (front ++ nodes ++ back).getLast?,
      (front ++ nodes ++ back).length - nodes.length⟩ : IntrusiveLinkedList α) =
      .ofList (front ++ back) := by
  have hhead : (if front.getLast? = none then back.head? else (front ++ nodes ++ back).head?) =
      (front ++ back).head? := by
    cases front <;> simp
  have htail : (if back.head? = none then front.getLast?
      else (front ++ nodes ++ back).getLast?) = (front ++ back).getLast? := by
    rcases eq_nil_or_concat back with rfl | ⟨back, last, rfl⟩ <;> simp
  have hsize : (front ++ nodes ++ back).length - nodes.length = (front ++ back).length := by
    simp only [length_append]
    omega
  rw [hhead, htail, hsize]
  rfl

theorem unlink_lists (prev next : Option α) : (unlink i prev next mem).lists = update mem.lists i
      ⟨if prev = none then next else (mem.lists i).head,
        if next = none then prev else (mem.lists i).tail, (mem.lists i).size⟩ := by
  cases prev <;> cases next <;> simp [unlink]

theorem unlink_links (prev next : Option α) :
    (unlink i prev next mem).links = mem.links.link prev next := by
  cases prev <;> cases next <;> rfl

/-- Without the range and with its count subtracted, the list is that of the two parts. -/
theorem unlink_eq {nodes : List α} (h : Represents mem seqs)
    (hsplit : seqs i = front ++ nodes ++ back) :
    (unlink i front.getLast? back.head? mem).setSize i
        (((unlink i front.getLast? back.head? mem).lists i).size - nodes.length) =
      detach i front back mem := by
  have hlist := h.lists_eq i
  rw [hsplit] at hlist
  refine ext ?_ ?_ ?_
  · rw [setSize_links, unlink_links]
    rfl
  · rw [setSize_links, unlink_links]
    rfl
  · rw [setSize_lists, unlink_lists, update_self, update_idem, hlist,
      detach_lists, ← ofList_unlink front nodes back]
    rfl

theorem erase_eq {curr : α} (h : Represents mem seqs) (hsplit : seqs i = front ++ [curr] ++ back) :
    erase i (some curr) mem =
      (((detach i front back mem).setPrev curr none).setNext curr none, back.head?) := by
  have hseq := h.segment i
  rw [hsplit, append_assoc] at hseq
  obtain ⟨hprev, hnext⟩ := hseq.prev_next
  rw [or_none] at hprev hnext
  rw [← unlink_eq h hsplit]
  simp only [erase, hprev, hnext]
  rfl

omit [DecidableEq ι] [DecidableEq α] in
/-- A position in the list has a node in front of it or is the first one. -/
theorem head?_of_append {curr : α} (hnodup : (front ++ curr :: back).Nodup)
    (hfront : front ≠ []) : some curr ≠ (front ++ curr :: back).head? := by
  cases front with
  | nil => exact absurd rfl hfront
  | cons x front =>
    rw [cons_append, head?_cons]
    rintro heq
    obtain rfl := some.inj heq
    exact (nodup_cons.mp hnodup).1 (mem_append_right _ mem_cons_self)

omit [DecidableEq ι] [DecidableEq α] in
/-- Nodes that enter at an end are the new end. -/
theorem ofList_attach {nodes : List α} (hne : nodes ≠ []) :
    IntrusiveLinkedList.ofList (front ++ nodes ++ back) =
      ⟨if front = [] then nodes.head? else (front ++ back).head?,
        if back = [] then nodes.getLast? else (front ++ back).getLast?,
        (front ++ back).length + nodes.length⟩ := by
  have hhead : (front ++ nodes ++ back).head? =
      if front = [] then nodes.head? else (front ++ back).head? := by
    cases front with
    | nil => rw [nil_append, head?_append_of_ne_nil _ hne, if_pos rfl]
    | cons x front => simp
  have htail : (front ++ nodes ++ back).getLast? =
      if back = [] then nodes.getLast? else (front ++ back).getLast? := by
    rcases eq_nil_or_concat back with rfl | ⟨back, last, rfl⟩
    · rw [append_nil, getLast?_append_of_ne_nil _ hne, if_pos rfl]
    · simp
  have hsize : (front ++ nodes ++ back).length = (front ++ back).length + nodes.length := by
    simp only [length_append]
    omega
  rw [ofList, hhead, htail, hsize]

section Range

variable {front nodes back : List α} {first last : α}

/-- The whole list, after it left the other one. -/
theorem spliceList_eq {other : ι} (h : Represents mem seqs) (hne : i ≠ other)
    (hnonempty : seqs other ≠ []) (hsplit : seqs i = front ++ back) :
    spliceList i back.head? other mem =
      some (attach i front (seqs other) back (detach other [] [] mem)) := by
  have hlist := h.lists_eq i
  have hother := h.lists_eq other
  have hnodup := h.nodup i
  have hseq := h.segment i
  rw [hsplit] at hlist hnodup hseq
  obtain ⟨first, hfirst⟩ := ne_none_iff_exists'.mp (mt head?_eq_none_iff.mp hnonempty)
  obtain ⟨last, hlast⟩ := ne_none_iff_exists'.mp (mt getLast?_eq_none_iff.mp hnonempty)
  have hempty : ¬((mem.lists other).empty = true ∨ i = other) := by
    rw [hother, ofList_empty, List.isEmpty_iff]
    exact not_or.mpr ⟨hnonempty, hne⟩
  unfold spliceList
  rw [if_neg hempty, hother, ofList_head, ofList_tail,
    ofList_size, hfirst, hlast]
  have hdetach : mem.setList other .nil = detach other [] [] mem := rfl
  have hlist₁ : (detach other [] [] mem).lists i = .ofList (front ++ back) := by
    rw [detach_lists, update_of_ne hne, hlist]
  have hseq₁ : (detach other [] [] mem).links.Segment none (front ++ back) none := hseq
  simp only [bind_eq_bind, bind_some, hdetach]
  generalize detach other [] [] mem = mem₁ at hlist₁ hseq₁ ⊢
  cases back with
  | nil =>
    rcases eq_nil_or_concat front with rfl | ⟨front, tail, rfl⟩
    · rw [if_pos (by rw [hlist₁]; rfl)]
      refine congrArg some (ext ?_ ?_ ?_)
      · simp [hfirst]
      · simp [hfirst, hlast]
      · rw [attach_lists, ofList_attach hnonempty]
        simp [hfirst, hlast]
    · rw [concat_eq_append] at *
      have htail : (mem₁.lists i).tail = some tail := by simp [hlist₁]
      rw [if_neg (by simp [hlist₁])]
      simp only [head?_nil, htail, bind_some]
      refine congrArg some (ext ?_ ?_ ?_)
      · simp [hfirst]
      · simp [hfirst, hlast]
      · rw [attach_lists, ofList_attach hnonempty]
        simp [hlist₁, hlast]
  | cons curr back =>
    rw [if_neg (by simp [hlist₁])]
    rcases eq_nil_or_concat front with rfl | ⟨front, prev, rfl⟩
    · have hcurr : some curr = (mem₁.lists i).head := by simp [hlist₁]
      have hne' : first ≠ curr := by
        rintro rfl
        exact hne (h.disjoint i other first (hsplit ▸ mem_cons_self) (mem_of_head? hfirst))
      simp only [head?_cons]
      rw [if_pos hcurr]
      refine congrArg some (ext ?_ ?_ ?_)
      · simp [hfirst, hlast, update_comm hne']
      · simp [hlast]
      · rw [attach_lists, ofList_attach hnonempty]
        simp [hlist₁, hfirst]
    · rw [concat_eq_append] at *
      have hcurr : some curr ≠ (mem₁.lists i).head := by
        rw [hlist₁]
        exact head?_of_append hnodup (by simp)
      have hprev : mem₁.links.prev curr = some prev := by
        rw [hseq₁.prev_next.1, getLast?_concat, some_or]
      simp only [head?_cons]
      rw [if_neg hcurr, hprev]
      refine congrArg some (ext ?_ ?_ ?_)
      · simp [hfirst, hlast]
      · simp [hfirst, hlast]
      · rw [attach_lists, ofList_attach hnonempty]
        simp [hlist₁]

/-- A range whose outer links are reset. -/
theorem linkRange_eq (h : Represents mem seqs) (hapart : Apart mem seqs nodes)
    (hfirst : nodes.head? = some first) (hlast : nodes.getLast? = some last)
    (hprev : mem.links.prev first = none) (hnext : mem.links.next last = none)
    (hsplit : seqs i = front ++ back) :
    linkRange i back.head? first last nodes.length mem = some (attach i front nodes back mem) := by
  have hnonempty : nodes ≠ [] := by
    rintro rfl
    cases hfirst
  have hlist := h.lists_eq i
  have hnodup := h.nodup i
  have hseq := h.segment i
  have hout : ∀ x ∈ nodes, x ∉ front ++ back := fun x hx => hsplit ▸ hapart.notMem x hx i
  rw [hsplit] at hlist hnodup hseq
  have hprev' : update mem.links.prev first none = mem.links.prev :=
    update_eq_self_iff.mpr hprev.symm
  have hnext' : update mem.links.next last none = mem.links.next :=
    update_eq_self_iff.mpr hnext.symm
  unfold linkRange
  cases back with
  | nil =>
    rcases eq_nil_or_concat front with rfl | ⟨front, tail, rfl⟩
    · rw [if_pos (by rw [hlist]; rfl)]
      refine congrArg some (ext ?_ ?_ ?_)
      · simp [hfirst, hprev']
      · simp [hlast, hnext']
      · rw [attach_lists, ofList_attach hnonempty]
        simp [hfirst, hlast]
    · rw [concat_eq_append] at *
      have htail : (mem.lists i).tail = some tail := by simp [hlist]
      have hne : tail ≠ last := by
        rintro rfl
        exact hout tail (mem_of_getLast? hlast) (by simp)
      rw [if_neg (by simp [hlist])]
      simp only [head?_nil, htail, bind_eq_bind, bind_some]
      refine congrArg some (ext ?_ ?_ ?_)
      · simp [hfirst]
      · simp [hfirst, hlast, update_comm hne, hnext']
      · rw [attach_lists, ofList_attach hnonempty]
        simp [hlist, hlast]
  | cons curr back =>
    rw [if_neg (by simp [hlist])]
    rcases eq_nil_or_concat front with rfl | ⟨front, prev, rfl⟩
    · have hcurr : some curr = (mem.lists i).head := by simp [hlist]
      simp only [head?_cons]
      rw [if_pos hcurr]
      refine congrArg some (ext ?_ ?_ ?_)
      · simp [hfirst, hlast, hprev']
      · simp [hlast]
      · rw [attach_lists, ofList_attach hnonempty]
        simp [hlist, hfirst]
    · rw [concat_eq_append] at *
      have hcurr : some curr ≠ (mem.lists i).head := by
        rw [hlist]
        exact head?_of_append hnodup (by simp)
      have hprevCurr : mem.links.prev curr = some prev := by
        rw [hseq.prev_next.1, getLast?_concat, some_or]
      simp only [head?_cons]
      rw [if_neg hcurr, hprevCurr]
      refine congrArg some (ext ?_ ?_ ?_)
      · simp [hfirst, hlast]
      · simp [hfirst, hlast]
      · rw [attach_lists, ofList_attach hnonempty]
        simp [hlist]

/-- The iterators of a range in the middle of a list and its outer links. -/
theorem spliceCount_eq {other : ι} {pos : Option α} (h : Represents mem seqs)
    (hsplit : seqs other = front ++ nodes ++ back) (hfirst : nodes.head? = some first)
    (hlast : nodes.getLast? = some last) (hproper : front ≠ [] ∨ back ≠ []) :
    spliceCount i pos other (some first) back.head? nodes.length mem =
      linkRange i pos first last nodes.length
        (((detach other front back mem).setPrev first none).setNext last none) := by
  have hother := h.lists_eq other
  have hnodup := h.nodup other
  have hseq := h.segment other
  rw [hsplit] at hother hnodup hseq
  have hnonempty : nodes ≠ [] := by
    rintro rfl
    cases hfirst
  have hempty : ¬(nodes.length = 0 ∨ (mem.lists other).empty = true) := by
    simp [hother, hnonempty]
  have hwhole : ¬(some first = (mem.lists other).head ∧ back.head? = none ∧
      nodes.length = (mem.lists other).size) := by
    rintro ⟨-, -, hsize⟩
    rw [hother, ofList_size, length_append, length_append] at hsize
    have hfront : front = [] := eq_nil_of_length_eq_zero (by omega)
    have hback : back = [] := eq_nil_of_length_eq_zero (by omega)
    exact hproper.elim (fun hne => hne hfront) fun hne => hne hback
  have hend : rangeEnd other back.head? mem = some last := by
    unfold rangeEnd
    cases back with
    | nil =>
      show (mem.lists other).tail = some last
      rw [hother, append_nil, ofList_tail,
        getLast?_append_of_ne_nil _ hnonempty, hlast]
    | cons next back =>
      show mem.links.prev next = some last
      rw [hseq.prev_next.1, getLast?_append_of_ne_nil _ hnonempty, hlast, some_or]
  have hprev : mem.links.prev first = front.getLast? := by
    obtain ⟨rest, rfl⟩ := head?_eq_some_iff.mp hfirst
    rw [append_assoc] at hseq
    rw [hseq.prev_next.1, or_none]
  have hnext : mem.links.next last = back.head? := by
    obtain ⟨rest, rfl⟩ := getLast?_eq_some_iff.mp hlast
    rw [← append_assoc, append_assoc (front ++ rest)] at hseq
    exact (hseq.prev_next.2).trans (or_none)
  unfold spliceCount
  dsimp only
  rw [if_neg hempty, if_neg hwhole, hend]
  dsimp only
  rw [hprev, hnext, unlink_eq h hsplit]

end Range

end Equations

end EzPacker.LinkedList
