import EzPacker.LinkedList.Meaning

/-!
# Runs of operations

From empty lists, every run of admissible operations keeps lists that represent the sequences of
its meaning, exactly when no range splice is to a position in its own range.
-/

namespace EzPacker.LinkedList

open List Option

variable {ι α : Type} [DecidableEq ι] [DecidableEq α] {mem : Memory ι α} {seqs : ι → List α}

omit [DecidableEq ι] [DecidableEq α] in
theorem represents_nil (h : ∀ i, mem.lists i = .nil) : Represents mem fun _ => [] where
  lists_eq := h
  segment _ := trivial
  nodup _ := nodup_nil
  disjoint _ _ _ hx := absurd hx not_mem_nil

/-- With enough steps the operations end in lists that represent the sequences of their meaning,
and return the nodes that it returns. -/
def Meets (operations : List (Operation ι α)) (mem : Memory ι α) (seqs : ι → List α) : Prop :=
  ∃ fuel₀ mem', (∀ fuel ≥ fuel₀,
    executeAll fuel operations mem = some (mem', (applyAll operations seqs).2)) ∧
      Represents mem' (applyAll operations seqs).1

/-! ## One operation -/

variable {operation : Operation ι α}

theorem Represents.execute (h : Represents mem seqs)
    (hadmissible : Admissible operation seqs) (houtside : PositionOutside operation seqs) :
    ∃ fuel₀ mem',
      (∀ fuel ≥ fuel₀, execute fuel operation mem = some (mem', (apply operation seqs).2)) ∧
        Represents mem' (apply operation seqs).1 := by
  cases operation with
  | push_back i node => exact ⟨0, _, fun _ _ => rfl, h.push_back hadmissible⟩
  | push_front i node => exact ⟨0, _, fun _ _ => rfl, h.push_front hadmissible⟩
  | insert i pos node =>
    obtain ⟨hrepresents, hresult⟩ := h.insert hadmissible.1 hadmissible.2
    exact ⟨0, _, fun _ _ => congrArg some (Prod.ext rfl hresult), hrepresents⟩
  | erase i pos =>
    obtain ⟨hrepresents, hresult⟩ := h.erase hadmissible
    exact ⟨0, _, fun _ _ => congrArg some (Prod.ext rfl hresult), hrepresents⟩
  | remove i node => exact ⟨0, _, fun _ _ => rfl, h.remove hadmissible⟩
  | pop_front i =>
    obtain ⟨hrepresents, hresult⟩ := h.pop_front (i := i)
    exact ⟨0, _, fun _ _ => congrArg some (Prod.ext rfl hresult), hrepresents⟩
  | pop_back i =>
    obtain ⟨hrepresents, hresult⟩ := h.pop_back (i := i)
    exact ⟨0, _, fun _ _ => congrArg some (Prod.ext rfl hresult), hrepresents⟩
  | spliceList i pos other =>
    obtain ⟨mem', hsplice, hrepresents⟩ := h.spliceList hadmissible
    exact ⟨0, mem', fun _ _ => congrArg (Option.map (·, none)) hsplice, hrepresents⟩
  | spliceElement i pos other it =>
    exact ⟨0, _, fun _ _ => rfl, h.spliceElement hadmissible.1 hadmissible.2⟩
  | spliceCount i pos other first last count =>
    obtain ⟨hpos, front, nodes, back, hrange, rfl⟩ := hadmissible
    have hbetween := hrange.between_eq (h.nodup other)
    rw [PositionOutside, hbetween] at houtside
    obtain ⟨mem', hsplice, hrepresents⟩ := h.spliceCount hrange hpos houtside
    refine ⟨0, mem', fun _ _ => congrArg (Option.map (·, none)) hsplice, ?_⟩
    show Represents mem' (moveRange i pos other (between first last (seqs other)) seqs)
    rw [hbetween]
    exact hrepresents
  | spliceRange i pos other first last =>
    obtain ⟨hpos, front, nodes, back, hrange⟩ := hadmissible
    have hbetween := hrange.between_eq (h.nodup other)
    rw [PositionOutside, hbetween] at houtside
    obtain ⟨mem', hsplice, hrepresents⟩ := h.spliceCount hrange hpos houtside
    refine ⟨nodes.length + 1, mem', fun fuel hfuel => ?_, ?_⟩
    · show (LinkedList.spliceRange fuel i pos other first last mem).map (·, none) = _
      rw [spliceRange_eq h hrange, if_pos (Or.inr (Or.inr (Nat.lt_of_succ_le hfuel))), hsplice]
      rfl
    · show Represents mem' (moveRange i pos other (between first last (seqs other)) seqs)
      rw [hbetween]
      exact hrepresents
  | clear i =>
    obtain ⟨fuel₀, mem', hclear, hrepresents⟩ := h.clear (i := i)
    exact ⟨fuel₀, mem', fun fuel hfuel => congrArg (Option.map (·, none)) (hclear fuel hfuel),
      hrepresents⟩

omit [DecidableEq ι] in
/-- A position that is not outside a range is a node of it, and the range is not its whole list. -/
theorem exists_inside {i other : ι} {pos : Option α} {nodes : List α}
    (h : ¬(i = other → nodes = seqs other ∨ ∀ x ∈ nodes, pos ≠ some x)) :
    i = other ∧ nodes ≠ seqs other ∧ ∃ curr ∈ nodes, pos = some curr := by
  rw [Classical.not_imp, not_or] at h
  obtain ⟨hi, hwhole, hin⟩ := h
  refine ⟨hi, hwhole, ?_⟩
  by_contra hnone
  exact hin fun x hx hpos => hnone ⟨x, hx, hpos⟩

/-- A range splice to a position in its own range breaks its list. -/
theorem Represents.not_represents (h : Represents mem seqs)
    (hadmissible : Admissible operation seqs) (hinside : ¬PositionOutside operation seqs)
    {fuel : ℕ} {mem' : Memory ι α} {result : Option α}
    (hexecute : LinkedList.execute fuel operation mem = some (mem', result)) (seqs' : ι → List α) :
    ¬Represents mem' seqs' := by
  cases operation with
  | spliceCount i pos other first last count =>
    obtain ⟨-, front, nodes, back, hrange, rfl⟩ := hadmissible
    have hbetween := hrange.between_eq (h.nodup other)
    rw [PositionOutside, hbetween] at hinside
    obtain ⟨rfl, hwhole, curr, hcurr, rfl⟩ := exists_inside hinside
    obtain ⟨s, hs, heq⟩ := map_eq_some_iff.mp hexecute
    obtain rfl : s = mem' := congrArg Prod.fst heq
    exact spliceCount_inside h hrange hwhole hcurr hs seqs'
  | spliceRange i pos other first last =>
    obtain ⟨-, front, nodes, back, hrange⟩ := hadmissible
    have hbetween := hrange.between_eq (h.nodup other)
    rw [PositionOutside, hbetween] at hinside
    obtain ⟨rfl, hwhole, curr, hcurr, rfl⟩ := exists_inside hinside
    obtain ⟨s, hs, heq⟩ := map_eq_some_iff.mp hexecute
    obtain rfl : s = mem' := congrArg Prod.fst heq
    rw [spliceRange_eq h hrange] at hs
    split_ifs at hs
    exact spliceCount_inside h hrange hwhole hcurr hs seqs'
  | _ => exact absurd trivial hinside

theorem Represents.meets_singleton_iff (h : Represents mem seqs)
    (hadmissible : Admissible operation seqs) :
    Meets [operation] mem seqs ↔ PositionOutside operation seqs := by
  constructor
  · rintro ⟨fuel, mem', hexecute, hrepresents⟩
    by_contra hinside
    obtain ⟨s, hs, hrest⟩ := bind_eq_some_iff.mp (hexecute fuel (Nat.le_refl fuel))
    obtain rfl : s.1 = mem' := congrArg Prod.fst (some.inj hrest)
    exact h.not_represents hadmissible hinside hs _ hrepresents
  · intro houtside
    obtain ⟨fuel₀, mem', hexecute, hrepresents⟩ := h.execute hadmissible houtside
    refine ⟨fuel₀, mem', fun fuel hfuel => ?_, hrepresents⟩
    rw [executeAll, hexecute fuel hfuel]
    rfl

/-! ## Runs -/

theorem meets_cons_iff {operations : List (Operation ι α)}
    {mem₁ : Memory ι α} {fuel₀ : ℕ} (hexecute : ∀ fuel ≥ fuel₀,
      execute fuel operation mem = some (mem₁, (apply operation seqs).2)) :
    Meets (operation :: operations) mem seqs ↔ Meets operations mem₁ (apply operation seqs).1 := by
  constructor
  · rintro ⟨fuel₁, mem', hrun, hrepresents⟩
    refine ⟨max fuel₀ fuel₁, mem', fun fuel hfuel => ?_, hrepresents⟩
    have hrun := hrun fuel (Nat.max_le.mp hfuel).2
    rw [executeAll, hexecute fuel (Nat.max_le.mp hfuel).1, bind_some] at hrun
    obtain ⟨t, ht, heq⟩ := map_eq_some_iff.mp hrun
    rw [ht]
    have hfst : t.1 = mem' := congrArg Prod.fst heq
    have hsnd := (cons.inj (congrArg Prod.snd heq)).2
    exact congrArg some (Prod.ext hfst hsnd)
  · rintro ⟨fuel₁, mem', hrun, hrepresents⟩
    refine ⟨max fuel₀ fuel₁, mem', fun fuel hfuel => ?_, hrepresents⟩
    rw [executeAll, hexecute fuel (Nat.max_le.mp hfuel).1, bind_some,
      hrun fuel (Nat.max_le.mp hfuel).2]
    rfl

theorem Represents.run_iff (h : Represents mem seqs) (operations : List (Operation ι α))
    (hadmissible : AdmissibleRun operations seqs) :
    (∀ front, front <+: operations → Meets front mem seqs) ↔ PositionsOutside operations seqs := by
  induction operations generalizing mem seqs with
  | nil =>
    refine iff_of_true (fun front hfront => ?_) trivial
    obtain rfl := prefix_nil.mp hfront
    exact ⟨0, mem, fun _ _ => rfl, h⟩
  | cons operation operations ih =>
    obtain ⟨hfirst, hrest⟩ := hadmissible
    constructor
    · intro hmeets
      have houtside := (h.meets_singleton_iff hfirst).mp
        (hmeets [operation] (cons_prefix_cons.mpr ⟨rfl, nil_prefix⟩))
      obtain ⟨fuel₀, mem₁, hexecute, hrepresents⟩ := h.execute hfirst houtside
      refine ⟨houtside, (ih hrepresents hrest).mp fun front hfront => ?_⟩
      exact (meets_cons_iff hexecute).mp
        (hmeets (operation :: front) (cons_prefix_cons.mpr ⟨rfl, hfront⟩))
    · rintro ⟨houtside, hrestOutside⟩ front hfront
      cases front with
      | nil => exact ⟨0, mem, fun _ _ => rfl, h⟩
      | cons operation' front =>
        obtain ⟨rfl, hrestFront⟩ := cons_prefix_cons.mp hfront
        obtain ⟨fuel₀, mem₁, hexecute, hrepresents⟩ := h.execute hfirst houtside
        exact (meets_cons_iff hexecute).mpr
          ((ih hrepresents hrest).mpr hrestOutside front hrestFront)

/-- From empty lists, at every point of a run the lists represent the sequences of its meaning
exactly when no range splice is to a position in its own range. -/
theorem intrusiveLinkedList_run_iff (mem : Memory ι α) (hempty : ∀ i, mem.lists i = .nil)
    (operations : List (Operation ι α)) (hadmissible : AdmissibleRun operations fun _ => []) :
    (∀ front, front <+: operations → Meets front mem fun _ => []) ↔
      PositionsOutside operations fun _ => [] :=
  (represents_nil hempty).run_iff operations hadmissible

/-- A range of the first list is moved before the node of the second. -/
def rangeRun : List (Operation Bool ℕ) :=
  [.push_back false (some 0), .push_back true (some 1),
    .spliceRange true (some 1) false (some 0) none]

theorem rangeRun_meets :
    Meets rangeRun ⟨⟨fun _ => none, fun _ => none⟩, fun _ => .nil⟩ fun _ => [] := by
  refine (intrusiveLinkedList_run_iff _ (fun _ => rfl) rangeRun ?_).mpr ?_ rangeRun prefix_rfl
  · refine ⟨fun _ _ _ => not_mem_nil, ?_, ⟨?_, [], [0], [], rfl, rfl, rfl⟩, trivial⟩
    · rintro x hx i
      obtain rfl := some.inj hx
      revert i
      decide
    · rintro x hx
      obtain rfl := some.inj hx
      decide
  · exact ⟨trivial, trivial, nofun, trivial⟩

/-- Two nodes of one list; the range of the first one is moved before itself. -/
def selfSplice : List (Operation Unit ℕ) :=
  [.push_back () (some 0), .push_back () (some 1), .spliceRange () (some 0) () (some 0) (some 1)]

theorem admissibleRun_selfSplice : AdmissibleRun selfSplice fun _ => [] := by
  refine ⟨?_, ?_, ⟨?_, [], [0], [1], rfl, rfl, rfl⟩, trivial⟩
  · exact fun _ _ _ => not_mem_nil
  · rintro x hx i
    obtain rfl := some.inj hx
    exact (show 1 ∉ [0] by decide)
  · rintro x hx
    obtain rfl := some.inj hx
    decide

/-- The range splice dereferences the null pointer in front of the unlinked range. -/
theorem executeAll_selfSplice (fuel : ℕ) :
    executeAll fuel selfSplice ⟨⟨fun _ => none, fun _ => none⟩, fun _ => .nil⟩ = none := by
  rcases fuel with _ | _ | fuel <;> rfl

theorem selfSplice_not_meets : AdmissibleRun selfSplice (fun _ => []) ∧
      ¬Meets selfSplice ⟨⟨fun _ => none, fun _ => none⟩, fun _ => .nil⟩ fun _ => [] := by
  refine ⟨admissibleRun_selfSplice, ?_⟩
  rintro ⟨fuel, mem', hexecute, -⟩
  have hrun := hexecute fuel (Nat.le_refl fuel)
  rw [executeAll_selfSplice] at hrun
  cases hrun

end EzPacker.LinkedList
