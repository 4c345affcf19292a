import Mathlib.Data.Finset.Card

/-!
# Sets closed under implication

Elements imply others. `spread` adds an element and, without a record of what it has visited, all
that it implies; it ends iff no cycle is reachable. `collapse` removes an element and all in the
set that imply it; it ends always. Both recursions have fuel.
-/

namespace EzPacker.Implications

open Finset Relation.ReflTransGen List

variable {α : Type*}

/-! ## Folds that can fail -/

variable {a : α} {l : List α} {fuel : ℕ} {s s' : Finset α}

section Folds

variable {σ : Type*} {f g : σ → α → Option σ}

theorem foldlM_cons_eq_some {s s' : σ} :
    (a :: l).foldlM f s = some s' ↔ ∃ t, f s a = some t ∧ l.foldlM f t = some s' := by
  rw [foldlM_cons]
  exact Option.bind_eq_some_iff

theorem foldlM_isSome (P : σ → Prop) (h : ∀ s, P s → ∀ a ∈ l, ∃ t, f s a = some t ∧ P t) {s : σ}
    (hs : P s) : ∃ t, l.foldlM f s = some t ∧ P t := by
  induction l generalizing s with
  | nil => exact ⟨s, rfl, hs⟩
  | cons a l ih =>
    obtain ⟨t, hfirst, ht⟩ := h s hs a (mem_cons_self ..)
    obtain ⟨u, hrest, hu⟩ := ih (fun s hs b hb => h s hs b (mem_cons_of_mem _ hb)) ht
    exact ⟨u, foldlM_cons_eq_some.mpr ⟨t, hfirst, hrest⟩, hu⟩

theorem foldlM_invariant (P : σ → Prop) (h : ∀ s, P s → ∀ a ∈ l, ∀ t, f s a = some t → P t)
    {s s' : σ} (hs : P s) (hrun : l.foldlM f s = some s') : P s' := by
  induction l generalizing s with
  | nil =>
    cases hrun
    exact hs
  | cons a l ih =>
    obtain ⟨t, hfirst, hrest⟩ := foldlM_cons_eq_some.mp hrun
    exact ih (fun s hs b hb => h s hs b (mem_cons_of_mem _ hb))
      (h s hs a (mem_cons_self ..) t hfirst) hrest

theorem foldlM_eq_none (ha : a ∈ l) (h : ∀ s, f s a = none) (s : σ) : l.foldlM f s = none := by
  induction l generalizing s with
  | nil => cases ha
  | cons b l ih =>
    rw [foldlM_cons]
    rcases mem_cons.mp ha with rfl | ha
    · rw [h]
      rfl
    · cases hb : f s b with
      | none => rfl
      | some t => exact ih ha t

theorem foldlM_congr (h : ∀ s, ∀ a ∈ l, f s a = g s a) (s : σ) : l.foldlM f s = l.foldlM g s := by
  induction l generalizing s with
  | nil => rfl
  | cons a l ih =>
    rw [foldlM_cons, foldlM_cons, h s a (mem_cons_self ..)]
    exact congrArg (g s a >>= ·) (funext (ih fun s b hb => h s b (mem_cons_of_mem _ hb)))

theorem foldlM_mono (h : ∀ s, ∀ a ∈ l, ∀ t, f s a = some t → g s a = some t) {s s' : σ}
    (hrun : l.foldlM f s = some s') : l.foldlM g s = some s' := by
  induction l generalizing s with
  | nil => exact hrun
  | cons a l ih =>
    obtain ⟨t, hfirst, hrest⟩ := foldlM_cons_eq_some.mp hrun
    exact foldlM_cons_eq_some.mpr ⟨t, h s a (mem_cons_self ..) t hfirst,
      ih (fun s b hb => h s b (mem_cons_of_mem _ hb)) hrest⟩

end Folds

/-! ## Spreading -/

section Spread

variable (node : α → Bool) (succ : α → List α)

def Edge (a b : α) : Prop := node a = true ∧ b ∈ succ a

def Reaches : α → α → Prop := Relation.ReflTransGen (Edge node succ)

/-- No cycle is reachable. -/
def NoCycleFrom (a : α) : Prop :=
  ∀ b, Reaches node succ a b → ¬Relation.TransGen (Edge node succ) b b

variable {node succ}

theorem reaches_of_not_node {b : α} (ha : node a = false) (h : Reaches node succ a b) : b = a := by
  rcases cases_head h with heq | ⟨c, hedge, -⟩
  · exact heq.symm
  · rw [hedge.1] at ha
    cases ha

theorem NoCycleFrom.step {b : α} (h : NoCycleFrom node succ a) (hedge : Edge node succ a b) :
    NoCycleFrom node succ b := fun c hreach => h c (.head hedge hreach)

theorem exists_succ_of_cycle (h : ¬NoCycleFrom node succ a) :
    ∃ b, Edge node succ a b ∧ ¬NoCycleFrom node succ b := by
  unfold NoCycleFrom at h
  push Not at h
  obtain ⟨c, hreach, hcycle⟩ := h
  rcases cases_head hreach with rfl | ⟨b, hedge, hreach⟩
  · obtain ⟨b, hedge, hback⟩ := Relation.TransGen.head'_iff.mp hcycle
    exact ⟨b, hedge, fun hno => hno a hback hcycle⟩
  · exact ⟨b, hedge, fun hno => hno c hreach hcycle⟩

variable [DecidableEq α]

variable (node succ) in
def spread : ℕ → Finset α → α → Option (Finset α)
  | 0, _, _ => none
  | fuel + 1, s, a =>
    if node a = true then (succ a).foldlM (spread fuel) (insert a s) else some s

theorem spread_succ (fuel : ℕ) (s : Finset α) (a : α) : spread node succ (fuel + 1) s a =
      if node a = true then (succ a).foldlM (spread node succ fuel) (insert a s) else some s := rfl

theorem mem_foldlM_spread (h : ∀ {s s' : Finset α} {a : α}, spread node succ fuel s a = some s' → ∀
      b, b ∈ s' ↔ b ∈ s ∨ node b = true ∧ Reaches node succ a b)
    (hrun : l.foldlM (spread node succ fuel) s = some s') (b : α) :
    b ∈ s' ↔ b ∈ s ∨ ∃ a ∈ l, node b = true ∧ Reaches node succ a b := by
  induction l generalizing s with
  | nil =>
    cases hrun
    simp
  | cons a l ih =>
    obtain ⟨t, hfirst, hrest⟩ := foldlM_cons_eq_some.mp hrun
    rw [ih hrest, h hfirst, exists_mem_cons_iff, or_assoc]

theorem mem_spread (h : spread node succ fuel s a = some s') (b : α) :
    b ∈ s' ↔ b ∈ s ∨ node b = true ∧ Reaches node succ a b := by
  induction fuel generalizing s s' a b with
  | zero => cases h
  | succ fuel ih =>
    rw [spread_succ] at h
    split_ifs at h with hnode
    · rw [mem_foldlM_spread (fun h b => ih h b) h, mem_insert]
      constructor
      · rintro ((rfl | hb) | ⟨c, hc, hb, hreach⟩)
        · exact .inr ⟨hnode, .refl⟩
        · exact .inl hb
        · exact .inr ⟨hb, .head ⟨hnode, hc⟩ hreach⟩
      · rintro (hb | ⟨hb, hreach⟩)
        · exact .inl (.inr hb)
        · rcases cases_head hreach with rfl | ⟨c, hedge, hreach⟩
          · exact .inl (.inl rfl)
          · exact .inr ⟨c, hedge.2, hb, hreach⟩
    · cases h
      refine ⟨.inl, fun hb => hb.resolve_right ?_⟩
      rintro ⟨hb, hreach⟩
      rw [reaches_of_not_node (Bool.eq_false_iff.mpr hnode) hreach] at hb
      exact hnode hb

/-- The nodes on the way to an element are different, so the fuel needed is at most their
number. -/
theorem exists_spread_of_path {nodes : Finset α} (hnodes : ∀ a, node a = true → a ∈ nodes)
    {path : Finset α} (hpath : path ⊆ nodes) (hnocycle : NoCycleFrom node succ a)
    (hreach : ∀ b ∈ path, Relation.TransGen (Edge node succ) b a)
    (hfuel : nodes.card < fuel + path.card) (s : Finset α) :
    ∃ s', spread node succ fuel s a = some s' := by
  induction fuel generalizing path a s with
  | zero =>
    have hle := card_le_card hpath
    omega
  | succ fuel ih =>
    rw [spread_succ]
    split_ifs with hnode
    · have hfresh : a ∉ path := fun ha => hnocycle a .refl (hreach a ha)
      have hchild : ∀ b ∈ succ a, ∀ s, ∃ t, spread node succ fuel s b = some t := ?_
      · obtain ⟨s', hrun, -⟩ := foldlM_isSome (fun _ => True)
          (fun s _ b hb => (hchild b hb s).imp fun _ ht => ⟨ht, trivial⟩) trivial
        exact ⟨s', hrun⟩
      intro b hb s
      have hedge : Edge node succ a b := ⟨hnode, hb⟩
      have hinsert : insert a path ⊆ nodes := insert_subset (hnodes a hnode) hpath
      have hcard := card_insert_of_notMem hfresh
      have hbefore : ∀ c ∈ insert a path, Relation.TransGen (Edge node succ) c b := by
        intro c hc
        rcases mem_insert.mp hc with rfl | hc
        · exact .single hedge
        · exact (hreach c hc).tail hedge
      exact ih hinsert (hnocycle.step hedge) hbefore (by omega) s
    · exact ⟨s, rfl⟩

theorem exists_spread {nodes : Finset α} (hnodes : ∀ a, node a = true → a ∈ nodes)
    (h : NoCycleFrom node succ a) (s : Finset α) :
    ∃ s', spread node succ (nodes.card + 1) s a = some s' :=
  exists_spread_of_path hnodes (empty_subset _) h
    (fun _ hb => absurd hb (notMem_empty _)) (Nat.lt_succ_self _) s

/-- A cycle is followed for ever. -/
theorem spread_eq_none (h : ¬NoCycleFrom node succ a) (s : Finset α) :
    spread node succ fuel s a = none := by
  induction fuel generalizing s a with
  | zero => rfl
  | succ fuel ih =>
    obtain ⟨b, hedge, hb⟩ := exists_succ_of_cycle h
    rw [spread_succ, if_pos hedge.1]
    exact foldlM_eq_none hedge.2 (ih hb) _

end Spread

/-! ## Collapsing -/

section Collapse

variable {scan : List α} {succ : α → List α}

variable (succ) in
/-- What is removed on the way from `s` to `s'` for the sake of `a`. -/
structure Removes (node : α → Bool) (a : α) (s s' : Finset α) : Prop where
  subset : s' ⊆ s
  reaches : ∀ b ∈ s, b ∉ s' → Reaches node succ b a
  before : ∀ b ∈ s, b ∉ s' → ∀ c, Edge node succ c b → c ∉ s'

variable {node : α → Bool}

theorem Removes.refl : Removes succ node a s s :=
  ⟨Subset.refl _, fun _ hb hno => absurd hb hno, fun _ hb hno => absurd hb hno⟩

variable [DecidableEq α]

variable (scan succ) in
def collapse : ℕ → Finset α → α → Option (Finset α)
  | 0, _, _ => none
  | fuel + 1, s, a =>
    scan.foldlM (fun s b => if a ∈ succ b ∧ b ∈ s then collapse fuel s b else some s) (s.erase a)

theorem collapse_succ (fuel : ℕ) (s : Finset α) (a : α) : collapse scan succ (fuel + 1) s a =
      scan.foldlM (fun s b => if a ∈ succ b ∧ b ∈ s then collapse scan succ fuel s b else some s)
        (s.erase a) := rfl

theorem Removes.trans {s'' : Finset α} (h : Removes succ node a s s')
    (h' : Removes succ node a s' s'') : Removes succ node a s s'' := by
  refine ⟨h'.subset.trans h.subset, fun b hb hno => ?_, fun b hb hno c hedge hc => ?_⟩
  · by_cases hmid : b ∈ s'
    · exact h'.reaches b hmid hno
    · exact h.reaches b hb hmid
  · by_cases hmid : b ∈ s'
    · exact h'.before b hmid hno c hedge hc
    · exact h.before b hb hmid c hedge (h'.subset hc)

theorem removes_foldlM (h : ∀ {s s' : Finset α} {a : α}, node a = true → collapse scan succ fuel s a
      = some s' → Removes succ node a s s' ∧ a ∉ s' ∧ ∀ c, Edge node succ c a → c ∉ s')
    (hl : ∀ b ∈ l, node b = true) (hrun : l.foldlM (fun s b => if a ∈ succ b ∧ b ∈ s then collapse
      scan succ fuel s b else some s) s = some s') :
    Removes succ node a s s' ∧ ∀ c ∈ l, a ∈ succ c → c ∉ s' := by
  induction l generalizing s with
  | nil =>
    cases hrun
    exact ⟨.refl, fun c hc => absurd hc not_mem_nil⟩
  | cons b l ih =>
    obtain ⟨t, hfirst, hrest⟩ := foldlM_cons_eq_some.mp hrun
    obtain ⟨hremoves, hscanned⟩ := ih (fun c hc => hl c (mem_cons_of_mem _ hc)) hrest
    have hnode := hl b (mem_cons_self ..)
    split_ifs at hfirst with hb
    · obtain ⟨hstep, hgone, -⟩ := h hnode hfirst
      have hedge : Edge node succ b a := ⟨hnode, hb.1⟩
      have hstep' : Removes succ node a s t :=
        ⟨hstep.subset, fun c hc hno => (hstep.reaches c hc hno).tail hedge, hstep.before⟩
      refine ⟨hstep'.trans hremoves, fun c hc hsucc => ?_⟩
      rcases mem_cons.mp hc with rfl | hc
      · exact fun hmem => hgone (hremoves.subset hmem)
      · exact hscanned c hc hsucc
    · cases hfirst
      refine ⟨hremoves, fun c hc hsucc => ?_⟩
      rcases mem_cons.mp hc with rfl | hc
      · exact fun hmem => hb ⟨hsucc, hremoves.subset hmem⟩
      · exact hscanned c hc hsucc

theorem removes_collapse (hscan : ∀ a, a ∈ scan ↔ node a = true)
    (h : collapse scan succ fuel s a = some s') :
    Removes succ node a s s' ∧ a ∉ s' ∧ ∀ c, Edge node succ c a → c ∉ s' := by
  induction fuel generalizing s s' a with
  | zero => cases h
  | succ fuel ih =>
    rw [collapse_succ] at h
    obtain ⟨hremoves, hscanned⟩ :=
      removes_foldlM (fun _ h => ih h) (fun b hb => (hscan b).mp hb) h
    have hgone : a ∉ s' := fun hmem => notMem_erase a s (hremoves.subset hmem)
    have hbefore : ∀ c, Edge node succ c a → c ∉ s' := fun c hedge =>
      hscanned c ((hscan c).mpr hedge.1) hedge.2
    refine ⟨⟨hremoves.subset.trans (erase_subset _ _), fun b hb hno => ?_,
      fun b hb hno => ?_⟩, hgone, hbefore⟩
    · by_cases heq : b = a
      · rw [heq]
        exact .refl
      · exact hremoves.reaches b (mem_erase.mpr ⟨heq, hb⟩) hno
    · by_cases heq : b = a
      · rw [heq]
        exact hbefore
      · exact hremoves.before b (mem_erase.mpr ⟨heq, hb⟩) hno

variable (succ) in
/-- What is implied by an element is in the set, where it is a node. -/
def ClosedUnder (node : α → Bool) (s : Finset α) : Prop :=
  ∀ a ∈ s, ∀ b, Edge node succ a b → node b = true → b ∈ s

theorem mem_collapse (hscan : ∀ a, a ∈ scan ↔ node a = true)
    (h : collapse scan succ fuel s a = some s') (ha : node a = true)
    (hclosed : ClosedUnder succ node s) (b : α) : b ∈ s' ↔ b ∈ s ∧ ¬Reaches node succ b a := by
  obtain ⟨hremoves, hgone, hbefore⟩ := removes_collapse hscan h
  constructor
  · intro hb
    refine ⟨hremoves.subset hb, fun hreach => ?_⟩
    have hkeep : ∀ c, Reaches node succ c a → c ∈ s → c ∉ s' := by
      intro c hreach
      induction hreach using head_induction_on with
      | refl => exact fun _ => hgone
      | head hedge hrest ih =>
        rename_i c d
        intro hc
        have hd : node d = true := by
          rcases cases_head hrest with rfl | ⟨e, hedge', -⟩
          · exact ha
          · exact hedge'.1
        have hmem := hclosed c hc d hedge hd
        exact hremoves.before d hmem (ih hmem) c hedge
    exact hkeep b hreach (hremoves.subset hb) hb
  · rintro ⟨hb, hno⟩
    by_contra hout
    exact hno (hremoves.reaches b hb hout)

/-- Every removal makes the set smaller. -/
theorem exists_collapse (hfuel : (s.erase a).card < fuel) :
    ∃ s', collapse scan succ fuel s a = some s' ∧ s' ⊆ s.erase a := by
  induction fuel generalizing s a with
  | zero => exact absurd hfuel (Nat.not_lt_zero _)
  | succ fuel ih =>
    rw [collapse_succ]
    have hstep : ∀ t : Finset α, t ⊆ s.erase a → ∀ b : α, ∃ t', (if a ∈ succ b ∧ b ∈ t then
        collapse scan succ fuel t b else some t) = some t' ∧ t' ⊆ s.erase a := by
      intro t ht b
      split_ifs with hb
      · have hcard := card_erase_lt_of_mem hb.2
        have hle := card_le_card ht
        obtain ⟨t', hrun, hsub⟩ := ih (s := t) (a := b) (by omega)
        exact ⟨t', hrun, hsub.trans ((erase_subset _ _).trans ht)⟩
      · exact ⟨t, rfl, ht⟩
    exact foldlM_isSome (· ⊆ s.erase a) (fun t ht b _ => hstep t ht b) (Subset.refl _)

end Collapse

end EzPacker.Implications
