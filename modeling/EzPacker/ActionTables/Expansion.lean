import EzPacker.Lib.Correspondence
import EzPacker.ActionTables.FirstClause

/-!
# What the semantic pass makes of a clause

A clause of the file becomes one symbol, or one for each combination of types. Read
together the symbols admit what the clause admits, and each carries the payload of the
clause.
-/

namespace EzPacker.ActionTables

open List Option Legalizer LegalizeActionPass Correspondence

/-! ## Combinations -/

theorem mem_generateCartesianProduct {α : Type*} {lists : List (List α)} {comb : List α} :
    comb ∈ generateCartesianProduct lists ↔ Forall₂ (fun item list => item ∈ list) comb lists := by
  induction lists generalizing comb with
  | nil =>
    rw [generateCartesianProduct, mem_singleton, forall₂_nil_right_iff]
  | cons list rest ih =>
    rw [generateCartesianProduct, mem_flatMap, forall₂_cons_right_iff]
    constructor
    · rintro ⟨item, hitem, hmem⟩
      obtain ⟨tail, htail, rfl⟩ := mem_map.mp hmem
      exact ⟨item, tail, hitem, ih.mp htail, rfl⟩
    · rintro ⟨item, tail, hitem, htail, rfl⟩
      exact ⟨item, hitem, mem_map.mpr ⟨tail, ih.mpr htail, rfl⟩⟩

theorem exists_preferred {α : Type*} {lists : List (List α)} (hne : ∀ list ∈ lists, list ≠ [])
    (P : α → Prop) :
    ∃ comb ∈ generateCartesianProduct lists,
      Forall₂ (fun item list => item ∈ list ∧ ((∃ x ∈ list, P x) → P item)) comb lists := by
  simp only [mem_generateCartesianProduct]
  induction lists with
  | nil => exact ⟨[], .nil, .nil⟩
  | cons list rest ih =>
    obtain ⟨comb, hcomb, hpref⟩ := ih fun l hl => hne l (mem_cons_of_mem _ hl)
    have hchoice : ∃ item ∈ list, (∃ x ∈ list, P x) → P item := by
      by_cases hP : ∃ x ∈ list, P x
      · obtain ⟨x, hx, hPx⟩ := hP
        exact ⟨x, hx, fun _ => hPx⟩
      · obtain ⟨item, hitem⟩ := exists_mem_of_ne_nil list (hne list mem_cons_self)
        exact ⟨item, hitem, fun h => absurd h hP⟩
    obtain ⟨item, hitem, hP⟩ := hchoice
    exact ⟨item :: comb, .cons hitem hcomb, .cons ⟨hitem, hP⟩ hpref⟩

/-! ## Constraints -/

/-- A list of typed slots offers the types that a constraint admits. -/
structure Offers (k : Constraint) (list : List ConstraintSymbol) : Prop where
  ne_nil : list ≠ []
  types : list.map ConstraintSymbol.type = k.admits
  slot : ∀ tc ∈ list, tc.slot = k.slot

variable {list : List ConstraintSymbol} {table : SymbolTable} {c : DeclaredClause}
  {syms : List ClauseSymbol} {actions : List LegalizeActionSymbol}

theorem Offers.mem_type {k : Constraint} (h : Offers k list) {tc : ConstraintSymbol}
    (htc : tc ∈ list) : tc.type ∈ k.admits :=
  h.types ▸ mem_map_of_mem htc

theorem Offers.exists_type {k : Constraint} (h : Offers k list) {t : TypeSymbol}
    (ht : t ∈ k.admits) :
    ∃ tc ∈ list, tc.type = t := by
  rw [← h.types] at ht
  exact mem_map.mp ht

theorem slot_of_storeIndex {index : Option ℤ} {opIdx : Option UInt32}
    (h : storeIndex index = some opIdx) (t : TypeSymbol) :
    ConstraintSymbol.slot ⟨t, opIdx⟩ = (index.getD 0).toNat % 256 := by
  cases index with
  | none =>
    obtain rfl := some.inj h
    rfl
  | some i =>
    rw [storeIndex] at h
    split at h
    · cases h
    · obtain rfl := some.inj h
      simp only [ConstraintSymbol.slot, getD_some, UInt32.toNat_toUInt8, UInt32.toNat_ofNat']
      omega

theorem offers_of_resolveTypes {c : TypeConstraint} {indexed : Bool}
    (h : resolveTypes table c = some (list, indexed)) :
    Offers (declaredConstraint table c) list := by
  obtain ⟨sym, hsym, h⟩ := bind_eq_some_iff.mp h
  obtain ⟨opIdx, hidx, h⟩ := bind_eq_some_iff.mp h
  have hslot := slot_of_storeIndex hidx
  cases sym with
  | type data =>
    obtain ⟨rfl, -⟩ := Prod.mk.inj (some.inj h)
    refine ⟨cons_ne_nil _ _, ?_, ?_⟩
    · simp [declaredConstraint, admittedTypes, hsym]
    · intro tc htc
      rw [mem_singleton.mp htc]
      exact hslot data
  | typeSet name firstType moreTypes =>
    obtain ⟨rfl, -⟩ := Prod.mk.inj (some.inj h)
    refine ⟨cons_ne_nil _ _, ?_, ?_⟩
    · simp only [declaredConstraint, admittedTypes, hsym, List.map_map]
      exact List.map_id _
    · intro tc htc
      obtain ⟨t, -, rfl⟩ := mem_map.mp htc
      exact hslot t
  | irInstruction name opcode | legalizeRule name => cases h

/-! ## Payloads -/

/-- The code that a symbol names, in the field of its kind. -/
inductive Carries (table : SymbolTable) : Dispatch → ClauseSymbol → Prop
  | nothing {s : ClauseSymbol} (libcall : s.kind ≠ .Libcall) (lower : s.kind ≠ .Lower)
      (custom : s.kind ≠ .Custom) (typed : s.types ≠ []) (noLibcall : s.libcallSymbol = none)
      (noHandler : s.lowerHandler = none) : Carries table .nothing s
  | libcall {s : ClauseSymbol} {sym : String} (kind : s.kind = .Libcall) (typed : s.types ≠ [])
      (named : s.libcallSymbol = some sym) (noHandler : s.lowerHandler = none) :
      Carries table (.libcall sym) s
  | handler {s : ClauseSymbol} {name : String} (kind : s.kind = .Lower)
      (named : s.lowerHandler = some name) (noLibcall : s.libcallSymbol = none)
      (noTarget : s.targetType = none) :
      Carries table (.handler name) s
  | rules {s : ClauseSymbol} {rule : String} {rest : List String} (kind : s.kind = .Custom)
      (named : s.customRules = some (rule :: rest))
      (declared : ∀ name ∈ rule :: rest, name ∈ ruleNames table.symbols)
      (noHandler : s.lowerHandler = none) (noLibcall : s.libcallSymbol = none)
      (noTarget : s.targetType = none) : Carries table (.rules (rule :: rest)) s

theorem getRule_eq_some {name rule : String} (h : table.getRule name = some rule) :
    rule = name ∧ name ∈ ruleNames table.symbols := by
  rw [SymbolTable.getRule] at h
  split at h
  · next found hfound =>
      obtain rfl := some.inj h
      rw [SymbolTable.getSymByName] at hfound
      have hname : found = name := by
        have := find?_some hfound
        exact of_decide_eq_true this
      subst hname
      exact ⟨rfl, mem_filterMap.mpr ⟨_, mem_of_find?_eq_some hfound, rfl⟩⟩
  · cases h

theorem mapM_getRule {names rules : List String} (h : names.mapM table.getRule = some rules) :
    rules = names ∧ ∀ name ∈ names, name ∈ ruleNames table.symbols := by
  have hall := mapM_eq_some_iff.mp h
  constructor
  · have heq : Forall₂ Eq names rules :=
      hall.imp fun _ _ hrule => (getRule_eq_some hrule).1.symm
    rw [forall₂_eq_eq_eq] at heq
    exact heq.symm
  · intro name hname
    obtain ⟨rule, -, hrule⟩ := exists_right hall hname
    exact (getRule_eq_some hrule).2

theorem processClause_eq_some {clause : LegalizeActionClause} {types : List ConstraintSymbol}
    {s : ClauseSymbol} (h : processClause table clause types = some s) :
    s.types = types ∧ s.kind = clause.kind ∧ s.targetType = clause.targetType.bind table.getType ∧
      Carries table (declaredDispatch clause) s := by
  rw [processClause] at h
  split at h
  · cases h
  · next htyped =>
      have hne : clause.kind ≠ .Custom → clause.kind ≠ .Lower → types ≠ [] :=
        fun hcustom hlower hnil => htyped ⟨hnil, hcustom, hlower⟩
      rw [declaredDispatch]
      cases hkind : clause.kind <;> rw [hkind] at h hne <;> simp only at h ⊢
      case Legal | Unsupported =>
        split at h
        · cases h
        · next hnone =>
            obtain rfl := some.inj h
            have htarget : clause.targetType = none := by
              cases htt : clause.targetType with
              | none => rfl
              | some target => simp [htt] at hnone
            refine ⟨rfl, rfl, by rw [htarget]; rfl, ?_⟩
            exact .nothing (by simp) (by simp) (by simp) (hne (by simp) (by simp)) rfl rfl
      case WidenScalar | NarrowScalar | Bitcast =>
        split at h
        · cases h
        · obtain ⟨target, htarget, h⟩ := bind_eq_some_iff.mp h
          split at h
          · obtain rfl := some.inj h
            refine ⟨rfl, rfl, htarget.symm, ?_⟩
            exact .nothing (by simp) (by simp) (by simp) (hne (by simp) (by simp)) rfl rfl
          · cases h
      case Libcall =>
        split at h
        · cases h
        · next hnone =>
            have htarget : clause.targetType = none := by
              cases htt : clause.targetType with
              | none => rfl
              | some target => simp [htt] at hnone
            cases hsym : clause.libcallSymbol with
            | none => rw [hsym] at h; cases h
            | some sym =>
              rw [hsym] at h
              simp only at h
              split at h
              · cases h
              · obtain rfl := some.inj h
                refine ⟨rfl, rfl, by rw [htarget]; rfl, ?_⟩
                exact .libcall rfl (hne (by simp) (by simp)) rfl rfl
      case Lower =>
        split at h
        · cases h
        · next hnone =>
            have htarget : clause.targetType = none := by
              cases htt : clause.targetType with
              | none => rfl
              | some target => simp [htt] at hnone
            cases hhandler : clause.lowerHandler with
            | none => rw [hhandler] at h; cases h
            | some handler =>
              rw [hhandler] at h
              simp only at h
              split at h
              · cases h
              · obtain rfl := some.inj h
                exact ⟨rfl, rfl, by rw [htarget]; rfl, .handler rfl rfl rfl rfl⟩
      case Custom =>
        split at h
        · cases h
        · next hnone =>
            have htarget : clause.targetType = none := by
              cases htt : clause.targetType with
              | none => rfl
              | some target => simp [htt] at hnone
            cases hrules : clause.customRules with
            | none => rw [hrules] at h; cases h
            | some names =>
              rw [hrules] at h
              cases names with
              | nil => cases h
              | cons rule rest =>
                obtain ⟨rules, hmap, rfl⟩ := map_eq_some_iff.mp h
                obtain ⟨rfl, hdeclared⟩ := mapM_getRule hmap
                exact ⟨rfl, rfl, by rw [htarget]; rfl, .rules rfl rfl hdeclared rfl rfl rfl⟩

/-! ## Symbols of a clause -/

/-- The symbols that stand for a clause. -/
structure Stands (table : SymbolTable) (c : DeclaredClause) (syms : List ClauseSymbol) :
    Prop where
  ne_nil : syms ≠ []
  slots : ∀ s ∈ syms, ∀ n, (∃ tc ∈ s.types, tc.slot = n) ↔ ∃ k ∈ c.constraints, k.slot = n
  admits : ∀ P : ℕ → TypeSymbol → Prop, (∃ s ∈ syms, ∀ tc ∈ s.types, tc.slot < 6 →
        ∃ tc' ∈ s.types, tc'.slot = tc.slot ∧ P tc.slot tc'.type) ↔
      ∀ k ∈ c.constraints, k.slot < 6 →
        ∃ k' ∈ c.constraints, k'.slot = k.slot ∧ ∃ t ∈ k'.admits, P k.slot t
  names : ∀ n, (∃ s ∈ syms, ∃ tc ∈ s.types, tc.type.compactId = n) ↔
    ∃ k ∈ c.constraints, ∃ t ∈ k.admits, t.compactId = n
  kind : ∀ s ∈ syms, s.kind = c.kind
  targetSlot : ∀ s ∈ syms, s.targetSlot = c.operand % 256
  targetType : ∀ s ∈ syms, s.targetType = c.target
  carries : ∀ s ∈ syms, Carries table c.dispatch s

theorem stands_of_offers
    (hleft : ∀ s ∈ syms, ∀ tc ∈ s.types, ∃ k ∈ c.constraints, k.slot = tc.slot ∧ tc.type ∈ k.admits)
    (hsome : ∀ s ∈ syms, ∀ k ∈ c.constraints, ∃ tc ∈ s.types, tc.slot = k.slot) (hpreferred : ∀ P :
      ℕ → TypeSymbol → Prop, ∃ s ∈ syms, ∀ k ∈ c.constraints, (∃ t ∈ k.admits, P k.slot t) → ∃ tc ∈
      s.types, tc.slot = k.slot ∧ P k.slot tc.type) (hkind : ∀ s ∈ syms, s.kind = c.kind)
    (htargetSlot : ∀ s ∈ syms, s.targetSlot = c.operand % 256)
    (htargetType : ∀ s ∈ syms, s.targetType = c.target)
    (hcarries : ∀ s ∈ syms, Carries table c.dispatch s) : Stands table c syms where
  ne_nil := by
    obtain ⟨s, hs, -⟩ := hpreferred fun _ _ => True
    exact ne_nil_of_mem hs
  slots := by
    intro s hs n
    constructor
    · rintro ⟨tc, htc, rfl⟩
      obtain ⟨k, hk, hslot, -⟩ := hleft s hs tc htc
      exact ⟨k, hk, hslot⟩
    · rintro ⟨k, hk, rfl⟩
      exact hsome s hs k hk
  admits := by
    intro P
    constructor
    · rintro ⟨s, hs, h⟩ k hk hlt
      obtain ⟨tc, htc, hslot⟩ := hsome s hs k hk
      obtain ⟨tc', htc', hslot', hP⟩ := h tc htc (hslot ▸ hlt)
      obtain ⟨k', hk', hks, htype⟩ := hleft s hs tc' htc'
      exact ⟨k', hk', by rw [hks, hslot', hslot], tc'.type, htype, hslot ▸ hP⟩
    · intro h
      obtain ⟨s, hs, hbest⟩ := hpreferred P
      refine ⟨s, hs, fun tc htc hlt => ?_⟩
      obtain ⟨k, hk, hslot, -⟩ := hleft s hs tc htc
      obtain ⟨k', hk', hks, t, ht, hP⟩ := h k hk (hslot ▸ hlt)
      rw [← hks] at hP
      obtain ⟨tc', htc', hslot', hP'⟩ := hbest k' hk' ⟨t, ht, hP⟩
      have heq : k'.slot = tc.slot := hks.trans hslot
      exact ⟨tc', htc', hslot'.trans heq, heq ▸ hP'⟩
  names := by
    intro n
    constructor
    · rintro ⟨s, hs, tc, htc, rfl⟩
      obtain ⟨k, hk, -, htype⟩ := hleft s hs tc htc
      exact ⟨k, hk, tc.type, htype, rfl⟩
    · rintro ⟨k, hk, t, ht, hn⟩
      obtain ⟨s, hs, hbest⟩ := hpreferred fun _ t => t.compactId = n
      obtain ⟨tc, htc, -, hid⟩ := hbest k hk ⟨t, ht, hn⟩
      exact ⟨s, hs, tc, htc, hid⟩
  kind := hkind
  targetSlot := htargetSlot
  targetType := htargetType
  carries := hcarries

theorem stands_singleton {lists : List (List ConstraintSymbol)} {s : ClauseSymbol}
    (hoffers : Forall₂ Offers c.constraints lists) (htypes : s.types = lists.flatten)
    (hkind : s.kind = c.kind) (htarget : s.targetType = c.target)
    (hcarries : Carries table c.dispatch s) : Stands table c [s] := by
  have hmem : ∀ {k list tc}, Offers k list → list ∈ lists → tc ∈ list →
      tc ∈ s.types ∧ tc.slot = k.slot := fun hoff hlist htc =>
    ⟨htypes ▸ mem_flatten.mpr ⟨_, hlist, htc⟩, hoff.slot _ htc⟩
  refine stands_of_offers ?_ ?_ ?_ ?_ ?_ ?_ ?_
  · intro s' hs tc htc
    rw [mem_singleton.mp hs, htypes] at htc
    obtain ⟨list, hlist, htc⟩ := mem_flatten.mp htc
    obtain ⟨k, hk, hoff⟩ := exists_left hoffers hlist
    exact ⟨k, hk, (hoff.slot tc htc).symm, hoff.mem_type htc⟩
  · intro s' hs k hk
    rw [mem_singleton.mp hs]
    obtain ⟨list, hlist, hoff⟩ := exists_right hoffers hk
    obtain ⟨tc, htc⟩ := exists_mem_of_ne_nil list hoff.ne_nil
    exact ⟨tc, hmem hoff hlist htc⟩
  · intro P
    refine ⟨s, mem_singleton_self s, fun k hk => ?_⟩
    rintro ⟨t, ht, hP⟩
    obtain ⟨list, hlist, hoff⟩ := exists_right hoffers hk
    obtain ⟨tc, htc, rfl⟩ := hoff.exists_type ht
    obtain ⟨hin, hslot⟩ := hmem hoff hlist htc
    exact ⟨tc, hin, hslot, hP⟩
  · intro s' hs
    rw [mem_singleton.mp hs, hkind]
  · intro s' hs
    rw [mem_singleton.mp hs, ClauseSymbol.targetSlot, DeclaredClause.operand, htypes]
    generalize c.constraints = ks at hoffers
    cases hoffers with
    | nil => rfl
    | @cons k list ks lists hoff _ =>
      cases list with
      | nil => exact absurd rfl hoff.ne_nil
      | cons tc rest => exact hoff.slot tc mem_cons_self
  · intro s' hs
    rw [mem_singleton.mp hs, htarget]
  · intro s' hs
    rw [mem_singleton.mp hs]
    exact hcarries

theorem stands_product {lists : List (List ConstraintSymbol)}
    (hoffers : Forall₂ Offers c.constraints lists) (hsyms : Forall₂ (fun comb s => s.types = comb ∧
      s.kind = c.kind ∧ s.targetType = c.target ∧ Carries table c.dispatch s)
      (generateCartesianProduct lists) syms) : Stands table c syms := by
  have hcomb : ∀ s ∈ syms, Forall₂ (fun tc list => tc ∈ list) s.types lists := by
    intro s hs
    obtain ⟨comb, hcomb, htypes, -⟩ := exists_left hsyms hs
    rw [htypes]
    exact mem_generateCartesianProduct.mp hcomb
  have hne : ∀ list ∈ lists, list ≠ [] := by
    intro list hlist
    obtain ⟨k, -, hoff⟩ := exists_left hoffers hlist
    exact hoff.ne_nil
  have hpays : ∀ s ∈ syms, s.kind = c.kind ∧ s.targetType = c.target ∧
      Carries table c.dispatch s := by
    intro s hs
    obtain ⟨comb, -, -, hpays⟩ := exists_left hsyms hs
    exact hpays
  refine stands_of_offers ?_ ?_ ?_ (fun s hs => (hpays s hs).1) ?_
    (fun s hs => (hpays s hs).2.1) fun s hs => (hpays s hs).2.2
  · intro s hs tc htc
    obtain ⟨list, hlist, hmem⟩ := exists_right (hcomb s hs) htc
    obtain ⟨k, hk, hoff⟩ := exists_left hoffers hlist
    exact ⟨k, hk, (hoff.slot tc hmem).symm, hoff.mem_type hmem⟩
  · intro s hs k hk
    obtain ⟨list, hlist, hoff⟩ := exists_right hoffers hk
    obtain ⟨tc, htc, hmem⟩ := exists_left (hcomb s hs) hlist
    exact ⟨tc, htc, hoff.slot tc hmem⟩
  · intro P
    obtain ⟨comb, hin, hpref⟩ := exists_preferred hne fun tc => P tc.slot tc.type
    obtain ⟨s, hs, htypes, -⟩ := exists_right hsyms hin
    refine ⟨s, hs, fun k hk => ?_⟩
    rintro ⟨t, ht, hP⟩
    obtain ⟨list, hlist, hoff⟩ := exists_right hoffers hk
    obtain ⟨tc, htc, rfl⟩ := hoff.exists_type ht
    obtain ⟨item, hitem, hmem, hbest⟩ := exists_left hpref hlist
    have hslot := hoff.slot item hmem
    refine ⟨item, htypes ▸ hitem, hslot, ?_⟩
    rw [← hslot]
    exact hbest ⟨tc, htc, (hoff.slot tc htc).symm ▸ hP⟩
  · intro s hs
    rw [ClauseSymbol.targetSlot, DeclaredClause.operand]
    have hs' := hcomb s hs
    generalize s.types = types at hs'
    generalize c.constraints = ks at hoffers
    cases hoffers with
    | nil => cases hs'; rfl
    | cons hoff _ =>
      cases hs' with
      | cons hmem _ => exact hoff.slot _ hmem

theorem stands_of_resolveClause {clause : LegalizeActionClause}
    (h : resolveClause table clause = some syms) :
    Stands table (declaredClause table clause) syms := by
  obtain ⟨resolved, hresolved, h⟩ := bind_eq_some_iff.mp h
  have hoffers : Forall₂ Offers (declaredClause table clause).constraints
      (resolved.map Prod.fst) := by
    rw [declaredClause, forall₂_map_left_iff, forall₂_map_right_iff]
    exact (mapM_eq_some_iff.mp hresolved).imp fun _ _ hc => offers_of_resolveTypes hc
  simp only at h
  split at h
  · refine stands_product hoffers ((mapM_eq_some_iff.mp h).imp fun comb s hs => ?_)
    exact processClause_eq_some hs
  · obtain ⟨s, hs, h⟩ := bind_eq_some_iff.mp h
    obtain rfl := some.inj h
    obtain ⟨htypes, hkind, htarget, hcarries⟩ := processClause_eq_some hs
    exact stands_singleton hoffers htypes hkind htarget hcarries

theorem stands_clampClause (table : SymbolTable) (minType maxType t : TypeSymbol) :
    Stands table (clampedClause minType maxType t) [clampClause minType maxType t] := by
  have hslot : ConstraintSymbol.slot ⟨t, none⟩ = Constraint.slot ⟨[t], 0⟩ := rfl
  have hoffers : Forall₂ Offers [⟨[t], 0⟩] [[ConstraintSymbol.mk t none]] :=
    .cons ⟨cons_ne_nil _ _, rfl, fun tc htc => mem_singleton.mp htc ▸ hslot⟩ .nil
  rw [clampedClause, clampClause]
  by_cases hmin : t.bitWidth < minType.bitWidth
  · rw [if_pos hmin, if_pos hmin]
    exact stands_singleton hoffers rfl rfl rfl
      (.nothing (by simp) (by simp) (by simp) (cons_ne_nil _ _) rfl rfl)
  · by_cases hmax : t.bitWidth ≤ maxType.bitWidth
    · rw [if_neg hmin, if_neg hmin, if_pos hmax, if_neg (Nat.not_lt.mpr hmax)]
      exact stands_singleton hoffers rfl rfl rfl
        (.nothing (by simp) (by simp) (by simp) (cons_ne_nil _ _) rfl rfl)
    · rw [if_neg hmin, if_neg hmin, if_neg hmax, if_pos (Nat.not_le.mp hmax)]
      exact stands_singleton hoffers rfl rfl rfl
        (.nothing (by simp) (by simp) (by simp) (cons_ne_nil _ _) rfl rfl)

/-! ## Rows -/

/-- The symbols of an opcode, in blocks that stand for its clauses. -/
def Row (table : SymbolTable) (clauses : List DeclaredClause) (syms : List ClauseSymbol) : Prop :=
  ∃ blocks, Forall₂ (Stands table) clauses blocks ∧ syms = blocks.flatten

theorem row_nil (table : SymbolTable) : Row table [] [] := ⟨[], .nil, rfl⟩

theorem row_append {cs cs' : List DeclaredClause} {syms' : List ClauseSymbol}
    (h : Row table cs syms) (h' : Row table cs' syms') : Row table (cs ++ cs') (syms ++ syms') := by
  obtain ⟨blocks, hblocks, rfl⟩ := h
  obtain ⟨blocks', hblocks', rfl⟩ := h'
  exact ⟨blocks ++ blocks', rel_append hblocks hblocks', flatten_append.symm⟩

theorem row_clampedClauses {clamp : ClampScalarClause}
    (h : applyClampScalar table clamp = some syms) :
    Row table (clampedClauses table clamp) syms := by
  obtain ⟨minType, hmin, h⟩ := bind_eq_some_iff.mp h
  obtain ⟨maxType, hmax, h⟩ := bind_eq_some_iff.mp h
  split at h
  · obtain rfl := some.inj h
    rw [clampedClauses, hmin, hmax]
    simp only
    generalize clampTypes table = types
    induction types with
    | nil => exact row_nil table
    | cons t types ih =>
      have hhead : Row table [clampedClause minType maxType t]
          [[clampClause minType maxType t]].flatten :=
        ⟨[[clampClause minType maxType t]],
          .cons (stands_clampClause table minType maxType t) .nil, rfl⟩
      exact row_append hhead ih
  · cases h

theorem processInstructionDecl_eq_some {actions' : List LegalizeActionSymbol}
    {decl : LegalizeInstructionDecl} (h : processInstructionDecl table actions decl =
      some actions') :
    ∃ opcode syms, table.getIrInstruction decl.instName = some opcode ∧
      actions' = Accumulation.accumulate actions opcode syms ∧
      Row table (declaredClauses table decl) syms := by
  obtain ⟨opcode, hop, h⟩ := bind_eq_some_iff.mp h
  obtain ⟨clamped, hclamped, h⟩ := bind_eq_some_iff.mp h
  obtain ⟨resolved, hresolved, h⟩ := bind_eq_some_iff.mp h
  obtain rfl := some.inj h
  refine ⟨opcode, _, hop, rfl, row_append ?_ ⟨resolved, ?_, rfl⟩⟩
  · cases hclamp : decl.clampClause with
    | none =>
      rw [hclamp] at hclamped
      obtain rfl := some.inj hclamped
      exact row_nil table
    | some clamp =>
      rw [hclamp] at hclamped
      exact row_clampedClauses hclamped
  · rw [forall₂_map_left_iff]
    exact (mapM_eq_some_iff.mp hresolved).imp fun _ _ hc => stands_of_resolveClause hc

/-- The entries that a run of the pass accumulates. -/
def Entries (table : SymbolTable) (decls : List LegalizeInstructionDecl)
    (entries : List LegalizeActionSymbol) : Prop :=
  Forall₂ (fun decl entry => table.getIrInstruction decl.instName = some entry.1 ∧
    Row table (declaredClauses table decl) entry.2) decls entries

theorem foldlM_processInstructionDecl {decls : List LegalizeInstructionDecl}
    {actions' : List LegalizeActionSymbol}
    (h : decls.foldlM (processInstructionDecl table) actions = some actions') :
    ∃ entries, Entries table decls entries ∧
      actions' = Accumulation.accumulateAll actions entries := by
  induction decls generalizing actions with
  | nil =>
    obtain rfl := some.inj h
    exact ⟨[], .nil, rfl⟩
  | cons decl decls ih =>
    rw [foldlM_cons] at h
    obtain ⟨next, hnext, h⟩ := bind_eq_some_iff.mp h
    obtain ⟨opcode, syms, hop, rfl, hrow⟩ := processInstructionDecl_eq_some hnext
    obtain ⟨entries, hentries, rfl⟩ := ih h
    exact ⟨(opcode, syms) :: entries, .cons ⟨hop, hrow⟩ hentries, rfl⟩

theorem row_of_entries {decls : List LegalizeInstructionDecl} {entries : List LegalizeActionSymbol}
    (h : Entries table decls entries) (op : Mir.MirInstructionOpCode) :
    Row table ((decls.filter fun decl => table.getIrInstruction decl.instName = some op).flatMap
        (declaredClauses table))
      ((entries.filter fun entry => entry.1 = op).flatMap Prod.snd) := by
  induction h with
  | nil => exact row_nil table
  | @cons decl entry decls entries hentry _ ih =>
    obtain ⟨hop, hrow⟩ := hentry
    by_cases heq : entry.1 = op
    · rw [filter_cons_of_pos (by simpa [hop] using heq),
        filter_cons_of_pos (by simpa using heq), flatMap_cons, flatMap_cons]
      exact row_append hrow ih
    · rw [filter_cons_of_neg (by simpa [hop] using heq), filter_cons_of_neg (by simpa using heq)]
      exact ih

theorem row_of_run {table' : SymbolTable} {file : LegalizeActionFile}
    (h : run table file = some (table', actions)) (op : Mir.MirInstructionOpCode) :
    Row table' (clausesOf table' file op) (Accumulation.valuesAt actions op) := by
  obtain ⟨declared, -, h⟩ := bind_eq_some_iff.mp h
  obtain ⟨resolved, hresolved, h⟩ := bind_eq_some_iff.mp h
  obtain ⟨rfl, rfl⟩ := Prod.mk.inj (some.inj h)
  obtain ⟨entries, hentries, rfl⟩ := foldlM_processInstructionDecl hresolved
  rw [Accumulation.valuesAt_accumulateAll]
  exact row_of_entries hentries op

theorem nodup_of_run {table' : SymbolTable} {file : LegalizeActionFile}
    (h : run table file = some (table', actions)) : (actions.map Prod.fst).Nodup := by
  obtain ⟨declared, -, h⟩ := bind_eq_some_iff.mp h
  obtain ⟨resolved, hresolved, h⟩ := bind_eq_some_iff.mp h
  obtain ⟨-, rfl⟩ := Prod.mk.inj (some.inj h)
  obtain ⟨entries, -, rfl⟩ := foldlM_processInstructionDecl hresolved
  have hnil : (([] : List LegalizeActionSymbol).map Prod.fst).Nodup := nodup_nil
  exact Accumulation.nodup_keys_accumulateAll hnil entries

end EzPacker.ActionTables
