import EzPacker.ActionTables.Expansion

/-!
# What the generated tables answer

The query answers with the clause that the table of the opcode takes and the code its
number reaches.
-/

namespace EzPacker.ActionTables

open NamePools LegalizeActionSymbol

open DeclaredClause List Function Option Mir Legalizer Accumulation Correspondence GeneratedTables

/-! ## Rows of the tables -/

section

variable {rules : List String} {actions : List LegalizeActionSymbol}

section

variable (h : (actions.map Prod.fst).Nodup) (op : MirInstructionOpCode)
include h op

theorem wildcardActions_eq : (emitSource rules actions).wildcardActions op =
      if LegalizeActionSymbol.isWildcard (valuesAt actions op) then
        wildcardResponse (NamePools.ofActions rules actions) (valuesAt actions op)
      else unsupported := by
  have hrow := foldl_update_eq
    (fun r syms => if isWildcard syms then
      wildcardResponse (ofActions rules actions) syms else r)
    (fun r => if_neg Bool.false_ne_true) h (fun _ => unsupported) op
  rw [← hrow]
  refine congrArg (fun write => foldl write (fun _ => unsupported) actions op) ?_
  funext wildcards info
  split
  · rfl
  · exact (update_eq_self _ _).symm

theorem primaryMatrix_eq : (emitSource rules actions).primaryMatrix op =
      if LegalizeActionSymbol.isHeterogeneous (valuesAt actions op) ||
          LegalizeActionSymbol.isWildcard (valuesAt actions op) then fun _ => unsupported
      else (valuesAt actions op).foldl (assignClause (NamePools.ofActions rules actions))
        fun _ => unsupported := by
  have hrow := foldl_update_eq (fun r syms => if isHeterogeneous syms ||
        isWildcard syms then r
      else syms.foldl (assignClause (ofActions rules actions)) r)
    (fun r => by simp [isHeterogeneous, isWildcard])
    h (fun _ _ => unsupported) op
  rw [← hrow]
  refine congrArg (fun write => foldl write (fun _ _ => unsupported) actions op) ?_
  funext mat info
  split
  · exact (update_eq_self _ _).symm
  · rfl

theorem lookup_matchers : (emitSource rules actions).matchers.lookup op =
      if LegalizeActionSymbol.isHeterogeneous (valuesAt actions op) then
        some ((valuesAt actions op).map (matchArm (NamePools.ofActions rules actions)))
      else none :=
  lookup_filter_map rfl (fun syms => syms.map (matchArm (ofActions rules actions))) h op

end

end

/-! ## Conditions -/

def HoldsLow (s : ClauseSymbol) (q : FilledQuery) : Prop :=
  ∀ tc ∈ s.types, tc.slot < 6 → ∃ tc' ∈ s.types, tc'.slot = tc.slot ∧ q.shows tc.slot tc'.type

/-- A slot of the array that shows one of the ids. -/
def Matches (q : LegalityQuery) (e : ℕ × List ℕ) : Prop :=
  ∃ h : e.1 < 6, (q.slots ⟨e.1, h⟩).compactId ∈ e.2

theorem evalCond_of_matches {q : LegalityQuery} {low high : List (ℕ × List ℕ)}
    (h : ∀ e ∈ low, Matches q e) : evalCond q (low ++ high) = evalCond q high := by
  induction low with
  | nil => rfl
  | cons e low ih =>
    obtain ⟨hlt, hid⟩ := h e mem_cons_self
    rw [cons_append, evalCond, dif_pos hlt, if_pos hid,
      ih fun e' he' => h e' (mem_cons_of_mem _ he')]

theorem evalCond_of_not_matches {q : LegalityQuery} {low high : List (ℕ × List ℕ)}
    (hlow : ∀ e ∈ low, e.1 < 6) (h : ∃ e ∈ low, ¬Matches q e) :
    evalCond q (low ++ high) = some false := by
  induction low with
  | nil =>
    obtain ⟨e, he, -⟩ := h
    cases he
  | cons e low ih =>
    have hlt := hlow e mem_cons_self
    rw [cons_append, evalCond, dif_pos hlt]
    by_cases hid : (q.slots ⟨e.1, hlt⟩).compactId ∈ e.2
    · rw [if_pos hid]
      refine ih (fun e' he' => hlow e' (mem_cons_of_mem _ he')) ?_
      obtain ⟨e', he', hnot⟩ := h
      rcases mem_cons.mp he' with rfl | he'
      · exact absurd ⟨hlt, hid⟩ hnot
      · exact ⟨e', he', hnot⟩
    · rw [if_neg hid]

def slotEntry (s : ClauseSymbol) (slot : ℕ) : Option (ℕ × List ℕ) :=
  match (s.types.filter fun tc => tc.slot = slot).map fun tc => tc.type.compactId with
  | [] => none
  | cids => some (slot, cids)

variable {e : ℕ × List ℕ} {s : ClauseSymbol} {slot : ℕ} {q : FilledQuery}

theorem slotEntry_eq_some : slotEntry s slot = some e ↔ (∃ tc ∈ s.types, tc.slot = slot) ∧
      e = (slot, (s.types.filter fun tc => tc.slot = slot).map fun tc => tc.type.compactId) := by
  have hmem : (∃ tc ∈ s.types, tc.slot = slot) ↔
      (s.types.filter fun tc => tc.slot = slot) ≠ [] := by
    simp [filter_eq_nil_iff]
  rw [hmem, slotEntry]
  cases s.types.filter fun tc => tc.slot = slot with
  | nil => simp
  | cons tc rest => simp [eq_comm]

/-- The comparison of a slot of the array. -/
theorem matches_slotEntry (h : slotEntry s slot = some e) (hlt : slot < 6) :
    Matches q.query e ↔ ∃ tc ∈ s.types, tc.slot = slot ∧ q.shows slot tc.type := by
  obtain ⟨-, rfl⟩ := slotEntry_eq_some.mp h
  simp only [Matches, hlt, exists_true_left, List.mem_map, List.mem_filter, FilledQuery.shows,
    dif_pos, and_assoc, decide_eq_true_eq, @eq_comm _ (q.query.slots _).compactId]

theorem slotToCids_eq (s : ClauseSymbol) : s.slotToCids = (range 6).filterMap (slotEntry s) ++
      ((range 250).map (6 + ·)).filterMap (slotEntry s) := by
  rw [← filterMap_append, ← range_add]
  rfl

theorem low_entries (h : e ∈ (range 6).filterMap (slotEntry s)) :
    e.1 < 6 ∧ slotEntry s e.1 = some e := by
  obtain ⟨slot, hslot, he⟩ := mem_filterMap.mp h
  obtain rfl : e.1 = slot := (slotEntry_eq_some.mp he).2 ▸ rfl
  exact ⟨mem_range.mp hslot, he⟩

theorem ConstraintSymbol.slot_lt (tc : ConstraintSymbol) : tc.slot < 256 :=
  UInt8.toNat_lt _

theorem mem_high_slots : slot ∈ (range 250).map (6 + ·) ↔ 6 ≤ slot ∧ slot < 256 := by
  rw [List.mem_map]
  constructor
  · rintro ⟨n, hn, rfl⟩
    have hlt := List.mem_range.mp hn
    omega
  · rintro ⟨hle, hlt⟩
    exact ⟨slot - 6, List.mem_range.mpr (by omega), by omega⟩

theorem high_entries (h : e ∈ ((range 250).map (6 + ·)).filterMap (slotEntry s)) :
    6 ≤ e.1 ∧ slotEntry s e.1 = some e := by
  obtain ⟨slot, hslot, he⟩ := mem_filterMap.mp h
  obtain rfl : e.1 = slot := (slotEntry_eq_some.mp he).2 ▸ rfl
  exact ⟨(mem_high_slots.mp hslot).1, he⟩

theorem evalCond_of_not_holdsLow (h : ¬HoldsLow s q) :
    evalCond q.query s.slotToCids = some false := by
  rw [slotToCids_eq]
  refine evalCond_of_not_matches (fun e he => (low_entries he).1) ?_
  simp only [HoldsLow, not_forall] at h
  obtain ⟨tc, htc, hlt, hnone⟩ := h
  obtain ⟨e, he⟩ : ∃ e, slotEntry s tc.slot = some e :=
    ⟨_, slotEntry_eq_some.mpr ⟨⟨tc, htc, rfl⟩, rfl⟩⟩
  refine ⟨e, mem_filterMap.mpr ⟨tc.slot, mem_range.mpr hlt, he⟩, ?_⟩
  rw [matches_slotEntry he hlt]
  exact hnone

theorem evalCond_of_holdsLow (h : HoldsLow s q) : evalCond q.query s.slotToCids =
      if s.types.any fun tc => 6 ≤ tc.slot then none else some true := by
  rw [slotToCids_eq, evalCond_of_matches]
  · split
    · next hany =>
        obtain ⟨tc, htc, hle⟩ := any_eq_true.mp hany
        have hle := of_decide_eq_true hle
        obtain ⟨e, he⟩ : ∃ e, slotEntry s tc.slot = some e :=
          ⟨_, slotEntry_eq_some.mpr ⟨⟨tc, htc, rfl⟩, rfl⟩⟩
        have hin : e ∈ ((range 250).map (6 + ·)).filterMap (slotEntry s) :=
          mem_filterMap.mpr ⟨tc.slot, mem_high_slots.mpr ⟨hle, tc.slot_lt⟩, he⟩
        cases hhigh : ((range 250).map (6 + ·)).filterMap (slotEntry s) with
        | nil =>
          rw [hhigh] at hin
          cases hin
        | cons e' rest =>
          have hbeyond := (high_entries (hhigh ▸ mem_cons_self)).1
          rw [evalCond, dif_neg (Nat.not_lt.mpr hbeyond)]
    · next hany =>
        have hnil : ((range 250).map (6 + ·)).filterMap (slotEntry s) = [] := by
          rw [eq_nil_iff_forall_not_mem]
          intro e he
          obtain ⟨hbeyond, hentry⟩ := high_entries he
          obtain ⟨⟨tc, htc, hslot⟩, -⟩ := slotEntry_eq_some.mp hentry
          refine hany (any_eq_true.mpr ⟨tc, htc, decide_eq_true ?_⟩)
          rw [hslot]
          exact hbeyond
        rw [hnil, evalCond]
  · intro e he
    obtain ⟨hlt, hentry⟩ := low_entries he
    obtain ⟨⟨tc, htc, hslot⟩, -⟩ := slotEntry_eq_some.mp hentry
    rw [matches_slotEntry hentry hlt, ← hslot]
    exact h tc htc (hslot.symm ▸ hlt)

/-! ## Answers of a response -/

section

variable {rules : List String} {actions : List LegalizeActionSymbol} {table : SymbolTable}

variable {c : DeclaredClause} {syms : List ClauseSymbol} {blocks : List (List ClauseSymbol)}
  {clauses : List DeclaredClause}

theorem targetCid_eq (h : s.targetType = c.target) :
    s.targetCid = (c.target.map TypeSymbol.compactId).getD 0 := by
  rw [ClauseSymbol.targetCid, h]
  cases c.target with
  | none | some target => rfl

theorem answerOf_symbol (hkind : s.kind = c.kind) (htarget : s.targetType = c.target)
    (hcarries : Carries table c.dispatch s) (hslot : slot = c.operand % 256) :
    (emitSource rules actions).answerOf ⟨s.kind, slot, s.targetCid,
        (NamePools.ofActions rules actions).handlerOrStrId s⟩ =
      c.reachedAnswer (NamePools.ofActions rules actions) := by
  rw [targetCid_eq htarget, hslot, reachedAnswer, ← hkind]
  generalize hd : c.dispatch = d at hcarries
  cases hcarries with
  | nothing hlibcall hlower hcustom =>
    cases hk : s.kind with
    | Libcall => exact absurd hk hlibcall
    | Lower => exact absurd hk hlower
    | Custom => exact absurd hk hcustom
    | _ => rfl
  | libcall hk _ hnamed | handler hk hnamed =>
    rw [hk, handlerOrStrId, hk, hnamed]
    rfl
  | rules hk hnamed _ hhandler =>
    rw [hk, handlerOrStrId, hk, hhandler, hnamed]
    rfl

theorem answerOf_matchArm (h : Stands table c syms) (hs : s ∈ syms) :
    (emitSource rules actions).answerOf (matchArm (NamePools.ofActions rules actions) s).response =
      c.reachedAnswer (NamePools.ofActions rules actions) :=
  answerOf_symbol (h.kind s hs) (h.targetType s hs) (h.carries s hs) (h.targetSlot s hs)

/-! ## Matchers -/

theorem exists_holdsLow (h : Stands table c syms) (q : FilledQuery) : (∃ s ∈ syms, HoldsLow s q) ↔
      ¬(c.constraints.any fun k => k.slot < 6 && !c.admitsAt q k.slot) = true := by
  have hadmits := h.admits fun slot t => q.shows slot t = true
  simp only [HoldsLow]
  rw [hadmits]
  simp [admitsAt]

theorem any_beyond (h : Stands table c syms) (hs : s ∈ syms) :
    (s.types.any fun tc => 6 ≤ tc.slot) = c.constraints.any fun k => 6 ≤ k.slot := by
  rw [Bool.eq_iff_iff, List.any_eq_true, List.any_eq_true]
  constructor
  · rintro ⟨tc, htc, hle⟩
    obtain ⟨k, hk, hslot⟩ := (h.slots s hs tc.slot).mp ⟨tc, htc, rfl⟩
    exact ⟨k, hk, hslot.symm ▸ hle⟩
  · rintro ⟨k, hk, hle⟩
    obtain ⟨tc, htc, hslot⟩ := (h.slots s hs k.slot).mpr ⟨k, hk, rfl⟩
    exact ⟨tc, htc, hslot.symm ▸ hle⟩

theorem runMatcher_skip {pools : NamePools} (h : ∀ s ∈ syms, ¬HoldsLow s q) (rest : List MatchArm) :
    runMatcher q.query (syms.map (matchArm pools) ++ rest) = runMatcher q.query rest := by
  induction syms with
  | nil => rfl
  | cons s syms ih =>
    rw [map_cons, cons_append, runMatcher]
    have hcond : evalCond q.query (matchArm pools s).cond = some false :=
      evalCond_of_not_holdsLow (h s mem_cons_self)
    rw [hcond]
    exact ih fun s' hs' => h s' (mem_cons_of_mem _ hs')

theorem runMatcher_hit {pools : NamePools} {beyond : Bool}
    (hbeyond : ∀ s ∈ syms, (s.types.any fun tc => 6 ≤ tc.slot) = beyond)
    (h : ∃ s ∈ syms, HoldsLow s q) (rest : List MatchArm) :
    ∃ s ∈ syms, runMatcher q.query (syms.map (matchArm pools) ++ rest) =
      if beyond then none else some (matchArm pools s).response := by
  induction syms with
  | nil =>
    obtain ⟨s, hs, -⟩ := h
    cases hs
  | cons s syms ih =>
    rw [map_cons, cons_append, runMatcher]
    by_cases hlow : HoldsLow s q
    · have hcond : evalCond q.query (matchArm pools s).cond =
          if beyond then none else some true := by
        rw [← hbeyond s mem_cons_self]
        exact evalCond_of_holdsLow hlow
      refine ⟨s, mem_cons_self, ?_⟩
      rw [hcond]
      cases beyond with
      | false | true => rfl
    · have hcond : evalCond q.query (matchArm pools s).cond = some false :=
        evalCond_of_not_holdsLow hlow
      obtain ⟨s', hs', hhit⟩ := ih (fun s' hs' => hbeyond s' (mem_cons_of_mem _ hs')) (by
        obtain ⟨s', hs', hlow'⟩ := h
        rcases mem_cons.mp hs' with rfl | hs'
        · exact absurd hlow' hlow
        · exact ⟨s', hs', hlow'⟩)
      refine ⟨s', mem_cons_of_mem _ hs', ?_⟩
      rw [hcond]
      exact hhit

theorem answerOf_runMatcher (h : Forall₂ (Stands table) clauses blocks) (q : FilledQuery) :
    (runMatcher q.query (blocks.flatten.map (matchArm (NamePools.ofActions rules actions)))).map
          (emitSource rules actions).answerOf =
      (takenByMatcher q clauses).map fun taken =>
        taken.bind (DeclaredClause.reachedAnswer (NamePools.ofActions rules actions)) := by
  induction h with
  | nil => rfl
  | @cons c syms clauses blocks hstands _ ih =>
    rw [flatten_cons, map_append, takenByMatcher, readByBytes]
    by_cases hlow : (c.constraints.any fun k => k.slot < 6 && !c.admitsAt q k.slot) = true
    · have hnone : ∀ s ∈ syms, ¬HoldsLow s q := fun s hs hl =>
        (exists_holdsLow hstands q).mp ⟨s, hs, hl⟩ hlow
      rw [if_pos hlow, runMatcher_skip hnone]
      exact ih
    · obtain ⟨s, hs, hrun⟩ := runMatcher_hit (fun s hs => any_beyond hstands hs)
        ((exists_holdsLow hstands q).mpr hlow)
        (blocks.flatten.map (matchArm (ofActions rules actions)))
      rw [if_neg hlow, hrun]
      by_cases hbeyond : (c.constraints.any fun k => 6 ≤ k.slot) = true
      · rw [if_pos hbeyond, if_pos hbeyond]
        rfl
      · rw [if_neg hbeyond, if_neg hbeyond]
        exact congrArg some (answerOf_matchArm hstands hs)

/-! ## The matrix -/

theorem answerOf_unsupported (t : GeneratedTables) {resp : LegalityResponse}
    (h : resp.action = .Unsupported) : t.answerOf resp = none := by
  rw [GeneratedTables.answerOf, h]

theorem answerOf_assignClause (h : Stands table c syms) (hs : s ∈ syms)
    (hslots : ∀ tc ∈ s.types, tc.slot = c.operand % 256) {n : ℕ} (hn : n < 32)
    (row : ℕ → LegalityResponse) :
    (emitSource rules actions).answerOf (assignClause (NamePools.ofActions rules actions) row s n) =
      if s.types.any fun tc => tc.type.compactId = n then
        c.reachedAnswer (NamePools.ofActions rules actions)
      else (emitSource rules actions).answerOf (row n) := by
  refine LastWrite.val_foldl_const (assignColumn (ofActions rules actions) s)
    (fun row => (emitSource rules actions).answerOf (row n)) (fun tc htc r => ?_) row
  rw [assignColumn]
  by_cases hid : tc.type.compactId = n
  · rw [if_pos (hid ▸ hn), hid, update_self, if_pos (decide_eq_true rfl)]
    exact answerOf_symbol (h.kind s hs) (h.targetType s hs) (h.carries s hs) (hslots tc htc)
  · have hnot : ¬(decide (tc.type.compactId = n)) = true := fun h => hid (of_decide_eq_true h)
    rw [if_neg hnot]
    split
    · rw [update_of_ne (Ne.symm hid)]
    · rfl

theorem answerOf_assignBlock (h : Stands table c syms) (hslots : ∀ k ∈ c.constraints, k.slot = 0)
    {n : ℕ} (hn : n < 32) (row : ℕ → LegalityResponse) : (emitSource rules actions).answerOf
        (syms.foldl (assignClause (NamePools.ofActions rules actions)) row n) =
      if c.names n then c.reachedAnswer (NamePools.ofActions rules actions)
      else (emitSource rules actions).answerOf (row n) := by
  have hoperand : c.operand % 256 = 0 := by
    rw [operand]
    split
    · next k rest hk => exact hslots k (hk ▸ mem_cons_self)
    · rfl
  have hsyms : ∀ s ∈ syms, ∀ tc ∈ s.types, tc.slot = c.operand % 256 := by
    intro s hs tc htc
    obtain ⟨k, hk, hslot⟩ := (h.slots s hs tc.slot).mp ⟨tc, htc, rfl⟩
    rw [hoperand, ← hslot, hslots k hk]
  rw [LastWrite.val_foldl_const (assignClause (ofActions rules actions))
    (fun row => (emitSource rules actions).answerOf (row n))
    (fun s hs r => answerOf_assignClause h hs (hsyms s hs) hn r) row]
  have hnames : (syms.any fun s => s.types.any fun tc => tc.type.compactId = n) = c.names n := by
    have hiff := h.names n
    rw [Bool.eq_iff_iff, names]
    simpa using hiff
  rw [hnames]

/-- The entry of a column is that of the last clause that names its type. -/
theorem answerOf_row (h : Forall₂ (Stands table) clauses blocks)
    (hslots : ∀ c ∈ clauses, ∀ k ∈ c.constraints, k.slot = 0) {n : ℕ} (hn : n < 32) :
    (emitSource rules actions).answerOf
        (blocks.flatten.foldl (assignClause (NamePools.ofActions rules actions))
          (fun _ => unsupported) n) =
      (clauses.reverse.find? fun c => c.names n).bind
        (DeclaredClause.reachedAnswer (NamePools.ofActions rules actions)) := by
  have hpairs : Forall₂ (fun c syms => ∀ row : ℕ → LegalityResponse,
      (emitSource rules actions).answerOf
          (foldl (assignClause (ofActions rules actions)) row syms n) =
        if c.names n then c.reachedAnswer (ofActions rules actions)
        else (emitSource rules actions).answerOf (row n)) clauses blocks := by
    refine ((forall₂_and_left clauses blocks).mpr ⟨hslots, h⟩).imp fun c syms hc row => ?_
    exact answerOf_assignBlock hc.2 hc.1 hn row
  rw [foldl_flatten, LastWrite.val_foldl
    (fun row syms => foldl (assignClause (ofActions rules actions)) row syms)
    (fun row => (emitSource rules actions).answerOf (row n)) (fun c => c.names n)
    (reachedAnswer (ofActions rules actions)) hpairs]
  cases clauses.reverse.find? fun c => c.names n with
  | some c | none => rfl

theorem answerOf_queryMatrix (t : GeneratedTables) (op : MirInstructionOpCode) (q : FilledQuery) :
    t.answerOf (t.queryMatrix op q.query) =
      if (q.query.slots 0).compactId < 32 then
        t.answerOf (t.primaryMatrix op (q.query.slots 0).compactId)
      else none := by
  rw [GeneratedTables.queryMatrix, q.primaryCid_eq]
  split
  · split
    · rfl
    · next hnot => rw [answerOf_unsupported t (not_not.mp hnot)]; rfl
  · rfl

/-! ## The choice of the table -/

theorem any_slot (h : Stands table c syms) (p : ℕ → Bool) :
    (syms.any fun s => s.types.any fun tc => p tc.slot) = c.constraints.any fun k => p k.slot := by
  rw [Bool.eq_iff_iff, List.any_eq_true, List.any_eq_true]
  constructor
  · rintro ⟨s, hs, hany⟩
    obtain ⟨tc, htc, hp⟩ := List.any_eq_true.mp hany
    obtain ⟨k, hk, hslot⟩ := (h.slots s hs tc.slot).mp ⟨tc, htc, rfl⟩
    exact ⟨k, hk, hslot.symm ▸ hp⟩
  · rintro ⟨k, hk, hp⟩
    obtain ⟨s, hs⟩ := List.exists_mem_of_ne_nil syms h.ne_nil
    obtain ⟨tc, htc, hslot⟩ := (h.slots s hs k.slot).mpr ⟨k, hk, rfl⟩
    exact ⟨s, hs, List.any_eq_true.mpr ⟨tc, htc, hslot.symm ▸ hp⟩⟩

theorem types_isEmpty (h : Stands table c syms) (hs : s ∈ syms) :
    s.types.isEmpty = c.constraints.isEmpty := by
  rw [Bool.eq_iff_iff, List.isEmpty_iff, List.isEmpty_iff, List.eq_nil_iff_forall_not_mem,
    List.eq_nil_iff_forall_not_mem]
  constructor
  · intro hnone k hk
    obtain ⟨tc, htc, -⟩ := (h.slots s hs k.slot).mpr ⟨k, hk, rfl⟩
    exact hnone tc htc
  · intro hnone tc htc
    obtain ⟨k, hk, -⟩ := (h.slots s hs tc.slot).mp ⟨tc, htc, rfl⟩
    exact hnone k hk

theorem all_isEmpty (h : Stands table c syms) :
    (syms.all fun s => s.types.isEmpty) = c.constraints.isEmpty := by
  obtain ⟨s, hs⟩ := List.exists_mem_of_ne_nil syms h.ne_nil
  rw [Bool.eq_iff_iff, List.all_eq_true]
  constructor
  · intro hall
    rw [← types_isEmpty h hs]
    exact hall s hs
  · intro hempty s' hs'
    rw [types_isEmpty h hs']
    exact hempty

section

variable {clauses : List DeclaredClause} {blocks : List (List ClauseSymbol)}
  (h : Forall₂ (Stands table) clauses blocks)
include h

theorem isHeterogeneous_eq : LegalizeActionSymbol.isHeterogeneous blocks.flatten =
      clauses.any fun c => c.constraints.any fun k => 0 < k.slot := by
  rw [isHeterogeneous]
  induction h with
  | nil => rfl
  | cons hstands _ ih =>
    rw [flatten_cons, any_append, any_cons, ih, any_slot hstands fun slot => 0 < slot]

theorem all_typeless :
    (blocks.flatten.all fun s => s.types.isEmpty) = clauses.all fun c => c.constraints.isEmpty := by
  induction h with
  | nil => rfl
  | cons hstands _ ih =>
    rw [flatten_cons, all_append, all_cons, all_isEmpty hstands, ih]

theorem isWildcard_eq : LegalizeActionSymbol.isWildcard blocks.flatten =
      (!clauses.isEmpty && clauses.all fun c => c.constraints.isEmpty) := by
  rw [isWildcard, all_typeless h]
  cases h with
  | nil => rfl
  | cons hstands _ =>
    obtain ⟨s, rest, rfl⟩ := exists_cons_of_ne_nil hstands.ne_nil
    rfl

end

theorem wildcardHandlerId_eq {d : Dispatch} (h : Carries table d s) (htypes : s.types = [])
    (pools : NamePools) : pools.wildcardHandlerId s = pools.handlerOrStrId s ∧ s.targetCid = 0 ∧
      s.kind ≠ .Unsupported := by
  rw [wildcardHandlerId, handlerOrStrId, ClauseSymbol.targetCid]
  cases h with
  | nothing _ _ _ htyped | libcall _ htyped => exact absurd htypes htyped
  | handler hkind hnamed _ hnone =>
    rw [hkind, hnamed, hnone]
    exact ⟨rfl, rfl, LegalizeActionKind.noConfusion⟩
  | rules hkind _ _ hhandler _ hnone =>
    rw [hkind, hhandler, hnone]
    exact ⟨rfl, rfl, LegalizeActionKind.noConfusion⟩

theorem answerOf_wildcardResponse (h : Forall₂ (Stands table) (c :: clauses) blocks)
    (hempty : c.constraints = []) : (emitSource rules actions).answerOf
        (wildcardResponse (NamePools.ofActions rules actions) blocks.flatten) =
      c.reachedAnswer (NamePools.ofActions rules actions) ∧
    (wildcardResponse (NamePools.ofActions rules actions) blocks.flatten).action ≠
      .Unsupported := by
  cases h with
  | @cons _ syms _ blocks hstands _ =>
    obtain ⟨s, rest, rfl⟩ := exists_cons_of_ne_nil hstands.ne_nil
    have hs : s ∈ s :: rest := mem_cons_self
    have htypes : s.types = [] := by
      rw [← List.isEmpty_iff, types_isEmpty hstands hs, hempty]
      rfl
    have hoperand : 0 = c.operand % 256 := by
      simp [operand, hempty]
    have hcarries := hstands.carries s hs
    obtain ⟨hid, hcid, hkind⟩ :=
      wildcardHandlerId_eq hcarries htypes (ofActions rules actions)
    refine ⟨?_, hkind⟩
    rw [← answerOf_symbol (hstands.kind s hs) (hstands.targetType s hs) hcarries hoperand,
      hcid, ← hid]
    rfl

/-! ## The query -/

theorem not_wildcard (h : (clauses.any fun c => c.constraints.any fun k => 0 < k.slot) = true) :
    (!clauses.isEmpty && clauses.all fun c => c.constraints.isEmpty) = false := by
  obtain ⟨c, hc, hk⟩ := List.any_eq_true.mp h
  obtain ⟨k, hk, -⟩ := List.any_eq_true.mp hk
  rw [Bool.and_eq_false_iff]
  right
  rw [List.all_eq_false]
  refine ⟨c, hc, ?_⟩
  rw [List.isEmpty_iff]
  exact List.ne_nil_of_mem hk

theorem fallThrough {t : GeneratedTables} {fallback : LegalityResponse}
    (h : t.answerOf fallback = none) (run : Option LegalityResponse) :
    (match run with
      | none => none
      | some resp => if resp.action ≠ LegalizeActionKind.Unsupported then some resp
          else some fallback).map
        t.answerOf = run.map t.answerOf := by
  cases run with
  | none => rfl
  | some resp =>
    by_cases haction : resp.action = .Unsupported
    · rw [map_some, answerOf_unsupported t haction]
      simp only [haction, ne_eq, not_true_eq_false, if_false, map_some, h]
    · simp only [haction, ne_eq, not_false_eq_true, if_true]

theorem answerOf_query (hnodup : (actions.map Prod.fst).Nodup) {op : MirInstructionOpCode}
    (hrow : Row table clauses (valuesAt actions op)) (hop : q.query.opcode = some op) :
    ((emitSource rules actions).query q.query).map (emitSource rules actions).answerOf =
      (takenClause clauses q).map fun taken =>
        taken.bind (DeclaredClause.reachedAnswer (NamePools.ofActions rules actions)) := by
  obtain ⟨blocks, hblocks, hsyms⟩ := hrow
  have hhet := hsyms ▸ isHeterogeneous_eq hblocks
  have hwild := hsyms ▸ isWildcard_eq hblocks
  have hwildcard : (emitSource rules actions).wildcardActions op = _ :=
    wildcardActions_eq hnodup op
  have hmatchers : (emitSource rules actions).matchers.lookup op = _ := lookup_matchers hnodup op
  have hmatrix : (emitSource rules actions).primaryMatrix op = _ := primaryMatrix_eq hnodup op
  rw [hhet] at hmatchers hmatrix
  rw [hwild] at hwildcard hmatrix
  rw [takenClause, tableFormat]
  simp only [GeneratedTables.query, hop, GeneratedTables.queryMatchers]
  by_cases hmatcher : (clauses.any fun c => c.constraints.any fun k => 0 < k.slot) = true
  · rw [if_pos hmatcher] at hmatchers ⊢
    rw [not_wildcard hmatcher, if_neg Bool.false_ne_true] at hwildcard
    rw [hmatcher, Bool.true_or, if_pos rfl] at hmatrix
    have hfallback : (emitSource rules actions).answerOf
        ((emitSource rules actions).queryMatrix op q.query) = none := by
      rw [answerOf_queryMatrix, hmatrix]
      split
      · rfl
      · rfl
    rw [hwildcard, if_neg (fun h => h rfl), hmatchers]
    refine (fallThrough hfallback _).trans ?_
    rw [hsyms]
    exact answerOf_runMatcher hblocks q
  · rw [if_neg hmatcher] at hmatchers ⊢
    rw [hmatchers]
    rw [Bool.eq_false_iff.mpr hmatcher, Bool.false_or] at hmatrix
    by_cases hall : (!clauses.isEmpty && clauses.all fun c => c.constraints.isEmpty) = true
    · rw [if_pos hall] at hwildcard ⊢
      cases clauses with
      | nil => exact absurd hall Bool.false_ne_true
      | cons c clauses =>
        have hempty : c.constraints = [] := by
          rw [Bool.and_eq_true, all_cons, Bool.and_eq_true] at hall
          exact isEmpty_iff.mp hall.2.1
        obtain ⟨hanswer, haction⟩ := answerOf_wildcardResponse hblocks hempty
        rw [hwildcard, hsyms, if_pos haction]
        exact congrArg some hanswer
    · rw [if_neg hall] at hwildcard hmatrix ⊢
      rw [hwildcard, if_neg (fun h => h rfl)]
      have hslots : ∀ c ∈ clauses, ∀ k ∈ c.constraints, k.slot = 0 := by
        intro c hc k hk
        have hnot : ¬0 < k.slot := fun hpos => hmatcher
          (any_eq_true.mpr ⟨c, hc, any_eq_true.mpr ⟨k, hk, decide_eq_true hpos⟩⟩)
        exact Nat.eq_zero_of_not_pos hnot
      refine congrArg some ?_
      rw [answerOf_queryMatrix, hmatrix, takenByMatrix, hsyms]
      split
      · next hlt => exact answerOf_row hblocks hslots hlt
      · rfl

end

/-!
## When the generated query answers what the file declares

The query returns the answer of the first clause that it satisfies exactly if the clause
that the table of the opcode takes reaches that answer.
-/

open Mir Legalizer LegalizeActionPass Accumulation GeneratedTables

/-! ## The query of an accepted file -/

section

variable {table table' : SymbolTable} {file : LegalizeActionFile}
  {actions : List LegalizeActionSymbol}

theorem answers_iff_taken (h : run table file = some (table', actions)) (q : FilledQuery)
    (answer : Option Answer) :
    (emitSource (ruleNames table'.symbols) actions).Answers q answer ↔
      ∃ taken, takenClause (clausesFor table' file q) q = some taken ∧
        taken.bind (DeclaredClause.reachedAnswer
          (NamePools.ofActions (ruleNames table'.symbols) actions)) = answer := by
  have hquery : ((emitSource (ruleNames table'.symbols) actions).query q.query).map
      (emitSource (ruleNames table'.symbols) actions).answerOf =
      (takenClause (clausesFor table' file q) q).map fun taken => taken.bind
        (reachedAnswer
          (ofActions (ruleNames table'.symbols) actions)) := by
    rw [clausesFor]
    cases hop : q.query.opcode with
    | none =>
      have hnone : takenByMatrix q [] = none := by
        rw [takenByMatrix]
        split
        · rfl
        · rfl
      simp only [GeneratedTables.query, hop]
      exact congrArg (fun taken => some (bind taken _)) hnone.symm
    | some op => exact answerOf_query (nodup_of_run h) (row_of_run h op) hop
  have hanswers : (emitSource (ruleNames table'.symbols) actions).Answers q answer ↔
      ((emitSource (ruleNames table'.symbols) actions).query q.query).map
        (emitSource (ruleNames table'.symbols) actions).answerOf = some answer := by
    rw [map_eq_some_iff]
    rfl
  rw [hanswers, hquery, map_eq_some_iff]

end

/-! ## A clause without types beside one with types -/

def int32 : TypeSymbol := ⟨"i32", true, 32, 7⟩

def int64 : TypeSymbol := ⟨"i64", true, 64, 8⟩

def mulTable : SymbolTable where
  symbols := [.type int32, .type int64, .irInstruction "MUL" .MUL]
  rules_nodup := nodup_nil

def mulFile : LegalizeActionFile where
  typeSets := []
  groups := []
  legalizeInstrDecls :=
    [⟨"MUL", [⟨.Legal, [⟨"i32", none⟩], none, none, none, none⟩,
      ⟨.Lower, [], none, none, some "lowerMul", none⟩], none⟩]

def mulActions : List LegalizeActionSymbol :=
  [(.MUL, [⟨.Legal, [⟨int32, none⟩], none, none, none, none⟩,
    ⟨.Lower, [], none, none, some "lowerMul", none⟩])]

theorem run_mulFile : run mulTable mulFile = some (mulTable, mulActions) := by
  rfl

/-- A query for a multiplication of registers of one type. -/
def mulQuery (type : TypeSymbol) : FilledQuery where
  query := ⟨some .MUL, [], 2,
    fun i => if i.val < 2 then ⟨none, type.compactId, .Register⟩ else .empty, 0, false⟩
  void := fun h => absurd h (Nat.succ_ne_zero 1)

end EzPacker.ActionTables
