import EzPacker.SpillCode.RewriteSpilledRegisters

/-!
# The temporaries of an instruction

While an instruction is rewritten, its spilled registers get temporaries in the order in
which they are met. The first access of a register decides whether it is reloaded in
front of the instruction and whether it is stored behind it.
-/

namespace EzPacker.SpillCode

open List.Forall₂ Bool Option Mir RegAlloc KeyedSet

abbrev Access := MirRegisterRef × MirOperandFlag

def Access.flagged (a : Access) : Bool := a.2.isRead || a.2.isWrite

/-- The first access to a register that reads or writes it. -/
def firstAccess (accs : List Access) (k : RegKey) : Option Access :=
  accs.find? fun a => decide (regKey a.1 = k) && a.flagged

def loadsIn (accs : List Access) (k : RegKey) : Bool := (firstAccess accs k).any (·.2.isRead)

def storesIn (accs : List Access) (k : RegKey) : Bool := (firstAccess accs k).any (·.2.isWrite)

theorem firstAccess_append (accs : List Access) (a : Access) (k : RegKey) :
    firstAccess (accs ++ [a]) k =
      (firstAccess accs k).or (if regKey a.1 = k ∧ a.flagged then some a else none) := by
  unfold firstAccess
  rw [List.find?_append, List.find?_singleton]
  simp only [and_eq_true, decide_eq_true_eq]

variable {accs : List Access} {k : RegKey}

theorem firstAccess_isSome :
    (firstAccess accs k).isSome ↔ ∃ a ∈ accs, regKey a.1 = k ∧ a.flagged := by
  unfold firstAccess
  rw [List.find?_isSome]
  simp only [and_eq_true, decide_eq_true_eq]

namespace SpillInput

variable (j : SpillInput)

/-- An instruction that gives a temporary the value of a register. -/
inductive Reloads (k : RegKey) (temp : MirRegisterRef) : Instruction → Prop
  | slot {size : Option ℕ} {slot : ℕ} : j.rematConst k = none →
      j.slots.spilledRegs k = some slot → Reloads k temp (emitReload size temp slot)
  | const {inst : Instruction} : definingInst j.f k = some inst →
      isRematerializable (some inst) = true → Reloads k temp (reMaterialize temp inst)

@[simp] theorem job_spilledNodes : j.job.spilledNodes = j.spilledNodes := rfl

@[simp] theorem job_definingInstMap : j.job.definingInstMap = definingInst j.f := rfl

theorem rematConst_isSome (k : RegKey) :
    (j.rematConst k).isSome = isRematerializable (definingInst j.f k) := by
  unfold rematConst
  cases hdef : definingInst j.f k with
  | none => rfl
  | some inst =>
    cases hremat : isRematerializable (some inst) with
    | false => simp [hremat]
    | true =>
      cases hop : inst.operands[1]? with
      | none => simp [isRematerializable, hop] at hremat
      | some op =>
        simp only [hremat, if_true]
        rw [isSome_map, hop]
        rfl

/-! ### The slots -/

variable {ctx : RegisterAllocatorCtx} {r : MirRegisterRef} {a : Access}

section Slots

variable {j}

/-- What creating slots keeps. -/
structure SlotsKept (ctx : RegisterAllocatorCtx) : Prop where
  unspillableRegs : ctx.unspillableRegs = j.ctx.unspillableRegs
  nextId : ctx.nextId = j.ctx.nextId
  stackObjects : j.ctx.stackObjects ≤ ctx.stackObjects
  slot_lt : ∀ k slot, ctx.spilledRegs k = some slot → slot < ctx.stackObjects
  slot_inj : ∀ k k' slot, ctx.spilledRegs k = some slot → ctx.spilledRegs k' = some slot → k = k'
  old : ∀ k slot, ctx.spilledRegs k = some slot →
    j.ctx.spilledRegs k = some slot ∨ j.ctx.stackObjects ≤ slot

theorem SlotsKept.createSlot (h : j.SlotsKept ctx) (r : MirRegisterRef) :
    j.SlotsKept (createSlot (definingInst j.f) ctx r) := by
  unfold SpillCode.createSlot
  split
  · exact h
  · next hskip =>
      split
      · exact h
      · have hcases :
          ∀ k slot, Function.update ctx.spilledRegs (regKey r) (some ctx.stackObjects) k =
            some slot → k = regKey r ∧ slot = ctx.stackObjects ∨
              k ≠ regKey r ∧ ctx.spilledRegs k = some slot := by
          intro k slot hk
          by_cases hkr : k = regKey r
          · rw [hkr, Function.update_self] at hk
            exact Or.inl ⟨hkr, (some.inj hk).symm⟩
          · rw [Function.update_of_ne hkr] at hk
            exact Or.inr ⟨hkr, hk⟩
        constructor
        case unspillableRegs => exact h.unspillableRegs
        case nextId => exact h.nextId
        case stackObjects => exact h.stackObjects.trans (Nat.le_succ _)
        case slot_lt =>
          intro k slot hk
          rcases hcases k slot hk with ⟨-, rfl⟩ | ⟨-, hk⟩
          · exact Nat.lt_succ_self _
          · exact Nat.lt_succ_of_lt (h.slot_lt k slot hk)
        case slot_inj =>
          intro k k' slot hk hk'
          rcases hcases k slot hk with ⟨rfl, rfl⟩ | ⟨-, hk⟩ <;>
            rcases hcases k' _ hk' with ⟨rfl, hs⟩ | ⟨-, hk'⟩
          · rfl
          · exact absurd (h.slot_lt k' _ hk') (lt_irrefl _)
          · rw [hs] at hk
            exact absurd (h.slot_lt k _ hk) (lt_irrefl _)
          · exact h.slot_inj k k' slot hk hk'
        case old =>
          intro k slot hk
          rcases hcases k slot hk with ⟨-, rfl⟩ | ⟨-, hk⟩
          · exact Or.inr h.stackObjects
          · exact h.old k slot hk

theorem SlotsKept.foldl (h : j.SlotsKept ctx) (nodes : List MirRegisterRef) :
    j.SlotsKept (nodes.foldl (SpillCode.createSlot (definingInst j.f)) ctx) := by
  induction nodes generalizing ctx with
  | nil => exact h
  | cons r nodes ih => exact ih (h.createSlot r)

variable (j)

theorem slotsKept : j.SlotsKept j.slots :=
  SlotsKept.foldl ⟨rfl, rfl, le_rfl, j.slot_lt, j.slot_inj, fun _ _ h => Or.inl h⟩ j.spilledNodes

variable {j}

theorem isSome_createSlot (h : (ctx.spilledRegs k).isSome) (r : MirRegisterRef) :
    ((SpillCode.createSlot (definingInst j.f) ctx r).spilledRegs k).isSome := by
  unfold SpillCode.createSlot
  split
  · exact h
  · split
    · exact h
    · by_cases hk : k = regKey r
      · simp [hk]
      · simpa [Function.update_of_ne hk] using h

theorem isSome_foldl (nodes : List MirRegisterRef) (h : (ctx.spilledRegs k).isSome) :
    ((nodes.foldl (SpillCode.createSlot (definingInst j.f)) ctx).spilledRegs k).isSome := by
  induction nodes generalizing ctx with
  | nil => exact h
  | cons r nodes ih => exact ih (isSome_createSlot h r)

theorem slot_isSome (h : j.spills r = true) (hremat : j.rematConst (regKey r) = none) :
    (j.slots.spilledRegs (regKey r)).isSome := by
  rw [spills, and_eq_true, contains_iff, not_eq_true'] at h
  obtain ⟨hnode, hunspillable⟩ := h
  have hnot : isRematerializable (definingInst j.f (regKey r)) = false := by
    rw [← rematConst_isSome, hremat]
    rfl
  have hgen : ∀ (nodes : List MirRegisterRef) (ctx : RegisterAllocatorCtx),
      ctx.unspillableRegs = j.ctx.unspillableRegs → regKey r ∈ keys regKey nodes →
        ((nodes.foldl (SpillCode.createSlot (definingInst j.f)) ctx).spilledRegs
          (regKey r)).isSome := by
    intro nodes
    induction nodes with
    | nil => exact fun _ _ hmem => nomatch hmem
    | cons r' nodes ih =>
      intro ctx hctx hmem
      rw [List.foldl_cons]
      by_cases heq : regKey r = regKey r'
      · refine isSome_foldl nodes ?_
        have hno : contains regKey ctx.unspillableRegs r' = false := by
          rw [contains_eq_false, hctx, ← heq]
          exact contains_eq_false.mp hunspillable
        unfold SpillCode.createSlot
        rw [hno, ← heq, hnot]
        by_cases hsome : (ctx.spilledRegs (regKey r)).isSome
        · simp [hsome]
        · simp [hsome]
      · have hkeep : (SpillCode.createSlot (definingInst j.f) ctx r').unspillableRegs =
            j.ctx.unspillableRegs := by
          unfold SpillCode.createSlot
          split
          · exact hctx
          · split <;> exact hctx
        exact ih _ hkeep ((List.mem_cons.mp hmem).resolve_left heq)
  exact hgen j.spilledNodes j.ctx rfl hnode

end Slots

/-! ### The accesses of an instruction -/

theorem isOld_of_spills (h : j.spills r = true) : j.IsOld (regKey r) := by
  rw [spills, and_eq_true, contains_iff, mem_keys] at h
  obtain ⟨⟨r', hr', hkey⟩, -⟩ := h
  rw [← hkey]
  intro id hid
  have hvirtual := j.isVirtual r' hr'
  rw [regKey, if_pos hvirtual] at hid
  obtain rfl := RegKey.vreg.inj hid
  exact j.node_lt r' hr'

/-- What holds of the context in front of an instruction. -/
structure CtxKept (ctx : RegisterAllocatorCtx) : Prop where
  unspillable : ∀ r, j.IsOld (regKey r) →
    contains regKey ctx.unspillableRegs r = contains regKey j.ctx.unspillableRegs r
  spilledRegs : ctx.spilledRegs = j.slots.spilledRegs
  nextId : j.ctx.nextId ≤ ctx.nextId

/-- What the accesses met so far made of an instruction. -/
structure Touched (ctx : RegisterAllocatorCtx) (accs : List Access) (s : Rewriting) : Prop where
  kept : j.CtxKept s.ctx
  nextId : s.ctx.nextId = ctx.nextId + s.reloadedTemps.length
  nodup : (s.reloadedTemps.map Prod.fst).Nodup
  keys : ∀ k, k ∈ s.reloadedTemps.map Prod.fst ↔
    ∃ a ∈ accs, regKey a.1 = k ∧ a.flagged = true ∧ j.spills a.1 = true
  ids : ∀ i e, s.reloadedTemps[i]? = some e → e.2.isVirtual = true ∧ e.2.id = ctx.nextId + i
  before : List.Forall₂ (fun e inst => j.Reloads e.1 e.2 inst)
    (s.reloadedTemps.filter fun e => loadsIn accs e.1) s.before
  posts : List.Forall₂ (fun e p => p.1 = e.2 ∧ j.slots.spilledRegs e.1 = some p.2)
    (s.reloadedTemps.filter fun e => storesIn accs e.1 && (j.rematConst e.1).isNone) s.postSpills

variable {j}

theorem lookup_eq_none_iff {temps : List (RegKey × MirRegisterRef)} :
    temps.lookup k = none ↔ k ∉ temps.map Prod.fst := by
  rw [List.lookup_eq_none_iff, List.mem_map]
  constructor
  · rintro h ⟨e, he, rfl⟩
    simpa using h e he
  · intro h e he
    rw [bne_iff_ne]
    rintro rfl
    exact h ⟨e, he, rfl⟩

theorem not_node_of_not_old (h : ¬ j.IsOld (regKey r)) :
    contains regKey j.spilledNodes r = false := by
  rw [contains_eq_false, mem_keys]
  rintro ⟨r', hr', hkey⟩
  refine h fun id hid => ?_
  have hvirtual := j.isVirtual r' hr'
  rw [← hkey, regKey, if_pos hvirtual] at hid
  obtain rfl := RegKey.vreg.inj hid
  exact j.node_lt r' hr'

theorem rewriteRegisterOp_of_not_old (h : ¬ j.IsOld (regKey r)) (isRead isWrite : Bool)
    (s : Rewriting) : j.job.rewriteRegisterOp r isRead isWrite s = (s, none) := by
  unfold SpillJob.rewriteRegisterOp
  have hnot : contains regKey j.job.spilledNodes r = false := not_node_of_not_old h
  rw [hnot]
  simp

theorem rewriteRegisterOp_eq {s : Rewriting} (h : j.Touched ctx accs s)
    (hold : j.IsOld (regKey a.1)) : j.job.rewriteRegisterOp a.1 a.2.isRead a.2.isWrite s =
      if j.spills a.1 ∧ a.flagged then
        match s.reloadedTemps.lookup (regKey a.1) with
        | some temp => (s, some temp)
        | none =>
          let r := j.job.newTemp a.1 a.2.isRead a.2.isWrite s
          (r.1, some r.2)
      else (s, none) := by
  unfold SpillJob.rewriteRegisterOp
  rw [h.kept.unspillable a.1 hold]
  by_cases hspills : j.spills a.1 = true
  · have hin : ¬ (¬ contains regKey j.job.spilledNodes a.1 = true ∨
        contains regKey j.ctx.unspillableRegs a.1 = true) := by
      rw [spills, and_eq_true, not_eq_true'] at hspills
      rw [hspills.2]
      simpa using hspills.1
    rw [if_neg hin]
    by_cases hflagged : a.flagged = true
    · have hno : ¬ (¬ a.2.isRead = true ∧ ¬ a.2.isWrite = true) := by
        rw [Access.flagged, or_eq_true] at hflagged
        tauto
      exact (if_neg hno).trans (if_pos ⟨hspills, hflagged⟩).symm
    · have hno : ¬ a.2.isRead = true ∧ ¬ a.2.isWrite = true := by
        rw [Access.flagged, or_eq_true] at hflagged
        tauto
      rw [if_pos hno, if_neg fun hc => hflagged hc.2]
  · have hout : ¬ contains regKey j.job.spilledNodes a.1 = true ∨
        contains regKey j.ctx.unspillableRegs a.1 = true := by
      rw [spills, and_eq_true, not_eq_true', eq_false_iff] at hspills
      change ¬ contains regKey j.spilledNodes a.1 = true ∨ _
      tauto
    rw [if_pos hout, if_neg fun hc => hspills hc.1]

theorem loadsIn_append (h : (firstAccess accs k).isSome) :
    loadsIn (accs ++ [a]) k = loadsIn accs k := by
  obtain ⟨b, hb⟩ := isSome_iff_exists.mp h
  rw [loadsIn, loadsIn, firstAccess_append, hb, some_or]

theorem storesIn_append (h : (firstAccess accs k).isSome) :
    storesIn (accs ++ [a]) k = storesIn accs k := by
  obtain ⟨b, hb⟩ := isSome_iff_exists.mp h
  rw [storesIn, storesIn, firstAccess_append, hb, some_or]

theorem firstAccess_new (hflagged : a.flagged = true)
    (h : (firstAccess accs (regKey a.1)).isSome = false) :
    firstAccess (accs ++ [a]) (regKey a.1) = some a := by
  rw [firstAccess_append, isSome_eq_false_iff.mp h |> isNone_iff_eq_none.mp]
  simp [hflagged]

section Touch

variable {ctx : RegisterAllocatorCtx} {accs : List Access} {s : Rewriting}

theorem Touched.firstAccess_isSome (h : j.Touched ctx accs s)
    {e : RegKey × MirRegisterRef} (he : e ∈ s.reloadedTemps) : (firstAccess accs e.1).isSome := by
  obtain ⟨a, ha, hkey, hflagged, -⟩ := (h.keys e.1).mp (List.mem_map_of_mem he)
  exact SpillCode.firstAccess_isSome.mpr ⟨a, ha, hkey, hflagged⟩

theorem Touched.append_old (h : j.Touched ctx accs s)
    (ha : a.flagged = true → j.spills a.1 = true → regKey a.1 ∈ s.reloadedTemps.map Prod.fst) :
    j.Touched ctx (accs ++ [a]) s := by
  have hloads : ∀ e ∈ s.reloadedTemps, loadsIn (accs ++ [a]) e.1 = loadsIn accs e.1 :=
    fun e he => loadsIn_append (h.firstAccess_isSome he)
  have hstores : ∀ e ∈ s.reloadedTemps, storesIn (accs ++ [a]) e.1 = storesIn accs e.1 :=
    fun e he => storesIn_append (h.firstAccess_isSome he)
  refine ⟨h.kept, h.nextId, h.nodup, fun k => ?_, h.ids, ?_, ?_⟩
  · rw [h.keys]
    constructor
    · rintro ⟨b, hb, hrest⟩
      exact ⟨b, List.mem_append_left _ hb, hrest⟩
    · rintro ⟨b, hb, hkey, hflagged, hspills⟩
      rcases List.mem_append.mp hb with hb | hb
      · exact ⟨b, hb, hkey, hflagged, hspills⟩
      · obtain rfl := List.mem_singleton.mp hb
        rw [← hkey]
        exact (h.keys _).mp (ha hflagged hspills)
  · rw [List.filter_congr hloads]
    exact h.before
  · rw [List.filter_congr fun e he => by rw [hstores e he]]
    exact h.posts

/-- The first access of a register gives it a temporary. -/
theorem Touched.newTemp (h : j.Touched ctx accs s) (hflagged : a.flagged = true)
    (hspills : j.spills a.1 = true) (hnew : regKey a.1 ∉ s.reloadedTemps.map Prod.fst) :
    j.Touched ctx (accs ++ [a]) (j.job.newTemp a.1 a.2.isRead a.2.isWrite s).1 := by
  have hfirst : (firstAccess accs (regKey a.1)).isSome = false := by
    rw [eq_false_iff]
    intro hsome
    obtain ⟨b, hb, hkey, hbflag⟩ := SpillCode.firstAccess_isSome.mp hsome
    have hbspills : j.spills b.1 = true := by
      unfold spills contains at hspills ⊢
      rwa [hkey]
    exact hnew ((h.keys _).mpr ⟨b, hb, hkey, hbflag, hbspills⟩)
  have hfirst' := firstAccess_new hflagged hfirst
  have hloads : ∀ e ∈ s.reloadedTemps, loadsIn (accs ++ [a]) e.1 = loadsIn accs e.1 :=
    fun e he => loadsIn_append (h.firstAccess_isSome he)
  have hstores : ∀ e ∈ s.reloadedTemps, storesIn (accs ++ [a]) e.1 = storesIn accs e.1 :=
    fun e he => storesIn_append (h.firstAccess_isSome he)
  have hloadsNew : loadsIn (accs ++ [a]) (regKey a.1) = a.2.isRead := by
    rw [loadsIn, hfirst']
    rfl
  have hstoresNew : storesIn (accs ++ [a]) (regKey a.1) = a.2.isWrite := by
    rw [storesIn, hfirst']
    rfl
  have hremat := j.rematConst_isSome (regKey a.1)
  constructor
  case kept =>
    refine ⟨fun r hr => ?_, h.kept.spilledRegs, h.kept.nextId.trans (Nat.le_succ _)⟩
    rw [← h.kept.unspillable r hr, Bool.eq_iff_iff, contains_iff, contains_iff]
    change regKey r ∈ KeyedSet.keys regKey (KeyedSet.insert regKey s.ctx.unspillableRegs _) ↔ _
    rw [mem_keys_insert]
    refine or_iff_left fun hkey => ?_
    exact absurd (hr s.ctx.nextId hkey) (not_lt.mpr h.kept.nextId)
  case nextId =>
    change s.ctx.nextId + 1 = ctx.nextId + (s.reloadedTemps ++ [_]).length
    rw [List.length_append, h.nextId]
    rfl
  case nodup =>
    change ((s.reloadedTemps ++ [_]).map Prod.fst).Nodup
    rw [List.map_append, List.nodup_append]
    refine ⟨h.nodup, List.nodup_singleton _, ?_⟩
    rintro k hk _ hk' rfl
    rw [List.map_singleton, List.mem_singleton] at hk'
    rw [hk'] at hk
    exact hnew hk
  case keys =>
    intro k
    change k ∈ (s.reloadedTemps ++ [_]).map Prod.fst ↔ _
    rw [List.map_append, List.mem_append, List.map_singleton, List.mem_singleton, h.keys]
    constructor
    · rintro (⟨b, hb, hrest⟩ | rfl)
      · exact ⟨b, List.mem_append_left _ hb, hrest⟩
      · exact ⟨a, by simp, rfl, hflagged, hspills⟩
    · rintro ⟨b, hb, hkey, hrest⟩
      rcases List.mem_append.mp hb with hb | hb
      · exact Or.inl ⟨b, hb, hkey, hrest⟩
      · exact Or.inr (by rw [← hkey, List.mem_singleton.mp hb])
  case ids =>
    intro i e he
    change (s.reloadedTemps ++ [_])[i]? = some e at he
    rcases Nat.lt_trichotomy i s.reloadedTemps.length with hi | hi | hi
    · rw [List.getElem?_append_left hi] at he
      exact h.ids i e he
    · subst hi
      rw [List.getElem?_concat_length] at he
      obtain rfl := some.inj he
      exact ⟨rfl, h.nextId⟩
    · rw [List.getElem?_eq_none (by simp; omega)] at he
      cases he
  case before =>
    change List.Forall₂ _ ((s.reloadedTemps ++ [_]).filter _) (s.before ++ _)
    rw [List.filter_append, List.filter_congr hloads]
    refine List.rel_append h.before ?_
    rw [List.filter_singleton, hloadsNew]
    cases a.2.isRead with
    | false => exact nil
    | true =>
      simp only [if_true, cond_true, job_definingInstMap]
      cases hconst : j.rematConst (regKey a.1) with
      | some op =>
        rw [hconst] at hremat
        cases hdef : definingInst j.f (regKey a.1) with
        | none =>
          rw [hdef] at hremat
          cases hremat
        | some inst =>
          rw [hdef] at hremat
          rw [← hremat]
          exact cons (Reloads.const hdef hremat.symm) nil
      | none =>
        rw [hconst] at hremat
        obtain ⟨slot, hslot⟩ := isSome_iff_exists.mp (slot_isSome hspills hconst)
        rw [← hremat, h.kept.spilledRegs, hslot]
        exact cons (Reloads.slot hconst hslot) nil
  case posts =>
    change List.Forall₂ _ ((s.reloadedTemps ++ [_]).filter _) (s.postSpills ++ _)
    rw [List.filter_append, List.filter_congr fun e he => by rw [hstores e he]]
    refine List.rel_append h.posts ?_
    rw [List.filter_singleton, hstoresNew]
    cases a.2.isWrite with
    | false => exact nil
    | true =>
      cases hconst : j.rematConst (regKey a.1) with
      | some op =>
        rw [hconst] at hremat
        simp only [if_true, Bool.true_and, job_definingInstMap, ← hremat, isSome_some, isNone_some]
        cases s.ctx.spilledRegs (regKey a.1) <;> exact nil
      | none =>
        rw [hconst] at hremat
        obtain ⟨slot, hslot⟩ := isSome_iff_exists.mp (slot_isSome hspills hconst)
        simp only [if_true, Bool.true_and, job_definingInstMap, ← hremat, isSome_none,
          isNone_none, h.kept.spilledRegs, hslot]
        exact cons ⟨rfl, hslot⟩ nil

end Touch

end SpillInput

end EzPacker.SpillCode
