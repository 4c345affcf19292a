import EzPacker.SpillCode.Sites

/-!
# Executing a rewritten instruction

What loads, stores and copies of constants do, and how the temporaries of different
instructions are told apart.
-/

namespace EzPacker.SpillCode

open Mir RegAlloc KeyedSet

/-! ### Written registers -/

variable {k : RegKey} {inst : Instruction}

section WriteAll

variable {I : Interp} (w : ℕ → I.Val)

variable {keys : List RegKey}

theorem writeAll_of_not_mem (h : k ∉ keys) (n : ℕ) (regs : RegKey → I.Val) :
    writeAll w keys n regs k = regs k := by
  induction keys generalizing n regs with
  | nil => rfl
  | cons key keys ih =>
    rw [writeAll, ih fun hmem => h (List.mem_cons_of_mem _ hmem), Function.update_of_ne]
    rintro rfl
    exact h List.mem_cons_self

/-- Writing under other names that are told apart from the name of `k`. -/
theorem writeAll_map (g : RegKey → RegKey) (hg : ∀ key ∈ keys, g key = g k → key = k) (h : k ∈ keys)
    (n : ℕ) (regs regs' : RegKey → I.Val) :
    writeAll w (keys.map g) n regs' (g k) = writeAll w keys n regs k := by
  induction keys generalizing n regs regs' with
  | nil => cases h
  | cons key keys ih =>
    have hg' : ∀ key ∈ keys, g key = g k → key = k :=
      fun key' hmem => hg key' (List.mem_cons_of_mem _ hmem)
    rw [List.map_cons, writeAll, writeAll]
    by_cases hmem : k ∈ keys
    · exact ih hg' hmem (n + 1) _ _
    · obtain rfl := (List.mem_cons.mp h).resolve_right hmem
      have hno : g k ∉ keys.map g := by
        intro hin
        obtain ⟨key', hkey', heq⟩ := List.mem_map.mp hin
        exact hmem (hg' key' hkey' heq ▸ hkey')
      rw [writeAll_of_not_mem w hno, writeAll_of_not_mem w hmem, Function.update_self,
        Function.update_self]

theorem writeAll_const {v : I.Val} (h : k ∈ keys) (n : ℕ) (regs : RegKey → I.Val) :
    writeAll (fun _ => v) keys n regs k = v := by
  induction keys generalizing n regs with
  | nil => cases h
  | cons key keys ih =>
    rw [writeAll]
    by_cases hmem : k ∈ keys
    · exact ih hmem (n + 1) _
    · obtain rfl := (List.mem_cons.mp h).resolve_right hmem
      rw [writeAll_of_not_mem _ hmem, Function.update_self]

end WriteAll

/-! ### Loads, stores and copies of constants -/

section Moves

variable {I : Interp} {isSlot : ℕ → Bool} {slot : ℕ}

theorem exec_emitReload (hslot : isSlot slot = true) (size : Option ℕ) (dst : MirRegisterRef)
    (mems : ℕ → MirMemory) (s : State I) :
    exec isSlot ((emitReload size dst slot).view mems) s =
      { s with regs := Function.update s.regs (regKey dst) (s.slots slot) } := by
  have haccess : spillAccess isSlot ((emitReload size dst slot).view mems) =
      some (.reload slot dst) := by
    unfold emitReload
    dsimp only
    split_ifs
    all_goals
      refine if_pos ⟨rfl, hslot, ?_⟩
      decide
  unfold exec
  rw [haccess]

theorem exec_emitSpill (hslot : isSlot slot = true) (size : Option ℕ) (src : MirRegisterRef)
    (mems : ℕ → MirMemory) (s : State I) :
    exec isSlot ((emitSpill size slot src).view mems) s =
      { s with slots := Function.update s.slots slot (s.regs (regKey src)) } := by
  have haccess : spillAccess isSlot ((emitSpill size slot src).view mems) =
      some (.spill slot src) := by
    unfold emitSpill
    dsimp only
    split_ifs
    all_goals
      refine if_pos ⟨rfl, hslot, ?_⟩
      decide
  unfold exec
  rw [haccess]

theorem definingInst_mem {f : Function} (h : definingInst f k = some inst) : inst ∈ f.code := by
  have hgen : ∀ (code : List Instruction) (m : RegKey → Option Instruction),
      code.foldl (noteDefinitions f.mems) m k = some inst → inst ∈ code ∨ m k = some inst := by
    intro code
    induction code with
    | nil => exact fun m h => Or.inr h
    | cons a code ih =>
      intro m h
      rcases ih _ h with hmem | hm
      · exact Or.inl (List.mem_cons_of_mem _ hmem)
      · have hdefs : ∀ (defs : List MirRegisterRef) (m : RegKey → Option Instruction),
            defs.foldl (fun m d => if d.isVirtual then Function.update m (regKey d) (some a)
              else m) m k = some inst → inst = a ∨ m k = some inst := by
          intro defs
          induction defs with
          | nil => exact fun m h => Or.inr h
          | cons d defs ihd =>
            intro m h
            rcases ihd _ h with heq | hm
            · exact Or.inl heq
            · change (if d.isVirtual = true then _ else m) k = some inst at hm
              by_cases hd : d.isVirtual = true
              · rw [if_pos hd] at hm
                by_cases hk : k = regKey d
                · rw [hk, Function.update_self] at hm
                  exact Or.inl (Option.some.inj hm).symm
                · rw [Function.update_of_ne hk] at hm
                  exact Or.inr hm
              · rw [if_neg hd] at hm
                exact Or.inr hm
        rcases hdefs _ m hm with rfl | hm
        · exact Or.inl List.mem_cons_self
        · exact Or.inr hm
  rcases hgen f.code _ h with hmem | hnone
  · exact hmem
  · cases hnone

theorem isWrite_of_mem_visit {op : MirOperand} {flag : MirOperandFlag} {a : Access}
    (h : a ∈ visitOperandRegisters op flag) (hflag : flag.isWrite = false) :
    a.2.isWrite = false := by
  cases op with
  | register r =>
    obtain rfl := List.mem_singleton.mp h
    exact hflag
  | memory mem =>
    rw [(SpillInput.mem_visit_memory h).1]
    rfl
  | integer value | floatingPoint bits | reference ref | runtimeSymbol name => cases h

/-- A move writes its first operand only. -/
theorem getDefinedRegisters_mov (dst : MirRegisterRef) (rest : List MirOperand) :
    (MirInstruction.mk .MOV none (.register dst :: rest)).getDefinedRegisters = [dst] := by
  have hflag : ∀ i, ((MirInstruction.mk .MOV none (.register dst :: rest)).getOperandFlag
      (i + 1)).isWrite = false := by
    intro i
    unfold MirInstruction.getOperandFlag
    have hnone : (MirInstruction.mk .MOV none (.register dst :: rest)).selectedDesc = none := rfl
    rw [hnone]
    dsimp only
    split
    · rfl
    · rw [if_neg (by simp)]
      -- the slots of a move are one that it writes and one that it reads
      cases i with
      | zero => rfl
      | succ i =>
        have hlt : ¬ i + 1 + 1 < 2 := by omega
        change (if i + 1 + 1 < 2 then _ else MirOperandFlag.None).isWrite = false
        rw [if_neg hlt]
        rfl
  unfold MirInstruction.getDefinedRegisters MirInstruction.visits
  rw [List.length_cons, List.range_succ_eq_map, List.flatMap_cons, List.filter_append]
  have hrest : ((List.map Nat.succ (List.range rest.length)).flatMap
      (MirInstruction.mk .MOV none (.register dst :: rest)).visitsAt).filter
        (fun v => v.2.isWrite) = [] := by
    rw [List.filter_eq_nil_iff]
    intro a ha
    obtain ⟨i, hi, hvisit⟩ := List.mem_flatMap.mp ha
    obtain ⟨i, -, rfl⟩ := List.mem_map.mp hi
    unfold MirInstruction.visitsAt at hvisit
    split at hvisit
    · rw [isWrite_of_mem_visit hvisit (hflag i)]
      exact Bool.false_ne_true
    · cases hvisit
  rw [hrest]
  rfl

end Moves

namespace SpillInput

variable {j : SpillInput} {I : Interp}

/-- The value that a reload gives a temporary of the register. -/
def loaded (j : SpillInput) (k : RegKey) (s : State I) : I.Val :=
  (j.rematConst k).elim (s.slots ((j.slots.spilledRegs k).getD 0)) I.const

/-- The key of a register that is replaced. -/
def IsSpilled (j : SpillInput) (k : RegKey) : Prop := ∃ r, j.spills r = true ∧ regKey r = k

theorem isSlot_of_isSpilled (hk : j.IsSpilled k) {slot : ℕ}
    (hslot : j.slots.spilledRegs k = some slot) : j.isSlot slot = true := by
  obtain ⟨r, hspills, rfl⟩ := hk
  have hnode := hspills
  rw [spills, Bool.and_eq_true, contains_iff, mem_keys] at hnode
  obtain ⟨⟨r', hr', hkey⟩, -⟩ := hnode
  unfold isSlot
  rw [List.any_eq_true]
  refine ⟨r', hr', ?_⟩
  rw [spills_congr hkey, hspills, hkey, hslot]
  simp

theorem constantMove_reMaterialize (hinst : inst ∈ j.f.code)
    (hremat : isRematerializable (some inst) = true) (temp : MirRegisterRef)
    (mems : ℕ → MirMemory) :
    ∃ op rest, (reMaterialize temp inst).view mems =
        ⟨.MOV, none, .register temp :: op :: rest⟩ ∧
      constantMove ((reMaterialize temp inst).view mems) = some op ∧
      inst.operands[1]?.map (·.view j.f.mems) = some op := by
  have hboth := hremat
  simp only [isRematerializable, Bool.decide_and, Bool.and_eq_true, decide_eq_true_eq] at hboth
  obtain ⟨hopcode, hconst⟩ := hboth
  have hdesc := j.plain inst hinst (by rw [hopcode]; decide)
  obtain ⟨opcode, desc, operands⟩ := inst
  obtain rfl : opcode = .MOV := hopcode
  obtain rfl : desc = none := hdesc
  rcases operands with _ | ⟨a, _ | ⟨b, rest⟩⟩
  · cases hconst
  · cases hconst
  · cases b with
    | integer value => exact ⟨.integer value, rest.map (·.view mems), rfl, rfl, rfl⟩
    | floatingPoint bits => exact ⟨.floatingPoint bits, rest.map (·.view mems), rfl, rfl, rfl⟩
    | _ => cases hconst

theorem exec_reload {temp : MirRegisterRef} (h : j.Reloads k temp inst) (hk : j.IsSpilled k)
    (mems : ℕ → MirMemory) (s : State I) : exec j.isSlot (inst.view mems) s =
      { s with regs := Function.update s.regs (regKey temp) (j.loaded k s) } := by
  cases h with
  | slot hremat hslot =>
    rw [exec_emitReload (isSlot_of_isSpilled hk hslot), loaded, hremat, hslot]
    rfl
  | @const inst hdef hremat =>
    obtain ⟨op, rest, hview, hmove, hop⟩ :=
      constantMove_reMaterialize (definingInst_mem hdef) hremat temp mems
    have hconst : j.rematConst k = some op := by
      unfold rematConst
      rw [hdef]
      exact (if_pos hremat).trans hop
    have haccess : spillAccess j.isSlot ((reMaterialize temp inst).view mems) = none := by
      rw [hview]
      rfl
    have hwritten : ((reMaterialize temp inst).view mems).getDefinedRegisters = [temp] := by
      rw [hview]
      exact getDefinedRegisters_mov temp (op :: rest)
    unfold exec
    rw [haccess, hmove, hwritten, loaded, hconst]
    rfl

/-! ### The names of the temporaries -/

variable {temps : Temps}

section TempNames

variable {p q : ℕ} {e e' : RegKey × MirRegisterRef}

theorem isSpilled_of_mem (hp : p < j.f.code.length) (he : e ∈ j.tempsAt p) : j.IsSpilled e.1 :=
  spilled_of_tempsAt hp (List.mem_map_of_mem he)

theorem IsSpilled.isOld (h : j.IsSpilled k) : j.IsOld k := by
  obtain ⟨r, hspills, rfl⟩ := h
  exact j.isOld_of_spills hspills

theorem regKey_temp (hp : p < j.f.code.length) {i : ℕ} (he : (j.tempsAt p)[i]? = some e) :
    regKey e.2 = .vreg (j.startAt j.rewritten.groups p + i) := by
  obtain ⟨hvirtual, hid⟩ := (fitsAt hp).ids i e he
  rw [regKey, if_pos hvirtual, hid]

theorem not_isOld_temp (hp : p < j.f.code.length) (he : e ∈ j.tempsAt p) :
    ¬ j.IsOld (regKey e.2) := by
  intro hold
  obtain ⟨i, hi⟩ := List.mem_iff_getElem?.mp he
  have hlt := hold _ (regKey_temp hp hi)
  have hstart : j.ctx.nextId ≤ j.startAt j.rewritten.groups p := Nat.le_add_right _ _
  omega

theorem startAt_step (p : ℕ) : j.startAt j.rewritten.groups p + (j.tempsAt p).length ≤
    j.startAt j.rewritten.groups (p + 1) := by
  unfold startAt tempsAt RewrittenCode.groupAt
  rw [List.take_add_one, List.map_append, List.sum_append, List.getD_eq_getElem?_getD]
  cases j.rewritten.groups[p]? with
  | none => simp
  | some g => simp [Nat.add_assoc]

theorem startAt_lt (h : p < q) : j.startAt j.rewritten.groups p + (j.tempsAt p).length ≤
    j.startAt j.rewritten.groups q := by
  induction q, h using Nat.le_induction with
  | base => exact startAt_step p
  | succ q _ ih => exact ih.trans ((Nat.le_add_right _ _).trans (startAt_step q))

/-- The temporaries of the function have different names. -/
theorem temp_inj (hp : p < j.f.code.length) (hq : q < j.f.code.length) (he : e ∈ j.tempsAt p)
    (he' : e' ∈ j.tempsAt q) (h : regKey e.2 = regKey e'.2) : p = q ∧ e = e' := by
  obtain ⟨i, hi⟩ := List.mem_iff_getElem?.mp he
  obtain ⟨i', hi'⟩ := List.mem_iff_getElem?.mp he'
  rw [regKey_temp hp hi, regKey_temp hq hi'] at h
  have hnum := RegKey.vreg.inj h
  have hlt := (List.getElem?_eq_some_iff.mp hi).1
  have hlt' := (List.getElem?_eq_some_iff.mp hi').1
  rcases Nat.lt_trichotomy p q with hpq | rfl | hpq
  · have := startAt_lt (j := j) hpq
    omega
  · obtain rfl : i = i' := by omega
    rw [hi] at hi'
    exact ⟨rfl, Option.some.inj hi'⟩
  · have := startAt_lt (j := j) hpq
    omega

theorem nodup_temps (hp : p < j.f.code.length) : ((j.tempsAt p).map fun e => regKey e.2).Nodup :=
  List.Nodup.map_on (fun _ he _ he' h => (temp_inj hp hp he he' h).2)
    (List.Nodup.of_map _ (fitsAt hp).nodup)

theorem lookup_of_mem (hnodup : (temps.map Prod.fst).Nodup) (he : e ∈ temps) :
    temps.lookup e.1 = some e.2 := by
  induction temps with
  | nil => cases he
  | cons e' temps ih =>
    rw [List.map_cons, List.nodup_cons] at hnodup
    rw [List.lookup_cons]
    rcases List.mem_cons.mp he with rfl | he
    · simp
    · have hne : (e.1 == e'.1) = false := by
        rw [beq_eq_false_iff_ne]
        intro heq
        exact hnodup.1 (heq ▸ List.mem_map_of_mem he)
      rw [hne]
      exact ih hnodup.2 he

theorem placeKey_temp (hp : p < j.f.code.length) (he : e ∈ j.tempsAt p) :
    placeKey (j.tempsAt p) e.1 = regKey e.2 := by
  have hlookup : (j.tempsAt p).lookup e.1 = some e.2 := lookup_of_mem (fitsAt hp).nodup he
  unfold placeKey
  rw [hlookup]
  rfl

/-- A register keeps its name or has that of a temporary. -/
theorem placeKey_cases (k : RegKey) (p : ℕ) : placeKey (j.tempsAt p) k = k ∨
    ∃ e ∈ j.tempsAt p, e.1 = k ∧ placeKey (j.tempsAt p) k = regKey e.2 := by
  unfold placeKey
  cases hlookup : (j.tempsAt p).lookup k with
  | none => exact Or.inl rfl
  | some t => exact Or.inr ⟨(k, t), mem_of_lookup hlookup, rfl, rfl⟩

theorem placeKey_inj (hp : p < j.f.code.length) {k k' : RegKey} (hk : j.IsOld k)
    (hk' : j.IsOld k') (h : placeKey (j.tempsAt p) k = placeKey (j.tempsAt p) k') : k = k' := by
  rcases placeKey_cases k p with hkeep | ⟨e, he, rfl, htemp⟩
  · rcases placeKey_cases k' p with hkeep' | ⟨e', he', rfl, htemp'⟩
    · rw [← hkeep, h, hkeep']
    · rw [hkeep, htemp'] at h
      exact absurd (h ▸ hk) (not_isOld_temp hp he')
  · rcases placeKey_cases k' p with hkeep' | ⟨e', he', rfl, htemp'⟩
    · rw [htemp, hkeep'] at h
      exact absurd (h.symm ▸ hk') (not_isOld_temp hp he)
    · rw [htemp, htemp'] at h
      rw [(temp_inj hp hp he he' h).2]

end TempNames

/-! ### The code around an instruction -/

theorem execCode_before {code : List Instruction}
    (h : List.Forall₂ (fun e inst => j.Reloads e.1 e.2 inst) temps code)
    (hspilled : ∀ e ∈ temps, j.IsSpilled e.1) (hnodup : (temps.map fun e => regKey e.2).Nodup)
    (mems : ℕ → MirMemory) (s : State I) :
    (execCode j.isSlot mems code s).env = s.env ∧ (execCode j.isSlot mems code s).slots = s.slots ∧
      (∀ e ∈ temps, (execCode j.isSlot mems code s).regs (regKey e.2) = j.loaded e.1 s) ∧
      ∀ k, k ∉ temps.map (fun e => regKey e.2) →
        (execCode j.isSlot mems code s).regs k = s.regs k := by
  induction h generalizing s with
  | nil => exact ⟨rfl, rfl, fun _ he => (List.not_mem_nil he).elim, fun _ _ => rfl⟩
  | @cons e inst temps code hreload hrest ih =>
    rw [List.map_cons, List.nodup_cons] at hnodup
    obtain ⟨henv, hslots, htemps, hothers⟩ := ih
      (fun e' he' => hspilled e' (List.mem_cons_of_mem _ he')) hnodup.2
      (exec j.isSlot (inst.view mems) s)
    have hexec := exec_reload hreload (hspilled e List.mem_cons_self) mems s
    rw [hexec] at henv hslots htemps hothers
    rw [execCode_cons, hexec]
    refine ⟨henv, hslots, fun e' he' => ?_, fun k hk => ?_⟩
    · rcases List.mem_cons.mp he' with rfl | he'
      · rw [hothers _ hnodup.1]
        exact Function.update_self _ _ _
      · rw [htemps e' he']
        rfl
    · rw [List.map_cons, List.mem_cons, not_or] at hk
      rw [hothers k hk.2]
      exact Function.update_of_ne hk.1 _ _

theorem execCode_after {code : List Instruction}
    (h : List.Forall₂ (fun e inst => j.Stores e.1 e.2 inst) temps code)
    (hspilled : ∀ e ∈ temps, j.IsSpilled e.1) (hnodup : (temps.map Prod.fst).Nodup)
    (mems : ℕ → MirMemory) (s : State I) :
    (execCode j.isSlot mems code s).env = s.env ∧ (execCode j.isSlot mems code s).regs = s.regs ∧
      (∀ e ∈ temps, ∀ slot, j.slots.spilledRegs e.1 = some slot →
        (execCode j.isSlot mems code s).slots slot = s.regs (regKey e.2)) ∧
      ∀ slot, (∀ e ∈ temps, j.slots.spilledRegs e.1 ≠ some slot) →
        (execCode j.isSlot mems code s).slots slot = s.slots slot := by
  induction h generalizing s with
  | nil => exact ⟨rfl, rfl, fun _ he => (List.not_mem_nil he).elim, fun _ _ => rfl⟩
  | @cons e inst temps code hstore hrest ih =>
    rw [List.map_cons, List.nodup_cons] at hnodup
    obtain ⟨henv, hregs, htemps, hothers⟩ := ih
      (fun e' he' => hspilled e' (List.mem_cons_of_mem _ he')) hnodup.2
      (exec j.isSlot (inst.view mems) s)
    obtain ⟨size, slot, hslot, rfl⟩ := hstore
    have hexec := exec_emitSpill
      (isSlot_of_isSpilled (hspilled e List.mem_cons_self) hslot) size e.2 mems s
    rw [hexec] at henv hregs htemps hothers
    rw [execCode_cons, hexec]
    refine ⟨henv, hregs, fun e' he' slot' hslot' => ?_, fun slot' hno => ?_⟩
    · rcases List.mem_cons.mp he' with rfl | he'
      · obtain rfl : slot = slot' := Option.some.inj (hslot.symm.trans hslot')
        rw [hothers slot]
        · exact Function.update_self _ _ _
        · intro e'' he'' hslot''
          have hkey := j.slotsKept.slot_inj _ _ slot hslot'' hslot
          exact hnodup.1 (hkey ▸ List.mem_map_of_mem he'')
      · exact htemps e' he' slot' hslot'
    · rw [hothers slot' fun e' he' => hno e' (List.mem_cons_of_mem _ he')]
      refine Function.update_of_ne ?_ _ _
      rintro rfl
      exact hno e List.mem_cons_self hslot

end SpillInput

end EzPacker.SpillCode
