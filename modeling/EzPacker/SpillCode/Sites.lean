import EzPacker.SpillCode.Placement

/-!
# The registers of a rewritten instruction

A site is a register of an instruction, in an operand or an address, with the position
of the instruction whose temporary takes its place: the instruction itself for an
operand, and the first one that has it for a memory operand.
-/

namespace EzPacker.SpillCode

open Function Mir RegAlloc KeyedSet

namespace Function

variable (f : Function)

def sitesOf (p : ℕ) (flag : MirOperandFlag) : Operand → List (ℕ × Access)
  | .register r => [(p, r, flag)]
  | .memory object =>
    (visitOperandRegisters (.memory (f.mems object)) flag).map (((f.ownerOf object).getD p), ·)
  | _ => []

def sites (p : ℕ) : List (ℕ × Access) :=
  (List.range (f.instAt p).operands.length).flatMap fun i =>
    (f.instAt p).operands[i]?.elim [] (f.sitesOf p ((f.instAt p).getOperandFlag i))

/-- The registers that the operands and addresses of an instruction read. -/
def placedReads (p : ℕ) : List (ℕ × MirRegisterRef) :=
  ((f.sites p).filter fun site => site.2.2.isRead).map fun site => (site.1, site.2.1)

variable {f}

variable {p : ℕ} {site : ℕ × Access}

theorem mem_sites : site ∈ f.sites p ↔ ∃ i op, (f.instAt p).operands[i]? = some op ∧
      site ∈ f.sitesOf p ((f.instAt p).getOperandFlag i) op := by
  unfold sites
  rw [List.mem_flatMap]
  constructor
  · rintro ⟨i, -, hsite⟩
    cases hop : (f.instAt p).operands[i]? with
    | none =>
      rw [hop] at hsite
      cases hsite
    | some op =>
      rw [hop] at hsite
      exact ⟨i, op, hop, hsite⟩
  · rintro ⟨i, op, hop, hsite⟩
    refine ⟨i, List.mem_range.mpr (List.getElem?_eq_some_iff.mp hop).1, ?_⟩
    rw [hop]
    exact hsite

theorem mem_accessesFrom {flagAt : ℕ → MirOperandFlag} {ops : List Operand} {i : ℕ}
    {a : Access} : a ∈ f.accessesFrom p flagAt ops i ↔
      ∃ n op, ops[n]? = some op ∧ a ∈ f.operandAccesses p (flagAt (i + n)) op := by
  induction ops generalizing i with
  | nil => simp [accessesFrom]
  | cons op ops ih =>
    rw [accessesFrom, List.mem_append, ih]
    constructor
    · rintro (ha | ⟨n, op', hop, ha⟩)
      · exact ⟨0, op, rfl, ha⟩
      · exact ⟨n + 1, op', hop, by rwa [Nat.add_comm n 1, ← Nat.add_assoc]⟩
    · rintro ⟨n, op', hop, ha⟩
      cases n with
      | zero =>
        obtain rfl := Option.some.inj hop
        exact Or.inl ha
      | succ n => exact Or.inr ⟨n, op', hop, by rwa [Nat.add_comm n 1, ← Nat.add_assoc] at ha⟩

theorem mem_accesses {a : Access} : a ∈ f.accesses p ↔ ∃ i op, (f.instAt p).operands[i]? = some op ∧
      a ∈ f.operandAccesses p ((f.instAt p).getOperandFlag i) op := by
  unfold accesses
  rw [mem_accessesFrom]
  simp only [Nat.zero_add]

theorem accesses_of_mem_sites (hp : p < f.code.length)
    (h : site ∈ f.sites p) : site.1 ≤ p ∧ site.2 ∈ f.accesses site.1 := by
  obtain ⟨i, op, hop, hsite⟩ := mem_sites.mp h
  cases op with
  | register r =>
    obtain rfl := List.mem_singleton.mp hsite
    exact ⟨le_rfl, mem_accesses.mpr ⟨i, .register r, hop, List.mem_singleton.mpr rfl⟩⟩
  | memory object =>
    obtain ⟨a, ha, rfl⟩ := List.mem_map.mp hsite
    obtain ⟨q, hle, hq⟩ := exists_ownerOf hp (List.mem_of_getElem? hop)
    obtain ⟨i', hop'⟩ := List.mem_iff_getElem?.mp (ownerOf_eq_some hq).2
    rw [hq]
    refine ⟨hle, mem_accesses.mpr ⟨i', .memory object, hop', ?_⟩⟩
    rw [Option.getD_some, operandAccesses, if_pos hq]
    exact ha
  | integer value | floatingPoint bits | reference ref | runtimeSymbol name => cases hsite

theorem lt_length_of_mem_sites (hp : p < f.code.length)
    (h : site ∈ f.sites p) : site.1 < f.code.length :=
  (accesses_of_mem_sites hp h).1.trans_lt hp

/-! ### Accesses as the instruction is written -/

theorem isRegister_view (mems : ℕ → MirMemory) (op : Operand) :
    (op.view mems).isRegister = (op.view fun _ => ⟨none, none, none, 1⟩).isRegister := by
  cases op <;> rfl

theorem getOperandFlag_congr {a b : MirInstruction} (hopcode : a.opcode = b.opcode)
    (hdesc : a.targetDesc = b.targetDesc)
    (hops : a.operands.map MirOperand.isRegister = b.operands.map MirOperand.isRegister) (i : ℕ) :
    a.getOperandFlag i = b.getOperandFlag i := by
  have hlen : a.operands.length = b.operands.length := by
    simpa using congrArg List.length hops
  have hfirst : a.operands[0]?.map MirOperand.isRegister =
      b.operands[0]?.map MirOperand.isRegister := by
    rw [← List.getElem?_map, hops, List.getElem?_map]
  unfold MirInstruction.getOperandFlag MirInstruction.selectedDesc MirInstruction.getMetadata
  rw [hopcode, hdesc, hlen, hfirst]

theorem getOperandFlag_view (inst : Instruction) (mems : ℕ → MirMemory) (i : ℕ) :
    (inst.view mems).getOperandFlag i = inst.getOperandFlag i := by
  have hops : (inst.view mems).operands.map MirOperand.isRegister =
      (inst.view fun _ => ⟨none, none, none, 1⟩).operands.map MirOperand.isRegister := by
    unfold Instruction.view
    rw [List.map_map, List.map_map]
    exact List.map_congr_left fun op _ => isRegister_view mems op
  exact getOperandFlag_congr (a := inst.view mems) (b := inst.view fun _ => ⟨none, none, none, 1⟩)
    rfl rfl hops i

theorem visits_viewAt (p : ℕ) : (f.viewAt p).visits = (f.sites p).map Prod.snd := by
  unfold MirInstruction.visits sites
  rw [List.map_flatMap]
  have hlen : (f.viewAt p).operands.length = (f.instAt p).operands.length := List.length_map _
  rw [hlen]
  refine List.flatMap_congr fun i _ => ?_
  unfold MirInstruction.visitsAt
  have hget : (f.viewAt p).operands[i]? = (f.instAt p).operands[i]?.map (·.view f.mems) :=
    List.getElem?_map
  have hflag : (f.viewAt p).getOperandFlag i = (f.instAt p).getOperandFlag i :=
    getOperandFlag_view _ _ _
  rw [hget, hflag]
  cases (f.instAt p).operands[i]? with
  | none => rfl
  | some op =>
    cases op with
    | memory object =>
      change _ = List.map Prod.snd (List.map _ _)
      rw [List.map_map]
      exact (List.map_id _).symm
    | _ => rfl

end Function

namespace SpillInput

variable (j : SpillInput)

/-- The temporaries of the instruction at `p`. -/
def tempsAt (p : ℕ) : Temps := (j.rewritten.groupAt p).reloadedTemps

def rewrittenAt (p : ℕ) : MirInstruction := (j.rewritten.groupAt p).inst.view j.rewritten.mems

/-- The access to a site in the rewritten instruction. -/
def placeSite (site : ℕ × Access) : Access :=
  (if site.2.flagged then j.place (j.tempsAt site.1) site.2.1 else site.2.1, site.2.2)

variable {j}

variable {p : ℕ}

theorem fitsAt (hp : p < j.f.code.length) :
    j.Fits p (j.startAt j.rewritten.groups p) (j.rewritten.groupAt p) := by
  obtain ⟨_, hwalked⟩ := j.rewritten_walked
  exact hwalked.fits p hp

theorem mems_eq {m q : ℕ} (h : j.f.ownerOf m = some q) :
    j.rewritten.mems m = j.placeMem (j.tempsAt q) (j.f.mems m) := by
  obtain ⟨_, hwalked⟩ := j.rewritten_walked
  exact (hwalked.placed m q h (ownerOf_eq_some h).1).eq

theorem getElem?_placeFrom {temps : Temps} {flagAt : ℕ → MirOperandFlag} {ops : List Operand}
    {i : ℕ} (n : ℕ) : (j.placeFrom temps flagAt ops i)[n]? =
      ops[n]?.map (j.placeOperand temps (flagAt (i + n))) := by
  induction ops generalizing i n with
  | nil => rfl
  | cons op ops ih =>
    cases n with
    | zero => rfl
    | succ n =>
      rw [placeFrom, List.getElem?_cons_succ, List.getElem?_cons_succ, ih,
        Nat.add_assoc, Nat.add_comm 1 n]

section

variable (hp : p < j.f.code.length)
include hp

theorem getElem?_rewrittenAt (i : ℕ) :
    (j.rewrittenAt p).operands[i]? = (j.f.instAt p).operands[i]?.map fun op =>
      (j.placeOperand (j.tempsAt p) ((j.f.instAt p).getOperandFlag i) op).view
        j.rewritten.mems := by
  unfold rewrittenAt
  rw [(fitsAt hp).inst]
  change (List.map _ _)[i]? = _
  rw [List.getElem?_map, getElem?_placeFrom, Option.map_map, Nat.zero_add]
  rfl

theorem rewrittenAt_desc : (j.rewrittenAt p).opcode = (j.f.viewAt p).opcode ∧
      (j.rewrittenAt p).targetDesc = (j.f.viewAt p).targetDesc := by
  unfold rewrittenAt
  rw [(fitsAt hp).inst]
  exact ⟨rfl, rfl⟩

theorem map_rewrittenAt {α : Type*} (g : MirOperand → α)
    (hg : ∀ i op, (j.f.instAt p).operands[i]? = some op →
      g ((j.placeOperand (j.tempsAt p) ((j.f.instAt p).getOperandFlag i) op).view
        j.rewritten.mems) = g (op.view j.f.mems)) :
    (j.rewrittenAt p).operands.map g = (j.f.viewAt p).operands.map g := by
  refine List.ext_getElem? fun i => ?_
  rw [List.getElem?_map, List.getElem?_map, getElem?_rewrittenAt hp]
  have hget : (j.f.viewAt p).operands[i]? = (j.f.instAt p).operands[i]?.map (·.view j.f.mems) :=
    List.getElem?_map
  rw [hget]
  cases hop : (j.f.instAt p).operands[i]? with
  | none => rfl
  | some op => exact congrArg some (hg i op hop)

theorem getOperandFlag_rewrittenAt (i : ℕ) :
    (j.rewrittenAt p).getOperandFlag i = (j.f.instAt p).getOperandFlag i := by
  rw [← getOperandFlag_view _ j.f.mems]
  refine getOperandFlag_congr (rewrittenAt_desc hp).1 (rewrittenAt_desc hp).2 ?_ i
  refine map_rewrittenAt hp MirOperand.isRegister fun i op _ => ?_
  cases op <;> rfl

theorem visits_rewrittenAt : (j.rewrittenAt p).visits = (j.f.sites p).map j.placeSite := by
  unfold MirInstruction.visits sites
  rw [List.map_flatMap]
  have hlen : (j.rewrittenAt p).operands.length = (j.f.instAt p).operands.length := by
    have h := congrArg List.length (map_rewrittenAt hp (fun _ => ()) fun _ _ _ => rfl)
    simpa [viewAt, Instruction.view] using h
  rw [hlen]
  refine List.flatMap_congr fun i _ => ?_
  unfold MirInstruction.visitsAt
  rw [getElem?_rewrittenAt hp, getOperandFlag_rewrittenAt hp]
  cases hop : (j.f.instAt p).operands[i]? with
  | none => rfl
  | some op =>
    cases op with
    | register r => rfl
    | memory object =>
      obtain ⟨q, -, hq⟩ := exists_ownerOf hp (List.mem_of_getElem? hop)
      change visitOperandRegisters (.memory (j.rewritten.mems object)) _ =
        List.map j.placeSite (List.map _ _)
      rw [mems_eq hq, hq, List.map_map]
      cases hbase : (j.f.mems object).base <;> cases hindex : (j.f.mems object).index <;>
        simp [visitOperandRegisters, placeMem, placeSite, Access.flagged, hbase, hindex,
          MirOperandFlag.isRead]
    | _ => rfl

end

/-! ### What is read and written -/

/-- What takes the place of a register, by key. -/
def placeKey (temps : Temps) (k : RegKey) : RegKey := (temps.lookup k).elim k regKey

theorem placeKey_of_none {temps : Temps} {k : RegKey} (h : k ∉ temps.map Prod.fst) :
    placeKey temps k = k := by
  unfold placeKey
  rw [lookup_eq_none_iff.mpr h]
  rfl

theorem spilled_of_tempsAt (hp : p < j.f.code.length) {k : RegKey}
    (h : k ∈ (j.tempsAt p).map Prod.fst) : ∃ r, j.spills r = true ∧ regKey r = k := by
  obtain ⟨a, -, hkey, -, hspills⟩ := ((fitsAt hp).keys k).mp h
  exact ⟨a.1, hspills, hkey⟩

theorem spills_congr {r r' : MirRegisterRef} (h : regKey r = regKey r') :
    j.spills r = j.spills r' := by
  unfold spills contains
  rw [h]

theorem regKey_place (hp : p < j.f.code.length) (r : MirRegisterRef) :
    regKey (j.place (j.tempsAt p) r) = placeKey (j.tempsAt p) (regKey r) := by
  unfold place placeKey
  cases hlookup : (j.tempsAt p).lookup (regKey r) with
  | none =>
    split <;> rfl
  | some t =>
    have hkey : regKey r ∈ (j.tempsAt p).map Prod.fst :=
      List.mem_map_of_mem (f := Prod.fst) (mem_of_lookup hlookup)
    obtain ⟨r', hspills, hr'⟩ := spilled_of_tempsAt hp hkey
    rw [if_pos (spills_congr hr' ▸ hspills)]
    rfl

theorem placeKey_implicit (hp : p < j.f.code.length) {inst : Instruction}
    (hinst : inst ∈ j.f.code) {desc : MirTargetInstructionDesc}
    (hdesc : inst.targetDesc = some desc) {r : MirRegisterRef}
    (hr : r ∈ desc.implicitDefs ++ desc.implicitUses) :
    placeKey (j.tempsAt p) (regKey r) = regKey r := by
  refine placeKey_of_none fun hmem => ?_
  obtain ⟨r', hspills, hkey⟩ := spilled_of_tempsAt hp hmem
  rw [spills, Bool.and_eq_true, contains_iff, mem_keys] at hspills
  obtain ⟨⟨r₀, hr₀, hkey₀⟩, -⟩ := hspills
  rw [hkey, regKey, regKey, if_pos (j.isVirtual r₀ hr₀), j.implicit inst hinst desc hdesc r hr]
    at hkey₀
  cases hkey₀

/-- The registers that an instruction reads besides those of its operands. -/
def implicitUses (j : SpillInput) (p : ℕ) : List RegKey :=
  (((j.f.instAt p).targetDesc.map MirTargetInstructionDesc.implicitUses).getD []).map regKey

theorem used_viewAt (p : ℕ) : (j.f.viewAt p).getUsedRegisters.map regKey =
    (j.f.placedReads p).map (fun x => regKey x.2) ++ j.implicitUses p := by
  unfold MirInstruction.getUsedRegisters placedReads
  rw [List.map_append, visits_viewAt, List.filter_map, List.map_map, List.map_map, List.map_map]
  rfl

theorem used_rewrittenAt (hp : p < j.f.code.length) :
    (j.rewrittenAt p).getUsedRegisters.map regKey =
      (j.f.placedReads p).map (fun x => placeKey (j.tempsAt x.1) (regKey x.2)) ++
        j.implicitUses p := by
  unfold MirInstruction.getUsedRegisters placedReads
  rw [List.map_append, visits_rewrittenAt hp, (rewrittenAt_desc hp).2, List.filter_map,
    List.map_map, List.map_map, List.map_map]
  congr 1
  refine List.map_congr_left fun site hsite => ?_
  obtain ⟨hmem, hread⟩ := List.mem_filter.mp hsite
  have hflagged : site.2.flagged = true := by
    unfold Access.flagged
    have hread' : site.2.2.isRead = true := hread
    rw [hread']
    rfl
  simp only [Function.comp_apply, placeSite, if_pos hflagged]
  exact regKey_place (lt_length_of_mem_sites hp hmem) site.2.1

theorem isOld_site (hp : p < j.f.code.length) {site : ℕ × Access}
    (h : site ∈ j.f.sites p) : j.IsOld (regKey site.2.1) := by
  obtain ⟨i, op, hop, hof⟩ := mem_sites.mp h
  cases op with
  | register r =>
    obtain rfl := List.mem_singleton.mp hof
    exact isOld_operand (instAt_mem hp) (List.mem_of_getElem? hop)
  | memory object =>
    obtain ⟨a, ha, rfl⟩ := List.mem_map.mp hof
    exact isOld_mem (mem_visit_memory ha).2
  | integer value | floatingPoint bits | reference ref | runtimeSymbol name => cases hof

/-- Only operands are written, which have temporaries of their own instruction. -/
theorem owner_of_write {site : ℕ × Access} (h : site ∈ j.f.sites p)
    (hwrite : site.2.2.isWrite = true) : site.1 = p := by
  obtain ⟨i, op, -, hsite⟩ := mem_sites.mp h
  cases op with
  | register r =>
    obtain rfl := List.mem_singleton.mp hsite
    rfl
  | memory object =>
    obtain ⟨a, ha, rfl⟩ := List.mem_map.mp hsite
    rw [(mem_visit_memory ha).1] at hwrite
    cases hwrite
  | integer value | floatingPoint bits | reference ref | runtimeSymbol name => cases hsite

/-- The keys of the registers that the instruction at `p` writes. -/
def writtenAt (j : SpillInput) (p : ℕ) : List RegKey :=
  (j.f.viewAt p).getDefinedRegisters.map regKey

theorem written_rewrittenAt (hp : p < j.f.code.length) :
    (j.rewrittenAt p).getDefinedRegisters.map regKey =
      (j.writtenAt p).map (placeKey (j.tempsAt p)) := by
  unfold writtenAt MirInstruction.getDefinedRegisters
  rw [visits_rewrittenAt hp, (rewrittenAt_desc hp).2, visits_viewAt]
  simp only [List.map_append, List.filter_map, List.map_map]
  congr 1
  · refine List.map_congr_left fun site hsite => ?_
    obtain ⟨hmem, hwrite⟩ := List.mem_filter.mp hsite
    have hwrite' : site.2.2.isWrite = true := hwrite
    have hflagged : site.2.flagged = true := by
      unfold Access.flagged
      rw [hwrite', Bool.or_true]
    simp only [Function.comp_apply, placeSite, if_pos hflagged, owner_of_write hmem hwrite']
    exact regKey_place hp site.2.1
  · refine List.map_congr_left fun r hr => ?_
    cases hdesc : (j.f.viewAt p).targetDesc with
    | none =>
      rw [hdesc] at hr
      cases hr
    | some desc =>
      rw [hdesc] at hr
      exact (placeKey_implicit hp (instAt_mem hp) hdesc (List.mem_append_left _ hr)).symm

theorem shape_rewrittenAt (hp : p < j.f.code.length) :
    shape (j.rewrittenAt p) = shape (j.f.viewAt p) := by
  unfold shape
  rw [map_rewrittenAt hp, (rewrittenAt_desc hp).1, (rewrittenAt_desc hp).2]
  intro i op hop
  cases op with
  | memory object =>
    obtain ⟨q, -, hq⟩ := exists_ownerOf hp (List.mem_of_getElem? hop)
    simp only [placeOperand, Operand.view, mems_eq hq, placeMem, shapeOperand, Option.map_map]
    rfl
  | _ => rfl

theorem constantMove_shape (inst : MirInstruction) :
    constantMove (shape inst) = constantMove inst := by
  obtain ⟨opcode, desc, operands⟩ := inst
  unfold constantMove shape
  rcases operands with _ | ⟨a, _ | ⟨b, rest⟩⟩
  · rfl
  · cases a <;> rfl
  · cases a <;> cases b <;> rfl

theorem constantMove_rewrittenAt (hp : p < j.f.code.length) :
    constantMove (j.rewrittenAt p) = constantMove (j.f.viewAt p) := by
  rw [← constantMove_shape, shape_rewrittenAt hp, constantMove_shape]

theorem spillAccess_eq_none {isSlot : ℕ → Bool} {inst : MirInstruction}
    (h : ∀ ref, .reference ref ∈ inst.operands → ref.refType = .StackFrameObject →
      isSlot ref.refId = false) : spillAccess isSlot inst = none := by
  unfold spillAccess
  split
  · next reg ref _ hops =>
      refine if_neg fun hc => ?_
      have hno := h ref (by rw [hops]; simp) hc.1
      rw [hno] at hc
      cases hc.2.1
  · next ref reg _ hops =>
      refine if_neg fun hc => ?_
      have hno := h ref (by rw [hops]; simp) hc.1
      rw [hno] at hc
      cases hc.2.1
  · rfl

theorem isSlot_ref {inst : Instruction} (hinst : inst ∈ j.f.code) {ref : MirReference}
    (href : .reference ref ∈ inst.operands) (htype : ref.refType = .StackFrameObject) :
    j.isSlot ref.refId = false := by
  rw [Bool.eq_false_iff]
  intro hslot
  unfold isSlot at hslot
  rw [List.any_eq_true] at hslot
  obtain ⟨r, hr, hboth⟩ := hslot
  rw [Bool.and_eq_true, beq_iff_eq] at hboth
  rcases j.slotsKept.old _ _ hboth.2 with hold | hnew
  · exact j.ref_ne inst hinst ref href htype r hr hold
  · exact absurd (j.ref_lt inst hinst ref href htype) (not_lt.mpr hnew)

theorem spillAccess_viewAt (hp : p < j.f.code.length) :
    spillAccess j.isSlot (j.f.viewAt p) = none := by
  refine spillAccess_eq_none fun ref href htype => ?_
  obtain ⟨op, hop, hview⟩ := List.mem_map.mp href
  cases op with
  | reference ref' =>
    obtain rfl := MirOperand.reference.inj hview
    exact isSlot_ref (instAt_mem hp) hop htype
  | _ => cases hview

theorem spillAccess_rewrittenAt (hp : p < j.f.code.length) :
    spillAccess j.isSlot (j.rewrittenAt p) = none := by
  refine spillAccess_eq_none fun ref href htype => ?_
  obtain ⟨i, hi⟩ := List.mem_iff_getElem?.mp href
  rw [getElem?_rewrittenAt hp, Option.map_eq_some_iff] at hi
  obtain ⟨op, hop, hview⟩ := hi
  cases op with
  | reference ref' =>
    obtain rfl := MirOperand.reference.inj hview
    exact isSlot_ref (instAt_mem hp) (List.mem_of_getElem? hop) htype
  | _ => cases hview

end SpillInput

end EzPacker.SpillCode
