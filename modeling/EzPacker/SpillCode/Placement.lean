import EzPacker.SpillCode.Temporaries
import Mathlib.Algebra.BigOperators.Group.List.Basic
import Mathlib.Data.List.GetD

/-!
# Where the temporaries stand

A register operand of an instruction becomes the instruction's own temporary. The
registers of a memory operand become temporaries of the first instruction of the code
that has the operand, also for the instructions behind it.
-/

namespace EzPacker.SpillCode

open SpillJob List Function Option Mir RegAlloc KeyedSet

abbrev Temps := List (RegKey × MirRegisterRef)

variable {p : ℕ} {accs : List Access} {ctx : RegisterAllocatorCtx} {mem : MirMemory} {s : Rewriting}
  {temps : Temps}

namespace Function

variable (f : Function)

/-- The first instruction of the code that has a memory operand. -/
def ownerOf (object : ℕ) : Option ℕ :=
  f.code.findIdx? fun inst => .memory object ∈ inst.operands

/-- The accesses of an operand that are rewritten with the instruction at `p`. -/
def operandAccesses (p : ℕ) (flag : MirOperandFlag) : Operand → List Access
  | .register r => [(r, flag)]
  | .memory object =>
    if f.ownerOf object = some p then visitOperandRegisters (.memory (f.mems object)) flag
    else []
  | _ => []

def accessesFrom (p : ℕ) (flagAt : ℕ → MirOperandFlag) : List Operand → ℕ → List Access
  | [], _ => []
  | op :: ops, i => f.operandAccesses p (flagAt i) op ++ accessesFrom p flagAt ops (i + 1)

def accesses (p : ℕ) : List Access :=
  f.accessesFrom p (f.instAt p).getOperandFlag (f.instAt p).operands 0

variable {f}

theorem instAt_mem (hp : p < f.code.length) : f.instAt p ∈ f.code := by
  unfold instAt
  rw [getD_eq_getElem _ _ hp]
  exact getElem_mem hp

theorem ownerOf_eq_some {m : ℕ} (h : f.ownerOf m = some p) :
    p < f.code.length ∧ .memory m ∈ (f.instAt p).operands := by
  obtain ⟨hp, hmem, -⟩ := findIdx?_eq_some_iff_getElem.mp h
  refine ⟨hp, ?_⟩
  unfold instAt
  rw [getD_eq_getElem _ _ hp]
  simpa using hmem

theorem exists_ownerOf {m : ℕ} (hp : p < f.code.length) (hmem : .memory m ∈ (f.instAt p).operands) :
    ∃ q ≤ p, f.ownerOf m = some q := by
  unfold instAt at hmem
  rw [getD_eq_getElem _ _ hp] at hmem
  have hfound : f.ownerOf m = some (f.code.findIdx fun inst => .memory m ∈ inst.operands) :=
    findIdx?_eq_some_of_exists ⟨_, getElem_mem hp, by simpa using hmem⟩
  refine ⟨_, ?_, hfound⟩
  by_contra hlt
  have hnot := not_of_lt_findIdx (Nat.lt_of_not_le hlt)
  simp [hmem] at hnot

end Function

namespace SpillInput

variable (j : SpillInput)

def place (temps : Temps) (r : MirRegisterRef) : MirRegisterRef :=
  if j.spills r then (temps.lookup (regKey r)).getD r else r

def placeMem (temps : Temps) (mem : MirMemory) : MirMemory :=
  { mem with base := mem.base.map (j.place temps), index := mem.index.map (j.place temps) }

def placeOperand (temps : Temps) (flag : MirOperandFlag) : Operand → Operand
  | .register r => .register (if flag.isRead || flag.isWrite then j.place temps r else r)
  | op => op

def placeFrom (temps : Temps) (flagAt : ℕ → MirOperandFlag) : List Operand → ℕ → List Operand
  | [], _ => []
  | op :: ops, i => j.placeOperand temps (flagAt i) op :: placeFrom temps flagAt ops (i + 1)

variable {j}

/-! ### Temporaries stay -/

/-- There is a temporary for the register, or it needs none. -/
def Covered (j : SpillInput) (temps : Temps) (r : MirRegisterRef) : Prop :=
  j.spills r = true → regKey r ∈ temps.map Prod.fst

variable {r : MirRegisterRef}

theorem Covered.append (h : j.Covered temps r) (more : Temps) : j.Covered (temps ++ more) r := by
  intro hspills
  rw [map_append]
  exact mem_append_left _ (h hspills)

theorem Covered.place_append (h : j.Covered temps r) (more : Temps) :
    j.place (temps ++ more) r = j.place temps r := by
  unfold place
  split
  · next hspills =>
      cases hlookup : temps.lookup (regKey r) with
      | none => exact absurd (h hspills) (lookup_eq_none_iff.mp hlookup)
      | some t => rw [lookup_append, hlookup, some_or]
  · rfl

theorem mem_of_lookup {k : RegKey} {t : MirRegisterRef} (h : temps.lookup k = some t) :
    (k, t) ∈ temps := by
  induction temps with
  | nil => cases h
  | cons e temps ih =>
    rw [lookup_cons] at h
    cases hk : k == e.1 with
    | true =>
      rw [hk] at h
      obtain rfl := some.inj h
      obtain rfl := eq_of_beq hk
      exact mem_cons_self
    | false =>
      rw [hk] at h
      exact mem_cons_of_mem _ (ih h)

/-- The registers of a memory operand, with those that a part of the accesses covers. -/
def MemCovered (j : SpillInput) (temps : Temps) (mem : MirMemory) : Prop :=
  ∀ r, mem.base = some r ∨ mem.index = some r → j.Covered temps r

theorem placeMem_append (h : j.MemCovered temps mem) (more : Temps) :
    j.placeMem (temps ++ more) mem = j.placeMem temps mem := by
  have hmap : ∀ o : Option MirRegisterRef, (∀ r, o = some r → j.Covered temps r) →
      o.map (j.place (temps ++ more)) = o.map (j.place temps) := by
    intro o ho
    cases o with
    | none => rfl
    | some r => exact congrArg some ((ho r rfl).place_append more)
  unfold placeMem
  rw [hmap _ fun r hr => h r (Or.inl hr), hmap _ fun r hr => h r (Or.inr hr)]

/-- Temporaries of the rewriting. -/
def AreNew (j : SpillInput) (temps : Temps) : Prop := ∀ e ∈ temps, ¬ j.IsOld (regKey e.2)

theorem Touched.areNew (hctx : j.CtxKept ctx) (h : j.Touched ctx accs s) :
    j.AreNew s.reloadedTemps := by
  intro e he hold
  obtain ⟨i, hi⟩ := mem_iff_getElem?.mp he
  obtain ⟨hvirtual, hid⟩ := h.ids i e hi
  have hlt := hold e.2.id (by rw [regKey, if_pos hvirtual])
  have := hctx.nextId
  omega

/-! ### A register -/

section Register

variable {ctx : RegisterAllocatorCtx} {accs : List Access} {s : Rewriting}

theorem Touched.touch (h : j.Touched ctx accs s) {a : Access} (hold : j.IsOld (regKey a.1)) :
    ∃ s' r, j.job.rewriteRegisterOp a.1 a.2.isRead a.2.isWrite s = (s', r) ∧
      j.Touched ctx (accs ++ [a]) s' ∧ s'.mems = s.mems ∧
      (∃ more, s'.reloadedTemps = s.reloadedTemps ++ more) ∧
      (a.flagged = true → j.Covered s'.reloadedTemps a.1) ∧
      r.getD a.1 = if a.flagged then j.place s'.reloadedTemps a.1 else a.1 := by
  rw [rewriteRegisterOp_eq h hold]
  by_cases hboth : j.spills a.1 = true ∧ a.flagged = true
  · rw [if_pos hboth]
    cases hlookup : s.reloadedTemps.lookup (regKey a.1) with
    | some temp =>
      have hmem := mem_map_of_mem (f := Prod.fst) (mem_of_lookup hlookup)
      refine ⟨s, some temp, rfl, h.append_old fun _ _ => hmem, rfl, ⟨[], by simp⟩,
        fun _ _ => hmem, ?_⟩
      rw [if_pos hboth.2, place, if_pos hboth.1, hlookup]
    | none =>
      have hnew := lookup_eq_none_iff.mp hlookup
      refine ⟨_, _, rfl, h.newTemp hboth.2 hboth.1 hnew, rfl, ⟨_, rfl⟩, fun _ _ => ?_, ?_⟩
      · change regKey a.1 ∈ (s.reloadedTemps ++ [_]).map Prod.fst
        simp
      · rw [if_pos hboth.2, place, if_pos hboth.1]
        change _ = ((s.reloadedTemps ++ [_]).lookup (regKey a.1)).getD a.1
        rw [lookup_append, hlookup]
        simp [SpillJob.newTemp]
  · rw [if_neg hboth]
    refine ⟨s, none, rfl, h.append_old fun hf hs => absurd ⟨hs, hf⟩ hboth, rfl, ⟨[], by simp⟩,
      fun hf hs => absurd ⟨hs, hf⟩ hboth, ?_⟩
    by_cases hf : a.flagged = true
    · have hnot : ¬ j.spills a.1 = true := fun hs => hboth ⟨hs, hf⟩
      rw [if_pos hf, place, if_neg hnot, getD_none]
    · rw [if_neg hf, getD_none]

theorem Touched.stays (h : j.Touched ctx accs s) (hnew : j.AreNew temps) (hold : j.IsOld (regKey r))
    (hcovered : j.Covered temps r) :
    j.job.rewriteRegisterOp (j.place temps r) true false s = (s, none) := by
  by_cases hspills : j.spills r = true
  · cases hlookup : temps.lookup (regKey r) with
    | none => exact absurd (hcovered hspills) (lookup_eq_none_iff.mp hlookup)
    | some t =>
      rw [place, if_pos hspills, hlookup]
      exact rewriteRegisterOp_of_not_old (hnew _ (mem_of_lookup hlookup)) true false s
  · rw [place, if_neg hspills]
    have h' := rewriteRegisterOp_eq h (a := (r, .Read)) hold
    rwa [if_neg fun hc => hspills hc.1] at h'

end Register

/-! ### A memory operand -/

theorem mem_visit_memory {flag : MirOperandFlag} {a : Access}
    (h : a ∈ visitOperandRegisters (.memory mem) flag) :
    a.2 = .Read ∧ (mem.base = some a.1 ∨ mem.index = some a.1) := by
  rcases mem_append.mp h with h | h
  · obtain ⟨r, hr, rfl⟩ := mem_map.mp h
    exact ⟨rfl, Or.inl (mem_toList.mp hr)⟩
  · obtain ⟨r, hr, rfl⟩ := mem_map.mp h
    exact ⟨rfl, Or.inr (mem_toList.mp hr)⟩

section Memory

variable {ctx : RegisterAllocatorCtx} {accs : List Access} {s : Rewriting} {object : ℕ}

theorem isOld_of_names (hr : Names j.f r) : j.IsOld (regKey r) := by
  intro id hid
  by_cases hvirtual : r.isVirtual = true
  · rw [regKey, if_pos hvirtual] at hid
    obtain rfl := RegKey.vreg.inj hid
    exact j.name_lt r hr hvirtual
  · rw [regKey, if_neg hvirtual] at hid
    cases hid

/-- The registers of a memory operand of the function. -/
theorem isOld_mem {object : ℕ}
    (hr : (j.f.mems object).base = some r ∨ (j.f.mems object).index = some r) :
    j.IsOld (regKey r) := isOld_of_names (Or.inr ⟨object, hr⟩)

theorem isOld_operand {inst : Instruction} (hinst : inst ∈ j.f.code)
    (hr : .register r ∈ inst.operands) : j.IsOld (regKey r) :=
  isOld_of_names (Or.inl ⟨inst, hinst, hr⟩)

section

variable (h : j.Touched ctx accs s)
include h

theorem Touched.rewriteAddressReg_stays (hnew : j.AreNew temps) (o : Option MirRegisterRef)
    (ho : ∀ r, o = some r → j.IsOld (regKey r) ∧ j.Covered temps r) :
    j.job.rewriteAddressReg (o.map (j.place temps)) s = (s, o.map (j.place temps)) := by
  cases o with
  | none => rfl
  | some r =>
    obtain ⟨hold, hcovered⟩ := ho r rfl
    simp only [map_some, rewriteAddressReg, h.stays hnew hold hcovered, getD_none]

theorem Touched.rewriteMemory_stays (hnew : j.AreNew temps)
    (hcovered : j.MemCovered temps (j.f.mems object))
    (hmem : s.mems object = j.placeMem temps (j.f.mems object)) :
    j.job.rewriteMemory object s = s := by
  have hbase := h.rewriteAddressReg_stays hnew (j.f.mems object).base
    fun r hr => ⟨isOld_mem (Or.inl hr), hcovered r (Or.inl hr)⟩
  have hindex := h.rewriteAddressReg_stays hnew (j.f.mems object).index
    fun r hr => ⟨isOld_mem (Or.inr hr), hcovered r (Or.inr hr)⟩
  have hb : (s.mems object).base = (j.f.mems object).base.map (j.place temps) := by
    rw [hmem]
    rfl
  have hi : (s.mems object).index = (j.f.mems object).index.map (j.place temps) := by
    rw [hmem]
    rfl
  simp only [rewriteMemory, hb, hbase, setBase_self hb, Function.update_eq_self, hi,
    hindex, setIndex_self hi]

theorem Touched.touchAddress (o : Option MirRegisterRef)
    (ho : ∀ r, o = some r → j.IsOld (regKey r)) :
    ∃ s' more, j.job.rewriteAddressReg o s = (s', o.map (j.place s'.reloadedTemps)) ∧
      j.Touched ctx (accs ++ o.toList.map (·, .Read)) s' ∧ s'.mems = s.mems ∧
      s'.reloadedTemps = s.reloadedTemps ++ more ∧
      ∀ r, o = some r → j.Covered s'.reloadedTemps r := by
  cases o with
  | none => exact ⟨s, [], rfl, by simpa using h, rfl, by simp, by simp⟩
  | some r =>
    obtain ⟨s', t, hrun, htouched, hmems, ⟨more, hmore⟩, hcovered, ht⟩ :=
      h.touch (a := (r, .Read)) (ho r rfl)
    refine ⟨s', more, ?_, htouched, hmems, hmore, ?_⟩
    · have hrun' : j.job.rewriteRegisterOp r true false s = (s', t) := hrun
      have ht' : t.getD r = j.place s'.reloadedTemps r := ht
      simp only [rewriteAddressReg, hrun', ht', map_some]
    · rintro _ ⟨⟩
      exact hcovered rfl

theorem Touched.rewriteMemory (hmem : s.mems object = j.f.mems object) (flag : MirOperandFlag) :
    ∃ s' more, j.job.rewriteMemory object s = s' ∧
      j.Touched ctx (accs ++ visitOperandRegisters (.memory (j.f.mems object)) flag) s' ∧
      s'.mems = Function.update s.mems object (j.placeMem s'.reloadedTemps (j.f.mems object)) ∧
      s'.reloadedTemps = s.reloadedTemps ++ more ∧
      j.MemCovered s'.reloadedTemps (j.f.mems object) := by
  obtain ⟨s₁, more₁, hrun₁, htouched₁, hmems₁, hmore₁, hcovered₁⟩ :=
    h.touchAddress (j.f.mems object).base fun r hr => isOld_mem (Or.inl hr)
  -- the table of memory operands is no part of what the accesses are about
  have hmid : ∀ mems, j.Touched ctx (accs ++ (j.f.mems object).base.toList.map (·, .Read))
      { s₁ with mems := mems } := fun mems =>
    ⟨htouched₁.kept, htouched₁.nextId, htouched₁.nodup, htouched₁.keys, htouched₁.ids,
      htouched₁.before, htouched₁.posts⟩
  obtain ⟨s₂, more₂, hrun₂, htouched₂, hmems₂, hmore₂, hcovered₂⟩ :=
    (hmid (Function.update s₁.mems object
      (setBase (s₁.mems object) ((j.f.mems object).base.map (j.place s₁.reloadedTemps))))
      ).touchAddress (j.f.mems object).index fun r hr => isOld_mem (Or.inr hr)
  have hbase : (j.f.mems object).base.map (j.place s₁.reloadedTemps) =
      (j.f.mems object).base.map (j.place s₂.reloadedTemps) := by
    cases hb : (j.f.mems object).base with
    | none => rfl
    | some r =>
      have hcov : j.Covered s₁.reloadedTemps r := hcovered₁ r hb
      simp only [Option.map_some, hmore₂, hcov.place_append]
  have hbaseRun : j.job.rewriteAddressReg (s.mems object).base s =
      (s₁, (j.f.mems object).base.map (j.place s₁.reloadedTemps)) := by
    rw [hmem]
    exact hrun₁
  have hindexOf : (setBase (s₁.mems object)
      ((j.f.mems object).base.map (j.place s₁.reloadedTemps))).index = (j.f.mems object).index := by
    rw [hmems₁, hmem]
    rfl
  have hresult : j.job.rewriteMemory object s =
      { s₂ with mems := Function.update s₂.mems object (setIndex (s₂.mems object)
          ((j.f.mems object).index.map (j.place s₂.reloadedTemps))) } := by
    simp only [SpillJob.rewriteMemory, hbaseRun, Function.update_self, hindexOf, hrun₂]
  refine ⟨_, more₁ ++ more₂, hresult, ?_, ?_, ?_, ?_⟩
  · have hvisit : visitOperandRegisters (.memory (j.f.mems object)) flag =
        (j.f.mems object).base.toList.map (·, .Read) ++
          (j.f.mems object).index.toList.map (·, .Read) := rfl
    rw [hvisit, ← List.append_assoc]
    exact ⟨htouched₂.kept, htouched₂.nextId, htouched₂.nodup, htouched₂.keys, htouched₂.ids,
      htouched₂.before, htouched₂.posts⟩
  · have hplaced : setIndex (setBase (j.f.mems object)
        ((j.f.mems object).base.map (j.place s₁.reloadedTemps)))
          ((j.f.mems object).index.map (j.place s₂.reloadedTemps)) =
        j.placeMem s₂.reloadedTemps (j.f.mems object) := by
      rw [hbase]
      rfl
    rw [hmems₁, hmem] at hmems₂
    simp only [hmems₂, Function.update_idem, Function.update_self, hplaced]
  · rw [hmore₂, hmore₁, List.append_assoc]
  · rintro r (hr | hr)
    · rw [hmore₂]
      exact Covered.append (hcovered₁ r hr) more₂
    · exact hcovered₂ r hr

end

end Memory

end SpillInput

/-!
## The rewritten instructions

The walk over the code leaves at every position a group that fits: the operands are
placed, the code in front of it gives values to the temporaries whose first access reads,
and the code behind it stores those whose first access writes.
-/

namespace SpillInput

variable {j : SpillInput}

/-! ### Operands -/

section Operands

variable {p : ℕ} {owned : ℕ → Option Temps} {ctx : RegisterAllocatorCtx}

/-- The memory operand was rewritten with these temporaries. -/
structure Placed (j : SpillInput) (temps : Temps) (object : ℕ) (mem : MirMemory) : Prop where
  eq : mem = j.placeMem temps (j.f.mems object)
  covered : j.MemCovered temps (j.f.mems object)
  areNew : j.AreNew temps

/-- Between two operands of the instruction at `p`, where `done` were rewritten. -/
structure Between (j : SpillInput) (p : ℕ) (owned : ℕ → Option Temps) (ctx : RegisterAllocatorCtx)
    (done : List Operand) (accs : List Access) (s : Rewriting) : Prop where
  touched : j.Touched ctx accs s
  before : ∀ m temps, owned m = some temps → j.Placed temps m (s.mems m)
  here : ∀ m, owned m = none → .memory m ∈ done → j.Placed s.reloadedTemps m (s.mems m)
  rest : ∀ m, owned m = none → .memory m ∉ done → s.mems m = j.f.mems m

theorem Placed.append {object : ℕ} (h : j.Placed temps object mem) {more : Temps}
    (hnew : j.AreNew (temps ++ more)) : j.Placed (temps ++ more) object mem where
  eq := by rw [placeMem_append h.covered, ← h.eq]
  covered r hr := (h.covered r hr).append more
  areNew := hnew

theorem Between.operand (hctx : j.CtxKept ctx) {done : List Operand}
    (h : j.Between p owned ctx done accs s) {op : Operand} (flag : MirOperandFlag)
    (hold : ∀ r, op = .register r → j.IsOld (regKey r))
    (howner : ∀ m, op = .memory m → (owned m = none ↔ j.f.ownerOf m = some p)) :
    ∃ s' more, j.job.rewriteOperand flag op s = (s', j.placeOperand s'.reloadedTemps flag op) ∧
      j.Between p owned ctx (done ++ [op]) (accs ++ j.f.operandAccesses p flag op) s' ∧
      s'.reloadedTemps = s.reloadedTemps ++ more ∧
      ∀ r, op = .register r → (flag.isRead || flag.isWrite) = true →
        j.Covered s'.reloadedTemps r := by
  have hkeep : (∀ m, op ≠ .memory m) → j.f.operandAccesses p flag op = [] →
      j.Between p owned ctx (done ++ [op]) (accs ++ j.f.operandAccesses p flag op) s := by
    intro hno hnone
    rw [hnone, append_nil]
    refine ⟨h.touched, h.before, fun m hm hmem => h.here m hm ?_, fun m hm hmem => h.rest m hm ?_⟩
    · rcases mem_append.mp hmem with hmem | hmem
      · exact hmem
      · exact absurd (mem_singleton.mp hmem).symm (hno m)
    · exact fun hin => hmem (mem_append_left _ hin)
  cases op with
  | register r =>
    obtain ⟨s', t, hrun, htouched, hmems, ⟨more, hmore⟩, hcovered, ht⟩ :=
      h.touched.touch (a := (r, flag)) (hold r rfl)
    have hnew : j.AreNew (s.reloadedTemps ++ more) := hmore ▸ htouched.areNew hctx
    refine ⟨s', more, ?_, ⟨htouched, fun m temps hm => ?_, fun m hm hmem => ?_,
      fun m hm hmem => ?_⟩, hmore, ?_⟩
    · have hrun' : j.job.rewriteRegisterOp r flag.isRead flag.isWrite s = (s', t) := hrun
      have ht' : t.getD r = if (flag.isRead || flag.isWrite) = true then
          j.place s'.reloadedTemps r else r := ht
      simp only [rewriteOperand, hrun', ht', placeOperand]
    · rw [hmems]
      exact h.before m temps hm
    · rw [hmems, hmore]
      refine (h.here m hm ?_).append hnew
      rcases mem_append.mp hmem with hmem | hmem
      · exact hmem
      · cases mem_singleton.mp hmem
    · rw [hmems]
      exact h.rest m hm fun hin => hmem (mem_append_left _ hin)
    · rintro _ ⟨⟩ hflag
      exact hcovered hflag
  | memory object =>
    by_cases howned : owned object = none
    · have hacc : j.f.operandAccesses p flag (.memory object) =
          visitOperandRegisters (.memory (j.f.mems object)) flag :=
        if_pos ((howner object rfl).mp howned)
      by_cases hdone : .memory object ∈ done
      · have hplaced := h.here object howned hdone
        have hstay := h.touched.rewriteMemory_stays hplaced.areNew hplaced.covered hplaced.eq
        refine ⟨s, [], ?_, ⟨?_, h.before, fun m hm hmem => h.here m hm ?_,
          fun m hm hmem => h.rest m hm ?_⟩, by simp, by simp⟩
        · simp only [rewriteOperand, hstay, placeOperand]
        · -- the registers have their temporaries already
          have hmany : ∀ (more : List Access) (accs : List Access), j.Touched ctx accs s →
              (∀ a ∈ more, j.Covered s.reloadedTemps a.1) → j.Touched ctx (accs ++ more) s := by
            intro more
            induction more with
            | nil =>
              intro accs ht _
              rwa [append_nil]
            | cons a more ih =>
              intro accs ht hcov
              rw [append_cons]
              exact ih (accs ++ [a]) (ht.append_old fun _ hs => hcov a mem_cons_self hs)
                fun b hb => hcov b (mem_cons_of_mem _ hb)
          rw [hacc]
          exact hmany _ accs h.touched fun a ha =>
            hplaced.covered a.1 (mem_visit_memory ha).2
        · rcases mem_append.mp hmem with hmem | hmem
          · exact hmem
          · rw [Operand.memory.inj (mem_singleton.mp hmem)]
            exact hdone
        · exact fun hin => hmem (mem_append_left _ hin)
      · obtain ⟨s', more, hrun, htouched, hmems, hmore, hcovered⟩ :=
          h.touched.rewriteMemory (h.rest object howned hdone) flag
        have hnew : j.AreNew (s.reloadedTemps ++ more) := hmore ▸ htouched.areNew hctx
        refine ⟨s', more, ?_, ⟨?_, fun m temps hm => ?_, fun m hm hmem => ?_,
          fun m hm hmem => ?_⟩, hmore, by simp⟩
        · simp only [rewriteOperand, hrun, placeOperand]
        · rw [hacc]
          exact htouched
        · have hne : m ≠ object := by
            rintro rfl
            rw [howned] at hm
            cases hm
          rw [hmems, Function.update_of_ne hne]
          exact h.before m temps hm
        · by_cases hm' : m = object
          · subst hm'
            rw [hmems, Function.update_self]
            exact ⟨rfl, hcovered, hmore ▸ hnew⟩
          · rw [hmems, Function.update_of_ne hm', hmore]
            refine (h.here m hm ?_).append hnew
            rcases mem_append.mp hmem with hmem | hmem
            · exact hmem
            · exact absurd (Operand.memory.inj (mem_singleton.mp hmem)) hm'
        · have hne : m ≠ object := by
            rintro rfl
            exact hmem (by simp)
          rw [hmems, Function.update_of_ne hne]
          exact h.rest m hm fun hin => hmem (mem_append_left _ hin)
    · obtain ⟨temps, htemps⟩ := ne_none_iff_exists'.mp howned
      have hplaced := h.before object temps htemps
      have hstay := h.touched.rewriteMemory_stays hplaced.areNew hplaced.covered hplaced.eq
      have hacc : j.f.operandAccesses p flag (.memory object) = [] :=
        if_neg fun hp => howned ((howner object rfl).mpr hp)
      refine ⟨s, [], ?_, ⟨?_, h.before, fun m hm hmem => h.here m hm ?_,
        fun m hm hmem => h.rest m hm ?_⟩, by simp, by simp⟩
      · simp only [rewriteOperand, hstay, placeOperand]
      · rw [hacc, append_nil]
        exact h.touched
      · rcases mem_append.mp hmem with hmem | hmem
        · exact hmem
        · rw [Operand.memory.inj (mem_singleton.mp hmem), htemps] at hm
          cases hm
      · exact fun hin => hmem (mem_append_left _ hin)
  | integer value | floatingPoint bits | reference ref | runtimeSymbol name =>
    exact ⟨s, [], rfl, hkeep (by simp) rfl, by simp, by simp⟩

theorem Between.operands (hctx : j.CtxKept ctx) (flagAt : ℕ → MirOperandFlag) (ops : List Operand)
    (i : ℕ) {done : List Operand} (h : j.Between p owned ctx done accs s)
    (hold : ∀ r, .register r ∈ ops → j.IsOld (regKey r))
    (howner : ∀ m, .memory m ∈ ops → (owned m = none ↔ j.f.ownerOf m = some p)) :
    ∃ s' more, j.job.rewriteOperands flagAt ops i s =
        (s', j.placeFrom s'.reloadedTemps flagAt ops i) ∧
      j.Between p owned ctx (done ++ ops) (accs ++ j.f.accessesFrom p flagAt ops i) s' ∧
      s'.reloadedTemps = s.reloadedTemps ++ more := by
  induction ops generalizing i done accs s with
  | nil => exact ⟨s, [], rfl, by simpa [accessesFrom] using h, by simp⟩
  | cons op ops ih =>
    obtain ⟨s₁, more₁, hrun₁, hbetween₁, hmore₁, hcovered₁⟩ := h.operand hctx (flagAt i)
      (fun r hr => hold r (hr ▸ mem_cons_self))
      fun m hm => howner m (hm ▸ mem_cons_self)
    obtain ⟨s', more, hrun, hbetween, hmore⟩ := ih (i + 1) hbetween₁
      (fun r hr => hold r (mem_cons_of_mem _ hr))
      fun m hm => howner m (mem_cons_of_mem _ hm)
    have hfirst : j.placeOperand s₁.reloadedTemps (flagAt i) op =
        j.placeOperand s'.reloadedTemps (flagAt i) op := by
      cases op with
      | register r =>
        by_cases hflag : ((flagAt i).isRead || (flagAt i).isWrite) = true
        · simp only [placeOperand, hflag, if_true, hmore, (hcovered₁ r rfl hflag).place_append]
        · rw [placeOperand, placeOperand, if_neg hflag, if_neg hflag]
      | _ => rfl
    refine ⟨s', more₁ ++ more, ?_, ?_, ?_⟩
    · simp only [rewriteOperands, hrun₁, hrun, placeFrom, hfirst]
    · rw [append_assoc] at hbetween
      rw [accessesFrom, ← append_assoc]
      exact (append_cons done op ops) ▸ (by simpa using hbetween)
    · rw [hmore, hmore₁, append_assoc]

end Operands

/-! ### Instructions -/

/-- An instruction that puts the value of a temporary into the register's slot. -/
def Stores (j : SpillInput) (k : RegKey) (temp : MirRegisterRef) (inst : Instruction) : Prop :=
  ∃ size slot, j.slots.spilledRegs k = some slot ∧ inst = emitSpill size slot temp

/-- What is made of the instruction at `p`, with temporaries numbered from `start`. -/
structure Fits (j : SpillInput) (p start : ℕ) (g : SpillJob.Group) : Prop where
  inst : g.inst = { j.f.instAt p with
    operands := j.placeFrom g.reloadedTemps (j.f.instAt p).getOperandFlag (j.f.instAt p).operands
      0 }
  nodup : (g.reloadedTemps.map Prod.fst).Nodup
  keys : ∀ k, k ∈ g.reloadedTemps.map Prod.fst ↔
    ∃ a ∈ j.f.accesses p, regKey a.1 = k ∧ a.flagged = true ∧ j.spills a.1 = true
  ids : ∀ i e, g.reloadedTemps[i]? = some e → e.2.isVirtual = true ∧ e.2.id = start + i
  before : Forall₂ (fun e inst => j.Reloads e.1 e.2 inst)
    (g.reloadedTemps.filter fun e => loadsIn (j.f.accesses p) e.1) g.before
  after : Forall₂ (fun e inst => j.Stores e.1 e.2 inst)
    (g.reloadedTemps.filter fun e =>
      storesIn (j.f.accesses p) e.1 && (j.rematConst e.1).isNone).reverse g.after

theorem Touched.start (hctx : j.CtxKept ctx) (mems : ℕ → MirMemory) :
    j.Touched ctx [] ⟨ctx, mems, [], [], []⟩ :=
  ⟨hctx, rfl, nodup_nil, by simp, by simp, Forall₂.nil, Forall₂.nil⟩

theorem Touched.after (h : j.Touched ctx accs s) : Forall₂ (fun e inst => j.Stores e.1 e.2 inst)
      (s.reloadedTemps.filter fun e => storesIn accs e.1 && (j.rematConst e.1).isNone).reverse
      (s.postSpills.reverse.map fun spill =>
        emitSpill (s.ctx.sizeInBits spill.1.id) spill.2 spill.1) := by
  rw [forall₂_map_right_iff]
  refine (forall₂_reverse_iff.mpr h.posts).imp fun e spill hspill => ?_
  obtain ⟨htemp, hslot⟩ := hspill
  exact ⟨_, _, hslot, by rw [htemp]⟩

variable {mems : ℕ → MirMemory} {g : SpillJob.Group} {groups : List SpillJob.Group}

theorem rewriteInstruction_fits (hp : p < j.f.code.length) {owned : ℕ → Option Temps}
    (hctx : j.CtxKept ctx) (hbefore : ∀ m temps, owned m = some temps → j.Placed temps m (mems m))
    (hrest : ∀ m, owned m = none → mems m = j.f.mems m)
    (howner : ∀ m, .memory m ∈ (j.f.instAt p).operands →
      (owned m = none ↔ j.f.ownerOf m = some p)) :
    ∃ g ctx' mems', j.job.rewriteInstruction (j.f.instAt p) ctx mems = (g, ctx', mems') ∧
      j.Fits p ctx.nextId g ∧ j.CtxKept ctx' ∧
      ctx'.nextId = ctx.nextId + g.reloadedTemps.length ∧
      (∀ m temps, owned m = some temps → j.Placed temps m (mems' m)) ∧
      (∀ m, owned m = none → .memory m ∈ (j.f.instAt p).operands →
        j.Placed g.reloadedTemps m (mems' m)) ∧
      ∀ m, owned m = none → .memory m ∉ (j.f.instAt p).operands → mems' m = j.f.mems m := by
  have hmem := instAt_mem hp
  have hstart : j.Between p owned ctx [] [] ⟨ctx, mems, [], [], []⟩ :=
    ⟨Touched.start hctx mems, hbefore, fun _ _ h => absurd h not_mem_nil,
      fun m hm _ => hrest m hm⟩
  obtain ⟨s, more, hrun, hbetween, -⟩ := hstart.operands hctx (j.f.instAt p).getOperandFlag
    (j.f.instAt p).operands 0 (fun r hr => isOld_operand hmem hr) howner
  rw [nil_append] at hbetween
  have htouched : j.Touched ctx (j.f.accesses p) s := hbetween.touched
  let after := s.postSpills.reverse.map fun spill =>
    emitSpill (s.ctx.sizeInBits spill.1.id) spill.2 spill.1
  let inst := { j.f.instAt p with
    operands := j.placeFrom s.reloadedTemps (j.f.instAt p).getOperandFlag (j.f.instAt p).operands
      0 }
  refine ⟨⟨s.before, inst, after, s.reloadedTemps⟩, s.ctx, s.mems, ?_, ⟨rfl, htouched.nodup,
    htouched.keys, htouched.ids, htouched.before, htouched.after⟩, htouched.kept,
    htouched.nextId, hbetween.before, hbetween.here, hbetween.rest⟩
  simp only [rewriteInstruction, hrun, inst, after]

/-! ### The walk over the code -/

/-- The number of the first temporary of the instruction at `p`. -/
def startAt (j : SpillInput) (groups : List SpillJob.Group) (p : ℕ) : ℕ :=
  j.ctx.nextId + ((groups.take p).map (·.reloadedTemps.length)).sum

/-- The first `p` instructions were rewritten. -/
structure Walked (j : SpillInput) (p : ℕ) (c : RewrittenCode) (ctx : RegisterAllocatorCtx) :
    Prop where
  length : c.groups.length = p
  kept : j.CtxKept ctx
  nextId : ctx.nextId = j.startAt c.groups p
  fits : ∀ q < p, j.Fits q (j.startAt c.groups q) (c.groupAt q)
  placed : ∀ m q, j.f.ownerOf m = some q → q < p → j.Placed (c.groupAt q).reloadedTemps m (c.mems m)
  rest : ∀ m, (∀ q < p, j.f.ownerOf m ≠ some q) → c.mems m = j.f.mems m

theorem ctxKept_slots : j.CtxKept j.slots :=
  ⟨fun _ _ => by rw [j.slotsKept.unspillableRegs], rfl, by rw [j.slotsKept.nextId]⟩

theorem groupAt_append {c : RewrittenCode} {q : ℕ} (hq : q < c.groups.length) :
    (RewrittenCode.mk (c.groups ++ [g]) mems).groupAt q = c.groupAt q := by
  unfold RewrittenCode.groupAt
  exact getD_append c.groups [g] _ q hq

theorem groupAt_length : (RewrittenCode.mk (groups ++ [g]) mems).groupAt groups.length = g := by
  unfold RewrittenCode.groupAt
  simp

theorem startAt_append {q : ℕ} (hq : q ≤ groups.length) :
    j.startAt (groups ++ [g]) q = j.startAt groups q := by
  unfold startAt
  rw [take_append_of_le_length hq]

theorem startAt_succ : j.startAt (groups ++ [g]) (groups.length + 1) =
      j.startAt groups groups.length + g.reloadedTemps.length := by
  unfold startAt
  rw [take_of_length_le (by simp), take_length, map_append, sum_append,
    map_singleton, sum_singleton, Nat.add_assoc]

theorem Walked.next (hp : p < j.f.code.length) {c : RewrittenCode} (h : j.Walked p c ctx) :
    ∃ g ctx' mems', j.job.rewriteInstruction (j.f.instAt p) ctx c.mems = (g, ctx', mems') ∧
      j.Walked (p + 1) ⟨c.groups ++ [g], mems'⟩ ctx' := by
  let owned : ℕ → Option Temps := fun m =>
    (j.f.ownerOf m).bind fun q => if q < p then some (c.groupAt q).reloadedTemps else none
  have howned_some : ∀ m temps, owned m = some temps →
      ∃ q < p, j.f.ownerOf m = some q ∧ temps = (c.groupAt q).reloadedTemps := by
    intro m temps hm
    obtain ⟨q, hq, hif⟩ := bind_eq_some_iff.mp hm
    by_cases hlt : q < p
    · rw [if_pos hlt] at hif
      exact ⟨q, hlt, hq, (some.inj hif).symm⟩
    · rw [if_neg hlt] at hif
      cases hif
  have howned_of : ∀ m q, j.f.ownerOf m = some q → q < p →
      owned m = some (c.groupAt q).reloadedTemps := by
    intro m q hq hlt
    simp only [owned, hq, bind_some, if_pos hlt]
  have howned_none : ∀ m, owned m = none ↔ ∀ q < p, j.f.ownerOf m ≠ some q := by
    intro m
    constructor
    · intro hnone q hlt hq
      rw [howned_of m q hq hlt] at hnone
      cases hnone
    · intro hno
      cases howned : owned m with
      | none => rfl
      | some temps =>
        obtain ⟨q, hlt, hq, -⟩ := howned_some m temps howned
        exact absurd hq (hno q hlt)
  obtain ⟨g, ctx', mems', hrun, hfits, hkept, hnext, hbefore, hhere, hrest⟩ :=
    rewriteInstruction_fits hp h.kept
      (fun m temps (hm : owned m = some temps) => by
        obtain ⟨q, hlt, hq, rfl⟩ := howned_some m temps hm
        exact h.placed m q hq hlt)
      (fun m hm => h.rest m ((howned_none m).mp hm))
      (fun m hmem => by
        obtain ⟨q, hle, hq⟩ := exists_ownerOf hp hmem
        rw [howned_none, hq]
        constructor
        · intro hno
          rcases hle.lt_or_eq with hlt | rfl
          · exact absurd rfl (hno q hlt)
          · rfl
        · intro heq q' hlt
          rw [heq]
          exact fun hc => absurd (some.inj hc) hlt.ne')
  refine ⟨g, ctx', mems', hrun, ?_⟩
  have hlen := h.length
  constructor
  case length => simp [hlen]
  case kept => exact hkept
  case nextId =>
    rw [hnext, h.nextId, ← hlen, startAt_succ]
  case fits =>
    intro q hq
    rcases Nat.lt_succ_iff_lt_or_eq.mp hq with hlt | rfl
    · rw [startAt_append (by omega), groupAt_append (by omega)]
      exact h.fits q hlt
    · rw [startAt_append (by omega), ← h.nextId]
      rw [← hlen] at hfits ⊢
      rwa [groupAt_length]
  case placed =>
    intro m q howner hq
    rcases Nat.lt_succ_iff_lt_or_eq.mp hq with hlt | rfl
    · rw [groupAt_append (by omega)]
      exact hbefore m _ (howned_of m q howner hlt)
    · have hnone : owned m = none := by
        rw [howned_none, howner]
        exact fun q' hlt hc => absurd (some.inj hc) hlt.ne'
      have hplaced := hhere m hnone (ownerOf_eq_some howner).2
      rw [← hlen, groupAt_length]
      exact hplaced
  case rest =>
    intro m hno
    refine hrest m ((howned_none m).mpr fun q hlt => hno q (Nat.lt_succ_of_lt hlt)) fun hmem => ?_
    obtain ⟨q, hle, hq⟩ := exists_ownerOf hp hmem
    exact hno q (Nat.lt_succ_of_le hle) hq

theorem walked (j : SpillInput) : ∀ p ≤ j.f.code.length, ∃ c ctx,
    j.job.rewriteCode (j.f.code.take p) j.slots j.f.mems = (c.groups, ctx, c.mems) ∧
      j.Walked p c ctx
  | 0, _ => by
    refine ⟨⟨[], j.f.mems⟩, j.slots, rfl, rfl, ctxKept_slots, j.slotsKept.nextId,
      fun _ hq => absurd hq (Nat.not_lt_zero _), fun _ _ _ hq => absurd hq (Nat.not_lt_zero _),
      fun _ _ => rfl⟩
  | p + 1, hp => by
    obtain ⟨c, ctx, hrun, hwalked⟩ := walked j p (Nat.le_of_succ_le hp)
    obtain ⟨g, ctx', mems', hstep, hwalked'⟩ := hwalked.next hp
    refine ⟨⟨c.groups ++ [g], mems'⟩, ctx', ?_, hwalked'⟩
    have htake : j.f.code.take (p + 1) = j.f.code.take p ++ [j.f.instAt p] := by
      unfold instAt
      rw [getD_eq_getElem _ _ hp, take_concat_get']
    rw [htake, rewriteCode_append, hrun]
    simp only [rewriteCode, hstep]

theorem rewritten_walked (j : SpillInput) : ∃ ctx, j.Walked j.f.code.length j.rewritten ctx := by
  obtain ⟨c, ctx, hrun, hwalked⟩ := walked j j.f.code.length le_rfl
  rw [take_length] at hrun
  have hc : j.rewritten = c := by
    unfold rewritten
    rw [hrun]
  exact ⟨ctx, hc ▸ hwalked⟩

end SpillInput

end EzPacker.SpillCode
