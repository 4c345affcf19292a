import EzPacker.Abi.ArgumentPlaces

/-!
# The calls the shipped conventions get right

`FitsInRegisters` says, for each shipped convention and in terms of the types of a
signature, that every argument gets a register of its own which survives the call
and the prologue. The counts are those of the integer, floating-point and aggregate
arguments. An aggregate takes the next caller-saved register of its class whether
or not the integer sequence has handed it out.
-/

namespace EzPacker.Abi

open CallLoweringState CallingConvDesc ArgumentLocationDesc List

open Mir (MirType MirTypeKind)

def integers (types : List MirType) : ℕ := types.countP isInteger

def floats (types : List MirType) : ℕ := types.countP isFloat

def aggregates (types : List MirType) : ℕ := types.countP isAggregate

variable {type : MirType} {s : CallLoweringState} {types : List MirType}

theorem isInteger_of_isFloat (h : isFloat type = true) : isInteger type = false := by
  cases hk : type.kind <;> simp_all [isFloat, isInteger]

namespace CallingConvDesc

variable (cc : CallingConvDesc)

def pool : List MirRegisterRef := CallLoweringState.usableRegs cc 64

/-- The room a state has left for the types: enough registers in each sequence and
in the pool, and no aggregate of a class without a pool. -/
def HasRoom (types : List MirType) (s : CallLoweringState) : Prop :=
  s.integerCursor + integers types ≤ cc.integerRegs.length ∧
    s.floatCursor + floats types ≤ cc.floatRegs.length ∧
    s.allocated 64 + aggregates types ≤ cc.pool.length ∧
    ∀ type ∈ types, isAggregate type = true → cc.resolveClassForType type = 64

/-- The registers the rules hand out to the types from a state on, sequence by
sequence. -/
def handedOut (types : List MirType) (s : CallLoweringState) : List MirRegisterRef :=
  (cc.integerRegs.drop s.integerCursor).take (integers types) ++
    ((cc.floatRegs.drop s.floatCursor).take (floats types) ++
      (cc.pool.drop (s.allocated 64)).take (aggregates types))

theorem drop_take_succ {α : Type*} {xs : List α} {i : ℕ} {x : α} (h : xs[i]? = some x)
    (n : ℕ) : (xs.drop i).take (n + 1) = x :: (xs.drop (i + 1)).take n := by
  obtain ⟨hi, rfl⟩ := List.getElem?_eq_some_iff.mp h
  rw [drop_eq_getElem_cons hi, take_succ_cons]

theorem getArgLoc_float (hrules : cc.unifiedSlots = []) (h : isFloat type = true)
    (s : CallLoweringState) : (∃ reg size, cc.floatRegs[s.floatCursor]? = some reg ∧
        cc.getArgLoc type s = (.Reg reg size, { s with floatCursor := s.floatCursor + 1 })) ∨
      (cc.floatRegs.length ≤ s.floatCursor ∧ (cc.getArgLoc type s).1.isReg = false) := by
  cases hreg : cc.floatRegs[s.floatCursor]? with
  | some reg => exact .inl ⟨reg, (type.totalSizeInBits + 7) / 8, rfl,
      by simp [getArgLoc, hrules, h, hreg]⟩
  | none =>
    exact .inr ⟨getElem?_eq_none_iff.mp hreg,
      by simp [getArgLoc, hrules, h, hreg, stackLoc, isReg]⟩

theorem getArgLoc_integer (hrules : cc.unifiedSlots = []) (hfloat : isFloat type = false)
    (h : isInteger type = true) (s : CallLoweringState) :
    (∃ reg size, cc.integerRegs[s.integerCursor]? = some reg ∧ cc.getArgLoc type s =
          (.Reg reg size, { s with integerCursor := s.integerCursor + 1 })) ∨
      (cc.integerRegs.length ≤ s.integerCursor ∧ (cc.getArgLoc type s).1.isReg = false) := by
  cases hreg : cc.integerRegs[s.integerCursor]? with
  | some reg => exact .inl ⟨reg, (type.totalSizeInBits + 7) / 8, rfl,
      by simp [getArgLoc, hrules, hfloat, h, hreg]⟩
  | none =>
    exact .inr ⟨getElem?_eq_none_iff.mp hreg,
      by simp [getArgLoc, hrules, hfloat, h, hreg, stackLoc, isReg]⟩

theorem getArgLoc_aggregate (hrules : cc.unifiedSlots = []) (h : isAggregate type = true)
    (s : CallLoweringState) :
    (∃ reg size s', cc.resolveClassForType type = 64 ∧ cc.pool[s.allocated 64]? = some reg ∧
        cc.getArgLoc type s = (.Reg reg size, s') ∧ s'.slotIndex = s.slotIndex ∧
        s'.integerCursor = s.integerCursor ∧ s'.floatCursor = s.floatCursor ∧
        s'.allocated 64 = s.allocated 64 + 1) ∨
      ((cc.resolveClassForType type ≠ 64 ∨ cc.pool.length ≤ s.allocated 64) ∧
        (cc.getArgLoc type s).1.isReg = false) := by
  obtain ⟨hfloat, hint⟩ : isFloat type = false ∧ isInteger type = false := by
    simpa [isAggregate] using h
  rcases Decidable.em (cc.resolveClassForType type = 64) with hclass | hclass
  · cases hreg : (usableRegs cc 64)[s.allocated 64]? with
    | some reg =>
      refine .inl ⟨reg, (type.totalSizeInBits + 7) / 8, { s with
        allocated := fun c => if c = 64 then s.allocated c + 1 else s.allocated c },
        hclass, hreg, ?_, rfl, rfl, rfl, rfl⟩
      simp [getArgLoc, hrules, hfloat, hint, allocate, hclass, hreg]
    | none =>
      refine .inr ⟨.inr (getElem?_eq_none_iff.mp hreg), ?_⟩
      simp [getArgLoc, hrules, hfloat, hint, allocate, hclass, hreg,
        stackLoc, isReg]
  · refine .inr ⟨.inl hclass, ?_⟩
    simp [getArgLoc, hrules, hfloat, hint, allocate,
      usableRegs, hclass, stackLoc, isReg]

variable {cc}

/-- The cursors of a state are within their sequences. -/
structure Within (cc : CallingConvDesc) (s : CallLoweringState) : Prop where
  integer : s.integerCursor ≤ cc.integerRegs.length
  float : s.floatCursor ≤ cc.floatRegs.length
  pool : s.allocated 64 ≤ cc.pool.length

/-- One argument takes the register `reg` and leaves `s'` for the others. -/
structure Takes (cc : CallingConvDesc) (type : MirType) (s : CallLoweringState)
    (reg : MirRegisterRef) (s' : CallLoweringState) : Prop where
  loc : ∃ size, cc.getArgLoc type s = (.Reg reg size, s')
  within : Within cc s'
  room : ∀ types, cc.HasRoom (type :: types) s ↔ cc.HasRoom types s'
  perm : ∀ types, (reg :: cc.handedOut types s').Perm (cc.handedOut (type :: types) s)

section

variable (hrules : cc.unifiedSlots = [])
include hrules

theorem takes_float (hf : isFloat type = true) (hs : Within cc s) :
    (∃ reg s', Takes cc type s reg s') ∨
      (cc.getArgLoc type s).1.isReg = false ∧ ∀ types, ¬ cc.HasRoom (type :: types) s := by
  have hi := isInteger_of_isFloat hf
  have ha : isAggregate type = false := by simp [isAggregate, hf]
  have hcounts : ∀ types, integers (type :: types) = integers types ∧
      floats (type :: types) = floats types + 1 ∧
      aggregates (type :: types) = aggregates types := by
    simp [integers, floats, aggregates, hf, hi, ha]
  rcases cc.getArgLoc_float hrules hf s with ⟨reg, size, hreg, hloc⟩ | ⟨hfull, hloc⟩
  · have hlt := (List.getElem?_eq_some_iff.mp hreg).1
    refine .inl ⟨reg, { s with floatCursor := s.floatCursor + 1 }, ⟨size, hloc⟩,
      ⟨hs.integer, hlt, hs.pool⟩, ?_, ?_⟩
    · intro types
      simp only [HasRoom, hcounts, forall_mem_cons, ha]
      constructor
      · rintro ⟨h1, h2, h3, -, h4⟩
        exact ⟨h1, by omega, h3, h4⟩
      · rintro ⟨h1, h2, h3, h4⟩
        exact ⟨h1, by omega, h3, by simp, h4⟩
    · intro types
      simp only [handedOut, hcounts, drop_take_succ hreg, cons_append]
      exact perm_middle.symm
  · refine .inr ⟨hloc, ?_⟩
    rintro types ⟨-, h2, -⟩
    have hcount := (hcounts types).2.1
    omega

theorem takes_integer (hf : isFloat type = false) (hi : isInteger type = true) (hs : Within cc s) :
    (∃ reg s', Takes cc type s reg s') ∨
      (cc.getArgLoc type s).1.isReg = false ∧ ∀ types, ¬ cc.HasRoom (type :: types) s := by
  have ha : isAggregate type = false := by simp [isAggregate, hi]
  have hcounts : ∀ types, integers (type :: types) = integers types + 1 ∧
      floats (type :: types) = floats types ∧
      aggregates (type :: types) = aggregates types := by
    simp [integers, floats, aggregates, hf, hi, ha]
  rcases cc.getArgLoc_integer hrules hf hi s with ⟨reg, size, hreg, hloc⟩ | ⟨hfull, hloc⟩
  · have hlt := (List.getElem?_eq_some_iff.mp hreg).1
    refine .inl ⟨reg, { s with integerCursor := s.integerCursor + 1 }, ⟨size, hloc⟩,
      ⟨hlt, hs.float, hs.pool⟩, ?_, ?_⟩
    · intro types
      simp only [HasRoom, hcounts, forall_mem_cons, ha]
      constructor
      · rintro ⟨h1, h2, h3, -, h4⟩
        exact ⟨by omega, h2, h3, h4⟩
      · rintro ⟨h1, h2, h3, h4⟩
        exact ⟨by omega, h2, h3, by simp, h4⟩
    · intro types
      simp only [handedOut, hcounts, drop_take_succ hreg, cons_append]
      exact Perm.refl _
  · refine .inr ⟨hloc, ?_⟩
    rintro types ⟨h1, -⟩
    have hcount := (hcounts types).1
    omega

theorem takes_aggregate (ha : isAggregate type = true) (hs : Within cc s) :
    (∃ reg s', Takes cc type s reg s') ∨
      (cc.getArgLoc type s).1.isReg = false ∧ ∀ types, ¬ cc.HasRoom (type :: types) s := by
  have hkinds : isFloat type = false ∧ isInteger type = false := by
    simpa [isAggregate] using ha
  have hcounts : ∀ types, integers (type :: types) = integers types ∧
      floats (type :: types) = floats types ∧
      aggregates (type :: types) = aggregates types + 1 := by
    simp [integers, floats, aggregates, ha, hkinds]
  rcases cc.getArgLoc_aggregate hrules ha s with
    ⟨reg, size, s', hclass, hreg, hloc, -, hint, hfloat, hpool⟩ | ⟨hfull, hloc⟩
  · have hlt := (List.getElem?_eq_some_iff.mp hreg).1
    refine .inl ⟨reg, s', ⟨size, hloc⟩, ⟨hint ▸ hs.integer, hfloat ▸ hs.float, hpool ▸ hlt⟩, ?_, ?_⟩
    · intro types
      simp only [HasRoom, hcounts, forall_mem_cons, ha, hclass, hint, hfloat, hpool]
      constructor
      · rintro ⟨h1, h2, h3, -, h4⟩
        exact ⟨h1, h2, by omega, h4⟩
      · rintro ⟨h1, h2, h3, h4⟩
        exact ⟨h1, h2, by omega, by simp, h4⟩
    · intro types
      simp only [handedOut, hcounts, drop_take_succ hreg, hint, hfloat, hpool]
      rw [← append_assoc, ← append_assoc]
      exact perm_middle.symm
  · refine .inr ⟨hloc, ?_⟩
    rintro types ⟨-, -, h3, h4⟩
    have hcount := (hcounts types).2.2
    rcases hfull with hclass | hpool
    · exact hclass (h4 type (by simp) ha)
    · omega

theorem takes_or_full (type : MirType) (hs : Within cc s) : (∃ reg s', Takes cc type s reg s') ∨
      (cc.getArgLoc type s).1.isReg = false ∧ ∀ types, ¬ cc.HasRoom (type :: types) s := by
  cases hf : isFloat type with
  | true => exact takes_float hrules hf hs
  | false =>
    cases hi : isInteger type with
    | true => exact takes_integer hrules hf hi hs
    | false => exact takes_aggregate hrules (by simp [isAggregate, hf, hi]) hs

/-- With rules, the arguments all get registers exactly when there is room for
them, and the registers are the next ones of each sequence. -/
theorem isReg_iff_hasRoom (types : List MirType) {s : CallLoweringState} (hs : Within cc s) :
    ((∀ loc ∈ (cc.getArgLocs types s).1, loc.isReg = true) ↔ cc.HasRoom types s) ∧
      (cc.HasRoom types s → ((cc.getArgLocs types s).1.filterMap ArgumentLocationDesc.reg?).Perm
          (cc.handedOut types s)) := by
  induction types generalizing s with
  | nil =>
    have hroom : cc.HasRoom [] s := ⟨hs.integer, hs.float, hs.pool, by simp⟩
    simp [getArgLocs, hroom, handedOut, integers, floats, aggregates]
  | cons type types ih =>
    rw [getArgLocs_cons, forall_mem_cons]
    rcases takes_or_full hrules type hs with ⟨reg, s', htakes⟩ | ⟨hstack, hfull⟩
    · obtain ⟨size, hloc⟩ := htakes.loc
      obtain ⟨hiff, hperm⟩ := ih htakes.within
      rw [hloc, htakes.room types]
      refine ⟨by simpa using hiff, ?_⟩
      intro h
      exact ((hperm h).cons reg).trans (htakes.perm types)
    · simp [hstack, hfull types]

end

theorem within_new (cc : CallingConvDesc) (frame : List StackFrameObject) :
    Within cc (CallLoweringState.new frame) :=
  ⟨Nat.zero_le _, Nat.zero_le _, Nat.zero_le _⟩

theorem isReg_iff_slots (hslots : cc.unifiedSlots ≠ []) (types : List MirType)
    (s : CallLoweringState) (hs : s.slotIndex ≤ cc.unifiedSlots.length) :
    ((∀ loc ∈ (cc.getArgLocs types s).1, loc.isReg = true) ↔
        s.slotIndex + types.length ≤ cc.unifiedSlots.length) ∧
      (s.slotIndex + types.length ≤ cc.unifiedSlots.length →
        ((cc.getArgLocs types s).1.filterMap ArgumentLocationDesc.reg?).Sublist
          ((cc.unifiedSlots.drop s.slotIndex).flatMap fun slot =>
            [slot.integer, slot.sse])) := by
  induction types generalizing s with
  | nil => simp [getArgLocs, hs]
  | cons type types ih =>
    rw [getArgLocs_cons, forall_mem_cons]
    cases hslot : cc.unifiedSlots[s.slotIndex]? with
    | none =>
      have hfull := getElem?_eq_none_iff.mp hslot
      have hloc : (cc.getArgLoc type s).1.isReg = false := by
        simp [getArgLoc, hslots, hslot, stackLoc, isReg]
      have hlt : ¬ s.slotIndex + (type :: types).length ≤ cc.unifiedSlots.length := by
        simp only [length_cons]
        omega
      exact ⟨iff_of_false (by simp [hloc]) hlt, fun h => absurd h hlt⟩
    | some slot =>
      obtain ⟨hlt, rfl⟩ := List.getElem?_eq_some_iff.mp hslot
      have hloc : ∃ size, cc.getArgLoc type s =
          (.Reg (if isFloat type then cc.unifiedSlots[s.slotIndex].sse
            else cc.unifiedSlots[s.slotIndex].integer) size,
            { s with slotIndex := s.slotIndex + 1 }) :=
        ⟨(type.totalSizeInBits + 7) / 8, by simp [getArgLoc, hslots, hslot]⟩
      obtain ⟨size, hloc⟩ := hloc
      obtain ⟨hiff, hsub⟩ := ih { s with slotIndex := s.slotIndex + 1 } hlt
      have hlength : s.slotIndex + (type :: types).length = s.slotIndex + 1 + types.length := by
        simp only [length_cons]
        omega
      rw [hloc, hlength]
      refine ⟨by simpa using hiff, ?_⟩
      intro h
      rw [drop_eq_getElem_cons hlt]
      cases isFloat type with
      | true => exact ((hsub h).cons_cons _).cons _
      | false => exact ((hsub h).cons _).cons_cons _

/-- When the floating-point registers are of a bank of their own, only the integer
sequence and the pool can hand out one register twice. -/
theorem nodup_handedOut_iff (hfloat : cc.floatRegs.Nodup) (hfpr : ∀ r ∈ cc.floatRegs, r.bank = .FPR)
    (hgpr : ∀ r ∈ cc.integerRegs ++ cc.pool, r.bank = .GPR) (types : List MirType)
    (frame : List StackFrameObject) :
    (cc.handedOut types (CallLoweringState.new frame)).Nodup ↔
      (cc.integerRegs.take (integers types) ++ cc.pool.take (aggregates types)).Nodup := by
  have hperm : (cc.handedOut types (new frame)).Perm
      (cc.floatRegs.take (floats types) ++ (cc.integerRegs.take (integers types) ++
        cc.pool.take (aggregates types))) := by
    simp only [handedOut, new, drop_zero, ← append_assoc]
    exact perm_append_comm.append_right _
  have hdisjoint : ∀ r ∈ cc.floatRegs.take (floats types),
      ∀ r' ∈ cc.integerRegs.take (integers types) ++ cc.pool.take (aggregates types), r ≠ r' := by
    rintro r hr r' hr' rfl
    have hbank := hfpr r (mem_of_mem_take hr)
    rw [hgpr r] at hbank
    · cases hbank
    · rcases mem_append.mp hr' with h | h
      · exact mem_append_left _ (mem_of_mem_take h)
      · exact mem_append_right _ (mem_of_mem_take h)
  rw [hperm.nodup_iff, nodup_append]
  constructor
  · rintro ⟨-, h, -⟩
    exact h
  · intro h
    exact ⟨hfloat.sublist (take_sublist _ _), h, hdisjoint⟩

theorem mem_sequences_of_not_aggregate (hrules : cc.unifiedSlots = []) {i size : ℕ}
    {reg : MirRegisterRef} (hloc : (cc.getArgLocs types s).1[i]? = some (.Reg reg size))
    (htype : types[i]? = some type) (ha : isAggregate type = false) :
    reg ∈ cc.integerRegs ++ cc.floatRegs := by
  induction types generalizing s i with
  | nil => simp at htype
  | cons t types ih =>
    rw [getArgLocs_cons] at hloc
    cases i with
    | succ i => exact ih (by simpa using hloc) (by simpa using htype)
    | zero =>
      obtain rfl : t = type := by simpa using htype
      have hhead : (cc.getArgLoc t s).1 = .Reg reg size := by simpa using hloc
      cases hf : isFloat t with
      | true =>
        rcases cc.getArgLoc_float hrules hf s with ⟨r, n, hr, h⟩ | ⟨-, h⟩
        · obtain ⟨rfl, -⟩ : r = reg ∧ n = size := by simpa [h] using hhead
          exact mem_append_right _ (mem_of_getElem? hr)
        · simp [hhead] at h
      | false =>
        have hi : isInteger t = true := by simpa [isAggregate, hf] using ha
        rcases cc.getArgLoc_integer hrules hf hi s with ⟨r, n, hr, h⟩ | ⟨-, h⟩
        · obtain ⟨rfl, -⟩ : r = reg ∧ n = size := by simpa [h] using hhead
          exact mem_append_left _ (mem_of_getElem? hr)
        · simp [hhead] at h

end CallingConvDesc

/-- The signatures whose arguments all get registers that reach the callee.
`frameSize` is the size of the callee's frame without stack parameters. -/
def FitsInRegisters (conv : ShippedConv) (types : List MirType) (frameSize : ℕ) : Prop :=
  match conv with
  | .SysV_AMD64 =>
    integers types ≤ 6 ∧ floats types ≤ 8 ∧ aggregates types ≤ 9 ∧
      (∀ type ∈ types, isAggregate type = true → 32 < type.totalSizeInBits) ∧
      (aggregates types ≤ 1 ∨ integers types = 0 ∨ integers types + aggregates types ≤ 5) ∧
      (aggregates types ≤ 8 ∨ frameSize < 4096)
  | .Win64 => types.length ≤ 4
  | .LP64D => integers types ≤ 8 ∧ floats types ≤ 8 ∧ aggregates types = 0

namespace CallScenario

variable (c : CallScenario)

/-- The size of the callee's frame without stack parameters. -/
def localFrameSize : ℕ :=
  (calculateFrameLayout c.cc c.calleeUsedCalleeSaved c.calleeLaterObjects).totalFrameSize

theorem frame_of_isReg (cc : CallingConvDesc)
    (h : ∀ loc ∈ (cc.getArgLocs types s).1, loc.isReg = true) :
    (cc.getArgLocs types s).2.frame = s.frame := by
  induction types generalizing s with
  | nil => rfl
  | cons type types ih =>
    rw [getArgLocs_cons, forall_mem_cons] at h
    rcases cc.getArgLoc_cases type s with ⟨-, hframe⟩ | ⟨size, hloc, -⟩
    · rw [getArgLocs_cons, ih h.2, hframe]
    · rw [hloc] at h
      cases h.1

theorem calleeFrameSize_of_isReg (h : ∀ loc ∈ c.calleeLocs, loc.isReg = true) :
    c.calleeFrameSize = c.localFrameSize := by
  have hframe := frame_of_isReg c.cc h
  simp only [new] at hframe
  simp [calleeFrameSize, calleeFrame, lowerFrame, processFunctionArguments,
    new, hframe, localFrameSize]

end CallScenario

theorem resolveClassForType_SysV_AMD64 (type : MirType) :
    SysV_AMD64.resolveClassForType type = 64 ↔ 32 < type.totalSizeInBits := by
  simp only [resolveClassForType, SysV_AMD64]
  split
  · simp
    omega
  · split
    · simp
      omega
    · split
      · simp
        omega
      · simp
        omega

theorem nodup_SysV_AMD64 : ∀ k ≤ 6, ∀ a ≤ 9,
    ((SysV_AMD64.integerRegs.take k ++ SysV_AMD64.pool.take a).Nodup ↔
      a ≤ 1 ∨ k = 0 ∨ k + a ≤ 5) := by
  decide

theorem probeReg_mem_pool_take : ∀ a ≤ 9, (probeReg ∈ SysV_AMD64.pool.take a ↔ ¬ a ≤ 8) := by
  decide

theorem handedOut_SysV_AMD64 (types : List MirType) :
    (SysV_AMD64.handedOut types (CallLoweringState.new [])).Nodup ↔
      (SysV_AMD64.integerRegs.take (integers types) ++
        SysV_AMD64.pool.take (aggregates types)).Nodup :=
  nodup_handedOut_iff (by decide) (by decide) (by decide) types []

theorem handedOut_LP64D (types : List MirType) :
    (LP64D.handedOut types (CallLoweringState.new [])).Nodup ↔
      (LP64D.integerRegs.take (integers types) ++ LP64D.pool.take (aggregates types)).Nodup :=
  nodup_handedOut_iff (by decide) (by decide) (by decide) types []

/-- Membership in what is handed out, sequence by sequence. -/
theorem mem_handedOut {cc : CallingConvDesc} {r : MirRegisterRef} :
    r ∈ cc.handedOut types (CallLoweringState.new []) ↔
      r ∈ cc.integerRegs.take (integers types) ∨ r ∈ cc.floatRegs.take (floats types) ∨
        r ∈ cc.pool.take (aggregates types) := by
  simp [handedOut, new]

namespace CallScenario

variable {c : CallScenario}

theorem arrive_iff_SysV_AMD64 (hconv : c.conv = .SysV_AMD64) :
    c.ArgumentsArrive ↔ FitsInRegisters .SysV_AMD64 c.types c.localFrameSize := by
  have hcc : c.cc = SysV_AMD64 := by rw [cc, hconv]; rfl
  have htarget : c.cc.target = .X86_64 := by rw [hcc]; rfl
  obtain ⟨hiff, hperm⟩ := @isReg_iff_hasRoom SysV_AMD64 rfl c.types _
    (within_new SysV_AMD64 [])
  have hclass : (∀ type ∈ c.types, isAggregate type = true →
      SysV_AMD64.resolveClassForType type = 64) ↔
        ∀ type ∈ c.types, isAggregate type = true → 32 < type.totalSizeInBits := by
    simp only [resolveClassForType_SysV_AMD64]
  have hroom : SysV_AMD64.HasRoom c.types (new []) ↔
      integers c.types ≤ 6 ∧ floats c.types ≤ 8 ∧ aggregates c.types ≤ 9 ∧
        ∀ type ∈ c.types, isAggregate type = true → 32 < type.totalSizeInBits := by
    rw [HasRoom, hclass]
    simp [new, SysV_AMD64, pool, usableRegs]
  have hlocs : c.calleeLocs = (SysV_AMD64.getArgLocs c.types (new [])).1 := by
    rw [calleeLocs, hcc]
  rw [← hlocs] at hiff
  rw [hroom] at hiff hperm
  constructor
  · intro h
    have hreg := c.isReg_of_arrive h
    obtain ⟨hk, hf, ha, hwide⟩ := hiff.mp hreg
    have hregs := hperm ⟨hk, hf, ha, hwide⟩
    have hnodup := c.nodup_of_arrive h
    rw [registers, hlocs, hregs.nodup_iff, handedOut_SysV_AMD64,
      nodup_SysV_AMD64 _ hk _ ha] at hnodup
    refine ⟨hk, hf, ha, hwide, hnodup, ?_⟩
    by_contra hprobe
    obtain ⟨ha8, hframe⟩ := not_or.mp hprobe
    have hmem : probeReg ∈ c.registers := by
      rw [registers, hlocs, hregs.mem_iff, mem_handedOut]
      exact .inr (.inr ((probeReg_mem_pool_take _ ha).mpr ha8))
    obtain ⟨i, hi⟩ := getElem?_of_mem hmem
    obtain ⟨type, htype⟩ : ∃ type, c.types[i]? = some type :=
      ⟨_, getElem?_eq_getElem (c.lt_length_of_registers hi)⟩
    have hagg : isAggregate type = true := by
      by_contra hagg
      rw [c.registers_getElem? hreg] at hi
      obtain ⟨loc, hloc, hloc'⟩ := Option.bind_eq_some_iff.mp hi
      cases loc with
      | Stack size object => cases hloc'
      | Reg ref size =>
        obtain rfl : ref = probeReg := Option.some.inj hloc'
        rw [hlocs] at hloc
        have hseq := mem_sequences_of_not_aggregate rfl hloc htype
          (by simpa using hagg)
        exact absurd hseq (by decide)
    have hbits := hwide type (mem_of_getElem? htype) hagg
    rw [not_lt, ← c.calleeFrameSize_of_isReg hreg] at hframe
    exact c.probeReg_notAt_of_arrive h htarget hframe htype (by omega) hi
  · rintro ⟨hk, hf, ha, hwide, hdistinct, hprobe⟩
    have hreg := hiff.mpr ⟨hk, hf, ha, hwide⟩
    have hregs := hperm ⟨hk, hf, ha, hwide⟩
    apply c.arrive_of_registers hreg
    · rw [registers, hlocs, hregs.nodup_iff, handedOut_SysV_AMD64, nodup_SysV_AMD64 _ hk _ ha]
      exact hdistinct
    · intro r hr
      rw [registers, hlocs, hregs.mem_iff, mem_handedOut] at hr
      rw [htarget, c.calleeFrameSize_of_isReg hreg]
      intro hclobbered
      simp only [clobbered] at hclobbered
      split at hclobbered
      · next hframe =>
          obtain rfl : r = probeReg := by simpa using hclobbered
          have ha8 : aggregates c.types ≤ 8 := by omega
          rcases hr with hr | hr | hr
          · exact absurd (mem_of_mem_take hr) (by decide)
          · exact absurd (mem_of_mem_take hr) (by decide)
          · exact (probeReg_mem_pool_take _ ha).mp hr ha8
      · cases hclobbered

theorem arrive_iff_Win64 (hconv : c.conv = .Win64) :
    c.ArgumentsArrive ↔ FitsInRegisters .Win64 c.types c.localFrameSize := by
  have hcc : c.cc = Win64 := by rw [cc, hconv]; rfl
  obtain ⟨hiff, hsub⟩ := @isReg_iff_slots Win64 (by decide) c.types
    (new []) (Nat.zero_le _)
  have hlength : (new []).slotIndex + c.types.length ≤
      Win64.unifiedSlots.length ↔ c.types.length ≤ 4 := by
    simp [new, Win64]
  have hlocs : c.calleeLocs = (Win64.getArgLocs c.types (new [])).1 := by
    rw [calleeLocs, hcc]
  rw [hlength, ← hlocs] at hiff
  rw [hlength, ← hlocs] at hsub
  constructor
  · intro h
    exact hiff.mp (c.isReg_of_arrive h)
  · intro h
    apply c.arrive_of_registers (hiff.mpr h)
    · exact Nodup.sublist (hsub h) (by decide)
    · intro r hr
      have hmem := (hsub h).subset hr
      rw [hcc]
      intro hclobbered
      simp only [clobbered, Win64] at hclobbered
      split at hclobbered
      · obtain rfl : r = probeReg := by simpa using hclobbered
        exact absurd hmem (by decide)
      · cases hclobbered

theorem arrive_iff_LP64D (hconv : c.conv = .LP64D) :
    c.ArgumentsArrive ↔ FitsInRegisters .LP64D c.types c.localFrameSize := by
  have hcc : c.cc = LP64D := by rw [cc, hconv]; rfl
  have htarget : c.cc.target = .RiscV64 := by rw [hcc]; rfl
  obtain ⟨hiff, hperm⟩ := @isReg_iff_hasRoom LP64D rfl c.types _
    (within_new LP64D [])
  have hlocs : c.calleeLocs = (LP64D.getArgLocs c.types (new [])).1 := by
    rw [calleeLocs, hcc]
  rw [← hlocs] at hiff
  constructor
  · intro h
    have hreg := c.isReg_of_arrive h
    have hroom := hiff.mp hreg
    have hra := c.raReg_notMem_of_arrive h htarget
    rw [registers, hlocs, (hperm hroom).mem_iff, mem_handedOut] at hra
    obtain ⟨hk, hf, -, -⟩ := hroom
    refine ⟨by simpa [new, LP64D] using hk,
      by simpa [new, LP64D] using hf, ?_⟩
    -- The first register of the pool is the return address register.
    by_contra ha
    apply hra
    obtain ⟨n, hn⟩ := Nat.exists_eq_succ_of_ne_zero ha
    rw [hn]
    exact .inr (.inr (by simp [pool, usableRegs, LP64D, raReg]))
  · rintro ⟨hk, hf, ha⟩
    have hnone : ∀ type ∈ c.types, ¬ isAggregate type = true :=
      countP_eq_zero.mp ha
    have hroom : LP64D.HasRoom c.types (new []) :=
      ⟨by simpa [new, LP64D] using hk,
        by simpa [new, LP64D] using hf,
        by simp [new, ha],
        fun type htype hagg => absurd hagg (hnone type htype)⟩
    have hregs := hperm hroom
    apply c.arrive_of_registers (hiff.mpr hroom)
    · rw [registers, hlocs, hregs.nodup_iff, handedOut_LP64D, ha, take_zero, append_nil]
      exact Nodup.sublist (take_sublist _ _) (by decide)
    · intro r hr
      rw [registers, hlocs, hregs.mem_iff, mem_handedOut, ha, take_zero] at hr
      rw [htarget]
      intro hclobbered
      obtain rfl : r = raReg := by simpa [clobbered] using hclobbered
      rcases hr with hr | hr | hr
      · exact absurd (mem_of_mem_take hr) (by decide)
      · exact absurd (mem_of_mem_take hr) (by decide)
      · cases hr

def i64 : MirType := ⟨.Integer, 6, 6, 64, 64, MirType.wordAlignment⟩

/-- Seven integers to a function without locals, from a caller without locals. -/
def sevenIntegers : CallScenario where
  conv := .SysV_AMD64
  types := replicate 7 i64
  callerObjects := []
  callerLaterObjects := []
  calleeLaterObjects := []
  callerUsedCalleeSaved := []
  calleeUsedCalleeSaved := []
  entry := ⟨fun _ => 0, fun _ => 0, 65536, 65536, fun _ => 0⟩
  dynamicBytes := 0
  regs := fun _ => 0
  mem := fun _ => 0
  returnAddress := 4096
  returnAddress_pos := by decide

end CallScenario

end EzPacker.Abi
