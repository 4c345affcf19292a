import EzPacker.RegAlloc.RegisterAllocatorPass

/-!
# Reserved registers

The stack pointer, and the frame pointer of a function that has one, are reserved in every attempt.
No merge is into a reserved register and no node gets one as its colour, so that no virtual register
is replaced by one.
-/

namespace EzPacker.RegAlloc

open List Option Mir KeyedSet InterferenceGraph

/-- A physical register that its class lists. -/
structure IsListed (target : TargetRegisters) (r : MirRegisterRef) : Prop where
  physical : r.isVirtual = false
  listed : ∃ c, r.regClass = some c ∧ r.id ∈ target.classRegs c

/-- What an attempt keeps of the reserved registers. -/
structure Spares (reserved : List MirRegisterRef) (ctx : RegisterAllocatorCtx) : Prop where
  reserved_eq : ctx.reservedRegs = reserved
  coalesced : ∀ e ∈ ctx.coalescedRegs, contains regKey reserved e.2 = false
  allocated : ∀ k, k.isVirtual = true → ∀ p, ctx.allocatedRegs k = some p →
    contains regKey reserved p = false

section

variable {target : TargetRegisters} {ctx : RegisterAllocatorCtx} {node p : MirRegisterRef}
  {reserved : List MirRegisterRef}

theorem pickColor_free (h : pickColor target ctx node = some p) :
    p.regClass = node.regClass ∧ isUsed (usedColors target ctx node) p.id = false := by
  unfold pickColor at h
  dsimp only at h
  split at h
  · next color hpreferred =>
      obtain rfl := some.inj h
      obtain ⟨partner, -, hfilter⟩ := exists_of_findSome?_eq_some hpreferred
      obtain ⟨-, hcond⟩ := filter_eq_some_iff.mp hfilter
      simp only [decide_eq_true_eq] at hcond
      exact hcond.2
  · have hmem := mem_of_find?_eq_some h
    unfold availableColors at hmem
    split at hmem
    · next c hc =>
        obtain ⟨id, -, rfl⟩ := mem_map.mp hmem
        exact ⟨hc.symm, by simpa using find?_some h⟩
    · cases hmem

variable (hclasses : ∀ c, ∀ id ∈ target.classRegs c, id < 64)
include hclasses

/-- The reserved registers of the node's class are marked before its neighbours are. -/
theorem isUsed_of_reserved (hp : IsListed target p) (hclass : p.regClass = node.regClass)
    (hreserved : contains regKey ctx.reservedRegs p = true) :
    isUsed (usedColors target ctx node) p.id = true := by
  obtain ⟨c, hc, hid⟩ := hp.listed
  have hmem : p ∈ (availableColors target node).filter (contains regKey ctx.reservedRegs) := by
    refine mem_filter.mpr ⟨?_, hreserved⟩
    unfold availableColors
    rw [← hclass, hc]
    refine mem_map.mpr ⟨p.id, hid, ?_⟩
    unfold preg
    rw [← hc, ← hp.physical]
  obtain ⟨before, after, hsplit⟩ := append_of_mem hmem
  have hkeep : ∀ (l : List MirRegisterRef) (used : List ℕ), p.id ∈ used →
      p.id ∈ l.foldl (fun used ref => markUsed used ref.id) used := by
    intro l
    induction l with
    | nil => exact fun _ h => h
    | cons r l ih => exact fun used h => ih _ (mem_markUsed_of_mem h)
  have hused : p.id ∈ usedColors target ctx node := by
    unfold usedColors
    rw [hsplit, foldl_append, foldl_cons]
    exact mem_foldl_markNeighbor _ (hkeep after _ (mem_markUsed (hclasses c _ hid)))
  simp [isUsed, hused, hclasses c _ hid]

theorem Spares.selectLoop (hlisted : ∀ r ∈ reserved, IsListed target r)
    {stack spilled : List MirRegisterRef} {ctx' : RegisterAllocatorCtx} (h : Spares reserved ctx)
    (hresult : selectLoop target stack spilled ctx = .colored ctx') : Spares reserved ctx' := by
  induction stack generalizing spilled ctx with
  | nil =>
    cases spilled with
    | nil =>
      cases hresult
      exact h
    | cons node spilled => cases hresult
  | cons node stack ih =>
    unfold RegAlloc.selectLoop at hresult
    split at hresult
    · next p hpick =>
        obtain ⟨hclass, hfree⟩ := pickColor_free hpick
        have h' : Spares reserved (ctx.assign node p) := by
          refine ⟨h.reserved_eq, h.coalesced, fun k hk q hq => ?_⟩
          change (if k = regKey node then some p else ctx.allocatedRegs k) = some q at hq
          split at hq
          · obtain rfl := some.inj hq
            refine contains_eq_false.mpr fun hmem => ?_
            obtain ⟨r, hr, hkey⟩ := mem_keys.mp hmem
            obtain rfl := eq_of_regKey (hlisted r hr).physical hkey
            have hused : isUsed (usedColors target ctx node) r.id = true :=
              isUsed_of_reserved hclasses (hlisted r hr) hclass
                (h.reserved_eq ▸ contains_iff.mpr hmem)
            exact Bool.false_ne_true (hfree.symm.trans hused)
          · exact h.allocated k hk q hq
        exact ih h' hresult
    · split at hresult
      · cases hresult
      · exact ih h hresult

end
theorem coalesceLoop_spares {target : TargetRegisters}
    {candidates : List (MirRegisterRef × MirRegisterRef)} {n : ℕ} {ctx : RegisterAllocatorCtx}
    (h : ∀ e ∈ ctx.coalescedRegs, contains regKey ctx.reservedRegs e.2 = false) :
    (coalesceLoop target candidates n ctx).reservedRegs = ctx.reservedRegs ∧
      ∀ e ∈ (coalesceLoop target candidates n ctx).coalescedRegs,
        contains regKey ctx.reservedRegs e.2 = false := by
  induction n generalizing ctx with
  | zero => exact ⟨rfl, h⟩
  | succ n ih =>
    unfold coalesceLoop
    obtain ⟨-, hcoalesced, hreserved⟩ := nextMerge_fields target candidates ctx
    split
    · next ctx' u v hnext =>
        rw [hnext] at hcoalesced hreserved
        dsimp only at hcoalesced hreserved
        have heligible := (nextMerge_eligible hnext).1
        unfold isEligible at heligible
        simp only [Bool.and_eq_true, Bool.not_eq_true'] at heligible
        obtain ⟨⟨⟨⟨⟨⟨⟨-, hu⟩, -⟩, -⟩, -⟩, -⟩, -⟩, -⟩ := heligible
        rw [hreserved] at hu
        have h' : ∀ e ∈ (ctx'.merge u v).coalescedRegs,
            contains regKey ctx.reservedRegs e.2 = false := by
          intro e he
          rcases mem_cons.mp he with rfl | he
          · exact hu
          · exact h e (hcoalesced ▸ he)
        rw [← hreserved] at h' ⊢
        exact ih h'
    · next ctx' hnext =>
        rw [hnext] at hcoalesced hreserved
        exact ⟨hreserved, fun e he => h e (hcoalesced ▸ he)⟩

section

variable {pass : AllocatorPass} {f : SelectedFunction} {carried : Carried}
  {ctx : RegisterAllocatorCtx}

theorem Spares.attempt (hclasses : ∀ c, ∀ id ∈ pass.target.classRegs c, id < 64)
    (hlisted : ∀ r ∈ (pass.noteInstructions f carried).reservedRegs, IsListed pass.target r)
    (h : pass.attempt f carried = some (.colored ctx)) :
    Spares (pass.noteInstructions f carried).reservedRegs ctx := by
  have hcoalesced : (pass.coalesced f carried).reservedRegs =
      (pass.noteInstructions f carried).reservedRegs ∧
      ∀ e ∈ (pass.coalesced f carried).coalescedRegs,
        contains regKey (pass.noteInstructions f carried).reservedRegs e.2 = false := by
    unfold AllocatorPass.coalesced
    split
    · exact @coalesceLoop_spares _ _ _ (pass.buildInterferenceGraph f carried)
        fun _ h => (not_mem_nil h).elim
    · exact ⟨rfl, fun _ h => (not_mem_nil h).elim⟩
  unfold AllocatorPass.attempt at h
  obtain ⟨ctx₁, hsimplify, hselect⟩ := map_eq_some_iff.mp h
  have hstart : Spares (pass.noteInstructions f carried).reservedRegs ctx₁ := by
    unfold simplify at hsimplify
    split at hsimplify
    · cases hsimplify
    · obtain rfl := some.inj hsimplify
      refine ⟨hcoalesced.1, hcoalesced.2, fun k hk p hp => ?_⟩
      -- Only physical registers have a colour so far.
      have hcond := find?_some hp
      simp only [decide_eq_true_eq] at hcond
      rw [← hcond.2, regKey_isVirtual, hcond.1] at hk
      cases hk
  exact hstart.selectLoop hclasses hlisted hselect

theorem mem_keys_reserveBankReg {target : TargetRegisters} {reserved : List MirRegisterRef}
    {reg : MirRegisterRef} {k : RegKey} (h : k ∈ keys regKey reserved ∨ k = regKey reg) :
    k ∈ keys regKey (reserveBankReg target reserved reg) :=
  mem_keys_insertAll.mpr (.inl (mem_keys_insert.mpr h))

theorem isListed_reserveRegs {target : TargetRegisters} {cc : CallingConvDesc}
    (hsp : IsListed target cc.stackPointerReg) (hfp : IsListed target cc.framePointerReg)
    {reserved : List MirRegisterRef} (h : ∀ r ∈ reserved, IsListed target r)
    (hasDynamicAllocs hasCalls : Bool) :
    ∀ r ∈ reserveRegs target (some cc) hasDynamicAllocs hasCalls reserved, IsListed target r := by
  have hbank : ∀ {reserved : List MirRegisterRef} {reg : MirRegisterRef}, IsListed target reg →
      (∀ r ∈ reserved, IsListed target r) → ∀ r ∈ reserveBankReg target reserved reg,
        IsListed target r := by
    intro reserved reg hreg h r hr
    rcases mem_of_mem_insertAll hr with hr | hr
    · rcases mem_of_mem_insert hr with hr | rfl
      · exact h r hr
      · exact hreg
    · split at hr
      · obtain ⟨other, -, hr⟩ := mem_flatMap.mp hr
        obtain ⟨id, hid, rfl⟩ := mem_map.mp hr
        exact ⟨rfl, other, rfl, (mem_filter.mp hid).1⟩
      · cases hr
  unfold reserveRegs
  dsimp only
  rw [if_pos hsp.physical]
  split
  · exact hbank hsp (hbank hfp h)
  · exact hbank hsp h

variable {cc : CallingConvDesc} (hcc : pass.callingConv = some cc)
  (hsp : IsListed pass.target cc.stackPointerReg) (hfp : IsListed pass.target cc.framePointerReg)
include hcc hsp hfp

theorem isListed_noteInstructions (h : ∀ r ∈ carried.reservedRegs, IsListed pass.target r) :
    ∀ r ∈ (pass.noteInstructions f carried).reservedRegs, IsListed pass.target r := by
  unfold AllocatorPass.noteInstructions
  dsimp only
  rw [hcc]
  exact isListed_reserveRegs hsp hfp h _ _

theorem isListed_of_runLoop {n : ℕ} {result : AllocationResult}
    (h : ∀ r ∈ carried.reservedRegs, IsListed pass.target r)
    (hrun : pass.runLoop n f carried = some result) :
    ∀ r ∈ result.carried.reservedRegs, IsListed pass.target r := by
  induction n generalizing f carried with
  | zero => cases hrun
  | succ n ih =>
    unfold AllocatorPass.runLoop at hrun
    split at hrun
    · cases hrun
    · obtain rfl := some.inj hrun
      exact h
    · refine ih ?_ hrun
      exact isListed_noteInstructions hcc hsp hfp h
    · refine ih ?_ hrun
      exact isListed_noteInstructions hcc hsp hfp h

end

/-- Register 0 is the stack pointer, under both of its names. -/
def stackPass : AllocatorPass :=
  { smallPass with
    callingConv := some
      { callerSavedRegs := []
        callerSaved_physical := by decide
        hasFramePointer := fun _ _ => true
        framePointerReg := preg gpr64 0
        stackPointerReg := preg gpr64 0 } }

def oneValue : SelectedFunction :=
  blockFunction [targetInst 1 [.Write] [] [] [.register (vreg32 0)]] (by decide)

end EzPacker.RegAlloc
