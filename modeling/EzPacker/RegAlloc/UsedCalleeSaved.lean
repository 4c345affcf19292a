import EzPacker.RegAlloc.RegisterAllocatorPass

/-!
# The callee-saved registers that an allocation uses

Merging into a physical register and giving a node a colour note the register of the
convention's `preserve callee` list that is the same hardware register, also in an
attempt that fails later. What was noted stays noted, so that at the end every register
of the list that stands for a virtual register is there.
-/

namespace EzPacker.RegAlloc

open List Option Mir KeyedSet InterferenceGraph

/-- Two names of one hardware register; a name without a class is one of any bank. -/
def isSamePhysReg (a b : MirRegisterRef) : Bool :=
  !a.isVirtual && !b.isVirtual && a.id = b.id && mayShareBank a b

def addPhysRegUse (used : List MirRegisterRef) (ref : MirRegisterRef) : List MirRegisterRef :=
  insert regKey used ref

section

variable (target : TargetRegisters) (calleeSaved : List MirRegisterRef)

def noteUse (used : List MirRegisterRef) (physRef : MirRegisterRef) : List MirRegisterRef :=
  match calleeSaved.find? (isSamePhysReg · physRef) with
  | some reg => addPhysRegUse used reg
  | none => used

/-- What the merges of `coalesceLoop` note. -/
def noteMerges (candidates : List (MirRegisterRef × MirRegisterRef)) :
    ℕ → RegisterAllocatorCtx → List MirRegisterRef → List MirRegisterRef
  | 0, _, used => used
  | n + 1, ctx, used =>
    match nextMerge target candidates ctx with
    | (ctx, some (u, v)) =>
      noteMerges candidates n (ctx.merge u v)
        (if u.isVirtual then used else noteUse calleeSaved used u)
    | (_, none) => used

/-- What the assignments of `selectLoop` note. -/
def noteColors : List MirRegisterRef → RegisterAllocatorCtx → List MirRegisterRef →
    List MirRegisterRef
  | [], _, used => used
  | node :: stack, ctx, used =>
    match pickColor target ctx node with
    | some physRef =>
      noteColors stack (ctx.assign node physRef) (noteUse calleeSaved used physRef)
    | none =>
      if contains regKey ctx.unspillableRegs node then used
      else noteColors stack ctx used

end

namespace AllocatorPass

variable (pass : AllocatorPass) (calleeSaved : List MirRegisterRef)

def noteAttempt (f : SelectedFunction) (carried : Carried) (used : List MirRegisterRef) :
    List MirRegisterRef :=
  let start := pass.buildInterferenceGraph f carried
  let used :=
    if pass.coalescingEnabled then
      noteMerges pass.target calleeSaved (coalesceCandidates f)
        (start.iGraph.nodes.length + 1) start used
    else used
  match simplify pass.target pass.mapOrder pass.setOrder f
      (evaluateInterferenceGraphDegree (pass.coalesced f carried)) with
  | some ctx => noteColors pass.target calleeSaved ctx.selectStack ctx used
  | none => used

def noteLoop : ℕ → SelectedFunction → Carried → List MirRegisterRef → List MirRegisterRef
  | 0, _, _, used => used
  | n + 1, f, carried, used =>
    match pass.attempt f carried with
    | none | some (.colored _) => pass.noteAttempt calleeSaved f carried used
    | some (.spilled spilledNodes ctx) =>
      let rewritten := pass.rewriteSpilledRegisters f spilledNodes ctx
      noteLoop n rewritten.1 (pass.carryOver f carried rewritten.2)
        (pass.noteAttempt calleeSaved f carried used)
    | some (.outOfColors ctx) =>
      noteLoop n f (pass.carryOver f carried ctx.unspillableRegs)
        (pass.noteAttempt calleeSaved f carried used)

def usedCalleeSavedRegs (f : SelectedFunction) : List MirRegisterRef :=
  pass.noteLoop calleeSaved maxIterations f ⟨[], [], false, false⟩ []

end AllocatorPass

variable {reg : MirRegisterRef}

section

variable {target : TargetRegisters} {calleeSaved : List MirRegisterRef}

/-- If the convention preserves the register, some name of it is noted. -/
def IsNoted (calleeSaved used : List MirRegisterRef) (physRef : MirRegisterRef) : Prop :=
  (∃ reg ∈ calleeSaved, isSamePhysReg reg physRef = true) →
    ∃ reg ∈ used, isSamePhysReg reg physRef = true

variable {used : List MirRegisterRef}

theorem mem_addPhysRegUse {ref : MirRegisterRef} (h : reg ∈ used) :
    reg ∈ addPhysRegUse used ref := by
  unfold addPhysRegUse KeyedSet.insert
  split
  · exact h
  · exact mem_append_left _ h

theorem subset_noteUse (used : List MirRegisterRef) (physRef : MirRegisterRef) :
    used ⊆ noteUse calleeSaved used physRef := by
  intro reg hreg
  unfold noteUse
  split
  · exact mem_addPhysRegUse hreg
  · exact hreg

theorem IsNoted.mono {used' : List MirRegisterRef} {physRef : MirRegisterRef}
    (h : IsNoted calleeSaved used physRef) (hsub : used ⊆ used') :
    IsNoted calleeSaved used' physRef := by
  intro hex
  obtain ⟨reg, hreg, hsame⟩ := h hex
  exact ⟨reg, hsub hreg, hsame⟩

theorem isNoted_noteUse (used : List MirRegisterRef) {physRef : MirRegisterRef}
    (hphysical : ∀ reg ∈ calleeSaved, reg.isVirtual = false) :
    IsNoted calleeSaved (noteUse calleeSaved used physRef) physRef := by
  rintro ⟨reg, hreg, hsame⟩
  unfold noteUse
  split
  · next found hfound =>
      -- A name that is there already under its key is the very same one.
      have hmem : found ∈ addPhysRegUse used found := by
        unfold addPhysRegUse KeyedSet.insert
        split
        · next hin =>
            obtain ⟨a, ha, hkey⟩ := mem_keys.mp (contains_iff.mp hin)
            have hfoundPhysical := hphysical found (mem_of_find?_eq_some hfound)
            rwa [eq_of_regKey hfoundPhysical hkey.symm]
        · simp
      have hfoundSame : isSamePhysReg found physRef = true := by
        simpa using find?_some hfound
      exact ⟨found, hmem, hfoundSame⟩
  · next hnone =>
      have hnot := find?_eq_none.mp hnone reg hreg
      exact absurd hsame hnot

theorem noteMerges_spec {candidates : List (MirRegisterRef × MirRegisterRef)} (n : ℕ)
    {ctx : RegisterAllocatorCtx} (hphysical : ∀ reg ∈ calleeSaved, reg.isVirtual = false)
    (h : ∀ e ∈ ctx.coalescedRegs, e.2.isVirtual = false → IsNoted calleeSaved used e.2) :
    ∀ e ∈ (coalesceLoop target candidates n ctx).coalescedRegs, e.2.isVirtual = false →
      IsNoted calleeSaved (noteMerges target calleeSaved candidates n ctx used) e.2 := by
  induction n generalizing ctx used with
  | zero => exact h
  | succ n ih =>
    have hfields := nextMerge_fields target candidates ctx
    unfold coalesceLoop noteMerges
    rcases hnext : nextMerge target candidates ctx with ⟨ctx', _ | ⟨u, v⟩⟩
    · rw [hnext] at hfields
      intro e he
      rw [← hfields.2.1] at h
      exact h e he
    · rw [hnext] at hfields
      apply ih
      intro e he hvirtual
      rcases mem_cons.mp he with rfl | he
      · change u.isVirtual = false at hvirtual
        rw [if_neg (by simp [hvirtual])]
        exact isNoted_noteUse used hphysical
      · rw [hfields.2.1] at he
        apply (h e he hvirtual).mono
        split
        · exact Subset.refl used
        · exact subset_noteUse used u

theorem subset_noteColors (stack : List MirRegisterRef) (ctx : RegisterAllocatorCtx)
    (used : List MirRegisterRef) :
    used ⊆ noteColors target calleeSaved stack ctx used := by
  induction stack generalizing ctx used with
  | nil => exact Subset.refl used
  | cons node stack ih =>
    unfold noteColors
    split
    · next physRef _ => exact Subset.trans (subset_noteUse used physRef) (ih _ _)
    · split
      · exact Subset.refl used
      · exact ih _ _

theorem noteColors_spec {stack spilled used : List MirRegisterRef} {ctx ctx' : RegisterAllocatorCtx}
    (hphysical : ∀ reg ∈ calleeSaved, reg.isVirtual = false)
    (h : ∀ k p, k.isVirtual = true → ctx.allocatedRegs k = some p → IsNoted calleeSaved used p)
    (hresult : selectLoop target stack spilled ctx = .colored ctx') :
    ctx'.coalescedRegs = ctx.coalescedRegs ∧
      ∀ k p, k.isVirtual = true → ctx'.allocatedRegs k = some p →
        IsNoted calleeSaved (noteColors target calleeSaved stack ctx used) p := by
  induction stack generalizing spilled used ctx with
  | nil =>
    cases spilled with
    | nil =>
      cases hresult
      exact ⟨rfl, h⟩
    | cons node spilled => cases hresult
  | cons node stack ih =>
    unfold selectLoop at hresult
    unfold noteColors
    cases hpick : pickColor target ctx node with
    | some physRef =>
      rw [hpick] at hresult
      refine @ih _ _ (ctx.assign node physRef) ?_ hresult
      intro k p hk hp
      change (if k = regKey node then some physRef else ctx.allocatedRegs k) = some p
        at hp
      split at hp
      · obtain rfl := some.inj hp
        exact isNoted_noteUse used hphysical
      · exact (h k p hk hp).mono (subset_noteUse used physRef)
    | none =>
      rw [hpick] at hresult
      dsimp only at hresult ⊢
      split at hresult
      · cases hresult
      · next hspillable =>
          rw [if_neg hspillable]
          exact ih h hresult

end

section

variable {pass : AllocatorPass} {calleeSaved : List MirRegisterRef} {f : SelectedFunction}
  {carried : Carried}

theorem noteAttempt_spec (hphysical : ∀ reg ∈ calleeSaved, reg.isVirtual = false)
    {ctx : RegisterAllocatorCtx} (h : pass.attempt f carried = some (.colored ctx))
    (used : List MirRegisterRef) (hreg : reg.isVirtual = true)
    (hassigned : (rewriteReg ctx reg).isVirtual = false) :
    IsNoted calleeSaved (pass.noteAttempt calleeSaved f carried used) (rewriteReg ctx reg) := by
  unfold AllocatorPass.attempt at h
  obtain ⟨ctx₁, hsimplify, hselect⟩ := map_eq_some_iff.mp h
  set merged := if pass.coalescingEnabled then
    noteMerges pass.target calleeSaved (coalesceCandidates f)
      ((pass.buildInterferenceGraph f carried).iGraph.nodes.length + 1)
      (pass.buildInterferenceGraph f carried) used
    else used with hmergedDef
  have hnote : pass.noteAttempt calleeSaved f carried used =
      noteColors pass.target calleeSaved ctx₁.selectStack ctx₁ merged := by
    unfold AllocatorPass.noteAttempt
    rw [hsimplify]
  have hfields : ctx₁.coalescedRegs = (pass.coalesced f carried).coalescedRegs ∧
      ctx₁.allocatedRegs =
        (evaluateInterferenceGraphDegree (pass.coalesced f carried)).allocatedRegs := by
    unfold simplify at hsimplify
    split at hsimplify
    · cases hsimplify
    · obtain rfl := some.inj hsimplify
      exact ⟨rfl, rfl⟩
  have hstart : ∀ k p, k.isVirtual = true → ctx₁.allocatedRegs k = some p →
      IsNoted calleeSaved merged p := by
    -- Only physical registers have a colour before selection.
    intro k p hk hp
    rw [hfields.2] at hp
    have hcond := find?_some hp
    simp only [decide_eq_true_eq] at hcond
    rw [← hcond.2, regKey_isVirtual, hcond.1] at hk
    cases hk
  obtain ⟨hsame, hcolors⟩ := noteColors_spec hphysical hstart hselect
  have hmerges : ∀ e ∈ ctx.coalescedRegs, e.2.isVirtual = false →
      IsNoted calleeSaved merged e.2 := by
    intro e he hvirtual
    rw [hsame, hfields.1] at he
    rw [hmergedDef]
    unfold AllocatorPass.coalesced at he
    split at he
    · next henabled =>
        rw [if_pos henabled]
        refine noteMerges_spec _ hphysical ?_ e he hvirtual
        intro e he
        cases he
    · cases he
  rw [hnote]
  unfold rewriteReg at hassigned ⊢
  rw [if_pos hreg] at hassigned ⊢
  split at hassigned
  · next hleader =>
      rw [if_pos hleader]
      unfold RegisterAllocatorCtx.getCoalescedLeader at hleader ⊢
      rcases leaderFrom_eq_or_mem ctx.coalescedRegs ctx.coalescedRegs.length reg with
        heq | ⟨e, he, heq⟩
      · rw [heq, hreg] at hleader
        cases hleader
      · rw [heq] at hleader ⊢
        exact (hmerges e he hleader).mono (subset_noteColors _ _ _)
  · next hleader =>
      rw [if_neg hleader]
      cases hp : ctx.allocatedRegs (regKey (ctx.getCoalescedLeader reg)) with
      | none =>
        rw [hp, getD_none, hreg] at hassigned
        cases hassigned
      | some p =>
        rw [getD_some]
        exact hcolors _ p (by simpa using hleader) hp

theorem usedCalleeSavedRegs_spec (hphysical : ∀ reg ∈ calleeSaved, reg.isVirtual = false)
    {r : AllocationResult} (h : pass.run f = some r) (hreg : reg.isVirtual = true)
    (hassigned : (rewriteReg r.ctx reg).isVirtual = false) :
    IsNoted calleeSaved (pass.usedCalleeSavedRegs calleeSaved f) (rewriteReg r.ctx reg) := by
  have hloop : ∀ (n : ℕ) (f : SelectedFunction) (carried : Carried)
      (used : List MirRegisterRef), pass.runLoop n f carried = some r →
      IsNoted calleeSaved (pass.noteLoop calleeSaved n f carried used) (rewriteReg r.ctx reg) := by
    intro n
    induction n with
    | zero => exact fun _ _ _ h => nomatch h
    | succ n ih =>
      intro f carried used h
      unfold AllocatorPass.runLoop at h
      unfold AllocatorPass.noteLoop
      rcases hattempt : pass.attempt f carried with
        _ | ctx | ⟨spilledNodes, ctx⟩ | ctx <;> rw [hattempt] at h
      · cases h
      · obtain rfl := some.inj h
        exact noteAttempt_spec hphysical hattempt used hreg hassigned
      · exact ih _ _ _ h
      · exact ih _ _ _ h
  exact hloop _ _ _ _ h

end

end EzPacker.RegAlloc
