import EzPacker.RegAlloc.Coloring

/-!
# The register allocation pass

The pass builds the graph, coalesces when that is enabled, simplifies and selects
colours, and starts over on a rewritten function as long as something is spilled, a
hundred times at most. Reserved and unspillable registers are kept from one attempt to
the next.

In a run that succeeds, registers of one bank that are live at a definition of one of
them end in different hardware registers, as long as no merge of the last attempt gave
a register a name of a hardware register while it interfered with another name of it.
The pass does not see to that: a call makes every caller-saved register a neighbour of
the register with the result, also another name of this one, and George's criterion
takes such a neighbour for harmless.
-/

namespace EzPacker.RegAlloc

open List Option Mir KeyedSet InterferenceGraph

/-- What a pass over a function is given. Liveness is that of the function at hand, and
`rewriteSpilledRegisters` gives the rewritten function and the unspillable registers. -/
structure AllocatorPass where
  target : TargetRegisters
  callingConv : Option CallingConvDesc
  mapOrder : IterationOrder
  setOrder : IterationOrder
  coalescingEnabled : Bool
  liveness : (f : SelectedFunction) → LivenessResult f
  rewriteSpilledRegisters : SelectedFunction → List MirRegisterRef → RegisterAllocatorCtx →
    SelectedFunction × List MirRegisterRef

/-- What an attempt takes over from those before. -/
structure Carried where
  reservedRegs : List MirRegisterRef
  unspillableRegs : List MirRegisterRef
  hasDynamicAllocs : Bool
  hasCalls : Bool

structure AllocationResult where
  function : SelectedFunction
  carried : Carried
  ctx : RegisterAllocatorCtx

namespace AllocatorPass

variable (pass : AllocatorPass)

def noteInstructions (f : SelectedFunction) (carried : Carried) : Carried :=
  let instructions := f.blocks.flatMap MirBlock.instructions
  let hasDynamicAllocs :=
    carried.hasDynamicAllocs || instructions.any fun inst => inst.opcode = .DALLOC
  let hasCalls := carried.hasCalls || instructions.any isCall
  { carried with
    hasDynamicAllocs := hasDynamicAllocs
    hasCalls := hasCalls
    reservedRegs := reserveRegs pass.target pass.callingConv hasDynamicAllocs hasCalls
      carried.reservedRegs }

def buildInterferenceGraph (f : SelectedFunction) (carried : Carried) :
    RegisterAllocatorCtx where
  iGraph := interferenceGraph pass.callingConv f (pass.liveness f)
  reservedRegs := (pass.noteInstructions f carried).reservedRegs
  unspillableRegs := carried.unspillableRegs
  coalescedRegs := []
  affinity := fun _ => []
  degree := fun _ => 0
  selectStack := []
  removedNodes := []
  allocatedRegs := fun _ => none

def coalesced (f : SelectedFunction) (carried : Carried) : RegisterAllocatorCtx :=
  if pass.coalescingEnabled then
    coalesce pass.target f (pass.buildInterferenceGraph f carried)
  else pass.buildInterferenceGraph f carried

/-- One attempt, none when simplification fails. -/
def attempt (f : SelectedFunction) (carried : Carried) : Option SelectResult :=
  (simplify pass.target pass.mapOrder pass.setOrder f
    (evaluateInterferenceGraphDegree (pass.coalesced f carried))).map (selectColors pass.target)

/-- What the next attempt starts from. -/
def carryOver (f : SelectedFunction) (carried : Carried) (unspillableRegs : List MirRegisterRef) :
    Carried :=
  { pass.noteInstructions f carried with unspillableRegs := unspillableRegs }

/-- Attempts, `n` at most. -/
def runLoop : ℕ → SelectedFunction → Carried → Option AllocationResult
  | 0, _, _ => none
  | n + 1, f, carried =>
    match pass.attempt f carried with
    | none => none
    | some (.colored ctx) => some ⟨f, carried, ctx⟩
    | some (.spilled spilledNodes ctx) =>
      let rewritten := pass.rewriteSpilledRegisters f spilledNodes ctx
      runLoop n rewritten.1 (pass.carryOver f carried rewritten.2)
    | some (.outOfColors ctx) => runLoop n f (pass.carryOver f carried ctx.unspillableRegs)

def maxIterations : ℕ := 100

def run (f : SelectedFunction) : Option AllocationResult :=
  pass.runLoop maxIterations f ⟨[], [], false, false⟩

end AllocatorPass

/-- The register an operand gets in `rewriteColors`. -/
def rewriteReg (ctx : RegisterAllocatorCtx) (reg : MirRegisterRef) : MirRegisterRef :=
  if reg.isVirtual then
    if (ctx.getCoalescedLeader reg).isVirtual = false then ctx.getCoalescedLeader reg
    else (ctx.allocatedRegs (regKey (ctx.getCoalescedLeader reg))).getD reg
  else reg

/-- The references of a function name registers below 64. -/
def SmallNames (f : SelectedFunction) : Prop :=
  ∀ b ∈ f.blocks, ∀ inst ∈ b.instructions, ∀ r ∈ instRefs inst, SmallId r

/-- The condition under which coalescing keeps the names of a hardware register apart
from its neighbours. -/
structure MergesOk (pass : AllocatorPass) (f : SelectedFunction) (carried : Carried) :
    Prop where
  classes : ∀ c, ∀ id ∈ pass.target.classRegs c, id < 64
  refs : SmallNames f
  merges : pass.coalescingEnabled = true → MergesAvoidAliases pass.target (coalesceCandidates f)
      ((pass.buildInterferenceGraph f carried).iGraph.nodes.length + 1)
      (pass.buildInterferenceGraph f carried)

/-- The condition under which an attempt keeps apart what it must. -/
structure AttemptOk (pass : AllocatorPass) (f : SelectedFunction) (carried : Carried) :
    Prop where
  classes : ∀ c, ∀ id ∈ pass.target.classRegs c, id < 64
  refs : SmallNames f
  merges : pass.coalescingEnabled = true → MergesAvoidAliases pass.target (coalesceCandidates f)
      ((pass.buildInterferenceGraph f carried).iGraph.nodes.length + 1)
      (pass.buildInterferenceGraph f carried)
  names : ∀ b ∈ f.blocks, ∀ d l,
    LiveAtDef ((pass.liveness f).liveOut b.id) b.instructions d l → ¬ Aliases d l

/-! ### Small register numbers through coalescing -/

section

variable {target : TargetRegisters}

def SmallPartners (ctx : RegisterAllocatorCtx) : Prop :=
  (∀ e ∈ ctx.coalescedRegs, SmallId e.2) ∧ ∀ k, ∀ r ∈ ctx.affinity k, SmallId r

variable {ctx : RegisterAllocatorCtx}

theorem SmallPartners.leader (h : SmallPartners ctx)
    {r : MirRegisterRef} (hr : SmallId r) : SmallId (ctx.getCoalescedLeader r) := by
  unfold RegisterAllocatorCtx.getCoalescedLeader
  rcases leaderFrom_eq_or_mem ctx.coalescedRegs ctx.coalescedRegs.length r with
    heq | ⟨e, he, heq⟩
  · rw [heq]
    exact hr
  · rw [heq]
    exact h.1 e he

theorem SmallPartners.leaderPair (h : SmallPartners ctx)
    {cand : MirRegisterRef × MirRegisterRef} (h1 : SmallId cand.1) (h2 : SmallId cand.2) :
    SmallId (leaderPair ctx cand).1 ∧ SmallId (leaderPair ctx cand).2 := by
  unfold RegAlloc.leaderPair orderPair
  split
  · exact ⟨h.leader h2, h.leader h1⟩
  · exact ⟨h.leader h1, h.leader h2⟩

theorem SmallPartners.keepApart (h : SmallPartners ctx)
    {u v : MirRegisterRef} (hu : SmallId u) (hv : SmallId v) :
    SmallPartners (ctx.keepApart u v) := by
  refine ⟨h.1, ?_⟩
  intro k r hr
  unfold RegisterAllocatorCtx.keepApart at hr
  dsimp only at hr
  have hinner : ∀ k r, r ∈ (if k = regKey u then insert regKey (ctx.affinity k) v
      else ctx.affinity k) → SmallId r := by
    intro k r hr
    split at hr
    · rcases mem_of_mem_insert hr with hr | rfl
      · exact h.2 k r hr
      · exact hv
    · exact h.2 k r hr
  split at hr
  · rcases mem_of_mem_insert hr with hr | rfl
    · exact hinner k r hr
    · exact hu
  · exact hinner k r hr

theorem SmallPartners.nextMerge (target : TargetRegisters)
    {candidates : List (MirRegisterRef × MirRegisterRef)}
    (hcandidates : ∀ cand ∈ candidates, SmallId cand.1 ∧ SmallId cand.2)
    (h : SmallPartners ctx) :
    SmallPartners (nextMerge target candidates ctx).1 ∧
      ∀ pair, (nextMerge target candidates ctx).2 = some pair →
        SmallId pair.1 ∧ SmallId pair.2 := by
  induction candidates generalizing ctx with
  | nil => exact ⟨h, fun pair hpair => nomatch hpair⟩
  | cons cand rest ih =>
    obtain ⟨h1, h2⟩ := hcandidates cand mem_cons_self
    have hrest : ∀ c ∈ rest, SmallId c.1 ∧ SmallId c.2 :=
      fun c hc => hcandidates c (mem_cons_of_mem _ hc)
    have hpair := h.leaderPair h1 h2
    unfold RegAlloc.nextMerge
    split
    · split
      · constructor
        · exact h
        · intro pair hp
          obtain rfl := some.inj hp
          exact hpair
      · exact ih hrest (h.keepApart hpair.1 hpair.2)
    · exact ih hrest h

theorem SmallPartners.coalesceLoop {candidates : List (MirRegisterRef × MirRegisterRef)}
    (hcandidates : ∀ cand ∈ candidates, SmallId cand.1 ∧ SmallId cand.2) {n : ℕ}
    (h : SmallPartners ctx) :
    SmallPartners (coalesceLoop target candidates n ctx) := by
  induction n generalizing ctx with
  | zero => exact h
  | succ n ih =>
    unfold RegAlloc.coalesceLoop
    obtain ⟨hnext, hpair⟩ := h.nextMerge target hcandidates
    cases hfound : RegAlloc.nextMerge target candidates ctx with
    | mk ctx' found =>
      rw [hfound] at hnext hpair
      cases found with
      | none => exact hnext
      | some pair =>
        apply ih
        constructor
        · intro e he
          rcases mem_cons.mp he with rfl | he
          · exact (hpair pair rfl).1
          · exact hnext.1 e he
        · exact hnext.2

end

theorem coalesceCandidate_refs {inst : MirInstruction}
    {cand : MirRegisterRef × MirRegisterRef} (h : coalesceCandidate inst = some cand) :
    cand.1 ∈ instRefs inst ∧ cand.2 ∈ instRefs inst := by
  have hoperands : ∀ {a b : MirRegisterRef} {rest : List MirOperand},
      inst.operands = .register a :: .register b :: rest →
        a ∈ instRefs inst ∧ b ∈ instRefs inst := by
    intro a b rest hinst
    constructor
    · exact operand_mem_instRefs (by simp [hinst])
    · exact operand_mem_instRefs (by simp [hinst])
  unfold coalesceCandidate at h
  split at h
  · split at h
    · next dst src rest hinst =>
        split at h
        · obtain rfl := some.inj h
          exact hoperands hinst
        · cases h
    · cases h
  · split at h
    · split at h
      · next defRef op0 op1 rest hdefs hinst =>
          split at h
          · obtain rfl := some.inj h
            exact hoperands hinst
          · cases h
      · cases h
    · cases h

theorem coalesceCandidates_all {f : SelectedFunction} {P : MirRegisterRef → Prop}
    (h : ∀ b ∈ f.blocks, ∀ inst ∈ b.instructions, ∀ r ∈ instRefs inst, P r) :
    ∀ cand ∈ coalesceCandidates f, P cand.1 ∧ P cand.2 := by
  intro cand hcand
  obtain ⟨b, hb, hcand⟩ := mem_flatMap.mp hcand
  obtain ⟨inst, hinst, hcand⟩ := mem_filterMap.mp hcand
  obtain ⟨h1, h2⟩ := coalesceCandidate_refs hcand
  exact ⟨h b hb inst hinst _ h1, h b hb inst hinst _ h2⟩

/-! ### The result of an attempt and of a run -/

section

variable {pass : AllocatorPass} {f : SelectedFunction} {carried : Carried}

theorem coalesceInv_build : CoalesceInv f.banks (pass.buildInterferenceGraph f carried).iGraph
      (pass.buildInterferenceGraph f carried) where
  graph := interferenceGraph_ok pass.callingConv
  chained := .nil
  inBank := fun _ he => nomatch he
  isNode := id
  adj := id
  bank := fun _ => rfl
  physical := fun _ => rfl

/-- Coalescing, enabled or not, merges no registers that interfere. -/
theorem coalesceInv_coalesced : CoalesceInv f.banks (pass.buildInterferenceGraph f carried).iGraph
      (pass.coalesced f carried) := by
  unfold AllocatorPass.coalesced
  split
  · exact coalesceInv_build.coalesceLoop (coalesceCandidates_all f.inBank)
  · exact coalesceInv_build

/-- Registers that interfere have different leaders, which interfere too. A leader is of the bank of
its register and leads itself, as every physical register does. -/
theorem coalesced_leaders_apart (pass : AllocatorPass) (f : SelectedFunction) (carried : Carried) :
    let ctx := pass.coalesced f carried
    (∀ a b : MirRegisterRef,
      (interferenceGraph pass.callingConv f (pass.liveness f)).Adj (regKey a) (regKey b) →
        ctx.iGraph.Adj (regKey (ctx.getCoalescedLeader a)) (regKey (ctx.getCoalescedLeader b)) ∧
          regKey (ctx.getCoalescedLeader a) ≠ regKey (ctx.getCoalescedLeader b)) ∧
      ∀ r, bankOf f.banks (regKey (ctx.getCoalescedLeader r)) = bankOf f.banks (regKey r) ∧
        ctx.getCoalescedLeader (ctx.getCoalescedLeader r) = ctx.getCoalescedLeader r ∧
        (r.isVirtual = false → ctx.getCoalescedLeader r = r) := by
  intro ctx
  have h : CoalesceInv f.banks (pass.buildInterferenceGraph f carried).iGraph ctx :=
    coalesceInv_coalesced
  have hleader (r : MirRegisterRef) :
      regKey (ctx.getCoalescedLeader r) = chase ctx.coalescedRegs (regKey r) :=
    regKey_leaderFrom h.chained (Nat.le_refl _) r
  refine ⟨fun a b hadj => ?_, fun r => ⟨by rw [hleader, h.bank], ?_, fun hr => ?_⟩⟩
  · rw [hleader, hleader]
    have hadj' := h.adj hadj
    exact ⟨hadj', fun heq => h.graph.irrefl _ (heq ▸ hadj')⟩
  · exact leaderFrom_of_isRoot (isRoot_leaderFrom h.chained (Nat.le_refl _) r) _
  · refine (eq_of_regKey hr ?_).symm
    rw [hleader, h.physical (by rw [regKey_isVirtual, hr])]

theorem keepsNames_coalesced (hok : MergesOk pass f carried) :
    KeepsNames (pass.buildInterferenceGraph f carried).iGraph (pass.coalesced f carried) := by
  have hbuild : KeepsNames (pass.buildInterferenceGraph f carried).iGraph
      (pass.buildInterferenceGraph f carried) := by
    intro a b _ hvirtual halias
    obtain ⟨ha, hb⟩ := halias.physical
    rcases hvirtual with h | h
    · exact Bool.false_ne_true (ha.symm.trans h)
    · exact Bool.false_ne_true (hb.symm.trans h)
  unfold AllocatorPass.coalesced
  split
  · next henabled =>
      exact hbuild.coalesceLoop (coalesceCandidates_all f.inBank) coalesceInv_build
        (hok.merges henabled)
  · exact hbuild

theorem smallPartners_coalesced (hok : MergesOk pass f carried) :
    SmallPartners (pass.coalesced f carried) := by
  have hbuild : SmallPartners (pass.buildInterferenceGraph f carried) :=
    ⟨fun e he => (nomatch he), fun k r hr => (nomatch hr)⟩
  unfold AllocatorPass.coalesced
  split
  · exact hbuild.coalesceLoop (coalesceCandidates_all hok.refs)
  · exact hbuild

variable {ctx : RegisterAllocatorCtx}

theorem attempt_spec (hok : MergesOk pass f carried)
    (h : pass.attempt f carried = some (.colored ctx)) :
    SelectInv f.banks ctx ∧ ctx.iGraph = (pass.coalesced f carried).iGraph ∧
      ctx.coalescedRegs = (pass.coalesced f carried).coalescedRegs ∧
      ∀ k, IsColored ctx k := by
  have hcoalesce := @coalesceInv_coalesced pass f carried
  have hpartners := smallPartners_coalesced hok
  unfold AllocatorPass.attempt at h
  obtain ⟨ctx₁, hsimplify, hselect⟩ := map_eq_some_iff.mp h
  have hgraph : GraphOk f.banks
      (evaluateInterferenceGraphDegree (pass.coalesced f carried)).iGraph := hcoalesce.graph
  obtain ⟨⟨hiGraph, hcoalesced, haffinity, hallocated⟩, hstack, honStack, hremoved⟩ :=
    simplify_spec hgraph hsimplify
  have hstart : SelectInv f.banks ctx₁ := by
    constructor
    case graph => rw [hiGraph]; exact hgraph
    case waiting =>
      intro k hk
      exact ((hremoved k).mp hk).2
    case small =>
      -- Only physical registers have a colour so far.
      intro k hk p hp
      rw [hallocated] at hp
      have hcond := find?_some hp
      simp only [decide_eq_true_eq] at hcond
      rw [← hcond.2, regKey_isVirtual, hcond.1] at hk
      cases hk
    case partners =>
      rw [hcoalesced, haffinity]
      exact hpartners
    case assigned =>
      intro k hk hnode hcolored
      rw [hiGraph] at hnode
      exact absurd ((hremoved k).mpr ⟨hnode, hk⟩) hcolored
    case apart =>
      intro a b hadj _ ha hb hvirtual
      have hadj' := hadj
      rw [hiGraph] at hadj'
      rcases hvirtual with hv | hv
      · exact absurd ((hremoved a).mpr ⟨hgraph.isNode hadj', hv⟩) ha
      · exact absurd ((hremoved b).mpr ⟨hgraph.isNode (hgraph.symm hadj'), hv⟩) hb
  have hstack' : ∀ r ∈ ctx₁.selectStack, NodeRef f.banks ctx₁.iGraph r := by
    rw [hiGraph]
    exact hstack
  obtain ⟨hinv, hsame, hsameCoalesced, hall⟩ :=
    hstart.selectLoop hok.classes hstack' (fun k hk => .inl (honStack k hk)) hselect
  exact ⟨hinv, hsame.trans hiGraph, hsameCoalesced.trans hcoalesced, hall⟩

theorem rewriteReg_spec (hok : MergesOk pass f carried)
    (h : pass.attempt f carried = some (.colored ctx)) {r : MirRegisterRef}
    (hnode : (pass.buildInterferenceGraph f carried).iGraph.IsNode (regKey r)) :
    (rewriteReg ctx r).isVirtual = false ∧
      colorOf ctx (chase ctx.coalescedRegs (regKey r)) = some (rewriteReg ctx r).id := by
  have hcoalesce := @coalesceInv_coalesced pass f carried
  obtain ⟨hinv, hgraph, hcoalesced, hall⟩ := attempt_spec hok h
  have hleader : regKey (ctx.getCoalescedLeader r) = chase ctx.coalescedRegs (regKey r) := by
    apply regKey_leaderFrom
    · rw [hcoalesced]
      exact hcoalesce.chained
    · exact Nat.le_refl _
  unfold rewriteReg
  cases hvirtual : r.isVirtual with
  | false =>
    have hphysical : (regKey r).isVirtual = false := by simp [hvirtual]
    rw [hcoalesced, hcoalesce.physical hphysical]
    simp [hvirtual, regKey, colorOf]
  | true =>
    rw [if_pos rfl, ← hleader]
    cases hleaderVirtual : (ctx.getCoalescedLeader r).isVirtual with
    | false => simp [hleaderVirtual, regKey, colorOf]
    | true =>
      have hisNode : ctx.iGraph.IsNode (regKey (ctx.getCoalescedLeader r)) := by
        rw [hleader, hgraph, hcoalesced]
        exact hcoalesce.isNode hnode
      obtain ⟨p, hp, hphysical, _⟩ :=
        hinv.assigned _ (by simp [hleaderVirtual]) hisNode (hall _)
      rw [if_neg (by simp), hp, getD_some]
      refine ⟨hphysical, ?_⟩
      have hkey : regKey (ctx.getCoalescedLeader r) = .vreg (ctx.getCoalescedLeader r).id := by
        simp [regKey, hleaderVirtual]
      rw [hkey] at hp ⊢
      simp [colorOf, hp]

theorem colorOf_physical_ne {banks : ℕ → ℕ} {a b : RegKey}
    (ha : a.isVirtual = false) (hb : b.isVirtual = false) (hne : a ≠ b)
    (hbank : bankOf banks a = bankOf banks b) (hnot : ¬ Aliases a b) :
    colorOf ctx a ≠ colorOf ctx b := by
  cases a with
  | vreg id => cases ha
  | preg c id =>
    cases b with
    | vreg id' => cases hb
    | preg c' id' =>
      intro hcolor
      have hid : id = id' := by simpa [colorOf] using hcolor
      subst hid
      apply hnot
      refine ⟨?_, hbank, rfl⟩
      rintro rfl
      exact hne rfl

/-- A successful attempt keeps neighbours of one bank apart. -/
theorem attempt_separates_of_adj (hok : MergesOk pass f carried)
    (h : pass.attempt f carried = some (.colored ctx))
    {d l : MirRegisterRef}
    (hadj : (pass.buildInterferenceGraph f carried).iGraph.Adj (regKey d) (regKey l))
    (hnames : ¬ Aliases (regKey d) (regKey l))
    (hbank : bankOf f.banks (regKey d) = bankOf f.banks (regKey l)) :
    (rewriteReg ctx d).isVirtual = false ∧ (rewriteReg ctx l).isVirtual = false ∧
      (rewriteReg ctx d).id ≠ (rewriteReg ctx l).id := by
  have hcoalesce := @coalesceInv_coalesced pass f carried
  obtain ⟨hinv, hgraph, hcoalesced, hall⟩ := attempt_spec hok h
  have hbuilt := @interferenceGraph_ok f (pass.liveness f) pass.callingConv
  obtain ⟨hd, hcolorD⟩ := rewriteReg_spec hok h (hbuilt.isNode hadj)
  obtain ⟨hl, hcolorL⟩ := rewriteReg_spec hok h (hbuilt.isNode (hbuilt.symm hadj))
  refine ⟨hd, hl, ?_⟩
  have hmerged := hcoalesce.adj hadj
  have hnoAlias := keepsNames_coalesced hok _ _ hadj
  have hbankD := hcoalesce.bank (regKey d)
  have hbankL := hcoalesce.bank (regKey l)
  have hstays : ∀ {k : RegKey}, k.isVirtual = false →
      chase (pass.coalesced f carried).coalescedRegs k = k := hcoalesce.physical
  have hirrefl := hcoalesce.graph.irrefl
  rw [← hcoalesced] at hmerged hnoAlias hbankD hbankL hstays
  have hbank' := hbankD.trans (hbank.trans hbankL.symm)
  -- The nodes the two were merged into.
  have hcolors : colorOf ctx (chase ctx.coalescedRegs (regKey d)) ≠
      colorOf ctx (chase ctx.coalescedRegs (regKey l)) := by
    by_cases hphysical : (chase ctx.coalescedRegs (regKey d)).isVirtual = false ∧
        (chase ctx.coalescedRegs (regKey l)).isVirtual = false
    · apply colorOf_physical_ne hphysical.1 hphysical.2 _ hbank'
      · by_cases hboth : (regKey d).isVirtual = false ∧ (regKey l).isVirtual = false
        · rw [hstays hboth.1, hstays hboth.2]
          exact hnames
        · apply hnoAlias
          by_contra hnone
          simp only [not_or, Bool.not_eq_true] at hnone
          exact hboth hnone
      · intro heq
        rw [heq] at hmerged
        exact hirrefl _ hmerged
    · apply hinv.apart (by rw [hgraph]; exact hmerged) hbank' (hall _) (hall _)
      by_contra hnone
      simp only [not_or, Bool.not_eq_true] at hnone
      exact hphysical hnone
  intro heq
  rw [hcolorD, hcolorL, heq] at hcolors
  exact hcolors rfl

/-- A successful attempt keeps apart what is live at a definition. -/
theorem attempt_separates (hok : AttemptOk pass f carried)
    (h : pass.attempt f carried = some (.colored ctx)) {b : MirBlock} (hb : b ∈ f.blocks)
    {d l : MirRegisterRef}
    (hlive : LiveAtDef ((pass.liveness f).liveOut b.id) b.instructions (regKey d) (regKey l))
    (hne : regKey d ≠ regKey l)
    (hbank : bankOf f.banks (regKey d) = bankOf f.banks (regKey l)) :
    (rewriteReg ctx d).isVirtual = false ∧ (rewriteReg ctx l).isVirtual = false ∧
      (rewriteReg ctx d).id ≠ (rewriteReg ctx l).id := by
  have hadj : (pass.buildInterferenceGraph f carried).iGraph.Adj (regKey d) (regKey l) :=
    adj_interferenceGraph pass.callingConv hb hlive hne hbank
  exact attempt_separates_of_adj ⟨hok.classes, hok.refs, hok.merges⟩ h hadj
    (hok.names b hb _ _ hlive) hbank

theorem attempt_of_runLoop {n : ℕ} {r : AllocationResult} (h : pass.runLoop n f carried = some r) :
    pass.attempt r.function r.carried = some (.colored r.ctx) := by
  induction n generalizing f carried with
  | zero => cases h
  | succ n ih =>
    unfold AllocatorPass.runLoop at h
    split at h
    · cases h
    · next ctx hattempt =>
        obtain rfl := some.inj h
        exact hattempt
    · exact ih h
    · exact ih h

/-- In a run that succeeds, registers of one bank that are live at a definition of one
of them, whether or not that is a copy, have different hardware registers. -/
theorem run_separates {r : AllocationResult} (h : pass.run f = some r)
    (hok : AttemptOk pass r.function r.carried) {b : MirBlock} (hb : b ∈ r.function.blocks)
    {d l : MirRegisterRef}
    (hlive : LiveAtDef ((pass.liveness r.function).liveOut b.id) b.instructions
      (regKey d) (regKey l))
    (hne : regKey d ≠ regKey l)
    (hbank : bankOf r.function.banks (regKey d) = bankOf r.function.banks (regKey l)) :
    (rewriteReg r.ctx d).isVirtual = false ∧ (rewriteReg r.ctx l).isVirtual = false ∧
      (rewriteReg r.ctx d).id ≠ (rewriteReg r.ctx l).id :=
  attempt_separates hok (attempt_of_runLoop h) hb hlive hne hbank

end

/-! ### A call whose result lives on -/

section

def gpr64 : MirRegisterClass := ⟨0, 0⟩

def gpr32 : MirRegisterClass := ⟨1, 0⟩

def rax : MirRegisterRef := preg gpr64 0

def eax : MirRegisterRef := preg gpr32 0

def vreg32 (id : ℕ) : MirRegisterRef := ⟨true, some gpr32, id⟩

def targetInst (id : ℕ) (operandsFlags : List MirOperandFlag)
    (implicitDefs : List MirRegisterRef) (flags : List MirInstructionFlag)
    (operands : List MirOperand) : MirInstruction :=
  ⟨.TARGET_INST, some ⟨id, operandsFlags, implicitDefs, [], flags⟩, operands⟩

/-- A pass for a target of two registers in two sizes, of which a call overwrites the
first. -/
def smallPass : AllocatorPass where
  target :=
    { classRegs := fun c => if c = gpr64 ∨ c = gpr32 then [0, 1] else []
      bankClasses := fun bank => if bank = 0 then [gpr64, gpr32] else [] }
  callingConv := some
    { callerSavedRegs := [rax]
      callerSaved_physical := by
        intro r hr
        rw [mem_singleton.mp hr]
        rfl
      hasFramePointer := fun _ _ => false
      framePointerReg := preg gpr64 5
      stackPointerReg := preg gpr64 4 }
  mapOrder := ⟨id, Perm.refl⟩
  setOrder := ⟨id, Perm.refl⟩
  coalescingEnabled := true
  liveness := fun f => ⟨fun _ => [], inBank_nil f⟩
  rewriteSpilledRegisters := fun f _ ctx => (f, ctx.unspillableRegs)

/-- A block of instructions whose virtual registers are of the class of 32 bits. -/
def blockFunction (instructions : List MirInstruction)
    (h : ∀ inst ∈ instructions, ∀ r ∈ instRefs inst,
      r.isVirtual = true → r.regClass = some gpr32) : SelectedFunction where
  blocks := [⟨0, instructions⟩]
  banks := fun _ => 0
  inBank := by
    intro b hb inst hinst r hr hvirtual
    rw [mem_singleton.mp hb] at hinst
    exact ⟨gpr32, h inst hinst r hr hvirtual, rfl⟩

/-- Two registers that are both used by the last instruction. -/
def twoValues : SelectedFunction :=
  blockFunction [targetInst 1 [.Write] [] [] [.register (vreg32 0)],
      targetInst 1 [.Write] [] [] [.register (vreg32 1)],
      targetInst 2 [.Read, .Read] [] [] [.register (vreg32 0), .register (vreg32 1)]]
    (by decide)

theorem attemptOk_twoValues : AttemptOk smallPass twoValues ⟨[], [], false, false⟩ where
  classes := by
    intro c id hid
    change id ∈ (if c = gpr64 ∨ c = gpr32 then [0, 1] else []) at hid
    split at hid
    · simp at hid
      omega
    · cases hid
  refs := by
    intro b hb inst hinst r hr hphysical
    rw [mem_singleton.mp hb] at hinst
    have hvirtual : ∀ inst ∈ (twoValues.blocks.flatMap MirBlock.instructions),
        ∀ r ∈ instRefs inst, r.isVirtual = true := by decide
    rw [hvirtual inst hinst r hr] at hphysical
    cases hphysical
  merges := by
    intro _
    -- Nothing is copied, so that there is nothing to merge.
    show MergesAvoidAliases smallPass.target [] 3 _
    exact trivial
  names := by
    intro b hb d l hlive halias
    obtain ⟨pre, inst, post, hsplit, hd, _⟩ := hlive
    obtain ⟨r, hr, rfl⟩ := mem_keys.mp hd
    have hinst : inst ∈ b.instructions := by simp [hsplit]
    rw [mem_singleton.mp hb] at hinst
    have hvirtual : ∀ inst ∈ (twoValues.blocks.flatMap MirBlock.instructions),
        ∀ r ∈ instRefs inst, r.isVirtual = true := by decide
    have hphysical := halias.physical.1
    rw [regKey_isVirtual, hvirtual inst hinst r (defined_mem_instRefs hr)] at hphysical
    cases hphysical

/-- The two registers of `twoValues` get different colours. -/
theorem run_separates_twoValues : ∃ r, smallPass.run twoValues = some r ∧
    (rewriteReg r.ctx (vreg32 1)).id ≠ (rewriteReg r.ctx (vreg32 0)).id := by
  have hsome : (smallPass.run twoValues).isSome = true := by decide
  have hresult : (smallPass.run twoValues).map (fun r => (r.function, r.carried)) =
      some (twoValues, ⟨[], [], false, false⟩) := rfl
  cases hrun : smallPass.run twoValues with
  | none =>
    rw [hrun] at hsome
    cases hsome
  | some r =>
    obtain ⟨function, carried, ctx⟩ := r
    rw [hrun] at hresult
    obtain ⟨rfl, rfl⟩ := Prod.mk.inj (some.inj hresult)
    refine ⟨_, rfl, ?_⟩
    have hb : ⟨0, twoValues.blocks.flatMap MirBlock.instructions⟩ ∈ twoValues.blocks :=
      mem_singleton_self _
    have hlive : LiveAtDef [] (twoValues.blocks.flatMap MirBlock.instructions)
        (regKey (vreg32 1)) (regKey (vreg32 0)) :=
      ⟨[_], _, [_], rfl, by decide, .inr (by decide)⟩
    exact (run_separates hrun attemptOk_twoValues hb hlive (by decide) rfl).2.2

/-- The result of a call is copied and lives on, while `rax` is written. -/
def callResult : SelectedFunction :=
  blockFunction [targetInst 1 [.Read] [eax] [.IsCall] [.reference ⟨.Function, 0, 0⟩],
      targetInst 2 [.Write, .Read] [] [.IsMove] [.register (vreg32 0), .register eax],
      targetInst 3 [.Write, .Read] [] [.IsMove] [.register rax, .integer 5],
      targetInst 4 [.Read, .Read] [] [] [.register rax, .register (vreg32 0)]]
    (by decide)

/-- The copy of the result is merged into `eax`, although `rax` is written while it
is live. -/
theorem call_result_is_overwritten :
    ¬ ∀ (pass : AllocatorPass) (f : SelectedFunction) (r : AllocationResult),
      pass.run f = some r → ∀ b ∈ r.function.blocks, ∀ d l : MirRegisterRef,
      LiveAtDef ((pass.liveness r.function).liveOut b.id) b.instructions (regKey d) (regKey l) →
      regKey d ≠ regKey l →
      bankOf r.function.banks (regKey d) = bankOf r.function.banks (regKey l) →
      (∀ inst ∈ b.instructions, coalesceCandidate inst ≠ some (d, l) ∧
        coalesceCandidate inst ≠ some (l, d)) →
      (rewriteReg r.ctx d).id ≠ (rewriteReg r.ctx l).id := by
  intro h
  have hrun : (smallPass.run callResult).map (fun r =>
      ((rewriteReg r.ctx rax).id, (rewriteReg r.ctx (vreg32 0)).id)) = some (0, 0) := by
    decide
  have hfunction : (smallPass.run callResult).map AllocationResult.function =
      some callResult := rfl
  cases hresult : smallPass.run callResult with
  | none =>
    rw [hresult] at hrun
    cases hrun
  | some r =>
    obtain ⟨function, carried, ctx⟩ := r
    rw [hresult] at hrun hfunction
    obtain rfl := some.inj hfunction
    have hids := Prod.mk.inj (some.inj hrun)
    apply h smallPass _ _ hresult _ (mem_singleton_self _) rax (vreg32 0)
    · exact ⟨[_, _], _, [_], rfl, by decide, .inr (by decide)⟩
    · decide
    · rfl
    · decide
    · exact hids.1.trans hids.2.symm

end

end EzPacker.RegAlloc
