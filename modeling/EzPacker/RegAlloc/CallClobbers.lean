import EzPacker.Abi.CallLowering
import EzPacker.RegAlloc.GraphEdges
import EzPacker.RegAlloc.SavedRegisterLists
import EzPacker.RegAlloc.UsedCalleeSaved

/-!
# Values that live across calls

A value survives a call in a register that the convention of the callee preserves, or
on the stack. What the allocator knows of a call is the flag of its instruction, and
what the call may overwrite it takes from the convention of the function it is in. An
indirect call of RISC-V is a `JALR`, which has the flag of a branch; the conventions of
x86-64 do not list all `xmm` registers, and the list of RISC-V loses its vector
registers, which are in neither class its names are looked up in.
-/

namespace EzPacker.RegAlloc

open List Mir KeyedSet InterferenceGraph

/-- The call of x86-64, direct or through a register. -/
def X86_64.CALL : MirTargetInstructionDesc := ⟨0, [.Read], [], [], [.IsCall, .HasSideEffect]⟩

def RiscV64.CALL : MirTargetInstructionDesc := ⟨1, [.Read], [], [], [.IsCall]⟩

/-- The jump of RISC-V that `selectCALL` uses for calls through a register. -/
def RiscV64.JALR : MirTargetInstructionDesc :=
  ⟨2, [.Write, .Read, .Read], [], [], [.IsBranch]⟩

def RiscV64.ra : MirRegisterRef := preg RiscV64.GPR64 1

/-- The instruction calls a function: a call of the generic set, or what it is selected
to. A `JALR` calls when it leaves its address in `ra`. -/
def CallsFunction (inst : MirInstruction) : Prop :=
  inst.opcode = .CALL ∨ inst.targetDesc = some X86_64.CALL ∨ inst.targetDesc = some RiscV64.CALL ∨
      inst.targetDesc = some RiscV64.JALR ∧ inst.operands.head? = some (.register RiscV64.ra)

instance (inst : MirInstruction) : Decidable (CallsFunction inst) :=
  inferInstanceAs (Decidable (_ ∨ _))

abbrev Callees := MirInstruction → CallingConvention → Prop

/-- A call in a function, with the convention of a function it may call. -/
structure CallSite (callees : Callees) (f : SelectedFunction) where
  block : MirBlock
  mem : block ∈ f.blocks
  before : List MirInstruction
  inst : MirInstruction
  after : List MirInstruction
  split : block.instructions = before ++ inst :: after
  calls : CallsFunction inst
  callee : CallingConvention
  mayCall : callees inst callee

/-- A pass over a function with a calling convention. -/
structure ConventionPass extends AllocatorPass where
  conv : CallingConvention
  callingConv_eq : callingConv = some conv.toCallingConvDesc

/-- The name by which the frame lowerer pushes a register. -/
def frameReg (r : MirRegisterRef) : Abi.MirRegisterRef :=
  ⟨if r.regClass.map MirRegisterClass.bank = some 1 then .FPR else .GPR, r.id⟩

namespace CallSite

variable (pass : ConventionPass) {callees : Callees} {f : SelectedFunction}
  (site : CallSite callees f)

/-- The virtual register is live behind the call, which does not define it. -/
def Crosses (v : MirRegisterRef) : Prop :=
  v.isVirtual = true ∧ liveAt ((pass.liveness f).liveOut site.block.id) site.after (regKey v) ∧
      regKey v ∉ keys regKey site.inst.getDefinedRegisters

/-- A register that could hold the value and that the callee does not preserve. -/
def Threatens (v : MirRegisterRef) (reg : HardwareReg) : Prop :=
  pass.target.Has reg ∧ bankOf f.banks (regKey v) = some reg.bank ∧ ¬ site.callee.Preserves reg

/-- What lives across the call interferes with all that the callee may overwrite. -/
def Connected : Prop :=
  ∀ v reg, site.Crosses pass v → site.Threatens pass v reg → ∃ name, Names name reg ∧
      (interferenceGraph pass.callingConv f (pass.liveness f)).Adj (regKey name) (regKey v)

/-- For what lives across the call and each register that the callee may overwrite,
some instruction of the function makes an edge: a call by its flag and the list of the
function's own convention, an instruction that writes the one while the other is live. -/
def Covered : Prop :=
  ∀ v reg, site.Crosses pass v → site.Threatens pass v reg →
    ∃ name, Names name reg ∧ ∃ b ∈ f.blocks,
      JoinedIn pass.callingConv f.banks ((pass.liveness f).liveOut b.id) b.instructions
        (regKey name) (regKey v)

theorem connected_iff_covered : site.Connected pass ↔ site.Covered pass := by
  unfold Connected Covered
  simp only [adj_interferenceGraph_iff]

end CallSite

/-- What a successful run owes the calls of the function. -/
structure RespectsCalls (pass : ConventionPass) (callees : Callees) (f : SelectedFunction)
    (r : AllocationResult) : Prop where
  connected : ∀ site : CallSite callees r.function, site.Connected pass
  survives : ∀ site : CallSite callees r.function, ∀ v, site.Crosses pass v →
    (rewriteReg r.ctx v).isVirtual = false ∧
      ∀ reg, pass.target.Has reg → Names (rewriteReg r.ctx v) reg → site.callee.Preserves reg
  /-- Whatever frame and target the function is lowered to with the noted registers. -/
  saved : ∀ v, v.isVirtual = true → (rewriteReg r.ctx v).isVirtual = false →
    (∃ reg ∈ pass.conv.calleeSavedRegs, isSamePhysReg reg (rewriteReg r.ctx v) = true) →
      ∀ (frame : Abi.LoweredFrame) (target : Abi.TargetArch), frame.usedCalleeSavedRegs =
            (pass.usedCalleeSavedRegs pass.conv.calleeSavedRegs f).map frameReg →
          ∃ reg, isSamePhysReg reg (rewriteReg r.ctx v) = true ∧
            Abi.Saves (Abi.insertPrologue frame target) (frameReg reg)

/-! ### Nodes and banks of what is live -/

section

variable {banks : ℕ → ℕ} {cc : Option CallingConvDesc}

theorem isNode_foldl_addNode {rs : List MirRegisterRef} {g : InterferenceGraph} {k : RegKey}
    (hk : k ∈ keys regKey rs) : (rs.foldl addNode g).IsNode k := by
  obtain ⟨r, hr, rfl⟩ := mem_keys.mp hk
  obtain ⟨before, after, rfl⟩ := append_of_mem hr
  rw [foldl_append, foldl_cons]
  exact (Extends.foldl addNode_extends after _).isNode (isNode_addNode.mpr (.inr rfl))

theorem isNode_of_live {instructions : List MirInstruction}
    {s : InterferenceGraph × List MirRegisterRef} (hs : ∀ k ∈ keys regKey s.2, s.1.IsNode k) :
    ∀ k ∈ keys regKey (instructions.foldr (visitInstruction cc) s).2,
      (instructions.foldr (visitInstruction cc) s).1.IsNode k := by
  induction instructions with
  | nil => exact hs
  | cons inst instructions ih =>
    intro k hk
    rw [foldr_cons] at hk ⊢
    rcases mem_keys_visitInstruction.mp hk with ⟨hk, -⟩ | hk
    · exact (visitInstruction_extends cc inst _).isNode (ih k hk)
    · rw [visitInstruction_graph]
      exact isNode_foldl_addNode hk

end

theorem isNode_interferenceGraph (cc : Option CallingConvDesc) {f : SelectedFunction}
    {liveness : LivenessResult f} {b : MirBlock} (hb : b ∈ f.blocks)
    {before after : List MirInstruction} (hsplit : b.instructions = before ++ after)
    {k : RegKey} (hk : liveAt (liveness.liveOut b.id) after k) :
    (interferenceGraph cc f liveness).IsNode k := by
  obtain ⟨pre, post, hblocks⟩ := append_of_mem hb
  unfold interferenceGraph
  rw [hblocks, foldl_append, foldl_cons]
  apply (Extends.foldl (visitBlock_extends cc liveness.liveOut) post _).isNode
  generalize pre.foldl (visitBlock cc liveness.liveOut) empty = g
  have hkeys : ∀ instructions : List MirInstruction,
      k ∈ keys regKey (instructions.foldr (visitInstruction cc)
        ((liveness.liveOut b.id).foldl addNode g, liveness.liveOut b.id)).2 ↔
          liveAt (liveness.liveOut b.id) instructions k := by
    intro instructions
    induction instructions with
    | nil => exact Iff.rfl
    | cons inst instructions ih =>
      rw [foldr_cons, mem_keys_visitInstruction, ih]
      rfl
  unfold visitBlock
  rw [hsplit, foldr_append]
  apply (foldr_visitInstruction_extends cc before _).isNode
  exact isNode_of_live (fun _ => isNode_foldl_addNode) k ((hkeys after).mpr hk)

section

variable {pass : AllocatorPass} {f : SelectedFunction} {carried : Carried}

/-- The register an operand gets is of the operand's bank. -/
theorem bankOf_rewriteReg (hok : MergesOk pass f carried) {ctx : RegisterAllocatorCtx}
    (h : pass.attempt f carried = some (.colored ctx)) {v : MirRegisterRef}
    (hv : v.isVirtual = true)
    (hnode : (pass.buildInterferenceGraph f carried).iGraph.IsNode (regKey v)) :
    bankOf f.banks (regKey (rewriteReg ctx v)) = bankOf f.banks (regKey v) := by
  have hcoalesce := @coalesceInv_coalesced pass f carried
  obtain ⟨hinv, hgraph, hcoalesced, hall⟩ := attempt_spec hok h
  have hleader : regKey (ctx.getCoalescedLeader v) = chase ctx.coalescedRegs (regKey v) := by
    apply regKey_leaderFrom
    · rw [hcoalesced]
      exact hcoalesce.chained
    · exact Nat.le_refl _
  have hbank : bankOf f.banks (regKey (ctx.getCoalescedLeader v)) = bankOf f.banks (regKey v) := by
    rw [hleader, hcoalesced]
    exact hcoalesce.bank (regKey v)
  unfold rewriteReg
  rw [if_pos hv]
  split
  · exact hbank
  · next hvirtual =>
      have hisNode : ctx.iGraph.IsNode (regKey (ctx.getCoalescedLeader v)) := by
        rw [hleader, hgraph, hcoalesced]
        exact hcoalesce.isNode hnode
      obtain ⟨p, hp, -, hbankp⟩ :=
        hinv.assigned _ (by simpa using hvirtual) hisNode (hall _)
      rw [hp, Option.getD_some, hbankp, hbank]

end

theorem rewriteReg_physical {ctx : RegisterAllocatorCtx} {r : MirRegisterRef}
    (hr : r.isVirtual = false) : rewriteReg ctx r = r := by
  unfold rewriteReg
  rw [if_neg (by simp [hr])]

theorem bankOf_of_names {banks : ℕ → ℕ} {r : MirRegisterRef} {reg : HardwareReg}
    (h : Names r reg) : bankOf banks (regKey r) = some reg.bank := by
  simp [regKey, h.1, bankOf, h.2.1]

section

variable {pass : ConventionPass} {callees : Callees} {f : SelectedFunction} {r : AllocationResult}

section

variable (h : pass.run f = some r) (hok : MergesOk pass.toAllocatorPass r.function r.carried)
include h hok

theorem survives_of_connected {site : CallSite callees r.function} (hsite : site.Connected pass)
    {v : MirRegisterRef} (hv : site.Crosses pass v) : (rewriteReg r.ctx v).isVirtual = false ∧
      ∀ reg, pass.target.Has reg → Names (rewriteReg r.ctx v) reg → site.callee.Preserves reg := by
  have hattempt := attempt_of_runLoop h
  have hsplit : site.block.instructions = (site.before ++ [site.inst]) ++ site.after := by
    rw [site.split]
    simp
  have hnode : (pass.buildInterferenceGraph r.function r.carried).iGraph.IsNode (regKey v) :=
    isNode_interferenceGraph pass.callingConv site.mem hsplit hv.2.1
  refine ⟨(rewriteReg_spec hok hattempt hnode).1, ?_⟩
  intro reg hhas hnames
  by_contra hclobbered
  have hbank : bankOf r.function.banks (regKey v) = some reg.bank := by
    rw [← bankOf_rewriteReg hok hattempt hv.1 hnode]
    exact bankOf_of_names hnames
  obtain ⟨name, hname, hadj⟩ := hsite v reg hv ⟨hhas, hbank, hclobbered⟩
  have hnames' : ¬ Aliases (regKey name) (regKey v) := by
    intro halias
    have hphysical := halias.physical.2
    rw [regKey_isVirtual, hv.1] at hphysical
    cases hphysical
  have hapart := attempt_separates_of_adj hok hattempt hadj hnames'
    ((bankOf_of_names hname).trans hbank.symm)
  rw [rewriteReg_physical hname.1] at hapart
  exact hapart.2.2 (hname.2.2.trans hnames.2.2.symm)

/-- A run in which coalescing keeps the names of a hardware register apart respects the
calls of the function exactly when they are covered. -/
theorem respectsCalls_iff :
    RespectsCalls pass callees f r ↔ ∀ site : CallSite callees r.function, site.Covered pass := by
  constructor
  · intro hrespects site
    exact (site.connected_iff_covered pass).mp (hrespects.connected site)
  · intro hcovered
    have hconnected := fun site : CallSite callees r.function =>
      (site.connected_iff_covered pass).mpr (hcovered site)
    refine ⟨hconnected, fun site v hv => survives_of_connected h hok (hconnected site) hv, ?_⟩
    intro v hv hassigned hpreserved frame target hframe
    obtain ⟨reg, hreg, hsame⟩ := usedCalleeSavedRegs_spec
      pass.conv.calleeSaved_physical h hv hassigned hpreserved
    refine ⟨reg, hsame, Abi.saves_insertPrologue ?_ target⟩
    rw [hframe]
    exact mem_map_of_mem hreg

end

end

/-! ### A direct call of x86-64 and an indirect one of RISC-V -/

section

def conventionPass (target : TargetRegisters) (conv : CallingConvention) :
    ConventionPass where
  target := target
  callingConv := some conv.toCallingConvDesc
  mapOrder := ⟨id, Perm.refl⟩
  setOrder := ⟨id, Perm.refl⟩
  coalescingEnabled := true
  liveness := fun f => ⟨fun _ => [], inBank_nil f⟩
  rewriteSpilledRegisters := fun f _ ctx => (f, ctx.unspillableRegs)
  conv := conv
  callingConv_eq := rfl

def vreg (c : MirRegisterClass) (id : ℕ) : MirRegisterRef := ⟨true, some c, id⟩

def functionOf (c : MirRegisterClass) (instructions : List MirInstruction)
    (h : ∀ inst ∈ instructions, ∀ r ∈ instRefs inst,
      r.isVirtual = true → r.regClass = some c) : SelectedFunction where
  blocks := [⟨0, instructions⟩]
  banks := fun _ => c.bank
  inBank := by
    intro b hb inst hinst r hr hvirtual
    rw [mem_singleton.mp hb] at hinst
    exact ⟨c, h inst hinst r hr hvirtual, rfl⟩

def sysV : CallingConvention := X86_64.SysV_AMD64.generate X86_64.classes false

def x86Pass : ConventionPass := conventionPass X86_64.registers sysV

def compute : MirInstruction := targetInst 10 [.Write] [] [] [.register (vreg X86_64.GPR64 0)]

def callDirect : MirInstruction :=
  ⟨.TARGET_INST, some X86_64.CALL, [.reference ⟨.Function, 0, 0⟩]⟩

def read : MirInstruction := targetInst 11 [.Read] [] [] [.register (vreg X86_64.GPR64 0)]

/-- A value is computed before a call and read behind it. -/
def directCall : SelectedFunction :=
  functionOf X86_64.GPR64 [compute, callDirect, read] (by decide)

theorem mergesOk_directCall :
    MergesOk x86Pass.toAllocatorPass directCall ⟨[], [], false, false⟩ where
  classes := by
    intro c id hid
    change id ∈ (if c ∈ X86_64.bankClasses c.bank then range 16 else []) at hid
    split at hid
    · have hlt := mem_range.mp hid
      omega
    · cases hid
  refs := by
    intro b hb inst hinst r hr hphysical
    rw [mem_singleton.mp hb] at hinst
    have hvirtual : ∀ inst ∈ (directCall.blocks.flatMap MirBlock.instructions),
        ∀ r ∈ instRefs inst, r.isVirtual = true := by decide
    rw [hvirtual inst hinst r hr] at hphysical
    cases hphysical
  merges := by
    intro _
    -- Nothing is copied, so that there is nothing to merge.
    have hcandidates : coalesceCandidates directCall = [] := by decide
    rw [hcandidates]
    simp [MergesAvoidAliases, nextMerge]

/-- Its only call is flagged, and lets the callee overwrite what it does not preserve. -/
theorem covered_directCall (site : CallSite (fun _ callee => callee = sysV) directCall) :
    site.Covered x86Pass := by
  obtain ⟨block, hblock, before, inst, after, hsplit, hcalls, callee, rfl⟩ := site
  obtain rfl := List.mem_singleton.mp hblock
  rintro v ⟨bank, id⟩ ⟨-, hlive, -⟩ ⟨⟨c, hc, -, hid⟩, hbank, hclobbered⟩
  have hafter : after = [read] := by
    change [compute, callDirect, read] = before ++ inst :: after at hsplit
    match before, hsplit with
    | [], hsplit =>
      obtain ⟨rfl, -⟩ := List.cons.inj hsplit
      exact absurd hcalls (by decide)
    | [_], hsplit => exact (List.cons.inj (List.cons.inj hsplit).2).2.symm
    | [_, _], hsplit =>
      obtain ⟨rfl, -⟩ := List.cons.inj (List.cons.inj (List.cons.inj hsplit).2).2
      exact absurd hcalls (by decide)
    | _ :: _ :: _ :: _, hsplit => simp at hsplit
  subst hafter
  have hkey : regKey v = regKey (vreg X86_64.GPR64 0) := by
    rcases hlive with ⟨hout, -⟩ | huse
    · cases hout
    · exact List.mem_singleton.mp huse
  obtain rfl : 0 = bank := by
    rw [hkey] at hbank
    exact Option.some.inj hbank
  have hlt : id < 16 := by
    change id ∈ (if c ∈ X86_64.bankClasses c.bank then List.range 16 else []) at hid
    split at hid
    · exact List.mem_range.mp hid
    · cases hid
  have hlisted : ∀ id < 16, ¬ sysV.Preserves ⟨0, id⟩ →
      regKey (preg X86_64.GPR64 id) ∈ keys regKey sysV.callerSavedRegs := by decide
  refine ⟨preg X86_64.GPR64 id, ⟨rfl, rfl, rfl⟩, _, List.mem_singleton_self _, [compute],
    callDirect, [read], rfl, .inl ⟨?_, .inl ⟨?_, hlive, .inl ?_⟩⟩⟩
  · rw [hkey]
    exact fun h => nomatch h
  · rw [KeyedSet.keys_append]
    exact List.mem_append_left _ (hlisted id hlt hclobbered)
  · rw [hkey]
    rfl

/-- Its run respects the call. -/
theorem respectsCalls_directCall : ∃ r, x86Pass.run directCall = some r ∧
    RespectsCalls x86Pass (fun _ callee => callee = sysV) directCall r := by
  have hsome : (x86Pass.run directCall).isSome = true := by
    set_option maxRecDepth 10000 in decide
  have hresult : (x86Pass.run directCall).map (fun r => (r.function, r.carried)) =
      some (directCall, ⟨[], [], false, false⟩) := by
    set_option maxRecDepth 10000 in rfl
  cases hrun : x86Pass.run directCall with
  | none =>
    rw [hrun] at hsome
    cases hsome
  | some r =>
    obtain ⟨function, carried, ctx⟩ := r
    rw [hrun] at hresult
    obtain ⟨rfl, rfl⟩ := Prod.mk.inj (Option.some.inj hresult)
    exact ⟨_, rfl, (respectsCalls_iff hrun mergesOk_directCall).mpr covered_directCall⟩

def indirectJump : MirInstruction :=
  ⟨.TARGET_INST, some RiscV64.JALR,
    [.register RiscV64.ra, .register (vreg RiscV64.GPR64 1), .integer 0]⟩

/-- The same with a call through a register of RISC-V. -/
def indirectCall : SelectedFunction :=
  functionOf RiscV64.GPR64 [targetInst 10 [.Write] [] [] [.register (vreg RiscV64.GPR64 0)],
      targetInst 10 [.Write] [] [] [.register (vreg RiscV64.GPR64 1)], indirectJump,
      targetInst 11 [.Read] [] [] [.register (vreg RiscV64.GPR64 0)]]
    (by decide)

def lp64d : CallingConvention := RiscV64.LP64D.generate RiscV64.classes false

/-- A pass that tries the registers of a class from the last one on. -/
def riscVPass : ConventionPass :=
  conventionPass
    { RiscV64.registers with classRegs := fun c => (RiscV64.registers.classRegs c).reverse }
    lp64d

/-- The value is in `t6` during the call. -/
theorem indirect_call_overwrites :
    ¬ ∀ (pass : ConventionPass) (callees : Callees) (f : SelectedFunction)
      (r : AllocationResult), pass.run f = some r → RespectsCalls pass callees f r := by
  intro h
  have hrun : (riscVPass.run indirectCall).map (fun r =>
      rewriteReg r.ctx (vreg RiscV64.GPR64 0)) = some (preg RiscV64.GPR64 31) := by
    decide
  have hfunction : (riscVPass.run indirectCall).map AllocationResult.function =
      some indirectCall := rfl
  cases hresult : riscVPass.run indirectCall with
  | none =>
    rw [hresult] at hrun
    cases hrun
  | some r =>
    obtain ⟨function, carried, ctx⟩ := r
    rw [hresult] at hrun hfunction
    obtain rfl := Option.some.inj hfunction
    have hreg : rewriteReg ctx (vreg RiscV64.GPR64 0) = preg RiscV64.GPR64 31 :=
      Option.some.inj hrun
    have hrespects := h riscVPass (fun _ callee => callee = lp64d) _ _ hresult
    have hundefined : regKey (vreg RiscV64.GPR64 0) ∉
        keys regKey indirectJump.getDefinedRegisters := by decide
    have hsurvives := (hrespects.survives
      ⟨_, mem_singleton_self _, [_, _], indirectJump, [_], rfl, by decide, lp64d, rfl⟩
      (vreg RiscV64.GPR64 0) ⟨rfl, .inr (by decide), hundefined⟩).2 ⟨0, 31⟩ (by decide)
    change Names (rewriteReg ctx (vreg RiscV64.GPR64 0)) _ → lp64d.Preserves _
      at hsurvives
    rw [hreg] at hsurvives
    revert hsurvives
    decide

end

end EzPacker.RegAlloc
