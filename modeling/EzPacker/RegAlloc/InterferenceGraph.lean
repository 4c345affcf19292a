import Mathlib.Algebra.Ring.Nat
import EzPacker.Lib.KeyedSet
import EzPacker.Mir.InstructionSet

/-!
# The interference graph

A node of the graph is a register, as the references' equality tells them apart: a
virtual one by number, a physical one by class and number. Two physical registers of
different classes of one bank are different nodes, also when their numbers are the
same and they alias.

The graph is built backwards from the registers live out of each block: what an
instruction defines, and at a call what the convention lets the callee overwrite,
interferes with everything live behind it.
-/

namespace EzPacker.RegAlloc

open Mir KeyedSet

/-- What makes two register references equal. -/
inductive RegKey
  | vreg (id : ℕ)
  | preg (regClass : Option MirRegisterClass) (id : ℕ)
  deriving DecidableEq, Repr

def RegKey.isVirtual : RegKey → Bool
  | vreg _ => true
  | preg _ _ => false

def regKey (r : MirRegisterRef) : RegKey :=
  if r.isVirtual then .vreg r.id else .preg r.regClass r.id

theorem same_iff (a b : MirRegisterRef) : a.same b = true ↔ regKey a = regKey b := by
  unfold MirRegisterRef.same regKey
  cases ha : a.isVirtual <;> cases hb : b.isVirtual <;> simp [and_comm]

@[simp] theorem regKey_isVirtual (r : MirRegisterRef) : (regKey r).isVirtual = r.isVirtual := by
  unfold regKey
  cases h : r.isVirtual <;> simp [RegKey.isVirtual]

/-- A physical reference is determined by its key. -/
theorem eq_of_regKey {a b : MirRegisterRef} (ha : a.isVirtual = false)
    (h : regKey a = regKey b) : a = b := by
  have hb : b.isVirtual = false := by
    rw [← regKey_isVirtual b, ← h, regKey_isVirtual, ha]
  cases a
  cases b
  simp_all [regKey]

def bankOf (banks : ℕ → ℕ) : RegKey → Option ℕ
  | .vreg id => some (banks id)
  | .preg regClass _ => regClass.map MirRegisterClass.bank

/-- The reference has a class of its register's bank. -/
def InBank (banks : ℕ → ℕ) (r : MirRegisterRef) : Prop :=
  r.isVirtual = true → ∃ c, r.regClass = some c ∧ c.bank = banks r.id

def operandRefs (operand : MirOperand) : List MirRegisterRef :=
  (visitOperandRegisters operand .None).map Prod.fst

def instRefs (inst : MirInstruction) : List MirRegisterRef :=
  inst.operands.flatMap operandRefs ++
    (inst.targetDesc.map MirTargetInstructionDesc.implicitDefs).getD [] ++
    (inst.targetDesc.map MirTargetInstructionDesc.implicitUses).getD []

structure MirBlock where
  id : ℕ
  instructions : List MirInstruction
  deriving DecidableEq, Repr

/-- A function behind instruction selection: every reference of a virtual register has
a register class, and the classes of one register share its bank. -/
structure SelectedFunction where
  blocks : List MirBlock
  banks : ℕ → ℕ
  inBank : ∀ b ∈ blocks, ∀ inst ∈ b.instructions, ∀ r ∈ instRefs inst, InBank banks r

/-- What the liveness analysis found to be live out of the blocks. -/
structure LivenessResult (f : SelectedFunction) where
  liveOut : ℕ → List MirRegisterRef
  inBank : ∀ b, ∀ r ∈ liveOut b, InBank f.banks r

theorem inBank_nil (f : SelectedFunction) : ∀ _ : ℕ, ∀ r ∈ ([] : List MirRegisterRef),
    InBank f.banks r := fun _ _ hr => nomatch hr

/-- What the allocator reads of a calling convention; whether there is a frame pointer
depends on whether the function allocates dynamically and on whether it calls. -/
structure CallingConvDesc where
  callerSavedRegs : List MirRegisterRef
  callerSaved_physical : ∀ r ∈ callerSavedRegs, r.isVirtual = false
  hasFramePointer : Bool → Bool → Bool
  framePointerReg : MirRegisterRef
  stackPointerReg : MirRegisterRef

/-- The register classes of a target: the numbers of their registers, and the classes
of a bank. -/
structure TargetRegisters where
  classRegs : MirRegisterClass → List ℕ
  bankClasses : ℕ → List MirRegisterClass

def preg (c : MirRegisterClass) (id : ℕ) : MirRegisterRef := ⟨false, some c, id⟩

structure InterferenceGraph where
  nodes : List MirRegisterRef
  neighbors : RegKey → List MirRegisterRef

namespace InterferenceGraph

def empty : InterferenceGraph := ⟨[], fun _ => []⟩

def Adj (g : InterferenceGraph) (a b : RegKey) : Prop := b ∈ keys regKey (g.neighbors a)

instance (g : InterferenceGraph) (a b : RegKey) : Decidable (g.Adj a b) :=
  inferInstanceAs (Decidable (b ∈ keys regKey (g.neighbors a)))

def IsNode (g : InterferenceGraph) (a : RegKey) : Prop := a ∈ keys regKey g.nodes

def addNode (g : InterferenceGraph) (r : MirRegisterRef) : InterferenceGraph :=
  { g with nodes := insert regKey g.nodes r }

def insertNeighbor (g : InterferenceGraph) (r w : MirRegisterRef) : InterferenceGraph :=
  { nodes := insert regKey g.nodes r
    neighbors := fun k =>
      if k = regKey r then insert regKey (g.neighbors k) w else g.neighbors k }

/-- An edge between the two, unless it is there. -/
def connect (g : InterferenceGraph) (a b : MirRegisterRef) : InterferenceGraph :=
  if contains regKey ((g.addNode a).neighbors (regKey a)) b then g.addNode a
  else ((g.addNode a).insertNeighbor a b).insertNeighbor b a

end InterferenceGraph

open InterferenceGraph

def mayShareBank (a b : MirRegisterRef) : Bool :=
  match a.regClass, b.regClass with
  | some c, some d => c.bank = d.bank
  | _, _ => true

/-- Edges between a register and everything live. -/
def interfere (live : List MirRegisterRef) (g : InterferenceGraph) (r : MirRegisterRef) :
    InterferenceGraph :=
  live.foldl (fun g l => if regKey r ≠ regKey l ∧ mayShareBank r l then g.connect r l else g)
    (g.addNode r)

/-- A two-address instruction copies its first source to the destination before it
reads the others, which the destination must not overwrite. -/
def protectSources (g : InterferenceGraph) (inst : MirInstruction) : InterferenceGraph :=
  match inst.getDefinedRegisters with
  | [defReg] =>
    if inst.operands.length ≥ 3 then
      (inst.operands.drop 2).foldl
        (fun g operand =>
          match operand with
          | .register srcReg =>
            if regKey defReg ≠ regKey srcReg then g.connect defReg srcReg else g
          | _ => g) g
    else g
  | _ => g

/-- What an instruction adds to the graph, and what is live before it. -/
def visitInstruction (cc : Option CallingConvDesc) (inst : MirInstruction)
    (s : InterferenceGraph × List MirRegisterRef) :
    InterferenceGraph × List MirRegisterRef :=
  let defs := inst.getDefinedRegisters
  let uses := inst.getUsedRegisters
  let clobbered :=
    match cc with
    | some cc => if isCall inst then cc.callerSavedRegs else []
    | none => []
  let g := clobbered.foldl (interfere s.2) s.1
  let g := defs.foldl (interfere s.2) g
  let g := protectSources g inst
  (uses.foldl addNode g, insertAll regKey (eraseAll regKey s.2 defs) uses)

def visitBlock (cc : Option CallingConvDesc) (liveOut : ℕ → List MirRegisterRef)
    (g : InterferenceGraph) (b : MirBlock) : InterferenceGraph :=
  (b.instructions.foldr (visitInstruction cc) ((liveOut b.id).foldl addNode g, liveOut b.id)).1

def interferenceGraph (cc : Option CallingConvDesc) (f : SelectedFunction)
    (liveness : LivenessResult f) : InterferenceGraph :=
  f.blocks.foldl (visitBlock cc liveness.liveOut) empty

def reserveBankReg (target : TargetRegisters) (reserved : List MirRegisterRef)
    (reg : MirRegisterRef) : List MirRegisterRef :=
  let aliases :=
    match reg.regClass with
    | some c =>
      (target.bankClasses c.bank).flatMap fun other =>
        ((target.classRegs other).filter (· = reg.id)).map (preg other)
    | none => []
  insertAll regKey (insert regKey reserved reg) aliases

/-- The frame pointer, when there is one, and the stack pointer are reserved. -/
def reserveRegs (target : TargetRegisters) (cc : Option CallingConvDesc)
    (hasDynamicAllocs hasCalls : Bool) (reserved : List MirRegisterRef) :
    List MirRegisterRef :=
  match cc with
  | none => reserved
  | some cc =>
    let reserved :=
      if cc.hasFramePointer hasDynamicAllocs hasCalls ∧
          cc.framePointerReg.isVirtual = false then
        reserveBankReg target reserved cc.framePointerReg
      else reserved
    if cc.stackPointerReg.isVirtual = false then
      reserveBankReg target reserved cc.stackPointerReg
    else reserved

/-!
## Coalescing of copies

The two registers of a copy, or the destination and the first source of a two-address
instruction, are merged when they do not interfere and the heuristics of George and of
Briggs find that the merged node can still be coloured. Merging `v` into `u` records
`u` as the register `v` stands for and moves the edges of `v` to `u`; the candidates
are then looked through again from the first one on.

Registers interfere here when there is an edge between exactly the two: an alias of
another class is a different node.
-/

open Mir KeyedSet InterferenceGraph

/-- The working context of the allocation of a function. -/
structure RegisterAllocatorCtx where
  iGraph : InterferenceGraph
  reservedRegs : List MirRegisterRef
  unspillableRegs : List MirRegisterRef
  coalescedRegs : List (MirRegisterRef × MirRegisterRef)
  affinity : RegKey → List MirRegisterRef
  degree : RegKey → ℕ
  selectStack : List MirRegisterRef
  removedNodes : List MirRegisterRef
  allocatedRegs : RegKey → Option MirRegisterRef

/-- Follows the map of merged registers, `n` entries at most. -/
def leaderFrom (coalesced : List (MirRegisterRef × MirRegisterRef)) :
    ℕ → MirRegisterRef → MirRegisterRef
  | 0, reg => reg
  | n + 1, reg =>
    match coalesced.find? fun entry => regKey entry.1 = regKey reg with
    | some entry =>
      if regKey entry.2 = regKey reg then reg else leaderFrom coalesced n entry.2
    | none => reg

def RegisterAllocatorCtx.getCoalescedLeader (ctx : RegisterAllocatorCtx)
    (reg : MirRegisterRef) : MirRegisterRef :=
  leaderFrom ctx.coalescedRegs ctx.coalescedRegs.length reg

def getColorLimit (target : TargetRegisters) (reserved : List MirRegisterRef) :
    Option MirRegisterClass → ℕ
  | some c => (target.classRegs c).countP fun id => !contains regKey reserved (preg c id)
  | none => 0

/-- The pair of registers an instruction would like to be one, destination first. -/
def coalesceCandidate (inst : MirInstruction) : Option (MirRegisterRef × MirRegisterRef) :=
  if isMove inst ∧ inst.operands.length ≥ 2 then
    match inst.operands with
    | .register dst :: .register src :: _ =>
      if regKey dst ≠ regKey src then some (dst, src) else none
    | _ => none
  else if inst.operands.length ≥ 3 then
    match inst.getDefinedRegisters, inst.operands with
    | [defRef], .register op0Ref :: .register op1Ref :: _ =>
      if regKey defRef = regKey op0Ref ∧ regKey op0Ref ≠ regKey op1Ref then
        some (op0Ref, op1Ref)
      else none
    | _, _ => none
  else none

def coalesceCandidates (f : SelectedFunction) : List (MirRegisterRef × MirRegisterRef) :=
  f.blocks.flatMap fun b => b.instructions.filterMap coalesceCandidate

namespace InterferenceGraph

def eraseNeighbor (g : InterferenceGraph) (r w : MirRegisterRef) : InterferenceGraph :=
  { nodes := insert regKey g.nodes r
    neighbors := fun k =>
      if k = regKey r then erase regKey (g.neighbors k) w else g.neighbors k }

def eraseNode (g : InterferenceGraph) (r : MirRegisterRef) : InterferenceGraph :=
  { nodes := erase regKey g.nodes r
    neighbors := fun k => if k = regKey r then [] else g.neighbors k }

/-- The edge between `v` and `w` becomes one between `u` and `w`. -/
def moveEdge (u v : MirRegisterRef) (g : InterferenceGraph) (w : MirRegisterRef) :
    InterferenceGraph :=
  if regKey w ≠ regKey u ∧ regKey w ≠ regKey v then
    ((g.insertNeighbor u w).insertNeighbor w u).eraseNeighbor w v
  else g

def mergeNodes (g : InterferenceGraph) (u v : MirRegisterRef) : InterferenceGraph :=
  (((g.neighbors (regKey v)).foldl (moveEdge u v) g).eraseNeighbor u v).eraseNode v

end InterferenceGraph

section

variable (target : TargetRegisters)

/-- The neighbour can always be coloured behind the others. -/
def isLowDegree (ctx : RegisterAllocatorCtx) (t : MirRegisterRef) : Bool :=
  t.isVirtual && contains regKey ctx.iGraph.nodes t &&
    (ctx.iGraph.neighbors (regKey t)).length < getColorLimit target ctx.reservedRegs t.regClass

/-- The neighbour counts against Briggs' bound. -/
def isSignificant (ctx : RegisterAllocatorCtx) (t : MirRegisterRef) : Bool :=
  !t.isVirtual || contains regKey ctx.iGraph.nodes t &&
    (ctx.iGraph.neighbors (regKey t)).length ≥ getColorLimit target ctx.reservedRegs t.regClass

/-- George's criterion when `u` is physical, Briggs' when both are virtual. -/
def canCoalesce (ctx : RegisterAllocatorCtx) (u v : MirRegisterRef) : Bool :=
  let neighborsU := ctx.iGraph.neighbors (regKey u)
  let neighborsV := ctx.iGraph.neighbors (regKey v)
  if u.isVirtual then
    let combinedNeighbors := insertAll regKey []
      ((neighborsU ++ neighborsV).filter fun n => regKey n ≠ regKey u ∧ regKey n ≠ regKey v)
    combinedNeighbors.countP (isSignificant target ctx) <
      getColorLimit target ctx.reservedRegs u.regClass
  else
    neighborsV.all fun t =>
      regKey t = regKey u || contains regKey neighborsU t || isLowDegree target ctx t

/-- The pair is worth looking at: different, not both physical, not reserved, of one
class, in the graph and without an edge between them. -/
def isEligible (ctx : RegisterAllocatorCtx) (u v : MirRegisterRef) : Bool :=
  regKey u ≠ regKey v && (u.isVirtual || v.isVirtual) &&
    !contains regKey ctx.reservedRegs u && !contains regKey ctx.reservedRegs v &&
    u.regClass = v.regClass &&
    contains regKey ctx.iGraph.nodes u && contains regKey ctx.iGraph.nodes v &&
    !contains regKey (ctx.iGraph.neighbors (regKey u)) v &&
    !contains regKey (ctx.iGraph.neighbors (regKey v)) u

/-- A physical register comes first. -/
def orderPair (u v : MirRegisterRef) : MirRegisterRef × MirRegisterRef :=
  if u.isVirtual ∧ v.isVirtual = false then (v, u) else (u, v)

def RegisterAllocatorCtx.merge (ctx : RegisterAllocatorCtx) (u v : MirRegisterRef) :
    RegisterAllocatorCtx :=
  { ctx with
    coalescedRegs := (v, u) :: ctx.coalescedRegs
    unspillableRegs :=
      if contains regKey ctx.unspillableRegs v then
        erase regKey (insert regKey ctx.unspillableRegs u) v
      else ctx.unspillableRegs
    iGraph := ctx.iGraph.mergeNodes u v }

/-- The two are not merged, and each prefers the colour of the other. -/
def RegisterAllocatorCtx.keepApart (ctx : RegisterAllocatorCtx) (u v : MirRegisterRef) :
    RegisterAllocatorCtx :=
  let add (a b : MirRegisterRef) (affinity : RegKey → List MirRegisterRef) (k : RegKey) :=
    if k = regKey a then insert regKey (affinity k) b else affinity k
  { ctx with affinity := add v u (add u v ctx.affinity) }

/-- The pair to look at for a candidate: what its registers stand for by now. -/
def leaderPair (ctx : RegisterAllocatorCtx) (cand : MirRegisterRef × MirRegisterRef) :
    MirRegisterRef × MirRegisterRef :=
  orderPair (ctx.getCoalescedLeader cand.1) (ctx.getCoalescedLeader cand.2)

def nextMerge : List (MirRegisterRef × MirRegisterRef) → RegisterAllocatorCtx →
    RegisterAllocatorCtx × Option (MirRegisterRef × MirRegisterRef)
  | [], ctx => (ctx, none)
  | cand :: rest, ctx =>
    if isEligible ctx (leaderPair ctx cand).1 (leaderPair ctx cand).2 then
      if canCoalesce target ctx (leaderPair ctx cand).1 (leaderPair ctx cand).2 then
        (ctx, some (leaderPair ctx cand))
      else nextMerge rest (ctx.keepApart (leaderPair ctx cand).1 (leaderPair ctx cand).2)
    else nextMerge rest ctx

/-- Merges until a scan of the candidates finds nothing, `n` times at most. -/
def coalesceLoop (candidates : List (MirRegisterRef × MirRegisterRef)) :
    ℕ → RegisterAllocatorCtx → RegisterAllocatorCtx
  | 0, ctx => ctx
  | n + 1, ctx =>
    match nextMerge target candidates ctx with
    | (ctx, some (u, v)) => coalesceLoop candidates n (ctx.merge u v)
    | (ctx, none) => ctx

/-- Every merge takes a node away, so that a scan finds nothing before the bound. -/
def coalesce (f : SelectedFunction) (ctx : RegisterAllocatorCtx) : RegisterAllocatorCtx :=
  coalesceLoop target (coalesceCandidates f) (ctx.iGraph.nodes.length + 1) ctx

end

/-!
## Simplification and selection

`simplify` takes the virtual nodes off the graph one by one: one of low degree if there
is one, else the one whose spill costs least, else any. `selectColors` gives them
colours in the opposite order, each the first register of its class whose number no
coloured neighbour of the bank has; a node that finds none is spilled, and the
allocation starts over on the rewritten function.

The order in which the hashed and ordered containers are iterated is a parameter.
-/

open Mir KeyedSet InterferenceGraph

/-- The order in which a container is iterated. -/
structure IterationOrder where
  order : List MirRegisterRef → List MirRegisterRef
  perm : ∀ l, (order l).Perm l

/-- Degrees of the nodes; the colour of a physical register is the register. -/
def evaluateInterferenceGraphDegree (ctx : RegisterAllocatorCtx) : RegisterAllocatorCtx :=
  { ctx with
    degree := fun k => (ctx.iGraph.neighbors k).length
    allocatedRegs := fun k =>
      ctx.iGraph.nodes.find? fun node => node.isVirtual = false ∧ regKey node = k }

/-- How often the register is read or written in the function. -/
def calculateSpillCost (f : SelectedFunction) (k : RegKey) : ℕ :=
  ((f.blocks.flatMap MirBlock.instructions).map fun inst =>
    (keys regKey inst.getUsedRegisters).count k +
      (keys regKey inst.getDefinedRegisters).count k).sum

structure SimplifyState where
  lowDegreeQueue : List MirRegisterRef
  spillCandidates : List MirRegisterRef
  removedNodes : List MirRegisterRef
  selectStack : List MirRegisterRef
  degree : RegKey → ℕ

def popLowDegree (removed : List MirRegisterRef) :
    List MirRegisterRef → Option MirRegisterRef × List MirRegisterRef
  | [] => (none, [])
  | node :: queue =>
    if contains regKey removed node then popLowDegree removed queue else (some node, queue)

/-- The entry at `i` is replaced by the last one. -/
def swapRemove (l : List MirRegisterRef) (i : ℕ) : List MirRegisterRef :=
  match l.getLast? with
  | some back => (l.set i back).dropLast
  | none => l

/-- The scan for the cheapest candidate from index `i` on, which throws out removed
nodes as it meets them. The best entry so far stays where it is, below `i`. -/
def scanSpill (removed : List MirRegisterRef) (cheaper : MirRegisterRef → MirRegisterRef → Bool) :
    ℕ → ℕ → List MirRegisterRef → Option (ℕ × MirRegisterRef) →
      List MirRegisterRef × Option (ℕ × MirRegisterRef)
  | 0, _, l, best => (l, best)
  | n + 1, i, l, best =>
    match l[i]? with
    | none => (l, best)
    | some node =>
      if contains regKey removed node then
        scanSpill removed cheaper n i (swapRemove l i) best
      else
        match best with
        | none => scanSpill removed cheaper n (i + 1) l (some (i, node))
        | some b =>
          scanSpill removed cheaper n (i + 1) l
            (if cheaper node b.2 then some (i, node) else some b)

section

variable (target : TargetRegisters) (mapOrder setOrder : IterationOrder)
  (f : SelectedFunction) (ctx : RegisterAllocatorCtx)

/-- The limit that was noted for the classes of the virtual nodes. -/
def colorLimit (regClass : Option MirRegisterClass) : ℕ :=
  if ctx.iGraph.nodes.any fun node => node.isVirtual && node.regClass = regClass then
    getColorLimit target ctx.reservedRegs regClass
  else 0

/-- Cost over degree, compared crosswise. -/
def isCheaper (degree : RegKey → ℕ) (a b : MirRegisterRef) : Bool :=
  calculateSpillCost f (regKey a) * max 1 (degree (regKey b)) <
    calculateSpillCost f (regKey b) * max 1 (degree (regKey a))

/-- The node that is removed next. -/
def pickCandidate (st : SimplifyState) : Option MirRegisterRef × SimplifyState :=
  match popLowDegree st.removedNodes st.lowDegreeQueue with
  | (some node, queue) => (some node, { st with lowDegreeQueue := queue })
  | (none, queue) =>
    match scanSpill st.removedNodes (isCheaper f st.degree) st.spillCandidates.length 0
        st.spillCandidates none with
    | (l, some (i, node)) =>
      (some node, { st with lowDegreeQueue := queue, spillCandidates := swapRemove l i })
    | (l, none) =>
      ((mapOrder.order ctx.iGraph.nodes).find? fun node =>
          node.isVirtual ∧ contains regKey st.removedNodes node = false,
        { st with lowDegreeQueue := queue, spillCandidates := l })

/-- A neighbour of a removed node loses a degree, and is queued when it becomes low. -/
def lowerDegree (st : SimplifyState) (neighbor : MirRegisterRef) : SimplifyState :=
  if neighbor.isVirtual ∧ contains regKey st.removedNodes neighbor = false then
    if st.degree (regKey neighbor) > 0 then
      let oldDeg := st.degree (regKey neighbor)
      let limit := colorLimit target ctx neighbor.regClass
      { st with
        degree := fun k => if k = regKey neighbor then oldDeg - 1 else st.degree k
        lowDegreeQueue :=
          if oldDeg = limit ∧ oldDeg - 1 < limit then neighbor :: st.lowDegreeQueue
          else st.lowDegreeQueue }
    else st
  else st

def invalidRegister : MirRegisterRef := ⟨true, none, 2 ^ 64 - 1⟩

/-- A node goes from the graph to the stack. -/
def removeNode (candidate : MirRegisterRef) (st : SimplifyState) : SimplifyState :=
  (setOrder.order (ctx.iGraph.neighbors (regKey candidate))).foldl (lowerDegree target ctx)
    { st with
      removedNodes := insert regKey st.removedNodes candidate
      selectStack := candidate :: st.selectStack }

def simplifyStep (st : SimplifyState) : SimplifyState :=
  removeNode target setOrder ctx ((pickCandidate mapOrder f ctx st).1.getD invalidRegister)
    (pickCandidate mapOrder f ctx st).2

def virtualNodes : List MirRegisterRef := ctx.iGraph.nodes.filter MirRegisterRef.isVirtual

def simplifyStart : SimplifyState where
  lowDegreeQueue := ((mapOrder.order (virtualNodes ctx)).filter fun node =>
    ctx.degree (regKey node) < colorLimit target ctx node.regClass).reverse
  spillCandidates := (mapOrder.order (virtualNodes ctx)).filter fun node =>
    !contains regKey ctx.unspillableRegs node
  removedNodes := []
  selectStack := []
  degree := ctx.degree

/-- As many nodes as there are virtual ones go to the stack. -/
def simplifyLoop : ℕ → SimplifyState → SimplifyState
  | 0, st => st
  | n + 1, st => simplifyLoop n (simplifyStep target mapOrder setOrder f ctx st)

/-- All virtual nodes go to the stack, none when one has no class. -/
def simplify : Option RegisterAllocatorCtx :=
  if (virtualNodes ctx).any fun node => node.regClass.isNone then none
  else
    let st := simplifyLoop target mapOrder setOrder f ctx (virtualNodes ctx).length
      (simplifyStart target mapOrder ctx)
    some { ctx with
      selectStack := st.selectStack
      removedNodes := st.removedNodes
      degree := st.degree }

end

section

variable (target : TargetRegisters)

def markUsed (usedColors : List ℕ) (colorId : ℕ) : List ℕ :=
  if colorId < 64 then colorId :: usedColors else usedColors

def isUsed (usedColors : List ℕ) (colorId : ℕ) : Bool :=
  colorId < 64 && colorId ∈ usedColors

/-- The registers of a reference's class. -/
def availableColors (node : MirRegisterRef) : List MirRegisterRef :=
  match node.regClass with
  | some c => (target.classRegs c).map (preg c)
  | none => []

/-- What a neighbour makes unavailable: a coloured one of the bank its colour. -/
def markNeighbor (ctx : RegisterAllocatorCtx) (node : MirRegisterRef) (usedColors : List ℕ)
    (neighbor : MirRegisterRef) : List ℕ :=
  if contains regKey ctx.removedNodes neighbor then usedColors
  else if neighbor.isVirtual = false then
    if mayShareBank neighbor node then markUsed usedColors neighbor.id else usedColors
  else
    match ctx.allocatedRegs (regKey neighbor) with
    | some assigned =>
      if mayShareBank assigned node then markUsed usedColors assigned.id else usedColors
    | none => usedColors

def usedColors (ctx : RegisterAllocatorCtx) (node : MirRegisterRef) : List ℕ :=
  (ctx.iGraph.neighbors (regKey node)).foldl (markNeighbor ctx node)
    (((availableColors target node).filter (contains regKey ctx.reservedRegs)).foldl
      (fun used ref => markUsed used ref.id) [])

def partnerColor (ctx : RegisterAllocatorCtx) (partner : MirRegisterRef) : Option MirRegisterRef :=
  let leaderPartner := ctx.getCoalescedLeader partner
  if leaderPartner.isVirtual = false then some leaderPartner
  else ctx.allocatedRegs (regKey leaderPartner)

/-- The colour of a node: a partner's when it is free, else the first free one. -/
def pickColor (ctx : RegisterAllocatorCtx) (node : MirRegisterRef) : Option MirRegisterRef :=
  let used := usedColors target ctx node
  let preferred := (ctx.affinity (regKey node)).findSome? fun partner =>
    (partnerColor ctx partner).filter fun color =>
      color.isVirtual = false ∧ color.regClass = node.regClass ∧ isUsed used color.id = false
  match preferred with
  | some color => some color
  | none => (availableColors target node).find? fun ref => isUsed used ref.id = false

inductive SelectResult
  | colored (ctx : RegisterAllocatorCtx)
  | spilled (spilledNodes : List MirRegisterRef) (ctx : RegisterAllocatorCtx)
  | outOfColors (ctx : RegisterAllocatorCtx)

/-- The node has the colour `physRef` and counts as a neighbour again. -/
def RegisterAllocatorCtx.assign (ctx : RegisterAllocatorCtx) (node physRef : MirRegisterRef) :
    RegisterAllocatorCtx :=
  { ctx with
    allocatedRegs := fun k => if k = regKey node then some physRef else ctx.allocatedRegs k
    removedNodes := erase regKey ctx.removedNodes node }

def selectLoop : List MirRegisterRef → List MirRegisterRef → RegisterAllocatorCtx → SelectResult
  | [], [], ctx => .colored ctx
  | [], spilledNodes, ctx => .spilled spilledNodes ctx
  | node :: stack, spilledNodes, ctx =>
    match pickColor target ctx node with
    | some physRef => selectLoop stack spilledNodes (ctx.assign node physRef)
    | none =>
      if contains regKey ctx.unspillableRegs node then .outOfColors ctx
      else selectLoop stack (insert regKey spilledNodes node) ctx

def selectColors (ctx : RegisterAllocatorCtx) : SelectResult :=
  selectLoop target ctx.selectStack [] ctx

end

end EzPacker.RegAlloc
