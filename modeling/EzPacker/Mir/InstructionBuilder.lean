import EzPacker.Lib.Run
import EzPacker.Mir.InstructionSet
import Mathlib.Data.List.Nodup

/-!
# The instruction builder

The instructions of one function, with the blocks that hold them and the register
bookkeeping. An instruction is linked when it has an owning block. Every operation
of the builder brings the insertion point the builder has at that moment; an
instruction without an owner uses the register info of the insertion point's
function, so a builder that stands in no block of this function reaches none.

An operation that the source rejects with an exception before it changes anything
leaves the state as it is.
-/

namespace EzPacker.Mir

open MirInstruction List Function

inductive InsertionType
  | Append | InsertBefore | InsertAfter
  deriving DecidableEq, Repr

/-- The block of the function a builder stands in, if any, and the instruction its
iterator points to, `none` for the end of the block. -/
structure InsertionPoint (n : ℕ) where
  block : Option (Fin n)
  type : InsertionType
  iterator : Option ℕ
  deriving DecidableEq, Repr

/-- A function of `n` blocks under construction. -/
structure BuilderState (n : ℕ) where
  instrs : ℕ → MirInstruction
  owner : ℕ → Option (Fin n)
  blocks : Fin n → List ℕ
  regInfo : MirFunctionRegisterInfo
  nextInstr : ℕ

inductive BuilderOp (n : ℕ)
  | build (ip : InsertionPoint n) (opcode : MirInstructionOpCode)
      (targetDesc : Option MirTargetInstructionDesc) (operands : List MirOperand)
  | addOperand (ip : InsertionPoint n) (instr : ℕ) (operand : MirOperand)
  | addOperandFront (ip : InsertionPoint n) (instr : ℕ) (operand : MirOperand)
  | swapOperand (ip : InsertionPoint n) (instr : ℕ) (newOperand : MirOperand) (index : ℕ)
  | clearOperand (ip : InsertionPoint n) (instr pos : ℕ)
  | clearOperands (ip : InsertionPoint n) (instr : ℕ)
  | erase (ip : InsertionPoint n) (instr : ℕ)
  | eraseFromOwner (instr : ℕ)
  deriving Repr

def insertBefore (instr target : ℕ) : List ℕ → List ℕ
  | [] => [instr]
  | i :: is => if i = target then instr :: i :: is else i :: insertBefore instr target is

def insertAfter (instr target : ℕ) : List ℕ → List ℕ
  | [] => [instr]
  | i :: is => if i = target then i :: instr :: is else i :: insertAfter instr target is

namespace InsertionPoint

def insert {n : ℕ} (ip : InsertionPoint n) (instr : ℕ) (block : List ℕ) : List ℕ :=
  match ip.type, ip.iterator with
  | .Append, _ => block ++ [instr]
  | _, none => block ++ [instr]
  | .InsertBefore, some target => insertBefore instr target block
  | .InsertAfter, some target => insertAfter instr target block

end InsertionPoint

namespace BuilderState

variable {n : ℕ}

/-- The function before its first instruction. -/
def new (n : ℕ) : BuilderState n where
  instrs _ := ⟨.NOP, none, []⟩
  owner _ := none
  blocks _ := []
  regInfo := .empty
  nextInstr := 0

/-- The linked instructions, block by block. -/
def linked (s : BuilderState n) : List ℕ :=
  (finRange n).flatMap s.blocks

/-- The register info of the function is reached through the instruction's own
block or, without one, through the block of the insertion point. -/
def getRegInfo (s : BuilderState n) (block : Option (Fin n)) (instr : ℕ) : Bool :=
  ((s.owner instr).or block).isSome

def setOperands (s : BuilderState n) (instr : ℕ) (operands : List MirOperand) : BuilderState n :=
  { s with
    instrs := update s.instrs instr { s.instrs instr with operands := operands } }

def registerOperand (s : BuilderState n) (block : Option (Fin n)) (instr index : ℕ) :
    BuilderState n :=
  if s.getRegInfo block instr then
    { s with
      regInfo := ((s.instrs instr).visitsAt index).foldl
        (fun info v => info.registerAccess instr index v) s.regInfo }
  else s

def unregisterOperand (s : BuilderState n) (block : Option (Fin n))
    (instr index : ℕ) : BuilderState n :=
  if s.getRegInfo block instr then
    { s with
      regInfo := ((s.instrs instr).visitsAt index).foldl
        (fun info v => info.unregisterAccess instr v) s.regInfo }
  else s

/-- Registers the operands from position `first` on. -/
def registerFrom (s : BuilderState n) (block : Option (Fin n)) (instr first : ℕ) : BuilderState n :=
  (range' first ((s.instrs instr).operands.length - first)).foldl
    (fun s index => s.registerOperand block instr index) s

/-- Unregisters the operands from position `first` on. -/
def unregisterFrom (s : BuilderState n) (block : Option (Fin n)) (instr first : ℕ) :
    BuilderState n :=
  (range' first ((s.instrs instr).operands.length - first)).foldl
    (fun s index => s.unregisterOperand block instr index) s

def addOperand (s : BuilderState n) (block : Option (Fin n)) (instr : ℕ)
    (operand : MirOperand) : BuilderState n :=
  let s := s.setOperands instr ((s.instrs instr).operands ++ [operand])
  s.registerOperand block instr ((s.instrs instr).operands.length - 1)

/-- The operands behind the new one shift by one position. -/
def addOperandFront (s : BuilderState n) (block : Option (Fin n)) (instr : ℕ)
    (operand : MirOperand) : BuilderState n :=
  let s := s.unregisterFrom block instr 0
  let s := s.setOperands instr (operand :: (s.instrs instr).operands)
  s.registerFrom block instr 0

def clearOperands (s : BuilderState n) (block : Option (Fin n)) (instr : ℕ) : BuilderState n :=
  (s.unregisterFrom block instr 0).setOperands instr []

def clearOperand (s : BuilderState n) (block : Option (Fin n)) (instr pos : ℕ) : BuilderState n :=
  if pos ≥ (s.instrs instr).operands.length then s
  else
    let s := s.unregisterFrom block instr pos
    let s := s.setOperands instr ((s.instrs instr).operands.eraseIdx pos)
    s.registerFrom block instr pos

def swapOperand (s : BuilderState n) (block : Option (Fin n)) (instr : ℕ)
    (newOperand : MirOperand) (index : ℕ) : BuilderState n :=
  if index ≥ (s.instrs instr).operands.length then s
  else
    let s := s.unregisterOperand block instr index
    let s := s.setOperands instr ((s.instrs instr).operands.set index newOperand)
    s.registerOperand block instr index

/-- Takes the instruction out of its block and clears its owner. -/
def unlink (s : BuilderState n) (instr : ℕ) : BuilderState n :=
  match s.owner instr with
  | none => s
  | some b =>
    { s with
      blocks := update s.blocks b ((s.blocks b).filter (· ≠ instr))
      owner := update s.owner instr none }

def erase (s : BuilderState n) (block : Option (Fin n)) (instr : ℕ) : BuilderState n :=
  (s.unregisterFrom block instr 0).unlink instr

/-- Does nothing for an instruction that has been erased. -/
def eraseFromOwner (s : BuilderState n) (instr : ℕ) : BuilderState n :=
  if s.owner instr = none then s
  else (s.unregisterFrom none instr 0).unlink instr

/-- Allocates an instruction that names the block of the insertion point as its
owner before it is linked. -/
def createInstruction (s : BuilderState n) (block : Option (Fin n))
    (opcode : MirInstructionOpCode) (targetDesc : Option MirTargetInstructionDesc) :
    BuilderState n :=
  { s with
    instrs := update s.instrs s.nextInstr ⟨opcode, targetDesc, []⟩
    owner := update s.owner s.nextInstr block
    nextInstr := s.nextInstr + 1 }

def finalizeInstruction (s : BuilderState n) (ip : InsertionPoint n) (instr : ℕ) : BuilderState n :=
  match ip.block with
  | none => s
  | some b =>
    { s with blocks := update s.blocks b (ip.insert instr (s.blocks b)) }

def buildImpl (s : BuilderState n) (ip : InsertionPoint n)
    (opcode : MirInstructionOpCode) (targetDesc : Option MirTargetInstructionDesc)
    (operands : List MirOperand) : BuilderState n :=
  let instr := s.nextInstr
  let s := s.createInstruction ip.block opcode targetDesc
  let s := operands.foldl (fun s operand => s.addOperand ip.block instr operand) s
  s.finalizeInstruction ip instr

def step (s : BuilderState n) : BuilderOp n → BuilderState n
  | .build ip opcode targetDesc operands => s.buildImpl ip opcode targetDesc operands
  | .addOperand ip instr operand => s.addOperand ip.block instr operand
  | .addOperandFront ip instr operand => s.addOperandFront ip.block instr operand
  | .swapOperand ip instr newOperand index =>
    s.swapOperand ip.block instr newOperand index
  | .clearOperand ip instr pos => s.clearOperand ip.block instr pos
  | .clearOperands ip instr => s.clearOperands ip.block instr
  | .erase ip instr => s.erase ip.block instr
  | .eraseFromOwner instr => s.eraseFromOwner instr

end BuilderState

/-!
## Exactness of the def-use bookkeeping

The register info of a function is exact when it lists every read of every linked
instruction once and names the writer of every register that has one writer. An
operation of the builder keeps it exact when it meets `Keeps`, a condition on the
state before it:

* an operand whose place the operation does not touch must keep its access flags,
  and must not read a register that the operation unregisters, since unregistering
  drops all reads of that register by the instruction;
* when the recorded definition of a register goes and another instruction is then
  its only writer, that one must be the recorded one;
* an instruction that is not linked must get no operand with virtual registers
  from a builder that stands in the function.
-/

namespace MirInstruction

/-- The accesses of virtual registers by the operand at a position. -/
def accessesAt (inst : MirInstruction) (index : ℕ) : List (Access ℕ ℕ) :=
  virtualAccesses index (inst.visitsAt index)

def accessesOn (inst : MirInstruction) (positions : List ℕ) : List (Access ℕ ℕ) :=
  positions.flatMap inst.accessesAt

/-- The accesses of all operands. -/
def accesses (inst : MirInstruction) : List (Access ℕ ℕ) :=
  inst.accessesOn (range inst.operands.length)

theorem accessesOn_append (inst : MirInstruction) (ps qs : List ℕ) :
    inst.accessesOn (ps ++ qs) = inst.accessesOn ps ++ inst.accessesOn qs := by
  simp [accessesOn]

theorem accessesOn_perm (inst : MirInstruction) {ps qs : List ℕ} (h : ps.Perm qs) :
    (inst.accessesOn ps).Perm (inst.accessesOn qs) :=
  h.flatMap_right _

theorem accessesOn_congr {old new : MirInstruction} {ps : List ℕ}
    (h : ∀ p ∈ ps, new.accessesAt p = old.accessesAt p) :
    new.accessesOn ps = old.accessesOn ps :=
  flatMap_congr h

end MirInstruction

namespace BuilderState

variable {n : ℕ}

/-- The accesses the register info should hold for an instruction. -/
def linkedAccesses (s : BuilderState n) (instr : ℕ) : List (Access ℕ ℕ) :=
  if s.owner instr = none then [] else (s.instrs instr).accesses

/-- The reads of a register by linked instructions, as (instruction, position). -/
def reads (s : BuilderState n) (r : ℕ) : List (ℕ × ℕ) :=
  s.linked.flatMap fun i => (Access.readsAt r (s.instrs i).accesses).map (i, ·)

/-- The linked instructions that write a register. -/
def writers (s : BuilderState n) (r : ℕ) : List ℕ :=
  s.linked.filter fun i => Access.Writes r (s.instrs i).accesses

/-- The accesses `kept` of an instruction survive the removal of `gone` and the
recording of `fresh`. -/
structure EditOk (s : BuilderState n) (instr : ℕ)
    (kept gone fresh : List (Access ℕ ℕ)) : Prop where
  reads : ∀ a ∈ kept, ∀ b ∈ gone, a.reads = true → b.reads = true → a.reg ≠ b.reg
  writes : ∀ a ∈ kept, ∀ b ∈ gone, a.writes = true → b.writes = true →
    a.reg = b.reg → Access.Writes a.reg fresh ∨ ∃ w ∈ s.writers a.reg, w ≠ instr
  defs : ∀ b ∈ gone, b.writes = true → ¬ Access.Writes b.reg (kept ++ fresh) →
    ∀ w ∈ s.writers b.reg, w ≠ instr → (∀ w' ∈ s.writers b.reg, w' ≠ instr → w' = w) →
        s.regInfo.getDef b.reg = some w

/-- The condition on replacing an instruction's operands: `kept` are the positions
left alone, `gone` the unregistered ones and `fresh` the registered ones. -/
def EditKeeps (s : BuilderState n) (block : Option (Fin n)) (instr : ℕ)
    (operands : List MirOperand) (kept gone fresh : List ℕ) : Prop :=
  let old := s.instrs instr
  let new := { old with operands := operands }
  if s.owner instr = none then block = none ∨ new.accessesOn fresh = []
  else
    (∀ p ∈ kept, new.accessesAt p = old.accessesAt p) ∧
      s.EditOk instr (old.accessesOn kept) (old.accessesOn gone) (new.accessesOn fresh)

/-- The definitions that an erased instruction takes with it leave no other single
writer that the register info has forgotten. -/
def EraseKeeps (s : BuilderState n) (instr : ℕ) : Prop :=
  s.owner instr = none ∨ s.EditOk instr [] (s.instrs instr).accesses []

def Keeps (s : BuilderState n) : BuilderOp n → Prop
  | .build ip opcode targetDesc operands =>
    -- every operand is registered when it is the last one so far
    ip.block = none ∨ ∀ p < operands.length,
      (⟨opcode, targetDesc, operands.take (p + 1)⟩ : MirInstruction).accessesAt p =
        (⟨opcode, targetDesc, operands⟩ : MirInstruction).accessesAt p
  | .addOperand ip instr operand =>
    let old := (s.instrs instr).operands
    s.EditKeeps ip.block instr (old ++ [operand]) (range old.length) [] [old.length]
  | .addOperandFront ip instr operand =>
    let old := (s.instrs instr).operands
    s.EditKeeps ip.block instr (operand :: old) [] (range old.length) (range (old.length + 1))
  | .swapOperand ip instr newOperand index =>
    let old := (s.instrs instr).operands
    index ≥ old.length ∨ s.EditKeeps ip.block instr (old.set index newOperand)
        ((range old.length).filter (· ≠ index)) [index] [index]
  | .clearOperand ip instr pos =>
    let old := (s.instrs instr).operands
    pos ≥ old.length ∨ s.EditKeeps ip.block instr (old.eraseIdx pos) (range pos)
        (range' pos (old.length - pos)) (range' pos (old.length - 1 - pos))
  | .clearOperands ip instr =>
    let old := (s.instrs instr).operands
    s.EditKeeps ip.block instr [] [] (range old.length) []
  | .erase _ instr => s.EraseKeeps instr
  | .eraseFromOwner instr => s.EraseKeeps instr

/-- Blocks and owners agree. -/
structure Placed (s : BuilderState n) : Prop where
  mem_iff : ∀ b i, i ∈ s.blocks b ↔ s.owner i = some b
  nodup : ∀ b, (s.blocks b).Nodup
  fresh : ∀ i, s.nextInstr ≤ i → s.owner i = none

structure Inv (s : BuilderState n) : Prop where
  placed : s.Placed
  tableExact : s.regInfo.view.Exact s.linkedAccesses

variable {s : BuilderState n}

theorem Placed.mem_linked (h : s.Placed) {i : ℕ} : i ∈ s.linked ↔ s.owner i ≠ none := by
  simp only [linked, mem_flatMap, mem_finRange, true_and, h.mem_iff]
  exact Option.ne_none_iff_exists'.symm

theorem Placed.nodup_linked (h : s.Placed) : s.linked.Nodup := by
  rw [linked, nodup_flatMap]
  refine ⟨fun b _ => h.nodup b, ?_⟩
  refine (nodup_finRange n).imp ?_
  intro b b' hne i hi hi'
  rw [h.mem_iff] at hi hi'
  exact hne (Option.some.inj (hi.symm.trans hi'))

theorem Placed.mem_writers (h : s.Placed) {r i : ℕ} :
    i ∈ s.writers r ↔ Access.Writes r (s.linkedAccesses i) := by
  rw [writers, mem_filter, h.mem_linked, linkedAccesses]
  by_cases hi : s.owner i = none
  · simp [hi]
  · simp [hi]

/-- What a builder operation did when it replaced the operands of an instruction. -/
structure Edited (s s' : BuilderState n) (block : Option (Fin n)) (instr : ℕ)
    (operands : List MirOperand) (gone fresh : List ℕ) : Prop where
  instrs_eq : s'.instrs = update s.instrs instr { s.instrs instr with operands := operands }
  owner_eq : s'.owner = s.owner
  blocks_eq : s'.blocks = s.blocks
  nextInstr_eq : s'.nextInstr = s.nextInstr
  view_eq : s'.regInfo.view =
    if s.getRegInfo block instr then
      (s.regInfo.view.forgetAll instr ((s.instrs instr).accessesOn gone)).recordAll
        instr (({ s.instrs instr with operands := operands } : MirInstruction).accessesOn fresh)
    else s.regInfo.view

theorem EditOk.edit (hs : s.Inv) {instr : ℕ}
    {new kept gone fresh : List (Access ℕ ℕ)} (hok : s.EditOk instr kept gone fresh)
    (hold : (s.linkedAccesses instr).Perm (kept ++ gone))
    (hnew : new.Perm (kept ++ fresh)) :
    ((s.regInfo.view.forgetAll instr gone).recordAll instr fresh).Exact
      (update s.linkedAccesses instr new) := by
  refine hs.tableExact.edit hold hnew ?_ ?_ ?_
  · rintro r ⟨a, ha, hra, hregA⟩ ⟨b, hb, hrb, hregB⟩
    exact hok.reads a ha b hb hra hrb (hregA.trans hregB.symm)
  · rintro r ⟨a, ha, hwa, rfl⟩ ⟨b, hb, hwb, hregB⟩
    rcases hok.writes a ha b hb hwa hwb hregB.symm with hfresh | ⟨w, hw, hne⟩
    · exact .inl hfresh
    · exact .inr ⟨w, hne, hs.placed.mem_writers.mp hw⟩
  · rintro r ⟨b, hb, hwb, rfl⟩ hnot w hne hw honly
    refine hok.defs b hb hwb ?_ w (hs.placed.mem_writers.mpr hw) hne ?_
    · rw [← Access.writes_perm hnew]
      exact hnot
    · intro w' hw' hne'
      exact honly w' hne' (hs.placed.mem_writers.mp hw')

theorem Edited.inv {s' : BuilderState n} (hs : s.Inv) {block : Option (Fin n)}
    {instr : ℕ} {operands : List MirOperand} {kept gone fresh : List ℕ}
    (he : Edited s s' block instr operands gone fresh)
    (hgone : (range (s.instrs instr).operands.length).Perm (kept ++ gone))
    (hfresh : (range operands.length).Perm (kept ++ fresh))
    (hkeeps : s.EditKeeps block instr operands kept gone fresh) : s'.Inv := by
  have hplaced : s'.Placed := by
    refine ⟨?_, ?_, ?_⟩
    · rw [he.blocks_eq, he.owner_eq]
      exact hs.placed.mem_iff
    · rw [he.blocks_eq]
      exact hs.placed.nodup
    · rw [he.nextInstr_eq, he.owner_eq]
      exact hs.placed.fresh
  refine ⟨hplaced, ?_⟩
  simp only [EditKeeps] at hkeeps
  have hothers : ∀ i, i ≠ instr → s'.linkedAccesses i = s.linkedAccesses i := by
    intro i hi
    rw [linkedAccesses, linkedAccesses, he.owner_eq, he.instrs_eq, update_of_ne hi]
  by_cases howner : s.owner instr = none
  · rw [if_pos howner] at hkeeps
    have hnil : s.linkedAccesses instr = [] := by simp [linkedAccesses, howner]
    have hacc : s'.linkedAccesses = s.linkedAccesses := by
      funext i
      by_cases hi : i = instr
      · subst hi
        rw [hnil, linkedAccesses, he.owner_eq, if_pos howner]
      · exact hothers i hi
    have hview : s'.regInfo.view = s.regInfo.view := by
      rw [he.view_eq, hs.tableExact.forgetAll_of_nil hnil]
      rcases hkeeps with hblock | hnothing
      · simp [getRegInfo, howner, hblock]
      · rw [hnothing]
        exact ite_self _
    rw [hview, hacc]
    exact hs.tableExact
  · rw [if_neg howner] at hkeeps
    obtain ⟨hsame, hok⟩ := hkeeps
    have hreg : s.getRegInfo block instr = true := by
      obtain ⟨b, hb⟩ := Option.ne_none_iff_exists'.mp howner
      simp [getRegInfo, hb]
    have hold : (s.linkedAccesses instr).Perm
        ((s.instrs instr).accessesOn kept ++ (s.instrs instr).accessesOn gone) := by
      rw [linkedAccesses, if_neg howner, ← accessesOn_append]
      exact accessesOn_perm _ hgone
    have hnew : (s'.linkedAccesses instr).Perm
        ((s.instrs instr).accessesOn kept ++ ({ s.instrs instr with
          operands := operands } : MirInstruction).accessesOn fresh) := by
      rw [linkedAccesses, he.owner_eq, if_neg howner, he.instrs_eq,
        update_self, ← accessesOn_congr hsame,
        ← accessesOn_append]
      exact accessesOn_perm _ hfresh
    have hacc : s'.linkedAccesses = update s.linkedAccesses instr (s'.linkedAccesses instr) := by
      funext i
      by_cases hi : i = instr
      · subst hi
        rw [update_self]
      · rw [update_of_ne hi]
        exact hothers i hi
    rw [he.view_eq, if_pos hreg, hacc]
    exact hok.edit hs hold hnew

/-! Registering and unregistering a range of positions. -/

theorem registerOperands_eq (s : BuilderState n) (block : Option (Fin n)) (instr : ℕ)
    (ps : List ℕ) :
    ∃ info, ps.foldl (fun s index => s.registerOperand block instr index) s =
        { s with regInfo := info } ∧
      info.view =
        if s.getRegInfo block instr then
          s.regInfo.view.recordAll instr ((s.instrs instr).accessesOn ps)
        else s.regInfo.view := by
  induction ps generalizing s with
  | nil => exact ⟨s.regInfo, rfl, (ite_self _).symm⟩
  | cons p ps ih =>
    obtain ⟨info, hstate, hview⟩ := ih (s.registerOperand block instr p)
    by_cases hreg : s.getRegInfo block instr
    · have hone : s.registerOperand block instr p = { s with
          regInfo := ((s.instrs instr).visitsAt p).foldl
            (fun info v => info.registerAccess instr p v) s.regInfo } := by
        simp [registerOperand, hreg]
      have hreg' : (s.registerOperand block instr p).getRegInfo block instr := by
        rw [hone]
        exact hreg
      refine ⟨info, ?_, ?_⟩
      · rw [foldl_cons, hstate, hone]
      · rw [hview, if_pos hreg', if_pos hreg, hone, MirFunctionRegisterInfo.view_registerAccesses]
        simp [accessesOn, accessesAt, DefUse.recordAll]
    · have hone : s.registerOperand block instr p = s := by
        simp [registerOperand, hreg]
      rw [hone] at hstate hview
      refine ⟨info, by rw [foldl_cons, hone, hstate], ?_⟩
      rw [hview, if_neg hreg, if_neg hreg]

theorem unregisterOperands_eq (s : BuilderState n) (block : Option (Fin n))
    (instr : ℕ) (ps : List ℕ) :
    ∃ info, ps.foldl (fun s index => s.unregisterOperand block instr index) s =
        { s with regInfo := info } ∧
      info.view =
        if s.getRegInfo block instr then
          s.regInfo.view.forgetAll instr ((s.instrs instr).accessesOn ps)
        else s.regInfo.view := by
  induction ps generalizing s with
  | nil => exact ⟨s.regInfo, rfl, (ite_self _).symm⟩
  | cons p ps ih =>
    obtain ⟨info, hstate, hview⟩ := ih (s.unregisterOperand block instr p)
    by_cases hreg : s.getRegInfo block instr
    · have hone : s.unregisterOperand block instr p = { s with
          regInfo := ((s.instrs instr).visitsAt p).foldl
            (fun info v => info.unregisterAccess instr v) s.regInfo } := by
        simp [unregisterOperand, hreg]
      have hreg' : (s.unregisterOperand block instr p).getRegInfo block instr := by
        rw [hone]
        exact hreg
      refine ⟨info, ?_, ?_⟩
      · rw [foldl_cons, hstate, hone]
      · rw [hview, if_pos hreg', if_pos hreg, hone,
          MirFunctionRegisterInfo.view_unregisterAccesses _ _ p]
        simp [accessesOn, accessesAt, DefUse.forgetAll]
    · have hone : s.unregisterOperand block instr p = s := by
        simp [unregisterOperand, hreg]
      rw [hone] at hstate hview
      refine ⟨info, by rw [foldl_cons, hone, hstate], ?_⟩
      rw [hview, if_neg hreg, if_neg hreg]

/-- Unregistering some positions, replacing the operands and registering some
positions, which is what every operation on operands amounts to. -/
theorem edited_of_folds (s : BuilderState n) (block : Option (Fin n)) (instr : ℕ)
    (operands : List MirOperand) (gone fresh : List ℕ) :
    Edited s (fresh.foldl (fun s index => s.registerOperand block instr index)
        ((gone.foldl (fun s index => s.unregisterOperand block instr index) s).setOperands
          instr operands)) block instr operands gone fresh := by
  obtain ⟨info, hgone, hinfo⟩ := unregisterOperands_eq s block instr gone
  rw [hgone]
  obtain ⟨info', hfresh, hinfo'⟩ := registerOperands_eq
    (({ s with regInfo := info } : BuilderState n).setOperands instr operands) block
    instr fresh
  rw [hfresh]
  refine ⟨rfl, rfl, rfl, rfl, ?_⟩
  have hreg : (({ s with regInfo := info } : BuilderState n).setOperands instr
      operands).getRegInfo block instr = s.getRegInfo block instr := rfl
  rw [hinfo', hreg]
  by_cases h : s.getRegInfo block instr
  · rw [if_pos h] at hinfo
    simp [h, setOperands, hinfo]
  · rw [if_neg h] at hinfo
    simp [h, setOperands, hinfo]

theorem edited_addOperand (s : BuilderState n) (block : Option (Fin n)) (instr : ℕ)
    (operand : MirOperand) :
    Edited s (s.addOperand block instr operand) block instr
      ((s.instrs instr).operands ++ [operand]) []
      [(s.instrs instr).operands.length] := by
  have h := edited_of_folds s block instr ((s.instrs instr).operands ++ [operand]) []
    [(s.instrs instr).operands.length]
  simpa [addOperand, setOperands] using h

theorem edited_addOperandFront (s : BuilderState n) (block : Option (Fin n))
    (instr : ℕ) (operand : MirOperand) :
    Edited s (s.addOperandFront block instr operand) block instr
      (operand :: (s.instrs instr).operands)
      (range (s.instrs instr).operands.length)
      (range ((s.instrs instr).operands.length + 1)) := by
  obtain ⟨info, hgone, -⟩ := unregisterOperands_eq s block instr
    (range (s.instrs instr).operands.length)
  have h := edited_of_folds s block instr (operand :: (s.instrs instr).operands)
    (range (s.instrs instr).operands.length)
    (range ((s.instrs instr).operands.length + 1))
  rw [hgone] at h
  have hunregister : s.unregisterFrom block instr 0 = { s with regInfo := info } := by
    rw [← hgone, range_eq_range']
    rfl
  simpa [addOperandFront, registerFrom, hunregister, setOperands, range_eq_range'] using h

theorem edited_swapOperand (s : BuilderState n) (block : Option (Fin n)) (instr : ℕ)
    (newOperand : MirOperand) {index : ℕ}
    (hindex : ¬ index ≥ (s.instrs instr).operands.length) :
    Edited s (s.swapOperand block instr newOperand index) block instr
      ((s.instrs instr).operands.set index newOperand) [index] [index] := by
  obtain ⟨info, hgone, -⟩ := unregisterOperands_eq s block instr [index]
  have h := edited_of_folds s block instr
    ((s.instrs instr).operands.set index newOperand) [index] [index]
  rw [hgone] at h
  simp only [foldl_cons, foldl_nil] at hgone h
  simpa [swapOperand, hindex, hgone] using h

theorem edited_clearOperand (s : BuilderState n) (block : Option (Fin n))
    (instr : ℕ) {pos : ℕ} (hpos : ¬ pos ≥ (s.instrs instr).operands.length) :
    Edited s (s.clearOperand block instr pos) block instr ((s.instrs instr).operands.eraseIdx pos)
      (range' pos ((s.instrs instr).operands.length - pos))
      (range' pos ((s.instrs instr).operands.length - 1 - pos)) := by
  obtain ⟨info, hgone, -⟩ := unregisterOperands_eq s block instr
    (range' pos ((s.instrs instr).operands.length - pos))
  have h := edited_of_folds s block instr ((s.instrs instr).operands.eraseIdx pos)
    (range' pos ((s.instrs instr).operands.length - pos))
    (range' pos ((s.instrs instr).operands.length - 1 - pos))
  rw [hgone] at h
  have hunregister : s.unregisterFrom block instr pos = { s with regInfo := info } :=
    hgone
  have hlen : ((s.instrs instr).operands.eraseIdx pos).length =
      (s.instrs instr).operands.length - 1 :=
    length_eraseIdx_of_lt (Nat.not_le.mp hpos)
  simpa [clearOperand, hpos, registerFrom, hunregister, setOperands, hlen] using h

theorem edited_clearOperands (s : BuilderState n) (block : Option (Fin n)) (instr : ℕ) :
    Edited s (s.clearOperands block instr) block instr []
      (range (s.instrs instr).operands.length) [] := by
  have h := edited_of_folds s block instr [] (range (s.instrs instr).operands.length) []
  simpa [clearOperands, unregisterFrom, range_eq_range'] using h

end BuilderState

end EzPacker.Mir
