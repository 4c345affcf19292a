import Mathlib.Data.BitVec
import EzPacker.RegAlloc.RegisterAllocatorPass
import EzPacker.RegAlloc.SavedRegisterLists
import EzPacker.X86.MemoryOperand
import EzPacker.X86.SelectedCode

/-!
# Two-address instructions

The table ties the destination of some instructions to their first source. The emitter copies the
first source to the destination when their registers differ, and the operation reads its other
sources behind the copy. The interference graph keeps a second source register out of the way, but
not the registers of an address, nor that of a shift count.
-/

namespace EzPacker.X86

open Option List

namespace TwoAddress

open Mir RegAlloc

/-! ## Rows -/

/-- The vector rows; the scalar ones have the low bits of a register as their operands. -/
inductive SseRow
  | ADDSS | ADDSD | SUBSS | SUBSD | MULSS | MULSD | DIVSS | DIVSD
  | ADDPSrr | SUBPSrr | MULPSrr | DIVPSrr | ANDPSrr | ORPSrr | XORPSrr | ANDNPSrr | MAXPSrr
  | MINPSrr | ADDPDrr | SUBPDrr | MULPDrr | DIVPDrr | ANDPDrr | ORPDrr | XORPDrr | ANDNPDrr
  | MAXPDrr | MINPDrr | PADDBrr | PADDWrr | PADDDrr | PADDQrr | PSUBBrr | PSUBWrr | PSUBDrr
  | PSUBQrr | PMULLWrr | PANDrr | PORrr | PXORrr | HADDPSrr | HADDPDrr | HSUBPSrr | HSUBPDrr
  | ADDSUBPSrr | ADDSUBPDrr | PHADDDrr | PHSUBDrr | PSHUFBrr | PMULLDrr | PMAXSDrr | PMINSDrr
  | PCMPGTQrr
  deriving DecidableEq, Repr

def SseRow.width : SseRow → ℕ
  | ADDSS | SUBSS | MULSS | DIVSS => 32
  | ADDSD | SUBSD | MULSD | DIVSD => 64
  | _ => 128

/-- The rows that tie the destination to the first source, those of the general registers for
both operand sizes. -/
inductive TiedRow
  | ADDrr (is64 : Bool) | ADDri (is64 : Bool) | ADDrm (is64 : Bool)
  | SUBrr (is64 : Bool) | SUBri (is64 : Bool) | SUBrm (is64 : Bool)
  | IMULrr (is64 : Bool) | NEGr (is64 : Bool) | NOTr (is64 : Bool)
  | ANDrr (is64 : Bool) | ANDri (is64 : Bool) | ORrr (is64 : Bool) | ORri (is64 : Bool)
  | XORrr (is64 : Bool) | XORri (is64 : Bool)
  | SHLri (is64 : Bool) | SHLrCL (is64 : Bool) | SHRri (is64 : Bool) | SHRrCL (is64 : Bool)
  | SARri (is64 : Bool) | SARrCL (is64 : Bool)
  | sse (row : SseRow)
  deriving DecidableEq, Repr

/-- What a row reads beside its first source. -/
inductive SecondForm
  | none | register | immediate | memory | cl
  deriving DecidableEq, Repr

namespace TiedRow

def width : TiedRow → ℕ
  | ADDrr is64 | ADDri is64 | ADDrm is64 | SUBrr is64 | SUBri is64 | SUBrm is64 | IMULrr is64
  | NEGr is64 | NOTr is64 | ANDrr is64 | ANDri is64 | ORrr is64 | ORri is64 | XORrr is64
  | XORri is64 | SHLri is64 | SHLrCL is64 | SHRri is64 | SHRrCL is64 | SARri is64
  | SARrCL is64 => operandBits is64
  | sse row => row.width

def form : TiedRow → SecondForm
  | NEGr _ | NOTr _ => .none
  | ADDrr _ | SUBrr _ | IMULrr _ | ANDrr _ | ORrr _ | XORrr _ | sse _ => .register
  | ADDri _ | SUBri _ | ANDri _ | ORri _ | XORri _ | SHLri _ | SHRri _ | SARri _ => .immediate
  | ADDrm _ | SUBrm _ => .memory
  | SHLrCL _ | SHRrCL _ | SARrCL _ => .cl

/-- The bank of the register operands. -/
def bank : TiedRow → ℕ
  | sse _ => 1
  | _ => 0

def targetFlags : TiedRow → List MirInstructionFlag
  | ADDrm _ | SUBrm _ => [.ReadsMemory]
  | ADDrr _ | IMULrr _ | ANDrr _ | ORrr _ | XORrr _ => [.IsCommutative]
  | _ => []

/-- The operation; the count of a shift is taken modulo the operand size. -/
def operate (packed : ∀ row : SseRow, BitVec row.width → BitVec row.width → BitVec row.width)
    (row : TiedRow) (x y : BitVec row.width) : BitVec row.width :=
  match row, x, y with
  | ADDrr _, x, y | ADDri _, x, y | ADDrm _, x, y => x + y
  | SUBrr _, x, y | SUBri _, x, y | SUBrm _, x, y => x - y
  | IMULrr _, x, y => x * y
  | NEGr _, x, _ => -x
  | NOTr _, x, _ => ~~~x
  | ANDrr _, x, y | ANDri _, x, y => x &&& y
  | ORrr _, x, y | ORri _, x, y => x ||| y
  | XORrr _, x, y | XORri _, x, y => x ^^^ y
  | SHLri is64, x, y | SHLrCL is64, x, y => x <<< (y.toNat % operandBits is64)
  | SHRri is64, x, y | SHRrCL is64, x, y => x >>> (y.toNat % operandBits is64)
  | SARri is64, x, y | SARrCL is64, x, y => x.sshiftRight (y.toNat % operandBits is64)
  | sse row, x, y => packed row x y

def operandsFlags (row : TiedRow) : List MirOperandFlag :=
  match row.form with
  | .none | .cl => [.Write, .Read]
  | _ => [.Write, .Read, .Read]

def desc (row : TiedRow) : MirTargetInstructionDesc :=
  ⟨row.ctorIdx, row.operandsFlags, [], [], row.targetFlags⟩

theorem width_le (row : TiedRow) : row.width ≤ 128 := by
  cases row with
  | sse row | _ row => cases row <;> decide

end TiedRow

/-! ## Instructions -/

/-- The second operand; a reference is bound to the memory slot, and `cl` is no operand. -/
inductive SecondOperand
  | none
  | register (reg : MirRegisterRef)
  | immediate (value : ℤ)
  | memory (mem : MirMemory)
  | reference (ref : MirReference)
  | cl
  deriving DecidableEq, Repr

def SecondOperand.form : SecondOperand → SecondForm
  | none => .none
  | register _ => .register
  | immediate _ => .immediate
  | memory _ => .memory
  | reference _ => .memory
  | cl => .cl

def SecondOperand.operands : SecondOperand → List MirOperand
  | none => []
  | register reg => [.register reg]
  | immediate value => [.integer value]
  | memory mem => [.memory mem]
  | reference ref => [.reference ref]
  | cl => []

/-- An instruction of a tied row with operands of the row's kinds. -/
structure TiedInst where
  row : TiedRow
  dst : MirRegisterRef
  src : MirRegisterRef
  second : SecondOperand
  accepted : second.form = row.form
  dstBank : dst.regClass.map MirRegisterClass.bank = some row.bank
  srcBank : src.regClass.map MirRegisterClass.bank = some row.bank
  secondBank : ∀ reg, second = .register reg →
    reg.regClass.map MirRegisterClass.bank = some row.bank

def TiedInst.mir (inst : TiedInst) : MirInstruction :=
  ⟨.TARGET_INST, some inst.row.desc,
    [.register inst.dst, .register inst.src] ++ inst.second.operands⟩

/-! ## The processor -/

/-- A hardware register: a number among the general or among the vector registers. -/
@[ext]
structure HwReg where
  isFpr : Bool
  number : ℕ
  deriving DecidableEq, Repr

def rcx : HwReg := ⟨false, 1⟩

def framePointer : HwReg := ⟨false, 5⟩

structure Processor where
  regs : HwReg → BitVec 128
  memory : BitVec 64 → UInt8

namespace Processor

/-- A general register is extended by zeros, and a vector register keeps what is above. -/
def write (s : Processor) (w : ℕ) (reg : HwReg) (v : BitVec w) : Processor :=
  { s with
    regs := Function.update s.regs reg
      (if reg.isFpr then (s.regs reg >>> w <<< w) ||| v.setWidth 128 else v.setWidth 128) }

/-- The little-endian number of some bits at an address. -/
def load (s : Processor) (w : ℕ) (address : BitVec 64) : BitVec w :=
  BitVec.ofNat w (leNat ((range (w / 8)).map fun i => s.memory (address + BitVec.ofNat 64 i)))

theorem write_regs_self (s : Processor) (w : ℕ) (reg : HwReg) (v : BitVec w) :
    (s.write w reg v).regs reg =
      if reg.isFpr then (s.regs reg >>> w <<< w) ||| v.setWidth 128 else v.setWidth 128 :=
  Function.update_self _ _ _

theorem write_regs_of_ne (s : Processor) {w : ℕ} {reg other : HwReg} (h : other ≠ reg)
    (v : BitVec w) : (s.write w reg v).regs other = s.regs other := Function.update_of_ne h _ _

theorem setWidth_write_self (s : Processor) {w : ℕ} (hw : w ≤ 128) (reg : HwReg)
    (v : BitVec w) : ((s.write w reg v).regs reg).setWidth w = v := by
  rw [write_regs_self]
  apply BitVec.eq_of_getLsbD_eq
  intro i hi
  split
  · simp [hi, Nat.lt_of_lt_of_le hi hw]
  · simp [hi, Nat.lt_of_lt_of_le hi hw]

end Processor

/-- Where frame objects and symbols are. -/
structure Placement where
  objectOffset : ℕ → Option ℤ
  symbolAddress : MirReference → BitVec 64

/-- The factor of an index register, one where the scale is not that of the processor. -/
def scaleFactor (scale : ℕ) : BitVec 64 := 1 <<< (scaleToPower (BitVec.ofNat 8 scale)).toNat

section

variable (number : RegKey → ℕ) (place : Placement)
  (packed : ∀ row : SseRow, BitVec row.width → BitVec row.width → BitVec row.width)

def mapRegister (reg : MirRegisterRef) : HwReg :=
  ⟨reg.regClass.map MirRegisterClass.bank = some 1, numberOf number reg⟩

/-- The registers of an address are general registers whatever their class. -/
def addressRegister (reg : MirRegisterRef) : HwReg := ⟨false, numberOf number reg⟩

def addressValue (s : Processor) (reg : MirRegisterRef) : BitVec 64 :=
  (s.regs (addressRegister number reg)).setWidth 64

/-- `buildMemory` of a memory operand. -/
def memoryAddress (s : Processor) (mem : MirMemory) : BitVec 64 :=
  (mem.base.map (addressValue number s)).getD 0 +
    (mem.index.map fun reg => addressValue number s reg * scaleFactor mem.scale).getD 0 +
      BitVec.ofInt 64 (mem.displ.getD 0)

/-- `buildMemory` of a reference: a slot of the frame, or a symbol. -/
def referenceAddress (s : Processor) (ref : MirReference) : BitVec 64 :=
  match ref.refType with
  | .StackFrameObject =>
    (s.regs framePointer).setWidth 64 +
      BitVec.ofInt 64 (ref.offset + (place.objectOffset ref.refId).getD 0)
  | .GlobalVar | .Function => place.symbolAddress ref
  | _ => 0

namespace SecondOperand

def value (w : ℕ) (s : Processor) : SecondOperand → BitVec w
  | none => 0
  | register reg => (s.regs (mapRegister number reg)).setWidth w
  | immediate v => BitVec.ofInt w v
  | memory mem => s.load w (memoryAddress number s mem)
  | reference ref => s.load w (referenceAddress place s ref)
  | cl => ((s.regs rcx).setWidth 8).setWidth w

def hiddenReads : SecondOperand → List HwReg
  | memory mem => (mem.base.toList ++ mem.index.toList).map (addressRegister number)
  | reference ref => if ref.refType = .StackFrameObject then [framePointer] else []
  | cl => [rcx]
  | _ => []

def reads : SecondOperand → List HwReg
  | register reg => [mapRegister number reg]
  | second => second.hiddenReads number

end SecondOperand

/-! ## Emission -/

inductive HwInst
  | move (w : ℕ) (dst src : HwReg)
  | operation (inst : TiedInst)

/-- The move that `encodeRegisterMove` encodes, and the operation. -/
def tryEmitTableDriven (inst : TiedInst) : List HwInst :=
  let dst := mapRegister number inst.dst
  let src := mapRegister number inst.src
  (if dst.number ≠ src.number ∨ dst.isFpr ≠ src.isFpr then [.move inst.row.width dst src]
    else []) ++ [.operation inst]

/-- An operation has its destination as the first source. -/
def HwInst.execute (s : Processor) : HwInst → Processor
  | .move w dst src => s.write w dst ((s.regs src).setWidth w)
  | .operation inst =>
    s.write inst.row.width (mapRegister number inst.dst)
      (inst.row.operate packed ((s.regs (mapRegister number inst.dst)).setWidth inst.row.width)
        (inst.second.value number place inst.row.width s))

def runEmitted (insts : List HwInst) (s : Processor) : Processor :=
  insts.foldl (HwInst.execute number place packed) s

/-- The destination has the operation on what the sources were. -/
def LeavesOperation (inst : TiedInst) : Prop :=
  ∀ s, ((runEmitted number place packed (tryEmitTableDriven number inst) s).regs
      (mapRegister number inst.dst)).setWidth inst.row.width =
    inst.row.operate packed ((s.regs (mapRegister number inst.src)).setWidth inst.row.width)
      (inst.second.value number place inst.row.width s)

end

/-! ## Soundness -/

section

variable {number : RegKey → ℕ} {place : Placement}
  {packed : ∀ row : SseRow, BitVec row.width → BitVec row.width → BitVec row.width}
  {inst : TiedInst}

variable {s s' : Processor}

theorem memoryAddress_congr {mem : MirMemory}
    (hregs : ∀ reg ∈ (SecondOperand.memory mem).reads number, s'.regs reg = s.regs reg) :
    memoryAddress number s' mem = memoryAddress number s mem := by
  have hvalue : ∀ reg, reg ∈ mem.base.toList ++ mem.index.toList →
      addressValue number s' reg = addressValue number s reg := by
    intro reg hreg
    exact congrArg (BitVec.setWidth 64) (hregs (addressRegister number reg) (mem_map_of_mem hreg))
  have hbase : mem.base.map (addressValue number s') = mem.base.map (addressValue number s) :=
    map_congr fun reg hreg => hvalue reg (by simp [hreg])
  have hindex : mem.index.map (fun reg => addressValue number s' reg * scaleFactor mem.scale) =
      mem.index.map fun reg => addressValue number s reg * scaleFactor mem.scale :=
    map_congr fun reg hreg => by rw [hvalue reg (by simp [hreg])]
  unfold memoryAddress
  rw [hbase, hindex]

theorem referenceAddress_congr {ref : MirReference}
    (hregs : ∀ reg ∈ (SecondOperand.reference ref).reads number, s'.regs reg = s.regs reg) :
    referenceAddress place s' ref = referenceAddress place s ref := by
  unfold referenceAddress
  split
  · next hframe =>
      rw [hregs framePointer (by simp [SecondOperand.reads, SecondOperand.hiddenReads, hframe])]
  all_goals rfl

theorem load_congr (h : s'.memory = s.memory) (w : ℕ) (address : BitVec 64) :
    s'.load w address = s.load w address := by
  unfold Processor.load
  rw [h]

theorem value_congr {second : SecondOperand} (w : ℕ)
    (hregs : ∀ reg ∈ second.reads number, s'.regs reg = s.regs reg)
    (hmemory : s'.memory = s.memory) :
    second.value number place w s' = second.value number place w s := by
  cases second with
  | none => rfl
  | register reg => exact congrArg (BitVec.setWidth w) (hregs _ mem_cons_self)
  | immediate v => rfl
  | memory mem =>
    unfold SecondOperand.value
    dsimp only
    rw [memoryAddress_congr hregs, load_congr hmemory]
  | reference ref =>
    unfold SecondOperand.value
    dsimp only
    rw [referenceAddress_congr hregs, load_congr hmemory]
  | cl =>
    unfold SecondOperand.value
    dsimp only
    rw [hregs rcx mem_cons_self]

/-- The emission with one register for the destination and the first source. -/
theorem emitted_same (h : mapRegister number inst.dst = mapRegister number inst.src) :
    tryEmitTableDriven number inst = [.operation inst] := by
  unfold tryEmitTableDriven
  simp [h]

theorem emitted_apart (h : mapRegister number inst.dst ≠ mapRegister number inst.src) :
    tryEmitTableDriven number inst =
      [.move inst.row.width (mapRegister number inst.dst) (mapRegister number inst.src),
        .operation inst] := by
  have hdiffer : (mapRegister number inst.dst).number ≠ (mapRegister number inst.src).number ∨
      (mapRegister number inst.dst).isFpr ≠ (mapRegister number inst.src).isFpr := by
    by_contra hsame
    push Not at hsame
    exact h (HwReg.ext hsame.2 hsame.1)
  unfold tryEmitTableDriven
  dsimp only
  rw [if_pos hdiffer]
  rfl

/-- The state behind the copy of the first source. -/
def copied (number : RegKey → ℕ) (inst : TiedInst) (s : Processor) : Processor :=
  s.write inst.row.width (mapRegister number inst.dst)
    ((s.regs (mapRegister number inst.src)).setWidth inst.row.width)

theorem leavesOperation_of_same (h : mapRegister number inst.dst = mapRegister number inst.src) :
    LeavesOperation number place packed inst := by
  intro s
  rw [emitted_same h]
  show ((s.write _ _ _).regs _).setWidth _ = _
  rw [Processor.setWidth_write_self s inst.row.width_le, h]

/-- With a copy, it is the second operand behind the copy that decides. -/
theorem leavesOperation_apart_iff (h : mapRegister number inst.dst ≠ mapRegister number inst.src) :
    LeavesOperation number place packed inst ↔ ∀ s : Processor,
      inst.row.operate packed ((s.regs (mapRegister number inst.src)).setWidth inst.row.width)
          (inst.second.value number place inst.row.width (copied number inst s)) =
        inst.row.operate packed ((s.regs (mapRegister number inst.src)).setWidth inst.row.width)
          (inst.second.value number place inst.row.width s) := by
  unfold LeavesOperation
  apply forall_congr'
  intro s
  rw [emitted_apart h]
  have hrun : runEmitted number place packed
      [.move inst.row.width (mapRegister number inst.dst) (mapRegister number inst.src),
        .operation inst] s =
      (copied number inst s).write inst.row.width (mapRegister number inst.dst)
        (inst.row.operate packed
          (((copied number inst s).regs (mapRegister number inst.dst)).setWidth inst.row.width)
          (inst.second.value number place inst.row.width (copied number inst s))) := rfl
  rw [hrun, Processor.setWidth_write_self _ inst.row.width_le]
  have hfirst : ((copied number inst s).regs (mapRegister number inst.dst)).setWidth
      inst.row.width = (s.regs (mapRegister number inst.src)).setWidth inst.row.width :=
    Processor.setWidth_write_self s inst.row.width_le _ _
  rw [hfirst]

theorem leavesOperation_of_not_read (h : mapRegister number inst.dst ∉ inst.second.reads number) :
    LeavesOperation number place packed inst := by
  by_cases hsame : mapRegister number inst.dst = mapRegister number inst.src
  · exact leavesOperation_of_same hsame
  · refine (leavesOperation_apart_iff hsame).mpr ?_
    intro s
    have hvalue : inst.second.value number place inst.row.width (copied number inst s) =
        inst.second.value number place inst.row.width s := by
      refine value_congr inst.row.width ?_ rfl
      intro reg hreg
      have hne : reg ≠ mapRegister number inst.dst := by
        rintro rfl
        exact h hreg
      exact Processor.write_regs_of_ne s hne _
    rw [hvalue]

/-! ## Sources in the destination's register -/

/-- The packed operations depend on their second source. -/
def ReadsSecond
    (packed : ∀ row : SseRow, BitVec row.width → BitVec row.width → BitVec row.width) : Prop :=
  ∀ row, ∃ x y, packed row x x ≠ packed row x y

variable {row : TiedRow}

theorem operate_general (h : row.bank = 0)
    (packed' : ∀ row : SseRow, BitVec row.width → BitVec row.width → BitVec row.width) :
    row.operate packed = row.operate packed' := by
  cases row with
  | sse row => cases h
  | _ => rfl

theorem exists_separating (hpacked : ReadsSecond packed) (hform : row.form = .register) :
    ∃ x y, row.operate packed x x ≠ row.operate packed x y := by
  cases row with
  | sse row => exact hpacked row
  | ADDrr is64 | SUBrr is64 | ORrr is64 | XORrr is64 =>
    refine ⟨0, 1, ?_⟩
    rw [operate_general rfl fun _ x _ => x]
    cases is64
    · decide
    · decide
  | IMULrr is64 | ANDrr is64 =>
    refine ⟨1, 0, ?_⟩
    rw [operate_general rfl fun _ x _ => x]
    cases is64
    · decide
    · decide
  | _ => cases hform

/-- A state with one register apart from the others. -/
def probe (reg : HwReg) (v others : BitVec 128) (memory : BitVec 64 → UInt8) : Processor :=
  ⟨Function.update (fun _ => others) reg v, memory⟩

theorem probe_self (reg : HwReg) (v others : BitVec 128) (memory : BitVec 64 → UInt8) :
    (probe reg v others memory).regs reg = v := by simp [probe]

theorem probe_of_ne {reg other : HwReg} (h : other ≠ reg) (v others : BitVec 128)
    (memory : BitVec 64 → UInt8) : (probe reg v others memory).regs other = others := by
  simp [probe, h]

variable {reg : MirRegisterRef}

/-- A register that the destination shares has the first source behind the copy. -/
theorem not_leavesOperation_of_register (hpacked : ReadsSecond packed)
    (hne : mapRegister number inst.dst ≠ mapRegister number inst.src)
    (hsecond : inst.second = .register reg)
    (hread : mapRegister number reg = mapRegister number inst.dst) :
    ¬ LeavesOperation number place packed inst := by
  rw [leavesOperation_apart_iff hne]
  intro hall
  have hform : inst.row.form = .register := by rw [← inst.accepted, hsecond]; rfl
  obtain ⟨x, y, hxy⟩ := exists_separating hpacked hform
  have hwide : ∀ v : BitVec inst.row.width, (v.setWidth 128).setWidth inst.row.width = v :=
    fun v => (BitVec.setWidth_setWidth_of_le v inst.row.width_le).trans (BitVec.setWidth_eq v)
  let s := probe (mapRegister number inst.src) (x.setWidth 128) (y.setWidth 128) fun _ => 0
  have hsrc : (s.regs (mapRegister number inst.src)).setWidth inst.row.width = x := by
    rw [probe_self, hwide]
  have hdst : (s.regs (mapRegister number inst.dst)).setWidth inst.row.width = y := by
    rw [probe_of_ne hne, hwide]
  have hcopied : ((copied number inst s).regs (mapRegister number inst.dst)).setWidth
      inst.row.width = x :=
    (Processor.setWidth_write_self s inst.row.width_le _ _).trans hsrc
  have hs := hall s
  rw [hsecond] at hs
  unfold SecondOperand.value at hs
  dsimp only at hs
  rw [hread, hsrc, hdst, hcopied] at hs
  exact hxy hs

/-- A count that the destination shares is the first source behind the copy. -/
theorem not_leavesOperation_of_cl (hne : mapRegister number inst.dst ≠ mapRegister number inst.src)
    (hsecond : inst.second = .cl) (hread : mapRegister number inst.dst = rcx) :
    ¬ LeavesOperation number place packed inst := by
  rw [leavesOperation_apart_iff hne]
  intro hall
  obtain ⟨row, dst, src, second, accepted, _, _, _⟩ := inst
  obtain rfl : second = .cl := hsecond
  have hs := hall (probe (mapRegister number src) 1 0 fun _ => 0)
  unfold SecondOperand.value copied at hs
  dsimp only at hs hread hne
  rw [hread] at hs hne
  rw [Processor.write_regs_self, probe_self, probe_of_ne hne] at hs
  clear hall
  cases row with
  | SHLrCL is64 | SHRrCL is64 | SARrCL is64 =>
    rw [operate_general rfl fun _ x _ => x] at hs
    cases is64
    · revert hs
      decide
    · revert hs
      decide
  | _ => cases accepted

def setByte (address : BitVec 64) : BitVec 64 → UInt8 := fun a => if a = address then 1 else 0

theorem load_setByte_self {w : ℕ} (hw : w = 32 ∨ w = 64) {address : BitVec 64}
    (hs : s.memory = setByte address) : s.load w address = 1 := by
  unfold Processor.load setByte at *
  rw [hs]
  rcases hw with rfl | rfl
  · simp [range_succ, leNat]
  · simp [range_succ, leNat]

theorem load_setByte_of_far {w : ℕ} (hw : w = 32 ∨ w = 64)
    {address other : BitVec 64} (hs : s.memory = setByte address)
    (h : ∀ i < 8, other + BitVec.ofNat 64 i ≠ address) : s.load w other = 0 := by
  have hbytes : leNat ((range (w / 8)).map fun i =>
      s.memory (other + BitVec.ofNat 64 i)) = 0 := by
    rw [leNat_eq_zero, hs]
    intro byte hbyte
    obtain ⟨i, hi, rfl⟩ := mem_map.mp hbyte
    have hlt : i < 8 := by
      have hrange := mem_range.mp hi
      omega
    exact if_neg (h i hlt)
  unfold Processor.load
  rw [hbytes]
  rfl

/-- What the registers of an address count for in it. -/
def factors : List (BitVec 64) := [1, 2, 3, 4, 5, 8, 9]

theorem scaleFactor_mem (scale : ℕ) :
    scaleFactor scale ∈ factors ∧ 1 + scaleFactor scale ∈ factors := by
  unfold scaleFactor scaleToPower
  split_ifs
  all_goals decide

def occurs (number : RegKey → ℕ) (reg : HwReg) (position : Option MirRegisterRef) : BitVec 64 :=
  if position.map (addressRegister number) = some reg then 1 else 0

theorem addressValue_probe (reg : HwReg) (v : BitVec 128) (memory : BitVec 64 → UInt8)
    (r : MirRegisterRef) : addressValue number (probe reg v 0 memory) r =
      v.setWidth 64 * occurs number reg (some r) := by
  unfold addressValue occurs
  by_cases h : addressRegister number r = reg
  · rw [h, probe_self, if_pos (by simp [h]), mul_one]
  · rw [probe_of_ne h, if_neg (by simp [h]), mul_zero]
    rfl

/-- The register counts in the address once, by the scale, or both. -/
theorem memoryAddress_probe (reg : HwReg) (v : BitVec 128) (memory : BitVec 64 → UInt8)
    (mem : MirMemory) : memoryAddress number (probe reg v 0 memory) mem =
      BitVec.ofInt 64 (mem.displ.getD 0) + v.setWidth 64 *
        (occurs number reg mem.base + occurs number reg mem.index * scaleFactor mem.scale) := by
  have hnone : occurs number reg none = 0 := rfl
  obtain ⟨base, displ, index, scale⟩ := mem
  unfold memoryAddress
  cases base with
  | none =>
    cases index with
    | none =>
      dsimp only [map_none, getD_none]
      rw [hnone]
      ring
    | some i =>
      dsimp only [map_none, map_some, getD_none, getD_some]
      rw [hnone, addressValue_probe]
      ring
  | some b =>
    cases index with
    | none =>
      dsimp only [map_none, map_some, getD_none, getD_some]
      rw [hnone, addressValue_probe]
      ring
    | some i =>
      dsimp only [map_some, getD_some]
      rw [addressValue_probe, addressValue_probe]
      ring

theorem factor_mem {reg : HwReg} {mem : MirMemory}
    (hread : reg ∈ (SecondOperand.memory mem).reads number) :
    occurs number reg mem.base + occurs number reg mem.index * scaleFactor mem.scale ∈ factors := by
  obtain ⟨r, hr, rfl⟩ := mem_map.mp hread
  have hone : ∀ position : Option MirRegisterRef, r ∈ position →
      occurs number (addressRegister number r) position = 1 := by
    intro position hposition
    exact if_pos (by rw [mem_def.mp hposition]; rfl)
  have hbit : ∀ position, occurs number (addressRegister number r) position = 0 ∨
      occurs number (addressRegister number r) position = 1 := by
    intro position
    unfold occurs
    split
    · exact .inr rfl
    · exact .inl rfl
  have hscale := scaleFactor_mem mem.scale
  rcases mem_append.mp hr with hbase | hindex
  · rw [hone mem.base (mem_toList.mp hbase)]
    rcases hbit mem.index with h | h
    · rw [h, zero_mul, add_zero]
      decide
    · rw [h, one_mul]
      exact hscale.2
  · rw [hone mem.index (mem_toList.mp hindex), one_mul]
    rcases hbit mem.base with h | h
    · rw [h, zero_add]
      exact hscale.1
    · rw [h]
      exact hscale.2

theorem far_of_factor {factor : BitVec 64} (h : factor ∈ factors) (address : BitVec 64) :
    ∀ i < 8, address + BitVec.ofNat 64 i ≠ address + 16 * factor := by
  intro i hi
  simp only [factors, mem_cons, not_mem_nil, or_false] at h
  rcases h with rfl | rfl | rfl | rfl | rfl | rfl | rfl
  all_goals bv_omega

/-- The rows that read memory. -/
theorem memory_row (hform : row.form = .memory) : row.bank = 0 ∧ (row.width = 32 ∨ row.width = 64) ∧
      row.operate packed 0 0 ≠ row.operate packed 0 1 := by
  cases row with
  | ADDrm is64 | SUBrm is64 =>
    refine ⟨rfl, operandBits_eq is64, ?_⟩
    rw [operate_general rfl fun _ x _ => x]
    cases is64
    · decide
    · decide
  | _ => cases hform

/-- The copy of a register that is zero. -/
theorem copied_probe (hne : mapRegister number inst.dst ≠ mapRegister number inst.src)
    (hbank : inst.row.bank = 0) (v : BitVec 128) (memory : BitVec 64 → UInt8) :
    copied number inst (probe (mapRegister number inst.dst) v 0 memory) =
      probe (mapRegister number inst.dst) 0 0 memory := by
  have hgeneral : (mapRegister number inst.dst).isFpr = false := by
    unfold mapRegister
    rw [inst.dstBank, hbank]
    rfl
  unfold copied
  rw [probe_of_ne hne.symm]
  unfold Processor.write probe
  rw [hgeneral, Function.update_idem]
  simp

/-- An address that the copy moves is that of another number. -/
theorem not_leavesOperation_of_address
    (hne : mapRegister number inst.dst ≠ mapRegister number inst.src)
    (hform : inst.row.form = .memory) (address : Processor → BitVec 64)
    (hvalue : ∀ s, inst.second.value number place inst.row.width s =
      s.load inst.row.width (address s))
    (origin : BitVec 64) {factor : BitVec 64} (hfactor : factor ∈ factors)
    (haddress : ∀ v memory, address (probe (mapRegister number inst.dst) v 0 memory) =
      origin + v.setWidth 64 * factor) :
    ¬ LeavesOperation number place packed inst := by
  obtain ⟨hbank, hwidth, hoperate⟩ := @memory_row packed inst.row hform
  rw [leavesOperation_apart_iff hne]
  intro hall
  have hs := hall (probe (mapRegister number inst.dst) 16 0 (setByte (origin + 16 * factor)))
  have hzero : origin + BitVec.setWidth 64 (0 : BitVec 128) * factor = origin := by
    rw [show BitVec.setWidth 64 (0 : BitVec 128) = 0 from rfl, zero_mul, add_zero]
  rw [copied_probe hne hbank, probe_of_ne hne.symm, hvalue, hvalue, haddress, haddress, hzero,
    load_setByte_of_far hwidth rfl (far_of_factor hfactor origin)] at hs
  have hset := load_setByte_self (s := probe (mapRegister number inst.dst) 16 0
    (setByte (origin + 16 * factor))) hwidth rfl
  have hzero' : BitVec.setWidth inst.row.width (0 : BitVec 128) = 0 := BitVec.setWidth_zero _ _
  rw [hzero'] at hs
  exact hoperate (hs.trans (congrArg _ hset))

theorem not_leavesOperation_of_read (hpacked : ReadsSecond packed)
    (hne : mapRegister number inst.dst ≠ mapRegister number inst.src)
    (hread : mapRegister number inst.dst ∈ inst.second.reads number) :
    ¬ LeavesOperation number place packed inst := by
  cases hsecond : inst.second with
  | none | immediate v =>
    rw [hsecond] at hread
    cases hread
  | register reg =>
    rw [hsecond] at hread
    exact not_leavesOperation_of_register hpacked hne hsecond (mem_singleton.mp hread).symm
  | memory mem =>
    rw [hsecond] at hread
    have hform : inst.row.form = .memory := by rw [← inst.accepted, hsecond]; rfl
    refine not_leavesOperation_of_address hne hform (fun s => memoryAddress number s mem) ?_ _
      (factor_mem hread) fun v memory => memoryAddress_probe _ v memory mem
    intro s
    rw [hsecond]
    rfl
  | reference ref =>
    rw [hsecond] at hread
    have hform : inst.row.form = .memory := by rw [← inst.accepted, hsecond]; rfl
    have hframe : ref.refType = .StackFrameObject ∧ mapRegister number inst.dst = framePointer := by
      unfold SecondOperand.reads SecondOperand.hiddenReads at hread
      dsimp only at hread
      split at hread
      · next h => exact ⟨h, mem_singleton.mp hread⟩
      · cases hread
    have hone : (1 : BitVec 64) ∈ factors := by decide
    refine not_leavesOperation_of_address hne hform (fun s => referenceAddress place s ref) ?_
      (BitVec.ofInt 64 (ref.offset + (place.objectOffset ref.refId).getD 0)) hone ?_
    · intro s
      rw [hsecond]
      rfl
    · intro v memory
      unfold referenceAddress
      rw [hframe.1]
      dsimp only
      rw [hframe.2, probe_self]
      ring
  | cl =>
    rw [hsecond] at hread
    exact not_leavesOperation_of_cl hne hsecond (mem_singleton.mp hread)

/-! ## Allocated registers -/

variable {cc : Option CallingConvDesc} {f : SelectedFunction} {liveness : LivenessResult f}
  {b : MirBlock}

theorem protectsSource_of_register (hsecond : inst.second = .register reg) :
    ProtectsSource inst.mir (regKey inst.dst) (regKey reg) := by
  have hform : inst.row.form = .register := by rw [← inst.accepted, hsecond]; rfl
  refine ⟨inst.dst, reg, ?_, ?_, ?_, rfl, rfl⟩
  · unfold TiedInst.mir TiedRow.desc TiedRow.operandsFlags
    rw [hform, hsecond]
    rfl
  · unfold TiedInst.mir
    rw [hsecond]
    rfl
  · unfold TiedInst.mir
    rw [hsecond]
    exact mem_cons_self

/-- The graph keeps the destination from a second source register. -/
theorem mapRegister_ne_second (assignment : Assignment f (interferenceGraph cc f liveness))
    (hb : b ∈ f.blocks) (hinst : inst.mir ∈ b.instructions)
    (hsecond : inst.second = .register reg) (hne : regKey inst.dst ≠ regKey reg) :
    mapRegister assignment.number inst.dst ≠ mapRegister assignment.number reg := by
  obtain ⟨pre, post, hcode⟩ := append_of_mem hinst
  have hadj : (interferenceGraph cc f liveness).Adj (regKey inst.dst) (regKey reg) :=
    (adj_interferenceGraph_iff cc).mpr ⟨b, hb, pre, inst.mir, post, hcode,
      .inl ⟨hne, .inr (protectsSource_of_register hsecond)⟩⟩
  have hrefs : inst.dst ∈ instRefs inst.mir ∧ reg ∈ instRefs inst.mir := by
    unfold TiedInst.mir instRefs
    rw [hsecond]
    simp [SecondOperand.operands, operandRefs, visitOperandRegisters]
  have hbank : bankOf f.banks (regKey inst.dst) = bankOf f.banks (regKey reg) := by
    rw [bankOf_regKey (f.inBank b hb _ hinst _ hrefs.1),
      bankOf_regKey (f.inBank b hb _ hinst _ hrefs.2), inst.dstBank, inst.secondBank reg hsecond]
  intro heq
  exact assignment.apart _ _ hadj hbank (congrArg HwReg.number heq)

theorem mapRegister_of_same (hsecond : inst.second = .register reg)
    (hkey : regKey inst.dst = regKey reg) :
    mapRegister number inst.dst = mapRegister number reg := by
  unfold mapRegister numberOf
  rw [inst.dstBank, inst.secondBank reg hsecond, hkey]

end

/-! ## A base in the destination's register -/

section

def allocatedNumber (ctx : RegisterAllocatorCtx) : RegKey → ℕ
  | .vreg id => (rewriteReg ctx ⟨true, none, id⟩).id
  | .preg _ id => id

def base64 : MirRegisterRef := ⟨true, some GPR64, 0⟩

def addend32 : MirRegisterRef := ⟨true, some GPR32, 1⟩

def sum32 : MirRegisterRef := ⟨true, some GPR32, 2⟩

/-- The sum of a register and the number at an address. -/
def loadedSum : TiedInst where
  row := .ADDrm false
  dst := sum32
  src := addend32
  second := .memory ⟨some base64, none, none, 1⟩
  accepted := rfl
  dstBank := rfl
  srcBank := rfl
  secondBank := fun _ h => nomatch h

/-- The addend is read behind the sum, and the address is not. -/
def sumCode : List MirInstruction :=
  [SelectedInst.mir ⟨.MOV64ri, [.register base64, .integer 4096]⟩,
    SelectedInst.mir ⟨.MOV32ri, [.register addend32, .integer 7]⟩, loadedSum.mir,
    SelectedInst.mir ⟨.CMP32rr, [.register addend32, .register sum32]⟩]

theorem sumCode_general : ∀ inst ∈ sumCode, ∀ r ∈ instRefs inst,
    r.regClass.map MirRegisterClass.bank = some 0 := by decide

def sumFunction : SelectedFunction := generalFunction sumCode sumCode_general

def sumLiveness : LivenessResult sumFunction := ⟨fun _ => [], inBank_nil sumFunction⟩

theorem sumGraph_apart : ∀ a b, (interferenceGraph none sumFunction sumLiveness).Adj a b →
    bankOf sumFunction.banks a = bankOf sumFunction.banks b →
      numbers [0, 1, 2] a ≠ numbers [0, 1, 2] b :=
  apart_of_nodes (interferenceGraph_ok none) (by decide)

def sumAssignment : Assignment sumFunction (interferenceGraph none sumFunction sumLiveness) :=
  ⟨numbers [0, 1, 2], fun _ _ => rfl, sumGraph_apart⟩

/-- The exclusive or that some packed rows compute. -/
def packedXor (row : SseRow) (x y : BitVec row.width) : BitVec row.width := x ^^^ y

theorem readsSecond_packedXor : ReadsSecond packedXor := by
  intro row
  refine ⟨0, 1, ?_⟩
  cases row
  all_goals decide

theorem loadedSum_mem : loadedSum.mir ∈ (MirBlock.mk 0 sumCode).instructions := by
  simp [sumCode]

/-- A function without a frame and symbols. -/
def emptyPlacement : Placement := ⟨fun _ => none, fun _ => 0⟩

/-- The allocator for the registers of the target. -/
def sumPass : AllocatorPass where
  target := RegAlloc.X86_64.registers
  callingConv := none
  mapOrder := ⟨id, Perm.refl⟩
  setOrder := ⟨id, Perm.refl⟩
  coalescingEnabled := true
  liveness := fun f => ⟨fun _ => [], inBank_nil f⟩
  rewriteSpilledRegisters := fun f _ ctx => (f, ctx.unspillableRegs)

end

end TwoAddress

end EzPacker.X86
