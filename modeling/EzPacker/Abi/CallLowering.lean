import EzPacker.Abi.CallingConv
import EzPacker.Lib.WordMachine

/-!
# Lowered calls and function entries

`processCallBlock` turns the arguments of a call into moves to registers and
stores to Parameter objects of the caller's frame, `processFunctionArguments` turns
the parameters of a function into moves from registers and loads from Parameter
objects of its own frame. The moves run on a machine of registers, bytes of memory,
a stack pointer and a frame pointer; between them stand the call instruction and
the prologue of the callee.

A physical register operand is built with the type of the value, so a move copies
the value whole; a store and a load of a value touch as many bytes as its type has.
-/

namespace EzPacker.Abi

open List

open Mir (MirType MirTypeKind)

/-- One move of an argument; `arg` and `param` are positions in the signature. -/
inductive AbiMove
  | movToReg (reg : MirRegisterRef) (arg : ℕ)
  | storeToObject (object sizeInBytes arg : ℕ)
  | movFromReg (param : ℕ) (reg : MirRegisterRef)
  | loadFromObject (param object sizeInBytes : ℕ)
  deriving DecidableEq, Repr

def assignToLocation (arg : ℕ) : ArgumentLocationDesc → AbiMove
  | .Reg ref _ => .movToReg ref arg
  | .Stack sizeInBytes object => .storeToObject object sizeInBytes arg

def assignFromLocation (param : ℕ) : ArgumentLocationDesc → AbiMove
  | .Reg ref _ => .movFromReg param ref
  | .Stack sizeInBytes object => .loadFromObject param object sizeInBytes

def processCallBlock (cc : CallingConvDesc) (frame : List StackFrameObject)
    (pushArgs : List MirType) : List AbiMove × List StackFrameObject :=
  let (locs, s) := cc.getArgLocs pushArgs (CallLoweringState.new frame)
  (locs.zipIdx.map fun p => assignToLocation p.2 p.1, s.frame)

def processFunctionArguments (cc : CallingConvDesc) (frame : List StackFrameObject)
    (popArgs : List MirType) : List AbiMove × List StackFrameObject :=
  let (locs, s) := cc.getArgLocs popArgs (CallLoweringState.new frame)
  (locs.zipIdx.map fun p => assignFromLocation p.2 p.1, s.frame)

/-- `params` are the virtual registers the callee receives its parameters in. The
stack pointer and the frame pointer are kept apart from the other registers. -/
structure Machine where
  regs : MirRegisterRef → ℕ
  mem : ℤ → UInt8
  sp : ℤ
  fp : ℤ
  params : ℕ → ℕ

namespace Machine

def setReg (r : MirRegisterRef) (v : ℕ) (m : Machine) : Machine :=
  { m with regs := fun r' => if r' = r then v else m.regs r' }

def loadBytes (m : Machine) (addr : ℤ) (size : ℕ) : List UInt8 :=
  (range size).map fun i => m.mem (addr + i)

def load (m : Machine) (addr : ℤ) (size : ℕ) : ℕ := leNat (m.loadBytes addr size)

def store (addr : ℤ) (size value : ℕ) (m : Machine) : Machine :=
  { m with mem := fun a =>
      if addr ≤ a ∧ a < addr + size then (leBytes size value).getD (a - addr).toNat 0
      else m.mem a }

def push (value : ℕ) (m : Machine) : Machine :=
  ({ m with sp := m.sp - 8 }).store (m.sp - 8) 8 value

end Machine

/-- A function under execution: whether it has a frame pointer, and its layout. -/
structure LoweredFrame where
  hasFramePointer : Bool
  layout : FrameLayout
  usedCalleeSavedRegs : List MirRegisterRef

def lowerFrame (cc : CallingConvDesc) (saved : List MirRegisterRef)
    (objects : List StackFrameObject) : LoweredFrame :=
  ⟨!objects.isEmpty, calculateFrameLayout cc saved objects, saved⟩

namespace LoweredFrame

/-- The address of an object, as `lowerStackObjectReferences` computes it. -/
def address (f : LoweredFrame) (m : Machine) (object : ℕ) : ℤ :=
  (if f.hasFramePointer then m.fp else m.sp) + f.layout.offsets.getD object 0

end LoweredFrame

def AbiMove.exec (f : LoweredFrame) (values : ℕ → ℕ) (m : Machine) : AbiMove → Machine
  | .movToReg reg arg => m.setReg reg (values arg)
  | .storeToObject object size arg => m.store (f.address m object) size (values arg)
  | .movFromReg param reg =>
    { m with params := fun p => if p = param then m.regs reg else m.params p }
  | .loadFromObject param object size =>
    { m with params := fun p =>
        if p = param then m.load (f.address m object) size else m.params p }

/-- The register the linkage instruction of RISC-V writes the return address to. -/
def raReg : MirRegisterRef := gpr 1

/-- The scratch register of the stack probes of x86-64. -/
def probeReg : MirRegisterRef := gpr 11

def framePointerReg : TargetArch → MirRegisterRef
  | .X86_64 => gpr 5
  | .RiscV64 => gpr 8

/-- The call instruction. -/
def call (target : TargetArch) (returnAddress : ℕ) (m : Machine) : Machine :=
  match target with
  | .X86_64 => m.push returnAddress
  | .RiscV64 => m.setReg raReg returnAddress

/-- The offsets below the stack pointer that the prologue of x86-64 touches. -/
def probeOffsets (frameSize : ℕ) : List ℕ :=
  ((range frameSize).map fun i => 4096 * (i + 1)).filter (· < frameSize) ++ [frameSize]

/-- A probe loads a word below the stack pointer into the scratch register. -/
def probe (m : Machine) (off : ℕ) : Machine :=
  m.setReg probeReg (m.load (m.sp - off) 8)

def probeStack (frameSize : ℕ) (m : Machine) : Machine :=
  if frameSize ≥ 4096 then (probeOffsets frameSize).foldl probe m else m

/-- The saved registers without the frame pointer, which the prologue has saved
already when it uses one. -/
def pushedRegs (target : TargetArch) (f : LoweredFrame) : List MirRegisterRef :=
  f.usedCalleeSavedRegs.filter fun r =>
    !(f.hasFramePointer && r = framePointerReg target)

/-- push rbp; mov rbp, rsp -/
def enterX86_64 (f : LoweredFrame) (m : Machine) : Machine :=
  if f.hasFramePointer then
    let m := m.push m.fp.toNat
    { m with fp := m.sp }
  else m

/-- addi sp, sp, -16; sd ra, 8(sp); sd s0, 0(sp); addi s0, sp, 16 -/
def enterRiscV64 (f : LoweredFrame) (m : Machine) : Machine :=
  if f.hasFramePointer then
    let m := { m with sp := m.sp - 16 }
    let m := m.store (m.sp + 8) 8 (m.regs raReg)
    let m := m.store m.sp 8 m.fp.toNat
    { m with fp := m.sp + 16 }
  else m

def prologueX86_64 (f : LoweredFrame) (m : Machine) : Machine :=
  let m := enterX86_64 f m
  let m := probeStack f.layout.totalFrameSize m
  let m := { m with sp := m.sp - f.layout.totalFrameSize }
  (pushedRegs .X86_64 f).foldl (fun m r => m.push (m.regs r)) m

def prologueRiscV64 (f : LoweredFrame) (m : Machine) : Machine :=
  let m := enterRiscV64 f m
  let m := { m with sp := m.sp - alignMask 16 f.layout.totalFrameSize }
  (pushedRegs .RiscV64 f).foldl (fun m r =>
    ({ m with sp := m.sp - 16 }).store (m.sp - 16) 8 (m.regs r)) m

def prologue (target : TargetArch) (f : LoweredFrame) (m : Machine) : Machine :=
  match target with
  | .X86_64 => prologueX86_64 f m
  | .RiscV64 => prologueRiscV64 f m

/-- The registers that change between the last move of the caller and the first
move of the callee. -/
def clobbered (target : TargetArch) (frameSize : ℕ) : List MirRegisterRef :=
  match target with
  | .X86_64 => if frameSize ≥ 4096 then [probeReg] else []
  | .RiscV64 => [raReg]

namespace Machine

@[simp] theorem setReg_regs_self (r : MirRegisterRef) (v : ℕ) (m : Machine) :
    (m.setReg r v).regs r = v := by simp [setReg]

theorem setReg_regs_of_ne {r r' : MirRegisterRef} (h : r' ≠ r) (v : ℕ) (m : Machine) :
    (m.setReg r v).regs r' = m.regs r' := by simp [setReg, h]

section

variable (r : MirRegisterRef) (v : ℕ) (m : Machine)
include r v m

@[simp] theorem setReg_mem : (m.setReg r v).mem = m.mem := rfl

@[simp] theorem setReg_sp : (m.setReg r v).sp = m.sp := rfl

@[simp] theorem setReg_fp : (m.setReg r v).fp = m.fp := rfl

end

@[simp] theorem store_regs (a : ℤ) (n v : ℕ) (m : Machine) : (m.store a n v).regs = m.regs := rfl

@[simp] theorem store_sp (a : ℤ) (n v : ℕ) (m : Machine) : (m.store a n v).sp = m.sp := rfl

@[simp] theorem store_fp (a : ℤ) (n v : ℕ) (m : Machine) : (m.store a n v).fp = m.fp := rfl

@[simp] theorem push_regs (v : ℕ) (m : Machine) : (m.push v).regs = m.regs := rfl

@[simp] theorem push_sp (v : ℕ) (m : Machine) : (m.push v).sp = m.sp - 8 := rfl

@[simp] theorem push_fp (v : ℕ) (m : Machine) : (m.push v).fp = m.fp := rfl

end Machine

/-- What a fold of register saves does to the machine: nothing but memory changes,
and the stack pointer does not go up. -/
structure SavesRegisters (m m' : Machine) : Prop where
  regs : m'.regs = m.regs
  fp : m'.fp = m.fp
  sp : m'.sp ≤ m.sp

theorem SavesRegisters.foldl {step : Machine → MirRegisterRef → Machine}
    (hstep : ∀ m r, SavesRegisters m (step m r)) (rs : List MirRegisterRef)
    (m : Machine) : SavesRegisters m (rs.foldl step m) := by
  induction rs generalizing m with
  | nil => exact ⟨rfl, rfl, le_rfl⟩
  | cons r rs ih =>
    have hhead := hstep m r
    have htail := ih (step m r)
    exact ⟨htail.regs.trans hhead.regs, htail.fp.trans hhead.fp, htail.sp.trans hhead.sp⟩

theorem probeStack_of_lt {n : ℕ} (h : n < 4096) (m : Machine) : probeStack n m = m := by
  rw [probeStack, if_neg (by omega)]

theorem foldl_probe_frame (offs : List ℕ) (m : Machine) :
    (offs.foldl probe m).mem = m.mem ∧ (offs.foldl probe m).sp = m.sp ∧
      (offs.foldl probe m).fp = m.fp ∧
      ∀ r, r ≠ probeReg → (offs.foldl probe m).regs r = m.regs r := by
  induction offs generalizing m with
  | nil => exact ⟨rfl, rfl, rfl, fun _ _ => rfl⟩
  | cons off offs ih =>
    obtain ⟨hmem, hsp, hfp, hregs⟩ := ih (probe m off)
    refine ⟨hmem, hsp, hfp, ?_⟩
    intro r hr
    rw [foldl_cons, hregs r hr, probe, Machine.setReg_regs_of_ne hr]

/-- The probes leave everything but their scratch register. -/
theorem probeStack_frame (n : ℕ) (m : Machine) :
    (probeStack n m).sp = m.sp ∧ (probeStack n m).fp = m.fp ∧
      ∀ r, r ∉ clobbered .X86_64 n → (probeStack n m).regs r = m.regs r := by
  rcases Nat.lt_or_ge n 4096 with h | h
  · rw [probeStack_of_lt h]
    exact ⟨rfl, rfl, fun _ _ => rfl⟩
  · rw [probeStack, if_pos h]
    obtain ⟨-, hsp, hfp, hregs⟩ := foldl_probe_frame (probeOffsets n) m
    refine ⟨hsp, hfp, ?_⟩
    intro r hr
    apply hregs
    simpa [clobbered, h] using hr

/-- The scratch register holds what the last probe loaded. -/
theorem probeStack_regs_probeReg {n : ℕ} (h : 4096 ≤ n) (m : Machine) :
    (probeStack n m).regs probeReg = m.load (m.sp - n) 8 := by
  obtain ⟨hmem, hsp, -, -⟩ := foldl_probe_frame
    (((range n).map fun i => 4096 * (i + 1)).filter (· < n)) m
  rw [probeStack, if_pos h, probeOffsets, foldl_append, foldl_cons,
    foldl_nil, probe, Machine.setReg_regs_self]
  simp only [Machine.load, Machine.loadBytes, hmem, hsp]

theorem savesRegisters_push (m : Machine) (r : MirRegisterRef) :
    SavesRegisters m (m.push (m.regs r)) :=
  ⟨rfl, rfl, Int.sub_le_self _ (by decide)⟩

theorem savesRegisters_sd (m : Machine) (r : MirRegisterRef) : SavesRegisters m
      (({ m with sp := m.sp - 16 }).store (m.sp - 16) 8 (m.regs r)) :=
  ⟨rfl, rfl, Int.sub_le_self _ (by decide)⟩

@[simp] theorem enterX86_64_regs (f : LoweredFrame) (m : Machine) :
    (enterX86_64 f m).regs = m.regs := by
  cases h : f.hasFramePointer <;> simp [enterX86_64, h]

@[simp] theorem enterRiscV64_regs (f : LoweredFrame) (m : Machine) :
    (enterRiscV64 f m).regs = m.regs := by
  cases h : f.hasFramePointer <;> simp [enterRiscV64, h]

/-- The registers an argument can arrive in. -/
theorem prologue_call_regs (target : TargetArch) (f : LoweredFrame) (ra : ℕ)
    (m : Machine) {r : MirRegisterRef}
    (hr : r ∉ clobbered target f.layout.totalFrameSize) :
    (prologue target f (call target ra m)).regs r = m.regs r := by
  cases target with
  | X86_64 =>
    have hprobe := probeStack_frame f.layout.totalFrameSize (enterX86_64 f (m.push ra))
    have hsaves := SavesRegisters.foldl savesRegisters_push (pushedRegs .X86_64 f)
    rw [prologue, prologueX86_64, (hsaves _).regs]
    exact (hprobe.2.2 r hr).trans (by simp [call])
  | RiscV64 =>
    have hne : r ≠ raReg := by simpa [clobbered] using hr
    have hsaves := SavesRegisters.foldl savesRegisters_sd (pushedRegs .RiscV64 f)
    rw [prologue, prologueRiscV64, (hsaves _).regs]
    simp [call, Machine.setReg_regs_of_ne hne]

theorem prologue_call_raReg (f : LoweredFrame) (ra : ℕ) (m : Machine) :
    (prologue .RiscV64 f (call .RiscV64 ra m)).regs raReg = ra := by
  have hsaves := SavesRegisters.foldl savesRegisters_sd (pushedRegs .RiscV64 f)
  rw [prologue, prologueRiscV64, (hsaves _).regs]
  simp [call]

variable {f : LoweredFrame}

/-- The word the scratch register holds at the first move of the callee. It does
not depend on the registers of the caller. -/
theorem prologue_call_probeReg (hf : 4096 ≤ f.layout.totalFrameSize)
    (ra : ℕ) {m m' : Machine} (hmem : m.mem = m'.mem) (hsp : m.sp = m'.sp)
    (hfp : m.fp = m'.fp) :
    (prologue .X86_64 f (call .X86_64 ra m)).regs probeReg =
      (prologue .X86_64 f (call .X86_64 ra m')).regs probeReg := by
  have hsaves := SavesRegisters.foldl savesRegisters_push (pushedRegs .X86_64 f)
  simp only [prologue, prologueX86_64, (hsaves _).regs, probeStack_regs_probeReg hf]
  cases h : f.hasFramePointer <;>
    simp [enterX86_64, h, call, Machine.load, Machine.loadBytes, Machine.push,
      Machine.store, hmem, hsp, hfp]

/-- How far below the stack pointer of the caller the frame pointer of the callee
is. -/
def framePointerDrop : TargetArch → ℤ
  | .X86_64 => 16
  | .RiscV64 => 0

theorem prologue_call_fp (target : TargetArch)
    (hf : f.hasFramePointer = true) (ra : ℕ) (m : Machine) :
    (prologue target f (call target ra m)).fp = m.sp - framePointerDrop target := by
  cases target with
  | X86_64 =>
    have hprobe := probeStack_frame f.layout.totalFrameSize (enterX86_64 f (m.push ra))
    have hsaves := SavesRegisters.foldl savesRegisters_push (pushedRegs .X86_64 f)
    rw [prologue, prologueX86_64, (hsaves _).fp]
    refine hprobe.2.1.trans ?_
    simp [enterX86_64, hf, framePointerDrop]
    ring
  | RiscV64 =>
    have hsaves := SavesRegisters.foldl savesRegisters_sd (pushedRegs .RiscV64 f)
    rw [prologue, prologueRiscV64, (hsaves _).fp]
    simp [enterRiscV64, hf, call, framePointerDrop]

/-- The frame pointer a function sets up lies above its stack pointer, on RISC-V
by the two words it saves. -/
theorem prologue_sp_le_fp (target : TargetArch) (hf : f.hasFramePointer = true) (m : Machine) :
    (prologue target f m).sp + (16 - framePointerDrop target) ≤ (prologue target f m).fp := by
  cases target with
  | X86_64 =>
    have hprobe := probeStack_frame f.layout.totalFrameSize (enterX86_64 f m)
    have hsaves := (SavesRegisters.foldl savesRegisters_push (pushedRegs .X86_64 f)
      { probeStack f.layout.totalFrameSize (enterX86_64 f m) with
        sp := (probeStack f.layout.totalFrameSize (enterX86_64 f m)).sp - f.layout.totalFrameSize })
    have henter : (enterX86_64 f m).fp = (enterX86_64 f m).sp := by
      simp [enterX86_64, hf]
    have hfp := hsaves.fp
    have hsp := hsaves.sp
    simp only [hprobe.1, hprobe.2.1] at hfp hsp
    simp only [prologue, prologueX86_64, framePointerDrop, hprobe.1, hprobe.2.1]
    omega
  | RiscV64 =>
    have hsaves := (SavesRegisters.foldl savesRegisters_sd (pushedRegs .RiscV64 f)
      { enterRiscV64 f m with
        sp := (enterRiscV64 f m).sp - alignMask 16 f.layout.totalFrameSize })
    have henter : (enterRiscV64 f m).fp = (enterRiscV64 f m).sp + 16 := by
      simp [enterRiscV64, hf]
    have hfp := hsaves.fp
    have hsp := hsaves.sp
    simp only [prologue, prologueRiscV64, framePointerDrop]
    simp only at hfp hsp
    omega

/-!
## The code of prologues, epilogues and dynamic allocations

The frame lowerers emit target instructions. An immediate is as wide as its field:
`ADDI64ri`, the loads and the stores of RISC-V carry the low twelve bits of it,
`SUB64ri`, `ADD64ri` and a displacement of x86-64 the low 32, and the machine
extends the sign. The encoders cut an immediate without a check.
-/

/-- The target instructions that the frame lowerers emit. -/
inductive FrameInst
  | PUSH64r (src : MirRegisterRef)
  | POP64r (dst : MirRegisterRef)
  | MOV64rr (dst src : MirRegisterRef)
  | SUB64ri (dst src1 : MirRegisterRef) (imm : ℤ)
  | ADD64ri (dst src1 : MirRegisterRef) (imm : ℤ)
  | SUB64rr (dst src1 src2 : MirRegisterRef)
  | LOAD64 (dst base : MirRegisterRef) (disp : ℤ)
  | ADDI64ri (dst src1 : MirRegisterRef) (imm : ℤ)
  | SD (src base : MirRegisterRef) (disp : ℤ)
  | LD (dst base : MirRegisterRef) (disp : ℤ)
  | FSD (src base : MirRegisterRef) (disp : ℤ)
  | FLD (dst base : MirRegisterRef) (disp : ℤ)
  deriving DecidableEq, Repr

/-- rsp and sp. -/
def stackPointerReg : TargetArch → MirRegisterRef
  | .X86_64 => gpr 4
  | .RiscV64 => gpr 2

namespace ShippedConv

def target (conv : ShippedConv) : TargetArch := conv.desc.target

def spReg (conv : ShippedConv) : MirRegisterRef := stackPointerReg conv.target

def fpReg (conv : ShippedConv) : MirRegisterRef := framePointerReg conv.target

/-- The `preserve callee` list. SysV: rbx, rsp, rbp, r12 to r15; Win64: rbx, rbp,
rdi, rsi, r12 to r15; LP64D: s0 to s11, sp, fs0 to fs11. -/
def calleeSavedRegs : ShippedConv → List MirRegisterRef
  | .SysV_AMD64 => [3, 4, 5, 12, 13, 14, 15].map gpr
  | .Win64 => [3, 5, 7, 6, 12, 13, 14, 15].map gpr
  | .LP64D =>
    [8, 9, 18, 19, 20, 21, 22, 23, 24, 25, 26, 27, 2].map gpr ++
      [8, 9, 18, 19, 20, 21, 22, 23, 24, 25, 26, 27].map fpr

end ShippedConv

section

variable (f : LoweredFrame)

/-- Loads from every page under the stack pointer, for frames of a page or more. -/
def probeCode (frameSize : ℕ) : List FrameInst :=
  if frameSize ≥ 4096 then
    (probeOffsets frameSize).map fun off : ℕ =>
      .LOAD64 probeReg (stackPointerReg .X86_64) (-(off : ℤ))
  else []

namespace X86_64

def rsp : MirRegisterRef := stackPointerReg .X86_64

def rbp : MirRegisterRef := framePointerReg .X86_64

def insertPrologue : List FrameInst :=
  (if f.hasFramePointer then [.PUSH64r rbp, .MOV64rr rbp rsp] else []) ++
  (if 0 < f.layout.totalFrameSize then
    probeCode f.layout.totalFrameSize ++ [.SUB64ri rsp rsp f.layout.totalFrameSize]
  else []) ++
  (pushedRegs .X86_64 f).map .PUSH64r

def insertEpilogue : List FrameInst :=
  (pushedRegs .X86_64 f).reverse.map .POP64r ++
  (if f.hasFramePointer then [.MOV64rr rsp rbp, .POP64r rbp]
  else if 0 < f.layout.totalFrameSize then
    [.ADD64ri rsp rsp f.layout.totalFrameSize]
  else [])

def lowerDAlloc (dst src : MirRegisterRef) : List FrameInst :=
  [.SUB64rr rsp rsp src, .MOV64rr dst rsp]

end X86_64

namespace RiscV64

def sp : MirRegisterRef := stackPointerReg .RiscV64

def s0 : MirRegisterRef := framePointerReg .RiscV64

/-- The frame size once more rounded to 16 bytes. -/
def frameSize : ℕ := alignMask 16 f.layout.totalFrameSize

def saveReg (reg : MirRegisterRef) : List FrameInst :=
  [.ADDI64ri sp sp (-16), if reg.bank = .FPR then .FSD reg sp 0 else .SD reg sp 0]

def restoreReg (reg : MirRegisterRef) : List FrameInst :=
  [if reg.bank = .FPR then .FLD reg sp 0 else .LD reg sp 0, .ADDI64ri sp sp 16]

def insertPrologue : List FrameInst :=
  (if f.hasFramePointer then
    [.ADDI64ri sp sp (-16), .SD raReg sp 8, .SD s0 sp 0, .ADDI64ri s0 sp 16]
  else []) ++
  (if 0 < f.layout.totalFrameSize then [.ADDI64ri sp sp (-(frameSize f : ℤ))] else []) ++
  (pushedRegs .RiscV64 f).flatMap saveReg

def insertEpilogue : List FrameInst :=
  (pushedRegs .RiscV64 f).reverse.flatMap restoreReg ++
  (if f.hasFramePointer then
    [.ADDI64ri sp s0 (-16), .LD s0 sp 0, .LD raReg sp 8, .ADDI64ri sp sp 16]
  else if 0 < f.layout.totalFrameSize then [.ADDI64ri sp sp (frameSize f)]
  else [])

def lowerDAlloc (dst src : MirRegisterRef) : List FrameInst :=
  [.SUB64rr sp sp src, .ADDI64ri dst sp 0]

end RiscV64

def insertPrologue : TargetArch → List FrameInst
  | .X86_64 => X86_64.insertPrologue f
  | .RiscV64 => RiscV64.insertPrologue f

def insertEpilogue : TargetArch → List FrameInst
  | .X86_64 => X86_64.insertEpilogue f
  | .RiscV64 => RiscV64.insertEpilogue f

end

def lowerDAlloc : TargetArch → MirRegisterRef → MirRegisterRef → List FrameInst
  | .X86_64 => X86_64.lowerDAlloc
  | .RiscV64 => RiscV64.lowerDAlloc

/-- The machine the emitted code runs on. -/
abbrev Cpu := WordMachine MirRegisterRef

/-- An immediate of a field of `w` bits, as the machine reads it. -/
def immField (w : ℕ) (imm : ℤ) : BitVec 64 := (BitVec.ofInt w imm).signExtend 64

namespace FrameInst

open WordMachine

def exec (m : Cpu) : FrameInst → Cpu
  | PUSH64r src =>
    let top := disp (m.regs X86_64.rsp) (-8)
    (m.setReg X86_64.rsp top).store top (m.regs src)
  | POP64r dst =>
    let top := m.regs X86_64.rsp
    (m.setReg X86_64.rsp (disp top 8)).setReg dst (m.load top)
  | MOV64rr dst src => m.setReg dst (m.regs src)
  | SUB64ri dst src1 imm => m.setReg dst (m.regs src1 - immField 32 imm)
  | ADD64ri dst src1 imm => m.setReg dst (m.regs src1 + immField 32 imm)
  | SUB64rr dst src1 src2 => m.setReg dst (m.regs src1 - m.regs src2)
  | LOAD64 dst base disp => m.setReg dst (m.load (m.regs base + immField 32 disp))
  | ADDI64ri dst src1 imm => m.setReg dst (m.regs src1 + immField 12 imm)
  | SD src base disp | FSD src base disp =>
    m.store (m.regs base + immField 12 disp) (m.regs src)
  | LD dst base disp | FLD dst base disp =>
    m.setReg dst (m.load (m.regs base + immField 12 disp))

end FrameInst

def exec (code : List FrameInst) (m : Cpu) : Cpu := code.foldl FrameInst.exec m

@[simp] theorem exec_nil (m : Cpu) : exec [] m = m := rfl

@[simp] theorem exec_cons (i : FrameInst) (code : List FrameInst) (m : Cpu) :
    exec (i :: code) m = exec code (i.exec m) := rfl

@[simp] theorem exec_append (code code' : List FrameInst) (m : Cpu) :
    exec (code ++ code') m = exec code' (exec code m) := by
  simp [exec]

def Saves (code : List FrameInst) (reg : MirRegisterRef) : Prop :=
  .PUSH64r reg ∈ code ∨ ∃ base disp, .SD reg base disp ∈ code ∨ .FSD reg base disp ∈ code

/-- The prologue saves what the function is noted to use, the frame pointer with the
others or before them. -/
theorem saves_insertPrologue {reg : MirRegisterRef}
    (hreg : reg ∈ f.usedCalleeSavedRegs) (target : TargetArch) :
    Saves (insertPrologue f target) reg := by
  by_cases hfp : f.hasFramePointer = true ∧ reg = framePointerReg target
  · obtain ⟨hfp, rfl⟩ := hfp
    cases target with
    | X86_64 =>
      left
      simp [insertPrologue, X86_64.insertPrologue, hfp, X86_64.rbp]
    | RiscV64 =>
      right
      refine ⟨RiscV64.sp, 0, .inl ?_⟩
      simp [insertPrologue, RiscV64.insertPrologue, hfp, RiscV64.s0]
  · have hpushed : reg ∈ pushedRegs target f :=
      mem_filter.mpr ⟨hreg, by simpa [imp_iff_not_or] using hfp⟩
    cases target with
    | X86_64 =>
      left
      exact mem_append_right _ (mem_map_of_mem hpushed)
    | RiscV64 =>
      right
      have hsave : ∀ i ∈ RiscV64.saveReg reg, i ∈ insertPrologue f .RiscV64 :=
        fun i hi => mem_append_right _ (mem_flatMap.mpr ⟨reg, hpushed, hi⟩)
      refine ⟨RiscV64.sp, 0, ?_⟩
      unfold RiscV64.saveReg at hsave
      split at hsave
      · exact .inr (hsave _ (by simp))
      · exact .inl (hsave _ (by simp))

/-- An immediate that fits its field reaches the machine whole. -/
theorem immField_of_fits {k : ℕ} {imm : ℤ} (hlo : -2 ^ k ≤ imm) (hhi : imm < 2 ^ k) :
    immField (k + 1) imm = BitVec.ofInt 64 imm := by
  have htoInt : (BitVec.ofInt (k + 1) imm).toInt = imm := by
    rw [BitVec.toInt_ofInt]
    apply Int.bmod_eq_of_le_mul_two <;> push_cast [pow_succ] <;> linarith
  rw [immField, BitVec.signExtend, htoInt]

end EzPacker.Abi
