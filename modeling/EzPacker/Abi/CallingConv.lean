import EzPacker.Lib.Placement
import EzPacker.Mir.Type

/-!
# Calling conventions

The shipped conventions are `SysV_AMD64`, `Win64` and `LP64D`. A convention is the
data of its description file; `getArgLoc` is the generated decision procedure,
which places one argument at a time and carries its choices in a
`CallLoweringState`. Locations of kind Split and Indirect exist in the source but
`getArgLoc` of these conventions never answers them.

A register is referred to by its bank and its id in the bank: the classes of one
bank that name the same id are the same hardware register.
-/

namespace EzPacker.Abi

open Mir (MirType MirTypeKind)

/-- The kinds that `getArgLoc` sends to the floating-point registers. -/
def isFloat (type : MirType) : Bool :=
  type.kind = .FloatingPoint || type.kind = .Vector

/-- The kinds that `getArgLoc` sends to the integer registers. -/
def isInteger (type : MirType) : Bool :=
  type.kind = .Integer || type.kind = .Pointer

/-- All other kinds: arrays first of all. -/
def isAggregate (type : MirType) : Bool :=
  !isFloat type && !isInteger type

inductive MirRegisterBank
  | GPR | FPR
  deriving DecidableEq, Repr

structure MirRegisterRef where
  bank : MirRegisterBank
  id : ℕ
  deriving DecidableEq, Repr

inductive StackFrameObjectSource
  | Variable | Spill | Parameter
  deriving DecidableEq, Repr

/-- The id of an object is its position in the frame; its offset is assigned by
the frame lowerer. -/
structure StackFrameObject where
  type : MirType
  source : StackFrameObjectSource
  deriving DecidableEq

inductive TargetArch
  | X86_64 | RiscV64
  deriving DecidableEq, Repr

/-- A slot binds a register for integers and one for floats. -/
structure UnifiedSlot where
  integer : MirRegisterRef
  sse : MirRegisterRef
  deriving DecidableEq, Repr

structure CallingConvDesc where
  target : TargetArch
  stackAlignment : ℕ
  shadowSpaceSize : ℕ
  stackGrowsDownwards : Bool
  /-- The widths of the general-purpose classes of the target's bank. -/
  gprClasses : List ℕ
  callerSavedGprs : List MirRegisterRef
  unifiedSlots : List UnifiedSlot
  integerRegs : List MirRegisterRef
  floatRegs : List MirRegisterRef
  deriving DecidableEq, Repr

inductive ArgumentLocationDesc
  | Reg (ref : MirRegisterRef) (sizeInBytes : ℕ)
  | Stack (sizeInBytes : ℕ) (object : ℕ)
  deriving DecidableEq, Repr

/-- `allocated` counts the registers handed out from the pool of each class,
`frame` is the stack frame of the function that is being lowered. -/
structure CallLoweringState where
  slotIndex : ℕ
  integerCursor : ℕ
  floatCursor : ℕ
  allocated : ℕ → ℕ
  frame : List StackFrameObject

namespace CallLoweringState

/-- The lowering state a call or a function entry starts from. -/
def new (frame : List StackFrameObject) : CallLoweringState :=
  ⟨0, 0, 0, fun _ => 0, frame⟩

/-- The caller-saved registers are resolved without a type, so that all the
general-purpose ones are in the pool of the 64-bit class. -/
def usableRegs (cc : CallingConvDesc) (regClass : ℕ) : List MirRegisterRef :=
  if regClass = 64 then cc.callerSavedGprs else []

def allocate (cc : CallingConvDesc) (regClass : ℕ) (s : CallLoweringState) :
    Option (MirRegisterRef × CallLoweringState) :=
  match (usableRegs cc regClass)[s.allocated regClass]? with
  | none => none
  | some reg =>
    some (reg, { s with
      allocated := fun c =>
        if c = regClass then s.allocated c + 1 else s.allocated c })

/-- A new Parameter object at the end of the frame of the function under
lowering; both directions of a call create their stack locations here. -/
def allocateStack (type : MirType) (s : CallLoweringState) : ℕ × CallLoweringState :=
  (s.frame.length, { s with frame := s.frame ++ [⟨type, .Parameter⟩] })

end CallLoweringState

namespace CallingConvDesc

variable (cc : CallingConvDesc)

/-- The general-purpose class for the type, and the 64-bit class when the bank has
none of that width. -/
def resolveClassForType (type : MirType) : ℕ :=
  let bits := type.totalSizeInBits
  let wanted := if bits ≤ 8 then 8 else if bits ≤ 16 then 16
    else if bits ≤ 32 then 32 else 64
  if wanted ∈ cc.gprClasses then wanted else 64

def stackLoc (type : MirType) (s : CallLoweringState) : ArgumentLocationDesc × CallLoweringState :=
  let sizeInBytes := (type.totalSizeInBits + 7) / 8
  let (object, s') := s.allocateStack type
  (.Stack sizeInBytes object, s')

def getArgLoc (type : MirType) (s : CallLoweringState) : ArgumentLocationDesc × CallLoweringState :=
  let sizeInBytes := (type.totalSizeInBits + 7) / 8
  if cc.unifiedSlots ≠ [] then
    let s' := { s with slotIndex := s.slotIndex + 1 }
    match cc.unifiedSlots[s.slotIndex]? with
    | some slot =>
      (.Reg (if isFloat type then slot.sse else slot.integer) sizeInBytes, s')
    | none => stackLoc type s'
  else if isFloat type then
    let s' := { s with floatCursor := s.floatCursor + 1 }
    match cc.floatRegs[s.floatCursor]? with
    | some reg => (.Reg reg sizeInBytes, s')
    | none => stackLoc type s'
  else if isInteger type then
    let s' := { s with integerCursor := s.integerCursor + 1 }
    match cc.integerRegs[s.integerCursor]? with
    | some reg => (.Reg reg sizeInBytes, s')
    | none => stackLoc type s'
  else
    match s.allocate cc (cc.resolveClassForType type) with
    | some (reg, s') => (.Reg reg sizeInBytes, s')
    | none => stackLoc type s

/-- The locations of the arguments of a signature, as the loops of the call site
and of the function entry ask for them, and the state behind them. -/
def getArgLocs : List MirType → CallLoweringState → List ArgumentLocationDesc × CallLoweringState
  | [], s => ([], s)
  | type :: types, s =>
    let (loc, s') := cc.getArgLoc type s
    let (locs, s'') := getArgLocs types s'
    (loc :: locs, s'')

end CallingConvDesc

def gpr (id : ℕ) : MirRegisterRef := ⟨.GPR, id⟩

def fpr (id : ℕ) : MirRegisterRef := ⟨.FPR, id⟩

inductive ShippedConv
  | SysV_AMD64 | Win64 | LP64D
  deriving DecidableEq, Repr

/-- rdi, rsi, rdx, rcx, r8, r9 and xmm0 to xmm7; caller-saved rax, rcx, rdx, rsi,
rdi, r8 to r11. -/
def SysV_AMD64 : CallingConvDesc where
  target := .X86_64
  stackAlignment := 16
  shadowSpaceSize := 0
  stackGrowsDownwards := true
  gprClasses := [8, 16, 32, 64]
  callerSavedGprs := [0, 1, 2, 6, 7, 8, 9, 10, 11].map gpr
  unifiedSlots := []
  integerRegs := [7, 6, 2, 1, 8, 9].map gpr
  floatRegs := [0, 1, 2, 3, 4, 5, 6, 7].map fpr

/-- The slots rcx/xmm0, rdx/xmm1, r8/xmm2, r9/xmm3; caller-saved rax, rcx, rdx,
r8 to r11. -/
def Win64 : CallingConvDesc where
  target := .X86_64
  stackAlignment := 16
  shadowSpaceSize := 32
  stackGrowsDownwards := true
  gprClasses := [8, 16, 32, 64]
  callerSavedGprs := [0, 1, 2, 8, 9, 10, 11].map gpr
  unifiedSlots := [⟨gpr 1, fpr 0⟩, ⟨gpr 2, fpr 1⟩, ⟨gpr 8, fpr 2⟩, ⟨gpr 9, fpr 3⟩]
  integerRegs := []
  floatRegs := []

/-- a0 to a7 and fa0 to fa7; caller-saved ra, t0 to t6, a0 to a7. -/
def LP64D : CallingConvDesc where
  target := .RiscV64
  stackAlignment := 16
  shadowSpaceSize := 0
  stackGrowsDownwards := true
  gprClasses := [32, 64]
  callerSavedGprs :=
    [1, 5, 6, 7, 28, 29, 30, 31, 10, 11, 12, 13, 14, 15, 16, 17].map gpr
  unifiedSlots := []
  integerRegs := [10, 11, 12, 13, 14, 15, 16, 17].map gpr
  floatRegs := [10, 11, 12, 13, 14, 15, 16, 17].map fpr

def ShippedConv.desc : ShippedConv → CallingConvDesc
  | .SysV_AMD64 => Abi.SysV_AMD64
  | .Win64 => Abi.Win64
  | .LP64D => Abi.LP64D

/-!
## The layout of a stack frame

`calculateFrameLayout` gives every object of a frame its offset from the frame
pointer. Objects of source Parameter go upwards, from behind the saved frame
pointer, the return address and the shadow space; all others go downwards, below
the area of the callee-saved registers. Whether a Parameter object is an incoming
argument of the function or an outgoing one of a call in it makes no difference to
the layout.
-/

/-- `getStackSlotSize` of both targets. -/
def stackSlotSize : ℕ := 8

namespace StackFrameObject

def isParameter (obj : StackFrameObject) : Bool := obj.source = .Parameter

def objAlign (obj : StackFrameObject) : ℕ :=
  max ((obj.type.maxAlignmentInBits + 7) / 8) stackSlotSize

/-- The offset behind a Parameter object, as the next one sees it. -/
def incomingAdvance (obj : StackFrameObject) (off : ℕ) : ℕ :=
  if obj.isParameter then
    alignMask obj.objAlign off + max obj.type.getTotalSizeInBytes stackSlotSize
  else off

/-- The size of the local area behind an object that is not a Parameter. -/
def localAdvance (growsDown : Bool) (obj : StackFrameObject) (off : ℕ) : ℕ :=
  if obj.isParameter then off
  else if growsDown then alignMask obj.objAlign (off + obj.type.getTotalSizeInBytes)
  else alignMask obj.objAlign off + obj.type.getTotalSizeInBytes

def offset (growsDown : Bool) (incoming current : ℕ) (obj : StackFrameObject) : ℤ :=
  if obj.isParameter then (alignMask obj.objAlign incoming : ℕ)
  else if growsDown then
    -(alignMask obj.objAlign (current + obj.type.getTotalSizeInBytes) : ℕ)
  else (alignMask obj.objAlign current : ℕ)

end StackFrameObject

/-- The walk of `calculateFrameLayout` over the objects: their offsets, and the
size of the local area at the end. -/
def layoutObjects (growsDown : Bool) : ℕ → ℕ → List StackFrameObject → List ℤ × ℕ
  | _, current, [] => ([], current)
  | incoming, current, obj :: objs =>
    let (offsets, size) := layoutObjects growsDown (obj.incomingAdvance incoming)
      (obj.localAdvance growsDown current) objs
    (obj.offset growsDown incoming current :: offsets, size)

structure FrameLayout where
  offsets : List ℤ
  calleeSavedAreaSize : ℕ
  totalFrameSize : ℕ
  deriving DecidableEq, Repr

def calculateFrameLayout (cc : CallingConvDesc) (usedCalleeSavedRegs : List MirRegisterRef)
    (objects : List StackFrameObject) : FrameLayout :=
  let calleeSavedAreaSize := usedCalleeSavedRegs.length * stackSlotSize
  let (offsets, current) := layoutObjects cc.stackGrowsDownwards
    (16 + cc.shadowSpaceSize) calleeSavedAreaSize objects
  ⟨offsets, calleeSavedAreaSize, alignMask cc.stackAlignment (current + cc.shadowSpaceSize)⟩

section

variable (obj : StackFrameObject)
include obj

theorem objAlign_eq_two_pow : ∃ k, obj.objAlign = 2 ^ k := by
  rcases obj.type.alignment with h | ⟨k, h⟩
  · exact ⟨3, by simp [StackFrameObject.objAlign, h, stackSlotSize]⟩
  · rcases Nat.lt_or_ge k 6 with hk | hk
    · have hpow : 2 ^ k ≤ 2 ^ 5 := Nat.pow_le_pow_right (by decide) (by omega)
      refine ⟨3, ?_⟩
      rw [StackFrameObject.objAlign, h, stackSlotSize]
      omega
    · obtain ⟨j, rfl⟩ := Nat.exists_eq_add_of_le hk
      have hpow : 2 ^ (6 + j) = 8 * (8 * 2 ^ j) := by
        rw [Nat.pow_add, ← Nat.mul_assoc]
      have hpos := Nat.two_pow_pos j
      refine ⟨3 + j, ?_⟩
      rw [StackFrameObject.objAlign, h, hpow, stackSlotSize, Nat.pow_add]
      omega

theorem alignMask_objAlign (n : ℕ) : alignMask obj.objAlign n = alignUp obj.objAlign n := by
  obtain ⟨k, hk⟩ := objAlign_eq_two_pow obj
  rw [hk, alignUp.mask_two_pow]

theorem le_incomingAdvance (off : ℕ) : off ≤ obj.incomingAdvance off := by
  unfold StackFrameObject.incomingAdvance
  split
  · have hle := alignUp.le_alignUp obj.objAlign off
    rw [alignMask_objAlign]
    omega
  · exact Nat.le_refl _

theorem incomingAdvance_mono : Monotone obj.incomingAdvance := by
  intro m n h
  unfold StackFrameObject.incomingAdvance
  split
  · have hle := alignUp.mono obj.objAlign h
    rw [alignMask_objAlign, alignMask_objAlign]
    omega
  · exact h

end

/-- The size of the area of Parameter objects in front of the objects `objs`. -/
def incomingArea (cc : CallingConvDesc) (objs : List StackFrameObject) : ℕ :=
  place StackFrameObject.incomingAdvance (16 + cc.shadowSpaceSize) objs

theorem layoutObjects_get (growsDown : Bool) (pre post : List StackFrameObject)
    (obj : StackFrameObject) (hobj : obj.isParameter = true) (incoming current : ℕ) :
    (layoutObjects growsDown incoming current (pre ++ obj :: post)).1[pre.length]? =
      some ((alignMask obj.objAlign
        (place StackFrameObject.incomingAdvance incoming pre) : ℕ) : ℤ) := by
  induction pre generalizing incoming current with
  | nil => simp [layoutObjects, StackFrameObject.offset, hobj]
  | cons o pre ih => simpa [layoutObjects] using ih _ _

theorem calculateFrameLayout_parameter (cc : CallingConvDesc)
    (saved : List MirRegisterRef) (pre post : List StackFrameObject)
    {obj : StackFrameObject} (hobj : obj.isParameter = true) :
    (calculateFrameLayout cc saved (pre ++ obj :: post)).offsets[pre.length]? =
      some ((alignMask obj.objAlign (incomingArea cc pre) : ℕ) : ℤ) :=
  layoutObjects_get cc.stackGrowsDownwards pre post obj hobj _ _

/-- Objects in front of a Parameter object can only push it upwards. -/
theorem incomingArea_le_append (cc : CallingConvDesc) (pre objs : List StackFrameObject) :
    incomingArea cc objs ≤ incomingArea cc (pre ++ objs) := by
  rw [incomingArea, incomingArea, place_append]
  exact place_mono incomingAdvance_mono objs (le_place le_incomingAdvance _ pre)

theorem le_localAdvance (growsDown : Bool) (obj : StackFrameObject) (off : ℕ) :
    off ≤ obj.localAdvance growsDown off := by
  have hle := alignUp.le_alignUp obj.objAlign off
  have hle' := alignUp.le_alignUp obj.objAlign (off + obj.type.getTotalSizeInBytes)
  unfold StackFrameObject.localAdvance
  split
  · exact le_rfl
  · split
    · rw [alignMask_objAlign]
      omega
    · rw [alignMask_objAlign]
      omega

theorem layoutObjects_size (growsDown : Bool) (incoming current : ℕ)
    (objs : List StackFrameObject) :
    (layoutObjects growsDown incoming current objs).2 =
      place (StackFrameObject.localAdvance growsDown) current objs := by
  induction objs generalizing incoming current with
  | nil => rfl
  | cons obj objs ih => exact ih _ _

/-- Where an object is placed when the area has grown downwards to `current`. -/
theorem offset_local {obj : StackFrameObject} (hobj : obj.isParameter = false)
    (incoming current : ℕ) :
    obj.offset true incoming current = -(obj.localAdvance true current : ℕ) := by
  simp [StackFrameObject.offset, StackFrameObject.localAdvance, hobj]

/-- The local objects of an area that grows downwards lie inside it. -/
theorem layoutObjects_local_ge (objs : List StackFrameObject) (incoming current : ℕ)
    {p : StackFrameObject × ℤ}
    (hp : p ∈ objs.zip (layoutObjects true incoming current objs).1)
    (hlocal : p.1.isParameter = false) :
    -((layoutObjects true incoming current objs).2 : ℤ) ≤ p.2 := by
  induction objs generalizing incoming current with
  | nil => simp at hp
  | cons obj objs ih =>
    rcases List.mem_cons.mp hp with rfl | hp
    · have hle : obj.localAdvance true current ≤ place (StackFrameObject.localAdvance true)
            (obj.localAdvance true current) objs :=
        le_place (le_localAdvance true) _ objs
      have hoff := offset_local hlocal incoming current
      change -((layoutObjects true incoming current (obj :: objs)).2 : ℤ) ≤
        obj.offset true incoming current
      rw [layoutObjects_size, place_cons, hoff]
      exact Int.neg_le_neg (Int.ofNat_le.mpr hle)
    · exact ih _ _ hp

theorem calculateFrameLayout_room {cc : CallingConvDesc} {k : ℕ}
    (hcc : cc.stackAlignment = 2 ^ k) (saved : List MirRegisterRef)
    (objs : List StackFrameObject) :
    (layoutObjects cc.stackGrowsDownwards (16 + cc.shadowSpaceSize)
      (saved.length * stackSlotSize) objs).2 + cc.shadowSpaceSize ≤
        (calculateFrameLayout cc saved objs).totalFrameSize := by
  have hle := alignUp.le_alignUp (2 ^ k) ((layoutObjects cc.stackGrowsDownwards
    (16 + cc.shadowSpaceSize) (saved.length * stackSlotSize) objs).2 + cc.shadowSpaceSize)
  simpa only [calculateFrameLayout, hcc, alignUp.mask_two_pow] using hle

end EzPacker.Abi
