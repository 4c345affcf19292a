import EzPacker.Abi.CallLowering

/-!
# Where arguments go and where parameters come from

The two sides of a call ask the same convention for the same types, so they agree
on which arguments are in registers and on the order of the others on the stack.
The Parameter objects of a call are objects of the caller's own frame, though, and
the frame layout measures them from the frame pointer of the caller; the callee
measures its own from the frame pointer of the callee, which lies below. A stack
argument is never where the callee looks for it, and a call works exactly when all
its arguments get registers, all different and none that the call or the prologue
overwrites.
-/

namespace EzPacker.Abi

open ArgumentLocationDesc CallLoweringState CallingConvDesc List

open Mir (MirType MirTypeKind)

namespace ArgumentLocationDesc

/-- The same location in a frame with `n` more objects in front. -/
def shift (n : ℕ) : ArgumentLocationDesc → ArgumentLocationDesc
  | .Reg ref size => .Reg ref size
  | .Stack size object => .Stack size (n + object)

def isReg : ArgumentLocationDesc → Bool
  | .Reg _ _ => true
  | .Stack _ _ => false

@[simp] theorem isReg_reg (ref : MirRegisterRef) (size : ℕ) : (Reg ref size).isReg = true := rfl

@[simp] theorem isReg_stack (size object : ℕ) : (Stack size object).isReg = false := rfl

def reg? : ArgumentLocationDesc → Option MirRegisterRef
  | .Reg ref _ => some ref
  | .Stack _ _ => none

end ArgumentLocationDesc

namespace CallingConvDesc

variable (cc : CallingConvDesc)

def withPrefix (pre : List StackFrameObject) (s : CallLoweringState) :
    CallLoweringState := { s with frame := pre ++ s.frame }

theorem getArgLocs_cons (type : MirType) (types : List MirType) (s : CallLoweringState) :
    cc.getArgLocs (type :: types) s =
      ((cc.getArgLoc type s).1 :: (cc.getArgLocs types (cc.getArgLoc type s).2).1,
        (cc.getArgLocs types (cc.getArgLoc type s).2).2) := rfl

/-- The decision does not look at the frame. -/
theorem getArgLoc_withPrefix (pre : List StackFrameObject) (type : MirType)
    (s : CallLoweringState) :
    cc.getArgLoc type (withPrefix pre s) = ((cc.getArgLoc type s).1.shift pre.length,
        withPrefix pre (cc.getArgLoc type s).2) := by
  by_cases hslots : cc.unifiedSlots ≠ []
  · cases h : cc.unifiedSlots[s.slotIndex]? <;>
      simp [getArgLoc, hslots, withPrefix, h, stackLoc,
        allocateStack, shift]
  · cases hfloat : isFloat type with
    | true =>
      cases h : cc.floatRegs[s.floatCursor]? <;>
        simp [getArgLoc, hslots, hfloat, withPrefix, h, stackLoc,
          allocateStack, shift]
    | false =>
      cases hint : isInteger type with
      | true =>
        cases h : cc.integerRegs[s.integerCursor]? <;>
          simp [getArgLoc, hslots, hfloat, hint, withPrefix, h, stackLoc,
            allocateStack, shift]
      | false =>
        cases h : (usableRegs cc (cc.resolveClassForType type))[s.allocated
              (cc.resolveClassForType type)]? <;>
          simp [getArgLoc, hslots, hfloat, hint, withPrefix, h, stackLoc,
            allocate, allocateStack,
            shift]

theorem getArgLocs_withPrefix (pre : List StackFrameObject) (types : List MirType)
    (s : CallLoweringState) :
    cc.getArgLocs types (withPrefix pre s) = ((cc.getArgLocs types s).1.map (·.shift pre.length),
        withPrefix pre (cc.getArgLocs types s).2) := by
  induction types generalizing s with
  | nil => rfl
  | cons type types ih => simp [getArgLocs, getArgLoc_withPrefix, ih]

/-- One argument either gets a register and leaves the frame, or gets the object
it adds to the frame. -/
theorem getArgLoc_cases (type : MirType) (s : CallLoweringState) :
    ((cc.getArgLoc type s).1.isReg = true ∧ (cc.getArgLoc type s).2.frame = s.frame) ∨
      (∃ size, (cc.getArgLoc type s).1 = .Stack size s.frame.length ∧
        (cc.getArgLoc type s).2.frame = s.frame ++ [⟨type, .Parameter⟩]) := by
  by_cases hslots : cc.unifiedSlots ≠ []
  · cases h : cc.unifiedSlots[s.slotIndex]? <;>
      simp [getArgLoc, hslots, h, stackLoc, allocateStack,
        isReg]
  · cases hfloat : isFloat type with
    | true =>
      cases h : cc.floatRegs[s.floatCursor]? <;>
        simp [getArgLoc, hslots, hfloat, h, stackLoc,
          allocateStack, isReg]
    | false =>
      cases hint : isInteger type with
      | true =>
        cases h : cc.integerRegs[s.integerCursor]? <;>
          simp [getArgLoc, hslots, hfloat, hint, h, stackLoc,
            allocateStack, isReg]
      | false =>
        cases h : (usableRegs cc (cc.resolveClassForType type))[s.allocated
              (cc.resolveClassForType type)]? <;>
          simp [getArgLoc, hslots, hfloat, hint, h, stackLoc,
            allocate, allocateStack,
            isReg]

theorem exists_frame_eq_append (types : List MirType) (s : CallLoweringState) :
    ∃ objs, (cc.getArgLocs types s).2.frame = s.frame ++ objs := by
  induction types generalizing s with
  | nil => exact ⟨[], by simp [getArgLocs]⟩
  | cons type types ih =>
    obtain ⟨objs, hobjs⟩ := ih (cc.getArgLoc type s).2
    rcases cc.getArgLoc_cases type s with ⟨-, hframe⟩ | ⟨size, -, hframe⟩
    · exact ⟨objs, by simp [getArgLocs, hobjs, hframe]⟩
    · exact ⟨⟨type, .Parameter⟩ :: objs, by simp [getArgLocs, hobjs, hframe]⟩

theorem stack_object_of_mem {types : List MirType} {s : CallLoweringState} {size object : ℕ}
    (h : ArgumentLocationDesc.Stack size object ∈ (cc.getArgLocs types s).1) :
    ∃ pre obj post, (cc.getArgLocs types s).2.frame = s.frame ++ (pre ++ obj :: post) ∧
      obj.isParameter = true ∧ object = (s.frame ++ pre).length := by
  induction types generalizing s with
  | nil => simp [getArgLocs] at h
  | cons type types ih =>
    have hstep := cc.getArgLoc_cases type s
    rw [getArgLocs_cons] at h
    rcases mem_cons.mp h with hhead | htail
    · rcases hstep with ⟨hreg, -⟩ | ⟨n, hloc, hframe⟩
      · rw [← hhead] at hreg
        cases hreg
      · obtain ⟨objs, hobjs⟩ := cc.exists_frame_eq_append types (cc.getArgLoc type s).2
        have hobject : object = s.frame.length := by
          rw [hloc] at hhead
          cases hhead
          rfl
        exact ⟨[], ⟨type, .Parameter⟩, objs, by simp [getArgLocs, hobjs, hframe], rfl,
          by simp [hobject]⟩
    · obtain ⟨pre, obj, post, hframe', hparam, hobject⟩ := ih htail
      rcases hstep with ⟨-, hframe⟩ | ⟨n, -, hframe⟩
      · exact ⟨pre, obj, post, by simp [getArgLocs, hframe', hframe], hparam,
          by simp [hobject, hframe]⟩
      · refine ⟨⟨type, .Parameter⟩ :: pre, obj, post, ?_, hparam, ?_⟩
        · simp [getArgLocs, hframe', hframe]
        · simp [hobject, hframe]

@[simp] theorem length_getArgLocs (types : List MirType) (s : CallLoweringState) :
    (cc.getArgLocs types s).1.length = types.length := by
  induction types generalizing s with
  | nil => rfl
  | cons type types ih => simp [getArgLocs, ih]

end CallingConvDesc

/-- A place an argument is passed in. -/
inductive Place
  | register (ref : MirRegisterRef)
  | memory (addr : ℤ) (sizeInBytes : ℕ)
  deriving DecidableEq, Repr

def Place.Disjoint : Place → Place → Prop
  | .register r, .register r' => r ≠ r'
  | .memory a n, .memory a' n' => a + n ≤ a' ∨ a' + n' ≤ a
  | _, _ => True

def placeOf (f : LoweredFrame) (m : Machine) : ArgumentLocationDesc → Place
  | .Reg ref _ => .register ref
  | .Stack sizeInBytes object => .memory (f.address m object) sizeInBytes

/-- A call: the frame of the caller when the call is lowered and what is added to
it later, what is added to the frame of the callee behind its parameters, the
saved registers of both, and the machine when the caller is entered. When the call
is reached, registers and memory may hold anything and the caller may have
allocated `dynamicBytes` on its stack. -/
structure CallScenario where
  conv : ShippedConv
  types : List MirType
  callerObjects : List StackFrameObject
  callerLaterObjects : List StackFrameObject
  calleeLaterObjects : List StackFrameObject
  callerUsedCalleeSaved : List MirRegisterRef
  calleeUsedCalleeSaved : List MirRegisterRef
  entry : Machine
  dynamicBytes : ℕ
  regs : MirRegisterRef → ℕ
  mem : ℤ → UInt8
  returnAddress : ℕ
  returnAddress_pos : 0 < returnAddress

namespace CallScenario

variable (c : CallScenario)

/-- The convention both sides are lowered with. -/
def cc : CallingConvDesc := c.conv.desc

def callerFrame : LoweredFrame :=
  lowerFrame c.cc c.callerUsedCalleeSaved
    ((processCallBlock c.cc c.callerObjects c.types).2 ++ c.callerLaterObjects)

def calleeFrame : LoweredFrame :=
  lowerFrame c.cc c.calleeUsedCalleeSaved
    ((processFunctionArguments c.cc [] c.types).2 ++ c.calleeLaterObjects)

def callerMachine : Machine :=
  let m := prologue c.cc.target c.callerFrame c.entry
  { m with regs := c.regs, mem := c.mem, sp := m.sp - c.dynamicBytes }

def machineAtCall (values : ℕ → ℕ) : Machine :=
  (processCallBlock c.cc c.callerObjects c.types).1.foldl
    (AbiMove.exec c.callerFrame values) c.callerMachine

def calleeMachine (values : ℕ → ℕ) : Machine :=
  prologue c.cc.target c.calleeFrame (call c.cc.target c.returnAddress (c.machineAtCall values))

/-- The value the callee receives as its parameter `i`. -/
def received (values : ℕ → ℕ) (i : ℕ) : ℕ :=
  ((processFunctionArguments c.cc [] c.types).1.foldl
    (AbiMove.exec c.calleeFrame values) (c.calleeMachine values)).params i

def callerLocs : List ArgumentLocationDesc :=
  (c.cc.getArgLocs c.types (CallLoweringState.new c.callerObjects)).1

def calleeLocs : List ArgumentLocationDesc :=
  (c.cc.getArgLocs c.types (CallLoweringState.new [])).1

/-- Where the caller puts the arguments. -/
def storePlaces (values : ℕ → ℕ) : List Place :=
  c.callerLocs.map (placeOf c.callerFrame (c.machineAtCall values))

/-- Where the callee takes its parameters from. -/
def loadPlaces (values : ℕ → ℕ) : List Place :=
  c.calleeLocs.map (placeOf c.calleeFrame (c.calleeMachine values))

/-- The values the arguments can have. -/
def Fits (values : ℕ → ℕ) : Prop :=
  ∀ i type, c.types[i]? = some type → values i < 2 ^ (8 * ((type.totalSizeInBits + 7) / 8))

/-- The bytes of an object of the caller's frame. -/
def callerObjectPlace (object : ℕ) : Place :=
  .memory (c.callerFrame.address c.callerMachine object)
    ((((processCallBlock c.cc c.callerObjects c.types).2 ++
      c.callerLaterObjects)[object]?.map fun o =>
        (o.type.totalSizeInBits + 7) / 8).getD 0)

/-- The objects of the caller's frame that are not arguments of this call. -/
def IsOther (object : ℕ) : Prop :=
  object < ((processCallBlock c.cc c.callerObjects c.types).2 ++
    c.callerLaterObjects).length ∧ ∀ size, .Stack size object ∉ c.callerLocs

/-- Caller and callee agree on the places of the arguments: they are the same on
both sides, different arguments have disjoint places, every parameter receives its
argument, and the outgoing arguments leave the caller's own objects alone. -/
structure ArgumentsArrive : Prop where
  places : ∀ values, c.Fits values → c.storePlaces values = c.loadPlaces values
  disjoint : ∀ values, c.Fits values → (c.loadPlaces values).Pairwise Place.Disjoint
  values : ∀ values, c.Fits values → ∀ i, i < c.types.length → c.received values i = values i
  others : ∀ values, c.Fits values → ∀ p ∈ c.storePlaces values,
    ∀ object, c.IsOther object → p.Disjoint (c.callerObjectPlace object)

theorem callerLocs_eq : c.callerLocs = c.calleeLocs.map (·.shift c.callerObjects.length) := by
  have h := c.cc.getArgLocs_withPrefix c.callerObjects c.types (new [])
  have hnew : withPrefix c.callerObjects (new []) =
      new c.callerObjects := by
    simp [withPrefix, new]
  rw [hnew] at h
  rw [callerLocs, h, calleeLocs]

theorem callerObjects_eq : (processCallBlock c.cc c.callerObjects c.types).2 =
      c.callerObjects ++ (processFunctionArguments c.cc [] c.types).2 := by
  have h := c.cc.getArgLocs_withPrefix c.callerObjects c.types (new [])
  have hnew : withPrefix c.callerObjects (new []) =
      new c.callerObjects := by
    simp [withPrefix, new]
  rw [hnew] at h
  simp [processCallBlock, processFunctionArguments, h, withPrefix]

/-- The moves of a call change neither the stack pointer nor the frame pointer. -/
theorem exec_storeMoves (f : LoweredFrame) (values : ℕ → ℕ)
    (locs : List (ArgumentLocationDesc × ℕ)) (m : Machine) :
    ((locs.map fun p => assignToLocation p.2 p.1).foldl (AbiMove.exec f values) m).sp = m.sp ∧
      ((locs.map fun p => assignToLocation p.2 p.1).foldl (AbiMove.exec f values) m).fp = m.fp := by
  induction locs generalizing m with
  | nil => exact ⟨rfl, rfl⟩
  | cons p locs ih =>
    obtain ⟨loc, i⟩ := p
    have htail := ih (AbiMove.exec f values m (assignToLocation i loc))
    cases loc with
    | Reg ref size | Stack size object => simpa [assignToLocation, AbiMove.exec] using htail

theorem machineAtCall_sp (values : ℕ → ℕ) : (c.machineAtCall values).sp = c.callerMachine.sp :=
  (exec_storeMoves c.callerFrame values _ c.callerMachine).1

theorem machineAtCall_fp (values : ℕ → ℕ) : (c.machineAtCall values).fp = c.callerMachine.fp :=
  (exec_storeMoves c.callerFrame values _ c.callerMachine).2

theorem calleeMachine_fp_lt (hcaller : c.callerFrame.hasFramePointer = true)
    (hcallee : c.calleeFrame.hasFramePointer = true) (values : ℕ → ℕ) :
    (c.calleeMachine values).fp < (c.machineAtCall values).fp := by
  have hfp := prologue_call_fp c.cc.target hcallee c.returnAddress (c.machineAtCall values)
  have hsp := prologue_sp_le_fp c.cc.target hcaller c.entry
  have hcallerSp : c.callerMachine.sp =
      (prologue c.cc.target c.callerFrame c.entry).sp - c.dynamicBytes := rfl
  have hcallerFp : c.callerMachine.fp = (prologue c.cc.target c.callerFrame c.entry).fp := rfl
  rw [calleeMachine, hfp, machineAtCall_sp, machineAtCall_fp]
  omega

theorem loadAddress_lt_storeAddress {size object : ℕ}
    (h : ArgumentLocationDesc.Stack size object ∈ c.calleeLocs) (values : ℕ → ℕ) :
    c.calleeFrame.address (c.calleeMachine values) object <
      c.callerFrame.address (c.machineAtCall values) (c.callerObjects.length + object) := by
  obtain ⟨pre, obj, post, hframe, hparam, hobject⟩ := c.cc.stack_object_of_mem h
  simp only [new, nil_append] at hframe hobject
  have hcalleeObjs : (processFunctionArguments c.cc [] c.types).2 = pre ++ obj :: post := by
    simpa [processFunctionArguments, new] using hframe
  have hload : c.calleeFrame.layout.offsets[object]? =
      some ((alignMask obj.objAlign (incomingArea c.cc pre) : ℕ) : ℤ) := by
    rw [hobject, calleeFrame, hcalleeObjs, append_assoc, cons_append]
    exact calculateFrameLayout_parameter c.cc _ pre _ hparam
  have hstore : c.callerFrame.layout.offsets[c.callerObjects.length + object]? =
      some ((alignMask obj.objAlign (incomingArea c.cc (c.callerObjects ++ pre)) : ℕ) : ℤ) := by
    have hget := calculateFrameLayout_parameter c.cc c.callerUsedCalleeSaved
      (c.callerObjects ++ pre) (post ++ c.callerLaterObjects) hparam
    rw [hobject, ← length_append, callerFrame, callerObjects_eq, hcalleeObjs]
    simpa [lowerFrame] using hget
  have hcallee : c.calleeFrame.hasFramePointer = true := by
    simp [calleeFrame, lowerFrame, hcalleeObjs]
  have hcaller : c.callerFrame.hasFramePointer = true := by
    simp [callerFrame, lowerFrame, callerObjects_eq, hcalleeObjs]
  have hfp := c.calleeMachine_fp_lt hcaller hcallee values
  have harea := alignUp.mono obj.objAlign (incomingArea_le_append c.cc c.callerObjects pre)
  rw [← alignMask_objAlign, ← alignMask_objAlign] at harea
  simp only [LoweredFrame.address, hcallee, hcaller, getD_eq_getElem?_getD, hload,
    hstore, Option.getD_some, if_true]
  omega

/-- Agreement leaves no room for a stack argument. -/
theorem isReg_of_arrive (h : c.ArgumentsArrive) : ∀ loc ∈ c.calleeLocs, loc.isReg = true := by
  intro loc hloc
  cases loc with
  | Reg ref size => rfl
  | Stack size object =>
    have hfits : c.Fits fun _ => 0 := fun _ _ _ => Nat.two_pow_pos _
    have hplaces := h.places _ hfits
    obtain ⟨i, hi, hget⟩ := getElem_of_mem hloc
    have hlt := c.loadAddress_lt_storeAddress hloc fun _ => 0
    have hcall : c.calleeLocs[i]? = some (.Stack size object) := by
      rw [getElem?_eq_getElem hi, hget]
    have hat := congrArg (·[i]?) hplaces
    simp only [storePlaces, loadPlaces, callerLocs_eq, map_map,
      getElem?_map, hcall, Option.map_some, Function.comp_apply,
      shift, placeOf, Option.some.injEq, Place.memory.injEq,
      and_true] at hat
    exact absurd hat hlt.ne'

/-- The registers the callee takes its parameters from. -/
def registers : List MirRegisterRef := c.calleeLocs.filterMap ArgumentLocationDesc.reg?

theorem getElem?_filterMap_reg? {locs : List ArgumentLocationDesc}
    (h : ∀ loc ∈ locs, loc.isReg = true) (i : ℕ) :
    (locs.filterMap ArgumentLocationDesc.reg?)[i]? = locs[i]?.bind ArgumentLocationDesc.reg? := by
  induction locs generalizing i with
  | nil => simp
  | cons loc locs ih =>
    have htail := ih fun l hl => h l (mem_cons_of_mem _ hl)
    cases loc with
    | Stack size object =>
      exact absurd (h (.Stack size object) mem_cons_self) Bool.false_ne_true
    | Reg ref size =>
      cases i with
      | zero => simp [reg?]
      | succ i => simpa [reg?] using htail i

theorem registers_getElem? (h : ∀ loc ∈ c.calleeLocs, loc.isReg = true) (i : ℕ) :
    c.registers[i]? = c.calleeLocs[i]?.bind ArgumentLocationDesc.reg? :=
  getElem?_filterMap_reg? h i

theorem shift_of_isReg {loc : ArgumentLocationDesc} (h : loc.isReg = true) (n : ℕ) :
    loc.shift n = loc := by
  cases loc with
  | Reg ref size => rfl
  | Stack size object => cases h

theorem callerLocs_of_isReg (h : ∀ loc ∈ c.calleeLocs, loc.isReg = true) :
    c.callerLocs = c.calleeLocs := by
  rw [callerLocs_eq]
  have hmap := map_congr_left fun loc hloc =>
    shift_of_isReg (h loc hloc) c.callerObjects.length
  rw [hmap, map_id']

theorem placeOf_of_isReg {locs : List ArgumentLocationDesc}
    (h : ∀ loc ∈ locs, loc.isReg = true) (f : LoweredFrame) (m : Machine) :
    locs.map (placeOf f m) = (locs.filterMap ArgumentLocationDesc.reg?).map .register := by
  induction locs with
  | nil => rfl
  | cons loc locs ih =>
    have htail := ih fun l hl => h l (mem_cons_of_mem _ hl)
    cases loc with
    | Reg ref size => simp [placeOf, reg?, htail]
    | Stack size object => exact absurd (h (.Stack size object) mem_cons_self) Bool.false_ne_true

section

variable {locs : List ArgumentLocationDesc} (f : LoweredFrame) (values : ℕ → ℕ)
  (hreg : ∀ loc ∈ locs, loc.isReg = true) (k : ℕ)
include f values hreg k

/-- Moves to pairwise different registers: each keeps its value. -/
theorem exec_storeMoves_regs (m : Machine) :
    let m' := ((locs.zipIdx k).map fun p => assignToLocation p.2 p.1).foldl
      (AbiMove.exec f values) m
    m'.mem = m.mem ∧ (∀ r, r ∉ locs.filterMap reg? → m'.regs r = m.regs r) ∧
      ((locs.filterMap reg?).Nodup →
        ∀ i r, locs[i]?.bind reg? = some r → m'.regs r = values (k + i)) := by
  induction locs generalizing k m with
  | nil => simp
  | cons loc locs ih =>
    cases loc with
    | Stack size object =>
      exact absurd (hreg (.Stack size object) mem_cons_self) Bool.false_ne_true
    | Reg ref size =>
      obtain ⟨hmem, hother, hvalue⟩ :=
        ih (fun l hl => hreg l (mem_cons_of_mem _ hl)) (k + 1) (m.setReg ref (values k))
      have hhead : AbiMove.exec f values m (assignToLocation k (.Reg ref size)) =
          m.setReg ref (values k) := rfl
      have hregs : (Reg ref size :: locs).filterMap reg? =
            ref :: locs.filterMap reg? := rfl
      simp only [zipIdx_cons, map_cons, foldl_cons, hhead, hregs]
      refine ⟨hmem, ?_, ?_⟩
      · intro r hr
        have hne : r ≠ ref := fun h => hr (by simp [h])
        rw [hother r fun h => hr (mem_cons_of_mem _ h), Machine.setReg_regs_of_ne hne]
      · intro hnodup i r hi
        obtain ⟨hnotin, htail⟩ := nodup_cons.mp hnodup
        cases i with
        | zero =>
          obtain rfl : ref = r := by simpa [reg?] using hi
          rw [hother ref hnotin, Machine.setReg_regs_self, Nat.add_zero]
        | succ i =>
          rw [hvalue htail i r (by simpa using hi)]
          congr 1
          omega

/-- Moves from registers: each parameter holds what its register holds. -/
theorem exec_loadMoves_params (m : Machine) :
    let m' := ((locs.zipIdx k).map fun p => assignFromLocation p.2 p.1).foldl
      (AbiMove.exec f values) m
    (∀ p, p < k → m'.params p = m.params p) ∧
      ∀ i r, locs[i]?.bind reg? = some r → m'.params (k + i) = m.regs r := by
  induction locs generalizing k m with
  | nil => simp
  | cons loc locs ih =>
    cases loc with
    | Stack size object =>
      exact absurd (hreg (.Stack size object) mem_cons_self) Bool.false_ne_true
    | Reg ref size =>
      obtain ⟨hbelow, hvalue⟩ :=
        ih (fun l hl => hreg l (mem_cons_of_mem _ hl)) (k + 1)
          (AbiMove.exec f values m (.movFromReg k ref))
      have hhead : assignFromLocation k (.Reg ref size) = .movFromReg k ref := rfl
      simp only [zipIdx_cons, map_cons, foldl_cons, hhead]
      constructor
      · intro p hp
        rw [hbelow p (by omega)]
        simp [AbiMove.exec, hp.ne]
      · intro i r hi
        cases i with
        | zero =>
          obtain rfl : ref = r := by simpa [reg?] using hi
          have hat := hbelow k (Nat.lt_succ_self k)
          exact hat.trans (by simp [AbiMove.exec])
        | succ i =>
          have hat := hvalue i r (by simpa using hi)
          rw [show k + (i + 1) = k + 1 + i by omega, hat]
          rfl

end

variable {r : MirRegisterRef}

section

variable (h : ∀ loc ∈ c.calleeLocs, loc.isReg = true)
include h

/-- A parameter that comes in a register receives what the prologue left in it. -/
theorem received_eq {i : ℕ} (hi : c.registers[i]? = some r) (values : ℕ → ℕ) :
    c.received values i = (c.calleeMachine values).regs r := by
  rw [c.registers_getElem? h] at hi
  have hparams := (exec_loadMoves_params c.calleeFrame values h 0 (c.calleeMachine values)).2 i r hi
  rwa [Nat.zero_add] at hparams

theorem machineAtCall_regs (hnodup : c.registers.Nodup) {i : ℕ} (hi : c.registers[i]? = some r)
    (values : ℕ → ℕ) : (c.machineAtCall values).regs r = values i := by
  rw [c.registers_getElem? h] at hi
  have hcaller := c.callerLocs_of_isReg h
  have hregs := (exec_storeMoves_regs c.callerFrame values h 0 c.callerMachine).2.2 hnodup i r hi
  rw [Nat.zero_add, ← hcaller] at hregs
  exact hregs

theorem machineAtCall_mem (values : ℕ → ℕ) : (c.machineAtCall values).mem = c.mem := by
  have hmem := (exec_storeMoves_regs c.callerFrame values h 0 c.callerMachine).1
  rw [← c.callerLocs_of_isReg h] at hmem
  exact hmem

end

/-- The size of the callee's frame decides whether its prologue probes the stack. -/
def calleeFrameSize : ℕ := c.calleeFrame.layout.totalFrameSize

/-- Enough for agreement: registers for all arguments, pairwise different, and none
that changes on the way. -/
theorem arrive_of_registers (h : ∀ loc ∈ c.calleeLocs, loc.isReg = true)
    (hnodup : c.registers.Nodup)
    (hkept : ∀ r ∈ c.registers, r ∉ clobbered c.cc.target c.calleeFrameSize) :
    c.ArgumentsArrive where
  places values _ := by
    rw [storePlaces, loadPlaces, c.callerLocs_of_isReg h, placeOf_of_isReg h, placeOf_of_isReg h]
  disjoint values _ := by
    rw [loadPlaces, placeOf_of_isReg h, pairwise_map]
    exact hnodup
  values values _ i hi := by
    have hlength : i < c.calleeLocs.length := by
      rw [calleeLocs, length_getArgLocs]
      exact hi
    obtain ⟨r, hr⟩ : ∃ r, c.registers[i]? = some r := by
      rw [c.registers_getElem? h, getElem?_eq_getElem hlength]
      have hloc := h _ (getElem_mem hlength)
      cases hget : c.calleeLocs[i] with
      | Reg ref size => exact ⟨ref, rfl⟩
      | Stack size object => simp [hget, isReg] at hloc
    rw [c.received_eq h hr, calleeMachine,
      prologue_call_regs _ _ _ _ (hkept r (mem_of_getElem? hr)),
      c.machineAtCall_regs h hnodup hr]
  others values _ p hp object _ := by
    rw [storePlaces, c.callerLocs_of_isReg h, placeOf_of_isReg h] at hp
    obtain ⟨r, -, rfl⟩ := mem_map.mp hp
    trivial

theorem lt_length_of_registers {i : ℕ} (hi : c.registers[i]? = some r) : i < c.types.length := by
  have hlen := (List.getElem?_eq_some_iff.mp hi).1
  have hle := List.length_filterMap_le reg? c.calleeLocs
  rw [calleeLocs, length_getArgLocs] at hle
  exact hlen.trans_le hle

theorem fits_zero : c.Fits fun _ => 0 := fun _ _ _ => Nat.two_pow_pos _

theorem nodup_of_arrive (h : c.ArgumentsArrive) : c.registers.Nodup := by
  have hreg := c.isReg_of_arrive h
  have hdisjoint := h.disjoint _ c.fits_zero
  rwa [loadPlaces, placeOf_of_isReg hreg, pairwise_map] at hdisjoint

/-- The return address register of RISC-V is overwritten by the call. -/
theorem raReg_notMem_of_arrive (h : c.ArgumentsArrive) (htarget : c.cc.target = .RiscV64) :
    raReg ∉ c.registers := by
  intro hmem
  have hreg := c.isReg_of_arrive h
  obtain ⟨i, hi⟩ := getElem?_of_mem hmem
  have hlt := c.lt_length_of_registers hi
  have hvalue := h.values _ c.fits_zero i hlt
  rw [c.received_eq hreg hi, calleeMachine, htarget, prologue_call_raReg] at hvalue
  exact c.returnAddress_pos.ne' hvalue

/-- The scratch register of the stack probes holds the same word whatever the
arguments are, so no argument with two values can arrive in it. -/
theorem probeReg_notAt_of_arrive (h : c.ArgumentsArrive) (htarget : c.cc.target = .X86_64)
    (hframe : 4096 ≤ c.calleeFrameSize) {i : ℕ} {type : MirType}
    (htype : c.types[i]? = some type) (hbits : 0 < type.totalSizeInBits) :
    c.registers[i]? ≠ some probeReg := by
  intro hi
  have hreg := c.isReg_of_arrive h
  have hlt := c.lt_length_of_registers hi
  -- Two valuations that differ at this argument only.
  have hfits : c.Fits fun j => if j = i then 1 else 0 := by
    intro j t ht
    rcases Decidable.em (j = i) with rfl | hj
    · obtain rfl : type = t := Option.some.inj (htype.symm.trans ht)
      simp only [if_true]
      exact Nat.one_lt_two_pow (by omega)
    · simp [hj]
  have hzero := h.values _ c.fits_zero i hlt
  have hone := h.values _ hfits i hlt
  rw [c.received_eq hreg hi] at hzero hone
  have hsame : (c.calleeMachine fun _ => 0).regs probeReg =
      (c.calleeMachine fun j => if j = i then 1 else 0).regs probeReg := by
    rw [calleeMachine, calleeMachine, htarget]
    apply prologue_call_probeReg hframe
    · rw [c.machineAtCall_mem hreg, c.machineAtCall_mem hreg]
    · rw [machineAtCall_sp, machineAtCall_sp]
    · rw [machineAtCall_fp, machineAtCall_fp]
  rw [hsame, hone] at hzero
  simp at hzero

end CallScenario

end EzPacker.Abi
