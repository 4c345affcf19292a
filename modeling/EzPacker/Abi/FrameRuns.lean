import EzPacker.Abi.CallLowering

/-!
# Runs of functions with lowered frames

A function comes to the frame lowerer with physical registers. Its instructions are
dynamic allocations, calls, returns, branches and all others, of which only the
registers they write matter; what they write to memory is anything but bytes of the
frame that belong to no object of it. The lowerer puts the prologue in front of
the first block, the epilogue in front of every return and code in the place of
every dynamic allocation. A run goes through the lowered code from the start of the
first block.

Places in the frame are displacements from the stack pointer at entry.
-/

namespace EzPacker.Abi

open List

open WordMachine (disp)

/-- The bytes an access to the whole object touches. -/
def StackFrameObject.bytes (obj : StackFrameObject) : ℕ :=
  (obj.type.totalSizeInBits + 7) / 8

/-- A call names the convention of the callee. -/
inductive BodyInst
  | dalloc (dst src : MirRegisterRef)
  | call (callee : ShippedConv)
  | ret
  | branch (targets : List ℕ) (conditional : Bool)
  | other (defs : List MirRegisterRef)
  deriving DecidableEq, Repr

/-- The registers an instruction writes, those a call clobbers apart. -/
def BodyInst.defs : BodyInst → List MirRegisterRef
  | dalloc dst _ => [dst]
  | other defs => defs
  | call _ | ret | branch _ _ => []

/-- `dalloc` is the code of a dynamic allocation: the register of its size and the
one of its result are kept in sight. -/
inductive LoweredInst
  | code (insts : List FrameInst)
  | dalloc (dst src : MirRegisterRef) (insts : List FrameInst)
  | call (callee : ShippedConv)
  | ret
  | branch (targets : List ℕ) (conditional : Bool)
  | other (defs : List MirRegisterRef)
  deriving DecidableEq, Repr

/-- A register that the allocator gives to values of a function with the saved
registers `used`. -/
structure Assignable (conv : ShippedConv) (hasFramePointer : Bool)
    (used : List MirRegisterRef) (r : MirRegisterRef) : Prop where
  ne_sp : r ≠ conv.spReg
  ne_fp : hasFramePointer = true → r ≠ conv.fpReg
  used : r ∈ conv.calleeSavedRegs → r ∈ used

instance (conv : ShippedConv) (hasFramePointer : Bool) (used : List MirRegisterRef)
    (r : MirRegisterRef) : Decidable (Assignable conv hasFramePointer used r) :=
  decidable_of_iff (r ≠ conv.spReg ∧ (hasFramePointer = true → r ≠ conv.fpReg) ∧
      (r ∈ conv.calleeSavedRegs → r ∈ used))
    ⟨fun h => ⟨h.1, h.2.1, h.2.2⟩, fun h => ⟨h.ne_sp, h.ne_fp, h.used⟩⟩

/-- A function as the frame lowerer gets it: the saved registers it has recorded
without repetition, instructions that write registers of its own, and calls of
functions of its target. -/
structure FrameFunction where
  conv : ShippedConv
  objects : List StackFrameObject
  used : List MirRegisterRef
  blocks : List (List BodyInst)
  used_preserved : ∀ r ∈ used, r ∈ conv.calleeSavedRegs
  used_nodup : used.Nodup
  defs_assignable : ∀ b ∈ blocks, ∀ i ∈ b, ∀ r ∈ i.defs, Assignable conv (!objects.isEmpty) used r
  callee_target : ∀ b ∈ blocks, ∀ callee, .call callee ∈ b → callee.target = conv.target

theorem preserved_nil (conv : ShippedConv) :
    ∀ r ∈ ([] : List MirRegisterRef), r ∈ conv.calleeSavedRegs := forall_mem_nil _

/-- The bytes of the words that a prologue with a frame pointer saves first: the
frame pointer, and on RISC-V the return address above it. -/
def linkSize : TargetArch → ℕ
  | .X86_64 => 8
  | .RiscV64 => 16

/-- The bytes the stack pointer goes down by for one saved register. -/
def saveSize : TargetArch → ℕ
  | .X86_64 => 8
  | .RiscV64 => 16

/-- The displacement of the frame pointer. -/
def fpDisp : TargetArch → ℤ
  | .X86_64 => -8
  | .RiscV64 => 0

/-- The first displacement above the frame, the return address of x86-64 in it. -/
def frameTop : TargetArch → ℤ
  | .X86_64 => 8
  | .RiscV64 => 0

namespace FrameFunction

variable (f : FrameFunction)

def frame : LoweredFrame := lowerFrame f.conv.desc f.used f.objects

def pushed : List MirRegisterRef := pushedRegs f.conv.target f.frame

def hasFramePointer : Bool := f.frame.hasFramePointer

/-- The bytes the prologue takes off the stack pointer at once. -/
def allocSize : ℕ :=
  match f.conv.target with
  | .X86_64 => f.frame.layout.totalFrameSize
  | .RiscV64 => RiscV64.frameSize f.frame

def linkArea : ℕ := if f.hasFramePointer then linkSize f.conv.target else 0

/-- The displacement of the stack pointer behind the prologue. -/
def frameBottom : ℤ :=
  -(f.linkArea + f.allocSize + saveSize f.conv.target * f.pushed.length : ℕ)

def lowerInst : BodyInst → List LoweredInst
  | .dalloc dst src => [.dalloc dst src (lowerDAlloc f.conv.target dst src)]
  | .ret => [.code (insertEpilogue f.frame f.conv.target), .ret]
  | .call callee => [.call callee]
  | .branch targets conditional => [.branch targets conditional]
  | .other defs => [.other defs]

def lowerBlock (insts : List BodyInst) : List LoweredInst :=
  insts.flatMap f.lowerInst

/-- The code of the function behind the frame lowerer. -/
def lowered : List (List LoweredInst) :=
  match f.blocks with
  | [] => []
  | entry :: blocks =>
    (.code (insertPrologue f.frame f.conv.target) :: f.lowerBlock entry) :: blocks.map f.lowerBlock

/-- The byte at the displacement `e` is one of a local object. -/
def IsLocalByte (e : ℤ) : Prop :=
  ∃ p ∈ f.objects.zip f.frame.layout.offsets, p.1.isParameter = false ∧
    fpDisp f.conv.target + p.2 ≤ e ∧ e < fpDisp f.conv.target + p.2 + p.1.bytes

/-- The byte at `e` is in the frame and no object has it. -/
def IsPrivate (e : ℤ) : Prop :=
  f.frameBottom ≤ e ∧ e < frameTop f.conv.target ∧ ¬ f.IsLocalByte e

end FrameFunction

/-- `allocated` counts the bytes of the dynamic allocations of the run. -/
structure FrameConfig where
  block : ℕ
  rest : List LoweredInst
  cpu : Cpu
  allocated : ℕ

variable {c' : FrameConfig} {ok : FrameConfig → Prop}

namespace FrameFunction

variable (f : FrameFunction)

/-- What an instruction that writes the registers `defs` does. -/
structure OrdinaryEffect (entrySp : BitVec 64) (defs : List MirRegisterRef)
    (m m' : Cpu) : Prop where
  regs : ∀ r ∉ defs, m'.regs r = m.regs r
  mem : ∀ e, f.IsPrivate e → m'.mem (disp entrySp e) = m.mem (disp entrySp e)

/-- What a call does: the callee owns what is below the stack pointer, and the
shadow space of its convention above it. -/
structure CallEffect (entrySp : BitVec 64) (callee : ShippedConv) (m m' : Cpu) :
    Prop where
  sp : m'.regs f.conv.spReg = m.regs f.conv.spReg
  regs : ∀ r ∈ callee.calleeSavedRegs, m'.regs r = m.regs r
  mem : ∀ e, f.IsPrivate e →
    (m.regs f.conv.spReg - entrySp).toInt + callee.desc.shadowSpaceSize ≤ e →
    m'.mem (disp entrySp e) = m.mem (disp entrySp e)

inductive Step (entrySp : BitVec 64) : FrameConfig → FrameConfig → Prop
  | code (b insts rest m n) : Step entrySp ⟨b, .code insts :: rest, m, n⟩ ⟨b, rest, exec insts m, n⟩
  | dalloc (b dst src insts rest m n) : Step entrySp ⟨b, .dalloc dst src insts :: rest, m, n⟩
        ⟨b, rest, exec insts m, n + (m.regs src).toNat⟩
  | call (b callee rest m m' n) (heffect : f.CallEffect entrySp callee m m') :
      Step entrySp ⟨b, .call callee :: rest, m, n⟩ ⟨b, rest, m', n⟩
  | other (b defs rest m m' n) (heffect : f.OrdinaryEffect entrySp defs m m') :
      Step entrySp ⟨b, .other defs :: rest, m, n⟩ ⟨b, rest, m', n⟩
  | taken (b t targets conditional insts rest m n) (ht : t ∈ targets)
      (hinsts : f.lowered[t]? = some insts) :
      Step entrySp ⟨b, .branch targets conditional :: rest, m, n⟩ ⟨t, insts, m, n⟩
  | notTaken (b targets rest m n) :
      Step entrySp ⟨b, .branch targets true :: rest, m, n⟩ ⟨b, rest, m, n⟩
  | fallThrough (b insts m n) (hinsts : f.lowered[b + 1]? = some insts) :
      Step entrySp ⟨b, [], m, n⟩ ⟨b + 1, insts, m, n⟩

def start (m : Cpu) : FrameConfig := ⟨0, f.lowered.headD [], m, 0⟩

/-- The states that runs from the entry state `m` reach. -/
def Reaches (m : Cpu) : FrameConfig → Prop :=
  Relation.ReflTransGen (f.Step (m.regs f.conv.spReg)) (f.start m)

/-- The states that runs reach all of whose states meet the condition `ok`. -/
def ReachesVia (ok : FrameConfig → Prop) (m : Cpu) (c : FrameConfig) : Prop :=
  Relation.ReflTransGen (fun c c' => ok c ∧ f.Step (m.regs f.conv.spReg) c c') (f.start m) c ∧ ok c

variable {f}

theorem ReachesVia.start {m : Cpu} (h : ok (f.start m)) : f.ReachesVia ok m (f.start m) :=
  ⟨.refl, h⟩

theorem ReachesVia.step {m : Cpu} {c : FrameConfig} (hrun : f.ReachesVia ok m c)
    (hstep : f.Step (m.regs f.conv.spReg) c c') (hok : ok c') : f.ReachesVia ok m c' :=
  ⟨hrun.1.tail ⟨hrun.2, hstep⟩, hok⟩

end FrameFunction

/-- The largest frame whose size fits the immediate that subtracts it. -/
def maxAlloc : TargetArch → ℕ
  | .X86_64 => 2 ^ 31 - 1
  | .RiscV64 => 2048

namespace FrameFunction

variable (f : FrameFunction)

/-- A write to the register leaves the way back to the caller: with a frame pointer
the return address of RISC-V is in the frame. -/
def KeepsLink (r : MirRegisterRef) : Prop :=
  f.conv.target = .RiscV64 → f.hasFramePointer = true ∨ r ≠ raReg

/-- A call that the frame is made for: there is room for the shadow space at the
stack pointer, and what the callee does not preserve is saved. -/
structure CallOk (callee : ShippedConv) : Prop where
  shadow : callee.desc.shadowSpaceSize = 0 ∨
    (f.pushed = [] ∧ callee.desc.shadowSpaceSize ≤ f.allocSize)
  preserved : ∀ r ∈ f.conv.calleeSavedRegs, r ∈ callee.calleeSavedRegs ∨ r ∈ f.used ∨
    r = f.conv.spReg
  link : f.KeepsLink raReg

/-- The condition on a state that the next instruction of it respects the frame. -/
def StepOk (c : FrameConfig) : Prop :=
  match c.rest with
  | .dalloc dst src _ :: _ =>
    ((c.cpu.regs src).toNat = 0 ∨ (f.hasFramePointer = true ∧ f.pushed = [])) ∧
      c.allocated + (c.cpu.regs src).toNat < 2 ^ 62 ∧ f.KeepsLink dst
  | .call callee :: _ => f.CallOk callee
  | .branch targets _ :: _ => 0 ∉ targets
  | .other defs :: _ => ∀ r ∈ defs, f.KeepsLink r
  | _ => True

/-- The bytes of the saved words: those under the entry stack pointer, and those of
the saved registers at the bottom of the frame. -/
def IsSaved (e : ℤ) : Prop :=
  (-f.linkArea ≤ e ∧ e < 0) ∨ (f.frameBottom ≤ e ∧
      e < f.frameBottom + (saveSize f.conv.target * f.pushed.length : ℕ))

/-- The frame is small enough for the field of its size, and no local object
reaches up to the words saved at entry. -/
structure Fits : Prop where
  alloc : f.allocSize ≤ maxAlloc f.conv.target
  clear : ∀ p ∈ f.objects.zip f.frame.layout.offsets, p.1.isParameter = false →
    fpDisp f.conv.target + p.2 + p.1.bytes ≤ -(f.linkArea : ℤ)

/-- The state in the body of a function, between the prologue and an epilogue. -/
structure BodyState (m₀ : Cpu) (n : ℕ) (m : Cpu) : Prop where
  sp : m.regs f.conv.spReg = disp (m₀.regs f.conv.spReg) (f.frameBottom - n)
  small : n < 2 ^ 62
  allocated : n = 0 ∨ (f.hasFramePointer = true ∧ f.pushed = [])
  fp : f.hasFramePointer = true →
    m.regs f.conv.fpReg = disp (m₀.regs f.conv.spReg) (fpDisp f.conv.target)
  unused : ∀ r ∈ f.conv.calleeSavedRegs, r ∉ f.used → r ≠ f.conv.spReg →
    (f.hasFramePointer = true → r ≠ f.conv.fpReg) → m.regs r = m₀.regs r
  link : f.conv.target = .RiscV64 → f.hasFramePointer = false → m.regs raReg = m₀.regs raReg
  saved : ∀ e, f.IsSaved e → m.mem (disp (m₀.regs f.conv.spReg) e) =
      (exec (insertPrologue f.frame f.conv.target) m₀).mem (disp (m₀.regs f.conv.spReg) e)

/-- What the caller finds again: the stack pointer, the registers the convention
preserves, and on RISC-V the return address. -/
structure Restored (m₀ m : Cpu) : Prop where
  sp : m.regs f.conv.spReg = m₀.regs f.conv.spReg
  fp : m.regs f.conv.fpReg = m₀.regs f.conv.fpReg
  preserved : ∀ r ∈ f.conv.calleeSavedRegs, m.regs r = m₀.regs r
  link : f.conv.target = .RiscV64 → m.regs raReg = m₀.regs raReg

/-- Where a run that meets the condition can be: at the entry, in the body, or at a
return behind its epilogue. -/
inductive Located (m₀ : Cpu) : FrameConfig → Prop
  | entry (entry : List BodyInst) (hentry : entry ∈ f.blocks) :
      Located m₀ ⟨0, .code (insertPrologue f.frame f.conv.target) :: f.lowerBlock entry, m₀, 0⟩
  | body (b : ℕ) (insts : List BodyInst) (m : Cpu) (n : ℕ)
      (hinsts : ∀ i ∈ insts, ∃ block ∈ f.blocks, i ∈ block)
      (hbody : f.BodyState m₀ n m) : Located m₀ ⟨b, f.lowerBlock insts, m, n⟩
  | atReturn (b : ℕ) (rest : List LoweredInst) (m : Cpu) (n : ℕ)
      (hrestored : f.Restored m₀ m) : Located m₀ ⟨b, .ret :: rest, m, n⟩

variable {f}

theorem fpReg_preserved (conv : ShippedConv) : conv.fpReg ∈ conv.calleeSavedRegs := by
  cases conv <;> decide

theorem fpReg_ne_spReg (conv : ShippedConv) : conv.fpReg ≠ conv.spReg := by
  cases conv <;> decide

theorem spReg_ne_raReg {conv : ShippedConv} (h : conv.target = .RiscV64) : raReg ≠ conv.spReg := by
  rw [ShippedConv.spReg, h]
  decide

theorem pushed_subset : f.pushed ⊆ f.used := filter_subset_self _

theorem length_used_le : f.used.length ≤ 25 := by
  have hused : f.used.length ≤ f.conv.calleeSavedRegs.length :=
    (f.used_nodup.subperm f.used_preserved).length_le
  have hlist : f.conv.calleeSavedRegs.length ≤ 25 := by cases f.conv <;> decide
  omega

theorem length_pushed_le : f.pushed.length ≤ 25 :=
  (length_filter_le _ _).trans length_used_le

theorem length_pushed_lt : saveSize f.conv.target * f.pushed.length < 2 ^ 10 := by
  have hlen := length_pushed_le (f := f)
  cases f.conv.target <;> simp only [saveSize] <;> omega

theorem stackAlignment_eq (conv : ShippedConv) : conv.desc.stackAlignment = 2 ^ 4 := by
  cases conv <;> rfl

theorem totalFrameSize_le_allocSize : f.frame.layout.totalFrameSize ≤ f.allocSize := by
  unfold allocSize
  cases f.conv.target with
  | X86_64 => exact le_rfl
  | RiscV64 =>
    have hle := alignUp.le_alignUp (2 ^ 4) f.frame.layout.totalFrameSize
    rwa [← alignUp.mask_two_pow] at hle

theorem room_le_allocSize :
    (layoutObjects f.conv.desc.stackGrowsDownwards (16 + f.conv.desc.shadowSpaceSize)
      (f.used.length * stackSlotSize) f.objects).2 + f.conv.desc.shadowSpaceSize ≤ f.allocSize :=
  (calculateFrameLayout_room (stackAlignment_eq f.conv) f.used f.objects).trans
    totalFrameSize_le_allocSize

theorem growsDownwards (conv : ShippedConv) : conv.desc.stackGrowsDownwards = true := by
  cases conv <;> rfl

/-- The locals lie in the area that the prologue allocates. -/
theorem neg_allocSize_le {p : StackFrameObject × ℤ} (hp : p ∈ f.objects.zip f.frame.layout.offsets)
    (hlocal : p.1.isParameter = false) : -(f.allocSize : ℤ) ≤ p.2 := by
  have hroom := room_le_allocSize (f := f)
  rw [growsDownwards] at hroom
  have hp' : p ∈ f.objects.zip (layoutObjects true (16 + f.conv.desc.shadowSpaceSize)
      (f.used.length * stackSlotSize) f.objects).1 := by
    rw [← growsDownwards f.conv]
    exact hp
  have hge := layoutObjects_local_ge f.objects _ _ hp' hlocal
  omega

theorem hasFramePointer_of_mem {p : StackFrameObject × ℤ}
    (hp : p ∈ f.objects.zip f.frame.layout.offsets) : f.hasFramePointer = true := by
  have hmem : p.1 ∈ f.objects := (of_mem_zip hp).1
  change (!f.objects.isEmpty) = true
  cases hobj : f.objects with
  | nil => simp [hobj] at hmem
  | cons obj objs => rfl

/-- The frame of a function whose objects stay clear of the words saved at entry
keeps its saved words from the objects. -/
theorem isPrivate_of_isSaved (hfits : f.Fits) {e : ℤ} (he : f.IsSaved e) : f.IsPrivate e := by
  have htop : 0 ≤ frameTop f.conv.target := by cases f.conv.target <;> decide
  refine ⟨?_, ?_, ?_⟩
  · rcases he with he | he
    · rw [frameBottom]
      omega
    · exact he.1
  · rcases he with he | he
    · omega
    · have hlt := he.2
      rw [frameBottom] at hlt
      omega
  · rintro ⟨p, hp, hlocal, hlo, hhi⟩
    have hclear := hfits.clear p hp hlocal
    have harea := neg_allocSize_le hp hlocal
    rcases he with he | he
    · omega
    · have hlink : fpDisp f.conv.target ≥ -(f.linkArea : ℤ) := by
        rw [linkArea, hasFramePointer_of_mem hp]
        cases f.conv.target <;> decide
      have hlt := he.2
      rw [frameBottom] at hlt
      omega

variable {callee : ShippedConv}

theorem isSaved_above_shadow (hcall : f.CallOk callee) {e : ℤ} (he : f.IsSaved e) :
    f.frameBottom + callee.desc.shadowSpaceSize ≤ e := by
  rcases he with he | he
  · rw [frameBottom]
    rcases hcall.shadow with h | ⟨h, hle⟩
    · omega
    · simp only [h, length_nil, mul_zero, Nat.add_zero]
      omega
  · rcases hcall.shadow with h | ⟨h, -⟩
    · omega
    · simp only [h, length_nil, mul_zero] at he
      omega

theorem frameSize_lt (hfits : f.Fits) :
    f.linkArea + f.allocSize + saveSize f.conv.target * f.pushed.length < 2 ^ 32 := by
  have halloc := hfits.alloc
  have hpushed := length_pushed_lt (f := f)
  have hmax : maxAlloc f.conv.target < 2 ^ 31 := by cases f.conv.target <;> decide
  have hlink : f.linkArea ≤ 16 := by
    unfold linkArea
    split
    · cases f.conv.target <;> decide
    · omega
  omega

/-- The displacement of the stack pointer, read back from the address. -/
theorem toInt_disp_sub (base : BitVec 64) {d : ℤ} (hlo : -2 ^ 63 ≤ d)
    (hhi : d < 2 ^ 63) : (disp base d - base).toInt = d := by
  rw [disp, BitVec.add_comm, BitVec.add_sub_cancel, BitVec.toInt_ofInt]
  apply Int.bmod_eq_of_le_mul_two <;> norm_num <;> omega

section

variable {m₀ m m' : Cpu} {n : ℕ}

theorem bodyState_other (hfits : f.Fits) (hbody : f.BodyState m₀ n m) {defs : List MirRegisterRef}
    (hdefs : ∀ r ∈ defs, Assignable f.conv (!f.objects.isEmpty) f.used r)
    (hlink : ∀ r ∈ defs, f.KeepsLink r)
    (heffect : f.OrdinaryEffect (m₀.regs f.conv.spReg) defs m m') :
    f.BodyState m₀ n m' where
  sp := by
    rw [heffect.regs _ fun h => (hdefs _ h).ne_sp rfl]
    exact hbody.sp
  small := hbody.small
  allocated := hbody.allocated
  fp := by
    intro hfp
    rw [heffect.regs _ fun h => (hdefs _ h).ne_fp hfp rfl]
    exact hbody.fp hfp
  unused := by
    intro r hr hused hsp hfp
    rw [heffect.regs r fun h => hused ((hdefs r h).used hr)]
    exact hbody.unused r hr hused hsp hfp
  link := by
    intro htarget hfp
    have hra : raReg ∉ defs := by
      intro h
      rcases hlink _ h htarget with hfp' | hne
      · simp [hfp] at hfp'
      · exact hne rfl
    rw [heffect.regs _ hra]
    exact hbody.link htarget hfp
  saved := by
    intro e he
    rw [heffect.mem e (isPrivate_of_isSaved hfits he)]
    exact hbody.saved e he

theorem bodyState_call (hfits : f.Fits) (hbody : f.BodyState m₀ n m)
    (htarget : callee.target = f.conv.target) (hcall : f.CallOk callee)
    (heffect : f.CallEffect (m₀.regs f.conv.spReg) callee m m') : f.BodyState m₀ n m' where
  sp := by
    rw [heffect.sp]
    exact hbody.sp
  small := hbody.small
  allocated := hbody.allocated
  fp := by
    intro hfp
    have hmem : f.conv.fpReg ∈ callee.calleeSavedRegs := by
      rw [ShippedConv.fpReg, ← htarget]
      exact fpReg_preserved callee
    rw [heffect.regs _ hmem]
    exact hbody.fp hfp
  unused := by
    intro r hr hused hsp hfp
    have hmem : r ∈ callee.calleeSavedRegs :=
      (hcall.preserved r hr).resolve_right fun h => h.elim hused hsp
    rw [heffect.regs r hmem]
    exact hbody.unused r hr hused hsp hfp
  link := by
    intro htarget hfp
    rcases hcall.link htarget with hfp' | hne
    · simp [hfp] at hfp'
    · exact absurd rfl hne
  saved := by
    intro e he
    have hbound := frameSize_lt hfits
    have habove := isSaved_above_shadow hcall he
    rw [heffect.mem e (isPrivate_of_isSaved hfits he)]
    · exact hbody.saved e he
    · have hsmall := hbody.small
      rw [hbody.sp, toInt_disp_sub _ (by rw [frameBottom]; omega) (by rw [frameBottom]; omega)]
      omega

/-- What a prologue has done in front of the register saves: the stack pointer is
down by the frame, and the registers the convention preserves are whole. -/
structure Allocated (f : FrameFunction) (m₀ m : Cpu) : Prop where
  sp : m.regs f.conv.spReg = disp (m₀.regs f.conv.spReg) (-(f.linkArea + f.allocSize : ℕ))
  fp : f.hasFramePointer = true →
    m.regs f.conv.fpReg = disp (m₀.regs f.conv.spReg) (fpDisp f.conv.target)
  regs : ∀ r ∈ f.conv.calleeSavedRegs, r ≠ f.conv.spReg →
    (f.hasFramePointer = true → r ≠ f.conv.fpReg) → m.regs r = m₀.regs r
  link : f.conv.target = .RiscV64 → m.regs raReg = m₀.regs raReg

section

variable {sp : MirRegisterRef} (p : SlotPair MirRegisterRef sp) {q : Cpu}

section

variable (hsp : f.conv.spReg = sp) (hsize : p.size = saveSize f.conv.target) (hq : f.Allocated m₀ q)
include hsp hsize hq

theorem saveAll_sp_eq :
    (p.saveAll f.pushed q).regs f.conv.spReg = disp (m₀.regs f.conv.spReg) f.frameBottom := by
  subst hsp
  rw [p.saveAll_sp, hq.sp, WordMachine.disp_disp, hsize, frameBottom]
  congr 1
  push_cast
  ring

theorem bodyState_saveAll
    (hprologue : exec (insertPrologue f.frame f.conv.target) m₀ = p.saveAll f.pushed q) :
    f.BodyState m₀ 0 (exec (insertPrologue f.frame f.conv.target) m₀) where
  sp := by
    rw [hprologue, saveAll_sp_eq p hsp hsize hq]
    simp
  small := by norm_num
  allocated := Or.inl rfl
  fp := by
    intro hfp
    rw [hprologue, p.saveAll_regs _ _ (hsp ▸ fpReg_ne_spReg f.conv)]
    exact hq.fp hfp
  unused := by
    intro r hr _ hne hfp
    rw [hprologue, p.saveAll_regs _ _ (hsp ▸ hne)]
    exact hq.regs r hr hne hfp
  link := by
    intro htarget _
    rw [hprologue, p.saveAll_regs _ _ (hsp ▸ spReg_ne_raReg htarget)]
    exact hq.link htarget
  saved := fun _ _ => rfl

end

/-- The words saved at entry are in the body as they were in front of the register
saves. -/
theorem linkArea_mem (hfits : f.Fits) (hsp : f.conv.spReg = sp)
    (hsize : p.size = saveSize f.conv.target) (hq : f.Allocated m₀ q)
    (hprologue : exec (insertPrologue f.frame f.conv.target) m₀ = p.saveAll f.pushed q)
    (hbody : f.BodyState m₀ n m) {e : ℤ} (hlo : -(f.linkArea : ℤ) ≤ e) (hhi : e < 0) :
    m.mem (disp (m₀.regs f.conv.spReg) e) = q.mem (disp (m₀.regs f.conv.spReg) e) := by
  have hbound := frameSize_lt hfits
  have hplace : disp (m₀.regs f.conv.spReg) e =
      disp (q.regs sp) (e + (f.linkArea + f.allocSize : ℕ)) := by
    rw [← hsp, hq.sp, WordMachine.disp_disp]
    congr 1
    ring
  have habs : |e + (f.linkArea + f.allocSize : ℕ)| =
      e + (f.linkArea + f.allocSize : ℕ) := abs_of_nonneg (by omega)
  rw [hbody.saved e (Or.inl ⟨hlo, hhi⟩), hprologue, hplace]
  exact p.saveAll_mem _ _ (by omega) (by rw [hsize]; omega)

/-- What the restores at the end of the body give back. -/
structure GivenBack (f : FrameFunction) (m₀ q m m' : Cpu) : Prop where
  mem : m'.mem = m.mem
  sp : f.hasFramePointer = false → m'.regs f.conv.spReg = q.regs f.conv.spReg
  fp : f.hasFramePointer = true → m'.regs f.conv.fpReg = m.regs f.conv.fpReg
  regs : ∀ r ∈ f.conv.calleeSavedRegs, r ≠ f.conv.spReg →
    (f.hasFramePointer = true → r ≠ f.conv.fpReg) → m'.regs r = m₀.regs r
  link : f.conv.target = .RiscV64 → m'.regs raReg = m.regs raReg

theorem mem_pushed {r : MirRegisterRef} (hr : r ∈ f.used)
    (hfp : f.hasFramePointer = true → r ≠ f.conv.fpReg) : r ∈ f.pushed := by
  refine mem_filter.mpr ⟨hr, ?_⟩
  have hfp' : f.frame.hasFramePointer = true → r ≠ framePointerReg f.conv.target := hfp
  cases h : f.frame.hasFramePointer with
  | false => rfl
  | true => simpa using hfp' h

theorem fpReg_not_mem_pushed (hfp : f.hasFramePointer = true) : f.conv.fpReg ∉ f.pushed := by
  intro h
  have hkeep := (mem_filter.mp h).2
  have hfp' : f.frame.hasFramePointer = true := hfp
  simp [hfp', ShippedConv.fpReg] at hkeep

theorem raReg_not_mem_pushed (htarget : f.conv.target = .RiscV64) : raReg ∉ f.pushed := by
  intro h
  have hmem := f.used_preserved _ (pushed_subset h)
  cases hconv : f.conv <;> rw [hconv] at hmem htarget <;> revert hmem htarget <;> decide

/-- The restores of an epilogue undo the saves, whatever the body has done. -/
theorem givenBack_restoreAll (hsp : f.conv.spReg = sp)
    (hsize : p.size = saveSize f.conv.target) (hq : f.Allocated m₀ q)
    (hprologue : exec (insertPrologue f.frame f.conv.target) m₀ = p.saveAll f.pushed q)
    (hbody : f.BodyState m₀ n m) :
    f.GivenBack m₀ q m (p.restoreAll f.pushed m) := by
  subst hsp
  have hunused : ∀ r ∈ f.conv.calleeSavedRegs, r ≠ f.conv.spReg →
      (f.hasFramePointer = true → r ≠ f.conv.fpReg) → r ∉ f.pushed →
      m.regs r = m₀.regs r := fun r hr hne hfp hpushed =>
    hbody.unused r hr (fun hused => hpushed (mem_pushed hused hfp)) hne hfp
  rcases hbody.allocated with rfl | ⟨hfp, hnil⟩
  · have hmem : ∀ e : ℤ, -(p.size * f.pushed.length : ℕ) ≤ e → e < 0 →
        m.mem (disp (q.regs f.conv.spReg) e) =
          (p.saveAll f.pushed q).mem (disp (q.regs f.conv.spReg) e) := by
      intro e hlo hhi
      rw [hsize] at hlo
      rw [hq.sp, WordMachine.disp_disp, ← hprologue]
      apply hbody.saved
      right
      rw [frameBottom]
      omega
    have hlen := length_pushed_lt (f := f)
    have htop : m.regs f.conv.spReg = (p.saveAll f.pushed q).regs f.conv.spReg := by
      rw [saveAll_sp_eq p rfl hsize hq, hbody.sp]
      simp
    obtain ⟨hsp', hmem', hin, hout⟩ :=
      p.restoreAll_saveAll f.pushed q m htop hmem (by rw [hsize]; omega)
    refine ⟨hmem', fun _ => hsp', ?_, ?_, ?_⟩
    · intro hfp
      exact hout _ (fpReg_not_mem_pushed hfp) (fpReg_ne_spReg f.conv)
    · intro r hr hne hfp
      by_cases hpushed : r ∈ f.pushed
      · rw [hin r hpushed hne, hq.regs r hr hne hfp]
      · rw [hout r hpushed hne, hunused r hr hne hfp hpushed]
    · intro htarget
      exact hout _ (raReg_not_mem_pushed htarget) (spReg_ne_raReg htarget)
  · rw [hnil]
    refine ⟨rfl, ?_, fun _ => rfl, ?_, fun _ => rfl⟩
    · intro h
      simp [hfp] at h
    · intro r hr hne hfp'
      exact hunused r hr hne hfp' (by simp [hnil])

end

/-- The rest of an epilogue has to see to the stack pointer, the frame pointer and
the return address. -/
theorem restored_of_givenBack {q m₁ m₂ : Cpu} (hback : f.GivenBack m₀ q m m₁)
    (hsp : m₂.regs f.conv.spReg = m₀.regs f.conv.spReg)
    (hfp : f.hasFramePointer = true → m₂.regs f.conv.fpReg = m₀.regs f.conv.fpReg)
    (hrest : ∀ r ∈ f.conv.calleeSavedRegs, r ≠ f.conv.spReg →
      (f.hasFramePointer = true → r ≠ f.conv.fpReg) → m₂.regs r = m₁.regs r)
    (hlink : f.conv.target = .RiscV64 → m₂.regs raReg = m₀.regs raReg) :
    f.Restored m₀ m₂ := by
  have hpreserved : ∀ r ∈ f.conv.calleeSavedRegs, m₂.regs r = m₀.regs r := by
    intro r hr
    by_cases hne : r = f.conv.spReg
    · rw [hne, hsp]
    · by_cases hfpr : f.hasFramePointer = true ∧ r = f.conv.fpReg
      · rw [hfpr.2, hfp hfpr.1]
      · have hfp' : f.hasFramePointer = true → r ≠ f.conv.fpReg :=
          fun h h' => hfpr ⟨h, h'⟩
        rw [hrest r hr hne hfp', hback.regs r hr hne hfp']
  exact ⟨hsp, hpreserved _ (fpReg_preserved f.conv), hpreserved, hlink⟩

theorem exec_lowerDAlloc (conv : ShippedConv) (dst src : MirRegisterRef) (m : Cpu) :
    exec (lowerDAlloc conv.target dst src) m =
      (m.setReg conv.spReg (m.regs conv.spReg - m.regs src)).setReg dst
        (m.regs conv.spReg - m.regs src) := by
  have hzero : immField 12 0 = 0#64 := by decide
  cases conv <;>
    simp [lowerDAlloc, X86_64.lowerDAlloc, RiscV64.lowerDAlloc, ShippedConv.target,
      ShippedConv.desc, SysV_AMD64, Win64, LP64D, ShippedConv.spReg, FrameInst.exec,
      X86_64.rsp, RiscV64.sp, hzero]

theorem bodyState_dalloc (hbody : f.BodyState m₀ n m) {dst src : MirRegisterRef}
    (hdst : Assignable f.conv (!f.objects.isEmpty) f.used dst)
    (hamount : (m.regs src).toNat = 0 ∨ (f.hasFramePointer = true ∧ f.pushed = []))
    (hsmall : n + (m.regs src).toNat < 2 ^ 62) (hlink : f.KeepsLink dst) :
    f.BodyState m₀ (n + (m.regs src).toNat)
      (exec (lowerDAlloc f.conv.target dst src) m) where
  sp := by
    have hsub := WordMachine.sub_ofNat (disp (m₀.regs f.conv.spReg) (f.frameBottom - n))
      (m.regs src).toNat
    rw [BitVec.ofNat_toNat, BitVec.setWidth_eq, WordMachine.disp_disp] at hsub
    rw [exec_lowerDAlloc, WordMachine.setReg_regs_of_ne hdst.ne_sp.symm,
      WordMachine.setReg_regs_self, hbody.sp, hsub]
    congr 1
    push_cast
    ring
  small := hsmall
  allocated := by
    rcases hamount with h | h
    · rw [h]
      exact hbody.allocated
    · exact Or.inr h
  fp := by
    intro hfp
    rw [exec_lowerDAlloc, WordMachine.setReg_regs_of_ne (hdst.ne_fp hfp).symm,
      WordMachine.setReg_regs_of_ne (fpReg_ne_spReg f.conv)]
    exact hbody.fp hfp
  unused := by
    intro r hr hused hsp hfp
    have hne : r ≠ dst := by
      rintro rfl
      exact hused (hdst.used hr)
    rw [exec_lowerDAlloc, WordMachine.setReg_regs_of_ne hne, WordMachine.setReg_regs_of_ne hsp]
    exact hbody.unused r hr hused hsp hfp
  link := by
    intro htarget hfp
    have hne : raReg ≠ dst := by
      rcases hlink htarget with hfp' | hne
      · simp [hfp] at hfp'
      · exact hne.symm
    rw [exec_lowerDAlloc, WordMachine.setReg_regs_of_ne hne,
      WordMachine.setReg_regs_of_ne (spReg_ne_raReg htarget)]
    exact hbody.link htarget hfp
  saved := by
    intro e he
    rw [exec_lowerDAlloc, WordMachine.setReg_mem, WordMachine.setReg_mem]
    exact hbody.saved e he

/-- The prologue puts every entry state into the body, and the epilogue gives every
state of the body back to the caller. -/
structure CodeSpec (f : FrameFunction) : Prop where
  prologue : ∀ m₀, f.BodyState m₀ 0 (exec (insertPrologue f.frame f.conv.target) m₀)
  epilogue : ∀ m₀ n m, f.BodyState m₀ n m →
    f.Restored m₀ (exec (insertEpilogue f.frame f.conv.target) m)

theorem lowered_succ {t : ℕ} (ht : t ≠ 0) {insts : List LoweredInst}
    (h : f.lowered[t]? = some insts) :
    ∃ block ∈ f.blocks, insts = f.lowerBlock block := by
  cases hblocks : f.blocks with
  | nil => simp [lowered, hblocks] at h
  | cons entry blocks =>
    obtain ⟨k, rfl⟩ := Nat.exists_eq_succ_of_ne_zero ht
    simp only [lowered, hblocks, getElem?_cons_succ, getElem?_map, Option.map_eq_some_iff] at h
    obtain ⟨block, hblock, rfl⟩ := h
    exact ⟨block, mem_cons_of_mem _ (mem_of_getElem? hblock), rfl⟩

theorem located_start (m₀ : Cpu) (hblocks : f.blocks ≠ []) : f.Located m₀ (f.start m₀) := by
  cases h : f.blocks with
  | nil => exact absurd h hblocks
  | cons entry blocks =>
    have hstart : f.start m₀ = ⟨0, .code (insertPrologue f.frame f.conv.target) ::
        f.lowerBlock entry, m₀, 0⟩ := by
      simp [start, lowered, h]
    rw [hstart]
    exact .entry entry (by simp [h])

@[simp] theorem lowerBlock_nil : f.lowerBlock [] = [] := rfl

theorem lowerBlock_cons (i : BodyInst) (insts : List BodyInst) :
    f.lowerBlock (i :: insts) = f.lowerInst i ++ f.lowerBlock insts := rfl

theorem located_step_body (hfits : f.Fits) (hspec : f.CodeSpec) {b : ℕ} {insts : List BodyInst}
    (hinsts : ∀ i ∈ insts, ∃ block ∈ f.blocks, i ∈ block) (hbody : f.BodyState m₀ n m)
    (hok : f.StepOk ⟨b, f.lowerBlock insts, m, n⟩)
    (hstep : f.Step (m₀.regs f.conv.spReg) ⟨b, f.lowerBlock insts, m, n⟩ c') : f.Located m₀ c' := by
  have hblock : ∀ t insts', t ≠ 0 → f.lowered[t]? = some insts' →
      f.Located m₀ ⟨t, insts', m, n⟩ := by
    intro t insts' ht h
    obtain ⟨block, hmem, rfl⟩ := lowered_succ ht h
    exact .body t block m n (fun i hi => ⟨block, hmem, hi⟩) hbody
  cases insts with
  | nil =>
    rw [lowerBlock_nil] at hstep
    cases hstep with
    | fallThrough _ insts' _ _ h => exact hblock _ _ (Nat.succ_ne_zero b) h
  | cons i insts =>
    have htail : ∀ j ∈ insts, ∃ block ∈ f.blocks, j ∈ block :=
      fun j hj => hinsts j (mem_cons_of_mem i hj)
    have hdefs : ∀ r ∈ i.defs, Assignable f.conv (!f.objects.isEmpty) f.used r := by
      obtain ⟨block, hmem, hi⟩ := hinsts i mem_cons_self
      exact f.defs_assignable block hmem i hi
    rw [lowerBlock_cons] at hstep hok
    cases i with
    | dalloc dst src =>
      cases hstep with
      | dalloc =>
        obtain ⟨hamount, hsmall, hlink⟩ := hok
        exact .body b insts _ _ htail (bodyState_dalloc hbody
          (hdefs dst (by simp [BodyInst.defs])) hamount hsmall hlink)
    | call callee =>
      have htarget : callee.target = f.conv.target := by
        obtain ⟨block, hmem, hi⟩ := hinsts _ mem_cons_self
        exact f.callee_target block hmem callee hi
      cases hstep with
      | call _ _ _ _ m' _ heffect =>
        exact .body b insts _ _ htail (bodyState_call hfits hbody htarget hok heffect)
    | ret =>
      cases hstep with
      | code => exact .atReturn b _ _ _ (hspec.epilogue m₀ n m hbody)
    | branch targets conditional =>
      cases hstep with
      | taken _ t _ _ insts' _ _ _ ht h =>
        have hne : t ≠ 0 := by
          rintro rfl
          exact hok ht
        exact hblock t insts' hne h
      | notTaken => exact .body b insts _ _ htail hbody
    | other defs =>
      cases hstep with
      | other _ _ _ _ m' _ heffect =>
        exact .body b insts _ _ htail (bodyState_other hfits hbody hdefs hok heffect)

variable {c : FrameConfig}

/-- One step that meets its condition stays in the located states. -/
theorem located_step (hfits : f.Fits) (hspec : f.CodeSpec) (hc : f.Located m₀ c) (hok : f.StepOk c)
    (hstep : f.Step (m₀.regs f.conv.spReg) c c') : f.Located m₀ c' := by
  cases hc with
  | entry entry hentry =>
    cases hstep with
    | code =>
      exact .body 0 entry _ 0 (fun i hi => ⟨entry, hentry, hi⟩) (hspec.prologue m₀)
  | body b insts m n hinsts hbody =>
    exact located_step_body hfits hspec hinsts hbody hok hstep
  | atReturn => cases hstep

/-- Every state of a run whose states meet their conditions is located. -/
theorem located_of_reachesVia (hfits : f.Fits) (hspec : f.CodeSpec) (hblocks : f.blocks ≠ [])
    (hok : ∀ c, ok c → f.StepOk c) (hrun : f.ReachesVia ok m₀ c) : f.Located m₀ c := by
  obtain ⟨hreach, -⟩ := hrun
  induction hreach with
  | refl => exact located_start m₀ hblocks
  | tail _ hstep ih => exact located_step hfits hspec ih (hok _ hstep.1) hstep.2

/-- A return is reached behind its epilogue only. -/
theorem restored_of_located (hc : f.Located m₀ c)
    {rest : List LoweredInst} (hret : c.rest = .ret :: rest) : f.Restored m₀ c.cpu := by
  cases hc with
  | entry => cases hret
  | body b insts m n hinsts hbody =>
    cases insts with
    | nil => cases hret
    | cons i insts =>
      rw [lowerBlock_cons] at hret
      cases i <;> cases hret
  | atReturn b rest m n hrestored => exact hrestored

theorem bodyState_of_located (hc : f.Located m₀ c) {rest : List LoweredInst}
    (hcall : c.rest = .call callee :: rest) : f.BodyState m₀ c.allocated c.cpu := by
  cases hc with
  | entry => cases hcall
  | body b insts m n hinsts hbody => exact hbody
  | atReturn => cases hcall

/-- Without blocks there is no code, and no run leaves the start. -/
theorem rest_of_reaches_of_blocks_eq_nil (hblocks : f.blocks = [])
    (hrun : f.Reaches m₀ c) : c.rest = [] := by
  have hlowered : f.lowered = [] := by simp [lowered, hblocks]
  induction hrun with
  | refl => simp [start, hlowered]
  | tail _ hstep ih =>
    cases hstep <;> simp_all

theorem reaches_of_reachesVia (h : f.ReachesVia ok m₀ c) : f.Reaches m₀ c :=
  Relation.ReflTransGen.mono (fun _ _ h => h.2) _ _ h.1

end

end FrameFunction

end EzPacker.Abi
