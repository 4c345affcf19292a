import EzPacker.RegAlloc.InterferenceGraph

/-!
# The register lists of a calling convention

The generated constructor of a convention resolves the names of its `preserve callee`
and `preserve caller` lists one by one: in the general-purpose class of 64 bits, then
in the floating-point class of 64 bits. A name that neither class has is dropped, unless
it reads as an `xmm` register. A register that is in neither list is one the convention
says nothing about: nobody saves it.
-/

namespace EzPacker.RegAlloc

open Mir

/-- A register as the hardware has it, whatever class names it. -/
structure HardwareReg where
  bank : ℕ
  id : ℕ
  deriving DecidableEq, Repr

/-- The reference is a name of the register. -/
def Names (r : MirRegisterRef) (reg : HardwareReg) : Prop :=
  r.isVirtual = false ∧ r.regClass.map MirRegisterClass.bank = some reg.bank ∧ r.id = reg.id

instance (r : MirRegisterRef) (reg : HardwareReg) : Decidable (Names r reg) :=
  inferInstanceAs (Decidable (_ ∧ _ ∧ _))

/-- What a convention class is constructed with, and the names of the classes. -/
structure ConventionClasses where
  defaultClass : Option MirRegisterClass
  fpClass : Option MirRegisterClass
  regNames : MirRegisterClass → List String

/-- `static_cast<size_t>(-1)` -/
def noRegister : ℕ := 2 ^ 64 - 1

/-- The number that the digits of a name read, the first three characters left out. -/
def digitsId (name : List Char) : ℕ :=
  ((name.drop 3).filter Char.isDigit).foldl
    (fun id c => (id * 10 + (c.toNat - '0'.toNat)) % 2 ^ 64) 0

namespace ConventionClasses

variable (classes : ConventionClasses)

def getReg (regClass : Option MirRegisterClass) (name : String) : Option MirRegisterRef :=
  regClass.bind fun c => ((classes.regNames c).idxOf? name).map (preg c)

/-- `resolveReg` without a type, as the constructor calls it. -/
def resolveReg (name : String) (fallback : ℕ) : MirRegisterRef :=
  match (classes.getReg classes.defaultClass name).or
      (classes.getReg classes.fpClass name) with
  | some ref => ref
  | none =>
    if name.toList.length ≥ 4 ∧ name.toList.take 3 = ['x', 'm', 'm'] then
      ⟨false, classes.defaultClass.or classes.fpClass, digitsId name.toList⟩
    else
      match classes.defaultClass with
      | some c => preg c noRegister
      | none => ⟨false, none, fallback⟩

/-- The registers of a list of names that are found, from the fallback number on. -/
def savedRegs (fallback : ℕ) (names : List String) : List MirRegisterRef :=
  (names.mapIdx fun i name => classes.resolveReg name (fallback + i)).filter (·.id ≠ noRegister)

theorem resolveReg_physical (name : String) (fallback : ℕ) :
    (classes.resolveReg name fallback).isVirtual = false := by
  have hget : ∀ {c : Option MirRegisterClass} {ref : MirRegisterRef},
      classes.getReg c name = some ref → ref.isVirtual = false := by
    intro c ref href
    obtain ⟨cls, -, hmap⟩ := Option.bind_eq_some_iff.mp href
    obtain ⟨id, -, rfl⟩ := Option.map_eq_some_iff.mp hmap
    rfl
  unfold resolveReg
  split
  · next ref hfound =>
      rcases Option.or_eq_some_iff.mp hfound with h | ⟨-, h⟩
      · exact hget h
      · exact hget h
  · split
    · rfl
    · split
      · rfl
      · rfl

theorem savedRegs_physical (fallback : ℕ) (names : List String) :
    ∀ r ∈ classes.savedRegs fallback names, r.isVirtual = false := by
  intro r hr
  obtain ⟨i, hi, rfl⟩ := List.mem_mapIdx.mp (List.mem_of_mem_filter hr)
  exact classes.resolveReg_physical _ _

end ConventionClasses

/-- A convention as the functions it is the convention of use it. -/
structure CallingConvention extends CallingConvDesc where
  calleeSavedRegs : List MirRegisterRef
  calleeSaved_physical : ∀ r ∈ calleeSavedRegs, r.isVirtual = false

/-- The register has its value back when a function of the convention returns. The
stack pointer has it without being listed. -/
def CallingConvention.Preserves (cc : CallingConvention) (reg : HardwareReg) : Prop :=
  ∃ r ∈ cc.stackPointerReg :: cc.calleeSavedRegs, Names r reg

instance (cc : CallingConvention) (reg : HardwareReg) : Decidable (cc.Preserves reg) :=
  inferInstanceAs (Decidable (∃ r ∈ cc.stackPointerReg :: cc.calleeSavedRegs, Names r reg))

/-- The target has the register. -/
def TargetRegisters.Has (target : TargetRegisters) (reg : HardwareReg) : Prop :=
  ∃ c ∈ target.bankClasses reg.bank, c.bank = reg.bank ∧ reg.id ∈ target.classRegs c

instance (target : TargetRegisters) (reg : HardwareReg) : Decidable (target.Has reg) :=
  inferInstanceAs (Decidable (∃ c ∈ target.bankClasses reg.bank, _))

/-- The text of a convention that its saved registers depend on. -/
structure ConventionText where
  preserveCallee : List String
  preserveCaller : List String
  sp : String
  fp : String

/-- The convention that is generated for the text. A function has a frame pointer when
it has stack objects. -/
def ConventionText.generate (text : ConventionText) (classes : ConventionClasses)
    (hasObjects : Bool) : CallingConvention where
  calleeSavedRegs :=
    classes.savedRegs text.preserveCaller.length text.preserveCallee
  calleeSaved_physical := classes.savedRegs_physical _ _
  callerSavedRegs := classes.savedRegs 0 text.preserveCaller
  callerSaved_physical := classes.savedRegs_physical _ _
  hasFramePointer := fun _ _ => hasObjects
  framePointerReg := classes.resolveReg text.fp 0
  stackPointerReg := classes.resolveReg text.sp 0

/-! ### The shipped targets -/

namespace X86_64

def GPR8 : MirRegisterClass := ⟨0, 0⟩
def GPR16 : MirRegisterClass := ⟨1, 0⟩
def GPR32 : MirRegisterClass := ⟨2, 0⟩
def GPR64 : MirRegisterClass := ⟨3, 0⟩
def FPR32 : MirRegisterClass := ⟨4, 1⟩
def FPR64 : MirRegisterClass := ⟨5, 1⟩
def VR128 : MirRegisterClass := ⟨6, 1⟩
def VR256 : MirRegisterClass := ⟨7, 1⟩

def bankClasses : ℕ → List MirRegisterClass
  | 0 => [GPR8, GPR16, GPR32, GPR64]
  | 1 => [FPR32, FPR64, VR128, VR256]
  | _ => []

def registers : TargetRegisters where
  classRegs c := if c ∈ bankClasses c.bank then List.range 16 else []
  bankClasses := bankClasses

def xmmNames : List String :=
  ["xmm0", "xmm1", "xmm2", "xmm3", "xmm4", "xmm5", "xmm6", "xmm7", "xmm8", "xmm9",
    "xmm10", "xmm11", "xmm12", "xmm13", "xmm14", "xmm15"]

def classes : ConventionClasses where
  defaultClass := some GPR64
  fpClass := some FPR64
  regNames c :=
    if c = GPR64 then
      ["rax", "rcx", "rdx", "rbx", "rsp", "rbp", "rsi", "rdi", "r8", "r9", "r10", "r11",
        "r12", "r13", "r14", "r15"]
    else xmmNames

def SysV_AMD64 : ConventionText where
  preserveCallee := ["rbx", "rsp", "rbp", "r12", "r13", "r14", "r15"]
  preserveCaller := ["rax", "rcx", "rdx", "rsi", "rdi", "r8", "r9", "r10", "r11"] ++ xmmNames.take 8
  sp := "rsp"
  fp := "rbp"

def Win64 : ConventionText where
  preserveCallee := ["rbx", "rbp", "rdi", "rsi", "r12", "r13", "r14", "r15"]
  preserveCaller := ["rax", "rcx", "rdx", "r8", "r9", "r10", "r11"] ++ xmmNames.take 6
  sp := "rsp"
  fp := "rbp"

end X86_64

namespace RiscV64

def GPR32 : MirRegisterClass := ⟨0, 0⟩
def GPR64 : MirRegisterClass := ⟨1, 0⟩
def FPR32 : MirRegisterClass := ⟨2, 1⟩
def FPR64 : MirRegisterClass := ⟨3, 1⟩
def VR128 : MirRegisterClass := ⟨4, 2⟩

def bankClasses : ℕ → List MirRegisterClass
  | 0 => [GPR32, GPR64]
  | 1 => [FPR32, FPR64]
  | 2 => [VR128]
  | _ => []

def registers : TargetRegisters where
  classRegs c := if c ∈ bankClasses c.bank then List.range 32 else []
  bankClasses := bankClasses

def vNames : List String :=
  ["v0", "v1", "v2", "v3", "v4", "v5", "v6", "v7", "v8", "v9", "v10", "v11", "v12", "v13",
    "v14", "v15", "v16", "v17", "v18", "v19", "v20", "v21", "v22", "v23", "v24", "v25",
    "v26", "v27", "v28", "v29", "v30", "v31"]

def classes : ConventionClasses where
  defaultClass := some GPR64
  fpClass := some FPR64
  regNames c :=
    if c = GPR64 then
      ["zero", "ra", "sp", "gp", "tp", "t0", "t1", "t2", "s0", "s1", "a0", "a1", "a2",
        "a3", "a4", "a5", "a6", "a7", "s2", "s3", "s4", "s5", "s6", "s7", "s8", "s9",
        "s10", "s11", "t3", "t4", "t5", "t6"]
    else
      ["ft0", "ft1", "ft2", "ft3", "ft4", "ft5", "ft6", "ft7", "fs0", "fs1", "fa0", "fa1",
        "fa2", "fa3", "fa4", "fa5", "fa6", "fa7", "fs2", "fs3", "fs4", "fs5", "fs6",
        "fs7", "fs8", "fs9", "fs10", "fs11", "ft8", "ft9", "ft10", "ft11"]

def LP64D : ConventionText where
  preserveCallee :=
    ["s0", "s1", "s2", "s3", "s4", "s5", "s6", "s7", "s8", "s9", "s10", "s11", "sp", "fs0",
      "fs1", "fs2", "fs3", "fs4", "fs5", "fs6", "fs7", "fs8", "fs9", "fs10", "fs11"]
  preserveCaller :=
    ["ra", "t0", "t1", "t2", "t3", "t4", "t5", "t6", "a0", "a1", "a2", "a3", "a4", "a5",
      "a6", "a7", "ft0", "ft1", "ft2", "ft3", "ft4", "ft5", "ft6", "ft7", "fa0", "fa1",
      "fa2", "fa3", "fa4", "fa5", "fa6", "fa7", "ft8", "ft9", "ft10", "ft11"] ++ vNames
  sp := "sp"
  fp := "s0"

end RiscV64

/-- The registers of the target that the convention neither preserves nor lets the
callee overwrite. -/
def unlistedRegs (target : TargetRegisters) (cc : CallingConvention) : List HardwareReg :=
  ([0, 1, 2].flatMap fun bank => (List.range 32).map (HardwareReg.mk bank)).filter fun reg =>
    decide (target.Has reg) && !decide (cc.Preserves reg) &&
      !cc.callerSavedRegs.any fun r => decide (Names r reg)

/-- For `SysV_AMD64` these are `xmm8` to `xmm15`, for `Win64` `xmm6` to `xmm15`. -/
example : unlistedRegs X86_64.registers (X86_64.SysV_AMD64.generate X86_64.classes true) =
    (List.range' 8 8).map (HardwareReg.mk 1) := by decide

/-- For `LP64D` `zero`, `gp`, `tp` and the vector registers, whose names are dropped. -/
example : unlistedRegs RiscV64.registers (RiscV64.LP64D.generate RiscV64.classes true) =
    [0, 3, 4].map (HardwareReg.mk 0) ++ (List.range 32).map (HardwareReg.mk 2) := by decide

end EzPacker.RegAlloc
