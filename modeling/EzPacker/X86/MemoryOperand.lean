import EzPacker.X86.InstructionBytes

/-!
# Memory operands

The addressing bytes of a memory operand, and the address that the processor computes from
them. The two agree when the displacement has 32 bits and the index register can be encoded;
the encoder never fails, it cuts the displacement and takes another scale or no index.
-/

namespace EzPacker.X86

open Option List

/-! ## Operands -/

/-- No register in the position of a base or an index. -/
def NoReg : BitVec 8 := 0xFF

structure EncMemory where
  base : BitVec 8
  index : BitVec 8
  scale : BitVec 8
  disp : BitVec 64
  ripRel : Bool
  needsReloc : Bool
  deriving DecidableEq, Repr

structure Rex where
  w : Bool
  r : Bool
  x : Bool
  b : Bool
  deriving DecidableEq, Repr

def Rex.isNeeded (rex : Rex) : Bool := rex.w || rex.r || rex.x || rex.b

def Rex.encode (rex : Rex) : UInt8 := rexByte rex.w rex.r rex.x rex.b

def low3 (enc : BitVec 8) : BitVec 8 := enc &&& 0x07

def low4 (enc : BitVec 8) : BitVec 8 := enc &&& 0x0F

def extBit (enc : BitVec 8) : Bool := (enc >>> 3) &&& 0x01 ≠ 0

def scaleToPower (scale : BitVec 8) : BitVec 8 :=
  if scale = 1 then 0
  else if scale = 2 then 1
  else if scale = 4 then 2
  else if scale = 8 then 3
  else 0

structure ModRMPlan where
  bytes : List UInt8
  hasReloc : Bool
  relocOffsetWithin : ℕ
  relocBits : ℕ
  deriving DecidableEq, Repr

def ModRMPlan.of (bytes : List UInt8) : ModRMPlan := ⟨bytes, false, 0, 32⟩

def buildRegisterModRM (regField rmEncoding : BitVec 8) (rex : Rex) : ModRMPlan × Rex :=
  (.of [encodeModRM 3 regField (low3 rmEncoding)], { rex with b := extBit rmEncoding })

/-- The mode and the displacement bytes on a base register. -/
def dispForm (disp : BitVec 64) (baseLow : BitVec 8) : BitVec 8 × List UInt8 :=
  if disp = 0 then
    if baseLow = 5 then (1, emitImm disp 1) else (0, [])
  else if -128 ≤ disp.toInt ∧ disp.toInt ≤ 127 then (1, emitImm disp 1)
  else (2, emitImm disp 4)

def buildMemoryModRM (regField : BitVec 8) (mem : EncMemory) (rex : Rex) : ModRMPlan × Rex :=
  if mem.ripRel then
    let bytes := [encodeModRM 0 regField 5]
    let plan : ModRMPlan :=
      if mem.needsReloc then ⟨bytes, true, bytes.length, 32⟩ else .of bytes
    ({ plan with bytes := bytes ++ emitImm mem.disp 4 }, rex)
  else if mem.base = NoReg ∧ mem.index = NoReg then
    (.of ([encodeModRM 0 regField 4, encodeSIB 0 4 5] ++ emitImm mem.disp 4), rex)
  else if mem.index ≠ NoReg then
    let rex := { rex with x := extBit mem.index }
    if mem.base = NoReg then
      (.of ([encodeModRM 0 regField 4,
        encodeSIB (scaleToPower mem.scale) (low3 mem.index) 5] ++ emitImm mem.disp 4), rex)
    else
      let baseLow := low3 mem.base
      let rex := { rex with b := extBit mem.base }
      let form := dispForm mem.disp baseLow
      (.of ([encodeModRM form.1 regField 4,
        encodeSIB (scaleToPower mem.scale) (low3 mem.index) baseLow] ++ form.2), rex)
  else
    let baseLow := low3 mem.base
    let rex := { rex with b := extBit mem.base }
    let form := dispForm mem.disp baseLow
    if baseLow = 4 then
      (.of ([encodeModRM form.1 regField 4, encodeSIB 0 4 baseLow] ++ form.2), rex)
    else (.of ([encodeModRM form.1 regField baseLow] ++ form.2), rex)

/-- The REX prefix, left out when it has no bit and nothing forces it. -/
def emitRex (rex : Rex) (forceRex : Bool) : List UInt8 :=
  if rex.isNeeded || forceRex then [rex.encode] else []

/-! ## Addresses -/

inductive AddressBase
  | none
  | rip
  | register (number : BitVec 8)
  deriving DecidableEq, Repr

/-- An address expression: a base, an index register with its factor, and a displacement. -/
structure Address where
  base : AddressBase
  index : Option (BitVec 8 × BitVec 64)
  disp : BitVec 64
  deriving DecidableEq, Repr

def AddressBase.eval (regs : BitVec 8 → BitVec 64) (rip : BitVec 64) : AddressBase → BitVec 64
  | .none => 0
  | .rip => rip
  | .register number => regs number

def Address.eval (regs : BitVec 8 → BitVec 64) (rip : BitVec 64) (address : Address) : BitVec 64 :=
  address.base.eval regs rip +
    (address.index.map fun index => regs index.1 * index.2).getD 0 + address.disp

/-- What an operand means: its base, its index times its scale and its displacement. -/
def EncMemory.address (mem : EncMemory) : Address where
  base :=
    if mem.ripRel then .rip else if mem.base = NoReg then .none else .register mem.base
  index := if mem.index = NoReg then none else some (mem.index, mem.scale.setWidth 64)
  disp := mem.disp

/-! ## Decoding -/

/-- A register number of three bits and its extension bit. -/
def extended (ext : Bool) (low : BitVec 3) : BitVec 8 :=
  low.setWidth 8 ||| (if ext then 0x08 else 0)

def decodeDisp (n : ℕ) (bytes : List UInt8) : Option (BitVec 64 × List UInt8) :=
  if n ≤ bytes.length then some ((immField n bytes).signExtend 64, bytes.drop n) else none

/-- The displacement of a mode. -/
def decodeModDisp (mod : BitVec 2) (bytes : List UInt8) : Option (BitVec 64 × List UInt8) :=
  if mod = 0 then some (0, bytes) else decodeDisp (if mod = 1 then 1 else 4) bytes

def decodeIndex (rex : Rex) (sib : UInt8) : Option (BitVec 8 × BitVec 64) :=
  let number := extended rex.x (regOf sib)
  if number = 4 then none else some (number, (1 : BitVec 64) <<< (modOf sib).toNat)

/-- The address of a memory operand, with the register field and the bytes that follow. -/
def decodeMemory (rex : Rex) : List UInt8 → Option (BitVec 3 × Address × List UInt8)
  | [] => none
  | modrm :: rest =>
    let mod := modOf modrm
    if mod = 3 then none
    else if rmOf modrm = 4 then
      match rest with
      | [] => none
      | sib :: rest =>
        if mod = 0 ∧ rmOf sib = 5 then
          (decodeDisp 4 rest).map fun d =>
            (regOf modrm, ⟨.none, decodeIndex rex sib, d.1⟩, d.2)
        else
          (decodeModDisp mod rest).map fun d =>
            (regOf modrm, ⟨.register (extended rex.b (rmOf sib)), decodeIndex rex sib, d.1⟩, d.2)
    else if mod = 0 ∧ rmOf modrm = 5 then
      (decodeDisp 4 rest).map fun d => (regOf modrm, ⟨.rip, none, d.1⟩, d.2)
    else
      (decodeModDisp mod rest).map fun d =>
        (regOf modrm, ⟨.register (extended rex.b (rmOf modrm)), none, d.1⟩, d.2)

/-- The bits of a REX prefix, none of them set where the instruction has no prefix. -/
def decodeRex : List UInt8 → Rex
  | [] => ⟨false, false, false, false⟩
  | byte :: _ =>
    ⟨byte.toBitVec.getLsbD 3, byte.toBitVec.getLsbD 2, byte.toBitVec.getLsbD 1,
      byte.toBitVec.getLsbD 0⟩

/-- The bytes decode to the register field and an address that is always the operand's. -/
def EncodedExactly (regField : BitVec 8) (mem : EncMemory) (w r forceRex : Bool) : Prop :=
  ∃ address,
    let built := buildMemoryModRM regField mem ⟨w, r, false, false⟩
    let rex := decodeRex (emitRex built.2 forceRex)
    decodeMemory rex built.1.bytes = some (regField.setWidth 3, address, []) ∧
      rex.w = w ∧ rex.r = r ∧ ∀ regs rip, address.eval regs rip = mem.address.eval regs rip

theorem decodeRex_emitRex (rex : Rex) (forceRex : Bool) :
    decodeRex (emitRex rex forceRex) = rex := by
  obtain ⟨w, r, x, b⟩ := rex
  cases w <;> cases r <;> cases x <;> cases b <;> cases forceRex <;> rfl

theorem buildMemoryModRM_rex (regField : BitVec 8) (mem : EncMemory) (rex : Rex) :
    (buildMemoryModRM regField mem rex).2.w = rex.w ∧
      (buildMemoryModRM regField mem rex).2.r = rex.r := by
  unfold buildMemoryModRM
  dsimp only
  repeat' split
  all_goals exact ⟨rfl, rfl⟩

theorem number_parts (enc : BitVec 8) :
    extended (extBit enc) ((low3 enc).setWidth 3) = low4 enc ∧
      ((low3 enc).setWidth 3 = (4 : BitVec 3) → low3 enc = 4) ∧
      ((low3 enc).setWidth 3 = (5 : BitVec 3) → low3 enc = 5) ∧
      (low4 enc = enc ↔ enc < 16) ∧ low4 enc < 16 := by
  revert enc
  decide +kernel

theorem extended_low3 (enc : BitVec 8) :
    extended (extBit enc) ((low3 enc).setWidth 3) = low4 enc := (number_parts enc).1

theorem low3_eq_four {enc : BitVec 8} :
    (low3 enc).setWidth 3 = (4 : BitVec 3) → low3 enc = 4 := (number_parts enc).2.1

theorem low3_eq_five {enc : BitVec 8} :
    (low3 enc).setWidth 3 = (5 : BitVec 3) → low3 enc = 5 := (number_parts enc).2.2.1

theorem decodeDisp_emitImm (n : ℕ) (disp : BitVec 64) :
    decodeDisp n (emitImm disp n) = some ((disp.setWidth (8 * n)).signExtend 64, []) := by
  have hfield := immField_emitImm disp n []
  rw [append_nil] at hfield
  unfold decodeDisp
  rw [if_pos (Nat.le_of_eq (length_emitImm disp n).symm), hfield,
    drop_of_length_le (Nat.le_of_eq (length_emitImm disp n))]

theorem decodeModDisp_dispForm (disp : BitVec 64) (baseLow : BitVec 8) :
    decodeModDisp ((dispForm disp baseLow).1.setWidth 2) (dispForm disp baseLow).2 =
      some ((disp.setWidth 32).signExtend 64, []) := by
  have hshort (h : FitsSigned 8 disp) :
      (disp.setWidth (8 * 1)).signExtend 64 = (disp.setWidth 32).signExtend 64 := by
    have h32 : FitsSigned 32 disp := h.mono (by decide)
    rw [signExtend_setWidth_of_fits (by decide) (by decide) h32]
    exact signExtend_setWidth_of_fits (by decide) (by decide) h
  unfold dispForm
  split
  next h =>
    subst h
    split <;> rfl
  next h =>
    split
    next hfits =>
      have h8 : FitsSigned 8 disp := ⟨by norm_num; omega, by norm_num; omega⟩
      rw [← hshort h8]
      exact decodeDisp_emitImm 1 disp
    next => exact decodeDisp_emitImm 4 disp

theorem dispForm_mode (disp : BitVec 64) (baseLow : BitVec 8) :
    (dispForm disp baseLow).1.setWidth 2 ≠ (3 : BitVec 2) ∧
      (baseLow = 5 → (dispForm disp baseLow).1.setWidth 2 ≠ (0 : BitVec 2)) := by
  unfold dispForm
  split <;> split <;> simp_all

theorem decodeIndex_encodeSIB (rex : Rex) (power index base : BitVec 8)
    (hx : rex.x = extBit index) :
    decodeIndex rex (encodeSIB power (low3 index) base) =
      if low4 index = 4 then none
      else some (low4 index, (1 : BitVec 64) <<< (power.setWidth 2).toNat) := by
  obtain ⟨hmod, hreg, -⟩ := fields_encodeModRM power (low3 index) base
  unfold decodeIndex
  rw [encodeSIB_eq, hmod, hreg, hx, extended_low3]

theorem decodeIndex_none (rex : Rex) (base : BitVec 8) (hx : rex.x = false) :
    decodeIndex rex (encodeSIB 0 4 base) = none := by
  obtain ⟨-, hreg, -⟩ := fields_encodeModRM 0 4 base
  unfold decodeIndex
  rw [encodeSIB_eq, hreg, hx]
  rfl

/-- What the bytes say: a register has four bits, an index 4 is none, and a displacement 32. -/
def EncMemory.encoded (mem : EncMemory) : Address where
  base :=
    if mem.ripRel then .rip else if mem.base = NoReg then .none else .register (low4 mem.base)
  index :=
    if mem.ripRel ∨ mem.index = NoReg ∨ low4 mem.index = 4 then none
    else some (low4 mem.index, (1 : BitVec 64) <<< ((scaleToPower mem.scale).setWidth 2).toNat)
  disp := (mem.disp.setWidth 32).signExtend 64

theorem decodeMemory_noBase (rex : Rex) (regField power index : BitVec 8) (disp : BitVec 64) :
    decodeMemory rex ([encodeModRM 0 regField 4, encodeSIB power index 5] ++ emitImm disp 4) =
      some (regField.setWidth 3, ⟨.none, decodeIndex rex (encodeSIB power index 5),
        (disp.setWidth 32).signExtend 64⟩, []) := by
  obtain ⟨hmod, hreg, hrm⟩ := fields_encodeModRM 0 regField 4
  obtain ⟨-, -, hbase⟩ := fields_encodeModRM power index 5
  have hdisp := decodeDisp_emitImm 4 disp
  rw [← encodeSIB_eq] at hbase
  simp only [decodeMemory, cons_append, nil_append, hmod, hreg, hrm, hbase, hdisp]
  rw [if_neg (by decide), if_pos (by decide), if_pos ⟨rfl, rfl⟩]
  rfl

theorem decodeMemory_rip (rex : Rex) (regField : BitVec 8) (disp : BitVec 64) :
    decodeMemory rex ([encodeModRM 0 regField 5] ++ emitImm disp 4) =
      some (regField.setWidth 3, ⟨.rip, none, (disp.setWidth 32).signExtend 64⟩, []) := by
  obtain ⟨hmod, hreg, hrm⟩ := fields_encodeModRM 0 regField 5
  have hdisp := decodeDisp_emitImm 4 disp
  simp only [decodeMemory, cons_append, nil_append, hmod, hreg, hrm, hdisp]
  rw [if_neg (by decide), if_neg (by decide), if_pos ⟨rfl, rfl⟩]
  rfl

section Base

variable (rex : Rex) (regField base : BitVec 8) (disp : BitVec 64)

theorem decodeMemory_sib (power index : BitVec 8) (hb : rex.b = extBit base) :
    decodeMemory rex ([encodeModRM (dispForm disp (low3 base)).1 regField 4,
        encodeSIB power index (low3 base)] ++ (dispForm disp (low3 base)).2) =
      some (regField.setWidth 3, ⟨.register (low4 base),
        decodeIndex rex (encodeSIB power index (low3 base)),
        (disp.setWidth 32).signExtend 64⟩, []) := by
  obtain ⟨hmod, hreg, hrm⟩ := fields_encodeModRM (dispForm disp (low3 base)).1 regField 4
  obtain ⟨-, -, hbase⟩ := fields_encodeModRM power index (low3 base)
  obtain ⟨hthree, hzero⟩ := dispForm_mode disp (low3 base)
  have hdisp := decodeModDisp_dispForm disp (low3 base)
  have hnoBase : ¬((dispForm disp (low3 base)).1.setWidth 2 = (0 : BitVec 2) ∧
      (low3 base).setWidth 3 = (5 : BitVec 3)) := by
    rintro ⟨hm, hlow⟩
    exact hzero (low3_eq_five hlow) hm
  rw [← encodeSIB_eq] at hbase
  simp only [decodeMemory, cons_append, nil_append, hmod, hreg, hrm, hbase, hdisp]
  rw [if_neg hthree, if_pos (by decide), if_neg hnoBase, hb, extended_low3]
  rfl

theorem decodeMemory_base (hb : rex.b = extBit base) (hlow : low3 base ≠ 4) :
    decodeMemory rex ([encodeModRM (dispForm disp (low3 base)).1 regField (low3 base)] ++
        (dispForm disp (low3 base)).2) =
      some (regField.setWidth 3, ⟨.register (low4 base), none,
        (disp.setWidth 32).signExtend 64⟩, []) := by
  obtain ⟨hmod, hreg, hrm⟩ :=
    fields_encodeModRM (dispForm disp (low3 base)).1 regField (low3 base)
  obtain ⟨hthree, hzero⟩ := dispForm_mode disp (low3 base)
  have hdisp := decodeModDisp_dispForm disp (low3 base)
  have hnoSib : (low3 base).setWidth 3 ≠ (4 : BitVec 3) := fun h => hlow (low3_eq_four h)
  have hnoRip : ¬((dispForm disp (low3 base)).1.setWidth 2 = (0 : BitVec 2) ∧
      (low3 base).setWidth 3 = (5 : BitVec 3)) := by
    rintro ⟨hm, hlow⟩
    exact hzero (low3_eq_five hlow) hm
  simp only [decodeMemory, cons_append, nil_append, hmod, hreg, hrm, hdisp]
  rw [if_neg hthree, if_neg hnoSib, if_neg hnoRip, hb, extended_low3]
  rfl

end Base

theorem decodeMemory_build (regField : BitVec 8) (mem : EncMemory) (w r : Bool) :
    decodeMemory (buildMemoryModRM regField mem ⟨w, r, false, false⟩).2
        (buildMemoryModRM regField mem ⟨w, r, false, false⟩).1.bytes =
      some (regField.setWidth 3, mem.encoded, []) := by
  obtain ⟨base, index, scale, disp, ripRel, needsReloc⟩ := mem
  unfold buildMemoryModRM EncMemory.encoded
  dsimp only
  cases ripRel with
  | true =>
    rw [if_pos rfl, if_pos rfl, if_pos (Or.inl rfl)]
    cases needsReloc <;> exact decodeMemory_rip _ regField disp
  | false =>
    simp only [Bool.false_eq_true, if_false, false_or]
    by_cases hindex : index = NoReg
    · rw [if_pos (Or.inl hindex)]
      by_cases hbase : base = NoReg
      · rw [if_pos ⟨hbase, hindex⟩, if_pos hbase]
        rw [ModRMPlan.of, decodeMemory_noBase, decodeIndex_none _ _ rfl]
      · rw [if_neg fun h => hbase h.1, if_neg fun h => h hindex, if_neg hbase]
        by_cases hlow : low3 base = 4
        · rw [if_pos hlow]
          rw [ModRMPlan.of, decodeMemory_sib _ _ _ _ _ _ rfl, decodeIndex_none _ _ rfl]
        · rw [if_neg hlow]
          exact decodeMemory_base _ _ _ _ rfl hlow
    · rw [if_neg fun h => hindex h.2, if_pos hindex]
      have hnone : (index = NoReg ∨ low4 index = 4) ↔ low4 index = 4 := or_iff_right hindex
      by_cases hbase : base = NoReg
      · rw [if_pos hbase, if_pos hbase]
        rw [ModRMPlan.of, decodeMemory_noBase, decodeIndex_encodeSIB _ _ _ _ rfl]
        simp only [hnone]
      · rw [if_neg hbase, if_neg hbase]
        rw [ModRMPlan.of, decodeMemory_sib _ _ _ _ _ _ rfl, decodeIndex_encodeSIB _ _ _ _ rfl]
        simp only [hnone]

/-! ## The address that is denoted -/

/-- The operands that the addressing bytes can name. -/
def EncMemory.Encodable (mem : EncMemory) : Prop :=
  FitsSigned 32 mem.disp ∧
    if mem.ripRel then mem.index = NoReg ∨ mem.scale = 0
    else (mem.base = NoReg ∨ mem.base < 16) ∧ (mem.index = NoReg ∨ (mem.index < 16 ∧ mem.index ≠ 4 ∧
          (mem.scale = 1 ∨ mem.scale = 2 ∨ mem.scale = 4 ∨ mem.scale = 8)) ∨
        (low4 mem.index = 4 ∧ mem.scale = 0))

/-- One register holds 1 and the others 0. -/
def unitRegs (number : BitVec 8) : BitVec 8 → BitVec 64 := fun r => if r = number then 1 else 0

theorem low4_eq_iff (enc : BitVec 8) : low4 enc = enc ↔ enc < 16 := (number_parts enc).2.2.2.1

theorem low4_lt (enc : BitVec 8) : low4 enc < 16 := (number_parts enc).2.2.2.2

section

variable (scale : BitVec 8)
include scale

theorem scale_factors :
    ((1 : BitVec 64) <<< ((scaleToPower scale).setWidth 2).toNat = scale.setWidth 64 ↔
        scale = 1 ∨ scale = 2 ∨ scale = 4 ∨ scale = 8) ∧
      (1 : BitVec 64) <<< ((scaleToPower scale).setWidth 2).toNat ≠ 0 ∧
      (scale.setWidth 64 = (0 : BitVec 64) ↔ scale = 0) ∧
      (1 : BitVec 64) + scale.setWidth 64 ≠ 0 := by
  revert scale
  decide +kernel

theorem factor_eq_iff :
    (1 : BitVec 64) <<< ((scaleToPower scale).setWidth 2).toNat = scale.setWidth 64 ↔
      scale = 1 ∨ scale = 2 ∨ scale = 4 ∨ scale = 8 := (scale_factors scale).1

theorem factor_ne_zero :
    (1 : BitVec 64) <<< ((scaleToPower scale).setWidth 2).toNat ≠ 0 := (scale_factors scale).2.1

theorem scale_eq_zero_iff :
    scale.setWidth 64 = (0 : BitVec 64) ↔ scale = 0 := (scale_factors scale).2.2.1

theorem one_add_scale_ne_zero : (1 : BitVec 64) + scale.setWidth 64 ≠ 0 :=
  (scale_factors scale).2.2.2

end

/-- The displacement and, for all registers, the rest of two equal addresses agree. -/
theorem Address.eval_eq_iff (a b : Address) : (∀ regs rip, a.eval regs rip = b.eval regs rip) ↔
      a.disp = b.disp ∧ ∀ regs rip,
        a.base.eval regs rip + (a.index.map fun i => regs i.1 * i.2).getD 0 =
          b.base.eval regs rip + (b.index.map fun i => regs i.1 * i.2).getD 0 := by
  have hzero (c : Address) : c.eval (fun _ => 0) 0 = c.disp := by
    obtain ⟨base, index, disp⟩ := c
    cases base <;> cases index <;> simp [Address.eval, AddressBase.eval]
  constructor
  · intro h
    have hdisp : a.disp = b.disp := by rw [← hzero a, ← hzero b, h]
    refine ⟨hdisp, fun regs rip => ?_⟩
    have heval := h regs rip
    unfold Address.eval at heval
    rw [hdisp] at heval
    exact (BitVec.add_left_inj _).mp heval
  · rintro ⟨hdisp, h⟩ regs rip
    unfold Address.eval
    rw [h, hdisp]

/-- Two index terms on a common base agree on all registers. -/
theorem index_eq_iff (index scale : BitVec 8) (hindex : index ≠ NoReg) (base : AddressBase) :
    (∀ regs rip, base.eval regs rip + ((if low4 index = 4 then none
          else some (low4 index, (1 : BitVec 64) <<< ((scaleToPower scale).setWidth 2).toNat)).map
            fun i => regs i.1 * i.2).getD 0 =
      base.eval regs rip + regs index * scale.setWidth 64) ↔
      index = NoReg ∨ (index < 16 ∧ index ≠ 4 ∧ (scale = 1 ∨ scale = 2 ∨ scale = 4 ∨ scale = 8)) ∨
        (low4 index = 4 ∧ scale = 0) := by
  simp only [BitVec.add_right_inj, hindex, false_or]
  by_cases hfour : low4 index = 4
  · simp only [hfour, if_true, map_none, getD_none, true_and]
    have hnot : ¬(index < 16 ∧ index ≠ 4 ∧ (scale = 1 ∨ scale = 2 ∨ scale = 4 ∨ scale = 8)) := by
      rintro ⟨hlt, hne, -⟩
      exact hne (((low4_eq_iff index).mpr hlt).symm.trans hfour)
    rw [or_iff_right hnot, ← scale_eq_zero_iff]
    constructor
    · intro h
      have hone := h (fun _ => 1#64) 0
      rw [BitVec.one_mul] at hone
      exact hone.symm
    · intro h regs _
      rw [h, BitVec.ofNat_eq_ofNat, BitVec.mul_zero]
  · simp only [hfour, if_false, map_some, getD_some, false_and, or_false]
    rw [← factor_eq_iff, ← low4_eq_iff]
    constructor
    · intro h
      have hunit := h (unitRegs (low4 index)) 0
      unfold unitRegs at hunit
      rw [if_pos rfl, BitVec.ofNat_eq_ofNat, BitVec.one_mul] at hunit
      split at hunit
      next hsame =>
        rw [BitVec.one_mul] at hunit
        exact ⟨hsame.symm, fun h => hfour (by rw [← hsame, h]), hunit⟩
      next => exact absurd (hunit.trans BitVec.zero_mul) (factor_ne_zero scale)
    · rintro ⟨hlow, -, hfactor⟩ regs _
      rw [hlow, hfactor]

/-- The base of the bytes is the operand's when the register has four bits. -/
theorem base_eq_of_eval (mem : EncMemory) (hrip : mem.ripRel = false) (h : ∀ regs rip,
      mem.encoded.base.eval regs rip + (mem.encoded.index.map fun i => regs i.1 * i.2).getD 0 =
        mem.address.base.eval regs rip + (mem.address.index.map fun i => regs i.1 * i.2).getD 0) :
    mem.base = NoReg ∨ mem.base < 16 := by
  by_contra hcon
  obtain ⟨hnone, hlarge⟩ := not_or.mp hcon
  have hother (r : BitVec 8) : low4 r ≠ mem.base := fun hr => hlarge (hr ▸ low4_lt r)
  have hunit := h (unitRegs mem.base) 0
  have hleft : mem.encoded.base.eval (unitRegs mem.base) 0 +
      (mem.encoded.index.map fun i => unitRegs mem.base i.1 * i.2).getD 0 = 0 := by
    unfold EncMemory.encoded AddressBase.eval unitRegs
    simp only [hrip, Bool.false_eq_true, hnone, if_false, hother]
    split <;> simp [hother]
  rw [hleft] at hunit
  unfold EncMemory.address AddressBase.eval unitRegs at hunit
  simp only [hrip, Bool.false_eq_true, hnone, if_false, if_true] at hunit
  by_cases hindex : mem.index = NoReg
  · simp [hindex] at hunit
  · simp only [hindex, if_false, map_some, getD_some] at hunit
    by_cases hsame : mem.index = mem.base
    · rw [if_pos hsame, BitVec.ofNat_eq_ofNat, BitVec.ofNat_eq_ofNat, BitVec.one_mul] at hunit
      exact one_add_scale_ne_zero mem.scale hunit.symm
    · simp [hsame] at hunit

theorem base_encoded {mem : EncMemory} (hbase : mem.base = NoReg ∨ mem.base < 16) :
    mem.encoded.base = mem.address.base := by
  unfold EncMemory.encoded EncMemory.address
  dsimp only
  split
  · rfl
  · split
    next => rfl
    next hnone => rw [(low4_eq_iff mem.base).mpr (hbase.resolve_left hnone)]

theorem encoded_eval_iff (mem : EncMemory) :
    (∀ regs rip, mem.encoded.eval regs rip = mem.address.eval regs rip) ↔ mem.Encodable := by
  rw [Address.eval_eq_iff]
  unfold EncMemory.Encodable
  refine and_congr (signExtend_setWidth_iff (by decide) (by decide) mem.disp) ?_
  cases hrip : mem.ripRel with
  | true =>
    unfold EncMemory.encoded EncMemory.address
    simp only [hrip, true_or, if_true, map_none, getD_none, BitVec.add_right_inj]
    by_cases hindex : mem.index = NoReg
    · simp [hindex]
    · simp only [hindex, if_false, map_some, getD_some, false_or]
      rw [← scale_eq_zero_iff]
      constructor
      · intro h
        have hone := h (fun _ => 1#64) 0
        rw [BitVec.one_mul] at hone
        exact hone.symm
      · intro h regs _
        rw [h, BitVec.ofNat_eq_ofNat, BitVec.mul_zero]
  | false =>
    have hiff (hbase : mem.base = NoReg ∨ mem.base < 16) : (∀ regs rip,
          mem.encoded.base.eval regs rip + (mem.encoded.index.map fun i => regs i.1 * i.2).getD 0 =
            mem.address.base.eval regs rip +
              (mem.address.index.map fun i => regs i.1 * i.2).getD 0) ↔
          mem.index = NoReg ∨ (mem.index < 16 ∧ mem.index ≠ 4 ∧
              (mem.scale = 1 ∨ mem.scale = 2 ∨ mem.scale = 4 ∨ mem.scale = 8)) ∨
            (low4 mem.index = 4 ∧ mem.scale = 0) := by
      rw [base_encoded hbase]
      by_cases hindex : mem.index = NoReg
      · unfold EncMemory.encoded EncMemory.address
        simp [hindex]
      · rw [← index_eq_iff mem.index mem.scale hindex mem.address.base]
        unfold EncMemory.encoded EncMemory.address
        simp only [hrip, hindex, Bool.false_eq_true, false_or, if_false, map_some, getD_some]
    constructor
    · intro h
      have hbase := base_eq_of_eval mem hrip h
      exact ⟨hbase, (hiff hbase).mp h⟩
    · rintro ⟨hbase, hindex⟩
      exact (hiff hbase).mpr hindex

theorem EncodedExactly.eval {regField : BitVec 8} {mem : EncMemory} {w r forceRex : Bool}
    (h : EncodedExactly regField mem w r forceRex) :
    ∀ regs rip, mem.encoded.eval regs rip = mem.address.eval regs rip := by
  obtain ⟨address, hdecode, -, -, heval⟩ := h
  rw [decodeRex_emitRex, decodeMemory_build] at hdecode
  have haddress : mem.encoded = address :=
    congrArg (fun d => d.2.1) (some.inj hdecode)
  rw [haddress]
  exact heval

/-- The addressing bytes are exact on the operands that they can name, and only on them. -/
theorem encodedExactly_iff (regField : BitVec 8) (mem : EncMemory) (w r forceRex : Bool) :
    EncodedExactly regField mem w r forceRex ↔ mem.Encodable := by
  rw [← encoded_eval_iff]
  constructor
  · exact EncodedExactly.eval
  · intro heval
    obtain ⟨hw, hr⟩ := buildMemoryModRM_rex regField mem ⟨w, r, false, false⟩
    refine ⟨mem.encoded, ?_⟩
    dsimp only
    rw [decodeRex_emitRex]
    exact ⟨decodeMemory_build regField mem w r, hw, hr, heval⟩

/-- A displacement of 2 ^ 31 on RAX becomes -2 ^ 31. -/
theorem large_disp_not_encodedExactly :
    ¬EncodedExactly 0 ⟨0, NoReg, 1, 0x80000000, false, false⟩ true false false := by
  intro h
  have heval := h.eval (fun _ => 0) 0
  revert heval
  decide

end EzPacker.X86
