import EzPacker.CFrontend.Code

/-!
# Bit-fields

A member with a width in bits lies in a storage unit of the size of its type. The frontend
loads the unit as a number of the member's type, shifts the field out of it or masks the new
value into it, and a boolean is a number of a single bit.
-/

namespace EzPacker.CFrontend

open Nat List BitVec Option

open Mir (FlexInt MirInstructionOpCode binary scalarValue shift unary)
open FlexNumber (LibTomMath ofU64 ofI64)

/-! ## Types and layout -/

inductive TypeKind
  | TY_BOOL | TY_CHAR | TY_SHORT | TY_INT | TY_ENUM | TY_LONG
  deriving DecidableEq, Repr

structure IntegerType where
  kind : TypeKind
  isUnsigned : Bool
  deriving DecidableEq, Repr

/-- The size in bytes. -/
def IntegerType.size (ty : IntegerType) : ℕ :=
  match ty.kind with
  | .TY_BOOL | .TY_CHAR => 1
  | .TY_SHORT => 2
  | .TY_INT | .TY_ENUM => 4
  | .TY_LONG => 8

def isUnsignedType (ty : IntegerType) : Bool := ty.isUnsigned || ty.kind = .TY_BOOL

/-- The bits of the type that the frontend gives to values. -/
def mapType (ty : IntegerType) : ℕ :=
  match ty.kind with
  | .TY_BOOL => 1
  | .TY_CHAR => 8
  | .TY_SHORT => 16
  | .TY_INT | .TY_ENUM => 32
  | .TY_LONG => 64

inductive MemberType
  | integer (ty : IntegerType)
  | other (size : ℕ)
  deriving DecidableEq, Repr

def MemberType.size : MemberType → ℕ
  | .integer ty => ty.size
  | .other size => size

structure Member where
  ty : MemberType
  align : ℕ
  isBitfield : Bool
  bitWidth : ℕ
  offset : ℕ
  bitOffset : ℕ
  deriving DecidableEq, Repr

def alignTo (n align : ℕ) : ℕ := (n + align - 1) / align * align

def alignDown (n align : ℕ) : ℕ := n / align * align

def structDecl (isPacked : Bool) : List Member → ℕ → List Member
  | [], _ => []
  | mem :: rest, bits =>
    if mem.isBitfield = true ∧ mem.bitWidth = 0 then
      mem :: structDecl isPacked rest (alignTo bits (mem.ty.size * 8))
    else if mem.isBitfield then
      let sz := mem.ty.size
      let bits :=
        if bits / (sz * 8) ≠ (bits + mem.bitWidth - 1) / (sz * 8) then alignTo bits (sz * 8)
        else bits
      { mem with offset := alignDown (bits / 8) sz, bitOffset := bits % (sz * 8) } ::
        structDecl isPacked rest (bits + mem.bitWidth)
    else
      let bits := if isPacked then bits else alignTo bits (mem.align * 8)
      { mem with offset := bits / 8 } :: structDecl isPacked rest (bits + mem.ty.size * 8)

/-- A bit-field as a structure or a union places it. -/
def PlacedBitfield (mem : Member) (ty : IntegerType) : Prop :=
  mem.ty = .integer ty ∧ mem.isBitfield = true ∧ mem.bitWidth ≠ 0 ∧
    ((∃ isPacked members, mem ∈ structDecl isPacked members 0) ∨
      (mem.offset = 0 ∧ mem.bitOffset = 0))

/-! ## Lowering -/

variable (mp : LibTomMath)

/-- A difference in the unsigned type of 16 bits that it is kept in. -/
def shiftAmount (difference : ℤ) : ℕ := (BitVec.ofInt 16 difference).toNat

/-- The read of a member whose address is in a register. New registers are numbered from
`next` on. -/
def lowerBitfieldRead (mem : Member) (memberTy : IntegerType) (addr : VReg) (next : ℕ) :
    List Inst × VReg :=
  let containerBits := mapType memberTy
  let rawWord : VReg := ⟨next, containerBits⟩
  let shlAmt := shiftAmount (containerBits - mem.bitWidth - mem.bitOffset)
  let shrAmt := shiftAmount (containerBits - mem.bitWidth)
  let shlReg : VReg := ⟨next + 1, containerBits⟩
  let shrReg : VReg := ⟨next + 2, containerBits⟩
  let afterShl := if 0 < shlAmt then shlReg else rawWord
  ([.LOAD rawWord (.memory addr 0)] ++
    (if 0 < shlAmt then
      [.scalar .SHL shlReg [.register rawWord, intOperand mp containerBits shlAmt]]
    else []) ++
    (if 0 < shrAmt then
      [.scalar (if isUnsignedType memberTy then .SHR else .SAR) shrReg
        [.register afterShl, intOperand mp containerBits shrAmt]]
    else []),
    if 0 < shrAmt then shrReg else afterShl)

def fieldMask (bitWidth : ℕ) : BitVec 64 :=
  if 64 ≤ bitWidth then ~~~0#64 else (1#64 <<< bitWidth) - 1#64

def clearMask (containerBits bitWidth bitOffset : ℕ) : BitVec 64 :=
  let clear := ~~~(fieldMask bitWidth <<< bitOffset)
  if containerBits < 64 then clear &&& ((1#64 <<< containerBits) - 1#64) else clear

/-- The register of the new value, of the type of the container. -/
def lowerBitfieldRhs (containerBits : ℕ) (rhs : Operand) (next : ℕ) : List Inst × VReg :=
  let (code, rhsReg) := ensureRegister rhs next
  let conv : VReg := ⟨next + 1, containerBits⟩
  if rhsReg.bits ≠ containerBits then
    (code ++ [.scalar (if containerBits < rhsReg.bits then .TRUNC else .ZEXT) conv
        [.register rhsReg]], conv)
  else (code, rhsReg)

/-- The value of an assignment, from the register of the masked one. -/
def lowerBitfieldResult (mem : Member) (memberTy : IntegerType) (maskedRhs : VReg) (next : ℕ) :
    List Inst × VReg :=
  let containerBits := mapType memberTy
  let sShl : VReg := ⟨next, containerBits⟩
  let sSar : VReg := ⟨next + 1, containerBits⟩
  let signShift := shiftAmount (containerBits - mem.bitWidth)
  if isUnsignedType memberTy then ([], maskedRhs)
  else if 0 < signShift then
    ([.scalar .SHL sShl [.register maskedRhs, intOperand mp containerBits signShift],
      .scalar .SAR sSar [.register sShl, intOperand mp containerBits signShift]], sSar)
  else ([], maskedRhs)

/-- The assignment to a member, with the register of its value. -/
def lowerBitfieldAssign (mem : Member) (memberTy : IntegerType) (addr : VReg) (rhs : Operand)
    (next : ℕ) : List Inst × VReg :=
  let containerBits := mapType memberTy
  let oldVal : VReg := ⟨next, containerBits⟩
  let clearedOld : VReg := ⟨next + 1, containerBits⟩
  let (rhsCode, rhsReg) := lowerBitfieldRhs containerBits rhs (next + 2)
  let maskedRhs : VReg := ⟨next + 4, containerBits⟩
  let shifted : VReg := ⟨next + 5, containerBits⟩
  let shiftedRhs := if 0 < mem.bitOffset then shifted else maskedRhs
  let newWord : VReg := ⟨next + 6, containerBits⟩
  let (resultCode, resultVal) := lowerBitfieldResult mp mem memberTy maskedRhs (next + 7)
  ([.LOAD oldVal (.memory addr 0), .scalar .AND clearedOld [.register oldVal,
        wordOperand mp containerBits (clearMask containerBits mem.bitWidth mem.bitOffset)]] ++
    rhsCode ++
    [.scalar .AND maskedRhs
      [.register rhsReg, wordOperand mp containerBits (fieldMask mem.bitWidth)]] ++
    (if 0 < mem.bitOffset then
      [.scalar .SHL shifted [.register maskedRhs, intOperand mp containerBits mem.bitOffset]]
    else []) ++
    [.scalar .OR newWord [.register clearedOld, .register shiftedRhs],
      .STORE (.memory addr 0) (.register newWord)] ++
    resultCode, resultVal)

/-! ## Exactness -/

def fieldValue (mem : Member) (ty : IntegerType) (unit : ℕ) : ℕ :=
  let field := (BitVec.ofNat (8 * ty.size) unit).extractLsb' mem.bitOffset mem.bitWidth
  if isUnsignedType ty then (field.setWidth (mapType ty)).toNat
  else (field.signExtend (mapType ty)).toNat

def assignedBit (mem : Member) (unit value i : ℕ) : Bool :=
  if mem.bitOffset ≤ i ∧ i < mem.bitOffset + mem.bitWidth then value.testBit (i - mem.bitOffset)
  else unit.testBit i

/-- A read yields the field, and an assignment of a value of `rhsBits` bits changes the bits of
the field and no others and has the value that a read yields behind it. -/
def BitfieldExact (mem : Member) (ty : IntegerType) (rhsBits : ℕ) : Prop :=
  ∀ (places : Places) (s : State) (addr : VReg) (rhs : Operand) (next : ℕ),
    addr.bits = 64 → addr.id < next → rhs.bits = rhsBits →
    rhs.Below next →
      let a := s.addressOf places (.memory addr 0)
      let read := lowerBitfieldRead mp mem ty addr next
      let assign := lowerBitfieldAssign mp mem ty addr rhs next
      let readBehind := lowerBitfieldRead mp mem ty addr (next + 9)
      (∃ s', run places s read.1 = some s' ∧ s'.mem = s.mem ∧
        s'.readReg read.2 = fieldValue mem ty (s.mem.load a ty.size)) ∧
      ∃ s', run places s assign.1 = some s' ∧
        (∀ i < 8 * ty.size, (s'.mem.load a ty.size).testBit i =
          assignedBit mem (s.mem.load a ty.size) (s.read places rhs) i) ∧
        (∀ b, ty.size ≤ ByteMemory.behind b a → s'.mem b = s.mem b) ∧
        ∃ s'', run places s' readBehind.1 = some s'' ∧ s''.mem = s'.mem ∧
          s''.readReg readBehind.2 = s'.readReg assign.2

/-! ## Layout -/

theorem alignTo_mod {n align : ℕ} : alignTo n align % align = 0 := mul_mod_left _ _

/-- A field that crosses the end of a unit is moved to the start of the next. -/
theorem bitOffset_add_le {sz w bits : ℕ} (hsize : 0 < sz) :
    (if bits / (sz * 8) ≠ (bits + w - 1) / (sz * 8) then alignTo bits (sz * 8)
      else bits) % (sz * 8) + w ≤ 8 * sz ∨
    (8 * sz < w ∧ (if bits / (sz * 8) ≠ (bits + w - 1) / (sz * 8) then alignTo bits (sz * 8)
      else bits) % (sz * 8) = 0) := by
  split_ifs with hcross
  · rw [alignTo_mod]
    omega
  · have hsame : bits / (sz * 8) = (bits + w - 1) / (sz * 8) := not_not.mp hcross
    have hunit : 0 < sz * 8 := by omega
    have hlast := mod_lt (bits + w - 1) hunit
    have hdiv := div_add_mod bits (sz * 8)
    have hdiv' := div_add_mod (bits + w - 1) (sz * 8)
    rw [← hsame] at hdiv'
    omega

/-- A field does not cross the end of its unit; one that is wider starts with it. -/
theorem bitOffset_of_mem_structDecl {isPacked : Bool} {members : List Member} {bits : ℕ}
    {mem : Member} (h : mem ∈ structDecl isPacked members bits)
    (hbits : mem.isBitfield = true) (hwidth : mem.bitWidth ≠ 0) (hsize : 0 < mem.ty.size) :
    mem.bitOffset + mem.bitWidth ≤ 8 * mem.ty.size ∨
      (8 * mem.ty.size < mem.bitWidth ∧ mem.bitOffset = 0) := by
  induction members generalizing bits with
  | nil => exact absurd h not_mem_nil
  | cons first rest ih =>
    unfold structDecl at h
    split at h
    next hzero =>
      rcases mem_cons.mp h with rfl | hrest
      · exact absurd hzero.2 hwidth
      · exact ih hrest
    next =>
      split at h
      next hfield =>
        dsimp only at h
        rcases mem_cons.mp h with rfl | hrest
        · dsimp only at hwidth hsize ⊢
          exact bitOffset_add_le hsize
        · exact ih hrest
      next hplain =>
        rcases mem_cons.mp h with rfl | hrest
        · exact absurd hbits hplain
        · exact ih hrest

/-! ## Shifts -/

theorem shiftAmount_lt (difference : ℤ) : shiftAmount difference < 2 ^ 16 := isLt _

/-! ## Runs of the code -/

def shiftedBy {c : ℕ} (opcode : MirInstructionOpCode) (value : BitVec c) (amount : ℕ) :
    Option (BitVec c) := shift opcode value (amount % 2 ^ c)

def readValue (mem : Member) (ty : IntegerType) (unit : ℕ) : Option (BitVec (mapType ty)) :=
  (shiftedBy .SHL (BitVec.ofNat (mapType ty) unit)
    (shiftAmount (mapType ty - mem.bitWidth - mem.bitOffset))).bind fun value =>
      shiftedBy (if isUnsignedType ty then .SHR else .SAR) value
        (shiftAmount (mapType ty - mem.bitWidth))

def maskedValue (mem : Member) (ty : IntegerType) (value : ℕ) : BitVec (mapType ty) :=
  BitVec.ofNat (mapType ty) value &&& BitVec.ofNat (mapType ty) (fieldMask mem.bitWidth).toNat

def storedUnit (mem : Member) (ty : IntegerType) (unit value : ℕ) : Option (BitVec (mapType ty)) :=
  (shiftedBy .SHL (maskedValue mem ty value) mem.bitOffset).map fun shifted =>
    BitVec.ofNat (mapType ty) unit &&&
      BitVec.ofNat (mapType ty) (clearMask (mapType ty) mem.bitWidth mem.bitOffset).toNat |||
        shifted

def assignmentValue (mem : Member) (ty : IntegerType) (value : ℕ) : Option (BitVec (mapType ty)) :=
  if isUnsignedType ty then some (maskedValue mem ty value)
  else (shiftedBy .SHL (maskedValue mem ty value)
    (shiftAmount (mapType ty - mem.bitWidth))).bind fun shifted =>
      shiftedBy .SAR shifted (shiftAmount (mapType ty - mem.bitWidth))

def IsShift (opcode : MirInstructionOpCode) : Prop :=
  opcode = .SHL ∨ opcode = .SHR ∨ opcode = .SAR

variable {next : ℕ}

section Runs

variable {mp} {places : Places} {s t : State}

variable {c amount : ℕ} {opcode : MirInstructionOpCode} {rhs : Operand}

theorem shiftedBy_zero (hop : IsShift opcode) (hc : 0 < c) (value : BitVec c) :
    shiftedBy opcode value 0 = some value := by
  unfold shiftedBy shift
  rw [zero_mod, if_neg (by omega)]
  obtain rfl | rfl | rfl := hop <;> simp

variable (mp places s) in
theorem shiftedBy_map_toNat (hop : IsShift opcode) (hpos : 0 < c) {src : VReg} (hsrc : src.bits = c)
    (hamount : amount < 2 ^ 16) : scalarValue opcode c ([.register src, intOperand mp c amount].map
      fun src => (src.bits, s.read places src)) =
    (shiftedBy opcode (BitVec.ofNat c (s.readReg src)) amount).map BitVec.toNat := by
  have hread := read_intOperand mp places s hpos (show amount < 2 ^ 63 by omega)
  rw [map_cons, map_cons, map_nil, hread]
  change binary opcode c (src.bits, s.readReg src) _ = _
  rw [hsrc]
  unfold binary shiftedBy
  obtain rfl | rfl | rfl := hop <;> exact if_pos rfl

/-- A shift by a constant, which is left out for zero. -/
theorem run_shift (hop : IsShift opcode) (src : VReg) {id : ℕ} {rest : List Inst}
    (hbits : src.bits = c) (hpos : 0 < c) (hamount : amount < 2 ^ 16) :
    run places s ((if 0 < amount then
        [.scalar opcode ⟨id, c⟩ [.register src, intOperand mp c amount]] else []) ++ rest) =
      (shiftedBy opcode (BitVec.ofNat c (s.readReg src)) amount).bind fun value =>
        run places (if 0 < amount then s.write ⟨id, c⟩ value.toNat else s) rest := by
  split_ifs with hzero
  · have hvalue := shiftedBy_map_toNat mp places s hop hpos hbits hamount
    rw [List.cons_append, List.nil_append, run, exec, hvalue]
    cases shiftedBy opcode (BitVec.ofNat c (s.readReg src)) amount <;> rfl
  · obtain rfl : amount = 0 := by omega
    rw [shiftedBy_zero hop hpos]
    rfl

theorem run_shift_last (hop : IsShift opcode) (src : VReg) {id : ℕ} (hbits : src.bits = c)
    (hpos : 0 < c) (hamount : amount < 2 ^ 16) : run places s (if 0 < amount then
        [.scalar opcode ⟨id, c⟩ [.register src, intOperand mp c amount]] else []) =
      (shiftedBy opcode (BitVec.ofNat c (s.readReg src)) amount).map fun value =>
        if 0 < amount then s.write ⟨id, c⟩ value.toNat else s := by
  rw [← append_nil (ite _ _ _), run_shift hop src hbits hpos hamount]
  cases shiftedBy opcode (BitVec.ofNat c (s.readReg src)) amount <;> rfl

variable (s) in
theorem readReg_shift (src : VReg) (id : ℕ) (hop : IsShift opcode) (hbits : src.bits = c)
    (hpos : 0 < c) {value : BitVec c}
    (h : shiftedBy opcode (BitVec.ofNat c (s.readReg src)) amount = some value) :
    (if 0 < amount then s.write ⟨id, c⟩ value.toNat else s).readReg
      (if 0 < amount then ⟨id, c⟩ else src) = value.toNat := by
  split_ifs with hzero
  · rw [readReg_write_same, mod_eq_of_lt value.isLt]
  · obtain rfl : amount = 0 := by omega
    rw [shiftedBy_zero hop hpos, some_inj] at h
    rw [← h, toNat_ofNat, ← hbits, mod_eq_of_lt (readReg_lt s src)]

theorem SameBelow.shift {dst : VReg} (h : SameBelow next s t) (hdst : next ≤ dst.id) (value : ℕ) :
    SameBelow next s (if 0 < amount then t.write dst value else t) := by
  split_ifs
  · exact h.write hdst value
  · exact h

theorem mem_shift {dst : VReg} (value : ℕ) :
    (if 0 < amount then s.write dst value else s).mem = s.mem := by
  split_ifs <;> rfl

theorem mapType_pos (ty : IntegerType) : 0 < mapType ty := by
  unfold mapType
  split <;> decide

variable (mp places s) in
theorem run_lowerBitfieldRead (mem : Member) (ty : IntegerType) (addr : VReg) (next : ℕ) :
    ((run places s (lowerBitfieldRead mp mem ty addr next).1).map fun t =>
      (t.mem, t.readReg (lowerBitfieldRead mp mem ty addr next).2)) =
    (readValue mem ty (s.mem.load (s.addressOf places (.memory addr 0))
      (bytesOf (mapType ty)))).map fun value => (s.mem, value.toNat) := by
  have hshr : IsShift (if isUnsignedType ty then .SHR else .SAR) := by
    split_ifs
    · exact .inr (.inl rfl)
    · exact .inr (.inr rfl)
  have hpos := mapType_pos ty
  unfold lowerBitfieldRead readValue
  dsimp only
  rw [List.append_assoc, List.singleton_append, run_cons_LOAD]
  dsimp only
  generalize hraw : s.write ⟨next, mapType ty⟩ _ = raw
  have hread : BitVec.ofNat (mapType ty) (raw.readReg ⟨next, mapType ty⟩) =
      BitVec.ofNat (mapType ty) (s.mem.load (s.addressOf places (.memory addr 0))
        (bytesOf (mapType ty))) := by
    rw [← hraw, readReg_write_same]
    exact BitVec.eq_of_toNat_eq (by simp only [BitVec.toNat_ofNat, mod_mod])
  have hmem : raw.mem = s.mem := by rw [← hraw, mem_write]
  rw [run_shift (c := mapType ty) (.inl rfl) ⟨next, mapType ty⟩ rfl hpos (shiftAmount_lt _), hread]
  cases hshl : shiftedBy .SHL (BitVec.ofNat (mapType ty)
      (s.mem.load (s.addressOf places (.memory addr 0)) (bytesOf (mapType ty))))
      (shiftAmount (mapType ty - mem.bitWidth - mem.bitOffset)) with
  | none => rfl
  | some shifted =>
    rw [← hread] at hshl
    have hregister := readReg_shift raw _ (next + 1) (.inl rfl) rfl hpos hshl
    rw [Option.bind_some, Option.bind_some,
      run_shift_last hshr _ (by split_ifs <;> rfl) hpos (shiftAmount_lt _), hregister,
      BitVec.ofNat_toNat, BitVec.setWidth_eq]
    cases hlast : shiftedBy (if isUnsignedType ty then .SHR else .SAR) shifted
        (shiftAmount (mapType ty - mem.bitWidth)) with
    | none => rfl
    | some value =>
      rw [Option.map_some, Option.map_some, Option.map_some, mem_shift, mem_shift, hmem]
      rw [readReg_shift _ _ _ hshr (by split_ifs <;> rfl) hpos]
      rw [hregister, BitVec.ofNat_toNat, BitVec.setWidth_eq]
      exact hlast

variable (places s) in
/-- The value is cut to the container, or filled with zeros. -/
theorem run_lowerBitfieldRhs (c : ℕ) (hbelow : rhs.Below next) :
    ∃ t, run places s (lowerBitfieldRhs c rhs next).1 = some t ∧ t.mem = s.mem ∧
      SameBelow next s t ∧ t.readReg (lowerBitfieldRhs c rhs next).2 = s.read places rhs % 2 ^ c ∧
      (lowerBitfieldRhs c rhs next).2.bits = c ∧
      (lowerBitfieldRhs c rhs next).2.id < next + 2 := by
  obtain ⟨t, hrun, hmem, hsame, hvalue, hbits, hid⟩ := run_ensureRegister places s hbelow
  unfold lowerBitfieldRhs
  generalize hensure : ensureRegister rhs next = ensured at *
  obtain ⟨code, reg⟩ := ensured
  dsimp only at hrun hvalue hbits hid ⊢
  have hlt := readReg_lt t reg
  by_cases hne : reg.bits ≠ c
  · have hconv : scalarValue (if c < reg.bits then .TRUNC else .ZEXT) c
        [(reg.bits, t.readReg reg)] = some (t.readReg reg % 2 ^ c) := by
      split_ifs with hc
      · change (unary .TRUNC c (BitVec.ofNat reg.bits (t.readReg reg))).map BitVec.toNat = _
        rw [unary, if_pos hc, map_some, toNat_setWidth, toNat_ofNat, mod_eq_of_lt hlt]
      · change (unary .ZEXT c (BitVec.ofNat reg.bits (t.readReg reg))).map BitVec.toNat = _
        rw [unary, if_pos (by omega), map_some, toNat_setWidth, toNat_ofNat, mod_eq_of_lt hlt]
    rw [if_pos hne]
    refine ⟨t.write ⟨next + 1, c⟩ (t.readReg reg % 2 ^ c), ?_, hmem,
      hsame.write (le_succ next) _, ?_, rfl, lt_succ_self _⟩
    · rw [run_append, hrun, bind_some]
      exact run_cons_scalar _ hconv
    · rw [readReg_write_same, mod_mod, hvalue]
  · have heq : reg.bits = c := not_not.mp hne
    rw [if_neg hne]
    refine ⟨t, hrun, hmem, hsame, ?_, heq, lt_succ_of_lt hid⟩
    rw [hvalue, mod_eq_of_lt (by rw [← heq, ← hvalue]; exact hlt)]

variable (mp places s) in
theorem scalarValue_and_register {src : VReg} (hsrc : src.bits = c) (hpos : 0 < c)
    (word : BitVec 64) : scalarValue .AND c ([.register src, wordOperand mp c word].map
      fun src => (src.bits, s.read places src)) =
    some (BitVec.ofNat c (s.readReg src) &&& BitVec.ofNat c word.toNat).toNat := by
  have hread := read_wordOperand mp places s hpos word
  rw [List.map_cons, List.map_cons, List.map_nil, hread]
  change binary .AND c (src.bits, s.readReg src) (c, word.toNat % 2 ^ c) = _
  rw [hsrc]
  have hmod : BitVec.ofNat c (word.toNat % 2 ^ c) = BitVec.ofNat c word.toNat :=
    BitVec.eq_of_toNat_eq (by simp only [BitVec.toNat_ofNat, mod_mod])
  rw [← hmod]
  exact if_pos ⟨rfl, rfl⟩

theorem ofNat_toNat_self (value : BitVec c) : BitVec.ofNat c value.toNat = value := by
  rw [ofNat_toNat, setWidth_eq]

variable (mp places) in
theorem run_lowerBitfieldResult (mem : Member) (ty : IntegerType) {addr maskedRhs : VReg}
    {value : ℕ} (haddr : addr.id < next) (hbits : maskedRhs.bits = mapType ty)
    (hmasked : s.readReg maskedRhs = (maskedValue mem ty value).toNat) :
    ((run places s (lowerBitfieldResult mp mem ty maskedRhs next).1).map fun t =>
      (t.mem, t.readReg addr, t.readReg (lowerBitfieldResult mp mem ty maskedRhs next).2)) =
    (assignmentValue mem ty value).map fun value => (s.mem, s.readReg addr, value.toNat) := by
  have hpos := mapType_pos ty
  have hamount := shiftAmount_lt (mapType ty - mem.bitWidth)
  unfold lowerBitfieldResult assignmentValue
  dsimp only
  by_cases hunsigned : isUnsignedType ty = true
  · rw [if_pos hunsigned, if_pos hunsigned, run, map_some, map_some, hmasked]
  rw [if_neg hunsigned, if_neg hunsigned]
  split_ifs with hshift
  · rw [run, exec, shiftedBy_map_toNat mp places _ (.inl rfl) hpos hbits hamount, hmasked,
      ofNat_toNat_self]
    cases hshl : shiftedBy .SHL (maskedValue mem ty value)
        (shiftAmount (mapType ty - mem.bitWidth)) with
    | none => rfl
    | some shifted =>
      rw [map_some, map_some, bind_some, bind_some, run, exec,
        shiftedBy_map_toNat mp places _ (.inr (.inr rfl)) hpos rfl hamount, readReg_write_same,
        mod_eq_of_lt shifted.isLt, ofNat_toNat_self]
      cases hsar : shiftedBy .SAR shifted (shiftAmount (mapType ty - mem.bitWidth)) with
      | none => rfl
      | some result =>
        rw [map_some, map_some, bind_some, run, map_some,
          map_some, readReg_write_same, mod_eq_of_lt result.isLt, mem_write,
          mem_write, readReg_write_of_ne _ _ _ (show addr.id ≠ next + 1 by omega),
          readReg_write_of_ne _ _ _ (show addr.id ≠ next by omega)]
  · have hzero : shiftAmount (mapType ty - mem.bitWidth) = 0 := by omega
    rw [hzero, shiftedBy_zero (.inl rfl) hpos, bind_some,
      shiftedBy_zero (.inr (.inr rfl)) hpos, run, map_some, map_some, hmasked]

/-- The unit without the field, in a register. -/
def clearedUnit (mem : Member) (ty : IntegerType) (unit : ℕ) : BitVec (mapType ty) :=
  BitVec.ofNat (mapType ty) unit &&&
    BitVec.ofNat (mapType ty) (clearMask (mapType ty) mem.bitWidth mem.bitOffset).toNat

variable (mp places s) in
theorem run_masked (mem : Member) (ty : IntegerType) (addr : VReg) (hbelow : rhs.Below next)
    (rest : List Inst) : ∃ t, run places s ([.LOAD ⟨next, mapType ty⟩ (.memory addr 0),
          .scalar .AND ⟨next + 1, mapType ty⟩ [.register ⟨next, mapType ty⟩,
            wordOperand mp (mapType ty) (clearMask (mapType ty) mem.bitWidth mem.bitOffset)]] ++
        (lowerBitfieldRhs (mapType ty) rhs (next + 2)).1 ++
        [.scalar .AND ⟨next + 4, mapType ty⟩
          [.register (lowerBitfieldRhs (mapType ty) rhs (next + 2)).2,
            wordOperand mp (mapType ty) (fieldMask mem.bitWidth)]] ++ rest) =
          run places t rest ∧
      t.mem = s.mem ∧ SameBelow next s t ∧
      t.readReg ⟨next + 1, mapType ty⟩ = (clearedUnit mem ty
        (s.mem.load (s.addressOf places (.memory addr 0)) (bytesOf (mapType ty)))).toNat ∧
      t.readReg ⟨next + 4, mapType ty⟩ = (maskedValue mem ty (s.read places rhs)).toNat := by
  have hpos := mapType_pos ty
  generalize hunit : s.mem.load (s.addressOf places (.memory addr 0)) (bytesOf (mapType ty)) = unit
  have hloaded : (s.write ⟨next, mapType ty⟩ unit).readReg ⟨next, mapType ty⟩ =
      unit % 2 ^ mapType ty := readReg_write_same _ _ _
  have hand := scalarValue_and_register mp places (s.write ⟨next, mapType ty⟩ unit)
    (show (⟨next, mapType ty⟩ : VReg).bits = mapType ty from rfl) hpos
    (clearMask (mapType ty) mem.bitWidth mem.bitOffset)
  have hmod : BitVec.ofNat (mapType ty) (unit % 2 ^ mapType ty) = BitVec.ofNat (mapType ty) unit :=
    BitVec.eq_of_toNat_eq (by simp only [BitVec.toNat_ofNat, mod_mod])
  rw [hloaded, hmod] at hand
  generalize hcleared : (s.write ⟨next, mapType ty⟩ unit).write ⟨next + 1, mapType ty⟩
    (clearedUnit mem ty unit).toNat = cleared
  have hsame : SameBelow next s cleared := by
    rw [← hcleared]
    exact (SameBelow.refl.write (show next ≤ next from le_rfl) _).write (le_succ next) _
  obtain ⟨t, hrun, hmem, hsame', hvalue, hbits, -⟩ := run_lowerBitfieldRhs places cleared
    (mapType ty) (hbelow.mono (le_add_right next 2))
  have hmasked := scalarValue_and_register mp places t hbits hpos (fieldMask mem.bitWidth)
  have hmod' : BitVec.ofNat (mapType ty) (s.read places rhs % 2 ^ mapType ty) =
      BitVec.ofNat (mapType ty) (s.read places rhs) :=
    BitVec.eq_of_toNat_eq (by simp only [BitVec.toNat_ofNat, mod_mod])
  rw [hvalue, hsame.read hbelow, hmod'] at hmasked
  refine ⟨t.write ⟨next + 4, mapType ty⟩ (maskedValue mem ty (s.read places rhs)).toNat, ?_, ?_,
    ?_, ?_, ?_⟩
  · rw [List.append_assoc, List.append_assoc, List.cons_append, List.cons_append, List.nil_append,
      run_cons_LOAD, hunit, run_cons_scalar ⟨next + 1, mapType ty⟩ hand]
    change run places ((s.write ⟨next, mapType ty⟩ unit).write ⟨next + 1, mapType ty⟩
      (clearedUnit mem ty unit).toNat) _ = _
    rw [hcleared, run_append, hrun, Option.bind_some, List.singleton_append,
      run_cons_scalar ⟨next + 4, mapType ty⟩ hmasked]
    rfl
  · rw [mem_write, hmem, ← hcleared, mem_write, mem_write]
  · exact (hsame.trans (le_add_right next 2) hsame').write (le_add_right next 4) _
  · rw [readReg_write_of_ne _ _ _ (show next + 1 ≠ next + 4 by omega),
      hsame' ⟨next + 1, mapType ty⟩ (show next + 1 < next + 2 by omega), ← hcleared,
      readReg_write_same, mod_eq_of_lt (BitVec.isLt _)]
  · rw [readReg_write_same, mod_eq_of_lt (BitVec.isLt _)]

variable (mp places s) in
theorem run_lowerBitfieldAssign (mem : Member) (ty : IntegerType) {addr : VReg}
    (haddr : addr.id < next) (hbelow : rhs.Below next) (hoffset : mem.bitOffset < 2 ^ 16) :
    ((run places s (lowerBitfieldAssign mp mem ty addr rhs next).1).map fun t =>
      (t.mem, t.readReg addr, t.readReg (lowerBitfieldAssign mp mem ty addr rhs next).2)) =
    (storedUnit mem ty (s.mem.load (s.addressOf places (.memory addr 0))
      (bytesOf (mapType ty))) (s.read places rhs)).bind fun unit =>
        (assignmentValue mem ty (s.read places rhs)).map fun value =>
          (s.mem.store (s.addressOf places (.memory addr 0)) (bytesOf (mapType ty)) unit.toNat,
            s.readReg addr, value.toNat) := by
  have hpos := mapType_pos ty
  unfold lowerBitfieldAssign storedUnit
  dsimp only
  rw [List.append_assoc, List.append_assoc]
  obtain ⟨t, hrun, hmem, hsame, hcleared, hmasked⟩ := run_masked mp places s mem ty addr hbelow
    ((if 0 < mem.bitOffset then
        [.scalar .SHL ⟨next + 5, mapType ty⟩
          [.register ⟨next + 4, mapType ty⟩, intOperand mp (mapType ty) mem.bitOffset]]
      else []) ++
      ([.scalar .OR ⟨next + 6, mapType ty⟩ [.register ⟨next + 1, mapType ty⟩,
          .register (if 0 < mem.bitOffset then ⟨next + 5, mapType ty⟩ else ⟨next + 4, mapType ty⟩)],
        .STORE (.memory addr 0) (.register ⟨next + 6, mapType ty⟩)] ++
      (lowerBitfieldResult mp mem ty ⟨next + 4, mapType ty⟩ (next + 7)).1))
  rw [hrun, run_shift (.inl rfl) ⟨next + 4, mapType ty⟩ rfl hpos hoffset, hmasked, ofNat_toNat_self]
  cases hshl : shiftedBy .SHL (maskedValue mem ty (s.read places rhs)) mem.bitOffset with
  | none => rfl
  | some shifted =>
    rw [Option.bind_some, Option.map_some, Option.bind_some]
    have hbehind : SameBelow (next + 5) t
        (if 0 < mem.bitOffset then t.write ⟨next + 5, mapType ty⟩ shifted.toNat else t) :=
      SameBelow.refl.shift (show next + 5 ≤ next + 5 from le_rfl) _
    have hregister := readReg_shift t ⟨next + 4, mapType ty⟩ (next + 5)
      (.inl rfl) rfl hpos (by rw [hmasked, ofNat_toNat_self]; exact hshl)
    have hmem' : (if 0 < mem.bitOffset then t.write ⟨next + 5, mapType ty⟩ shifted.toNat
        else t).mem = s.mem := (mem_shift _).trans hmem
    generalize (if 0 < mem.bitOffset then t.write ⟨next + 5, mapType ty⟩ shifted.toNat else t) = u
      at *
    have hsame' : SameBelow next s u := hsame.trans (le_add_right next 5) hbehind
    have hor : scalarValue .OR (mapType ty) ([.register ⟨next + 1, mapType ty⟩,
        .register (if 0 < mem.bitOffset then ⟨next + 5, mapType ty⟩
          else ⟨next + 4, mapType ty⟩)].map fun src => (src.bits, u.read places src)) =
        some (clearedUnit mem ty (s.mem.load (s.addressOf places (.memory addr 0))
          (bytesOf (mapType ty))) ||| shifted).toNat := by
      rw [List.map_cons, List.map_cons, List.map_nil]
      change scalarValue .OR (mapType ty) [(mapType ty, u.readReg ⟨next + 1, mapType ty⟩),
        ((if 0 < mem.bitOffset then (⟨next + 5, mapType ty⟩ : VReg)
          else ⟨next + 4, mapType ty⟩).bits, u.readReg _)] = _
      rw [hbehind ⟨next + 1, mapType ty⟩ (show next + 1 < next + 5 by omega), hcleared, hregister,
        apply_ite VReg.bits, ite_self]
      refine (Mir.scalarValue_arithmetic rfl rfl).trans ?_
      rw [ofNat_toNat_self, ofNat_toNat_self]
    rw [List.cons_append, List.cons_append, List.nil_append,
      run_cons_scalar ⟨next + 6, mapType ty⟩ hor, run_cons_STORE]
    generalize hnew : clearedUnit mem ty (s.mem.load (s.addressOf places (.memory addr 0))
      (bytesOf (mapType ty))) ||| shifted = new
    have hlast : SameBelow (next + 6) u (u.write ⟨next + 6, mapType ty⟩ new.toNat) :=
      SameBelow.refl.write (show next + 6 ≤ next + 6 from le_rfl) _
    have haddress : (u.write ⟨next + 6, mapType ty⟩ new.toNat).addressOf places
        (.memory addr 0) = s.addressOf places (.memory addr 0) :=
      (hsame'.trans (le_add_right next 6) hlast).addressOf haddr 0
    have hvalue : (u.write ⟨next + 6, mapType ty⟩ new.toNat).read places
        (.register ⟨next + 6, mapType ty⟩) = new.toNat :=
      (readReg_write_same _ _ _).trans (mod_eq_of_lt new.isLt)
    rw [haddress, hvalue, mem_write, hmem']
    generalize hstored : ({ u.write ⟨next + 6, mapType ty⟩ new.toNat with
      mem := s.mem.store (s.addressOf places (.memory addr 0)) (bytesOf (mapType ty))
        new.toNat } : State) = stored
    have hsameStored : SameBelow (next + 6) u stored := by
      rw [← hstored]
      exact hlast
    have hmaskedStored : stored.readReg ⟨next + 4, mapType ty⟩ =
        (maskedValue mem ty (s.read places rhs)).toNat := by
      rw [hsameStored ⟨next + 4, mapType ty⟩ (show next + 4 < next + 6 by omega),
        hbehind ⟨next + 4, mapType ty⟩ (show next + 4 < next + 5 by omega), hmasked]
    have haddrStored : stored.readReg addr = s.readReg addr :=
      (hsame'.trans (le_add_right next 6) hsameStored) addr haddr
    have hmemStored : stored.mem = s.mem.store (s.addressOf places (.memory addr 0))
        (bytesOf (mapType ty)) new.toNat := by rw [← hstored]
    have hnext : addr.id < next + 7 := by omega
    refine Eq.trans ?_ ((run_lowerBitfieldResult mp places mem ty hnext rfl hmaskedStored).trans ?_)
    · rw [← hstored]
      rfl
    · rw [haddrStored, hmemStored]
      rw [← hnew]
      rfl

end Runs

/-! ## Values -/

theorem bytesOf_mapType (ty : IntegerType) : bytesOf (mapType ty) = ty.size := by
  unfold bytesOf mapType IntegerType.size
  split <;> rfl

/-- The exactness of the values that the code computes. -/
def ValuesExact (mem : Member) (ty : IntegerType) (rhsBits : ℕ) : Prop :=
  ∀ unit < 2 ^ (8 * ty.size), ∀ value < 2 ^ rhsBits,
    (readValue mem ty unit).map BitVec.toNat = some (fieldValue mem ty unit) ∧
    ∃ newUnit result, storedUnit mem ty unit value = some newUnit ∧
      assignmentValue mem ty value = some result ∧
      (∀ i < 8 * ty.size, newUnit.toNat.testBit i = assignedBit mem unit value i) ∧
      readValue mem ty newUnit.toNat = some result

theorem size_le (ty : IntegerType) : ty.size ≤ 2 ^ 64 := by
  unfold IntegerType.size
  split <;> decide

theorem load_stored_unit (m : ByteMemory) (a : BitVec 64) {ty : IntegerType}
    (unit : BitVec (mapType ty)) :
    (m.store a (bytesOf (mapType ty)) unit.toNat).load a ty.size = unit.toNat := by
  have hlt : unit.toNat < 256 ^ ty.size := by
    refine Nat.lt_of_lt_of_le unit.isLt ?_
    rw [show (256 : ℕ) = 2 ^ 8 from rfl, ← pow_mul]
    refine Nat.pow_le_pow_right (by decide) ?_
    have := bytesOf_mapType ty
    unfold bytesOf at this
    omega
  rw [bytesOf_mapType, ByteMemory.load_store (size_le ty), Nat.mod_eq_of_lt hlt]

section Reduction

variable {places : Places} {s : State} {mem : Member} {ty : IntegerType} {addr : VReg}

theorem read_iff {value : ℕ} :
    (∃ t, run places s (lowerBitfieldRead mp mem ty addr next).1 = some t ∧ t.mem = s.mem ∧
      t.readReg (lowerBitfieldRead mp mem ty addr next).2 = value) ↔
    (readValue mem ty (s.mem.load (s.addressOf places (.memory addr 0)) ty.size)).map
      BitVec.toNat = some value := by
  have hrun := run_lowerBitfieldRead mp places s mem ty addr next
  rw [bytesOf_mapType] at hrun
  constructor
  · rintro ⟨t, ht, hmem, rfl⟩
    rw [ht, map_some] at hrun
    obtain ⟨v, hv, hpair⟩ := map_eq_some_iff.mp hrun.symm
    rw [hv, map_some]
    exact congrArg some (congrArg Prod.snd hpair)
  · intro h
    obtain ⟨v, hv, rfl⟩ := map_eq_some_iff.mp h
    rw [hv, map_some] at hrun
    obtain ⟨t, ht, hpair⟩ := map_eq_some_iff.mp hrun
    exact ⟨t, ht, congrArg Prod.fst hpair, congrArg Prod.snd hpair⟩

/-- The state behind an assignment with what it stores and its value. -/
structure Assigned (places : Places) (s : State) (addr : VReg) {ty : IntegerType}
    (unit value : BitVec (mapType ty)) (t : State) (register : VReg) : Prop where
  stored : t.mem = s.mem.store (s.addressOf places (.memory addr 0)) (bytesOf (mapType ty))
    unit.toNat
  address : t.addressOf places (.memory addr 0) = s.addressOf places (.memory addr 0)
  value : t.readReg register = value.toNat

variable {rhs : Operand} {next : ℕ} {t : State}

theorem assigned_of_pair {register : VReg} {unit value : BitVec (mapType ty)}
    (h : (s.mem.store (s.addressOf places (.memory addr 0)) (bytesOf (mapType ty)) unit.toNat,
      s.readReg addr, value.toNat) = (t.mem, t.readReg addr, t.readReg register)) :
    Assigned places s addr unit value t register := by
  obtain ⟨hmem, haddr, hvalue⟩ := Prod.mk.injEq .. ▸ (Prod.mk.injEq .. ▸ h)
  refine ⟨hmem.symm, ?_, hvalue.symm⟩
  unfold State.addressOf
  dsimp only
  rw [haddr]

section

variable (haddr : addr.id < next) (hbelow : rhs.Below next) (hoffset : mem.bitOffset < 2 ^ 16)
include haddr hbelow hoffset

/-- An assignment ends only where its shifts are defined. -/
theorem exists_of_run_assign
    (h : run places s (lowerBitfieldAssign mp mem ty addr rhs next).1 = some t) :
    ∃ unit value, storedUnit mem ty (s.mem.load (s.addressOf places (.memory addr 0)) ty.size)
        (s.read places rhs) = some unit ∧
      assignmentValue mem ty (s.read places rhs) = some value ∧
      Assigned places s addr unit value t (lowerBitfieldAssign mp mem ty addr rhs next).2 := by
  have hrun := run_lowerBitfieldAssign mp places s mem ty haddr hbelow hoffset
  rw [h, map_some] at hrun
  obtain ⟨unit, hunit, hrest⟩ := bind_eq_some_iff.mp hrun.symm
  obtain ⟨value, hvalue, hpair⟩ := map_eq_some_iff.mp hrest
  refine ⟨unit, value, ?_, hvalue, assigned_of_pair hpair⟩
  rwa [← bytesOf_mapType]

/-- An assignment ends where its shifts are defined. -/
theorem exists_run_assign {unit value : BitVec (mapType ty)}
    (hunit : storedUnit mem ty (s.mem.load (s.addressOf places (.memory addr 0)) ty.size)
      (s.read places rhs) = some unit)
    (hvalue : assignmentValue mem ty (s.read places rhs) = some value) :
    ∃ t, run places s (lowerBitfieldAssign mp mem ty addr rhs next).1 = some t ∧
      Assigned places s addr unit value t (lowerBitfieldAssign mp mem ty addr rhs next).2 := by
  have hrun := run_lowerBitfieldAssign mp places s mem ty haddr hbelow hoffset
  rw [bytesOf_mapType, hunit, bind_some, hvalue, map_some] at hrun
  obtain ⟨t, ht, hpair⟩ := map_eq_some_iff.mp hrun
  rw [← bytesOf_mapType] at hpair
  exact ⟨t, ht, assigned_of_pair hpair.symm⟩

end

end Reduction

theorem unit_lt (m : ByteMemory) (a : BitVec 64) (size : ℕ) : m.load a size < 2 ^ (8 * size) := by
  have hload := ByteMemory.load_lt m a size
  rwa [show (256 : ℕ) = 2 ^ 8 from rfl, ← pow_mul] at hload

theorem bitfieldExact_iff_valuesExact {mem : Member} {ty : IntegerType} {rhsBits : ℕ}
    (hoffset : mem.bitOffset < 2 ^ 16) :
    BitfieldExact mp mem ty rhsBits ↔ ValuesExact mem ty rhsBits := by
  constructor
  · intro h unit hunit value hvalue
    let places : Places := ⟨fun _ => 0, fun _ => 0⟩
    let s : State := ⟨fun _ => 0, ByteMemory.store (fun _ => 0) 0 ty.size unit⟩
    let rhs : Operand := .integer rhsBits ⟨value, rhsBits, false⟩
    obtain ⟨hread, t, ht, hbits, -, hbehind⟩ := h places s ⟨0, 64⟩ rhs 1 rfl one_pos rfl trivial
    have hload : s.mem.load (s.addressOf places (.memory ⟨0, 64⟩ 0)) ty.size = unit := by
      have haddress : s.addressOf places (.memory ⟨0, 64⟩ 0) = 0 := by
        change BitVec.ofNat 64 (0 % 2 ^ 64) + BitVec.ofInt 64 0 = 0
        decide
      rw [show (2 : ℕ) ^ (8 * ty.size) = 256 ^ ty.size by rw [pow_mul]; rfl] at hunit
      rw [haddress, ByteMemory.load_store (size_le ty), mod_eq_of_lt hunit]
    have hread' : s.read places rhs = value := by
      have hmod : ((value : ℤ) % 2 ^ rhsBits).toNat = value := by
        rw [Int.emod_eq_of_lt (Int.natCast_nonneg value) (by exact_mod_cast hvalue),
          Int.toNat_natCast]
      exact hmod
    rw [hload, hread'] at hbits
    rw [hload] at hread
    obtain ⟨newUnit, result, hstored, hassigned, hassign⟩ :=
      exists_of_run_assign mp one_pos (show rhs.Below 1 from trivial) hoffset ht
    rw [hload, hread'] at hstored
    rw [hread'] at hassigned
    refine ⟨?_, newUnit, result, hstored, hassigned, ?_, ?_⟩
    · have := (read_iff mp).mp hread
      rwa [hload] at this
    · intro i hi
      rw [← hbits i hi, hassign.stored, load_stored_unit]
    · obtain ⟨u, hu, hmem, hvalue'⟩ := hbehind
      have hreadBehind := (read_iff mp).mp ⟨u, hu, hmem, hvalue'.trans hassign.value⟩
      rw [hassign.address, hassign.stored, load_stored_unit] at hreadBehind
      obtain ⟨v, hv, hnat⟩ := map_eq_some_iff.mp hreadBehind
      rw [hv, eq_of_toNat_eq hnat]
  · intro h places s addr rhs next haddrBits haddr hrhs hbelow a read assign readBehind
    have hvalue : s.read places rhs < 2 ^ rhsBits := hrhs ▸ read_lt s rhs
    obtain ⟨hread, newUnit, result, hstored, hassigned, hbits, hbehind⟩ :=
      h _ (unit_lt s.mem a ty.size) _ hvalue
    obtain ⟨t, ht, hassign⟩ := exists_run_assign mp haddr hbelow hoffset hstored hassigned
    refine ⟨(read_iff mp).mpr hread, t, ht, ?_, ?_, ?_⟩
    · intro i hi
      rw [hassign.stored, load_stored_unit]
      exact hbits i hi
    · intro b hb
      rw [hassign.stored, ByteMemory.store_of_le (by rwa [bytesOf_mapType])]
    · have hreadBehind : (readValue mem ty (t.mem.load (t.addressOf places (.memory addr 0))
          ty.size)).map BitVec.toNat = some (t.readReg assign.2) := by
        rw [hassign.address, hassign.stored, load_stored_unit, hbehind, hassign.value]
        rfl
      exact (read_iff mp).mpr hreadBehind

end EzPacker.CFrontend
