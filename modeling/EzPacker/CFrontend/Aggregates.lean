import EzPacker.CFrontend.Code

/-!
# Structures and unions as values

An expression of the type of a structure or a union is lowered to a register with the address
of the object, and an assignment, a parameter and a return take the register as they take that
of a number.
-/

namespace EzPacker.CFrontend

open Nat List BitVec Option

open FlexNumber (LibTomMath)

/-! ## Lowering -/

/-- A type by its size in bytes, which is a number of the type `int`. -/
structure SizedType where
  size : ℕ
  size_lt : size < 2 ^ 31

/-- The bits of the type that the frontend gives to values of a structure or a union. -/
def SizedType.bits (ty : SizedType) : ℕ :=
  if ty.size ≤ 1 then 8
  else if ty.size ≤ 2 then 16
  else if ty.size ≤ 4 then 32
  else if ty.size ≤ 8 then 64
  else 8 * ty.size

/-- An object that is named, with the operand of a pointer already lowered. -/
inductive Object
  | localVar (slot : ℕ)
  | globalVar (global : ℕ)
  | deref (pointer : Operand)
  | member (base : Object) (offset : ℕ)

variable (mp : LibTomMath)

def lowerAddr : Object → ℕ → List Inst × VReg × ℕ
  | .localVar slot, next =>
    ([.scalar .MOV ⟨next, 64⟩ [.address (.slot slot)]], ⟨next, 64⟩, next + 1)
  | .globalVar global, next => ([.MOV_ADDR ⟨next, 64⟩ (.global global)], ⟨next, 64⟩, next + 1)
  | .deref pointer, next =>
    let (code, reg) := ensureRegister pointer next
    (code, reg, next + 1)
  | .member base offset, next =>
    let (code, baseAddr, next) := lowerAddr base next
    if offset ≠ 0 then
      (code ++ [.scalar .ADD ⟨next, 64⟩ [.register baseAddr, intOperand mp 64 offset]],
        ⟨next, 64⟩, next + 1)
    else (code, baseAddr, next)

def lowerObject : Object → ℕ → List Inst × Operand × ℕ
  | .deref pointer, next => ([], pointer, next)
  | object, next =>
    let (code, addr, next) := lowerAddr mp object next
    (code, .register addr, next)

/-- The store of an assignment behind the code of its right side. -/
def lowerStore (lhs : Object) (rhs : Operand) (next : ℕ) : List Inst :=
  match lhs with
  | .localVar slot => [.STORE (.slot slot) rhs]
  | .globalVar global => [.STORE (.global global) rhs]
  | .deref pointer =>
    let (code, baseReg) := ensureRegister pointer next
    code ++ [.STORE (.memory baseReg 0) rhs]
  | .member base offset =>
    let (code, addr, _) := lowerAddr mp (.member base offset) next
    code ++ [.STORE (.memory addr 0) rhs]

def lowerAssign (lhs rhs : Object) (next : ℕ) : List Inst :=
  let (code, value, next) := lowerObject mp rhs next
  code ++ lowerStore mp lhs value next

/-- The parameter of a function with its stack slot, whose value is in a register. -/
def lowerParam (ty : SizedType) (slot id : ℕ) : List Inst :=
  [.STORE (.slot slot) (.register ⟨id, ty.bits⟩)]

/-- Zeros of eight bytes while there is room. -/
def zeroWords (base : VReg) (offset left : ℕ) : List Inst × ℕ × ℕ :=
  if 8 ≤ left then
    let (code, offset', left') := zeroWords base (offset + 8) (left - 8)
    (.STORE (.memory base offset) (intOperand mp 64 0) :: code, offset', left')
  else ([], offset, left)
termination_by left

/-- A zero of some bytes where there is room. -/
def zeroRest (base : VReg) (bytes : ℕ) : List Inst × ℕ × ℕ → List Inst × ℕ × ℕ
  | (code, offset, left) =>
    if bytes ≤ left then
      (code ++ [.STORE (.memory base offset) (intOperand mp (8 * bytes) 0)], offset + bytes,
        left - bytes)
    else (code, offset, left)

/-- Where a variable is. -/
inductive VariablePlace
  | slot (id : ℕ)
  | register (reg : VReg)
  deriving DecidableEq, Repr

def lowerMemzero (place : VariablePlace) (ty : SizedType) (next : ℕ) : List Inst :=
  match place with
  | .register _ => []
  | .slot id =>
    let baseAddr : VReg := ⟨next, 64⟩
    .scalar .MOV baseAddr [.address (.slot id)] ::
      (if 0 < ty.size ∧ ty.size ≤ 64 then
        (zeroRest mp baseAddr 1 (zeroRest mp baseAddr 2 (zeroRest mp baseAddr 4
          (zeroWords mp baseAddr 0 ty.size)))).1
      else if 64 < ty.size then
        [.CALL baseAddr "memset" [.register baseAddr, intOperand mp 32 0, intOperand mp 64 ty.size]]
      else [])

/-! ## Addresses -/

namespace Object

def address (places : Places) (s : State) : Object → BitVec 64
  | .localVar slot => places.slot slot
  | .globalVar global => places.global global
  | .deref pointer => BitVec.ofNat 64 (s.read places pointer)
  | .member base offset => base.address places s + BitVec.ofNat 64 offset

/-- The operand of a pointer has its bits and registers below `next`, and an offset is a number of
the type `int`. -/
def Lowered (next : ℕ) : Object → Prop
  | .localVar _ => True
  | .globalVar _ => True
  | .deref pointer => pointer.Below next ∧ pointer.bits = 64
  | .member base offset => base.Lowered next ∧ offset < 2 ^ 31

variable {places : Places} {s t : State} {next : ℕ}

theorem Lowered.mono {higher : ℕ} (hle : next ≤ higher) :
    ∀ {object : Object}, object.Lowered next → object.Lowered higher
  | .localVar _, _ => trivial
  | .globalVar _, _ => trivial
  | .deref _, h => ⟨h.1.mono hle, h.2⟩
  | .member _ _, h => ⟨h.1.mono hle, h.2⟩

theorem Lowered.address_eq (hsame : SameBelow next s t) :
    ∀ {object : Object}, object.Lowered next → object.address places t = object.address places s
  | .localVar _, _ => rfl
  | .globalVar _, _ => rfl
  | .deref _, h => congrArg (BitVec.ofNat 64) (hsame.read h.1)
  | .member _ _, h => congrArg (· + _) (h.1.address_eq hsame)

end Object

/-! ## Runs of the code -/

section Runs

variable {places : Places} {s : State} {next : ℕ}

variable (s next) in
/-- A number of 64 bits in a new register. -/
theorem written_address (a : BitVec 64) : (s.write ⟨next, 64⟩ a.toNat).mem = s.mem ∧
    SameBelow next s (s.write ⟨next, 64⟩ a.toNat) ∧
    (s.write ⟨next, 64⟩ a.toNat).readReg ⟨next, 64⟩ = a.toNat := by
  refine ⟨rfl, SameBelow.refl.write (show next ≤ next from le_rfl) _, ?_⟩
  rw [readReg_write_same, mod_eq_of_lt a.isLt]

variable (places s) in
/-- The code of an address puts it into its register. -/
theorem run_lowerAddr (object : Object) (h : object.Lowered next) :
    ∃ t, run places s (lowerAddr mp object next).1 = some t ∧ t.mem = s.mem ∧
      SameBelow next s t ∧ (lowerAddr mp object next).2.1.bits = 64 ∧
      (lowerAddr mp object next).2.1.id < (lowerAddr mp object next).2.2 ∧
      next ≤ (lowerAddr mp object next).2.2 ∧
      t.readReg (lowerAddr mp object next).2.1 = (object.address places s).toNat := by
  induction object with
  | localVar slot =>
    obtain ⟨hmem, hsame, hvalue⟩ := written_address s next (places.slot slot)
    exact ⟨_, run_cons_scalar _ (Mir.scalarValue_mov (places.slot slot).isLt), hmem, hsame, rfl,
      lt_succ_self next, le_succ next, hvalue⟩
  | globalVar global =>
    obtain ⟨hmem, hsame, hvalue⟩ := written_address s next (places.global global)
    exact ⟨_, rfl, hmem, hsame, rfl, lt_succ_self next, le_succ next, hvalue⟩
  | deref pointer =>
    obtain ⟨t, hrun, hmem, hsame, hvalue, hbits, hid⟩ := run_ensureRegister places s h.1
    have hlt : s.read places pointer < 2 ^ pointer.bits := read_lt s pointer
    rw [h.2] at hlt
    refine ⟨t, hrun, hmem, hsame, hbits.trans h.2, hid, le_succ next, hvalue.trans ?_⟩
    unfold Object.address
    rw [toNat_ofNat, mod_eq_of_lt hlt]
  | member base offset ih =>
    obtain ⟨t, hrun, hmem, hsame, hbits, hid, hnext, hvalue⟩ := ih h.1
    unfold lowerAddr
    generalize lowerAddr mp base next = lowered at hrun hbits hid hnext hvalue ⊢
    obtain ⟨code, baseAddr, next'⟩ := lowered
    dsimp only at hrun hbits hid hnext hvalue ⊢
    split_ifs with hzero
    · have hoffset := read_intOperand mp places t (show 1 ≤ 64 by decide)
        (show offset < 2 ^ 63 by have := h.2; omega)
      have hadd : Mir.scalarValue .ADD 64 ([.register baseAddr, intOperand mp 64 offset].map
          fun src => (src.bits, t.read places src)) =
          some (base.address places s + BitVec.ofNat 64 offset).toNat := by
        rw [map_cons, map_cons, map_nil, hoffset]
        change Mir.scalarValue .ADD 64 [(baseAddr.bits, t.readReg baseAddr), _] = _
        rw [hbits, hvalue]
        refine Mir.scalarValue_add.trans ?_
        rw [toNat_add, toNat_ofNat]
      obtain ⟨hmem', hsame', hvalue'⟩ := written_address t next'
        (base.address places s + BitVec.ofNat 64 offset)
      refine ⟨_, ?_, hmem'.trans hmem, hsame.trans hnext hsame', rfl, lt_succ_self next',
        hnext.trans (le_succ next'), hvalue'⟩
      rw [run_append, hrun, bind_some]
      exact run_cons_scalar ⟨next', 64⟩ hadd
    · refine ⟨t, hrun, hmem, hsame, hbits, hid, hnext, hvalue.trans ?_⟩
      change _ = (base.address places s + BitVec.ofNat 64 offset).toNat
      rw [not_not.mp hzero]
      exact congrArg BitVec.toNat (BitVec.add_zero _).symm

variable (places s) in
theorem run_lowerObject (object : Object) (h : object.Lowered next) :
    ∃ t, run places s (lowerObject mp object next).1 = some t ∧ t.mem = s.mem ∧
      SameBelow next s t ∧ (lowerObject mp object next).2.1.bits = 64 ∧
      (lowerObject mp object next).2.1.Below (lowerObject mp object next).2.2 ∧
      next ≤ (lowerObject mp object next).2.2 ∧
      t.read places (lowerObject mp object next).2.1 = (object.address places s).toNat := by
  cases object with
  | deref pointer =>
    have hlt : s.read places pointer < 2 ^ pointer.bits := read_lt s pointer
    rw [h.2] at hlt
    refine ⟨s, rfl, rfl, SameBelow.refl, h.2, h.1, le_rfl, ?_⟩
    exact (mod_eq_of_lt hlt).symm
  | localVar slot => exact run_lowerAddr mp places s (.localVar slot) h
  | globalVar global => exact run_lowerAddr mp places s (.globalVar global) h
  | member base offset => exact run_lowerAddr mp places s (.member base offset) h

variable (places s) in
/-- The store of an assignment is to the address of its left side. -/
theorem run_lowerStore {lhs : Object} {rhs : Operand} (hlhs : lhs.Lowered next)
    (hrhs : rhs.Below next) :
    ∃ t, run places s (lowerStore mp lhs rhs next) = some t ∧
      t.mem = s.mem.store (lhs.address places s) (bytesOf rhs.bits) (s.read places rhs) := by
  -- the address is in a register, the operand as it was
  have hstore {code : List Inst} {base : VReg} {t : State} (hrun : run places s code = some t)
      (hmem : t.mem = s.mem) (hsame : SameBelow next s t)
      (hvalue : t.readReg base = (lhs.address places s).toNat) :
      ∃ t, run places s (code ++ [.STORE (.memory base 0) rhs]) = some t ∧
        t.mem = s.mem.store (lhs.address places s) (bytesOf rhs.bits) (s.read places rhs) := by
    refine ⟨_, by rw [run_append, hrun, bind_some, run_cons_STORE, run], ?_⟩
    have haddress : t.addressOf places (.memory base 0) = lhs.address places s := by
      change BitVec.ofNat 64 (t.readReg base) + 0 = _
      rw [hvalue, ofNat_toNat, setWidth_eq]
      exact add_zero _
    rw [haddress, hmem, hsame.read hrhs]
  cases lhs with
  | localVar slot | globalVar global => exact ⟨_, rfl, rfl⟩
  | deref pointer =>
    obtain ⟨t, hrun, hmem, hsame, -, -, -, hvalue⟩ :=
      run_lowerAddr mp places s (.deref pointer) hlhs
    exact hstore hrun hmem hsame hvalue
  | member base offset =>
    obtain ⟨t, hrun, hmem, hsame, -, -, -, hvalue⟩ :=
      run_lowerAddr mp places s (.member base offset) hlhs
    exact hstore hrun hmem hsame hvalue

theorem run_zero {m : ByteMemory} {D : BitVec 64} {base : VReg} {offset bytes : ℕ}
    {rest : List Inst} (hmem : s.mem = m.fill D offset 0) (hbase : s.readReg base = D.toNat)
    (hpos : 0 < bytes) (hle : offset + bytes ≤ 2 ^ 64) :
    run places s (.STORE (.memory base offset) (intOperand mp (8 * bytes) 0) :: rest) =
      run places { s with mem := m.fill D (offset + bytes) 0 } rest := by
  have haddress : s.addressOf places (.memory base offset) = D + BitVec.ofNat 64 offset := by
    change BitVec.ofNat 64 (s.readReg base) + BitVec.ofInt 64 offset = _
    rw [hbase, ofNat_toNat, setWidth_eq, ofInt_natCast]
  have hvalue : s.read places (intOperand mp (8 * bytes) 0) = 0 :=
    (read_intOperand mp places s (by omega) (by decide)).trans (zero_mod _)
  have hbytes : bytesOf (intOperand mp (8 * bytes) 0).bits = bytes := by
    change (8 * bytes + 7) / 8 = bytes
    omega
  rw [run_cons_STORE, haddress, hvalue, hbytes, hmem, ByteMemory.store_zero,
    ByteMemory.fill_fill hle]

/-- Some zeros have been put in front of the offset, and `left` bytes are left behind it. -/
structure ZeroedUpTo (places : Places) (s : State) (m : ByteMemory) (D : BitVec 64) (total : ℕ)
    (stores : List Inst × ℕ × ℕ) : Prop where
  run : run places s stores.1 = some { s with mem := m.fill D stores.2.1 0 }
  total : stores.2.1 + stores.2.2 = total

variable {m : ByteMemory} {D : BitVec 64} {base : VReg}

theorem zeroWords_spec {offset left : ℕ} (hmem : s.mem = m.fill D offset 0)
    (hbase : s.readReg base = D.toNat) (hle : offset + left ≤ 2 ^ 64) :
    ZeroedUpTo places s m D (offset + left) (zeroWords mp base offset left) ∧
      (zeroWords mp base offset left).2.2 < 8 := by
  induction left using Nat.strong_induction_on generalizing s offset with
  | _ left ih =>
    unfold zeroWords
    split_ifs with hroom
    · have hbytes : offset + 8 + (left - 8) = offset + left := by omega
      have hnext : ZeroedUpTo places { s with mem := m.fill D (offset + 8) 0 } m D
          (offset + 8 + (left - 8)) (zeroWords mp base (offset + 8) (left - 8)) ∧
          (zeroWords mp base (offset + 8) (left - 8)).2.2 < 8 :=
        ih (left - 8) (by omega) rfl hbase (by omega)
      refine ⟨⟨?_, hnext.1.total.trans hbytes⟩, hnext.2⟩
      exact (run_zero mp hmem hbase (show 0 < 8 by decide) (by omega)).trans hnext.1.run
    · refine ⟨⟨?_, rfl⟩, not_le.mp hroom⟩
      change some s = some { s with mem := m.fill D offset 0 }
      rw [← hmem]

/-- A shorter zero follows where there is room. -/
theorem ZeroedUpTo.rest {total : ℕ} {stores : List Inst × ℕ × ℕ}
    (h : ZeroedUpTo places s m D total stores) (hbase : s.readReg base = D.toNat)
    (hle : total ≤ 2 ^ 64) {bytes : ℕ} (hpos : 0 < bytes) :
    ZeroedUpTo places s m D total (zeroRest mp base bytes stores) := by
  obtain ⟨code, offset, left⟩ := stores
  have htotal : offset + left = total := h.total
  unfold zeroRest
  dsimp only
  split_ifs with hroom
  · refine ⟨?_, by dsimp only; omega⟩
    dsimp only
    rw [run_append, h.run, bind_some]
    exact run_zero mp rfl hbase hpos (by omega)
  · exact h

theorem zeroRest_left {bytes : ℕ} {stores : List Inst × ℕ × ℕ} (h : stores.2.2 < 2 * bytes) :
    (zeroRest mp base bytes stores).2.2 < bytes := by
  obtain ⟨code, offset, left⟩ := stores
  have hleft : left < 2 * bytes := h
  unfold zeroRest
  dsimp only
  split_ifs <;> dsimp only <;> omega

end Runs

/-! ## Copies by value -/

section Copies

variable (places callee : Places) (s : State) (regs : ℕ → ℕ) (ty : SizedType)

/-- The left side has the bytes of the right side behind an assignment, and nothing else has
changed. -/
def AssignCopies (lhs rhs : Object) (next : ℕ) : Prop :=
  ∃ t, run places s (lowerAssign mp lhs rhs next) = some t ∧
    ByteMemory.Copied s.mem t.mem (lhs.address places s) (rhs.address places s) ty.size

/-- The slot of a parameter has the bytes of the argument, whose operand is handed over in a
register of the type. -/
def ParameterCopies (arg : Object) (slot id next : ℕ) : Prop :=
  ∃ t, run places s (lowerObject mp arg next).1 = some t ∧ ∃ u, run callee
        (t.write ⟨id, ty.bits⟩ (t.read places (lowerObject mp arg next).2.1))
        (lowerParam ty slot id) = some u ∧
      ByteMemory.Copied s.mem u.mem (callee.slot slot) (arg.address places s) ty.size

/-- The left side of an assignment has the bytes of the object that is returned, whose operand is
handed back in a register of the type. The caller has registers of its own. -/
def ReturnCopies (lhs object : Object) (id next : ℕ) : Prop :=
  ∃ t, run callee s (lowerObject mp object next).1 = some t ∧ ∃ u, run places
        ((State.mk regs t.mem).write ⟨id, ty.bits⟩ (t.read callee (lowerObject mp object next).2.1))
        (lowerStore mp lhs (.register ⟨id, ty.bits⟩) (id + 1)) = some u ∧
      ByteMemory.Copied s.mem u.mem (lhs.address places ⟨regs, s.mem⟩)
        (object.address callee s) ty.size

/-- The bytes of a variable are zero, and nothing else has changed. -/
def MemzeroExact (place : VariablePlace) (next : ℕ) : Prop :=
  ∃ t, run places s (lowerMemzero mp place ty next) = some t ∧
    match place with
    | .slot id => t.mem = s.mem.fill (places.slot id) ty.size 0
    | .register reg => t.readReg reg = 0 ∧ t.mem = s.mem

end Copies

section Exactness

variable {places callee : Places} {s : State} {regs : ℕ → ℕ} {ty : SizedType}

theorem SizedType.size_le (ty : SizedType) : ty.size ≤ 2 ^ 64 := by
  have := ty.size_lt
  omega

theorem assignCopies_iff {lhs rhs : Object} {next : ℕ} (hlhs : lhs.Lowered next)
    (hrhs : rhs.Lowered next) :
    AssignCopies mp places s ty lhs rhs next ↔
      ByteMemory.Holds s.mem (lhs.address places s) (rhs.address places s) ty.size 8
        (rhs.address places s).toNat := by
  obtain ⟨t, hrun, hmem, hsame, hbits, hbelow, hnext, hvalue⟩ :=
    run_lowerObject mp places s rhs hrhs
  obtain ⟨u, hstore, hstored⟩ := run_lowerStore mp places t (hlhs.mono hnext) hbelow
  rw [hlhs.address_eq hsame, hbits, hvalue, hmem] at hstored
  have hcode : run places s (lowerAssign mp lhs rhs next) = some u := by
    unfold lowerAssign
    dsimp only
    rw [run_append, hrun, bind_some, hstore]
  rw [← ByteMemory.copied_store_iff (by decide) ty.size_le]
  change _ ↔ ByteMemory.Copied s.mem (s.mem.store _ (bytesOf 64) _) _ _ _
  rw [← hstored]
  constructor
  · rintro ⟨v, hv, hcopied⟩
    rwa [some.inj (hcode.symm.trans hv)]
  · exact fun hcopied => ⟨u, hcode, hcopied⟩

theorem bytesOf_bits_le (ty : SizedType) : bytesOf ty.bits ≤ 2 ^ 64 := by
  have := ty.size_lt
  unfold SizedType.bits bytesOf
  split_ifs <;> omega

theorem parameterCopies_iff {arg : Object} {slot id next : ℕ} (harg : arg.Lowered next) :
    ParameterCopies mp places callee s ty arg slot id next ↔
      ByteMemory.Holds s.mem (callee.slot slot) (arg.address places s) ty.size (bytesOf ty.bits)
        ((arg.address places s).toNat % 2 ^ ty.bits) := by
  obtain ⟨t, hrun, hmem, -, -, -, -, hvalue⟩ := run_lowerObject mp places s arg harg
  have hparam (v : ℕ) : run callee (t.write ⟨id, ty.bits⟩ v) (lowerParam ty slot id) =
      some ⟨(t.write ⟨id, ty.bits⟩ v).regs,
        t.mem.store (callee.slot slot) (bytesOf ty.bits) (v % 2 ^ ty.bits)⟩ := by
    have hread : (t.write ⟨id, ty.bits⟩ v).read callee (.register ⟨id, ty.bits⟩) =
        v % 2 ^ ty.bits := readReg_write_same _ _ _
    unfold lowerParam
    rw [run_cons_STORE, run, hread]
    rfl
  unfold ParameterCopies
  rw [← ByteMemory.copied_store_iff (bytesOf_bits_le ty) ty.size_le, ← hmem, ← hvalue]
  constructor
  · rintro ⟨t', ht', u, hu, hcopied⟩
    obtain rfl := some.inj (hrun.symm.trans ht')
    rw [hparam] at hu
    rw [← some.inj hu] at hcopied
    exact hcopied
  · exact fun hcopied => ⟨t, hrun, _, hparam _, hcopied⟩

theorem returnCopies_iff {lhs object : Object} {id next : ℕ} (hlhs : lhs.Lowered id)
    (hobject : object.Lowered next) :
    ReturnCopies mp places callee s regs ty lhs object id next ↔
      ByteMemory.Holds s.mem (lhs.address places ⟨regs, s.mem⟩) (object.address callee s) ty.size
        (bytesOf ty.bits) ((object.address callee s).toNat % 2 ^ ty.bits) := by
  obtain ⟨t, hrun, hmem, -, -, -, -, hvalue⟩ := run_lowerObject mp callee s object hobject
  have hnew : SameBelow id ⟨regs, t.mem⟩ ((State.mk regs t.mem).write ⟨id, ty.bits⟩
      (t.read callee (lowerObject mp object next).2.1)) :=
    SameBelow.refl.write (show id ≤ id from le_rfl) _
  obtain ⟨u, hstore, hstored⟩ := run_lowerStore mp places ((State.mk regs t.mem).write
    ⟨id, ty.bits⟩ (t.read callee (lowerObject mp object next).2.1))
    (hlhs.mono (le_succ id)) (show (Operand.register ⟨id, ty.bits⟩).Below (id + 1) from
      lt_succ_self id)
  have hread : ((State.mk regs t.mem).write ⟨id, ty.bits⟩
      (t.read callee (lowerObject mp object next).2.1)).read places (.register ⟨id, ty.bits⟩) =
      (object.address callee s).toNat % 2 ^ ty.bits := by
    rw [hvalue]
    exact readReg_write_same _ _ _
  rw [hlhs.address_eq hnew, hread, mem_write, hmem] at hstored
  unfold ReturnCopies
  rw [← ByteMemory.copied_store_iff (bytesOf_bits_le ty) ty.size_le]
  constructor
  · rintro ⟨t', ht', u', hu', hcopied⟩
    obtain rfl := some.inj (hrun.symm.trans ht')
    obtain rfl := some.inj (hstore.symm.trans hu')
    rw [hstored] at hcopied
    exact hcopied
  · intro hcopied
    refine ⟨t, hrun, u, hstore, ?_⟩
    rw [hstored]
    exact hcopied

variable (s) in
/-- The zeros of a variable in its slot. -/
theorem run_lowerMemzero_slot (id next : ℕ) :
    ∃ t, run places s (lowerMemzero mp (.slot id) ty next) = some t ∧
      t.mem = s.mem.fill (places.slot id) ty.size 0 := by
  obtain ⟨-, -, hbase⟩ := written_address s next (places.slot id)
  have hmov (code : List Inst) :
      run places s (.scalar .MOV ⟨next, 64⟩ [.address (.slot id)] :: code) =
        run places (s.write ⟨next, 64⟩ (places.slot id).toNat) code :=
    run_cons_scalar _ (Mir.scalarValue_mov (places.slot id).isLt)
  unfold lowerMemzero
  dsimp only
  rw [hmov]
  split_ifs with hsmall hlarge
  · have hle : 0 + ty.size ≤ 2 ^ 64 := by
      have := ty.size_le
      omega
    have hempty : (s.write ⟨next, 64⟩ (places.slot id).toNat).mem =
        s.mem.fill (places.slot id) 0 0 := (ByteMemory.fill_zero _ _ _).symm
    obtain ⟨hwords, hleft⟩ : ZeroedUpTo places _ s.mem (places.slot id) (0 + ty.size)
        (zeroWords mp ⟨next, 64⟩ 0 ty.size) ∧ _ := zeroWords_spec mp hempty hbase hle
    have hrest := ((hwords.rest mp hbase hle (show 0 < 4 by decide)).rest mp hbase hle
      (show 0 < 2 by decide)).rest mp hbase hle (show 0 < 1 by decide)
    -- no byte is left behind the last zero
    have hnone : (zeroRest mp ⟨next, 64⟩ 1 (zeroRest mp ⟨next, 64⟩ 2 (zeroRest mp ⟨next, 64⟩ 4
        (zeroWords mp ⟨next, 64⟩ 0 ty.size)))).2.2 < 1 :=
      zeroRest_left mp (zeroRest_left mp (zeroRest_left mp hleft))
    have htotal := hrest.total
    refine ⟨_, hrest.run, ?_⟩
    change s.mem.fill _ _ 0 = s.mem.fill _ _ 0
    congr 1
    omega
  · have hzero := read_intOperand mp places (s.write ⟨next, 64⟩ (places.slot id).toNat)
      (show 1 ≤ 32 by decide) (show 0 < 2 ^ 63 by decide)
    have hlen := read_intOperand mp places (s.write ⟨next, 64⟩ (places.slot id).toNat)
      (show 1 ≤ 64 by decide) (show ty.size < 2 ^ 63 by have := ty.size_lt; omega)
    rw [mod_eq_of_lt (show ty.size < 2 ^ 64 by have := ty.size_lt; omega)] at hlen
    have hdest : (s.write ⟨next, 64⟩ (places.slot id).toNat).read places
        (.register ⟨next, 64⟩) = (places.slot id).toNat := hbase
    have hcall : callRuntime "memset" ([.register ⟨next, 64⟩, intOperand mp 32 0,
        intOperand mp 64 ty.size].map
          ((s.write ⟨next, 64⟩ (places.slot id).toNat).read places)) s.mem =
        some (s.mem.fill (places.slot id) ty.size 0, (places.slot id).toNat) := by
      rw [map_cons, map_cons, map_cons, map_nil, hdest, hzero, hlen,
        callRuntime_memset, ofNat_toNat, setWidth_eq]
      rfl
    refine ⟨_, by rw [run, exec, mem_write, hcall]; rfl, rfl⟩
  · refine ⟨_, rfl, ?_⟩
    rw [show ty.size = 0 by omega, ByteMemory.fill_zero]
    rfl

theorem memzero_iff {place : VariablePlace} {next : ℕ} : MemzeroExact mp places s ty place next ↔
      ∀ reg, place = .register reg → s.readReg reg = 0 := by
  unfold MemzeroExact
  cases place with
  | slot id =>
    refine ⟨fun _ reg h => ?_, fun _ => run_lowerMemzero_slot mp s id next⟩
    cases h
  | register reg =>
    constructor
    · rintro ⟨t, hrun, hzero, -⟩ other hother
      obtain rfl := some.inj (show some s = some t from hrun)
      rw [← VariablePlace.register.inj hother]
      exact hzero
    · exact fun hzero => ⟨s, rfl, hzero reg rfl, rfl⟩

/-- An object is copied where its bytes are those of its own address, as far as the address is
stored, and zeros are put into a variable that has a slot. -/
theorem aggregates_iff (places callee : Places) (s : State) (regs : ℕ → ℕ) (ty : SizedType)
    (lhs rhs object : Object) {next first id : ℕ} (slot : ℕ) (place : VariablePlace)
    (hlhs : lhs.Lowered next) (hrhs : rhs.Lowered next) (hobject : object.Lowered first)
    (hid : next ≤ id) :
    (AssignCopies mp places s ty lhs rhs next ↔
      ByteMemory.Holds s.mem (lhs.address places s) (rhs.address places s) ty.size 8
        (rhs.address places s).toNat) ∧
    (ParameterCopies mp places callee s ty rhs slot id next ↔
      ByteMemory.Holds s.mem (callee.slot slot) (rhs.address places s) ty.size (bytesOf ty.bits)
        ((rhs.address places s).toNat % 2 ^ ty.bits)) ∧
    (ReturnCopies mp places callee s regs ty lhs object id first ↔
      ByteMemory.Holds s.mem (lhs.address places ⟨regs, s.mem⟩) (object.address callee s) ty.size
        (bytesOf ty.bits) ((object.address callee s).toNat % 2 ^ ty.bits)) ∧
    (MemzeroExact mp places s ty place next ↔ ∀ reg, place = .register reg → s.readReg reg = 0) :=
  ⟨assignCopies_iff mp hlhs hrhs, parameterCopies_iff mp hrhs,
    returnCopies_iff mp (hlhs.mono hid) hobject, memzero_iff mp⟩

/-- Two objects of eight bytes. -/
def twoObjects (slot global : BitVec 64) : Places := ⟨fun _ => slot, fun _ => global⟩

def pairType : SizedType := ⟨8, by decide⟩

/-- Every byte of the memory and of the address of the right side is one. -/
theorem ones_aggregates : AssignCopies LibTomMath.exact (twoObjects 0x1000 0x0101010101010101)
        ⟨fun _ => 0, fun _ => 1⟩ pairType (.localVar 0) (.globalVar 0) 0 ∧
      MemzeroExact LibTomMath.exact (twoObjects 0x1000 0x0101010101010101)
        ⟨fun _ => 0, fun _ => 1⟩ pairType (.slot 0) 0 := by
  have h := aggregates_iff LibTomMath.exact (twoObjects 0x1000 0x0101010101010101)
    (twoObjects 0x1000 0x0101010101010101) ⟨fun _ => 0, fun _ => 1⟩ (fun _ => 0) pairType
    (.localVar 0) (.globalVar 0) (.globalVar 0) 0 (.slot 0) trivial trivial
    (show Object.Lowered 0 (.globalVar 0) from trivial) (le_refl 0)
  refine ⟨h.1.mpr ⟨by decide, by decide⟩, h.2.2.2.mpr ?_⟩
  intro reg hreg
  cases hreg

/-- The address of the right side is in the left side behind the assignment, the slot of the
parameter and the left side behind the call. -/
theorem zeros_not_copied :
    ¬ AssignCopies LibTomMath.exact (twoObjects 0x1000 0x2000) ⟨fun _ => 0, fun _ => 0⟩ pairType
        (.localVar 0) (.globalVar 0) 0 ∧
      ¬ ParameterCopies LibTomMath.exact (twoObjects 0x1000 0x2000) (twoObjects 0x3000 0x2000)
        ⟨fun _ => 0, fun _ => 0⟩ pairType (.globalVar 0) 0 0 0 ∧
      ¬ ReturnCopies LibTomMath.exact (twoObjects 0x1000 0x2000) (twoObjects 0x3000 0x2000)
        ⟨fun _ => 0, fun _ => 0⟩ (fun _ => 0) pairType (.localVar 0) (.globalVar 0) 0 0 := by
  have hlocal : (Object.localVar 0).Lowered 0 := trivial
  have hglobal : (Object.globalVar 0).Lowered 0 := trivial
  refine ⟨fun h => ?_, fun h => ?_, fun h => ?_⟩
  · exact absurd (((assignCopies_iff _ hlocal hglobal).mp h).1 1 (by decide)) (by decide)
  · exact absurd (((parameterCopies_iff _ hglobal).mp h).1 1 (by decide)) (by decide)
  · exact absurd (((returnCopies_iff _ hlocal hglobal).mp h).1 1 (by decide)) (by decide)

end Exactness

end EzPacker.CFrontend
