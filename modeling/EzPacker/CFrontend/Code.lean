import EzPacker.FlexNumber.LibTomMath
import EzPacker.Lib.ByteMemory
import EzPacker.Mir.ScalarOperations

/-!
# Code of the C frontend

The instructions that the frontend builds for the bodies of functions, and what they do to
registers and memory. A register holds a number of its type, a load and a store are of the bytes
of the type of their register, and an instruction whose operation is undefined is stuck.
-/

namespace EzPacker.CFrontend

open Mir (FlexInt MirInstructionOpCode scalarValue)
open FlexNumber (LibTomMath ofU64 ofI64)

/-! ## Instructions -/

/-- A virtual register and the bits of its type. -/
structure VReg where
  id : ℕ
  bits : ℕ
  deriving DecidableEq, Repr

/-- The places in memory that operands refer to. -/
inductive Location
  | memory (base : VReg) (disp : ℤ)
  | slot (id : ℕ)
  | global (id : ℕ)
  deriving DecidableEq, Repr

inductive Operand
  | register (reg : VReg)
  | integer (bits : ℕ) (value : FlexInt)
  | address (location : Location)
  deriving DecidableEq

def Operand.bits : Operand → ℕ
  | .register reg => reg.bits
  | .integer bits _ => bits
  | .address _ => 64

def Operand.Below (next : ℕ) : Operand → Prop
  | .register reg => reg.id < next
  | .integer _ _ => True
  | .address (.memory base _) => base.id < next
  | .address _ => True

theorem Operand.Below.mono {next higher : ℕ} (hle : next ≤ higher) :
    ∀ {op : Operand}, op.Below next → op.Below higher
  | .register _, hreg => Nat.lt_of_lt_of_le hreg hle
  | .integer _ _, _ => trivial
  | .address (.memory _ _), hbase => Nat.lt_of_lt_of_le hbase hle
  | .address (.slot _), _ => trivial
  | .address (.global _), _ => trivial

inductive Inst
  | scalar (opcode : MirInstructionOpCode) (dst : VReg) (srcs : List Operand)
  | LOAD (dst : VReg) (location : Location)
  | STORE (location : Location) (src : Operand)
  | MOV_ADDR (dst : VReg) (location : Location)
  | CALL (dst : VReg) (callee : String) (args : List Operand)
  deriving DecidableEq

def ensureRegister (op : Operand) (next : ℕ) : List Inst × VReg :=
  match op with
  | .register reg => ([], reg)
  | _ => ([.scalar .MOV ⟨next, op.bits⟩ [op]], ⟨next, op.bits⟩)

variable (mp : LibTomMath)

/-- A constant from a number of the type `int`. -/
def intOperand (bits value : ℕ) : Operand :=
  .integer bits (ofI64 mp (BitVec.ofNat 64 value) bits)

def wordOperand (bits : ℕ) (value : BitVec 64) : Operand :=
  .integer bits (ofU64 mp value bits)

/-! ## Execution -/

/-- Where the objects of the frame and the globals are. -/
structure Places where
  slot : ℕ → BitVec 64
  global : ℕ → BitVec 64

structure State where
  regs : ℕ → ℕ
  mem : ByteMemory

namespace State

variable (places : Places) (s : State)

def readReg (reg : VReg) : ℕ := s.regs reg.id % 2 ^ reg.bits

def addressOf : Location → BitVec 64
  | .memory base disp => BitVec.ofNat 64 (s.readReg base) + BitVec.ofInt 64 disp
  | .slot id => places.slot id
  | .global id => places.global id

def read : Operand → ℕ
  | .register reg => s.readReg reg
  | .integer bits value => (value.value % 2 ^ bits).toNat
  | .address location => (s.addressOf places location).toNat

def write (reg : VReg) (value : ℕ) : State :=
  { s with regs := fun id => if id = reg.id then value % 2 ^ reg.bits else s.regs id }

end State

/-- The bytes of a type in memory. -/
def bytesOf (bits : ℕ) : ℕ := (bits + 7) / 8

/-- The functions of the runtime that the frontend calls by itself: one. -/
def callRuntime (callee : String) (args : List ℕ) (mem : ByteMemory) : Option (ByteMemory × ℕ) :=
  match callee, args with
  | "memset", [dest, value, len] =>
    some (mem.fill (BitVec.ofNat 64 dest) len (UInt8.ofNat value), dest)
  | _, _ => none

theorem callRuntime_memset (dest value len : ℕ) (mem : ByteMemory) :
    callRuntime "memset" [dest, value, len] mem =
      some (mem.fill (BitVec.ofNat 64 dest) len (UInt8.ofNat value), dest) := rfl

def exec (places : Places) (s : State) : Inst → Option State
  | .scalar opcode dst srcs =>
    (scalarValue opcode dst.bits (srcs.map fun src => (src.bits, s.read places src))).map
      (s.write dst)
  | .LOAD dst location =>
    some (s.write dst (s.mem.load (s.addressOf places location) (bytesOf dst.bits)))
  | .STORE location src =>
    some { s with
      mem := s.mem.store (s.addressOf places location) (bytesOf src.bits) (s.read places src) }
  | .MOV_ADDR dst location => some (s.write dst (s.addressOf places location).toNat)
  | .CALL dst callee args =>
    (callRuntime callee (args.map (s.read places)) s.mem).map fun result =>
      { s with mem := result.1 }.write dst result.2

def run (places : Places) (s : State) : List Inst → Option State
  | [] => some s
  | inst :: rest => (exec places s inst).bind fun s => run places s rest

variable {places : Places}

theorem run_append (s : State) (first second : List Inst) : run places s (first ++ second) =
      (run places s first).bind fun s => run places s second := by
  induction first generalizing s with
  | nil => rfl
  | cons inst rest ih =>
    simp only [List.cons_append, run, ih, Option.bind_assoc]

section Registers

variable (s : State) (reg : VReg) (value : ℕ)

theorem readReg_lt : s.readReg reg < 2 ^ reg.bits := Nat.mod_lt _ (Nat.two_pow_pos _)

@[simp] theorem readReg_write_same : (s.write reg value).readReg reg = value % 2 ^ reg.bits := by
  unfold State.readReg State.write
  dsimp only
  rw [if_pos rfl, Nat.mod_mod]

theorem readReg_write_of_ne {other : VReg} (h : other.id ≠ reg.id) :
    (s.write reg value).readReg other = s.readReg other := by
  unfold State.readReg State.write
  dsimp only
  rw [if_neg h]

@[simp] theorem mem_write : (s.write reg value).mem = s.mem := rfl

end Registers

section Steps

variable {s t : State} {rest : List Inst}

theorem run_cons_scalar {opcode : MirInstructionOpCode} (dst : VReg) {srcs : List Operand}
    {value : ℕ} (h : scalarValue opcode dst.bits
      (srcs.map fun src => (src.bits, s.read places src)) = some value) :
    run places s (.scalar opcode dst srcs :: rest) = run places (s.write dst value) rest := by
  rw [run, exec, h]
  rfl

theorem run_cons_LOAD {dst : VReg} {location : Location} :
    run places s (.LOAD dst location :: rest) =
      run places (s.write dst (s.mem.load (s.addressOf places location) (bytesOf dst.bits)))
        rest := rfl

theorem run_cons_STORE {location : Location} {src : Operand} :
    run places s (.STORE location src :: rest) =
      run places { s with
        mem := s.mem.store (s.addressOf places location) (bytesOf src.bits)
          (s.read places src) } rest := rfl

/-- Registers below `next` have what they had. -/
def SameBelow (next : ℕ) (s t : State) : Prop :=
  ∀ reg : VReg, reg.id < next → t.readReg reg = s.readReg reg

variable {next : ℕ}

theorem SameBelow.refl : SameBelow next s s := fun _ _ => rfl

section

variable (h : SameBelow next s t)
include h

theorem SameBelow.write {reg : VReg} (hreg : next ≤ reg.id) (value : ℕ) :
    SameBelow next s (t.write reg value) := by
  intro other hother
  rw [readReg_write_of_ne _ _ _ (by omega), h other hother]

theorem SameBelow.trans {higher : ℕ} {u : State} (hle : next ≤ higher) (h' : SameBelow higher t u) :
    SameBelow next s u := by
  intro reg hreg
  rw [h' reg (by omega), h reg hreg]

theorem SameBelow.read {src : Operand} (hsrc : src.Below next) :
    t.read places src = s.read places src := by
  match src, hsrc with
  | .register reg, hreg => exact h reg hreg
  | .integer _ _, _ => rfl
  | .address (.memory base disp), hbase =>
    change (BitVec.ofNat 64 (t.readReg base) + _).toNat =
      (BitVec.ofNat 64 (s.readReg base) + _).toNat
    rw [h base hbase]
  | .address (.slot _), _ => rfl
  | .address (.global _), _ => rfl

theorem SameBelow.addressOf {base : VReg} (hbase : base.id < next) (disp : ℤ) :
    t.addressOf places (.memory base disp) = s.addressOf places (.memory base disp) := by
  unfold State.addressOf
  dsimp only
  rw [h base hbase]

end

theorem read_lt (s : State) (src : Operand) : s.read places src < 2 ^ src.bits := by
  match src with
  | .register reg => exact readReg_lt s reg
  | .integer bits value =>
    have hpos : (0 : ℤ) < 2 ^ bits := by positivity
    have hlt := Int.emod_lt_of_pos value.value hpos
    change (value.value % 2 ^ bits).toNat < 2 ^ bits
    zify
    omega
  | .address location => exact BitVec.isLt _

theorem run_ensureRegister (places : Places) (s : State) {op : Operand} (hbelow : op.Below next) :
    ∃ t, run places s (ensureRegister op next).1 = some t ∧ t.mem = s.mem ∧
      SameBelow next s t ∧ t.readReg (ensureRegister op next).2 = s.read places op ∧
      (ensureRegister op next).2.bits = op.bits ∧ (ensureRegister op next).2.id < next + 1 := by
  have hmov (op : Operand) : ∃ t,
      run places s [.scalar .MOV ⟨next, op.bits⟩ [op]] = some t ∧ t.mem = s.mem ∧
        SameBelow next s t ∧ t.readReg ⟨next, op.bits⟩ = s.read places op := by
    refine ⟨s.write ⟨next, op.bits⟩ (s.read places op), ?_, rfl, SameBelow.refl.write ?_ _, ?_⟩
    · exact run_cons_scalar _ (Mir.scalarValue_mov (read_lt s op))
    · exact le_rfl
    · rw [readReg_write_same, Nat.mod_eq_of_lt (read_lt s op)]
  match op, hbelow with
  | .register reg, hreg => exact ⟨s, rfl, rfl, fun _ _ => rfl, rfl, rfl, Nat.lt_succ_of_lt hreg⟩
  | .integer bits value, _ =>
    obtain ⟨t, hrun, hmem, hsame, hvalue⟩ := hmov (.integer bits value)
    exact ⟨t, hrun, hmem, hsame, hvalue, rfl, Nat.lt_succ_self next⟩
  | .address location, _ =>
    obtain ⟨t, hrun, hmem, hsame, hvalue⟩ := hmov (.address location)
    exact ⟨t, hrun, hmem, hsame, hvalue, rfl, Nat.lt_succ_self next⟩

end Steps

/-! ## Constants -/

section Constants

variable (places : Places) (s : State)

variable {bits : ℕ}

theorem read_integer_of_nonneg (hbits : 1 ≤ bits) (signed : Bool) (x : ℕ) :
    s.read places (.integer bits
      (FlexNumber.clampToTwosComplement mp ⟨x, bits, signed⟩).1) = x % 2 ^ bits := by
  unfold State.read
  dsimp only
  rw [FlexNumber.clampToTwosComplement_of_nonneg mp hbits signed (Int.natCast_nonneg x)]
  dsimp only
  rw [show TwosComplement.wrap bits signed x % 2 ^ bits = x % 2 ^ bits from
    TwosComplement.wrap_modEq bits signed x]
  norm_cast

theorem read_intOperand {value : ℕ} (hbits : 1 ≤ bits) (hvalue : value < 2 ^ 63) :
    s.read places (intOperand mp bits value) = value % 2 ^ bits := by
  have hint : (BitVec.ofNat 64 value).toInt = value := by
    rw [BitVec.toInt_eq_toNat_cond, BitVec.toNat_ofNat, Nat.mod_eq_of_lt (by omega),
      if_pos (by omega)]
  unfold intOperand ofI64
  rw [hint]
  exact read_integer_of_nonneg mp places s hbits true value

theorem read_wordOperand (hbits : 1 ≤ bits) (value : BitVec 64) :
    s.read places (wordOperand mp bits value) = value.toNat % 2 ^ bits :=
  read_integer_of_nonneg mp places s hbits false value.toNat

end Constants

end EzPacker.CFrontend
