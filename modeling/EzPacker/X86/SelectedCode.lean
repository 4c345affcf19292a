import EzPacker.Mir.ScalarOperations
import EzPacker.Peephole.ReciprocalMoves
import EzPacker.RegAlloc.GraphEdges

/-!
# Selected integer code

The rows of the instruction table that comparisons, divisions and conversions are selected to, with
what they declare and what they do to the registers, and the assignments of registers that respect
the interference graph.
-/

namespace EzPacker.X86

open List BitVec Mir RegAlloc
open Peephole (CPUFlag resultFlags fillLow)

inductive Row
  | MOV8ri | MOV16ri | MOV32ri | MOV64ri | MOV8rr | MOV16rr | MOV32rr | MOV64rr
  | MOVSX32_8 | MOVSX32_16 | MOVSX64_8 | MOVSX64_16 | MOVSX64_32
  | MOVZX32_8 | MOVZX32_16 | MOVZX64_8 | MOVZX64_16
  | CMP32rr | CMP32ri | CMP64rr | CMP64ri
  | SETE | SETNE | SETL | SETLE | SETG | SETGE | SETB | SETBE | SETA | SETAE
  | SAR32ri | SAR64ri | IDIV32r | IDIV64r | DIV32r | DIV64r
  deriving DecidableEq, Repr

def Row.declares : Row → List MirOperandFlag × List MirInstructionFlag
  | MOV8ri | MOV16ri | MOV32ri | MOV64ri => ([.Write, .Read], [])
  | MOV8rr | MOV16rr | MOV32rr | MOV64rr => ([.Write, .Read], [.IsMove])
  | MOVSX32_8 | MOVSX32_16 | MOVSX64_8 | MOVSX64_16 | MOVSX64_32 => ([.Write, .Read], [])
  | MOVZX32_8 | MOVZX32_16 | MOVZX64_8 | MOVZX64_16 => ([.Write, .Read], [])
  | CMP32rr | CMP32ri | CMP64rr | CMP64ri =>
    ([.Read, .Read], [.ReadsCPUFlags, .WritesCPUFlags])
  | SETE | SETNE | SETL | SETLE | SETG | SETGE | SETB | SETBE | SETA | SETAE =>
    ([.Write], [.ReadsCPUFlags])
  | SAR32ri | SAR64ri => ([.Write, .Read, .Read], [])
  | IDIV32r | IDIV64r | DIV32r | DIV64r => ([.Read], [])

def Row.desc (row : Row) : MirTargetInstructionDesc :=
  ⟨row.ctorIdx, row.declares.1, [], [], row.declares.2⟩

structure SelectedInst where
  row : Row
  operands : List MirOperand
  deriving DecidableEq, Repr

def SelectedInst.mir (inst : SelectedInst) : MirInstruction :=
  ⟨.TARGET_INST, some inst.row.desc, inst.operands⟩

def GPR64 : MirRegisterClass := ⟨3, 0⟩

def GPR32 : MirRegisterClass := ⟨2, 0⟩

def GPR16 : MirRegisterClass := ⟨1, 0⟩

def GPR8 : MirRegisterClass := ⟨0, 0⟩

def gprClass (is64 : Bool) : MirRegisterClass := if is64 then GPR64 else GPR32

/-- The class that the selector gives a register that has none. -/
def setClass (c : MirRegisterClass) (r : MirRegisterRef) : MirRegisterRef :=
  match r.regClass with
  | none => { r with regClass := some c }
  | some _ => r

def setOperandClass (c : MirRegisterClass) : MirOperand → MirOperand
  | .register r => .register (setClass c r)
  | operand => operand

def IsScalar : MirOperand → Prop
  | .register _ => True
  | .integer _ => True
  | _ => False

/-! ## Registers -/

structure Machine where
  regs : ℕ → BitVec 64
  flags : CPUFlag → Bool

namespace Machine

/-- A write of 32 bits clears the upper half, and one of fewer bits keeps what is above. -/
def write (s : Machine) (w n : ℕ) (v : BitVec 64) : Machine :=
  { s with
    regs := Function.update s.regs n
      (if w = 64 then v else if w = 32 then (v.setWidth 32).setWidth 64
      else fillLow w (s.regs n) v) }

end Machine

theorem write_regs_self (s : Machine) (w n : ℕ) (v : BitVec 64) :
    (s.write w n v).regs n = if w = 64 then v else if w = 32 then (v.setWidth 32).setWidth 64
      else fillLow w (s.regs n) v := Function.update_self _ _ _

theorem write_regs_of_ne (s : Machine) (w : ℕ) {n m : ℕ} (h : m ≠ n) (v : BitVec 64) :
    (s.write w n v).regs m = s.regs m := Function.update_of_ne h _ _

/-- The value of an integer operand. -/
def getI64 (value : ℤ) : BitVec 64 := BitVec.ofInt 64 value

def operandBits (is64 : Bool) : ℕ := if is64 then 64 else 32

theorem operandBits_eq (is64 : Bool) : operandBits is64 = 32 ∨ operandBits is64 = 64 := by
  cases is64
  · exact .inl rfl
  · exact .inr rfl

def Row.condition (row : Row) (flags : CPUFlag → Bool) : Bool :=
  match row with
  | SETE => flags .ZF
  | SETNE => !flags .ZF
  | SETL => flags .SF != flags .OF
  | SETLE => flags .ZF || flags .SF != flags .OF
  | SETG => !flags .ZF && flags .SF == flags .OF
  | SETGE => flags .SF == flags .OF
  | SETB => flags .CF
  | SETBE => flags .CF || flags .ZF
  | SETA => !flags .CF && !flags .ZF
  | SETAE => !flags .CF
  | _ => false

def compareFlags {w : ℕ} (x y : BitVec w) : CPUFlag → Bool :=
  resultFlags (x - y) (x.usubOverflow y) (x.ssubOverflow y)

/-- Quotient and remainder of the double-width number, unless the quotient does not fit. -/
def divide (isSigned : Bool) (w : ℕ) (high low divisor : BitVec w) : Option (BitVec w × BitVec w) :=
  if divisor = 0 then none
  else if isSigned then
    let dividend := (high ++ low).toInt
    let quotient := dividend.tdiv divisor.toInt
    if -2 ^ (w - 1) ≤ quotient ∧ quotient < 2 ^ (w - 1) then
      some (BitVec.ofInt w quotient, BitVec.ofInt w (dividend.tmod divisor.toInt))
    else none
  else
    let dividend := (high ++ low).toNat
    let quotient := dividend / divisor.toNat
    if quotient < 2 ^ w then
      some (BitVec.ofNat w quotient, BitVec.ofNat w (dividend % divisor.toNat))
    else none

section

variable (number : RegKey → ℕ)

def numberOf (r : MirRegisterRef) : ℕ := number (regKey r)

def operandValue (s : Machine) : MirOperand → BitVec 64
  | .register r => s.regs (numberOf number r)
  | .integer value => getI64 value
  | _ => 0

/-- The division of `rdx` and `rax` by a register; it faults where there is no quotient. -/
def executeDivide (isSigned : Bool) (w : ℕ) (divisor : MirRegisterRef) (s : Machine) :
    Option Machine :=
  (divide isSigned w ((s.regs 2).setWidth w) ((s.regs 0).setWidth w)
    ((s.regs (numberOf number divisor)).setWidth w)).map fun result =>
      (s.write w 0 (result.1.setWidth 64)).write w 2 (result.2.setWidth 64)

/-- The rows by their effect: a move of a number of bits, an extension, a comparison. -/
def SelectedInst.execute (inst : SelectedInst) (s : Machine) : Option Machine :=
  let read (r : MirRegisterRef) : BitVec 64 := s.regs (numberOf number r)
  let move (w : ℕ) (dst : MirRegisterRef) (v : BitVec 64) : Option Machine :=
    some (s.write w (numberOf number dst) v)
  match inst.row, inst.operands with
  | .MOV8ri, [.register dst, .integer v] => move 8 dst (getI64 v)
  | .MOV16ri, [.register dst, .integer v] => move 16 dst (getI64 v)
  | .MOV32ri, [.register dst, .integer v] => move 32 dst (getI64 v)
  | .MOV64ri, [.register dst, .integer v] => move 64 dst (getI64 v)
  | .MOV8rr, [.register dst, .register src] => move 8 dst (read src)
  | .MOV16rr, [.register dst, .register src] => move 16 dst (read src)
  | .MOV32rr, [.register dst, .register src] => move 32 dst (read src)
  | .MOV64rr, [.register dst, .register src] => move 64 dst (read src)
  | .MOVSX32_8, [.register dst, .register src] =>
    move 32 dst (((read src).setWidth 8).signExtend 64)
  | .MOVSX32_16, [.register dst, .register src] =>
    move 32 dst (((read src).setWidth 16).signExtend 64)
  | .MOVSX64_8, [.register dst, .register src] =>
    move 64 dst (((read src).setWidth 8).signExtend 64)
  | .MOVSX64_16, [.register dst, .register src] =>
    move 64 dst (((read src).setWidth 16).signExtend 64)
  | .MOVSX64_32, [.register dst, .register src] =>
    move 64 dst (((read src).setWidth 32).signExtend 64)
  | .MOVZX32_8, [.register dst, .register src] => move 32 dst (((read src).setWidth 8).setWidth 64)
  | .MOVZX32_16, [.register dst, .register src] =>
    move 32 dst (((read src).setWidth 16).setWidth 64)
  | .MOVZX64_8, [.register dst, .register src] => move 64 dst (((read src).setWidth 8).setWidth 64)
  | .MOVZX64_16, [.register dst, .register src] =>
    move 64 dst (((read src).setWidth 16).setWidth 64)
  | .CMP32rr, [.register lhs, .register rhs] =>
    some { s with flags := compareFlags ((read lhs).setWidth 32) ((read rhs).setWidth 32) }
  | .CMP64rr, [.register lhs, .register rhs] =>
    some { s with flags := compareFlags (read lhs) (read rhs) }
  | .CMP32ri, [.register lhs, .integer v] =>
    some { s with flags := compareFlags ((read lhs).setWidth 32) ((getI64 v).setWidth 32) }
  | .CMP64ri, [.register lhs, .integer v] =>
    -- the immediate has 32 bits at most
    some { s with
      flags := compareFlags (read lhs) (((getI64 v).setWidth 32).signExtend 64) }
  | .SAR32ri, [.register dst, .register src, .integer v] =>
    move 32 dst ((((read src).setWidth 32).sshiftRight ((getI64 v).toNat % 32)).setWidth 64)
  | .SAR64ri, [.register dst, .register src, .integer v] =>
    move 64 dst ((read src).sshiftRight ((getI64 v).toNat % 64))
  | .IDIV32r, [.register src] => executeDivide number true 32 src s
  | .IDIV64r, [.register src] => executeDivide number true 64 src s
  | .DIV32r, [.register src] => executeDivide number false 32 src s
  | .DIV64r, [.register src] => executeDivide number false 64 src s
  | row, [.register dst] =>
    if row.declares = ([.Write], [.ReadsCPUFlags]) then
      move 8 dst (if row.condition s.flags then 1 else 0)
    else none
  | _, _ => none

def runSelected (insts : List SelectedInst) (s : Machine) : Option Machine :=
  insts.foldlM (fun s inst => inst.execute number s) s

end

/-! ## Assignments -/

/-- The numbers of the registers: physical ones have their own, and registers of one bank that
interfere have different ones. -/
structure Assignment (f : SelectedFunction) (g : InterferenceGraph) where
  number : RegKey → ℕ
  physical : ∀ c id, number (.preg c id) = id
  apart : ∀ a b, g.Adj a b → bankOf f.banks a = bankOf f.banks b → number a ≠ number b

variable {f : SelectedFunction} {g : InterferenceGraph} {c : MirRegisterClass} {r : MirRegisterRef}
  {insts : List SelectedInst} {operand : MirOperand}

theorem apart_of_nodes (hok : GraphOk f.banks g) {number : RegKey → ℕ} (h : ∀ a ∈ KeyedSet.keys
      regKey g.nodes, ∀ b ∈ KeyedSet.keys regKey g.nodes, g.Adj a b → number a ≠ number b)
    (a b : RegKey) (hadj : g.Adj a b) (_ : bankOf f.banks a = bankOf f.banks b) :
    number a ≠ number b :=
  h a (hok.isNode hadj) b (hok.isNode (hok.symm hadj)) hadj

theorem numberOf_setClass (assignment : Assignment f g) (c : MirRegisterClass)
    (r : MirRegisterRef) :
    numberOf assignment.number (setClass c r) = numberOf assignment.number r := by
  obtain ⟨isVirtual, regClass, id⟩ := r
  cases regClass with
  | some d => rfl
  | none =>
    cases isVirtual with
    | true => rfl
    | false => exact (assignment.physical _ _).trans (assignment.physical _ _).symm

theorem operandValue_setOperandClass (assignment : Assignment f g) (c : MirRegisterClass)
    (s : Machine) (operand : MirOperand) :
    operandValue assignment.number s (setOperandClass c operand) =
      operandValue assignment.number s operand := by
  cases operand with
  | register r => exact congrArg s.regs (numberOf_setClass assignment c r)
  | _ => rfl

def IsGeneral (r : MirRegisterRef) : Prop := ∀ c, r.regClass = some c → c.bank = 0

theorem isGeneral_of_class (h : r.regClass = some c) (hc : c.bank = 0) : IsGeneral r := by
  intro d hd
  cases h.symm.trans hd
  exact hc

theorem IsGeneral.setClass (h : IsGeneral r) (hc : c.bank = 0) :
    (setClass c r).regClass.map MirRegisterClass.bank = some 0 := by
  unfold X86.setClass
  split
  · exact congrArg some hc
  · next d hd =>
      rw [hd]
      exact congrArg some (h d hd)

@[simp] theorem setClass_isVirtual (c : MirRegisterClass) (r : MirRegisterRef) :
    (setClass c r).isVirtual = r.isVirtual := by
  unfold setClass
  split <;> rfl

theorem regKey_setClass (c : MirRegisterClass) (h : r.isVirtual = true) :
    regKey (setClass c r) = regKey r := by
  obtain ⟨isVirtual, regClass, id⟩ := r
  obtain rfl : isVirtual = true := h
  cases regClass <;> rfl

theorem bankOf_general {b : MirBlock} (hb : b ∈ f.blocks) {inst : MirInstruction}
    (hinst : inst ∈ b.instructions) (hr : r ∈ instRefs inst)
    (hgeneral : r.regClass.map MirRegisterClass.bank = some 0) :
    bankOf f.banks (regKey r) = some 0 :=
  (bankOf_regKey (f.inBank b hb inst hinst r hr)).trans hgeneral

theorem Assignment.apart_of_live {cc : Option CallingConvDesc} {liveness : LivenessResult f}
    (assignment : Assignment f (interferenceGraph cc f liveness)) {b : MirBlock} (hb : b ∈ f.blocks)
    {pre post : List MirInstruction} {inst : MirInstruction}
    (hcode : b.instructions = pre ++ inst :: post) {d l : MirRegisterRef}
    (hd : d ∈ inst.getDefinedRegisters) (hl : liveAt (liveness.liveOut b.id) post (regKey l))
    (hne : regKey d ≠ regKey l) (hbank : bankOf f.banks (regKey d) = bankOf f.banks (regKey l)) :
    numberOf assignment.number d ≠ numberOf assignment.number l :=
  assignment.apart _ _ (adj_interferenceGraph cc hb
    ⟨pre, inst, post, hcode, KeyedSet.key_mem hd, hl⟩ hne hbank) hbank

theorem liveAt_append {liveOut : List MirRegisterRef} {front rest : List MirInstruction}
    {k : RegKey} (hfront : ∀ inst ∈ front, k ∉ KeyedSet.keys regKey inst.getDefinedRegisters)
    (h : liveAt liveOut rest k) : liveAt liveOut (front ++ rest) k := by
  induction front with
  | nil => exact h
  | cons inst front ih =>
    exact .inl ⟨ih fun i hi => hfront i (mem_cons_of_mem inst hi), hfront inst mem_cons_self⟩

theorem Assignment.apart_of_read {cc : Option CallingConvDesc} {liveness : LivenessResult f}
    (assignment : Assignment f (interferenceGraph cc f liveness)) {b : MirBlock} (hb : b ∈ f.blocks)
    {pre post : List MirInstruction}
    (hcode : b.instructions = pre ++ (insts.map SelectedInst.mir ++ post))
    {front mid back : List SelectedInst} {inst reader : SelectedInst}
    (hsplit : insts = front ++ inst :: (mid ++ reader :: back)) {d l : MirRegisterRef}
    (hd : d ∈ inst.mir.getDefinedRegisters) (hl : l ∈ reader.mir.getUsedRegisters)
    (hmid : ∀ k ∈ mid, ∀ r ∈ k.mir.getDefinedRegisters, regKey r ≠ regKey l)
    (hne : regKey d ≠ regKey l) (hbank : bankOf f.banks (regKey d) = bankOf f.banks (regKey l)) :
    numberOf assignment.number d ≠ numberOf assignment.number l := by
  have hinstructions : b.instructions = (pre ++ front.map SelectedInst.mir) ++
      inst.mir :: (mid.map SelectedInst.mir ++
        (reader.mir :: (back.map SelectedInst.mir ++ post))) := by
    rw [hcode, hsplit]
    simp
  refine assignment.apart_of_live hb hinstructions hd (liveAt_append ?_ ?_) hne hbank
  · intro k hk hmem
    obtain ⟨i, hi, rfl⟩ := mem_map.mp hk
    obtain ⟨r, hr, heq⟩ := KeyedSet.mem_keys.mp hmem
    exact hmid i hi r hr heq
  · exact .inr (KeyedSet.key_mem hl)

/-! ## Rewritten operands -/

/-- `rewriteColors`: the physical register of a virtual one, by its class and number. -/
def rewriteRef (number : RegKey → ℕ) (classOf : RegKey → Option MirRegisterClass)
    (r : MirRegisterRef) : MirRegisterRef :=
  if r.isVirtual then ⟨false, classOf (regKey r), number (regKey r)⟩ else r

def rewriteOperand (number : RegKey → ℕ) (classOf : RegKey → Option MirRegisterClass) :
    MirOperand → MirOperand
  | .register r => .register (rewriteRef number classOf r)
  | operand => operand

def SelectedInst.rewriteColors (number : RegKey → ℕ) (classOf : RegKey → Option MirRegisterClass)
    (inst : SelectedInst) : SelectedInst :=
  { inst with operands := inst.operands.map (rewriteOperand number classOf) }

/-- A move of a register to itself. -/
def SelectedInst.isRedundantCopy (inst : SelectedInst) : Bool :=
  match Peephole.isMoveInstruction inst.mir with
  | some (dst, src) => dst.same src
  | none => false

def eliminateRedundantCopies (insts : List SelectedInst) : List SelectedInst :=
  insts.filter fun inst => !inst.isRedundantCopy

section

variable {f : SelectedFunction} {g : InterferenceGraph} (assignment : Assignment f g)
  (classOf : RegKey → Option MirRegisterClass)
include assignment classOf

theorem numberOf_rewriteRef (r : MirRegisterRef) :
    numberOf assignment.number (rewriteRef assignment.number classOf r) =
      numberOf assignment.number r := by
  unfold rewriteRef
  split
  · exact assignment.physical _ _
  · rfl

theorem operandValue_rewriteOperand (s : Machine) (operand : MirOperand) :
    operandValue assignment.number s (rewriteOperand assignment.number classOf operand) =
      operandValue assignment.number s operand := by
  cases operand with
  | register r => exact congrArg s.regs (numberOf_rewriteRef assignment classOf r)
  | _ => rfl

end

theorem isScalar_setOperandClass (h : IsScalar operand) : IsScalar (setOperandClass c operand) := by
  cases operand <;> exact h

theorem isScalar_rewriteOperand {number : RegKey → ℕ} {classOf : RegKey → Option MirRegisterClass}
    (h : IsScalar operand) : IsScalar (rewriteOperand number classOf operand) := by
  cases operand <;> exact h

/-! ## Functions of one block -/

theorem inBank_general {instructions : List MirInstruction}
    (h : ∀ inst ∈ instructions, ∀ r ∈ instRefs inst,
      r.regClass.map MirRegisterClass.bank = some 0) :
    ∀ b ∈ [MirBlock.mk 0 instructions], ∀ inst ∈ b.instructions, ∀ r ∈ instRefs inst,
      InBank (fun _ => 0) r := by
  intro b hb inst hinst r hr _
  rw [mem_singleton.mp hb] at hinst
  exact Option.map_eq_some_iff.mp (h inst hinst r hr)

def generalFunction (instructions : List MirInstruction)
    (h : ∀ inst ∈ instructions, ∀ r ∈ instRefs inst,
      r.regClass.map MirRegisterClass.bank = some 0) : SelectedFunction :=
  ⟨[⟨0, instructions⟩], fun _ => 0, inBank_general h⟩

/-- A block whose results live on. -/
theorem inBank_liveOut (hbanks : f.banks = fun _ => 0) {liveOut : List MirRegisterRef}
    (h : ∀ r ∈ liveOut, r.regClass.map MirRegisterClass.bank = some 0) :
    ∀ b : ℕ, ∀ r ∈ (fun _ => liveOut : ℕ → List MirRegisterRef) b, InBank f.banks r := by
  intro _ r hr _
  rw [hbanks]
  exact Option.map_eq_some_iff.mp (h r hr)

def numbers (virtuals : List ℕ) : RegKey → ℕ
  | .vreg id => virtuals.getD id 0
  | .preg _ id => id

/-!
## The sequence of a division

The dividend is moved to `rax` and extended to `rdx`, a constant divisor is put in a register, and
behind the division the result is moved to the destination and the other half to a register that
nothing reads.
-/

/-! ## The division of a number that was extended -/

section

variable {w : ℕ}

/-- The quotient can be represented; an unsigned one always can. -/
def Representable (isSigned : Bool) (x y : BitVec w) : Prop :=
  isSigned = true → -2 ^ (w - 1) ≤ x.toInt.tdiv y.toInt ∧ x.toInt.tdiv y.toInt < 2 ^ (w - 1)

/-- What the extension puts in front of the dividend. -/
def highHalf (isSigned : Bool) (x : BitVec w) : BitVec w :=
  if isSigned then x.sshiftRight (w - 1) else 0

def quotientOf (isSigned : Bool) (x y : BitVec w) : BitVec w :=
  if isSigned then x.sdiv y else x.udiv y

def remainderOf (isSigned : Bool) (x y : BitVec w) : BitVec w :=
  if isSigned then x.srem y else x.umod y

theorem toInt_signExtended (hw : 0 < w) (x : BitVec w) :
    (x.sshiftRight (w - 1) ++ x).toInt = x.toInt := by
  have hne : (w == 0) = false := beq_eq_false_iff_ne.mpr (Nat.pos_iff_ne_zero.mp hw)
  rw [toInt_append, hne, toInt_sshiftRight, Int.shiftRight_eq_div_pow]
  have hpow : (2 : ℤ) ^ w = 2 * 2 ^ (w - 1) := by
    rw [← pow_succ']
    congr 1
    omega
  have hlt := toInt_lt (x := x)
  have hle := le_toInt x
  have hnat := toInt_eq_toNat_cond x
  have hsize := x.isLt
  have hcast : ((2 ^ w : ℕ) : ℤ) = 2 ^ w := Nat.cast_pow 2 w
  push_cast at hnat ⊢
  rcases lt_or_ge x.toInt 0 with hneg | hnonneg
  · have hdiv : x.toInt / 2 ^ (w - 1) = -1 :=
      Int.ediv_eq_neg_one_of_neg_of_le hneg (by omega)
    rw [hdiv]
    split at hnat <;> omega
  · rw [Int.ediv_eq_zero_of_lt hnonneg hlt]
    split at hnat <;> omega

theorem divide_extended (hw : 0 < w) {isSigned : Bool} {x y : BitVec w} (hy : y ≠ 0)
    (h : Representable isSigned x y) :
    divide isSigned w (highHalf isSigned x) x y =
      some (quotientOf isSigned x y, remainderOf isSigned x y) := by
  unfold divide
  rw [if_neg hy]
  cases isSigned with
  | true =>
    have hquotient : BitVec.ofInt w (x.toInt.tdiv y.toInt) = x.sdiv y := by
      rw [← toInt_inj, toInt_ofInt, toInt_sdiv]
    have hremainder : BitVec.ofInt w (x.toInt.tmod y.toInt) = x.srem y := by
      rw [← toInt_srem, ofInt_toInt]
    simp only [highHalf, if_true, toInt_signExtended hw]
    rw [if_pos (h rfl), hquotient, hremainder]
    rfl
  | false =>
    have happend : (highHalf false x ++ x).toNat = x.toNat := by
      show ((0 : BitVec w) ++ x).toNat = x.toNat
      rw [toNat_append]
      simp
    have hlt : x.toNat / y.toNat < 2 ^ w := (Nat.div_le_self _ _).trans_lt x.isLt
    simp only [happend, Bool.false_eq_true, if_false]
    rw [if_pos hlt]
    have hquotient : BitVec.ofNat w (x.toNat / y.toNat) = x.udiv y := by
      rw [udiv_eq, ← toNat_udiv, ofNat_toNat, setWidth_eq]
    have hremainder : BitVec.ofNat w (x.toNat % y.toNat) = x.umod y := by
      rw [umod_eq, ← toNat_umod, ofNat_toNat, setWidth_eq]
    rw [hquotient, hremainder]
    rfl

end

/-! ## The sequence -/

def moveRR (is64 : Bool) : Row := if is64 then .MOV64rr else .MOV32rr

def moveRI (is64 : Bool) : Row := if is64 then .MOV64ri else .MOV32ri

def sarRow (is64 : Bool) : Row := if is64 then .SAR64ri else .SAR32ri

def divideRow (isSigned is64 : Bool) : Row :=
  if isSigned then (if is64 then .IDIV64r else .IDIV32r)
  else (if is64 then .DIV64r else .DIV32r)

def raxPhys (is64 : Bool) : MirRegisterRef := ⟨false, some (gprClass is64), 0⟩

def rdxPhys (is64 : Bool) : MirRegisterRef := ⟨false, some (gprClass is64), 2⟩

def moveInto (is64 : Bool) (dst : MirRegisterRef) (operand : MirOperand) : SelectedInst :=
  match operand with
  | .integer _ => ⟨moveRI is64, [.register dst, operand]⟩
  | _ => ⟨moveRR is64, [.register dst, operand]⟩

def moveReg (is64 : Bool) (dst src : MirRegisterRef) : SelectedInst :=
  ⟨moveRR is64, [.register dst, .register src]⟩

/-- The copy of the dividend that a signed division extends. -/
def highCopy (isSigned is64 : Bool) : List SelectedInst :=
  if isSigned then [moveReg is64 (rdxPhys is64) (raxPhys is64)] else []

def extension (isSigned is64 : Bool) : SelectedInst :=
  if isSigned then
    ⟨sarRow is64, [.register (rdxPhys is64), .register (rdxPhys is64),
      .integer (if is64 then 63 else 31)]⟩
  else ⟨moveRI is64, [.register (rdxPhys is64), .integer 0]⟩

/-- The register that a constant divisor is put in. -/
def divRhsReg (is64 : Bool) (divRhs : ℕ) : MirRegisterRef := ⟨true, some (gprClass is64), divRhs⟩

def loadDivisor (is64 : Bool) (divRhs : MirRegisterRef) (rhs : MirOperand) :
    MirOperand × List SelectedInst :=
  match rhs with
  | .integer _ => (.register divRhs, [⟨moveRI is64, [.register divRhs, rhs]⟩])
  | _ => (rhs, [])

def resultReg (isRem is64 : Bool) : MirRegisterRef := if isRem then rdxPhys is64 else raxPhys is64

/-- The sequence for operands that have their classes. -/
def divisionCode (isSigned isRem is64 : Bool) (divRhs dummy dst : MirRegisterRef)
    (lhs rhs : MirOperand) : List SelectedInst :=
  moveInto is64 (raxPhys is64) lhs :: (highCopy isSigned is64 ++
    (extension isSigned is64 :: ((loadDivisor is64 divRhs rhs).2 ++
      [⟨divideRow isSigned is64, [(loadDivisor is64 divRhs rhs).1]⟩,
        moveReg is64 dst (resultReg isRem is64), moveReg is64 dummy (resultReg (!isRem) is64)])))

def selectDIV (isSigned isRem is64 : Bool) (divRhs dummy : ℕ) (dst : MirRegisterRef)
    (lhs rhs : MirOperand) : List SelectedInst :=
  divisionCode isSigned isRem is64 (divRhsReg is64 divRhs) (divRhsReg is64 dummy)
    (setClass (gprClass is64) dst) (setOperandClass (gprClass is64) lhs)
    (setOperandClass (gprClass is64) rhs)

/-- Whether the division is signed, and whether the remainder is asked for. -/
def divisionKind : MirInstructionOpCode → Option (Bool × Bool)
  | .SDIV | .IDIV => some (true, false)
  | .UDIV | .DIV => some (false, false)
  | .REM => some (true, true)
  | _ => none

theorem divisionCode_rewriteColors (number : RegKey → ℕ)
    (classOf : RegKey → Option MirRegisterClass) (isSigned isRem is64 : Bool)
    (divRhs dummy dst : MirRegisterRef) (lhs rhs : MirOperand) :
    (divisionCode isSigned isRem is64 divRhs dummy dst lhs rhs).map
        (SelectedInst.rewriteColors number classOf) =
      divisionCode isSigned isRem is64 (rewriteRef number classOf divRhs)
        (rewriteRef number classOf dummy) (rewriteRef number classOf dst)
        (rewriteOperand number classOf lhs) (rewriteOperand number classOf rhs) := by
  cases isSigned <;> cases isRem <;> cases lhs <;> cases rhs <;> rfl

/-! ## What the instructions do -/

section

variable {number : RegKey → ℕ}

theorem setWidth_write (is64 : Bool) (s : Machine) (n : ℕ) (v : BitVec 64) :
    ((s.write (operandBits is64) n v).regs n).setWidth (operandBits is64) =
      v.setWidth (operandBits is64) := by
  rw [write_regs_self]
  cases is64 with
  | true => rfl
  | false =>
    show ((v.setWidth 32).setWidth 64).setWidth 32 = v.setWidth 32
    rw [setWidth_setWidth_of_le _ (by decide), setWidth_eq]

theorem execute_moveInto (is64 : Bool) (dst : MirRegisterRef) (hoperand : IsScalar operand)
    (s : Machine) : (moveInto is64 dst operand).execute number s =
      some (s.write (operandBits is64) (numberOf number dst) (operandValue number s operand)) := by
  cases operand with
  | register r | integer value => cases is64 <;> rfl
  | _ => cases hoperand

theorem execute_moveReg (is64 : Bool) (dst src : MirRegisterRef) (s : Machine) :
    (moveReg is64 dst src).execute number s = some (s.write (operandBits is64)
      (numberOf number dst) (s.regs (numberOf number src))) := by
  cases is64 <;> rfl

theorem execute_divide (isSigned is64 : Bool) (src : MirRegisterRef) (s : Machine) :
    SelectedInst.execute number ⟨divideRow isSigned is64, [.register src]⟩ s =
      executeDivide number isSigned (operandBits is64) src s := by
  cases isSigned <;> cases is64 <;> rfl

variable {s : Machine}

theorem execute_extension (isSigned is64 : Bool) (hphysical : ∀ c id, number (.preg c id) = id)
    {x : BitVec (operandBits is64)}
    (hx : isSigned = true → (s.regs 2).setWidth (operandBits is64) = x) :
    ∃ v, (extension isSigned is64).execute number s = some (s.write (operandBits is64) 2 v) ∧
      v.setWidth (operandBits is64) = highHalf isSigned x := by
  have hrdx : numberOf number (rdxPhys is64) = 2 := hphysical _ _
  cases isSigned with
  | false =>
    refine ⟨0, ?_, ?_⟩
    · rw [← hrdx]
      cases is64 <;> rfl
    · cases is64 <;> rfl
  | true =>
    have hx := hx rfl
    cases is64 with
    | true =>
      refine ⟨(s.regs (numberOf number (rdxPhys true))).sshiftRight 63, ?_, ?_⟩
      · rw [← hrdx]
        rfl
      · rw [hrdx, ← hx]
        rfl
    | false =>
      refine ⟨(((s.regs (numberOf number (rdxPhys false))).setWidth 32).sshiftRight 31).setWidth
        64, ?_, ?_⟩
      · rw [← hrdx]
        rfl
      · rw [hrdx, ← hx]
        show ((((s.regs 2).setWidth 32).sshiftRight 31).setWidth 64).setWidth 32 = _
        rw [setWidth_setWidth_of_le _ (by decide), setWidth_eq]
        rfl

/-- The quotient and the remainder are left in `rax` and `rdx`. -/
theorem execute_divide_extended {isSigned is64 : Bool} {src : MirRegisterRef}
    {x y : BitVec (operandBits is64)} (hlow : (s.regs 0).setWidth (operandBits is64) = x)
    (hhigh : (s.regs 2).setWidth (operandBits is64) = highHalf isSigned x)
    (hsrc : (s.regs (numberOf number src)).setWidth (operandBits is64) = y) (hy : y ≠ 0)
    (hfits : Representable isSigned x y) :
    ∃ s', SelectedInst.execute number ⟨divideRow isSigned is64, [.register src]⟩ s = some s' ∧
      (s'.regs 0).setWidth (operandBits is64) = quotientOf isSigned x y ∧
      (s'.regs 2).setWidth (operandBits is64) = remainderOf isSigned x y ∧
      ∀ n, n ≠ 0 → n ≠ 2 → s'.regs n = s.regs n := by
  have hw : 0 < operandBits is64 := by cases is64 <;> decide
  have hle : operandBits is64 ≤ 64 := by cases is64 <;> decide
  rw [execute_divide, executeDivide, hlow, hhigh, hsrc, divide_extended hw hy hfits]
  refine ⟨_, rfl, ?_, ?_, fun n h0 h2 => ?_⟩
  · rw [write_regs_of_ne _ _ (by decide), setWidth_write, setWidth_setWidth_of_le _ hle,
      setWidth_eq]
  · rw [setWidth_write, setWidth_setWidth_of_le _ hle, setWidth_eq]
  · rw [write_regs_of_ne _ _ h2, write_regs_of_ne _ _ h0]

theorem runSelected_append {insts' : List SelectedInst} {t u : Machine}
    (h : runSelected number insts s = some t) (h' : runSelected number insts' t = some u) :
    runSelected number (insts ++ insts') s = some u := by
  unfold runSelected at h h' ⊢
  rw [foldlM_append, h]
  exact h'

theorem runSelected_cons {inst : SelectedInst} {t u : Machine} (h : inst.execute number s = some t)
    (h' : runSelected number insts t = some u) : runSelected number (inst :: insts) s = some u := by
  unfold runSelected at h' ⊢
  rw [foldlM_cons, h]
  exact h'

theorem run_loadDivisor (is64 : Bool) {divRhs d : MirRegisterRef} {rhs : MirOperand}
    (hd : (loadDivisor is64 divRhs rhs).1 = .register d) (s : Machine) :
    ∃ s', runSelected number (loadDivisor is64 divRhs rhs).2 s = some s' ∧
      (s'.regs (numberOf number d)).setWidth (operandBits is64) =
        (operandValue number s rhs).setWidth (operandBits is64) ∧
      ∀ n, n ≠ numberOf number d → s'.regs n = s.regs n := by
  cases rhs with
  | integer value =>
    cases hd
    have hmove : (moveInto is64 divRhs (.integer value)).execute number s = _ :=
      execute_moveInto is64 divRhs (show IsScalar (.integer value) from trivial) s
    exact ⟨_, runSelected_cons hmove rfl, setWidth_write is64 s _ _,
      fun n hn => write_regs_of_ne s _ hn _⟩
  | register r =>
    cases hd
    exact ⟨s, rfl, rfl, fun _ _ => rfl⟩
  | _ => cases hd

end

end EzPacker.X86
