import EzPacker.Lib.StrengthReduction
import EzPacker.RewriteRules.RuleGenerator

/-!
# What the shipped rules preserve

The replacement of an instruction writes its value, but for the signed division and the
remainder: an arithmetic shift rounds a negative dividend down, a mask drops its sign.
The largest power of two of a width is a negative divisor there.
-/

namespace EzPacker.RewriteRules

open LegalizeRuleOperand Option List Mir Legalizer StrengthReduction

/-! ## What the rules match and build -/

variable {guards : List String} {transform : String} {opcode : MirInstructionOpCode}

section

variable {env : TargetEnvironment} {inst : TypedInstruction} {nextVReg : ℕ}
  {replacement : List TypedInstruction} {ruleName : String}
  {opcode emitted : MirInstructionOpCode} {type : TypeSymbol}

variable {arg : TypedOperand}

theorem registerSlot {name : String} (hwidth : 0 < type.bitWidth)
    (h : SlotFits (.register name type) arg) :
    ∃ reg argType, arg = ⟨.register reg, some argType⟩ ∧
      argType.totalSizeInBits = type.bitWidth := by
  obtain ⟨hkind, hfits⟩ := h
  rcases arg with ⟨operand, mirType⟩
  obtain hzero | hsize := hfits
  · omega
  · obtain ⟨argType, rfl, hbits⟩ := map_eq_some_iff.mp hsize
    cases operand with
    | register reg => exact ⟨reg, argType, rfl, hbits⟩
    | _ => simp [operandKind] at hkind

theorem immediateSlot {name : String} (hwidth : 0 < type.bitWidth)
    (h : SlotFits (.immediate name type) arg) :
    ∃ value argType, arg = integer value argType ∧ argType.totalSizeInBits = type.bitWidth := by
  obtain ⟨hkind, hfits⟩ := h
  rcases arg with ⟨operand, mirType⟩
  obtain hzero | hsize := hfits
  · omega
  · obtain ⟨argType, rfl, hbits⟩ := map_eq_some_iff.mp hsize
    cases operand with
    | integer value => exact ⟨value, argType, rfl, hbits⟩
    | _ => simp [operandKind] at hkind

variable {value : ℤ}

theorem literalSlot (h : SlotFits (.literal value) arg) :
    ∃ v mirType, arg = ⟨.integer v, mirType⟩ ∧ getI64 v = value := by
  obtain ⟨hkind, hvalue⟩ := h
  rcases arg with ⟨operand, mirType⟩
  cases operand with
  | integer v => exact ⟨v, mirType, rfl, some.inj hvalue⟩
  | _ => simp [operandKind] at hkind

@[simp] theorem opVar_zero : opVar 0 = "op0" := by decide

@[simp] theorem opVar_one : opVar 1 = "op1" := by decide

@[simp] theorem opVar_two : opVar 2 = "op2" := by decide

/-- The instruction a power rule builds. -/
def powerReplacement (env : TargetEnvironment) (emitted : MirInstructionOpCode)
    (transform : String) (dst lhs : TypedOperand) (value : ℤ) (type : MirType) :
    TypedInstruction :=
  ⟨emitted, none, [dst, lhs,
      integer (flexInt (env.transform transform [getI64 value]) type.totalSizeInBits) type]⟩

theorem replacement_powerRule (htransform : transform = "log2Pow2" ∨ transform = "sub1")
    {dst lhs : TypedOperand} {immType : MirType} {st : RuleState} (h : executeAll env inst
      (replacementBody (powerRule ruleName opcode type guards emitted transform) [.register "dst"
      type, .register "lhs" type, .immediate "c" type]) ⟨matchLocals 0 [.register "dst" type,
      .register "lhs" type, .immediate "c" type] [dst, lhs, integer value immType], [], nextVReg⟩ =
      .ok st) : st.built = [powerReplacement env emitted transform dst lhs value immType] := by
  have hlog : transVar "log2Pow2" 0 2 = "trans_log2Pow2_0_2" := by decide
  have hsub : transVar "sub1" 0 2 = "trans_sub1_0_2" := by decide
  have hop : transOpVar 0 2 = "transOp_0_2" := by decide
  rcases htransform with rfl | rfl <;>
  · simp [replacementBody, powerRule, register,
      immediate, transform, transformStatements,
      clauseTransforms, emitClauses, emitOperands, emitOperand, boundSsaVars, matchIndex,
      firstImmSymbolName, findIdx?_cons, immVar, executeAll_cons_eq_ok,
      Statement.execute, defined_bind_eq_ok, RuleState.operand, RuleState.bind,
      RuleState.value, pure, Except.pure, matchLocals, slotLocals, integer, immediate?,
      hlog, hsub, hop, lookup_cons] at h
    rw [← h]
    rfl

theorem powerRule_cases (hwidth : 0 < type.bitWidth)
    (htransform : transform = "log2Pow2" ∨ transform = "sub1")
    (hguards : guards ⊆ ["isPowTwo", "isPositiveConst"]) (h : applyRule env (powerRule ruleName
      opcode type guards emitted transform) inst nextVReg = some (.Legalized replacement)) :
    ∃ dst dstType lhs value immType, inst.opcode = opcode ∧
      inst.operands = [⟨.register dst, some dstType⟩, lhs, integer value immType] ∧
      (∃ reg, lhs.operand = .register reg) ∧
      dstType.totalSizeInBits = type.bitWidth ∧ immType.totalSizeInBits = type.bitWidth ∧
      (∀ guard ∈ guards, env.predicate guard [getI64 value] = true) ∧
      replacement = [powerReplacement env emitted transform ⟨.register dst, some dstType⟩ lhs
        value immType] := by
  obtain ⟨body, st, hbody, hrun, rfl⟩ := applyRule_eq_legalized h
  obtain rfl := some.inj hbody
  obtain ⟨hopcode, -, hfits, hholds, hrest⟩ := executeAll_guardedBody.mp hrun
  rcases inst with ⟨instOpcode, desc, operands⟩
  dsimp only at hopcode hfits hholds hrest ⊢
  cases hfits with
  | cons hdst hfits =>
  cases hfits with
  | cons hlhs hfits =>
  cases hfits with
  | cons himm hfits =>
  cases hfits
  obtain ⟨dst, dstType, rfl, hdstBits⟩ := registerSlot hwidth hdst
  obtain ⟨lhs, lhsType, rfl, -⟩ := registerSlot hwidth hlhs
  obtain ⟨value, immType, rfl, himmBits⟩ := immediateSlot hwidth himm
  refine ⟨dst, dstType, _, value, immType, hopcode, rfl, ⟨lhs, rfl⟩, hdstBits, himmBits,
    fun guard hmem => ?_, replacement_powerRule htransform (by simpa using hrest)⟩
  have hguard := hholds ⟨guard, [.variable "c"]⟩ (mem_map.mpr ⟨guard, hmem, rfl⟩)
  have hplain : isExtensionGuard ⟨guard, [.variable "c"]⟩ = false := by
    have hname := hguards hmem
    simp only [mem_cons, not_mem_nil, or_false] at hname
    rcases hname with rfl | rfl <;> rfl
  rw [GuardHolds, hplain, if_neg (by decide)] at hguard
  obtain ⟨values, hvalues, hpred⟩ := hguard
  obtain rfl : values = [getI64 value] := by
    simpa [RuleState.arg, RuleState.value, matchLocals, slotLocals,
      register, immediate, immediate?, integer]
      using hvalues.symm
  exact hpred

theorem identityRule_cases (hwidth : 0 < type.bitWidth)
    (h : applyRule env (identityRule ruleName opcode type value) inst nextVReg =
      some (.Legalized replacement)) :
    ∃ dst dstType lhs v mirType, inst.opcode = opcode ∧
      inst.operands = [⟨.register dst, some dstType⟩, lhs, ⟨.integer v, mirType⟩] ∧
      (∃ reg, lhs.operand = .register reg) ∧
      dstType.totalSizeInBits = type.bitWidth ∧ getI64 v = value ∧
      replacement = [⟨.MOV, none, [⟨.register dst, some dstType⟩, lhs]⟩] := by
  obtain ⟨body, st, hbody, hrun, rfl⟩ := applyRule_eq_legalized h
  obtain rfl := some.inj hbody
  obtain ⟨hopcode, -, hfits, -, hrest⟩ := executeAll_guardedBody.mp hrun
  rcases inst with ⟨instOpcode, desc, operands⟩
  dsimp only at hopcode hfits hrest ⊢
  cases hfits with
  | cons hdst hfits =>
  cases hfits with
  | cons hlhs hfits =>
  cases hfits with
  | cons hlit hfits =>
  cases hfits
  obtain ⟨dst, dstType, rfl, hdstBits⟩ := registerSlot hwidth hdst
  obtain ⟨lhs, lhsType, rfl, -⟩ := registerSlot hwidth hlhs
  obtain ⟨v, mirType, rfl, hvalue⟩ := literalSlot hlit
  refine ⟨dst, dstType, _, v, mirType, hopcode, rfl, ⟨lhs, rfl⟩, hdstBits, hvalue, ?_⟩
  simp [replacementBody, identityRule, register,
    literal, transformStatements, clauseTransforms, emitClauses,
    emitOperands, emitOperand, boundSsaVars, matchIndex, findIdx?_cons,
    executeAll_cons_eq_ok, Statement.execute, defined_bind_eq_ok, RuleState.operand, pure,
    Except.pure, matchLocals, slotLocals, lookup_cons] at hrest
  rw [← hrest]

end

/-! ## The values of the helper functions -/

theorem isPowTwo_cases {val : ℤ} (h : isPowTwo val = true) : ∃ k : ℕ, val = 2 ^ k := by
  simp only [isPowTwo, Bool.and_eq_true, decide_eq_true_eq, beq_iff_eq] at h
  obtain ⟨hpos, hbits⟩ := h
  have hpred : (val - 1).toNat = val.toNat - 1 := by omega
  rw [hpred] at hbits
  have hne : val.toNat ≠ 0 := by omega
  obtain ⟨k, hk⟩ := (Nat.and_sub_one_eq_zero_iff_isPowerOfTwo hne).mp hbits
  refine ⟨k, ?_⟩
  rw [← Int.toNat_of_nonneg (Int.le_of_lt hpos), hk]
  norm_cast

theorem log2Pow2_two_pow {k : ℕ} (hk : k < 64) : log2Pow2 (2 ^ k) = k := by
  have hpos := two_pow_pos k
  rw [log2Pow2, if_neg (by omega), ofInt_two_pow, ctz_twoPow hk]

/-- A positive constant of at most 64 bits is its 64-bit value. -/
theorem getI64_eq_of_pos {value : ℤ} (hlow : -2 ^ 63 ≤ value) (hhigh : value < 2 ^ 64)
    (hpos : 0 < getI64 value) : getI64 value = value := by
  unfold getI64 at hpos ⊢
  omega

/-- Reading a computed immediate at its width gives its value. -/
theorem ofInt_flexInt (value : ℤ) (w : ℕ) :
    BitVec.ofInt w (flexInt value w) = BitVec.ofInt w value :=
  BitVec.ofInt_toInt

theorem ofInt_congr {w : ℕ} {a b : ℤ} (hw : w ≤ 64) (h : getI64 a = getI64 b) :
    BitVec.ofInt w a = BitVec.ofInt w b := by
  unfold getI64 at h
  have hmod : (a - b) % 2 ^ 64 = 0 := by omega
  have hdvd : ((2 ^ w : ℕ) : ℤ) ∣ a - b := by
    push_cast
    exact (pow_dvd_pow 2 hw).trans (Int.dvd_of_emod_eq_zero hmod)
  rw [← BitVec.toInt_inj, BitVec.toInt_ofInt, BitVec.toInt_ofInt]
  exact Int.bmod_eq_bmod_iff_bmod_sub_eq_zero.mpr (Int.bmod_eq_zero_of_dvd hdvd)

/-! ## Results -/

section

variable {w k : ℕ} (x : BitVec w)

theorem twoPow_ne_zero (hk : k < w) : BitVec.twoPow w k ≠ 0 := by
  intro heq
  have hnat := congrArg BitVec.toNat heq
  rw [toNat_twoPow_of_lt hk] at hnat
  exact Nat.ne_of_gt (Nat.two_pow_pos k) hnat

theorem toNat_shiftCount (hk : k < w) : (BitVec.ofInt w (k : ℤ)).toNat = k := by
  rw [BitVec.ofInt_natCast, BitVec.toNat_ofNat, Nat.mod_eq_of_lt (hk.trans Nat.lt_two_pow_self)]

theorem evaluate_shift_eq_sdiv_iff (hw : 1 < w) (hk : k < w) :
    evaluate .SAR x (BitVec.ofInt w k) = evaluate .SDIV x (BitVec.twoPow w k) ↔
      0 ≤ x.toInt ∨ ((2 : ℤ) ^ k ∣ x.toInt ∧ (2 : ℤ) ^ k < 2 ^ (w - 1)) := by
  have hlt : (2 : ℤ) ^ k < 2 ^ (w - 1) ↔ k + 1 < w := by
    rw [pow_lt_pow_iff_right₀ (by decide)]
    omega
  simp only [evaluate, toNat_shiftCount hk, if_pos hk, if_neg (twoPow_ne_zero hk), some.injEq]
  rw [eq_comm, sdiv_twoPow_eq_iff x hw hk, hlt]

theorem evaluate_mask_eq_srem_iff (hk : k < w) :
    evaluate .AND x (BitVec.ofInt w (2 ^ k - 1)) = evaluate .REM x (BitVec.twoPow w k) ↔
      0 ≤ x.toInt ∨ (2 : ℤ) ^ k ∣ x.toInt := by
  simp only [evaluate, if_neg (twoPow_ne_zero hk), some.injEq]
  rw [eq_comm, srem_twoPow_eq_and_iff x hk]

theorem evaluate_shift_eq_udiv (hk : k < w) :
    evaluate .SHR x (BitVec.ofInt w k) = evaluate .UDIV x (BitVec.twoPow w k) := by
  simp only [evaluate, toNat_shiftCount hk, if_pos hk, if_neg (twoPow_ne_zero hk),
    BitVec.udiv_twoPow_eq_of_lt hk]

theorem evaluate_shift_eq_mul (hk : k < w) :
    evaluate .SHL x (BitVec.ofInt w k) = some (x * BitVec.twoPow w k) := by
  simp only [evaluate, toNat_shiftCount hk, if_pos hk, BitVec.mul_twoPow_eq_shiftLeft]

end

/-! ## The rules -/

def destinationWidth (inst : TypedInstruction) : ℕ :=
  match inst.operands with
  | ⟨_, some type⟩ :: _ => type.totalSizeInBits
  | _ => 0

/-- The signed value of the first source at the width of the destination. -/
def dividend (regs : RegisterFile) (inst : TypedInstruction) : ℤ :=
  match inst.operands with
  | [_, ⟨.register lhs, _⟩, _] =>
    (BitVec.ofNat (destinationWidth inst) (regs lhs)).toInt
  | _ => 0

/-- The 64-bit value of the immediate. -/
def divisor (inst : TypedInstruction) : ℤ :=
  match inst.operands with
  | [_, _, ⟨.integer value, _⟩] => getI64 value
  | _ => 0

/-- The dividends for which the cheaper instruction has the signed result. -/
structure SignExact (regs : RegisterFile) (inst : TypedInstruction) : Prop where
  quotient : inst.opcode = .SDIV → 0 ≤ dividend regs inst ∨
    (divisor inst ∣ dividend regs inst ∧ divisor inst < 2 ^ (destinationWidth inst - 1))
  remainder : inst.opcode = .REM → 0 ≤ dividend regs inst ∨ divisor inst ∣ dividend regs inst

/-- A constant is a signed or an unsigned value of its type. -/
def ConstantsFit (inst : TypedInstruction) : Prop :=
  ∀ (value : ℤ) (type : MirType), integer value type ∈ inst.operands →
    -2 ^ (type.totalSizeInBits - 1) ≤ value ∧ value < 2 ^ type.totalSizeInBits

/-- The shift counts and masks of a replacement belong to the immediate of the
instruction. -/
def ImmediatesExact (inst : TypedInstruction) (replacement : List TypedInstruction) : Prop :=
  ∀ e ∈ replacement, ∀ op ∈ e.operands, ∀ value, op.operand = .integer value →
    if e.opcode = .AND then value = divisor inst - 1
    else 0 ≤ value ∧ divisor inst = 2 ^ value.toNat

/-- The instructions a power rule exchanges, with the transform of the immediate. -/
inductive PowerForm : MirInstructionOpCode → MirInstructionOpCode → String → Prop
  | sdiv : PowerForm .SDIV .SAR "log2Pow2"
  | udiv : PowerForm .UDIV .SHR "log2Pow2"
  | rem : PowerForm .REM .AND "sub1"
  | mul : PowerForm .MUL .SHL "log2Pow2"
  | imul : PowerForm .IMUL .SHL "log2Pow2"

/-- The instructions an identity rule removes, with their neutral operand. -/
inductive IdentityForm : MirInstructionOpCode → ℤ → Prop
  | add : IdentityForm .ADD 0
  | sub : IdentityForm .SUB 0
  | mul : IdentityForm .MUL 1
  | imul : IdentityForm .IMUL 1
  | or : IdentityForm .OR 0
  | xor : IdentityForm .XOR 0
  | shl : IdentityForm .SHL 0
  | shr : IdentityForm .SHR 0
  | sar : IdentityForm .SAR 0

inductive ShippedForm : LegalizeRule → Prop
  | power {ruleName : String} {opcode : MirInstructionOpCode} {type : TypeSymbol}
      {guards : List String} {emitted : MirInstructionOpCode} {transform : String}
      (form : PowerForm opcode emitted transform) (htype : type ∈ [i32, i64])
      (hguards : guards ∈ [["isPowTwo"], ["isPowTwo", "isPositiveConst"]]) :
      ShippedForm (powerRule ruleName opcode type guards emitted transform)
  | identity {ruleName : String} {opcode : MirInstructionOpCode} {type : TypeSymbol}
      {value : ℤ} (form : IdentityForm opcode value) (htype : type ∈ [i32, i64]) :
      ShippedForm (identityRule ruleName opcode type value)

theorem shippedForm_of_mem {r : LegalizeRule}
    (hr : r ∈ x86_64_rules ∨ r ∈ riscv64_rules) : ShippedForm r := by
  have hmem : r ∈ x86_64_rules := hr.elim id id
  revert r
  have hsmall : i32 ∈ [i32, i64] := .head _
  have hlarge : i64 ∈ [i32, i64] := .tail _ (.head _)
  have hone : ["isPowTwo"] ∈ [["isPowTwo"], ["isPowTwo", "isPositiveConst"]] := .head _
  have htwo : ["isPowTwo", "isPositiveConst"] ∈
      [["isPowTwo"], ["isPowTwo", "isPositiveConst"]] := .tail _ (.head _)
  simp only [x86_64_rules, mem_cons, not_mem_nil, or_false]
  rintro r - (rfl | rfl | rfl | rfl | rfl | rfl | rfl | rfl | rfl | rfl | rfl | rfl | rfl |
    rfl | rfl | rfl | rfl | rfl | rfl | rfl | rfl | rfl | rfl | rfl | rfl | rfl | rfl | rfl)
  · exact .power .sdiv hsmall htwo
  · exact .power .sdiv hlarge htwo
  · exact .power .udiv hsmall hone
  · exact .power .udiv hlarge hone
  · exact .power .rem hsmall hone
  · exact .power .rem hlarge hone
  · exact .identity .add hsmall
  · exact .identity .add hlarge
  · exact .identity .sub hsmall
  · exact .identity .sub hlarge
  · exact .identity .mul hsmall
  · exact .identity .mul hlarge
  · exact .identity .imul hsmall
  · exact .identity .imul hlarge
  · exact .power .mul hsmall htwo
  · exact .power .mul hlarge htwo
  · exact .power .imul hsmall htwo
  · exact .power .imul hlarge htwo
  · exact .identity .or hsmall
  · exact .identity .or hlarge
  · exact .identity .xor hsmall
  · exact .identity .xor hlarge
  · exact .identity .shl hsmall
  · exact .identity .shl hlarge
  · exact .identity .shr hsmall
  · exact .identity .shr hlarge
  · exact .identity .sar hsmall
  · exact .identity .sar hlarge

theorem PowerForm.transform_cases {emitted : MirInstructionOpCode}
    (form : PowerForm opcode emitted transform) : transform = "log2Pow2" ∨ transform = "sub1" := by
  cases form <;> simp

/-- What a shipped power rule computes from `2 ^ k`. -/
def computedImmediate (emitted : MirInstructionOpCode) (k : ℕ) : ℤ :=
  if emitted = .AND then 2 ^ k - 1 else k

theorem PowerForm.transform_eq {emitted : MirInstructionOpCode}
    (form : PowerForm opcode emitted transform) {k : ℕ} (hk : k < 64) {hasExtension : String → Bool}
    {accessor : String → Option MirType} {int32 : MirType} :
    (shippedEnvironment hasExtension accessor int32).transform transform [2 ^ k] =
      computedImmediate emitted k := by
  cases form <;> first | exact log2Pow2_two_pow hk | rfl

theorem guards_of_mem (h : guards ∈ [["isPowTwo"], ["isPowTwo", "isPositiveConst"]]) :
    "isPowTwo" ∈ guards ∧ guards ⊆ ["isPowTwo", "isPositiveConst"] := by
  simp only [mem_cons, not_mem_nil, or_false] at h
  rcases h with rfl | rfl <;> simp

theorem width_of_mem {type : TypeSymbol} (h : type ∈ [i32, i64]) :
    1 < type.bitWidth ∧ type.bitWidth ≤ 64 := by
  simp only [mem_cons, not_mem_nil, or_false] at h
  rcases h with rfl | rfl <;> decide

section

variable {regs : RegisterFile} {dst lhs : MirRegisterRef} {dstType immType : MirType}
  {lhsType : Option MirType} {desc : Option MirTargetInstructionDesc}
  {opcode emitted : MirInstructionOpCode}

variable {w : ℕ} {value : ℤ}

/-- The two instructions agree when the operations do on the bits of the operands. -/
theorem execute_power_iff (hdst : dstType.totalSizeInBits = w) {computed : ℤ} :
    execute regs ⟨emitted, none, [⟨.register dst, some dstType⟩, ⟨.register lhs, lhsType⟩,
          integer (flexInt computed w) immType]⟩ =
      execute regs ⟨opcode, desc, [⟨.register dst, some dstType⟩, ⟨.register lhs, lhsType⟩,
          integer value immType]⟩ ↔
    evaluate emitted (BitVec.ofNat w (regs lhs)) (BitVec.ofInt w computed) =
      evaluate opcode (BitVec.ofNat w (regs lhs)) (BitVec.ofInt w value) := by
  subst hdst
  rw [execute_eq_iff]
  simp [result, operandBits, integer, ofInt_flexInt]

/-- A guarded immediate of a width is a power of two below that width. -/
theorem exponent_of_isPowTwo (hw : w ≤ 64) (hfit : -2 ^ (w - 1) ≤ value ∧ value < 2 ^ w)
    (hpow : isPowTwo (getI64 value) = true) :
    ∃ k, k < w ∧ value = 2 ^ k ∧ getI64 value = 2 ^ k := by
  obtain ⟨k, hk⟩ := isPowTwo_cases hpow
  have hlow : (2 : ℤ) ^ (w - 1) ≤ 2 ^ 63 := pow_le_pow_right₀ (by decide) (by omega)
  have hhigh : (2 : ℤ) ^ w ≤ 2 ^ 64 := pow_le_pow_right₀ (by decide) hw
  have hpos : 0 < getI64 value := by
    rw [hk]
    exact two_pow_pos k
  have hvalue := getI64_eq_of_pos (by omega) (by omega) hpos
  refine ⟨k, ?_, hvalue.symm.trans hk, hk⟩
  have hlt : (2 : ℤ) ^ k < 2 ^ w := by
    rw [← hk, hvalue]
    exact hfit.2
  exact (pow_lt_pow_iff_right₀ (by decide)).mp hlt

theorem flexInt_of_lt {m : ℤ} (hw : 0 < w) (hm : 0 ≤ m) (hlt : m < 2 ^ (w - 1)) :
    flexInt m w = m := by
  have hpos : (0 : ℤ) < 2 ^ (w - 1) := two_pow_pos _
  exact BitVec.toInt_ofInt_eq_self hw (by omega) hlt

theorem identity_result {v : ℤ} (form : IdentityForm opcode value) (hpos : 0 < w) (hw : w ≤ 64)
    (hv : getI64 v = value) (x : BitVec w) : evaluate opcode x (BitVec.ofInt w v) = some x := by
  have hcast : BitVec.ofInt w v = BitVec.ofInt w value := by
    refine ofInt_congr hw ?_
    cases form <;> rw [hv] <;> rfl
  rw [hcast]
  cases form <;> simp [evaluate, hpos]

variable {k : ℕ}

theorem flexInt_computedImmediate (hw : 1 < w) (hk : k < w) :
    flexInt (computedImmediate emitted k) w = computedImmediate emitted k := by
  have hpos := two_pow_pos k
  have hle : (2 : ℤ) ^ k ≤ 2 ^ (w - 1) := pow_le_pow_right₀ (by decide) (by omega)
  have hcount : (k : ℤ) < 2 ^ (w - 1) := by
    have hlt : w - 1 < 2 ^ (w - 1) := Nat.lt_two_pow_self
    exact_mod_cast (by omega : k < 2 ^ (w - 1))
  unfold computedImmediate
  split
  · exact flexInt_of_lt (by omega) (by omega) (by omega)
  · exact flexInt_of_lt (by omega) (by omega) hcount

theorem immediatesExact_power {inst : TypedInstruction} (hdivisor : divisor inst = 2 ^ k) :
    ImmediatesExact inst [⟨emitted, none, [⟨.register dst, some dstType⟩, ⟨.register lhs, lhsType⟩,
          integer (computedImmediate emitted k) immType]⟩] := by
  intro e he op hop value hvalue
  rw [mem_singleton] at he
  subst he
  simp only [mem_cons, not_mem_nil, or_false] at hop
  rcases hop with rfl | rfl | rfl
  · cases hvalue
  · cases hvalue
  · cases hvalue
    unfold computedImmediate
    split
    · rw [hdivisor]
    · exact ⟨Int.natCast_nonneg k, by rw [hdivisor, Int.toNat_natCast]⟩

/-- The operations of a power rule agree when the sign allows it. -/
theorem evaluate_power_iff (form : PowerForm opcode emitted transform) (hw : 1 < w) (hk : k < w)
    (x : BitVec w) : evaluate emitted x (BitVec.ofInt w (computedImmediate emitted k)) =
        evaluate opcode x (BitVec.ofInt w (2 ^ k)) ↔
      (opcode = .SDIV → 0 ≤ x.toInt ∨ ((2 : ℤ) ^ k ∣ x.toInt ∧ (2 : ℤ) ^ k < 2 ^ (w - 1))) ∧
      (opcode = .REM → 0 ≤ x.toInt ∨ (2 : ℤ) ^ k ∣ x.toInt) := by
  rw [ofInt_two_pow]
  cases form with
  | sdiv =>
    rw [computedImmediate, if_neg (by decide), evaluate_shift_eq_sdiv_iff x hw hk]
    exact ⟨fun h => ⟨fun _ => h, nofun⟩, fun h => h.1 rfl⟩
  | udiv =>
    rw [computedImmediate, if_neg (by decide)]
    exact iff_of_true (evaluate_shift_eq_udiv x hk) ⟨nofun, nofun⟩
  | rem =>
    rw [computedImmediate, if_pos rfl, evaluate_mask_eq_srem_iff x hk]
    exact ⟨fun h => ⟨nofun, fun _ => h⟩, fun h => h.2 rfl⟩
  | mul | imul =>
    rw [computedImmediate, if_neg (by decide)]
    exact iff_of_true (evaluate_shift_eq_mul x hk) ⟨nofun, nofun⟩

theorem power_preserves_iff (form : PowerForm opcode emitted transform)
    (hw : 1 < dstType.totalSizeInBits) (hk : k < dstType.totalSizeInBits)
    (hgetI64 : getI64 (2 ^ k) = 2 ^ k) : let inst : TypedInstruction :=
      ⟨opcode, desc, [⟨.register dst, some dstType⟩, ⟨.register lhs, lhsType⟩,
          integer (2 ^ k) immType]⟩
    let replacement : TypedInstruction :=
      ⟨emitted, none, [⟨.register dst, some dstType⟩, ⟨.register lhs, lhsType⟩,
          integer (computedImmediate emitted k) immType]⟩
    execute regs replacement = execute regs inst ∧ ImmediatesExact inst [replacement] ↔
      SignExact regs inst := by
  intro inst replacement
  have hdivisor : divisor inst = 2 ^ k := by simp only [inst, divisor, integer, hgetI64]
  have hexecute : execute regs replacement = execute regs inst ↔
      evaluate emitted (BitVec.ofNat dstType.totalSizeInBits (regs lhs))
          (BitVec.ofInt _ (computedImmediate emitted k)) =
        evaluate opcode (BitVec.ofNat dstType.totalSizeInBits (regs lhs))
          (BitVec.ofInt _ (2 ^ k)) := by
    simp only [replacement, inst]
    rw [← flexInt_computedImmediate hw hk, execute_power_iff rfl, flexInt_computedImmediate hw hk]
  rw [and_iff_left (immediatesExact_power hdivisor), hexecute,
    evaluate_power_iff form hw hk, ← hdivisor]
  exact ⟨fun h => ⟨h.1, h.2⟩, fun h => ⟨h.quotient, h.remainder⟩⟩

end

section

variable {hasExtension : String → Bool} {accessor : String → Option MirType} {int32 : MirType}

/-- The replacement of an instruction by a shipped rule leaves its value, with the shift
count or mask of its immediate, exactly when the sign of the dividend allows it. -/
theorem shippedRule_preserves_iff {r : LegalizeRule}
    (hr : r ∈ x86_64_rules ∨ r ∈ riscv64_rules) {inst : TypedInstruction}
    {nextVReg : ℕ} {replacement : List TypedInstruction}
    (happly : applyRule (shippedEnvironment hasExtension accessor int32) r inst nextVReg =
      some (.Legalized replacement))
    (hfit : ConstantsFit inst) (regs : RegisterFile) :
    executeSequence regs replacement = execute regs inst ∧
        ImmediatesExact inst replacement ↔ SignExact regs inst := by
  cases shippedForm_of_mem hr with
  | power form htype hguards =>
    obtain ⟨hw, hw64⟩ := width_of_mem htype
    obtain ⟨dst, dstType, lhs, value, immType, rfl, hoperands, ⟨reg, hreg⟩, hbits, himm,
      hholds, rfl⟩ := powerRule_cases (by omega) (form.transform_cases)
        (guards_of_mem hguards).2 happly
    rcases inst with ⟨opcode, desc, operands⟩
    rcases lhs with ⟨operand, lhsType⟩
    dsimp only at hoperands hreg form hfit
    subst hoperands hreg
    have himmFit := hfit value immType (by simp)
    rw [himm] at himmFit
    obtain ⟨k, hk, rfl, hgetI64⟩ :=
      exponent_of_isPowTwo hw64 himmFit (hholds "isPowTwo" (guards_of_mem hguards).1)
    rw [powerReplacement, hgetI64, form.transform_eq (hk.trans_le hw64), himm,
      flexInt_computedImmediate hw hk, executeSequence_singleton]
    rw [← hbits] at hw hk
    exact power_preserves_iff form hw hk hgetI64
  | identity form htype =>
    obtain ⟨hw, hw64⟩ := width_of_mem htype
    obtain ⟨dst, dstType, lhs, v, mirType, rfl, hoperands, ⟨reg, hreg⟩, hbits, hv, rfl⟩ :=
      identityRule_cases (by omega) happly
    rcases inst with ⟨opcode, desc, operands⟩
    rcases lhs with ⟨operand, lhsType⟩
    dsimp only at hoperands hreg form
    subst hoperands hreg
    refine iff_of_true ⟨?_, ?_⟩ ⟨?_, ?_⟩
    · rw [executeSequence_singleton, execute_eq_iff]
      rw [← hbits] at hw hw64
      have hresult := identity_result form (by omega) hw64 hv
        (BitVec.ofNat dstType.totalSizeInBits (regs reg))
      simp [result, operandBits, hresult]
    · intro e he op hop value hvalue
      rw [mem_singleton] at he
      subst he
      simp only [mem_cons, not_mem_nil, or_false] at hop
      rcases hop with rfl | rfl <;> cases hvalue
    · rintro rfl
      cases form
    · rintro rfl
      cases form

end

/-! ## A dividend of -1 -/

def int32Type : MirType := ⟨.Integer, 5, 5, 32, 32, .inr ⟨5, rfl⟩⟩

def plainEnvironment : TargetEnvironment :=
  shippedEnvironment (fun _ => false) (fun _ => none) int32Type

def virtualRegister (id : ℕ) : MirRegisterRef := ⟨true, none, id⟩

def smallInstruction (opcode : MirInstructionOpCode) (value : ℤ) : TypedInstruction :=
  ⟨opcode, none, [⟨.register (virtualRegister 1), some int32Type⟩,
      ⟨.register (virtualRegister 2), some int32Type⟩, integer value int32Type]⟩

theorem constantsFit_small (opcode : MirInstructionOpCode) {value : ℤ}
    (hvalue : -2 ^ 31 ≤ value ∧ value < 2 ^ 32) :
    ConstantsFit (smallInstruction opcode value) := by
  intro v type hmem
  simp only [smallInstruction, integer, mem_cons, not_mem_nil, or_false,
    TypedOperand.mk.injEq, reduceCtorEq, false_and, false_or, MirOperand.integer.injEq,
    some.injEq] at hmem
  obtain ⟨rfl, rfl⟩ := hmem
  exact hvalue

theorem applyRule_sdiv : applyRule plainEnvironment SDivPow2_32 (smallInstruction .SDIV 2) 3 =
    some (.Legalized [smallInstruction .SAR 1]) := by
  decide +kernel

theorem shippedRule_preserves_sdiv : (executeSequence (fun _ => 12) [smallInstruction .SAR 1] =
        execute (fun _ => 12) (smallInstruction .SDIV 2) ∧
      ImmediatesExact (smallInstruction .SDIV 2) [smallInstruction .SAR 1]) ↔
    SignExact (fun _ => 12) (smallInstruction .SDIV 2) :=
  shippedRule_preserves_iff (.inl (.head _)) applyRule_sdiv
    (constantsFit_small .SDIV (by decide)) fun _ => 12

/-- The quotient of -1 by 2 is 0, the shift gives -1. -/
theorem sdiv_rounds_down : ¬ ∀ r ∈ x86_64_rules, ∀ inst nextVReg replacement,
      applyRule plainEnvironment r inst nextVReg = some (.Legalized replacement) →
      ConstantsFit inst → ∀ regs, executeSequence regs replacement = execute regs inst := by
  intro h
  have heq := h SDivPow2_32 (.head _) _ 3 _ applyRule_sdiv
    (constantsFit_small .SDIV (by decide)) fun _ => 2 ^ 32 - 1
  have hdst := congrArg (Option.map fun regs => regs (virtualRegister 1)) heq
  revert hdst
  decide

end EzPacker.RewriteRules
