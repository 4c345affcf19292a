import EzPacker.X86.MoveElimination

/-!
# Divisions behind allocation

The table declares no registers for IDIV and DIV, so the elimination of moves takes the move of the
quotient for one that gives the dividend's register back what it holds.
-/

namespace EzPacker.X86

open List BitVec Mir RegAlloc
open Peephole (isMoveInstruction isReciprocal stopsScan)

section

variable {isSigned isRem is64 : Bool} {divRhs dummy dst src : MirRegisterRef} {lhs rhs : MirOperand}

/-! ## What is left computes -/

variable {number : RegKey → ℕ}

theorem numberOf_eq_of_same {a b : MirRegisterRef} (h : a.same b = true) :
    numberOf number a = numberOf number b := congrArg number ((same_iff a b).mp h)

variable {d : MirRegisterRef}

theorem same_of_isRedundantCopy {s : MirRegisterRef}
    (h : (moveReg is64 d s).isRedundantCopy = true) : d.same s = true :=
  (isRedundantCopy_moveReg d s).symm.trans h

theorem same_of_moveInto {operand : MirOperand}
    (h : (moveInto is64 d operand).isRedundantCopy = true) :
    ∃ l, operand = .register l ∧ d.same l = true := by
  cases operand with
  | register l => exact ⟨l, rfl, same_of_isRedundantCopy h⟩
  | _ => cases is64 <;> cases h

theorem run_front (hphysical : ∀ c id, number (.preg c id) = id) (hscalar : IsScalar lhs)
    {p1 p2 : List SelectedInst}
    (h1 : Optional p1 [moveInto is64 (raxPhys is64) lhs]
      ((moveInto is64 (raxPhys is64) lhs).isRedundantCopy = true))
    (h2 : Optional p2 (highCopy isSigned is64)
      (∃ l, lhs = .register l ∧ (rdxPhys is64).same l = true)) (s : Machine) :
    ∃ s', runSelected number (p1 ++ p2) s = some s' ∧ (s'.regs 0).setWidth (operandBits is64) =
        (operandValue number s lhs).setWidth (operandBits is64) ∧
      (isSigned = true → (s'.regs 2).setWidth (operandBits is64) =
        (operandValue number s lhs).setWidth (operandBits is64)) ∧
      ∀ n, n ≠ 0 → n ≠ 2 → s'.regs n = s.regs n := by
  have hrax : numberOf number (raxPhys is64) = 0 := hphysical _ _
  have hrdx : numberOf number (rdxPhys is64) = 2 := hphysical _ _
  have hfirst : ∃ s1, runSelected number p1 s = some s1 ∧ (s1.regs 0).setWidth (operandBits is64) =
        (operandValue number s lhs).setWidth (operandBits is64) ∧
      ∀ n, n ≠ 0 → s1.regs n = s.regs n := by
    rcases h1 with rfl | ⟨rfl, hcopy⟩
    · refine ⟨_, runSelected_cons (execute_moveInto is64 _ hscalar s) rfl, ?_, fun n hn => ?_⟩
      · rw [hrax, setWidth_write]
      · exact write_regs_of_ne s _ (hrax ▸ hn) _
    · obtain ⟨l, rfl, hsame⟩ := same_of_moveInto hcopy
      refine ⟨s, rfl, ?_, fun _ _ => rfl⟩
      rw [operandValue, ← numberOf_eq_of_same hsame, hrax]
  obtain ⟨s1, hrun1, hlow, hkeep⟩ := hfirst
  cases isSigned with
  | false =>
    obtain rfl : p2 = [] := h2.elim id And.left
    exact ⟨s1, runSelected_append hrun1 rfl, hlow, nofun, fun n h0 _ => hkeep n h0⟩
  | true =>
    rcases h2 with rfl | ⟨rfl, l, rfl, hsame⟩
    · refine ⟨_, runSelected_append hrun1 (runSelected_cons (execute_moveReg is64 _ _ s1) rfl),
        ?_, fun _ => ?_, fun n h0 h2 => ?_⟩
      · rw [hrdx, write_regs_of_ne _ _ (by decide), hlow]
      · rw [hrdx, setWidth_write, hrax, hlow]
      · rw [hrdx, write_regs_of_ne _ _ h2, hkeep n h0]
    · refine ⟨s1, runSelected_append hrun1 rfl, hlow, fun _ => ?_, fun n h0 _ => hkeep n h0⟩
      rw [hkeep 2 (by decide), operandValue, ← numberOf_eq_of_same hsame, hrdx]

theorem operandValue_write {n : ℕ}
    (hd : (loadDivisor is64 divRhs rhs).1 = .register d) (hne : numberOf number d ≠ n)
    (s : Machine) (w : ℕ) (v : BitVec 64) :
    operandValue number (s.write w n v) rhs = operandValue number s rhs := by
  cases rhs with
  | register r =>
    cases hd
    exact write_regs_of_ne s w hne v
  | _ => rfl

variable {s : Machine}

theorem operandValue_of_kept
    (hd : (loadDivisor is64 divRhs rhs).1 = .register d) (h0 : numberOf number d ≠ 0)
    (h2 : numberOf number d ≠ 2) {s' : Machine}
    (hkeep : ∀ n, n ≠ 0 → n ≠ 2 → s'.regs n = s.regs n) :
    operandValue number s' rhs = operandValue number s rhs := by
  cases rhs with
  | register r =>
    cases hd
    exact hkeep _ h0 h2
  | _ => rfl

theorem run_division (hphysical : ∀ c id, number (.preg c id) = id)
    (hd : (loadDivisor is64 divRhs rhs).1 = .register d) (h0 : numberOf number d ≠ 0)
    (h2 : numberOf number d ≠ 2) {x y : BitVec (operandBits is64)}
    (hlow : (s.regs 0).setWidth (operandBits is64) = x)
    (hhigh : isSigned = true → (s.regs 2).setWidth (operandBits is64) = x)
    (hrhs : (operandValue number s rhs).setWidth (operandBits is64) = y) (hy : y ≠ 0)
    (hfits : Representable isSigned x y) :
    ∃ s', runSelected number (division isSigned is64 divRhs rhs) s = some s' ∧
      (s'.regs 0).setWidth (operandBits is64) = quotientOf isSigned x y ∧
      (s'.regs 2).setWidth (operandBits is64) = remainderOf isSigned x y ∧
      (s'.regs (numberOf number d)).setWidth (operandBits is64) = y ∧
      ∀ n, n ≠ 0 → n ≠ 2 → n ≠ numberOf number d → s'.regs n = s.regs n := by
  obtain ⟨v, hextend, hv⟩ := execute_extension isSigned is64 hphysical hhigh
  obtain ⟨s3, hload, hdivisor, hkeep⟩ :=
    run_loadDivisor is64 hd (s.write (operandBits is64) 2 v)
  rw [operandValue_write hd h2, hrhs] at hdivisor
  have hlow3 : (s3.regs 0).setWidth (operandBits is64) = x := by
    rw [hkeep 0 h0.symm, write_regs_of_ne _ _ (by decide), hlow]
  have hhigh3 : (s3.regs 2).setWidth (operandBits is64) = highHalf isSigned x := by
    rw [hkeep 2 h2.symm, setWidth_write, hv]
  obtain ⟨s4, hdivide, hquotient, hremainder, hkeep4⟩ :=
    execute_divide_extended hlow3 hhigh3 hdivisor hy hfits
  refine ⟨s4, ?_, hquotient, hremainder, ?_, fun n hn0 hn2 hnd => ?_⟩
  · refine runSelected_cons hextend (runSelected_append hload ?_)
    rw [hd]
    exact runSelected_cons hdivide rfl
  · rw [hkeep4 _ h0 h2, hdivisor]
  · rw [hkeep4 n hn0 hn2, hkeep n hnd, write_regs_of_ne _ _ hn2]

/-- The last move keeps the destination. -/
theorem run_dummy {p : List SelectedInst} {src : MirRegisterRef} {P : Prop}
    (h : Optional p [moveReg is64 dummy src] P)
    (hdummy : numberOf number dst ≠ numberOf number dummy) (s : Machine) :
    ∃ s', runSelected number p s = some s' ∧
      s'.regs (numberOf number dst) = s.regs (numberOf number dst) := by
  rcases h with rfl | ⟨rfl, -⟩
  · exact ⟨_, runSelected_cons (execute_moveReg is64 dummy src s) rfl,
      write_regs_of_ne s _ hdummy _⟩
  · exact ⟨s, rfl, rfl⟩

/-- The destination has the quotient or the remainder of the operands unless the division faults. -/
def ComputesDivision (number : RegKey → ℕ) (opcode : MirInstructionOpCode) (isSigned is64 : Bool)
    (dst : MirRegisterRef) (lhs rhs : MirOperand) (insts : List SelectedInst) : Prop :=
  ∀ s (x y : BitVec (operandBits is64)),
    (operandValue number s lhs).setWidth (operandBits is64) = x →
    (operandValue number s rhs).setWidth (operandBits is64) = y → y ≠ 0 →
    Representable isSigned x y → ∃ s', runSelected number insts s = some s' ∧
      Mir.arithmetic opcode x y = some ((s'.regs (numberOf number dst)).setWidth (operandBits is64))

variable {w : ℕ}

theorem arithmetic_divisionKind {opcode : MirInstructionOpCode}
    (h : divisionKind opcode = some (isSigned, isRem)) (x : BitVec w) {y : BitVec w}
    (hy : y ≠ 0) :
    Mir.arithmetic opcode x y =
      some (if isRem then remainderOf isSigned x y else quotientOf isSigned x y) := by
  cases opcode <;> cases h <;> exact if_neg hy

/-- What is left of the sequence leaves the result in the destination, or, where the move of the
quotient is gone, what the division left there. -/
theorem run_thinned (hphysical : ∀ c id, number (.preg c id) = id) (hscalar : IsScalar lhs)
    (hd : (loadDivisor is64 divRhs rhs).1 = .register d)
    (h0 : numberOf number d ≠ 0) (h2 : numberOf number d ≠ 2)
    (hdummy : numberOf number dst ≠ numberOf number dummy) {insts : List SelectedInst}
    (h : Thinned isSigned isRem is64 divRhs dummy dst lhs rhs insts)
    {x y : BitVec (operandBits is64)}
    (hx : (operandValue number s lhs).setWidth (operandBits is64) = x)
    (hrhs : (operandValue number s rhs).setWidth (operandBits is64) = y) (hy : y ≠ 0)
    (hfits : Representable isSigned x y) :
    ∃ s' last : Machine, runSelected number insts s = some last ∧
      (s'.regs 0).setWidth (operandBits is64) = quotientOf isSigned x y ∧
      (s'.regs (numberOf number d)).setWidth (operandBits is64) = y ∧
      (∀ n, n ≠ 0 → n ≠ 2 → n ≠ numberOf number d → s'.regs n = s.regs n) ∧
      ((last.regs (numberOf number dst)).setWidth (operandBits is64) =
          (if isRem then remainderOf isSigned x y else quotientOf isSigned x y) ∨
        Loses isSigned isRem is64 divRhs dst lhs rhs ∧
          last.regs (numberOf number dst) = s'.regs (numberOf number dst)) ∧
      (moveReg is64 dst (resultReg isRem is64) ∉ insts →
        last.regs (numberOf number dst) = s'.regs (numberOf number dst)) := by
  obtain ⟨p1, p2, p3, p4, rfl, h1, h2', h3, h4⟩ := h
  obtain ⟨s2, hfront, hlow, hhigh, hkeep2⟩ := run_front hphysical hscalar h1 h2' s
  rw [hx] at hlow hhigh
  have hvalue : (operandValue number s2 rhs).setWidth (operandBits is64) = y :=
    (congrArg _ (operandValue_of_kept hd h0 h2 hkeep2)).trans hrhs
  obtain ⟨s4, hdivision, hquotient, hremainder, hdivisor, hkeep4⟩ :=
    run_division hphysical hd h0 h2 hlow hhigh hvalue hy hfits
  have hresult : (s4.regs (numberOf number (resultReg isRem is64))).setWidth (operandBits is64) =
        if isRem then remainderOf isSigned x y else quotientOf isSigned x y := by
    cases isRem with
    | true => exact (congrArg (fun n => (s4.regs n).setWidth _) (hphysical _ _)).trans hremainder
    | false => exact (congrArg (fun n => (s4.regs n).setWidth _) (hphysical _ _)).trans hquotient
  have hkeep : ∀ n, n ≠ 0 → n ≠ 2 → n ≠ numberOf number d → s4.regs n = s.regs n :=
    fun n hn0 hn2 hnd => (hkeep4 n hn0 hn2 hnd).trans (hkeep2 n hn0 hn2)
  have hrun : ∀ {t : Machine}, runSelected number (p3 ++ p4) s4 = some t →
      runSelected number (p1 ++ (p2 ++ (division isSigned is64 divRhs rhs ++ (p3 ++ p4)))) s =
        some t := by
    intro t ht
    rw [← List.append_assoc]
    exact runSelected_append hfront (runSelected_append hdivision ht)
  rcases h3 with rfl | ⟨rfl, hdropped⟩
  · have hmove : (moveReg is64 dst (resultReg isRem is64)).execute number s4 = _ :=
      execute_moveReg is64 dst (resultReg isRem is64) s4
    obtain ⟨last, hlast, hdst⟩ := run_dummy h4 hdummy (s4.write (operandBits is64)
      (numberOf number dst) (s4.regs (numberOf number (resultReg isRem is64))))
    refine ⟨s4, last, hrun (runSelected_cons hmove hlast), hquotient, hdivisor, hkeep, .inl ?_,
      fun hnot => absurd ?_ hnot⟩
    · rw [hdst, setWidth_write, hresult]
    · simp
  · obtain ⟨last, hlast, hdst⟩ := run_dummy h4 hdummy s4
    refine ⟨s4, last, hrun hlast, hquotient, hdivisor, hkeep, ?_, fun _ => hdst⟩
    rcases hdropped with hcopy | hloses
    · left
      rw [hdst, numberOf_eq_of_same (same_of_isRedundantCopy hcopy), hresult]
    · exact .inr ⟨hloses, hdst⟩

/-! ## When the quotient is lost -/

/-- The dividend's register gets the quotient, and what was put there is not that by chance: the
register is not `rax`, and a constant divisor is not put in it, and is neither zero nor one. -/
def QuotientLost (number : RegKey → ℕ) (isRem is64 : Bool) (divRhs dst : MirRegisterRef)
    (lhs rhs : MirOperand) : Prop :=
  isRem = false ∧ ∃ l, lhs = .register l ∧ dst.same l = true ∧ numberOf number l ≠ 0 ∧
    ∀ v, rhs = .integer v → divRhs.same l = false ∧ (getI64 v).setWidth (operandBits is64) ≠ 0 ∧
      ((getI64 v).setWidth (operandBits is64) = 1 → numberOf number divRhs = numberOf number dst)

theorem quotientOf_one (isSigned : Bool) (x : BitVec w) : quotientOf isSigned x 1 = x := by
  cases isSigned with
  | true => exact sdiv_one
  | false => exact udiv_one

theorem quotientOf_self (isSigned : Bool) {x : BitVec w} (hx : x ≠ 0) :
    quotientOf isSigned x x = 1 := by
  cases isSigned with
  | true => exact sdiv_self.trans (if_neg (by simpa using hx))
  | false => exact udiv_self.trans (if_neg (by simpa using hx))

theorem defs_load (value : ℤ) :
    (SelectedInst.mir ⟨moveRI is64, [.register divRhs, .integer value]⟩).getDefinedRegisters =
      [divRhs] := by
  cases is64 <;> rfl

variable {l : MirRegisterRef}

theorem not_same_divRhs {v : ℤ} (hrhs : rhs = .integer v)
    (hstops : ∀ k ∈ division isSigned is64 divRhs rhs, stopsScan (raxPhys is64) l k.mir = false) :
    divRhs.same l = false := by
  subst hrhs
  have hload := hstops ⟨moveRI is64, [.register divRhs, .integer v]⟩
    (by simp [division, loadDivisor])
  rw [stopsScan, Peephole.defines, Peephole.defines, defs_load] at hload
  simp only [any_cons, any_nil, Bool.or_false, Bool.or_eq_false_iff] at hload
  exact hload.1.2

theorem stopsScan_division {r : MirRegisterRef}
    (hr : (loadDivisor is64 divRhs rhs).1 = .register r) (h2 : (rdxPhys is64).same l = false)
    (hload : ∀ v, rhs = .integer v → divRhs.same l = false ∧ divRhs.same (raxPhys is64) = false)
    {k : SelectedInst} (hk : k ∈ division isSigned is64 divRhs rhs) :
    stopsScan (raxPhys is64) l k.mir = false := by
  have hdefs : ∀ {inst : SelectedInst}, Peephole.isBarrier inst.mir = false →
      (∀ d ∈ inst.mir.getDefinedRegisters, d.same (raxPhys is64) = false ∧ d.same l = false) →
      stopsScan (raxPhys is64) l inst.mir = false := by
    intro inst hbarrier hall
    rw [stopsScan, hbarrier, Bool.or_false, Bool.or_eq_false_iff]
    exact ⟨any_eq_false.mpr fun d hd => Bool.eq_false_iff.mp (hall d hd).1,
      any_eq_false.mpr fun d hd => Bool.eq_false_iff.mp (hall d hd).2⟩
  rcases mem_cons.mp hk with rfl | hk
  · have hextension : (extension isSigned is64).mir.getDefinedRegisters = [rdxPhys is64] := by
      cases isSigned <;> cases is64 <;> rfl
    refine hdefs (by cases isSigned <;> cases is64 <;> rfl) fun d hd => ?_
    obtain rfl := mem_singleton.mp (hextension ▸ hd)
    exact ⟨by cases is64 <;> rfl, h2⟩
  · rcases mem_append.mp hk with hk | hk
    · cases rhs with
      | integer v =>
        obtain rfl := mem_singleton.mp hk
        refine hdefs (by cases is64 <;> rfl) fun d hd => ?_
        obtain rfl := mem_singleton.mp (defs_load v ▸ hd)
        exact (hload v rfl).symm
      | _ => cases hk
    · obtain rfl := mem_singleton.mp hk
      refine hdefs (by cases isSigned <;> cases is64 <;> rfl) fun d hd => ?_
      rw [hr] at hd
      cases isSigned <;> cases is64 <;> cases hd

variable {opcode : MirInstructionOpCode}

/-- What the quotient's destination holds where its move is gone. -/
theorem not_computesDivision (hphysical : ∀ c id, number (.preg c id) = id)
    (hkind : divisionKind opcode = some (isSigned, false)) (hscalar : IsScalar lhs)
    (hd : (loadDivisor is64 divRhs rhs).1 = .register d)
    (h0 : numberOf number d ≠ 0) (h2 : numberOf number d ≠ 2)
    (hdummy : numberOf number dst ≠ numberOf number dummy) (hdst : numberOf number dst ≠ 2)
    (hlhs : lhs = .register l) (hsame : dst.same l = true) (hl : numberOf number l ≠ 0)
    (hload : ∀ v, rhs = .integer v → divRhs.same l = false) {c y : BitVec 64}
    (hy : (operandValue number ⟨fun _ => c, fun _ => false⟩ rhs).setWidth (operandBits is64) =
      y.setWidth (operandBits is64)) (hy0 : y.setWidth (operandBits is64) ≠ 0)
    (hfits : Representable isSigned (c.setWidth (operandBits is64)) (y.setWidth (operandBits is64)))
    (hne : quotientOf isSigned (c.setWidth (operandBits is64)) (y.setWidth (operandBits is64)) ≠
      if numberOf number dst = numberOf number d then y.setWidth (operandBits is64)
      else c.setWidth (operandBits is64)) :
    ¬ ComputesDivision number opcode isSigned is64 dst lhs rhs
      (optimizeBlock (eliminateRedundantCopies
        (divisionCode isSigned false is64 divRhs dummy dst lhs rhs))) := by
  intro hcomputes
  have hnumber : numberOf number dst = numberOf number l := numberOf_eq_of_same hsame
  have hrax : (raxPhys is64).same l = false := by
    rw [Bool.eq_false_iff]
    intro h
    exact hl ((numberOf_eq_of_same h).symm.trans (hphysical _ _))
  have hrdx : (rdxPhys is64).same l = false := by
    rw [Bool.eq_false_iff]
    intro h
    exact hdst (hnumber.trans ((numberOf_eq_of_same h).symm.trans (hphysical _ _)))
  have hgone : moveReg is64 dst (raxPhys is64) ∉ optimizeBlock (eliminateRedundantCopies
      (divisionCode isSigned false is64 divRhs dummy dst lhs rhs)) := by
    refine moveReg_notMem_optimizeBlock hlhs hsame hrax hrdx fun k hk =>
      stopsScan_division hd hrdx (fun v hv => ⟨hload v hv, ?_⟩) hk
    rw [Bool.eq_false_iff]
    intro h
    subst hv
    cases hd
    exact h0 ((numberOf_eq_of_same h).trans (hphysical _ _))
  have hx : (operandValue number ⟨fun _ => c, fun _ => false⟩ lhs).setWidth (operandBits is64) =
      c.setWidth (operandBits is64) := by rw [hlhs]; rfl
  obtain ⟨s', last, hrun, -, hdivisor, hkeep, -, hlost⟩ := run_thinned hphysical hscalar hd h0 h2
    hdummy optimizeBlock_thinned hx hy hy0 hfits
  obtain ⟨last', hrun', hvalue⟩ := hcomputes _ _ _ hx hy hy0 hfits
  cases hrun'.symm.trans hrun
  rw [arithmetic_divisionKind hkind _ hy0, hlost hgone] at hvalue
  refine hne ((Option.some.inj hvalue).trans ?_)
  by_cases hsameNumber : numberOf number dst = numberOf number d
  · rw [if_pos hsameNumber, hsameNumber, hdivisor]
  · rw [if_neg hsameNumber, hkeep _ (hnumber ▸ hl) hdst hsameNumber]

theorem representable_self (hw : 2 ≤ w) (isSigned : Bool) {x : BitVec w} (hx : x ≠ 0) :
    Representable isSigned x x := by
  intro _
  have hne : x.toInt ≠ 0 := by
    intro h
    exact hx (toInt_inj.mp (h.trans toInt_zero.symm))
  rw [Int.tdiv_self hne]
  have hpow : (2 : ℤ) ≤ 2 ^ (w - 1) := by
    calc (2 : ℤ) = 2 ^ 1 := rfl
      _ ≤ 2 ^ (w - 1) := pow_le_pow_right₀ (by decide) (by omega)
  constructor <;> omega

theorem representable_zero (isSigned : Bool) (y : BitVec w) :
    Representable isSigned ((0 : BitVec 64).setWidth w) y := by
  intro _
  have hzero : ((0 : BitVec 64).setWidth w).toInt = 0 := by simp
  rw [hzero, Int.zero_tdiv]
  constructor <;> simp

theorem computesDivision_iff (hphysical : ∀ c id, number (.preg c id) = id)
    (hkind : divisionKind opcode = some (isSigned, isRem)) (hscalar : IsScalar lhs)
    (hd : (loadDivisor is64 divRhs rhs).1 = .register d)
    (h0 : numberOf number d ≠ 0) (h2 : numberOf number d ≠ 2)
    (hdummy : numberOf number dst ≠ numberOf number dummy)
    (hdst : isRem = false → numberOf number dst ≠ 2) :
    ComputesDivision number opcode isSigned is64 dst lhs rhs
        (optimizeBlock (eliminateRedundantCopies
          (divisionCode isSigned isRem is64 divRhs dummy dst lhs rhs))) ↔
      ¬ QuotientLost number isRem is64 divRhs dst lhs rhs := by
  constructor
  · rintro hcomputes ⟨rfl, l, hlhs, hsame, hl, hload⟩
    have hlost := fun {c y : BitVec 64} => not_computesDivision hphysical hkind hscalar hd h0 h2
      hdummy (hdst rfl) hlhs hsame hl (fun v hv => (hload v hv).1) (c := c) (y := y)
    have hbits : 2 ≤ operandBits is64 := by cases is64 <;> decide
    cases rhs with
    | register r =>
      -- two divided by two
      have htwo : (2 : BitVec 64).setWidth (operandBits is64) ≠ 0 := by cases is64 <;> decide
      refine hlost (c := 2) (y := 2) rfl htwo (representable_self hbits isSigned htwo) ?_ hcomputes
      rw [quotientOf_self isSigned htwo, ite_self]
      cases is64 <;> decide
    | integer v =>
      obtain ⟨hdiv, hzero, hone⟩ := hload v rfl
      cases hd
      by_cases hv : (getI64 v).setWidth (operandBits is64) = 1
      · -- zero divided by one, which is in the destination's register
        refine hlost (c := 0) (y := getI64 v) rfl hzero (representable_zero isSigned _) ?_ hcomputes
        rw [if_pos (hone hv).symm, hv, quotientOf_one]
        cases is64 <;> decide
      · refine hlost (c := getI64 v) (y := getI64 v) rfl hzero
          (representable_self hbits isSigned hzero) ?_ hcomputes
        rw [quotientOf_self isSigned hzero, ite_self]
        exact Ne.symm hv
    | _ => cases hd
  · intro hnot s x y hx hy hy0 hfits
    obtain ⟨s', last, hrun, hquotient, hdivisor, hkeep, hresult, -⟩ := run_thinned hphysical
      hscalar hd h0 h2 hdummy optimizeBlock_thinned hx hy hy0 hfits
    refine ⟨last, hrun, ?_⟩
    rw [arithmetic_divisionKind hkind x hy0]
    rcases hresult with hresult | ⟨⟨rfl, l, hlhs, hsame, hstops⟩, hlast⟩
    · rw [hresult]
    · have hnumber : numberOf number dst = numberOf number l := numberOf_eq_of_same hsame
      refine congrArg some ?_
      rw [hlast, if_neg (by decide)]
      by_cases hl : numberOf number l = 0
      · rw [hnumber, hl, hquotient]
      · -- the divisor is one
        have hone : ∃ v, rhs = .integer v ∧ (getI64 v).setWidth (operandBits is64) = 1 ∧
            numberOf number divRhs ≠ numberOf number dst := by
          by_contra hnone
          refine hnot ⟨rfl, l, hlhs, hsame, hl, fun v hv => ⟨not_same_divRhs hv hstops, ?_, ?_⟩⟩
          · subst hv
            exact fun hzero => hy0 (hy.symm.trans hzero)
          · intro hv1
            by_contra hne
            exact hnone ⟨v, hv, hv1, hne⟩
        obtain ⟨v, rfl, hv1, hne⟩ := hone
        cases hd
        have hy1 : y = 1 := hy.symm.trans hv1
        rw [hkeep _ (hnumber ▸ hl) (hdst rfl) hne.symm, hy1, quotientOf_one, hnumber, ← hx, hlhs]
        rfl

end

/-! ## Under an assignment -/

section

variable {cc : Option CallingConvDesc} {f : SelectedFunction} {liveness : LivenessResult f}
  {b : MirBlock} {pre post : List MirInstruction} {isSigned isRem is64 : Bool}
  {divRhs dummy dst : MirRegisterRef} {lhs rhs : MirOperand}

theorem bankOf_gpr (is64 : Bool) (n : ℕ) :
    bankOf f.banks (.preg (some (gprClass is64)) n) = some 0 := by
  cases is64 <;> rfl

theorem regKey_ne_preg {r : MirRegisterRef} (h : r.isVirtual = true)
    (c : Option MirRegisterClass) (n : ℕ) : regKey r ≠ .preg c n := by
  unfold regKey
  rw [if_pos h]
  nofun

theorem defs_moveReg (d r : MirRegisterRef) : (moveReg is64 d r).mir.getDefinedRegisters = [d] := by
  cases is64 <;> rfl

theorem defs_moveInto (d : MirRegisterRef) (hscalar : IsScalar lhs) :
    (moveInto is64 d lhs).mir.getDefinedRegisters = [d] := by
  cases lhs with
  | register l | integer v => cases is64 <;> rfl
  | _ => cases hscalar

theorem defs_highCopy {k : SelectedInst} (hk : k ∈ highCopy isSigned is64) :
    k.mir.getDefinedRegisters = [rdxPhys is64] := by
  cases isSigned with
  | true =>
    obtain rfl := mem_singleton.mp hk
    exact defs_moveReg _ _
  | false => cases hk

theorem defs_extension : (extension isSigned is64).mir.getDefinedRegisters = [rdxPhys is64] := by
  cases isSigned <;> cases is64 <;> rfl

theorem defs_divide (d : MirRegisterRef) :
    (SelectedInst.mir ⟨divideRow isSigned is64, [.register d]⟩).getDefinedRegisters = [] := by
  cases isSigned <;> cases is64 <;> rfl

theorem uses_divide (d : MirRegisterRef) :
    (SelectedInst.mir ⟨divideRow isSigned is64, [.register d]⟩).getUsedRegisters = [d] := by
  cases isSigned <;> cases is64 <;> rfl

theorem uses_moveReg (d r : MirRegisterRef) : (moveReg is64 d r).mir.getUsedRegisters = [r] := by
  cases is64 <;> rfl

section

variable (assignment : Assignment f (interferenceGraph cc f liveness)) (hb : b ∈ f.blocks)
include assignment hb

/-- A divisor in a register is read behind the writes of `rax` and `rdx`. -/
theorem apart_divisor (hlhs : IsScalar lhs) {r : MirRegisterRef} (hr : r.isVirtual = true)
    (hbank : bankOf f.banks (regKey r) = some 0)
    (hcode :
      b.instructions = pre ++ ((divisionCode isSigned isRem is64 divRhs dummy dst lhs
        (.register r)).map SelectedInst.mir ++ post)) :
    numberOf assignment.number r ≠ 0 ∧ numberOf assignment.number r ≠ 2 := by
  have hrax : numberOf assignment.number (raxPhys is64) = 0 := assignment.physical _ _
  have hrdx : numberOf assignment.number (rdxPhys is64) = 2 := assignment.physical _ _
  have hreader : r ∈ (SelectedInst.mir
      ⟨divideRow isSigned is64, [.register r]⟩).getUsedRegisters := by
    rw [uses_divide]
    exact mem_singleton.mpr rfl
  have hextension : ∀ k ∈ highCopy isSigned is64 ++ [extension isSigned is64],
      ∀ d ∈ k.mir.getDefinedRegisters, regKey d ≠ regKey r := by
    intro k hk d hd
    have hdefs : k.mir.getDefinedRegisters = [rdxPhys is64] := by
      rcases mem_append.mp hk with hk | hk
      · exact defs_highCopy hk
      · rw [mem_singleton.mp hk, defs_extension]
    obtain rfl := mem_singleton.mp (hdefs ▸ hd)
    exact (regKey_ne_preg hr _ _).symm
  constructor
  · have hsplit : divisionCode isSigned isRem is64 divRhs dummy dst lhs (.register r) =
        [] ++ moveInto is64 (raxPhys is64) lhs :: ((highCopy isSigned is64 ++
          [extension isSigned is64]) ++ ⟨divideRow isSigned is64, [.register r]⟩ ::
            [moveReg is64 dst (resultReg isRem is64),
              moveReg is64 dummy (resultReg (!isRem) is64)]) := by
      simp [divisionCode, loadDivisor]
    have hwrite : raxPhys is64 ∈ (moveInto is64 (raxPhys is64) lhs).mir.getDefinedRegisters := by
      rw [defs_moveInto _ hlhs]
      exact mem_singleton.mpr rfl
    have hapart := assignment.apart_of_read hb hcode hsplit hwrite hreader hextension
      (regKey_ne_preg hr _ _).symm ((bankOf_gpr is64 0).trans hbank.symm)
    exact fun h => hapart (hrax.trans h.symm)
  · have hsplit : divisionCode isSigned isRem is64 divRhs dummy dst lhs (.register r) =
        (moveInto is64 (raxPhys is64) lhs :: highCopy isSigned is64) ++
          extension isSigned is64 :: ([] ++ ⟨divideRow isSigned is64, [.register r]⟩ ::
            [moveReg is64 dst (resultReg isRem is64),
              moveReg is64 dummy (resultReg (!isRem) is64)]) := by
      simp [divisionCode, loadDivisor]
    have hwrite : rdxPhys is64 ∈ (extension isSigned is64).mir.getDefinedRegisters := by
      rw [defs_extension]
      exact mem_singleton.mpr rfl
    have hapart := assignment.apart_of_read hb hcode hsplit hwrite hreader
      (fun _ hk => absurd hk not_mem_nil)
      (regKey_ne_preg hr _ _).symm ((bankOf_gpr is64 2).trans hbank.symm)
    exact fun h => hapart (hrdx.trans h.symm)

/-- A constant divisor is loaded in front of the reads of `rax` and `rdx`. -/
theorem apart_constant (hdiv : divRhs.isVirtual = true) (hdst : dst.isVirtual = true)
    (hbank : bankOf f.banks (regKey divRhs) = some 0) {v : ℤ}
    (hcode :
      b.instructions = pre ++ ((divisionCode isSigned isRem is64 divRhs dummy dst lhs
        (.integer v)).map SelectedInst.mir ++ post)) :
    numberOf assignment.number divRhs ≠ 0 ∧ numberOf assignment.number divRhs ≠ 2 := by
  have hsplit : divisionCode isSigned isRem is64 divRhs dummy dst lhs (.integer v) =
      (moveInto is64 (raxPhys is64) lhs :: (highCopy isSigned is64 ++ [extension isSigned is64])) ++
        moveInto is64 divRhs (.integer v) :: ([⟨divideRow isSigned is64, [.register divRhs]⟩] ++
            moveReg is64 dst (resultReg isRem is64) ::
              [moveReg is64 dummy (resultReg (!isRem) is64)]) := by
    simp [divisionCode, loadDivisor, moveInto]
  have hwrite : divRhs ∈ (moveInto is64 divRhs (.integer v)).mir.getDefinedRegisters := by
    rw [defs_moveInto divRhs (show IsScalar (.integer v) from trivial)]
    exact mem_singleton.mpr rfl
  have hpreg : ∀ isRem, regKey (resultReg isRem is64) =
      .preg (some (gprClass is64)) (if isRem then 2 else 0) := by
    intro isRem
    cases isRem <;> rfl
  have hdivide : ∀ k ∈ [SelectedInst.mk (divideRow isSigned is64) [.register divRhs]],
      ∀ r ∈ k.mir.getDefinedRegisters, regKey r ≠ regKey (resultReg isRem is64) := by
    intro k hk r hmem
    rw [mem_singleton.mp hk, defs_divide] at hmem
    cases hmem
  have hresult : numberOf assignment.number divRhs ≠
      numberOf assignment.number (resultReg isRem is64) := by
    refine assignment.apart_of_read hb hcode hsplit hwrite ?_ hdivide ?_ ?_
    · rw [uses_moveReg]
      exact mem_singleton.mpr rfl
    · rw [hpreg]
      exact regKey_ne_preg hdiv _ _
    · rw [hbank, hpreg, bankOf_gpr]
  have hother : numberOf assignment.number divRhs ≠
      numberOf assignment.number (resultReg (!isRem) is64) := by
    have hmid : ∀ k ∈ [SelectedInst.mk (divideRow isSigned is64) [.register divRhs],
        moveReg is64 dst (resultReg isRem is64)],
        ∀ r ∈ k.mir.getDefinedRegisters, regKey r ≠ regKey (resultReg (!isRem) is64) := by
      intro k hk r hmem
      rcases mem_cons.mp hk with rfl | hk
      · rw [defs_divide] at hmem
        cases hmem
      · rw [mem_singleton.mp hk, defs_moveReg] at hmem
        rw [mem_singleton.mp hmem, hpreg]
        exact regKey_ne_preg hdst _ _
    have hsplit' : divisionCode isSigned isRem is64 divRhs dummy dst lhs (.integer v) =
        (moveInto is64 (raxPhys is64) lhs ::
            (highCopy isSigned is64 ++ [extension isSigned is64])) ++
          moveInto is64 divRhs (.integer v) :: ([⟨divideRow isSigned is64, [.register divRhs]⟩,
              moveReg is64 dst (resultReg isRem is64)] ++
                moveReg is64 dummy (resultReg (!isRem) is64) :: []) := hsplit
    refine assignment.apart_of_read hb hcode hsplit' hwrite ?_ hmid ?_ ?_
    · rw [uses_moveReg]
      exact mem_singleton.mpr rfl
    · rw [hpreg]
      exact regKey_ne_preg hdiv _ _
    · rw [hbank, hpreg, bankOf_gpr]
  have hnumber : ∀ isRem, numberOf assignment.number (resultReg isRem is64) =
      if isRem then 2 else 0 := by
    intro isRem
    cases isRem <;> exact assignment.physical _ _
  rw [hnumber] at hresult hother
  cases isRem with
  | true => exact ⟨hother, hresult⟩
  | false => exact ⟨hresult, hother⟩

/-- The quotient's destination is not `rdx`, which is read behind its move. -/
theorem apart_rdx (hdst : dst.isVirtual = true) (hbank : bankOf f.banks (regKey dst) = some 0)
    (hcode :
      b.instructions = pre ++ ((divisionCode isSigned false is64 divRhs dummy dst lhs rhs).map
        SelectedInst.mir ++ post)) :
    numberOf assignment.number dst ≠ 2 := by
  have hrdx : numberOf assignment.number (rdxPhys is64) = 2 := assignment.physical _ _
  have hsplit : divisionCode isSigned false is64 divRhs dummy dst lhs rhs =
      (moveInto is64 (raxPhys is64) lhs :: (highCopy isSigned is64 ++
        division isSigned is64 divRhs rhs)) ++ moveReg is64 dst (raxPhys is64) ::
          ([] ++ moveReg is64 dummy (rdxPhys is64) :: []) := by
    simp [divisionCode_eq, resultReg]
  have hwrite : dst ∈ (moveReg is64 dst (raxPhys is64)).mir.getDefinedRegisters := by
    rw [defs_moveReg]
    exact mem_singleton.mpr rfl
  have hread : rdxPhys is64 ∈ (moveReg is64 dummy (rdxPhys is64)).mir.getUsedRegisters := by
    rw [uses_moveReg]
    exact mem_singleton.mpr rfl
  rw [← hrdx]
  exact assignment.apart_of_read hb hcode hsplit hwrite hread nofun (regKey_ne_preg hdst _ _)
    (hbank.trans (bankOf_gpr is64 2).symm)

/-- The destination is not the register that the other half is moved to. -/
theorem apart_dummy
    (hcode :
      b.instructions = pre ++ ((divisionCode isSigned isRem is64 divRhs dummy dst lhs rhs).map
        SelectedInst.mir ++ post))
    (hne : regKey dummy ≠ regKey dst)
    (hbank : bankOf f.banks (regKey dummy) = bankOf f.banks (regKey dst))
    (hlive : liveAt (liveness.liveOut b.id) post (regKey dst)) :
    numberOf assignment.number dst ≠ numberOf assignment.number dummy := by
  have hsplit : b.instructions =
      (pre ++ ([moveInto is64 (raxPhys is64) lhs] ++ (highCopy isSigned is64 ++
        (division isSigned is64 divRhs rhs ++ [moveReg is64 dst (resultReg isRem is64)]))).map
          SelectedInst.mir) ++ (moveReg is64 dummy (resultReg (!isRem) is64)).mir :: post := by
    rw [hcode, divisionCode_eq]
    simp
  have hwrite : dummy ∈ (moveReg is64 dummy (resultReg (!isRem) is64)).mir.getDefinedRegisters := by
    rw [defs_moveReg]
    exact mem_singleton.mpr rfl
  exact (assignment.apart_of_live hb hsplit hwrite hlive hne hbank).symm

end

end

/-! ## A quotient in the dividend's register -/

section

def value32 (id : ℕ) : MirRegisterRef := ⟨true, some GPR32, id⟩

/-- The quotient of two registers of 32 bits. -/
def signedDivision : List SelectedInst :=
  selectDIV true false false 3 4 (value32 0) (.register (value32 1)) (.register (value32 2))

theorem signedDivision_general : ∀ inst ∈ signedDivision.map SelectedInst.mir,
    ∀ r ∈ instRefs inst, r.regClass.map MirRegisterClass.bank = some 0 := by decide

def divisionFunction : SelectedFunction :=
  generalFunction (signedDivision.map SelectedInst.mir) signedDivision_general

theorem divisionLiveness_inBank : ∀ b : ℕ, ∀ r ∈ (fun _ => [value32 0] : ℕ → List MirRegisterRef) b,
      InBank divisionFunction.banks r := inBank_liveOut rfl (by decide)

def divisionLiveness : LivenessResult divisionFunction :=
  ⟨fun _ => [value32 0], divisionLiveness_inBank⟩

def divisionGraph : InterferenceGraph := interferenceGraph none divisionFunction divisionLiveness

theorem divisionGraph_apart (id : ℕ) (hid : id = 1 ∨ id = 6) : ∀ a b, divisionGraph.Adj a b →
      bankOf divisionFunction.banks a = bankOf divisionFunction.banks b →
        numbers [1, id, 3, 3, 0] a ≠ numbers [1, id, 3, 3, 0] b := by
  apply apart_of_nodes (interferenceGraph_ok none)
  rcases hid with rfl | rfl
  · decide +kernel
  · decide +kernel

def divisionAssignment (id : ℕ) (hid : id = 1 ∨ id = 6) :
    Assignment divisionFunction divisionGraph :=
  ⟨numbers [1, id, 3, 3, 0], fun _ _ => rfl, divisionGraph_apart id hid⟩

/-- The code behind allocation and the passes. -/
def allocatedDivision (number : RegKey → ℕ) : List SelectedInst :=
  optimizeBlock (eliminateRedundantCopies
    (signedDivision.map (SelectedInst.rewriteColors number fun _ => some GPR32)))

theorem divisionFunction_code : (MirBlock.mk 0 (signedDivision.map SelectedInst.mir)).instructions =
      [] ++ (signedDivision.map SelectedInst.mir ++ []) := (append_nil _).symm

end

end EzPacker.X86
