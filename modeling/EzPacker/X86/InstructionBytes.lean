import EzPacker.Lib.RelaxationRounds
import EzPacker.Lib.SignExtension

/-!
# Bytes of x86-64 instructions

The prefix and addressing bytes are packed from bit fields, immediates are appended the
least significant byte first.
-/

namespace EzPacker.X86

def emitImm (value : BitVec 64) (bytes : ℕ) : List UInt8 := leBytes bytes value.toNat

def encodeModRM (mod reg rm : BitVec 8) : UInt8 :=
  ⟨((mod &&& 0x03) <<< 6) ||| ((reg &&& 0x07) <<< 3) ||| (rm &&& 0x07)⟩

def encodeSIB (scalePower index base : BitVec 8) : UInt8 :=
  ⟨((scalePower &&& 0x03) <<< 6) ||| ((index &&& 0x07) <<< 3) ||| (base &&& 0x07)⟩

def rexByte (w r x b : Bool) : UInt8 :=
  ⟨0x40 ||| (if w then 0x08 else 0) ||| (if r then 0x04 else 0) ||| (if x then 0x02 else 0) |||
    (if b then 0x01 else 0)⟩

/-! ## Reading them back -/

/-- The number in the first bytes. -/
def immField (n : ℕ) (bytes : List UInt8) : BitVec (8 * n) :=
  BitVec.ofNat (8 * n) (leNat (bytes.take n))

@[simp] theorem length_emitImm (value : BitVec 64) (n : ℕ) : (emitImm value n).length = n :=
  length_leBytes n value.toNat

theorem immField_emitImm (value : BitVec 64) (n : ℕ) (rest : List UInt8) :
    immField n (emitImm value n ++ rest) = value.setWidth (8 * n) := by
  have htake : (emitImm value n ++ rest).take n = leBytes n value.toNat := by
    rw [List.take_append_of_le_length (Nat.le_of_eq (length_emitImm value n).symm),
      List.take_of_length_le (Nat.le_of_eq (length_emitImm value n))]
    rfl
  have hpow : 256 ^ n = 2 ^ (8 * n) := by
    rw [Nat.pow_mul]
  unfold immField
  apply BitVec.eq_of_toNat_eq
  rw [htake, leNat_leBytes, hpow, BitVec.toNat_ofNat, BitVec.toNat_setWidth, Nat.mod_mod]

def modOf (modrm : UInt8) : BitVec 2 := modrm.toBitVec.extractLsb' 6 2

def regOf (modrm : UInt8) : BitVec 3 := modrm.toBitVec.extractLsb' 3 3

def rmOf (modrm : UInt8) : BitVec 3 := modrm.toBitVec.extractLsb' 0 3

theorem fields_encodeModRM (mod reg rm : BitVec 8) :
    modOf (encodeModRM mod reg rm) = mod.setWidth 2 ∧
      regOf (encodeModRM mod reg rm) = reg.setWidth 3 ∧
      rmOf (encodeModRM mod reg rm) = rm.setWidth 3 := by
  unfold modOf regOf rmOf encodeModRM
  refine ⟨?_, ?_, ?_⟩ <;>
    · apply BitVec.eq_of_getLsbD_eq
      intro i hi
      interval_cases i <;> simp

/-- The bytes of the addressing modes are packed alike. -/
theorem encodeSIB_eq (scalePower index base : BitVec 8) :
    encodeSIB scalePower index base = encodeModRM scalePower index base := rfl

/-!
## Branch relaxation for x86-64

Jumps start short and are made near when their displacement has more than 8 bits. The
rounds end, and no short jump is left that does not reach its target; the near jumps are
as few as possible when no round makes a jump near that could have stayed short.
-/

open BranchLayout

/-! ## Branches -/

inductive ConditionCode
  | O
  | NO
  | B
  | AE
  | E
  | NE
  | BE
  | A
  | S
  | NS
  | P
  | NP
  | L
  | GE
  | LE
  | G
  deriving DecidableEq, Repr

def ConditionCode.toNat : ConditionCode → ℕ
  | .O => 0x0
  | .NO => 0x1
  | .B => 0x2
  | .AE => 0x3
  | .E => 0x4
  | .NE => 0x5
  | .BE => 0x6
  | .A => 0x7
  | .S => 0x8
  | .NS => 0x9
  | .P => 0xA
  | .NP => 0xB
  | .L => 0xC
  | .GE => 0xD
  | .LE => 0xE
  | .G => 0xF

structure BranchItem where
  targetId : ℕ
  isConditional : Bool
  condition : ConditionCode
  deriving DecidableEq, Repr

def BranchItem.getSize (branch : BranchItem) (isRelaxed : Bool) : ℕ :=
  if !isRelaxed then 2 else if branch.isConditional then 6 else 5

/-- The displacement, from the end of the short branch, has more than 8 bits. -/
def BranchItem.exceeds (branch : BranchItem) (distance : ℤ) : Bool :=
  let disp := distance - branch.getSize false
  disp < -128 || disp > 127

abbrev StreamItem := Item ℕ BranchItem

theorem exceeds_iff (branch : BranchItem) (distance : ℤ) :
    branch.exceeds distance = true ↔ distance < -126 ∨ 129 < distance := by
  simp only [BranchItem.exceeds, BranchItem.getSize, Bool.or_eq_true, decide_eq_true_iff,
    Bool.not_false, if_true]
  omega

theorem exceeds_forward {branch : BranchItem} {d d' : ℤ} (hd : 0 ≤ d) (hle : d ≤ d')
    (h : branch.exceeds d = true) : branch.exceeds d' = true := by
  rw [exceeds_iff] at *
  omega

theorem exceeds_backward {branch : BranchItem} {d d' : ℤ} (hle : d' ≤ d) (hd : d ≤ 0)
    (h : branch.exceeds d = true) : branch.exceeds d' = true := by
  rw [exceeds_iff] at *
  omega

theorem getSize_le (branch : BranchItem) : branch.getSize false ≤ branch.getSize true := by
  unfold BranchItem.getSize
  cases branch.isConditional <;> decide

def branchForm : Form ℕ BranchItem where
  target := BranchItem.targetId
  size := BranchItem.getSize
  far := BranchItem.exceeds
  size_le := getSize_le
  far_forward := exceeds_forward
  far_backward := exceeds_backward

/-! ## The stream -/

/-- The calls by which a stream is made. -/
inductive RelaxerCall
  | emitBytes (bytes : List UInt8)
  | defineLabel (labelId : ℕ)
  | emitJmp (targetLabelId : ℕ)
  | emitJcc (cc : ConditionCode) (targetLabelId : ℕ)

def RelaxerCall.push : RelaxerCall → List StreamItem
  | .emitBytes bytes => if bytes.length > 0 then [.data bytes] else []
  | .defineLabel labelId => [.label labelId]
  | .emitJmp targetLabelId => [.branch ⟨targetLabelId, false, .E⟩ false]
  | .emitJcc cc targetLabelId => [.branch ⟨targetLabelId, true, cc⟩ false]

def streamOf (calls : List RelaxerCall) : List StreamItem := calls.flatMap RelaxerCall.push

/-! ## Emission -/

def emitJmpShort (disp : BitVec 64) : List UInt8 := 0xEB :: emitImm disp 1

def emitJmpNear (disp : BitVec 64) : List UInt8 := 0xE9 :: emitImm disp 4

def emitJccShort (cc : ConditionCode) (disp : BitVec 64) : List UInt8 :=
  UInt8.ofNat (0x70 ||| (cc.toNat &&& 0x0F)) :: emitImm disp 1

def emitJccNear (cc : ConditionCode) (disp : BitVec 64) : List UInt8 :=
  0x0F :: UInt8.ofNat (0x80 ||| (cc.toNat &&& 0x0F)) :: emitImm disp 4

/-- The code of an item; a target without a definition is taken to be at 0. -/
def emitItem (resolvedLabels : ℕ → Option ℕ) (currentOffset : ℕ) : StreamItem → List UInt8
  | .data bytes => bytes
  | .label _ => []
  | .branch branch isRelaxed =>
    let targetOffset := (resolvedLabels branch.targetId).getD 0
    let nextIp := currentOffset + branch.getSize isRelaxed
    let disp := BitVec.ofInt 64 ((targetOffset : ℤ) - nextIp)
    if !isRelaxed then
      if branch.isConditional then emitJccShort branch.condition disp else emitJmpShort disp
    else
      if branch.isConditional then emitJccNear branch.condition disp else emitJmpNear disp

/-- The stream that the relaxer is left with and what it gives out. -/
structure RelaxedCode where
  items : List StreamItem
  outCode : List UInt8
  resolvedLabels : ℕ → Option ℕ
  relaxedCount : ℕ

/-- Looking up the target of a branch defines it at 0 when it has no definition. -/
def lookedUp (items : List StreamItem) (labels : ℕ → Option ℕ) (labelId : ℕ) : Option ℕ :=
  let isTarget : StreamItem → Bool
    | .branch branch _ => branch.targetId = labelId
    | _ => false
  (labels labelId).or (if items.any isTarget then some 0 else none)

def relaxAndResolve (fuel : ℕ) (items : List StreamItem) : Option RelaxedCode :=
  (branchForm.relax fuel items 0).map fun relaxed =>
    let labels := branchForm.labels relaxed.1
    ⟨relaxed.1, branchForm.emit (emitItem labels) 0 relaxed.1, lookedUp relaxed.1 labels, relaxed.2⟩

theorem exists_relaxAndResolve (items : List StreamItem) :
    ∃ code, relaxAndResolve (shortCount items + 1) items = some code := by
  obtain ⟨relaxed, hrelax⟩ := exists_relax (F := branchForm) (Nat.lt_succ_self (shortCount items)) 0
  exact ⟨_, congrArg (Option.map _) hrelax⟩

theorem relaxed_of_relaxAndResolve {fuel : ℕ} {items : List StreamItem} {code : RelaxedCode}
    (h : relaxAndResolve fuel items = some code) : Relaxed branchForm items code.items := by
  obtain ⟨⟨final, count⟩, hrelax, rfl⟩ := Option.map_eq_some_iff.mp h
  exact (relaxed_of_relax hrelax).1

/-! ## Soundness and minimality -/

def displacement (items : List StreamItem) (i : ℕ) (branch : BranchItem) (isRelaxed : Bool)
    (targetOffset : ℕ) : ℤ :=
  targetOffset - (branchForm.offset items i + branch.getSize isRelaxed)

/-- The branches left short have displacements of 8 bits. -/
def ShortFits (items : List StreamItem) : Prop :=
  ∀ (i : ℕ) (branch : BranchItem) (t : ℕ), items[i]? = some (.branch branch false) →
    branchForm.labelOffset items branch.targetId = some t →
    -128 ≤ displacement items i branch false t ∧ displacement items i branch false t ≤ 127

/-- What the relaxer promises of a stream: no round makes a branch short, the rounds end,
the branches left short have displacements of 8 bits, and no assignment with fewer near
branches has that. -/
def RelaxedExactly (items : List StreamItem) : Prop :=
  (∀ n, Grows (branchForm.after items n) (branchForm.after items (n + 1))) ∧
    ∃ fuel code, relaxAndResolve fuel items = some code ∧ Grows items code.items ∧
      ShortFits code.items ∧
      ∀ fewer, Grows items fewer → Grows fewer code.items → ShortFits fewer → fewer = code.items

theorem far_eq_false_iff (items : List StreamItem) (i : ℕ) (branch : BranchItem) (t : ℕ) :
    branchForm.far branch ((t : ℤ) - branchForm.offset items i) = false ↔
      -128 ≤ displacement items i branch false t ∧ displacement items i branch false t ≤ 127 := by
  unfold displacement BranchItem.getSize
  simp only [branchForm, BranchItem.exceeds, BranchItem.getSize, Bool.or_eq_false_iff,
    decide_eq_false_iff_not, Bool.not_false, if_true]
  omega

theorem valid_iff (items : List StreamItem) : Valid branchForm items ↔ ShortFits items := by
  constructor
  · exact fun h i branch t hi ht => (far_eq_false_iff items i branch t).mp (h i branch t hi ht)
  · exact fun h i branch t hi ht => (far_eq_false_iff items i branch t).mpr (h i branch t hi ht)

theorem push_short (call : RelaxerCall) (branch : BranchItem) :
    .branch branch true ∉ call.push := by
  cases call with
  | emitBytes bytes =>
    unfold RelaxerCall.push
    dsimp only
    split <;> simp
  | _ => simp [RelaxerCall.push]

theorem streamOf_short (calls : List RelaxerCall) (i : ℕ) (branch : BranchItem) :
    (streamOf calls)[i]? ≠ some (.branch branch true) := by
  intro h
  obtain ⟨call, -, hpush⟩ := List.mem_flatMap.mp (List.mem_of_getElem? h)
  exact push_short call branch hpush

/-- The relaxer keeps all of its promises when every branch that a round finds out of reach
has to be near, and only then. -/
theorem relaxedExactly_iff_warranted {items : List StreamItem}
    (hshort : ∀ (i : ℕ) (branch : BranchItem), items[i]? ≠ some (.branch branch true)) :
    RelaxedExactly items ↔ ∀ n, Warranted branchForm items (branchForm.after items n) := by
  constructor
  · intro ⟨_, fuel, code, hrelax, _, _, hminimal⟩
    rw [← (relaxed_of_relaxAndResolve hrelax).minimal_iff hshort]
    exact fun fewer hfewer hle hvalid => hminimal fewer hfewer hle ((valid_iff fewer).mp hvalid)
  · intro hwarranted
    obtain ⟨code, hrelax⟩ := exists_relaxAndResolve items
    have hrelaxed := relaxed_of_relaxAndResolve hrelax
    have hminimal := (hrelaxed.minimal_iff hshort).mpr hwarranted
    refine ⟨fun n => grows_after n 1, _, code, hrelax, hrelaxed.grows,
      (valid_iff _).mp hrelaxed.valid, ?_⟩
    exact fun fewer hfewer hle hfits => hminimal fewer hfewer hle ((valid_iff fewer).mpr hfits)

/-- A jump backward of 126 bytes behind a branch that the same round makes near. -/
def jumpBehindBranch : List RelaxerCall :=
  [.emitJcc .E 2, .defineLabel 1, .emitBytes (List.replicate 124 0x90), .emitJmp 1,
    .emitBytes (List.replicate 200 0x90), .defineLabel 2]

/-- Its stream with the branch short or near, and the jump short. -/
def jumpBehind (isRelaxed : Bool) : List StreamItem :=
  [.branch ⟨2, true, .E⟩ isRelaxed, .label 1, .data (List.replicate 124 0x90),
    .branch ⟨1, false, .E⟩ false, .data (List.replicate 200 0x90), .label 2]

theorem streamOf_jumpBehindBranch : streamOf jumpBehindBranch = jumpBehind false := by
  simp [streamOf, jumpBehindBranch, RelaxerCall.push, jumpBehind]

theorem grows_jumpBehind : Grows (jumpBehind false) (jumpBehind true) :=
  .cons (.branch _ nofun) (.cons (.label _) (.cons (.data _) (.cons (.branch _ nofun)
    (.cons (.data _) (.cons (.label _) .nil)))))

theorem valid_jumpBehind : Valid branchForm (jumpBehind true) := by
  intro i branch t hi ht
  have hthree : i = 3 ∧ branch = ⟨1, false, .E⟩ := by
    unfold jumpBehind at hi
    rcases i with _ | _ | _ | _ | _ | _ | i
    all_goals simp at hi
    exact ⟨rfl, hi.symm⟩
  obtain ⟨rfl, rfl⟩ := hthree
  have hsix : branchForm.labelOffset (jumpBehind true) 1 = some 6 := by decide +kernel
  obtain rfl := Option.some.inj (hsix.symm.trans ht)
  decide +kernel

end EzPacker.X86
