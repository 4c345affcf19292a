import EzPacker.Lib.RelaxationRounds
import EzPacker.RiscV.FormatFields

/-!
# Branch relaxation for RISC-V

A conditional branch that does not reach its target is made a pair: the inverted branch
over a jump, and the jump. The range of the jumps and the parity of the displacements are
never tested, so a stream is relaxed soundly when its jumps reach and all distances are
even.
-/

namespace EzPacker.RiscV

open BranchLayout

/-! ## Branches -/

structure BranchItem where
  targetId : ℕ
  isConditional : Bool
  funct3 : BitVec 8
  rs1 : BitVec 8
  rs2 : BitVec 8
  rd : BitVec 8
  deriving DecidableEq, Repr

def BranchItem.getSize (branch : BranchItem) (isRelaxed : Bool) : ℕ :=
  if !branch.isConditional then 4 else if isRelaxed then 8 else 4

/-- A conditional branch does not have the displacement. -/
def BranchItem.exceeds (branch : BranchItem) (disp : ℤ) : Bool :=
  branch.isConditional && (disp < -4096 || disp > 4094)

abbrev StreamItem := Item ℕ BranchItem

theorem exceeds_iff (branch : BranchItem) (disp : ℤ) :
    branch.exceeds disp = true ↔ branch.isConditional = true ∧ (disp < -4096 ∨ disp > 4094) := by
  simp only [BranchItem.exceeds, Bool.and_eq_true, Bool.or_eq_true, decide_eq_true_iff]

variable {branch : BranchItem} {items : List StreamItem} {code : List UInt8} {offset target : ℕ}

theorem exceeds_forward {d d' : ℤ} (hd : 0 ≤ d) (hle : d ≤ d') (h : branch.exceeds d = true) :
    branch.exceeds d' = true := by
  rw [exceeds_iff] at *
  exact ⟨h.1, by omega⟩

theorem exceeds_backward {d d' : ℤ} (hle : d' ≤ d) (hd : d ≤ 0) (h : branch.exceeds d = true) :
    branch.exceeds d' = true := by
  rw [exceeds_iff] at *
  exact ⟨h.1, by omega⟩

theorem getSize_le (branch : BranchItem) : branch.getSize false ≤ branch.getSize true := by
  unfold BranchItem.getSize
  cases branch.isConditional <;> decide

def branchForm : Form ℕ BranchItem where
  target := BranchItem.targetId
  size := BranchItem.getSize
  far := BranchItem.exceeds
  size_le := getSize_le
  far_forward := exceeds_forward
  far_backward := exceeds_backward

/-! ## The stream -/

/-- The calls by which a stream is made. -/
inductive RelaxerCall
  | emitBytes (bytes : List UInt8)
  | defineLabel (labelId : ℕ)
  | emitJal (rd : BitVec 8) (targetLabelId : ℕ)
  | emitBranch (funct3 rs1 rs2 : BitVec 8) (targetLabelId : ℕ)

def RelaxerCall.push : RelaxerCall → List StreamItem
  | .emitBytes bytes => if bytes.length > 0 then [.data bytes] else []
  | .defineLabel labelId => [.label labelId]
  | .emitJal rd targetLabelId => [.branch ⟨targetLabelId, false, 0, 0, 0, rd⟩ false]
  | .emitBranch funct3 rs1 rs2 targetLabelId =>
    [.branch ⟨targetLabelId, true, funct3, rs1, rs2, 0⟩ false]

def streamOf (calls : List RelaxerCall) : List StreamItem := calls.flatMap RelaxerCall.push

/-! ## Emission -/

def jalWord (rd : BitVec 8) (offset : BitVec 32) : BitVec 32 :=
  encodeJImm offset ||| ((rd.setWidth 32 &&& 0x1F) <<< 7) ||| 0x6F

def branchWord (funct3 rs1 rs2 : BitVec 8) (offset : BitVec 32) : BitVec 32 :=
  encodeBImm offset ||| ((rs2.setWidth 32 &&& 0x1F) <<< 20) |||
    ((rs1.setWidth 32 &&& 0x1F) <<< 15) |||
    ((funct3.setWidth 32 &&& 0x7) <<< 12) |||
    0x63

/-- The code of an item; a branch without a known target has the displacement 0. -/
def emitItem (resolvedLabels : ℕ → Option ℕ) (currentOffset : ℕ) : StreamItem → List UInt8
  | .data bytes => bytes
  | .label _ => []
  | .branch branch isRelaxed =>
    let targetOffset : BitVec 32 :=
      match resolvedLabels branch.targetId with
      | some target => BitVec.ofInt 32 ((target : ℤ) - currentOffset)
      | none => 0
    if !branch.isConditional then wordBytes (jalWord branch.rd targetOffset)
    else if isRelaxed then
      let invFunct3 := branch.funct3 ^^^ 1
      wordBytes (branchWord invFunct3 branch.rs1 branch.rs2 8) ++
        wordBytes (jalWord 0 (targetOffset - 4))
    else wordBytes (branchWord branch.funct3 branch.rs1 branch.rs2 targetOffset)

/-- The stream that the relaxer is left with and what it gives out. -/
structure RelaxedCode where
  items : List StreamItem
  outCode : List UInt8
  resolvedLabels : ℕ → Option ℕ
  relaxedCount : ℕ

def relaxAndResolve (fuel : ℕ) (items : List StreamItem) : Option RelaxedCode :=
  (branchForm.relax fuel items 0).map fun relaxed =>
    let resolvedLabels := branchForm.labels relaxed.1
    ⟨relaxed.1, branchForm.emit (emitItem resolvedLabels) 0 relaxed.1, resolvedLabels, relaxed.2⟩

theorem length_emitItem (resolvedLabels : ℕ → Option ℕ) (currentOffset : ℕ) (x : StreamItem) :
    (emitItem resolvedLabels currentOffset x).length = branchForm.width x := by
  cases x with
  | data bytes | label l => rfl
  | branch branch isRelaxed =>
    obtain ⟨targetId, isConditional, funct3, rs1, rs2, rd⟩ := branch
    cases isConditional <;> cases isRelaxed <;> rfl

theorem slice_relaxAndResolve {fuel : ℕ} {code : RelaxedCode}
    (h : relaxAndResolve fuel items = some code) {i : ℕ} {x : StreamItem}
    (hx : code.items[i]? = some x) :
    slice code.outCode (branchForm.offset code.items i) (branchForm.width x) =
      emitItem code.resolvedLabels (branchForm.offset code.items i) x := by
  obtain ⟨relaxed, -, rfl⟩ := Option.map_eq_some_iff.mp h
  exact slice_emit (length_emitItem _) hx

theorem exists_relaxAndResolve (items : List StreamItem) :
    ∃ code, relaxAndResolve (shortCount items + 1) items = some code := by
  obtain ⟨relaxed, hrelax⟩ := exists_relax (F := branchForm) (Nat.lt_succ_self (shortCount items)) 0
  exact ⟨_, congrArg (Option.map _) hrelax⟩

theorem relaxed_of_relaxAndResolve {fuel : ℕ} {code : RelaxedCode}
    (h : relaxAndResolve fuel items = some code) : Relaxed branchForm items code.items ∧
      code.resolvedLabels = branchForm.labelOffset code.items := by
  obtain ⟨⟨final, count⟩, hrelax, rfl⟩ := Option.map_eq_some_iff.mp h
  exact ⟨(relaxed_of_relax hrelax).1, funext (labels_eq final)⟩

/-! ## What a branch is in the code -/

/-- The word is a jump that links in the register and goes so far. -/
structure IsJal (word : BitVec 32) (rd : BitVec 8) (disp : ℤ) : Prop where
  opcode : opcodeOf word = 0x6F
  rd : rdOf word = rd.setWidth 5
  disp : (jumpDisp word).toInt = disp

/-- The word is a branch with the condition and the registers and goes so far. -/
structure IsBranch (word : BitVec 32) (funct3 rs1 rs2 : BitVec 8) (disp : ℤ) : Prop where
  opcode : opcodeOf word = 0x63
  funct3 : funct3Of word = funct3.setWidth 3
  rs1 : rs1Of word = rs1.setWidth 5
  rs2 : rs2Of word = rs2.setWidth 5
  disp : (branchDisp word).toInt = disp

/-- The words at an offset take a branch to its target: a jump; an inverted branch over the
jump behind it, and that jump; or the branch. -/
def Reaches (code : List UInt8) (offset : ℕ) (branch : BranchItem) (isRelaxed : Bool)
    (target : ℕ) : Prop :=
  if !branch.isConditional then
    ∃ word, readWord code offset = some word ∧ IsJal word branch.rd ((target : ℤ) - offset)
  else if isRelaxed then
    ∃ word word', readWord code offset = some word ∧ readWord code (offset + 4) = some word' ∧
      IsBranch word (branch.funct3 ^^^ 1) branch.rs1 branch.rs2 8 ∧
      IsJal word' 0 ((target : ℤ) - (offset + 4))
  else
    ∃ word, readWord code offset = some word ∧
      IsBranch word branch.funct3 branch.rs1 branch.rs2 ((target : ℤ) - offset)

/-- The relaxer ends, and in the final layout every branch with a defined target reaches it. -/
def RelaxedSoundly (items : List StreamItem) : Prop :=
  ∃ fuel code, relaxAndResolve fuel items = some code ∧
    ∀ (i : ℕ) (branch : BranchItem) (isRelaxed : Bool) (target : ℕ),
      code.items[i]? = some (.branch branch isRelaxed) →
      code.resolvedLabels branch.targetId = some target →
      Reaches code.outCode (branchForm.offset code.items i) branch isRelaxed target

/-! ## Words of branches -/

section

variable (rd funct3 rs1 rs2 : BitVec 8) (disp : ℤ)

theorem jalWord_eq (offset : BitVec 32) :
    jalWord rd offset = jTypeWord (offset.signExtend 64) rd 0x6F := by
  unfold jTypeWord
  rw [setWidth_signExtend_of_le (by decide)]
  rfl

theorem branchWord_eq (offset : BitVec 32) :
    branchWord funct3 rs1 rs2 offset = bTypeWord (offset.signExtend 64) rs2 rs1 funct3 0x63 := by
  unfold bTypeWord
  rw [setWidth_signExtend_of_le (by decide)]
  rfl

theorem setWidth_extended {n : ℕ} (hn : n ≤ 32) (offset : BitVec 32) :
    (offset.signExtend 64).setWidth n = offset.setWidth n := by
  rw [← BitVec.setWidth_setWidth_of_le _ hn, setWidth_signExtend_of_le (by decide)]

theorem isJal_iff : IsJal (jalWord rd (BitVec.ofInt 32 disp)) rd disp ↔
      disp % 2 = 0 ∧ -2 ^ 20 ≤ disp ∧ disp < 2 ^ 20 := by
  obtain ⟨hopcode, hrd, hdisp⟩ := fields_jTypeWord ((BitVec.ofInt 32 disp).signExtend 64) rd 0x6F
  rw [← jalWord_eq] at hopcode hrd hdisp
  rw [setWidth_extended (by decide)] at hdisp
  have heven := toInt_even_iff (n := 21) (w := 32) (by decide) (by decide) disp
  constructor
  · intro h
    have hsame := h.disp
    rw [hdisp] at hsame
    exact heven.mp hsame
  · intro h
    exact ⟨hopcode, hrd, hdisp ▸ heven.mpr h⟩

theorem isBranch_iff :
    IsBranch (branchWord funct3 rs1 rs2 (BitVec.ofInt 32 disp)) funct3 rs1 rs2 disp ↔
      disp % 2 = 0 ∧ -2 ^ 12 ≤ disp ∧ disp < 2 ^ 12 := by
  obtain ⟨hopcode, hfunct3, hrs1, hrs2, hdisp⟩ :=
    fields_bTypeWord ((BitVec.ofInt 32 disp).signExtend 64) rs2 rs1 funct3 0x63
  rw [← branchWord_eq] at hopcode hfunct3 hrs1 hrs2 hdisp
  rw [setWidth_extended (by decide)] at hdisp
  have heven := toInt_even_iff (n := 13) (w := 32) (by decide) (by decide) disp
  constructor
  · intro h
    have hsame := h.disp
    rw [hdisp] at hsame
    exact heven.mp hsame
  · intro h
    exact ⟨hopcode, hfunct3, hrs1, hrs2, hdisp ▸ heven.mpr h⟩

end

/-! ## Sound relaxation -/

/-- The distance of a branch to its target is even, and that of a jump has 21 bits. -/
structure InReach (branch : BranchItem) (isRelaxed : Bool) (distance : ℤ) : Prop where
  even : distance % 2 = 0
  jump : branch.isConditional = false → -2 ^ 20 ≤ distance ∧ distance < 2 ^ 20
  pair : branch.isConditional = true → isRelaxed = true →
    -2 ^ 20 ≤ distance - 4 ∧ distance - 4 < 2 ^ 20

theorem exists_word_iff {word : BitVec 32} (h : slice code offset 4 = wordBytes word)
    (p : BitVec 32 → Prop) : (∃ word', readWord code offset = some word' ∧ p word') ↔ p word := by
  rw [readWord_of_slice h]
  constructor
  · intro ⟨word', heq, hp⟩
    exact Option.some.inj heq ▸ hp
  · exact fun hp => ⟨word, rfl, hp⟩

theorem reaches_jump_iff {isRelaxed : Bool} (hjump : branch.isConditional = false) (hcode : slice
      code offset 4 = wordBytes (jalWord branch.rd (BitVec.ofInt 32 ((target : ℤ) - offset)))) :
    Reaches code offset branch isRelaxed target ↔
      InReach branch isRelaxed ((target : ℤ) - offset) := by
  unfold Reaches
  rw [hjump, if_pos (by decide), exists_word_iff hcode, isJal_iff]
  constructor
  · intro ⟨heven, hrange⟩
    exact ⟨heven, fun _ => hrange, fun h => by rw [hjump] at h; cases h⟩
  · exact fun h => ⟨h.even, h.jump hjump⟩

theorem reaches_branch_iff (hbranch : branch.isConditional = true) (hcode : slice code offset 4 =
      wordBytes (branchWord branch.funct3 branch.rs1 branch.rs2 (BitVec.ofInt 32 ((target : ℤ) -
      offset)))) (hnear : branch.exceeds ((target : ℤ) - offset) = false) :
    Reaches code offset branch false target ↔ InReach branch false ((target : ℤ) - offset) := by
  have hrange : -2 ^ 12 ≤ (target : ℤ) - offset ∧ (target : ℤ) - offset < 2 ^ 12 := by
    unfold BranchItem.exceeds at hnear
    rw [hbranch] at hnear
    simp only [Bool.true_and, Bool.or_eq_false_iff, decide_eq_false_iff_not] at hnear
    omega
  unfold Reaches
  rw [hbranch, if_neg (by decide), if_neg (by decide), exists_word_iff hcode, isBranch_iff]
  constructor
  · intro ⟨heven, _⟩
    exact ⟨heven, fun h => (by rw [hbranch] at h; cases h), nofun⟩
  · exact fun h => ⟨h.even, hrange⟩

theorem reaches_pair_iff (hbranch : branch.isConditional = true) (hcode : slice code offset 8 =
      wordBytes (branchWord (branch.funct3 ^^^ 1) branch.rs1 branch.rs2 8) ++ wordBytes (jalWord 0
      (BitVec.ofInt 32 ((target : ℤ) - offset) - 4))) :
    Reaches code offset branch true target ↔ InReach branch true ((target : ℤ) - offset) := by
  have hfirst : slice (slice code offset 8) 0 4 = slice code (offset + 0) 4 :=
    slice_slice (by decide)
  have hsecond : slice (slice code offset 8) 4 4 = slice code (offset + 4) 4 :=
    slice_slice (by decide)
  rw [hcode] at hfirst hsecond
  have hword : readWord code offset =
      some (branchWord (branch.funct3 ^^^ 1) branch.rs1 branch.rs2 8) :=
    readWord_of_slice hfirst.symm
  have hword' : readWord code (offset + 4) =
      some (jalWord 0 (BitVec.ofInt 32 ((target : ℤ) - offset) - 4)) :=
    readWord_of_slice hsecond.symm
  have hskip : IsBranch (branchWord (branch.funct3 ^^^ 1) branch.rs1 branch.rs2 8)
      (branch.funct3 ^^^ 1) branch.rs1 branch.rs2 8 :=
    (isBranch_iff _ _ _ 8).mpr ⟨by decide, by decide, by decide⟩
  have hfour : BitVec.ofInt 32 ((target : ℤ) - offset) - 4 =
      BitVec.ofInt 32 ((target : ℤ) - (offset + 4)) := by
    have hsplit : (target : ℤ) - (offset + 4) = ((target : ℤ) - offset) + -4 := by omega
    rw [hsplit, BitVec.ofInt_add, BitVec.sub_eq_add_neg]
    rfl
  have hjal := isJal_iff 0 ((target : ℤ) - (offset + 4))
  rw [← hfour] at hjal
  unfold Reaches
  rw [hbranch, if_neg (by decide), if_pos rfl]
  constructor
  · rintro ⟨word, word', hread, hread', -, hjump⟩
    obtain rfl := Option.some.inj (hword'.symm.trans hread')
    obtain ⟨heven, hrange⟩ := hjal.mp hjump
    refine ⟨by omega, fun h => (by rw [hbranch] at h; cases h), fun _ _ => by omega⟩
  · intro h
    have hrange := h.pair hbranch rfl
    have heven := h.even
    exact ⟨_, _, hword, hword', hskip, hjal.mpr ⟨by omega, by omega, by omega⟩⟩

theorem reaches_iff {fuel : ℕ} {code : RelaxedCode} (h : relaxAndResolve fuel items = some code)
    {i : ℕ} {isRelaxed : Bool} (hi : code.items[i]? = some (.branch branch isRelaxed))
    (ht : code.resolvedLabels branch.targetId = some target) :
    Reaches code.outCode (branchForm.offset code.items i) branch isRelaxed target ↔
      InReach branch isRelaxed ((target : ℤ) - branchForm.offset code.items i) := by
  obtain ⟨hrelaxed, hlabels⟩ := relaxed_of_relaxAndResolve h
  have hcode := slice_relaxAndResolve h hi
  unfold emitItem at hcode
  dsimp only at hcode
  rw [ht] at hcode
  cases hconditional : branch.isConditional with
  | false =>
    have hwidth : branchForm.width (.branch branch isRelaxed) = 4 := by
      unfold Form.width branchForm BranchItem.getSize
      dsimp only
      rw [hconditional]
      rfl
    rw [hwidth, hconditional] at hcode
    exact reaches_jump_iff hconditional hcode
  | true =>
    cases isRelaxed with
    | false =>
      have hwidth : branchForm.width (.branch branch false) = 4 := by
        unfold Form.width branchForm BranchItem.getSize
        dsimp only
        rw [hconditional]
        rfl
      rw [hwidth, hconditional] at hcode
      rw [hlabels] at ht
      exact reaches_branch_iff hconditional hcode (hrelaxed.valid i branch target hi ht)
    | true =>
      have hwidth : branchForm.width (.branch branch true) = 8 := by
        unfold Form.width branchForm BranchItem.getSize
        dsimp only
        rw [hconditional]
        rfl
      rw [hwidth, hconditional] at hcode
      exact reaches_pair_iff hconditional hcode

/-- In the stream that the rounds leave all branches are in reach. -/
def AllInReach (items : List StreamItem) : Prop :=
  ∀ settled, Relaxed branchForm items settled →
    ∀ (i : ℕ) (branch : BranchItem) (isRelaxed : Bool) (target : ℕ),
      settled[i]? = some (.branch branch isRelaxed) →
      branchForm.labelOffset settled branch.targetId = some target →
      InReach branch isRelaxed ((target : ℤ) - branchForm.offset settled i)

theorem relaxedSoundly_iff_allInReach (items : List StreamItem) :
    RelaxedSoundly items ↔ AllInReach items := by
  constructor
  · intro ⟨fuel, code, hcode, hreach⟩ settled hsettled i branch isRelaxed target hi ht
    obtain ⟨hrelaxed, hlabels⟩ := relaxed_of_relaxAndResolve hcode
    obtain rfl := hsettled.unique hrelaxed
    rw [← hlabels] at ht
    exact (reaches_iff hcode hi ht).mp (hreach i branch isRelaxed target hi ht)
  · intro hreach
    obtain ⟨code, hcode⟩ := exists_relaxAndResolve items
    obtain ⟨hrelaxed, hlabels⟩ := relaxed_of_relaxAndResolve hcode
    refine ⟨_, code, hcode, fun i branch isRelaxed target hi ht => (reaches_iff hcode hi ht).mpr ?_⟩
    rw [hlabels] at ht
    exact hreach _ hrelaxed i branch isRelaxed target hi ht

theorem relaxedSoundly_iff (calls : List RelaxerCall) :
    RelaxedSoundly (streamOf calls) ↔ AllInReach (streamOf calls) :=
  relaxedSoundly_iff_allInReach (streamOf calls)

/-! ## A jump that is too far -/

def jumpOver (bytes : List UInt8) : List RelaxerCall :=
  [.emitJal 0 1, .emitBytes bytes, .defineLabel 1]

def jumpOverStream (bytes : List UInt8) : List StreamItem :=
  [.branch ⟨1, false, 0, 0, 0, 0⟩ false, .data bytes, .label 1]

theorem relaxed_jumpOver (bytes : List UInt8) :
    Relaxed branchForm (jumpOverStream bytes) (jumpOverStream bytes) where
  reached := ⟨0, rfl⟩
  settled := by
    have hreach : ∀ labels offset, branchForm.outOfReach labels offset ⟨1, false, 0, 0, 0, 0⟩ =
        false := by
      intro labels offset
      unfold Form.outOfReach branchForm BranchItem.exceeds
      cases labels 1 <;> rfl
    unfold Form.round jumpOverStream
    simp only [Form.walk, hreach]
    rfl

theorem streamOf_jumpOver {bytes : List UInt8} (h : bytes.length > 0) :
    streamOf (jumpOver bytes) = jumpOverStream bytes := by
  unfold streamOf jumpOver jumpOverStream
  simp only [List.flatMap_cons, List.flatMap_nil, RelaxerCall.push, if_pos h]
  rfl

theorem labelOffset_jumpOver (bytes : List UInt8) :
    branchForm.labelOffset (jumpOverStream bytes) 1 = some (4 + bytes.length) := by
  simp [Form.labelOffset, lastIndex, jumpOverStream, Item.isLabel, Form.offset, Form.total,
    Form.width, branchForm, BranchItem.getSize]

/-- A jump over so many bytes does not have the displacement. -/
theorem far_jump_not_relaxedSoundly :
    ¬RelaxedSoundly (streamOf (jumpOver (List.replicate 1048576 0))) := by
  rw [relaxedSoundly_iff_allInReach, streamOf_jumpOver (by rw [List.length_replicate]; decide)]
  intro hreach
  have hjump := (hreach _ (relaxed_jumpOver _) 0 _ _ _ rfl (labelOffset_jumpOver _)).jump rfl
  rw [List.length_replicate] at hjump
  exact absurd hjump.2 (by decide)

end EzPacker.RiscV
