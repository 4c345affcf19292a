import EzPacker.RiscV.Words

/-!
# Patching a branch

The resolver writes the distance of a target into a branch or a jump that was emitted
before. The distance is cut to 32 bits and then to the bits that the word has for it, so
the word jumps to its target when the distance is even and fits.
-/

namespace EzPacker.RiscV

open BitVec Option

inductive TargetCodeRelocationType
  | None
  | Absolute32
  | Absolute64
  | PCRel32
  | BranchRel32
  | GOTPCREL
  | PLTRel32
  deriving DecidableEq, Repr

/-! ## The instruction encoder on words of the text -/

/-- What `classifyBranch` finds in a word. -/
structure BranchClass where
  isJal : Bool
  isBranch : Bool
  funct3 : BitVec 8
  rs1 : BitVec 8
  rs2 : BitVec 8
  rd : BitVec 8
  deriving DecidableEq, Repr

def classifyWord (word : BitVec 32) : Option BranchClass :=
  let opcode := (word &&& 0x7F).setWidth 8
  if opcode = 0x6F then
    some ⟨true, false, 0, 0, 0, ((word >>> 7) &&& 0x1F).setWidth 8⟩
  else if opcode = 0x63 then
    some ⟨false, true, ((word >>> 12) &&& 0x7).setWidth 8, ((word >>> 15) &&& 0x1F).setWidth 8,
      ((word >>> 20) &&& 0x1F).setWidth 8, 0⟩
  else none

/-! The outer `none` of the functions below is an access outside of the text: the sum of an
offset and the size of a word is taken modulo `2 ^ 64`. -/

def classifyBranch (bytes : List UInt8) (offset : BitVec 64) : Option (Option BranchClass) :=
  if (offset + 4).toNat > bytes.length then some none
  else (readWord bytes offset.toNat).map classifyWord

def patchBranchDisp (bytes : List UInt8) (offset : BitVec 64) (disp : BitVec 32) :
    Option (Bool × List UInt8) :=
  if (offset + 4).toNat > bytes.length then some (false, bytes)
  else do
    let word ← readWord bytes offset.toNat
    let word := word &&& ~~~0xFE000F80
    let word := word ||| encodeBImm disp
    let bytes ← writeWord bytes offset.toNat word
    return (true, bytes)

def patchJalDisp (bytes : List UInt8) (offset : BitVec 64) (disp : BitVec 32) :
    Option (Bool × List UInt8) :=
  if (offset + 4).toNat > bytes.length then some (false, bytes)
  else do
    let word ← readWord bytes offset.toNat
    let word := word &&& ~~~0xFFFFF000
    let word := word ||| encodeJImm disp
    let bytes ← writeWord bytes offset.toNat word
    return (true, bytes)

def writeDisp32 (bytes : List UInt8) (offset : BitVec 64) (value : BitVec 32) :
    Option (Bool × List UInt8) :=
  if (offset + 4).toNat > bytes.length then some (false, bytes)
  else (writeWord bytes offset.toNat value).map fun bytes => (true, bytes)

/-! ## The resolver -/

def patch (text : List UInt8) (relocOffset targetOffset : BitVec 64)
    (type : TargetCodeRelocationType) : Option (Bool × List UInt8) :=
  if (relocOffset + 4).toNat > text.length then some (false, text)
  else if type = .BranchRel32 then do
    let some branch ← classifyBranch text relocOffset | return (false, text)
    let disp := (targetOffset - relocOffset).setWidth 32
    if branch.isJal then patchJalDisp text relocOffset disp
    else if branch.isBranch then patchBranchDisp text relocOffset disp
    else return (false, text)
  else if type = .PCRel32 then do
    let disp := (targetOffset - relocOffset).setWidth 32
    let word ← readWord text relocOffset.toNat
    if word &&& 0x7F = 0x17 then
      let hi20 := (disp + 0x800).sshiftRight 12
      let word := (word &&& 0xFFF) ||| ((hi20 &&& 0xFFFFF) <<< 12)
      let text ← writeWord text relocOffset.toNat word
      return (true, text)
    else writeDisp32 text relocOffset disp
  else some (false, text)

/-! ## What a patched word is -/

/-- The words differ in the displacement only, and it is the given one. -/
inductive Redirected (word word' : BitVec 32) (disp : BitVec 64) : Prop
  | jump (opcode : opcodeOf word = 0x6F) (same : opcodeOf word' = opcodeOf word)
      (rd : rdOf word' = rdOf word) (disp : (jumpDisp word').signExtend 64 = disp)
  | branch (opcode : opcodeOf word = 0x63) (same : opcodeOf word' = opcodeOf word)
      (funct3 : funct3Of word' = funct3Of word) (rs1 : rs1Of word' = rs1Of word)
      (rs2 : rs2Of word' = rs2Of word) (disp : (branchDisp word').signExtend 64 = disp)

/-- The patch fails and leaves the text, or it redirects the word to the target. -/
def PatchedExactly (text : List UInt8) (pc target : BitVec 64) : Prop :=
  patch text pc target .BranchRel32 = some (false, text) ∨
    ∃ text' word word', patch text pc target .BranchRel32 = some (true, text') ∧
      readWord text pc.toNat = some word ∧ WordWritten text pc.toNat word' text' ∧
      Redirected word word' (target - pc)

/-- The word is past the end of the text, or it is in it and its distance to the target, for
a jump or a branch, is even and has at most 21 or 13 bits. -/
def Patchable (text : List UInt8) (pc target : BitVec 64) : Prop :=
  text.length < (pc + 4).toNat ∨ ∃ word, readWord text pc.toNat = some word ∧
    (opcodeOf word = 0x6F → (target - pc).getLsbD 0 = false ∧ FitsSigned 21 (target - pc)) ∧
    (opcodeOf word = 0x63 → (target - pc).getLsbD 0 = false ∧ FitsSigned 13 (target - pc))

section

variable {text : List UInt8} {pc target : BitVec 64} {word : BitVec 32}

theorem opcode_eq_iff (word : BitVec 32) (opcode : BitVec 7) :
    (word &&& 0x7F).setWidth 8 = opcode.setWidth 8 ↔ opcodeOf word = opcode := by
  have hsame : (word &&& 0x7F).setWidth 8 = (opcodeOf word).setWidth 8 := by
    apply eq_of_getLsbD_eq
    intro i hi
    unfold opcodeOf
    interval_cases i <;> simp
  rw [hsame]
  constructor
  · intro h
    have hwidth := congrArg (setWidth 7) h
    simpa using hwidth
  · exact congrArg _

theorem opcode_jal_iff (word : BitVec 32) :
    (word &&& 0x7F).setWidth 8 = (0x6F : BitVec 8) ↔ opcodeOf word = 0x6F :=
  opcode_eq_iff word 0x6F

theorem opcode_branch_iff (word : BitVec 32) :
    (word &&& 0x7F).setWidth 8 = (0x63 : BitVec 8) ↔ opcodeOf word = 0x63 :=
  opcode_eq_iff word 0x63

theorem classifyWord_of_jal (h : opcodeOf word = 0x6F) :
    ∃ branch, classifyWord word = some branch ∧ branch.isJal = true := by
  unfold classifyWord
  dsimp only
  rw [if_pos ((opcode_jal_iff word).mpr h)]
  exact ⟨_, rfl, rfl⟩

theorem classifyWord_of_branch (h : opcodeOf word = 0x63) :
    ∃ branch, classifyWord word = some branch ∧ branch.isJal = false ∧ branch.isBranch = true := by
  have hjal : ¬(word &&& 0x7F).setWidth 8 = (0x6F : BitVec 8) := by
    rw [opcode_jal_iff, h]
    decide
  unfold classifyWord
  dsimp only
  rw [if_neg hjal, if_pos ((opcode_branch_iff word).mpr h)]
  exact ⟨_, rfl, rfl, rfl⟩

theorem classifyWord_of_other (hjal : opcodeOf word ≠ 0x6F) (hbranch : opcodeOf word ≠ 0x63) :
    classifyWord word = none := by
  unfold classifyWord
  dsimp only
  rw [if_neg (mt (opcode_jal_iff word).mp hjal), if_neg (mt (opcode_branch_iff word).mp hbranch)]

/-! ## The patched words -/

section

variable (hlen : ¬(pc + 4).toNat > text.length) (hword : readWord text pc.toNat = some word)
  (disp : BitVec 32)
include hlen hword disp

theorem patchJalDisp_eq : patchJalDisp text pc disp =
      some (true, memcpy text pc.toNat (wordBytes
        (word &&& ~~~0xFFFFF000 ||| encodeJImm disp))) := by
  unfold patchJalDisp
  rw [if_neg hlen, hword]
  simp [writeWord_of_le (readWord_eq_some hword)]

theorem patchBranchDisp_eq : patchBranchDisp text pc disp =
      some (true, memcpy text pc.toNat (wordBytes
        (word &&& ~~~0xFE000F80 ||| encodeBImm disp))) := by
  unfold patchBranchDisp
  rw [if_neg hlen, hword]
  simp [writeWord_of_le (readWord_eq_some hword)]

end

theorem fields_patchedJal (word disp : BitVec 32) :
    opcodeOf (word &&& ~~~0xFFFFF000 ||| encodeJImm disp) = opcodeOf word ∧
      rdOf (word &&& ~~~0xFFFFF000 ||| encodeJImm disp) = rdOf word := by
  constructor <;>
    · apply eq_of_getLsbD_eq
      intro i hi
      unfold encodeJImm
      first | unfold opcodeOf | unfold rdOf
      interval_cases i <;> simp

theorem fields_patchedBranch (word disp : BitVec 32) :
    opcodeOf (word &&& ~~~0xFE000F80 ||| encodeBImm disp) = opcodeOf word ∧
      funct3Of (word &&& ~~~0xFE000F80 ||| encodeBImm disp) = funct3Of word ∧
      rs1Of (word &&& ~~~0xFE000F80 ||| encodeBImm disp) = rs1Of word ∧
      rs2Of (word &&& ~~~0xFE000F80 ||| encodeBImm disp) = rs2Of word := by
  refine ⟨?_, ?_, ?_, ?_⟩ <;>
    · apply eq_of_getLsbD_eq
      intro i hi
      unfold encodeBImm
      first | unfold opcodeOf | unfold funct3Of | unfold rs1Of | unfold rs2Of
      interval_cases i <;> simp

theorem jumpDisp_patched (word : BitVec 32) (disp : BitVec 64) :
    (jumpDisp (word &&& ~~~0xFFFFF000 ||| encodeJImm (disp.setWidth 32))).signExtend 64 = disp ↔
      disp.getLsbD 0 = false ∧ FitsSigned 21 disp := by
  rw [jumpDisp_or, jumpDisp_and_mask, zero_or]
  exact jumpDisp_exact_iff disp

theorem branchDisp_patched (word : BitVec 32) (disp : BitVec 64) :
    (branchDisp (word &&& ~~~0xFE000F80 ||| encodeBImm (disp.setWidth 32))).signExtend 64 = disp ↔
      disp.getLsbD 0 = false ∧ FitsSigned 13 disp := by
  rw [branchDisp_or, branchDisp_and_mask, zero_or]
  exact branchDisp_exact_iff disp

/-! ## The patch -/

theorem patch_of_past (h : text.length < (pc + 4).toNat) (type : TargetCodeRelocationType) :
    patch text pc target type = some (false, text) := if_pos h

variable (target) in
theorem patch_of_jal (hlen : ¬text.length < (pc + 4).toNat)
    (hword : readWord text pc.toNat = some word) (h : opcodeOf word = 0x6F) :
    patch text pc target .BranchRel32 = patchJalDisp text pc ((target - pc).setWidth 32) := by
  obtain ⟨branch, hclass, hjal⟩ := classifyWord_of_jal h
  unfold patch classifyBranch
  rw [if_neg hlen, if_pos rfl, if_neg hlen, hword, map_some, hclass]
  exact if_pos hjal

variable (target) in
theorem patch_of_branch (hlen : ¬text.length < (pc + 4).toNat)
    (hword : readWord text pc.toNat = some word) (h : opcodeOf word = 0x63) :
    patch text pc target .BranchRel32 = patchBranchDisp text pc ((target - pc).setWidth 32) := by
  obtain ⟨branch, hclass, hjal, hbranch⟩ := classifyWord_of_branch h
  unfold patch classifyBranch
  rw [if_neg hlen, if_pos rfl, if_neg hlen, hword, map_some, hclass]
  exact (if_neg (Bool.eq_false_iff.mp hjal)).trans (if_pos hbranch)

theorem patch_of_other (hlen : ¬text.length < (pc + 4).toNat)
    (hword : readWord text pc.toNat = some word) (hjal : opcodeOf word ≠ 0x6F)
    (hbranch : opcodeOf word ≠ 0x63) :
    patch text pc target .BranchRel32 = some (false, text) := by
  unfold patch classifyBranch
  rw [if_neg hlen, if_pos rfl, if_neg hlen, hword, map_some, classifyWord_of_other hjal hbranch]
  rfl

variable (target) in
theorem patch_of_outside (hlen : ¬text.length < (pc + 4).toNat)
    (hword : readWord text pc.toNat = none) : patch text pc target .BranchRel32 = none := by
  unfold patch classifyBranch
  rw [if_neg hlen, if_pos rfl, if_neg hlen, hword]
  rfl

theorem WordWritten.unique {bytes bytes' : List UInt8} {offset : ℕ} {w w' : BitVec 32}
    (h : WordWritten bytes offset w bytes') (h' : WordWritten bytes offset w' bytes') : w = w' :=
  some.inj (h.word.symm.trans h'.word)

section

variable (hlen : ¬text.length < (pc + 4).toNat) (hword : readWord text pc.toNat = some word)
include hlen hword

/-- A jump is patched exactly when its displacement is even and has 21 bits. -/
theorem patchedExactly_of_jal (h : opcodeOf word = 0x6F) : PatchedExactly text pc target ↔
      (target - pc).getLsbD 0 = false ∧ FitsSigned 21 (target - pc) := by
  have hpatch := (patch_of_jal target hlen hword h).trans (patchJalDisp_eq hlen hword _)
  have hwritten := wordWritten_memcpy (readWord_eq_some hword)
    (word &&& ~~~0xFFFFF000 ||| encodeJImm ((target - pc).setWidth 32))
  obtain ⟨hopcode, hrd⟩ := fields_patchedJal word ((target - pc).setWidth 32)
  rw [← jumpDisp_patched word]
  constructor
  · rintro (hfail | ⟨text', word₀, word', htext, hword₀, hwritten', hredirected⟩)
    · rw [hpatch] at hfail
      cases hfail
    · obtain rfl := some.inj (hword.symm.trans hword₀)
      rw [hpatch] at htext
      cases htext
      rw [hwritten.unique hwritten']
      cases hredirected with
      | jump _ _ _ hdisp => exact hdisp
      | branch hbranch =>
        rw [h] at hbranch
        cases hbranch
  · intro hdisp
    exact .inr ⟨_, word, _, hpatch, hword, hwritten, .jump h hopcode hrd hdisp⟩

theorem patchedExactly_of_branch (h : opcodeOf word = 0x63) : PatchedExactly text pc target ↔
      (target - pc).getLsbD 0 = false ∧ FitsSigned 13 (target - pc) := by
  have hpatch :=
    (patch_of_branch target hlen hword h).trans (patchBranchDisp_eq hlen hword _)
  have hwritten := wordWritten_memcpy (readWord_eq_some hword)
    (word &&& ~~~0xFE000F80 ||| encodeBImm ((target - pc).setWidth 32))
  obtain ⟨hopcode, hfunct3, hrs1, hrs2⟩ := fields_patchedBranch word ((target - pc).setWidth 32)
  rw [← branchDisp_patched word]
  constructor
  · rintro (hfail | ⟨text', word₀, word', htext, hword₀, hwritten', hredirected⟩)
    · rw [hpatch] at hfail
      cases hfail
    · obtain rfl := some.inj (hword.symm.trans hword₀)
      rw [hpatch] at htext
      cases htext
      rw [hwritten.unique hwritten']
      cases hredirected with
      | jump hjal =>
        rw [h] at hjal
        cases hjal
      | branch _ _ _ _ _ hdisp => exact hdisp
  · intro hdisp
    exact .inr ⟨_, word, _, hpatch, hword, hwritten, .branch h hopcode hfunct3 hrs1 hrs2 hdisp⟩

end

/-- The text is patched exactly when the target is in reach of the word. -/
theorem patchedExactly_iff (text : List UInt8) (pc target : BitVec 64) :
    PatchedExactly text pc target ↔ Patchable text pc target := by
  by_cases hlen : text.length < (pc + 4).toNat
  · exact ⟨fun _ => .inl hlen, fun _ => .inl (patch_of_past hlen _)⟩
  cases hread : readWord text pc.toNat with
  | none =>
    have hnone := patch_of_outside target hlen hread
    constructor
    · rintro (hfail | ⟨_, _, _, htext, -⟩)
      · cases hnone.symm.trans hfail
      · cases hnone.symm.trans htext
    · rintro (hpast | ⟨word, hword, -⟩)
      · exact absurd hpast hlen
      · cases hread.symm.trans hword
  | some word =>
    have hpatchable : Patchable text pc target ↔
        (opcodeOf word = 0x6F → (target - pc).getLsbD 0 = false ∧ FitsSigned 21 (target - pc)) ∧
        (opcodeOf word = 0x63 → (target - pc).getLsbD 0 = false ∧ FitsSigned 13 (target - pc)) := by
      constructor
      · rintro (hpast | ⟨word', hword', hreach⟩)
        · exact absurd hpast hlen
        · obtain rfl := some.inj (hread.symm.trans hword')
          exact hreach
      · exact fun hreach => .inr ⟨word, hread, hreach⟩
    rw [hpatchable]
    by_cases hjal : opcodeOf word = 0x6F
    · have hbranch : opcodeOf word ≠ 0x63 := by
        rw [hjal]
        decide
      rw [patchedExactly_of_jal hlen hread hjal]
      exact ⟨fun h => ⟨fun _ => h, fun h' => absurd h' hbranch⟩, fun h => h.1 hjal⟩
    by_cases hbranch : opcodeOf word = 0x63
    · rw [patchedExactly_of_branch hlen hread hbranch]
      exact ⟨fun h => ⟨fun h' => absurd h' hjal, fun _ => h⟩, fun h => h.2 hbranch⟩
    · exact ⟨fun _ => ⟨fun h => absurd h hjal, fun h => absurd h hbranch⟩,
        fun _ => .inl (patch_of_other hlen hread hjal hbranch)⟩

/-- A branch of 4096 bytes forward is patched to jump backward. -/
theorem far_branch_not_patchedExactly : ¬PatchedExactly [0x63, 0, 0, 0] 0 4096 := by
  have hword : readWord [0x63, 0, 0, 0] (0 : BitVec 64).toNat = some 0x63 := by decide
  rw [patchedExactly_of_branch (by decide) hword (by decide)]
  decide

end

end EzPacker.RiscV
