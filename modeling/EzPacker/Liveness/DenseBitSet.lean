import EzPacker.RegAlloc.InterferenceGraph
import Mathlib.Data.BitVec

/-!
# Dense bit sets

A bit set is a vector of 64-bit words. The binary operations work word by word up to the
shorter operand and report whether a word has changed.
-/

namespace EzPacker.Liveness

structure DenseBitSet where
  words : List (BitVec 64)
  deriving DecidableEq, Repr

namespace DenseBitSet

def new (numBits : ℕ) : DenseBitSet := ⟨List.replicate ((numBits + 63) / 64) 0⟩

/-- A bit behind the words is ignored. -/
def set (s : DenseBitSet) (bit : ℕ) : DenseBitSet :=
  ⟨s.words.modify (bit / 64) (· ||| 1#64 <<< (bit % 64))⟩

def test (s : DenseBitSet) (bit : ℕ) : Bool :=
  match s.words[bit / 64]? with
  | some word => word &&& 1#64 <<< (bit % 64) ≠ 0
  | none => false

/-- The words that a loop over the shared words leaves, and whether one has changed. -/
def unionWords : List (BitVec 64) → List (BitVec 64) → List (BitVec 64) × Bool
  | old :: words, other :: others =>
    let (rest, changed) := unionWords words others
    ((old ||| other) :: rest, decide ((old ||| other) ≠ old) || changed)
  | words, _ => (words, false)

def unionWith (s other : DenseBitSet) : DenseBitSet × Bool :=
  (⟨(unionWords s.words other.words).1⟩, (unionWords s.words other.words).2)

def liveInWords : List (BitVec 64) → List (BitVec 64) → List (BitVec 64) → List (BitVec 64) →
    List (BitVec 64) × Bool
  | old :: words, use :: uses, out :: outs, defined :: defs =>
    let (rest, changed) := liveInWords words uses outs defs
    ((use ||| (out &&& ~~~defined)) :: rest,
      decide ((use ||| (out &&& ~~~defined)) ≠ old) || changed)
  | words, _, _, _ => (words, false)

def computeLiveIn (s use liveOut defs : DenseBitSet) : DenseBitSet × Bool :=
  let r := liveInWords s.words use.words liveOut.words defs.words
  (⟨r.1⟩, r.2)

/-! ### Bits -/

theorem and_shiftLeft_ne_zero (word : BitVec 64) (k : ℕ) (hk : k < 64) :
    word &&& 1#64 <<< k ≠ 0 ↔ word.getLsbD k = true := by
  have hshift : 1#64 <<< k = BitVec.twoPow 64 k := rfl
  rw [hshift, BitVec.and_twoPow]
  split
  · next h =>
      refine iff_of_true ?_ h
      intro hzero
      have hbit := congrArg (fun v : BitVec 64 => v.getLsbD k) hzero
      simp [hk] at hbit
  · next h => exact iff_of_false (fun hne => hne rfl) h

/-- The bits of the words, none behind them. -/
theorem test_eq (s : DenseBitSet) (bit : ℕ) :
    s.test bit = (s.words[bit / 64]?.getD 0).getLsbD (bit % 64) := by
  unfold test
  cases s.words[bit / 64]? with
  | none => simp
  | some word =>
    rw [Option.getD_some, Bool.eq_iff_iff, decide_eq_true_iff]
    exact and_shiftLeft_ne_zero word _ (Nat.mod_lt _ (by decide))

/-- The bits that the words have room for. -/
def capacity (s : DenseBitSet) : ℕ := 64 * s.words.length

variable {s : DenseBitSet}

theorem test_of_le {bit : ℕ} (h : s.capacity ≤ bit) : s.test bit = false := by
  unfold capacity at h
  rw [test_eq, List.getElem?_eq_none (by omega)]
  simp

theorem test_new (numBits bit : ℕ) : (new numBits).test bit = false := by
  rw [test_eq, new, List.getElem?_replicate]
  split <;> simp

theorem length_set (s : DenseBitSet) (bit : ℕ) : (s.set bit).words.length = s.words.length := by
  simp [set]

theorem test_set {bit : ℕ} (h : bit < s.capacity) (c : ℕ) :
    (s.set bit).test c = (decide (c = bit) || s.test c) := by
  unfold capacity at h
  have hmod : c % 64 < 64 := Nat.mod_lt _ (by decide)
  have hmod' : bit % 64 < 64 := Nat.mod_lt _ (by decide)
  rw [test_eq, test_eq, set, List.getElem?_modify]
  by_cases hword : bit / 64 = c / 64
  · rw [List.getElem?_eq_getElem (by omega)]
    simp only [hword, if_true, Option.map_eq_map, Option.map_some, Option.getD_some,
      BitVec.getLsbD_or]
    have hshift : 1#64 <<< (bit % 64) = BitVec.twoPow 64 (bit % 64) := rfl
    rw [hshift, BitVec.getLsbD_twoPow, Bool.or_comm]
    congr 1
    simp only [hmod', decide_true, Bool.true_and, decide_eq_decide]
    omega
  · have hne : c ≠ bit := by
      rintro rfl
      exact hword rfl
    simp [hword, hne]

/-- Bit sets of one size are told apart by their bits. -/
theorem ext_test {t : DenseBitSet} (hlen : s.words.length = t.words.length)
    (h : ∀ bit < s.capacity, s.test bit = t.test bit) : s = t := by
  obtain ⟨words⟩ := s
  obtain ⟨words'⟩ := t
  congr 1
  refine List.ext_getElem hlen fun i hi hi' => BitVec.eq_of_getLsbD_eq fun k hk => ?_
  have hbit := h (64 * i + k) (by unfold capacity; simp only; omega)
  have hdiv : (64 * i + k) / 64 = i := by omega
  have hmod : (64 * i + k) % 64 = k := by omega
  rw [test_eq, test_eq, hdiv, hmod] at hbit
  simpa [List.getElem?_eq_getElem hi, List.getElem?_eq_getElem hi'] using hbit

theorem unionWords_spec (words others : List (BitVec 64)) (h : words.length = others.length) :
    (unionWords words others).1.length = words.length ∧ (∀ i : ℕ,
        (unionWords words others).1[i]?.getD 0 = words[i]?.getD 0 ||| others[i]?.getD 0) ∧
      ((unionWords words others).2 = true ↔ (unionWords words others).1 ≠ words) := by
  induction words generalizing others with
  | nil =>
    cases others with
    | nil => simp [unionWords]
    | cons _ _ => cases h
  | cons old words ih =>
    cases others with
    | nil => cases h
    | cons other others =>
      obtain ⟨hlen, hbits, hchanged⟩ := ih others (by simpa using h)
      unfold unionWords
      refine ⟨by simpa using hlen, fun i => ?_, ?_⟩
      · cases i with
        | zero => simp
        | succ i => simpa using hbits i
      · simp only [Bool.or_eq_true, decide_eq_true_iff, hchanged, Ne, List.cons.injEq]
        tauto

theorem liveInWords_spec (words uses outs defs : List (BitVec 64))
    (huses : words.length = uses.length) (houts : words.length = outs.length)
    (hdefs : words.length = defs.length) :
    (liveInWords words uses outs defs).1.length = words.length ∧
      (∀ i : ℕ, i < words.length → (liveInWords words uses outs defs).1[i]?.getD 0 =
        uses[i]?.getD 0 ||| (outs[i]?.getD 0 &&& ~~~(defs[i]?.getD 0))) ∧
      ((liveInWords words uses outs defs).2 = true ↔
        (liveInWords words uses outs defs).1 ≠ words) := by
  induction words generalizing uses outs defs with
  | nil => simp [liveInWords]
  | cons old words ih =>
    match uses, outs, defs, huses, houts, hdefs with
    | use :: uses, out :: outs, defined :: defs, huses, houts, hdefs =>
      obtain ⟨hlen, hbits, hchanged⟩ := ih uses outs defs (by simpa using huses)
        (by simpa using houts) (by simpa using hdefs)
      unfold liveInWords
      refine ⟨by simpa using hlen, fun i hi => ?_, ?_⟩
      · cases i with
        | zero => simp
        | succ i => simpa using hbits i (by simpa using hi)
      · simp only [Bool.or_eq_true, decide_eq_true_iff, hchanged, Ne, List.cons.injEq]
        tauto

variable {other : DenseBitSet}

section

variable (h : s.words.length = other.words.length)
include h

theorem length_unionWith : (s.unionWith other).1.words.length = s.words.length :=
  (unionWords_spec s.words other.words h).1

theorem test_unionWith (bit : ℕ) :
    (s.unionWith other).1.test bit = (s.test bit || other.test bit) := by
  rw [test_eq, test_eq, test_eq, unionWith, (unionWords_spec s.words other.words h).2.1,
    BitVec.getLsbD_or]

theorem unionWith_changed : (s.unionWith other).2 = true ↔ (s.unionWith other).1 ≠ s := by
  rw [unionWith, (unionWords_spec s.words other.words h).2.2]
  obtain ⟨words⟩ := s
  simp

end

section

variable {s use liveOut defs : DenseBitSet}

section

variable (huse : s.words.length = use.words.length) (hout : s.words.length = liveOut.words.length)
  (hdefs : s.words.length = defs.words.length)
include huse hout hdefs

theorem length_computeLiveIn : (s.computeLiveIn use liveOut defs).1.words.length = s.words.length :=
  (liveInWords_spec _ _ _ _ huse hout hdefs).1

theorem test_computeLiveIn (bit : ℕ) : (s.computeLiveIn use liveOut defs).1.test bit =
      (use.test bit || (liveOut.test bit && !defs.test bit)) := by
  by_cases hbit : bit / 64 < s.words.length
  · have hmod : bit % 64 < 64 := Nat.mod_lt _ (by decide)
    simp only [test_eq, computeLiveIn]
    rw [(liveInWords_spec _ _ _ _ huse hout hdefs).2.1 _ hbit]
    simp [hmod]
  · have hlen := length_computeLiveIn huse hout hdefs
    rw [test_of_le (by unfold capacity; omega), test_of_le (s := use) (by unfold capacity; omega),
      test_of_le (s := liveOut) (by unfold capacity; omega)]
    rfl

theorem computeLiveIn_changed :
    (s.computeLiveIn use liveOut defs).2 = true ↔ (s.computeLiveIn use liveOut defs).1 ≠ s := by
  rw [computeLiveIn, (liveInWords_spec _ _ _ _ huse hout hdefs).2.2]
  obtain ⟨words⟩ := s
  simp

end

end

end DenseBitSet

/-!
## The liveness analysis

The sets of a block's own instructions, the registers that are given a bit, and the loop
over the blocks until a round changes nothing. The registers of a set are told apart as
the references' equality does. The order in which a round visits the blocks is a
parameter; the loop is cut off by a number of rounds.
-/

open Mir KeyedSet

open RegAlloc (MirBlock RegKey regKey)

/-- `regInfo` gives, for every instruction that uses a virtual register, the block that it
is in; there may be none. -/
structure MirFunction where
  blocks : List MirBlock
  regInfo : Option (ℕ → List (Option ℕ))
  nodup : (blocks.map MirBlock.id).Nodup

/-- Registers by block number. -/
structure LivenessResult where
  liveIn : ℕ → List MirRegisterRef
  liveOut : ℕ → List MirRegisterRef

namespace LivenessAnalysisPass

/-! ## The sets of a block -/

/-- The registers that are read before they are written, and those that are written. -/
structure LocalSets where
  useSet : List MirRegisterRef
  defSet : List MirRegisterRef

def addUse (defSet use : List MirRegisterRef) (reg : MirRegisterRef) : List MirRegisterRef :=
  if contains regKey defSet reg then use else insert regKey use reg

def visitInstruction (s : LocalSets) (inst : MirInstruction) : LocalSets where
  useSet := inst.getUsedRegisters.foldl (addUse s.defSet) s.useSet
  defSet := insertAll regKey s.defSet inst.getDefinedRegisters

def localSets (block : MirBlock) : LocalSets :=
  block.instructions.foldl visitInstruction ⟨[], []⟩

/-! ## The registers with a bit -/

/-- A register that a block defines is given a bit when it is physical or an instruction
of another block uses it. -/
def addDefined (uses : ℕ → List (Option ℕ)) (block : MirBlock) (globals : List MirRegisterRef)
    (reg : MirRegisterRef) : List MirRegisterRef :=
  if !reg.isVirtual then insert regKey globals reg
  else if (uses reg.id).any fun owner => owner.any (· ≠ block.id) then
    insert regKey globals reg
  else globals

def globalRegUniverse (f : MirFunction) : List MirRegisterRef :=
  let used := f.blocks.foldl
    (fun globals block => insertAll regKey globals (localSets block).useSet) []
  match f.regInfo with
  | some uses =>
    f.blocks.foldl
      (fun globals block => (localSets block).defSet.foldl (addDefined uses block) globals) used
  | none => used

def globalRegToIdx (globals : List MirRegisterRef) (reg : MirRegisterRef) : Option ℕ :=
  globals.findIdx? fun other => regKey other = regKey reg

def setGlobal (globals : List MirRegisterRef) (bits : DenseBitSet) (reg : MirRegisterRef) :
    DenseBitSet :=
  match globalRegToIdx globals reg with
  | some idx => bits.set idx
  | none => bits

def globalBits (globals regs : List MirRegisterRef) : DenseBitSet :=
  regs.foldl (setGlobal globals) (.new globals.length)

/-! ## The loop -/

/-- The bit sets that the loop reads and the successors by position. -/
structure Equations (numBlocks : ℕ) where
  useBits : Fin numBlocks → DenseBitSet
  defBits : Fin numBlocks → DenseBitSet
  denseSuccessors : Fin numBlocks → List (Fin numBlocks)

/-- The bit sets that the loop writes. -/
@[ext] structure LiveBits (numBlocks : ℕ) where
  liveIn : Fin numBlocks → DenseBitSet
  liveOut : Fin numBlocks → DenseBitSet

section

variable {numBlocks : ℕ} (eqs : Equations numBlocks)

def unionSuccessor (liveIn : Fin numBlocks → DenseBitSet) (out : DenseBitSet × Bool)
    (succIdx : Fin numBlocks) : DenseBitSet × Bool :=
  ((out.1.unionWith (liveIn succIdx)).1, out.2 || (out.1.unionWith (liveIn succIdx)).2)

def unionSuccessors (liveIn : Fin numBlocks → DenseBitSet) (successors : List (Fin numBlocks))
    (out : DenseBitSet × Bool) : DenseBitSet × Bool :=
  successors.foldl (unionSuccessor liveIn) out

def visitBlock (s : LiveBits numBlocks × Bool) (i : Fin numBlocks) : LiveBits numBlocks × Bool :=
  let out := unionSuccessors s.1.liveIn (eqs.denseSuccessors i) (s.1.liveOut i, s.2)
  let into := (s.1.liveIn i).computeLiveIn (eqs.useBits i) out.1 (eqs.defBits i)
  (⟨Function.update s.1.liveIn i into.1, Function.update s.1.liveOut i out.1⟩, out.2 || into.2)

def round (order : List (Fin numBlocks)) (s : LiveBits numBlocks) : LiveBits numBlocks × Bool :=
  order.foldl (visitBlock eqs) (s, false)

/-- Rounds until one changes nothing. -/
def solve (order : List (Fin numBlocks)) : ℕ → LiveBits numBlocks → Option (LiveBits numBlocks)
  | 0, _ => none
  | fuel + 1, s =>
    let r := round eqs order s
    if r.2 then solve order fuel r.1 else some r.1

end

/-! ## The result -/

def blockIdToDenseIdx (f : MirFunction) (id : ℕ) : Option (Fin f.blocks.length) :=
  f.blocks.findFinIdx? fun block => block.id = id

def equations (f : MirFunction) (getSuccessors : ℕ → List ℕ) : Equations f.blocks.length where
  useBits i := globalBits (globalRegUniverse f) (localSets f.blocks[i]).useSet
  defBits i := globalBits (globalRegUniverse f) (localSets f.blocks[i]).defSet
  denseSuccessors i := (getSuccessors f.blocks[i].id).filterMap (blockIdToDenseIdx f)

def registersOf (globals : List MirRegisterRef) (bits : DenseBitSet) : List MirRegisterRef :=
  ((List.range globals.length).filter bits.test).filterMap (globals[·]?)

/-- The sets of the blocks, empty for every other number. -/
def materialize (f : MirFunction) (s : LiveBits f.blocks.length) : LivenessResult where
  liveIn id := ((blockIdToDenseIdx f id).map fun i =>
    registersOf (globalRegUniverse f) (s.liveIn i)).getD []
  liveOut id := ((blockIdToDenseIdx f id).map fun i =>
    registersOf (globalRegUniverse f) (s.liveOut i)).getD []

def noBits (f : MirFunction) : LiveBits f.blocks.length where
  liveIn _ := .new (globalRegUniverse f).length
  liveOut _ := .new (globalRegUniverse f).length

/-- The analysis with the blocks visited in `order`. -/
def computeWithOrder (f : MirFunction) (getSuccessors : ℕ → List ℕ)
    (order : List (Fin f.blocks.length)) (fuel : ℕ) : Option LivenessResult :=
  if globalRegUniverse f = [] then some ⟨fun _ => [], fun _ => []⟩
  else (solve (equations f getSuccessors) order fuel (noBits f)).map (materialize f)

/-- The blocks are visited from the last one to the first. -/
def computeGlobalLiveness (f : MirFunction) (getSuccessors : ℕ → List ℕ) (fuel : ℕ) :
    Option LivenessResult :=
  computeWithOrder f getSuccessors (List.finRange f.blocks.length).reverse fuel

end LivenessAnalysisPass

/-!
## The sets of a block and their bits

A register is in the first set of a block exactly when an instruction reads it before any
has written it, and in the second one when an instruction writes it. Every register of a
first set has a bit.
-/

open RegAlloc (MirBlock RegKey regKey)

/-! ## Reads and writes -/

def Reads (inst : MirInstruction) (k : RegKey) : Prop := k ∈ keys regKey inst.getUsedRegisters

def Writes (inst : MirInstruction) (k : RegKey) : Prop :=
  k ∈ keys regKey inst.getDefinedRegisters

def Defines (block : MirBlock) (k : RegKey) : Prop :=
  ∃ inst ∈ block.instructions, Writes inst k

/-- A read that no definition stands before. -/
def Exposed (instructions : List MirInstruction) (k : RegKey) : Prop :=
  ∃ before inst behind, instructions = before ++ inst :: behind ∧ Reads inst k ∧
    ∀ earlier ∈ before, ¬ Writes earlier k

def UpwardExposed (block : MirBlock) (k : RegKey) : Prop := Exposed block.instructions k

@[simp] theorem exposed_nil (k : RegKey) : ¬ Exposed [] k := by
  rintro ⟨before, inst, behind, h, -⟩
  cases before <;> cases h

theorem exposed_cons (inst : MirInstruction) (rest : List MirInstruction) (k : RegKey) :
    Exposed (inst :: rest) k ↔ Reads inst k ∨ ¬ Writes inst k ∧ Exposed rest k := by
  constructor
  · rintro ⟨before, reader, behind, hsplit, hread, hclear⟩
    cases before with
    | nil =>
      obtain ⟨rfl, rfl⟩ := List.cons.inj hsplit
      exact Or.inl hread
    | cons first before =>
      obtain ⟨rfl, rfl⟩ := List.cons.inj hsplit
      rw [List.forall_mem_cons] at hclear
      exact Or.inr ⟨hclear.1, before, reader, behind, rfl, hread, hclear.2⟩
  · rintro (hread | ⟨hwrite, before, reader, behind, rfl, hread, hclear⟩)
    · exact ⟨[], inst, rest, rfl, hread, fun _ h => by cases h⟩
    · exact ⟨inst :: before, reader, behind, rfl, hread, List.forall_mem_cons.mpr ⟨hwrite, hclear⟩⟩

namespace LivenessAnalysisPass

theorem mem_addUse (defSet use : List MirRegisterRef) (reg : MirRegisterRef) (k : RegKey) :
    k ∈ keys regKey (addUse defSet use reg) ↔
      k ∈ keys regKey use ∨ k = regKey reg ∧ k ∉ keys regKey defSet := by
  unfold addUse
  split
  · next hdef =>
      rw [contains_iff] at hdef
      constructor
      · exact Or.inl
      · rintro (h | ⟨rfl, hnot⟩)
        · exact h
        · exact absurd hdef hnot
  · next hdef =>
      rw [contains_iff] at hdef
      rw [mem_keys_insert]
      constructor
      · rintro (h | rfl)
        · exact Or.inl h
        · exact Or.inr ⟨rfl, hdef⟩
      · rintro (h | ⟨rfl, -⟩)
        · exact Or.inl h
        · exact Or.inr rfl

theorem mem_foldl_addUse (defSet regs use : List MirRegisterRef) (k : RegKey) :
    k ∈ keys regKey (regs.foldl (addUse defSet) use) ↔
      k ∈ keys regKey use ∨ k ∈ keys regKey regs ∧ k ∉ keys regKey defSet := by
  induction regs generalizing use with
  | nil => simp
  | cons reg regs ih =>
    rw [List.foldl_cons, ih, mem_addUse, keys_cons, List.mem_cons]
    tauto

theorem mem_useSet_visitInstruction (s : LocalSets) (inst : MirInstruction) (k : RegKey) :
    k ∈ keys regKey (visitInstruction s inst).useSet ↔
      k ∈ keys regKey s.useSet ∨ Reads inst k ∧ k ∉ keys regKey s.defSet :=
  mem_foldl_addUse s.defSet inst.getUsedRegisters s.useSet k

theorem mem_defSet_visitInstruction (s : LocalSets) (inst : MirInstruction) (k : RegKey) :
    k ∈ keys regKey (visitInstruction s inst).defSet ↔
      k ∈ keys regKey s.defSet ∨ Writes inst k := mem_keys_insertAll

theorem mem_visitInstructions (s : LocalSets) (instructions : List MirInstruction) (k : RegKey) :
    (k ∈ keys regKey (instructions.foldl visitInstruction s).useSet ↔
        k ∈ keys regKey s.useSet ∨ k ∉ keys regKey s.defSet ∧ Exposed instructions k) ∧
      (k ∈ keys regKey (instructions.foldl visitInstruction s).defSet ↔
        k ∈ keys regKey s.defSet ∨ ∃ inst ∈ instructions, Writes inst k) := by
  induction instructions generalizing s with
  | nil => simp
  | cons inst rest ih =>
    rw [List.foldl_cons, (ih _).1, (ih _).2, mem_useSet_visitInstruction,
      mem_defSet_visitInstruction, exposed_cons]
    simp only [List.exists_mem_cons_iff]
    constructor
    · tauto
    · tauto

theorem mem_useSet_iff (block : MirBlock) (k : RegKey) :
    k ∈ keys regKey (localSets block).useSet ↔ UpwardExposed block k := by
  rw [localSets, (mem_visitInstructions _ _ k).1]
  simp [UpwardExposed]

theorem mem_defSet_iff (block : MirBlock) (k : RegKey) :
    k ∈ keys regKey (localSets block).defSet ↔ Defines block k := by
  rw [localSets, (mem_visitInstructions _ _ k).2]
  simp [Defines]

/-! ## The registers with a bit -/

theorem nodup_insertAll {s : List MirRegisterRef} (h : (keys regKey s).Nodup)
    (regs : List MirRegisterRef) : (keys regKey (insertAll regKey s regs)).Nodup := by
  induction regs generalizing s with
  | nil => exact h
  | cons reg regs ih => exact ih (nodup_keys_insert h)

variable {globals : List MirRegisterRef}

theorem addDefined_keeps (uses : ℕ → List (Option ℕ)) (block : MirBlock)
    (h : (keys regKey globals).Nodup) (reg : MirRegisterRef) :
    (keys regKey (addDefined uses block globals reg)).Nodup ∧
      ∀ k ∈ keys regKey globals, k ∈ keys regKey (addDefined uses block globals reg) := by
  unfold addDefined
  split_ifs
  · exact ⟨nodup_keys_insert h, fun k hk => mem_keys_insert.mpr (Or.inl hk)⟩
  · exact ⟨nodup_keys_insert h, fun k hk => mem_keys_insert.mpr (Or.inl hk)⟩
  · exact ⟨h, fun _ hk => hk⟩

theorem foldl_addDefined_keeps (uses : ℕ → List (Option ℕ)) (block : MirBlock)
    (regs : List MirRegisterRef)
    (h : (keys regKey globals).Nodup) :
    (keys regKey (regs.foldl (addDefined uses block) globals)).Nodup ∧
      ∀ k ∈ keys regKey globals, k ∈ keys regKey (regs.foldl (addDefined uses block) globals) := by
  induction regs generalizing globals with
  | nil => exact ⟨h, fun _ hk => hk⟩
  | cons reg regs ih =>
    obtain ⟨hnodup, hkeep⟩ := addDefined_keeps uses block h reg
    exact ⟨(ih hnodup).1, fun k hk => (ih hnodup).2 k (hkeep k hk)⟩

theorem foldl_blocks_keeps (uses : ℕ → List (Option ℕ)) (blocks : List MirBlock)
    (h : (keys regKey globals).Nodup) :
    (keys regKey (blocks.foldl (fun globals block =>
        (localSets block).defSet.foldl (addDefined uses block) globals) globals)).Nodup ∧
      ∀ k ∈ keys regKey globals, k ∈ keys regKey (blocks.foldl (fun globals block =>
        (localSets block).defSet.foldl (addDefined uses block) globals) globals) := by
  induction blocks generalizing globals with
  | nil => exact ⟨h, fun _ hk => hk⟩
  | cons block blocks ih =>
    obtain ⟨hnodup, hkeep⟩ := foldl_addDefined_keeps uses block (localSets block).defSet h
    exact ⟨(ih hnodup).1, fun k hk => (ih hnodup).2 k (hkeep k hk)⟩

theorem foldl_useSets (blocks : List MirBlock) (h : (keys regKey globals).Nodup) :
    (keys regKey (blocks.foldl
        (fun globals block => insertAll regKey globals (localSets block).useSet) globals)).Nodup ∧
      ∀ k, (k ∈ keys regKey globals ∨ ∃ block ∈ blocks, UpwardExposed block k) →
        k ∈ keys regKey (blocks.foldl
          (fun globals block => insertAll regKey globals (localSets block).useSet) globals) := by
  induction blocks generalizing globals with
  | nil => exact ⟨h, fun k hk => by simpa using hk⟩
  | cons block blocks ih =>
    obtain ⟨hnodup, hmem⟩ := ih (nodup_insertAll h (localSets block).useSet)
    refine ⟨hnodup, fun k hk => hmem k ?_⟩
    rw [mem_keys_insertAll, mem_useSet_iff]
    simp only [List.exists_mem_cons_iff] at hk
    tauto

theorem globalRegUniverse_spec (f : MirFunction) : (keys regKey (globalRegUniverse f)).Nodup ∧
      ∀ block ∈ f.blocks, ∀ k, UpwardExposed block k → k ∈ keys regKey (globalRegUniverse f) := by
  have hempty : (keys regKey ([] : List MirRegisterRef)).Nodup := List.nodup_nil
  obtain ⟨hnodup, hmem⟩ := foldl_useSets f.blocks hempty
  have hused : ∀ block ∈ f.blocks, ∀ k, UpwardExposed block k → k ∈ keys regKey
      (f.blocks.foldl (fun globals block =>
        insertAll regKey globals (localSets block).useSet) []) :=
    fun block hblock k hk => hmem k (Or.inr ⟨block, hblock, hk⟩)
  unfold globalRegUniverse
  cases f.regInfo with
  | none => exact ⟨hnodup, hused⟩
  | some uses =>
    obtain ⟨hnodup', hkeep⟩ := foldl_blocks_keeps uses f.blocks hnodup
    exact ⟨hnodup', fun block hblock k hk => hkeep k (hused block hblock k hk)⟩

/-! ## Bits -/

theorem globalRegToIdx_eq_some_iff
    (h : (keys regKey globals).Nodup) (reg : MirRegisterRef) (idx : ℕ) :
    globalRegToIdx globals reg = some idx ↔
      ∃ other, globals[idx]? = some other ∧ regKey other = regKey reg := by
  unfold globalRegToIdx
  rw [List.findIdx?_eq_some_iff_getElem]
  constructor
  · rintro ⟨hlt, hkey, -⟩
    exact ⟨globals[idx], List.getElem?_eq_getElem hlt, by simpa using hkey⟩
  · rintro ⟨other, hother, hkey⟩
    obtain ⟨hlt, rfl⟩ := List.getElem?_eq_some_iff.mp hother
    refine ⟨hlt, by simpa using hkey, fun j hj => ?_⟩
    have hne : regKey globals[j] ≠ regKey globals[idx] := by
      intro heq
      have hidx : idx < (keys regKey globals).length := by simpa [keys] using hlt
      have hj' : j < (keys regKey globals).length := hj.trans hidx
      have hkeys : (keys regKey globals)[j] = (keys regKey globals)[idx] := by
        simpa [keys] using heq
      exact absurd (h.getElem_inj_iff.mp hkeys) hj.ne
    simpa [← hkey] using hne

theorem globalRegToIdx_lt {reg : MirRegisterRef} {idx : ℕ}
    (h : globalRegToIdx globals reg = some idx) : idx < globals.length :=
  (List.findIdx?_eq_some_iff_getElem.mp h).1

theorem foldl_setGlobal (globals : List MirRegisterRef) (h : (keys regKey globals).Nodup)
    (regs : List MirRegisterRef) {bits : DenseBitSet}
    (hlen : bits.words.length = (globals.length + 63) / 64) (idx : ℕ) :
    (regs.foldl (setGlobal globals) bits).words.length = (globals.length + 63) / 64 ∧
      ((regs.foldl (setGlobal globals) bits).test idx = true ↔ bits.test idx = true ∨
        ∃ reg, globals[idx]? = some reg ∧ regKey reg ∈ keys regKey regs) := by
  induction regs generalizing bits with
  | nil => simpa using hlen
  | cons reg regs ih =>
    rw [List.foldl_cons]
    have hstep : (setGlobal globals bits reg).words.length = (globals.length + 63) / 64 ∧
        ((setGlobal globals bits reg).test idx = true ↔ bits.test idx = true ∨
          ∃ other, globals[idx]? = some other ∧ regKey other = regKey reg) := by
      have hiff := globalRegToIdx_eq_some_iff h reg idx
      unfold setGlobal
      cases hidx : globalRegToIdx globals reg with
      | none =>
        rw [hidx] at hiff
        refine ⟨hlen, ?_⟩
        rw [← hiff]
        simp
      | some i =>
        have hi := globalRegToIdx_lt hidx
        rw [hidx] at hiff
        refine ⟨(bits.length_set i).trans hlen, ?_⟩
        rw [← hiff, DenseBitSet.test_set (by unfold DenseBitSet.capacity; omega)]
        simp only [Bool.or_eq_true, decide_eq_true_iff, Option.some.injEq]
        rw [or_comm, eq_comm (a := idx)]
    obtain ⟨hlen', htest⟩ := hstep
    refine ⟨(ih hlen').1, ?_⟩
    rw [(ih hlen').2, htest, or_assoc, ← exists_or]
    simp only [keys_cons, List.mem_cons, and_or_left]

theorem length_new (globals : List MirRegisterRef) :
    (DenseBitSet.new globals.length).words.length = (globals.length + 63) / 64 := by
  simp [DenseBitSet.new]

theorem length_globalBits (h : (keys regKey globals).Nodup) (regs : List MirRegisterRef) :
    (globalBits globals regs).words.length = (globals.length + 63) / 64 :=
  (foldl_setGlobal globals h regs (length_new globals) 0).1

theorem test_globalBits (h : (keys regKey globals).Nodup) (regs : List MirRegisterRef) (idx : ℕ) :
    (globalBits globals regs).test idx = true ↔
      ∃ reg, globals[idx]? = some reg ∧ regKey reg ∈ keys regKey regs := by
  rw [globalBits, (foldl_setGlobal globals h regs (length_new globals) idx).2, DenseBitSet.test_new]
  simp

end LivenessAnalysisPass

end EzPacker.Liveness
