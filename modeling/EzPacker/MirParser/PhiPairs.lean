import Mathlib.Data.Option.Basic
import EzPacker.MirParser.FunctionText
import EzPacker.PhiElimination.SelectPhi

/-!
# PHI pairs and predecessors

A PHI of the text pairs each value with a block, the parsed PHI has the values alone and
merges the operand at the place of the predecessor in the predecessor list. That list is
sorted by block number, which is the order of the first mention. The values reach their
predecessors when the pairs of the text stand in this order, or when values that change
places are equal.
-/

namespace EzPacker.MirParser

open InstructionText List Option Mir FirstMention CodeFlow PhiElimination

/-! ## Control flow of a text -/

def InstructionText.opcode : InstructionText → MirInstructionOpCode
  | phi _ _ => .PHI
  | other opcode _ => opcode

def isBranchOpcode (opcode : MirInstructionOpCode) : Bool := isBranch ⟨opcode, none, []⟩

def endsScanOpcode (opcode : MirInstructionOpCode) : Bool := endsScan ⟨opcode, none, []⟩

/-- The labels a branch may go to. -/
def InstructionText.targets (i : InstructionText) : List String :=
  if isBranchOpcode i.opcode then i.mentions else []

/-- The labels that control may reach from statements with the block `next` behind
them. -/
def successorsOf (next : Option String) : List InstructionText → List String
  | [] => next.toList
  | i :: rest =>
    i.targets ++ if endsScanOpcode i.opcode then [] else successorsOf next rest

/-- The block behind a label, in the order of the first mention. -/
def nextLabel (order : List String) (name : String) : Option String :=
  order[order.idxOf name + 1]?

/-- The predecessors of a label in the order of their first mention. -/
def predecessorsOf (text : FunctionText) (name : String) : List String :=
  (blockOrder text).filter fun p =>
    name ∈ successorsOf (nextLabel (blockOrder text) p) (bodyOf text p)

/-! ## The analysis of a parsed text -/

section

variable {id : ℕ} {order : List String} {body : String → List InstructionText}
  {ctx : MirParserContext}

theorem isBranch_resolve (idOf : String → ℕ) (i : InstructionText) :
    isBranch (i.resolve idOf) = isBranchOpcode i.opcode := by
  cases i <;> rfl

theorem endsScan_resolve (idOf : String → ℕ) (i : InstructionText) :
    endsScan (i.resolve idOf) = endsScanOpcode i.opcode := by
  cases i <;> rfl

theorem jumpTargets_resolve {isBlock : ℕ → Bool} {idOf : String → ℕ} {i : InstructionText}
    (hi : isBranchOpcode i.opcode = true) (hblock : ∀ m ∈ i.mentions, isBlock (idOf m) = true) :
    jumpTargets isBlock (i.resolve idOf) = i.mentions.map idOf := by
  cases i with
  | phi dst pairs => exact absurd (show isBranchOpcode .PHI = true from hi) (by decide)
  | other opcode operands =>
    unfold jumpTargets resolve mentions
    dsimp only
    rw [filterMap_map, map_filterMap]
    refine filterMap_congr fun op hop => ?_
    cases op with
    | label block =>
      have hisBlock := hblock block (mem_filterMap.mpr ⟨_, hop, rfl⟩)
      simp [OperandText.resolve, hisBlock]
    | value v => cases v <;> rfl
    | memory mem | symbol name => rfl

/-- The scan of a parsed block finds the labels that the text goes to. -/
theorem scanned_resolve {isBlock : ℕ → Bool} {idOf : String → ℕ} {next : Option String}
    {insts : List InstructionText}
    (hblock : ∀ i ∈ insts, ∀ m ∈ i.mentions, isBlock (idOf m) = true) :
    scanned isBlock (next.map idOf) (insts.map (InstructionText.resolve idOf)) =
      (successorsOf next insts).map idOf := by
  induction insts with
  | nil => cases next <;> rfl
  | cons i rest ih =>
    have hi := hblock i (mem_cons_self ..)
    rw [map_cons, scanned, successorsOf, isBranch_resolve, endsScan_resolve,
      targets, map_append,
      ih fun j hj => hblock j (mem_cons_of_mem _ hj)]
    congr 1
    · split
      · next hbranch => exact jumpTargets_resolve hbranch hi
      · rfl
    · split <;> rfl

theorem numbering_injOn {a b : String} (ha : a ∈ order)
    (h : numbering id order a = numbering id order b) : a = b :=
  (idxOf_inj ha).mp (Nat.add_left_cancel h)

/-- Numbers grow in the order of the first mention. -/
theorem pairwise_numbering (hnodup : order.Nodup) :
    (order.map (numbering id order)).Pairwise (· < ·) := by
  rw [pairwise_map, pairwise_iff_getElem]
  intro i j hi hj hij
  unfold numbering
  rw [hnodup.idxOf_getElem, hnodup.idxOf_getElem]
  omega

variable {name : String}

theorem nextLabel_of_split {before after : List String} (hname : name ∉ before) :
    nextLabel (before ++ name :: after) name = after.head? := by
  rw [nextLabel, idxOf_append_of_notMem hname, idxOf_cons_self, Nat.add_zero,
    getElem?_append_right (Nat.le_succ _), Nat.succ_sub (Nat.le_refl _), Nat.sub_self,
    getElem?_cons_succ, head?_eq_getElem?]

theorem Holds.isBlock (h : Holds id order body ctx) (hname : name ∈ order) :
    (ctx.blocks.any fun b => decide (b.id = numbering id order name)) = true := by
  rw [h.blocks, List.any_map, List.any_eq_true]
  exact ⟨name, hname, decide_eq_true rfl⟩

theorem Holds.labels_mem (h : Holds id order body ctx) {next : Option String}
    (hnext : ∀ n, next = some n → n ∈ order) {m : String} (hm : m ∈ successorsOf next (body name)) :
    m ∈ order := by
  have hmentioned := h.mentioned name
  generalize body name = insts at hm hmentioned
  induction insts with
  | nil => exact hnext m (mem_toList.mp hm)
  | cons i rest ih =>
    rw [successorsOf, mem_append] at hm
    rcases hm with hm | hm
    · unfold targets at hm
      split at hm
      · exact (hmentioned i (mem_cons_self ..)).2 m hm
      · cases hm
    · split at hm
      · cases hm
      · exact ih hm fun j hj => hmentioned j (mem_cons_of_mem _ hj)

theorem nextLabel_mem {n : String} (h : nextLabel order name = some n) : n ∈ order :=
  mem_of_getElem? h

/-- The analysis finds an edge between two labels where the text has one. -/
theorem Holds.mem_predecessors (h : Holds id order body ctx) {p : ℕ} (hname : name ∈ order) :
    p ∈ ctx.predecessors (numbering id order name) ↔ ∃ q ∈ order, p = numbering id order q ∧
        name ∈ successorsOf (nextLabel order q) (body q) := by
  have hscan : ∀ q, scanned (fun b => ctx.blocks.any fun blk => decide (blk.id = b))
      ((nextLabel order q).map (numbering id order))
        ((body q).map (resolve (numbering id order))) =
      (successorsOf (nextLabel order q) (body q)).map (numbering id order) :=
    fun q => scanned_resolve fun i hi m hm => h.isBlock ((h.mentioned q i hi).2 m hm)
  have hmem : ∀ q, numbering id order name ∈
      (successorsOf (nextLabel order q) (body q)).map (numbering id order) ↔
        name ∈ successorsOf (nextLabel order q) (body q) := by
    intro q
    constructor
    · intro hin
      obtain ⟨m, hm, heq⟩ := mem_map.mp hin
      exact numbering_injOn (h.labels_mem (fun n => nextLabel_mem) hm) heq ▸ hm
    · exact mem_map_of_mem
  have hfunction : ctx.function = order.map fun q =>
      ⟨numbering id order q, (body q).map (resolve (numbering id order))⟩ := by
    rw [MirParserContext.function, h.blocks, List.map_map]
    rfl
  unfold MirParserContext.predecessors CodeFlowResult.getPredecessors
  rw [← (wellKept_visitBlocks _ Adjacency.WellKept.empty).converse,
    mem_successors_visitBlocks, hfunction]
  constructor
  · rintro (hempty | ⟨before, b, rest, hsplit, rfl, hs⟩)
    · cases hempty
    · obtain ⟨o₁, o₂, rfl, rfl, ho₂⟩ := map_eq_append_iff.mp hsplit
      obtain ⟨q, o₃, rfl, rfl, rfl⟩ := map_eq_cons_iff.mp ho₂
      have hq : q ∉ o₁ := (nodup_middle.mp h.nodup).notMem ∘ mem_append_left _
      refine ⟨q, by simp, rfl, (hmem q).mp ?_⟩
      rw [← hscan q, nextLabel_of_split hq]
      rw [List.head?_map, Option.map_map] at hs
      exact hs
  · rintro ⟨q, hq, rfl, hs⟩
    obtain ⟨o₁, o₂, rfl⟩ := append_of_mem hq
    have hnot : q ∉ o₁ := (nodup_middle.mp h.nodup).notMem ∘ mem_append_left _
    refine .inr ⟨_, _, _, map_append.trans (congrArg _ map_cons), rfl, ?_⟩
    have hs' := (hmem q).mpr hs
    rw [← hscan q, nextLabel_of_split hnot] at hs'
    rw [List.head?_map, Option.map_map]
    exact hs'

theorem Holds.predecessors_eq (h : Holds id order body ctx) (hname : name ∈ order) :
    ctx.predecessors (numbering id order name) =
      (order.filter fun q => name ∈ successorsOf (nextLabel order q) (body q)).map
        (numbering id order) := by
  have hsorted : (ctx.predecessors (numbering id order name)).Pairwise (· < ·) :=
    (wellKept_visitBlocks _ Adjacency.WellKept.empty).predecessors_sorted _
  have hnumbers : (order.map (numbering id order)).Pairwise (· < ·) :=
    pairwise_numbering h.nodup
  have hsorted' := hnumbers.sublist
    ((List.filter_sublist (p := fun q =>
      decide (name ∈ successorsOf (nextLabel order q) (body q)))).map (numbering id order))
  refine List.Perm.eq_of_pairwise (fun a b _ _ hab hba => absurd hab (Nat.lt_asymm hba))
    hsorted hsorted' ?_
  rw [List.perm_ext_iff_of_nodup (hsorted.imp Nat.ne_of_lt) (hsorted'.imp Nat.ne_of_lt)]
  intro p
  rw [h.mem_predecessors hname, List.mem_map]
  constructor
  · rintro ⟨q, hq, rfl, hs⟩
    exact ⟨q, List.mem_filter.mpr ⟨hq, decide_eq_true hs⟩, rfl⟩
  · rintro ⟨q, hq, rfl⟩
    rw [List.mem_filter, decide_eq_true_eq] at hq
    exact ⟨q, hq.1, rfl, hq.2⟩

end

/-! ## The pairs -/

/-- A parsed body keeps its pairs: if the parser accepts it, every PHI names each
predecessor once and no other block, and its instruction merges, on the edge from a
predecessor, the value that the text pairs with it. -/
def KeepsPairs (id : ℕ) (text : FunctionText) : Prop :=
  let ctx := parseFunctionBody id text
  ctx.exitFunction = true → ∀ b ∈ ctx.blocks, ∀ (k : ℕ) dst pairs,
    (bodyOf text b.name)[k]? = some (InstructionText.phi dst pairs) →
      (pairs.map fun pair => ctx.resolveBlock pair.2).Perm ((ctx.predecessors b.id).map some) ∧
        ∃ inst : MirInstruction, b.instructions[k]? = some inst ∧
          ∀ p ∈ ctx.predecessors b.id, ∀ pair ∈ pairs, ctx.resolveBlock pair.2 = some p →
            incomingAt (ctx.predecessors b.id) p inst = some pair.1.operand

/-- Every PHI names each predecessor once and no other block, and the value paired with a
predecessor stands at its place in the order of the first mention. -/
def PairsInOrder (text : FunctionText) : Prop :=
  (∀ m ∈ references text, m ∈ text.map BlockText.label) → ∀ name ∈ blockOrder text, ∀ dst pairs,
      InstructionText.phi dst pairs ∈ bodyOf text name →
      (pairs.map Prod.snd).Perm (predecessorsOf text name) ∧
        ∀ pair ∈ pairs, (pairs.map Prod.fst)[(predecessorsOf text name).idxOf pair.2]? = some pair.1

theorem PairValue.operand_injective : Function.Injective PairValue.operand := by
  intro a b h
  cases a <;> cases b <;> simp_all [operand]

section

variable {id : ℕ} {order : List String} {body : String → List InstructionText}
  {ctx : MirParserContext}

theorem Holds.perm_iff (h : Holds id order body ctx) {pairs : List (PairValue × String)}
    {preds : List String} (hpairs : ∀ pair ∈ pairs, pair.2 ∈ order)
    (hpreds : ∀ q ∈ preds, q ∈ order) :
    (pairs.map fun pair => ctx.resolveBlock pair.2).Perm
        ((preds.map (numbering id order)).map some) ↔
      (pairs.map Prod.snd).Perm preds := by
  have hresolve : (pairs.map fun pair => ctx.resolveBlock pair.2) =
      ((pairs.map Prod.snd).map (numbering id order)).map some := by
    rw [List.map_map, List.map_map]
    refine map_congr_left fun pair hpair => ?_
    rw [h.resolveBlock, if_pos (hpairs pair hpair)]
    rfl
  rw [hresolve, map_perm_map_iff (some_injective _)]
  constructor
  · intro hperm
    -- A label is recovered from its number.
    have hback := hperm.map fun p => order[p - id]?
    have hname : ∀ names : List String, (∀ q ∈ names, q ∈ order) →
        (names.map (numbering id order)).map (fun p => order[p - id]?) = names.map some := by
      intro names hnames
      rw [List.map_map]
      refine map_congr_left fun q hq => ?_
      rw [Function.comp_apply, numbering, Nat.add_sub_cancel_left]
      exact getElem?_idxOf (hnames q hq)
    rw [hname _ hpreds, hname _ ?_] at hback
    · exact (map_perm_map_iff (some_injective _)).mp hback
    · intro q hq
      obtain ⟨pair, hpair, rfl⟩ := mem_map.mp hq
      exact hpairs pair hpair
  · exact Perm.map _

theorem incomingAt_phi (preds : List ℕ) (p : ℕ) (idOf : String → ℕ) (dst : MirRegisterRef)
    (pairs : List (PairValue × String)) :
    incomingAt preds p ((InstructionText.phi dst pairs).resolve idOf) =
      ((pairs.map Prod.fst)[preds.idxOf p]?).map PairValue.operand := by
  unfold incomingAt resolve
  dsimp only
  rw [Nat.add_comm, List.getElem?_cons_succ, List.getElem?_map, List.getElem?_map, Option.map_map]
  rfl

theorem Holds.merges_iff (h : Holds id order body ctx) {preds : List String}
    (hpreds : ∀ q ∈ preds, q ∈ order) {dst : MirRegisterRef}
    {pairs : List (PairValue × String)} (hperm : (pairs.map Prod.snd).Perm preds)
    (idOf : String → ℕ) :
    (∀ p ∈ preds.map (numbering id order), ∀ pair ∈ pairs, ctx.resolveBlock pair.2 = some p →
        incomingAt (preds.map (numbering id order)) p
          ((InstructionText.phi dst pairs).resolve idOf) = some pair.1.operand) ↔
      ∀ pair ∈ pairs, (pairs.map Prod.fst)[preds.idxOf pair.2]? = some pair.1 := by
  have hpair : ∀ pair ∈ pairs, pair.2 ∈ preds :=
    fun pair hpair => hperm.subset (mem_map_of_mem hpair)
  have hidx : ∀ q ∈ preds, (preds.map (numbering id order)).idxOf (numbering id order q) =
      preds.idxOf q :=
    fun q _ => idxOf_map_of_inj fun x hx heq => numbering_injOn (hpreds x hx) heq
  constructor
  · intro hall pair hmem
    have hq := hpair pair hmem
    have hvalue := hall _ (mem_map_of_mem hq) pair hmem
      (by rw [h.resolveBlock, if_pos (hpreds _ hq)])
    rw [incomingAt_phi, hidx _ hq] at hvalue
    exact map_injective PairValue.operand_injective hvalue
  · intro hall p _ pair hmem hresolve
    have hq := hpair pair hmem
    rw [h.resolveBlock, if_pos (hpreds _ hq), some.injEq] at hresolve
    subst hresolve
    rw [incomingAt_phi, hidx _ hq, hall pair hmem]
    rfl

/-- The predecessors of a label, in the order of the first mention. -/
def predecessorsIn (order : List String) (body : String → List InstructionText)
    (name : String) : List String :=
  order.filter fun p => name ∈ successorsOf (nextLabel order p) (body p)

/-- What a parsed PHI names and merges, read off its text. -/
theorem Holds.pairs_iff (h : Holds id order body ctx) {name : String} (hname : name ∈ order)
    {k : ℕ} {dst : MirRegisterRef} {pairs : List (PairValue × String)}
    (hk : (body name)[k]? = some (.phi dst pairs)) :
    ((pairs.map fun pair => ctx.resolveBlock pair.2).Perm
          ((ctx.predecessors (numbering id order name)).map some) ∧
        ∃ inst, ((body name).map (InstructionText.resolve (numbering id order)))[k]? = some inst ∧
          ∀ p ∈ ctx.predecessors (numbering id order name), ∀ pair ∈ pairs,
            ctx.resolveBlock pair.2 = some p →
              incomingAt (ctx.predecessors (numbering id order name)) p inst =
                some pair.1.operand) ↔
      (pairs.map Prod.snd).Perm (predecessorsIn order body name) ∧ ∀ pair ∈ pairs,
          (pairs.map Prod.fst)[(predecessorsIn order body name).idxOf pair.2]? = some pair.1 := by
  have hpairs : ∀ pair ∈ pairs, pair.2 ∈ order := fun pair hpair =>
    (h.mentioned name _ (mem_of_getElem? hk)).2 _ (mem_map_of_mem hpair)
  have hpreds : ∀ q ∈ predecessorsIn order body name, q ∈ order :=
    fun q hq => (mem_filter.mp hq).1
  have hinst : ((body name).map (resolve (numbering id order)))[k]? =
      some ((phi dst pairs).resolve (numbering id order)) := by
    rw [getElem?_map, hk, map_some]
  have heq : ctx.predecessors (numbering id order name) =
      (predecessorsIn order body name).map (numbering id order) := h.predecessors_eq hname
  rw [heq, hinst, h.perm_iff hpairs hpreds]
  refine and_congr_right fun hperm => ?_
  rw [← @Holds.merges_iff _ _ _ _ h _ hpreds dst _ hperm (numbering id order)]
  constructor
  · rintro ⟨inst, hsome, hmerges⟩
    rwa [← some.inj hsome] at hmerges
  · exact fun hmerges => ⟨_, rfl, hmerges⟩

end

/-- The pairs of the text reach their predecessors exactly when they stand in the order in
which the text first mentions them. -/
theorem keepsPairs_iff (id : ℕ) (text : FunctionText) : KeepsPairs id text ↔ PairsInOrder text := by
  cases text with
  | nil =>
    refine iff_of_true ?_ ?_
    · intro _ b _ k dst pairs hk
      cases hk
    · intro _ name hname
      cases hname
  | cons b rest =>
    have h := holds_parseFunctionBody id b rest
    unfold KeepsPairs PairsInOrder
    dsimp only
    rw [exitFunction_iff]
    refine imp_congr_right fun _ => ?_
    rw [h.blocks]
    constructor
    · intro hkeeps name hname dst pairs hphi
      obtain ⟨k, hk⟩ := getElem?_of_mem hphi
      exact (h.pairs_iff hname hk).mp (hkeeps _ (mem_map_of_mem hname) k dst pairs hk)
    · intro hinOrder blk hblk k dst pairs hk
      obtain ⟨name, hname, rfl⟩ := mem_map.mp hblk
      exact (h.pairs_iff hname hk).mpr (hinOrder name hname dst pairs (mem_of_getElem? hk))

/-- Two arms whose jumps name the second one first. -/
theorem pairs_of_crossed_arms : ¬ KeepsPairs 0
      [⟨"entry", [.other .BR_COND [.value (.register ⟨true, none, 0⟩), .label "b", .label "a"]]⟩,
        ⟨"a", [.other .JMP [.label "m"]]⟩,
        ⟨"b", [.other .JMP [.label "m"]]⟩,
        ⟨"m", [.phi ⟨true, none, 1⟩ [(.integer 1, "a"), (.integer 2, "b")],
          .other .RET [.value (.register ⟨true, none, 1⟩)]]⟩] := by
  rw [keepsPairs_iff]
  intro h
  have hm := h (by decide +kernel) "m" (by decide +kernel) _ _ (mem_cons_self ..)
  exact absurd (hm.2 _ (mem_cons_self ..)) (by decide +kernel)

end EzPacker.MirParser
