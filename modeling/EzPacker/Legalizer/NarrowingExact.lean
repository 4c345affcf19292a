import EzPacker.Legalizer.ChunkedResults

/-!
# Exactness of narrowing

The emitted code computes what the wide instruction does, for all values of its operands, and
an opcode is applied to the chunks themselves only when its result is obtained that way. This
holds of the opcodes with a sequence of their own and of the bitwise ones; multiplications,
divisions and shifts are rewritten chunk by chunk as well.
-/

namespace EzPacker.Legalizer

open Nat List Option Mir LegalizeNarrowScalar

/-! ## Operations on chunks -/

section Operations

variable {opcode : MirInstructionOpCode} {env : RegisterFile} {dst lhs rhs src : TypedOperand}
  {x y v : ℕ}

theorem exec_build_unary (hop : ¬isChunkOp opcode) (hx : read env src = some x)
    (hv : scalarValue opcode (bitsOf dst) [(bitsOf src, x)] = some v) :
    exec env (build opcode [dst, src]) = write env dst v := by
  unfold build
  rw [exec_scalar hop]
  simp only [readAll, hx, bind_some, map_some, hv]

theorem exec_build_binary (hop : ¬isChunkOp opcode) (hx : read env lhs = some x)
    (hy : read env rhs = some y)
    (hv : scalarValue opcode (bitsOf dst) [(bitsOf lhs, x), (bitsOf rhs, y)] = some v) :
    exec env (build opcode [dst, lhs, rhs]) = write env dst v := by
  unfold build
  rw [exec_scalar hop]
  simp only [readAll, hx, hy, bind_some, map_some, hv]

end Operations

theorem foldl_and_eq (xs ys : List ℕ) (hlen : xs.length = ys.length) (p : Bool) :
    (xs.zip ys).foldl (fun acc v => acc && decide (v.1 = v.2)) p = (p && decide (xs = ys)) := by
  induction xs generalizing ys p with
  | nil =>
    obtain rfl := length_eq_zero_iff.mp hlen.symm
    simp
  | cons x xs ih =>
    cases ys with
    | nil => cases hlen
    | cons y ys =>
      rw [zip_cons_cons, foldl_cons, ih ys (succ.inj hlen)]
      simp [Bool.and_assoc, Bool.decide_and]

theorem foldl_or_ne (xs ys : List ℕ) (hlen : xs.length = ys.length) (p : Bool) :
    (xs.zip ys).foldl (fun acc v => acc || decide (v.1 ≠ v.2)) p = (p || decide (xs ≠ ys)) := by
  induction xs generalizing ys p with
  | nil =>
    obtain rfl := length_eq_zero_iff.mp hlen.symm
    simp
  | cons x xs ih =>
    cases ys with
    | nil => cases hlen
    | cons y ys =>
      rw [zip_cons_cons, foldl_cons, ih ys (succ.inj hlen)]
      by_cases hxy : x = y <;> simp [hxy]

section Equality

variable {bits count x y : ℕ} {p : ℕ × ℕ} {ps : List (ℕ × ℕ)}

theorem chunks_eq_iff (hx : x < 2 ^ (count * bits)) (hy : y < 2 ^ (count * bits)) :
    chunks bits count x = chunks bits count y ↔ x = y := by
  refine ⟨fun h => ?_, fun h => by rw [h]⟩
  rw [← ofDigits_chunks_of_lt hx, h, ofDigits_chunks_of_lt hy]

variable (hx : x < 2 ^ (count * bits)) (hy : y < 2 ^ (count * bits))
  (hps : (chunks bits count x).zip (chunks bits count y) = p :: ps)
include hx hy hps

/-- All chunks are equal when the numbers are. -/
theorem foldl_chunks_eq :
    ps.foldl (fun acc v => acc && decide (v.1 = v.2)) (decide (p.1 = p.2)) = decide (x = y) := by
  have hfold := foldl_and_eq (chunks bits count x) (chunks bits count y) (by simp) true
  rw [hps, foldl_cons, Bool.true_and, Bool.true_and, decide_eq_decide.mpr
    (chunks_eq_iff hx hy)] at hfold
  exact hfold

theorem foldl_chunks_ne :
    ps.foldl (fun acc v => acc || decide (v.1 ≠ v.2)) (decide (p.1 ≠ p.2)) = decide (x ≠ y) := by
  have hfold := foldl_or_ne (chunks bits count x) (chunks bits count y) (by simp) false
  rw [hps, foldl_cons, Bool.false_or, Bool.false_or, decide_eq_decide.mpr
    (not_congr (chunks_eq_iff hx hy))] at hfold
  exact hfold

end Equality

section Comparison

variable {bits boolBits : ℕ} (hbool : 0 < boolBits)
include hbool

theorem equalOps : CompareOps bits boolBits (fun x y => decide (x = y)) (· && ·)
    .CMP_EQ .AND where
  compares hlbits hrbits hx hy hlhs hrhs := by
    refine exec_build_binary (by decide) hlhs hrhs ?_
    rw [hlbits, hrbits, scalarValue_cmpEq hx hy]
  combines {env dst lhs rhs p q} hdst hlbits hrbits hlhs hrhs := by
    refine exec_build_binary (by decide) hlhs hrhs ?_
    rw [hdst, hlbits, hrbits, scalarValue_and (toNat_lt_two_pow hbool p) (toNat_lt_two_pow hbool q)]
    cases p <;> cases q <;> rfl

theorem unequalOps : CompareOps bits boolBits (fun x y => decide (x ≠ y)) (· || ·)
    .CMP_NE .OR where
  compares hlbits hrbits hx hy hlhs hrhs := by
    refine exec_build_binary (by decide) hlhs hrhs ?_
    rw [hlbits, hrbits, scalarValue_cmpNe hx hy]
  combines {env dst lhs rhs p q} hdst hlbits hrbits hlhs hrhs := by
    refine exec_build_binary (by decide) hlhs hrhs ?_
    rw [hdst, hlbits, hrbits, scalarValue_or (toNat_lt_two_pow hbool p) (toNat_lt_two_pow hbool q)]
    cases p <;> cases q <;> rfl

end Comparison

/-! ## Instructions that are rewritten exactly -/

section Exact

variable {types : MirTypeTable} {inst : TypedInstruction} {operandSlot count nextRegister : ℕ}
  {narrowType : MirType}

theorem simulates_notModified (inst : TypedInstruction) (n : ℕ) :
    Simulates n (Rewrite.notModified inst n).code inst := by
  intro env env₁ h
  refine ⟨env₁, ?_, AgreesOff.refl _ _⟩
  have hcode : (Rewrite.notModified inst n).code = [inst] := rfl
  rw [hcode, run, h]
  rfl

/-- An instruction without code for its chunks is kept or rejected. -/
theorem narrowedExactly_of_none (hcompare : isCompare inst.opcode = false)
    (hnone : ∀ dsts count n, narrowChunks inst dsts count narrowType.totalSizeInBits narrowType
      types.i1 n = none) :
    NarrowedExactly types inst operandSlot narrowType count nextRegister := by
  intro rewrite h
  rcases legalizeNarrowScalar_some h with rfl | ⟨dst, srcs, wideOp, -, -, -, hrest⟩
  · exact ⟨simulates_notModified inst nextRegister, fun _ h => absurd h not_mem_nil⟩
  · dsimp only at hrest
    rw [hcompare, if_neg Bool.false_ne_true] at hrest
    obtain ⟨code, n, hcode, -⟩ := hrest
    rw [hnone] at hcode
    cases hcode

variable (hbits : 0 < narrowType.totalSizeInBits) (hcount : 2 ≤ count)
include hbits hcount

theorem chunkCount {op : TypedOperand} (h : bitsOf op = count * narrowType.totalSizeInBits) :
    max 2 (bitsOf op / narrowType.totalSizeInBits) = count := by
  rw [h, Nat.mul_div_cancel _ hbits]
  exact max_eq_right hcount

theorem narrowedExactly_of_chunks {dst : TypedOperand} {srcs : List TypedOperand}
    (hops : inst.operands = dst :: srcs) (hcompare : isCompare inst.opcode = false)
    (hwide : ∀ op ∈ inst.operands, bitsOf op = count * narrowType.totalSizeInBits)
    (hcode : ∀ code n', narrowChunks inst (dstChunks narrowType nextRegister count) count
      narrowType.totalSizeInBits narrowType types.i1 (nextRegister + count) = some (code, n') →
        Simulates nextRegister
          (code ++ [build .MERGE_VALUES (dst :: dstChunks narrowType nextRegister count)]) inst ∧
        ∀ emitted ∈ code ++ [build .MERGE_VALUES (dst :: dstChunks narrowType nextRegister count)],
          emitted.opcode = inst.opcode →
            ObtainedByChunks inst.opcode count narrowType.totalSizeInBits) :
    NarrowedExactly types inst operandSlot narrowType count nextRegister := by
  intro rewrite h
  rcases legalizeNarrowScalar_some h with rfl | ⟨dst', srcs', wideOp, hops', hmem, -, hrest⟩
  · exact ⟨simulates_notModified inst nextRegister, fun _ h => absurd h not_mem_nil⟩
  · obtain ⟨rfl, -⟩ := cons.inj (hops.symm.trans hops')
    dsimp only at hrest
    rw [hcompare, if_neg Bool.false_ne_true, chunkCount hbits hcount (hwide wideOp hmem)] at hrest
    obtain ⟨code, n', hsome, rfl⟩ := hrest
    obtain ⟨hsim, hemitted⟩ := hcode code n' hsome
    refine ⟨?_, fun emitted hmem heq => Or.inr (hemitted emitted hmem heq)⟩
    unfold Rewrite.code
    rw [toList_none, append_nil, append_nil]
    exact hsim

theorem narrowedExactly_of_compare {dst lhs rhs : TypedOperand}
    (hops : inst.operands = [dst, lhs, rhs]) (hcompare : isCompare inst.opcode = true)
    (hdst : bitsOf dst ≤ narrowType.totalSizeInBits)
    (hlhs : bitsOf lhs = count * narrowType.totalSizeInBits)
    (hrhs : bitsOf rhs = count * narrowType.totalSizeInBits)
    (hcode : ∀ rewrite, narrowCompare inst dst count narrowType.totalSizeInBits narrowType
      types.i1 nextRegister = some rewrite → Simulates nextRegister rewrite.code inst) :
    NarrowedExactly types inst operandSlot narrowType count nextRegister := by
  intro rewrite h
  rcases legalizeNarrowScalar_some h with rfl | ⟨dst', srcs', wideOp, hops', hmem, hlt, hrest⟩
  · exact ⟨simulates_notModified inst nextRegister, fun _ h => absurd h not_mem_nil⟩
  · obtain ⟨rfl, -⟩ := cons.inj (hops.symm.trans hops')
    have hwide : bitsOf wideOp = count * narrowType.totalSizeInBits := by
      rw [hops] at hmem
      simp only [mem_cons, not_mem_nil, or_false] at hmem
      rcases hmem with rfl | rfl | rfl
      · exact absurd hlt (Nat.not_lt_of_le hdst)
      · exact hlhs
      · exact hrhs
    dsimp only at hrest
    rw [if_pos hcompare, chunkCount hbits hcount hwide] at hrest
    exact ⟨hcode rewrite hrest, fun _ _ _ => Or.inl hcompare⟩

end Exact

/-! ## The code of each opcode -/

theorem opcode_of_mem_splitOperand {op : TypedOperand} {count bits n : ℕ} {type : MirType}
    {emitted : TypedInstruction} (h : emitted ∈ (splitOperand op count bits type n).2.1) :
    emitted.opcode = .UNMERGE_VALUES := by
  unfold splitOperand at h
  split at h
  · obtain rfl := mem_singleton.mp h
    rfl
  · exact absurd h not_mem_nil
  · exact absurd h not_mem_nil

theorem opcode_of_mem_carryChain {firstOp nextOp : MirInstructionOpCode} {carryType : MirType}
    {ts : List (TypedOperand × TypedOperand × TypedOperand)} {carry : Option TypedOperand}
    {n : ℕ} {emitted : TypedInstruction}
    (h : emitted ∈ (carryChain firstOp nextOp carryType ts carry n).1) :
    emitted.opcode = firstOp ∨ emitted.opcode = nextOp := by
  induction ts generalizing carry n with
  | nil => exact absurd h not_mem_nil
  | cons t ts ih =>
    obtain ⟨dst, lhs, rhs⟩ := t
    rw [carryChain_cons, mem_cons] at h
    rcases h with rfl | h
    · cases carry with
      | none => exact Or.inl rfl
      | some c => exact Or.inr rfl
    · exact ih h

section Opcodes

variable {types : MirTypeTable} {operandSlot count nextRegister : ℕ} {narrowType : MirType}
  {desc : Option MirTargetInstructionDesc} {dst lhs rhs src : TypedOperand}
  (hbool : 0 < types.i1.totalSizeInBits) (hbits : 0 < narrowType.totalSizeInBits)
  (hcount : 2 ≤ count) (hdst : bitsOf dst = count * narrowType.totalSizeInBits)
include hbits hcount hdst

section Binary

variable (hlhs : bitsOf lhs = count * narrowType.totalSizeInBits)
  (hrhs : bitsOf rhs = count * narrowType.totalSizeInBits)
  (hold : Avoids (newFrom nextRegister) rhs)
include hlhs hrhs hold

omit hbits hcount hold in
theorem wide_operands : ∀ op ∈ [dst, lhs, rhs], bitsOf op = count * narrowType.totalSizeInBits := by
  simp [hdst, hlhs, hrhs]

include hbool in
theorem narrowedExactly_chain {opcode firstOp nextOp : MirInstructionOpCode}
    {digit : ℕ → ℕ → ℕ → ℕ × ℕ}
    (hops : DigitOps narrowType.totalSizeInBits digit firstOp nextOp)
    (hop : ¬isChunkOp opcode) (hcompare : isCompare opcode = false)
    (hfirst : firstOp ≠ opcode) (hnext : nextOp ≠ opcode)
    (hcode : ∀ (inst : TypedInstruction) dsts count bits type carryType n,
      inst.opcode = opcode → inst.operands = [dst, lhs, rhs] →
      let l := splitOperand lhs count bits type n
      let r := splitOperand rhs count bits type l.2.2
      let c := carryChain firstOp nextOp carryType (dsts.zip (l.1.zip r.1)) none r.2.2
      narrowChunks inst dsts count bits type carryType n = some (l.2.1 ++ r.2.1 ++ c.1, c.2))
    (hvalue : HasDigits opcode narrowType.totalSizeInBits count fun x y => (chain digit
      ((chunks narrowType.totalSizeInBits count x).zip
        (chunks narrowType.totalSizeInBits count y)) 0).1) :
    NarrowedExactly types ⟨opcode, desc, [dst, lhs, rhs]⟩ operandSlot narrowType count
      nextRegister := by
  refine narrowedExactly_of_chunks hbits hcount rfl hcompare (wide_operands hdst hlhs hrhs) ?_
  intro code n' hsome
  rw [hcode _ _ _ _ _ _ _ rfl rfl] at hsome
  obtain ⟨rfl, -⟩ := Prod.mk.inj (some.inj hsome)
  refine ⟨chain_simulates hop hdst hlhs hrhs hold hops hbool hvalue, ?_⟩
  intro emitted hmem heq
  have hkept : emitted.opcode ≠ opcode := by
    simp only [mem_append, mem_singleton] at hmem
    rcases hmem with ((hmem | hmem) | hmem) | rfl
    · rw [opcode_of_mem_splitOperand hmem]
      rintro rfl
      exact hop (by decide)
    · rw [opcode_of_mem_splitOperand hmem]
      rintro rfl
      exact hop (by decide)
    · rcases opcode_of_mem_carryChain hmem with h | h
      · rw [h]
        exact hfirst
      · rw [h]
        exact hnext
    · rintro rfl
      exact hop (show isChunkOp .MERGE_VALUES by decide)
  exact absurd heq hkept

include hbool in
theorem narrowedExactly_add : NarrowedExactly types ⟨.ADD, desc, [dst, lhs, rhs]⟩ operandSlot
    narrowType count nextRegister := by
  refine narrowedExactly_chain hbool hbits hcount hdst hlhs hrhs hold (addDigitOps _)
    (by decide) (by decide) (by decide) (by decide) ?_ ?_
  · intro inst dsts count bits type carryType n hopcode hops
    unfold narrowChunks
    rw [hopcode, hops]
  · intro x y v hx hy hv
    rw [scalarValue_add] at hv
    rw [ofDigits_addChunks hbits hx hy]
    exact some.inj hv

include hbool in
theorem narrowedExactly_sub : NarrowedExactly types ⟨.SUB, desc, [dst, lhs, rhs]⟩ operandSlot
    narrowType count nextRegister := by
  refine narrowedExactly_chain hbool hbits hcount hdst hlhs hrhs hold (subDigitOps _)
    (by decide) (by decide) (by decide) (by decide) ?_ ?_
  · intro inst dsts count bits type carryType n hopcode hops
    unfold narrowChunks
    rw [hopcode, hops]
  · intro x y v hx hy hv
    rw [scalarValue_sub hx hy] at hv
    rw [ofDigits_subChunks hbits hx hy]
    exact some.inj hv

theorem narrowedExactly_bitwise {opcode : MirInstructionOpCode} {op : ℕ → ℕ → ℕ}
    (hop : ¬isChunkOp opcode) (hcompare : isCompare opcode = false)
    (hobtained : ObtainedByChunks opcode count narrowType.totalSizeInBits)
    (hcode : ∀ (inst : TypedInstruction) dsts count bits type carryType n,
      inst.opcode = opcode → inst.operands = [dst, lhs, rhs] →
      let l := splitOperand lhs count bits type n
      let r := splitOperand rhs count bits type l.2.2
      narrowChunks inst dsts count bits type carryType n = some (l.2.1 ++ r.2.1 ++
        (dsts.zip (l.1.zip r.1)).map fun p => build opcode [p.1, p.2.1, p.2.2], r.2.2))
    (hvalue : ∀ w x y, x < 2 ^ w → y < 2 ^ w →
      scalarValue opcode w [(w, x), (w, y)] = some (op x y) ∧ op x y < 2 ^ w)
    (hchunk : ∀ k x y, chunk narrowType.totalSizeInBits k (op x y) =
      op (chunk narrowType.totalSizeInBits k x) (chunk narrowType.totalSizeInBits k y)) :
    NarrowedExactly types ⟨opcode, desc, [dst, lhs, rhs]⟩ operandSlot narrowType count
      nextRegister := by
  refine narrowedExactly_of_chunks hbits hcount rfl hcompare (wide_operands hdst hlhs hrhs) ?_
  intro code n' hsome
  rw [hcode _ _ _ _ _ _ _ rfl rfl] at hsome
  obtain ⟨rfl, -⟩ := Prod.mk.inj (some.inj hsome)
  refine ⟨pairs_simulates (f := op) hop hdst hlhs hrhs hold ?_ ?_, fun _ _ _ => hobtained⟩
  · intro env dst lhs rhs x y hd hl hr hx hy hlhs hrhs
    refine ⟨exec_build_binary hop hlhs hrhs ?_, (hvalue _ x y hx hy).2⟩
    rw [hd, hl, hr, (hvalue _ x y hx hy).1]
  · intro x y v hx hy hv
    rw [(hvalue _ x y hx hy).1] at hv
    dsimp only
    rw [chunks_zip_map fun k _ => hchunk k x y, ofDigits_chunks_of_lt (hvalue _ x y hx hy).2]
    exact some.inj hv

theorem narrowedExactly_and : NarrowedExactly types ⟨.AND, desc, [dst, lhs, rhs]⟩ operandSlot
    narrowType count nextRegister := by
  refine narrowedExactly_bitwise hbits hcount hdst hlhs hrhs hold (by decide) (by decide)
    obtainedByChunks_and ?_ (fun w x y hx hy => ⟨scalarValue_and hx hy, ?_⟩) chunk_and
  · intro inst dsts count bits type carryType n hopcode hops
    unfold narrowChunks
    rw [hopcode, hops]
  · exact and_lt_two_pow x hy

theorem narrowedExactly_or : NarrowedExactly types ⟨.OR, desc, [dst, lhs, rhs]⟩ operandSlot
    narrowType count nextRegister := by
  refine narrowedExactly_bitwise hbits hcount hdst hlhs hrhs hold (by decide) (by decide)
    obtainedByChunks_or ?_ (fun w x y hx hy => ⟨scalarValue_or hx hy, ?_⟩) chunk_or
  · intro inst dsts count bits type carryType n hopcode hops
    unfold narrowChunks
    rw [hopcode, hops]
  · exact or_lt_two_pow hx hy

theorem narrowedExactly_xor : NarrowedExactly types ⟨.XOR, desc, [dst, lhs, rhs]⟩ operandSlot
    narrowType count nextRegister := by
  refine narrowedExactly_bitwise hbits hcount hdst hlhs hrhs hold (by decide) (by decide)
    obtainedByChunks_xor ?_ (fun w x y hx hy => ⟨scalarValue_xor hx hy, ?_⟩) chunk_xor
  · intro inst dsts count bits type carryType n hopcode hops
    unfold narrowChunks
    rw [hopcode, hops]
  · exact xor_lt_two_pow hx hy

end Binary

section Unary

variable (hsrc : bitsOf src = count * narrowType.totalSizeInBits)
include hsrc

include hbool in
theorem narrowedExactly_neg : NarrowedExactly types ⟨.NEG, desc, [dst, src]⟩ operandSlot
    narrowType count nextRegister := by
  refine narrowedExactly_of_chunks hbits hcount rfl (show isCompare .NEG = false by decide)
    (by simp [hdst, hsrc]) ?_
  intro code n' hsome
  obtain ⟨rfl, -⟩ := Prod.mk.inj (some.inj hsome)
  refine ⟨negChain_simulates (by decide) hdst hsrc hbool ?_, ?_⟩
  · intro x v hx hv
    rw [scalarValue_neg hx] at hv
    rw [ofDigits_negChunks hbits hx]
    exact some.inj hv
  · intro emitted hmem heq
    simp only [mem_append, mem_singleton] at hmem
    rcases hmem with (hmem | hmem) | rfl
    · rw [opcode_of_mem_splitOperand hmem] at heq
      cases heq
    · rcases opcode_of_mem_carryChain hmem with h | h <;> rw [h] at heq <;> cases heq
    · cases heq

theorem narrowedExactly_chunkwise {opcode : MirInstructionOpCode} {op : ℕ → ℕ → ℕ}
    (hop : ¬isChunkOp opcode) (hcompare : isCompare opcode = false)
    (hobtained : ObtainedByChunks opcode count narrowType.totalSizeInBits)
    (hcode : ∀ (inst : TypedInstruction) dsts count bits type carryType n,
      inst.opcode = opcode → inst.operands = [dst, src] →
      let s := splitOperand src count bits type n
      narrowChunks inst dsts count bits type carryType n = some (s.2.1 ++
        (dsts.zip s.1).map fun p => build opcode [p.1, p.2], s.2.2))
    (hvalue : ∀ w x, x < 2 ^ w → scalarValue opcode w [(w, x)] = some (op w x) ∧ op w x < 2 ^ w)
    (hchunk : ∀ k < count, ∀ x < 2 ^ (count * narrowType.totalSizeInBits),
      chunk narrowType.totalSizeInBits k (op (count * narrowType.totalSizeInBits) x) =
        op narrowType.totalSizeInBits (chunk narrowType.totalSizeInBits k x)) :
    NarrowedExactly types ⟨opcode, desc, [dst, src]⟩ operandSlot narrowType count
      nextRegister := by
  refine narrowedExactly_of_chunks hbits hcount rfl hcompare (by simp [hdst, hsrc]) ?_
  intro code n' hsome
  rw [hcode _ _ _ _ _ _ _ rfl rfl] at hsome
  obtain ⟨rfl, -⟩ := Prod.mk.inj (some.inj hsome)
  refine ⟨sources_simulates (f := op narrowType.totalSizeInBits) hop hdst hsrc ?_ ?_,
    fun _ _ _ => hobtained⟩
  · intro env dst src x hd hs hx hread
    refine ⟨exec_build_unary hop hread ?_, (hvalue _ x hx).2⟩
    rw [hd, hs, (hvalue _ x hx).1]
  · intro x v hx hv
    rw [(hvalue _ x hx).1] at hv
    dsimp only
    rw [chunks_map fun k hk => hchunk k hk x hx, ofDigits_chunks_of_lt (hvalue _ x hx).2]
    exact some.inj hv

theorem narrowedExactly_not : NarrowedExactly types ⟨.NOT, desc, [dst, src]⟩ operandSlot
    narrowType count nextRegister := by
  refine narrowedExactly_chunkwise hbits hcount hdst hsrc (by decide) (by decide)
    obtainedByChunks_not ?_ (fun w x hx => ⟨scalarValue_not hx, ?_⟩)
    fun _ hk _ hx => chunk_complement hk hx
  · intro inst dsts count bits type carryType n hopcode hops
    unfold narrowChunks
    rw [hopcode, hops]
  · have := Nat.two_pow_pos w
    omega

theorem narrowedExactly_mov : NarrowedExactly types ⟨.MOV, desc, [dst, src]⟩ operandSlot
    narrowType count nextRegister := by
  refine narrowedExactly_chunkwise hbits hcount hdst hsrc (by decide) (by decide)
    obtainedByChunks_mov ?_ (fun w x hx => ⟨scalarValue_mov hx, hx⟩) fun _ _ _ _ => rfl
  intro inst dsts count bits type carryType n hopcode hops
  unfold narrowChunks
  rw [hopcode, hops]

end Unary

end Opcodes

section Comparisons

variable {types : MirTypeTable} {operandSlot count nextRegister : ℕ} {narrowType : MirType}
  {opcode : MirInstructionOpCode} {desc : Option MirTargetInstructionDesc}
  {dst lhs rhs : TypedOperand}
  (hbool : types.i1.totalSizeInBits = 1) (hbits : 0 < narrowType.totalSizeInBits)
  (hcount : 2 ≤ count) (hdst : bitsOf dst = 1)
  (hlhs : bitsOf lhs = count * narrowType.totalSizeInBits)
  (hrhs : bitsOf rhs = count * narrowType.totalSizeInBits)
  (hold : Avoids (newFrom nextRegister) rhs)
include hbool hbits hcount hdst hlhs hrhs hold

theorem narrowedExactly_comparison (hop : isCompare opcode = true) :
    NarrowedExactly types ⟨opcode, desc, [dst, lhs, rhs]⟩ operandSlot narrowType count
      nextRegister := by
  refine narrowedExactly_of_compare hbits hcount rfl hop (by rw [hdst]; exact hbits) hlhs hrhs ?_
  intro rewrite hsome
  have hpos : 0 < types.i1.totalSizeInBits := by rw [hbool]; exact one_pos
  have hcode (emitted : List TypedInstruction) (n : ℕ) :
      (⟨emitted, none, [], n⟩ : Rewrite).code = emitted := by simp [Rewrite.code]
  have hdst₁ : bitsOf dst = types.i1.totalSizeInBits := hdst.trans hbool.symm
  by_cases heq : opcode = .CMP_EQ
  · subst heq
    obtain rfl := some.inj hsome
    rw [hcode]
    refine compare_simulates (equalOps hpos) (show ¬isChunkOp .CMP_EQ by decide) hpos (by omega)
      hdst₁ hlhs hrhs hold ?_
    intro x y v p ps hx hy hv hps
    rw [scalarValue_cmpEq hx hy] at hv
    rw [foldl_chunks_eq hx hy hps]
    exact some.inj hv
  · by_cases hne : opcode = .CMP_NE
    · subst hne
      obtain rfl := some.inj hsome
      rw [hcode]
      refine compare_simulates (unequalOps hpos) (show ¬isChunkOp .CMP_NE by decide) hpos
        (by omega) hdst₁ hlhs hrhs hold ?_
      intro x y v p ps hx hy hv hps
      rw [scalarValue_cmpNe hx hy] at hv
      rw [foldl_chunks_ne hx hy hps]
      exact some.inj hv
    · -- The other comparisons are rejected.
      unfold narrowCompare at hsome
      dsimp only at hsome
      split at hsome
      · exact absurd hsome nofun
      · rename_i hcombine
        split at hcombine
        · exact absurd rfl heq
        · exact absurd rfl hne
        · cases hcombine

end Comparisons

/-! ## Opcodes that reach the fall-back -/

theorem le_length_splitOperand (op : TypedOperand) (count bits : ℕ) (type : MirType) (n : ℕ) :
    count ≤ (splitOperand op count bits type n).1.length := by
  unfold splitOperand
  split <;> simp

theorem wideOperand_isSome (inst : TypedInstruction) (operandSlot : ℕ) {narrowBits : ℕ}
    {op : TypedOperand} (hmem : op ∈ inst.operands) (hwide : narrowBits < bitsOf op) :
    ∃ op', wideOperand inst operandSlot narrowBits = some op' := by
  have hop : ((op.mirType.map fun type =>
      decide (type.totalSizeInBits > narrowBits)).getD false) = true := by
    unfold bitsOf at hwide
    cases htype : op.mirType with
    | none =>
      rw [htype] at hwide
      exact absurd hwide (not_lt_zero _)
    | some type =>
      rw [htype] at hwide
      exact decide_eq_true hwide
  unfold wideOperand
  dsimp only
  split
  next op' _ => exact ⟨op', rfl⟩
  next => exact isSome_iff_exists.mp (find?_isSome.mpr ⟨op, hmem, hop⟩)

section Fallback

variable {types : MirTypeTable} {operandSlot count nextRegister : ℕ} {narrowType : MirType}
  {opcode : MirInstructionOpCode} {desc : Option MirTargetInstructionDesc}
  {dst lhs rhs : TypedOperand}

/-- The opcodes of integers without a sequence of their own, apart from the bitwise ones. -/
def fallbackOpcodes : List MirInstructionOpCode :=
  [.MUL, .IMUL, .UMULH, .SMULH, .DIV, .UDIV, .IDIV, .SDIV, .REM, .SHL, .SHR, .SAR]

section

variable (hop : opcode ∈ fallbackOpcodes)
include hop

theorem narrowChunks_fallback (dsts : List TypedOperand) (count bits : ℕ)
    (type carryType : MirType) (n : ℕ) : let l := splitOperand lhs count bits type n
    let r := splitOperand rhs count bits type l.2.2
    narrowChunks ⟨opcode, desc, [dst, lhs, rhs]⟩ dsts count bits type carryType n =
      some (l.2.1 ++ r.2.1 ++ (dsts.zip (l.1.zip r.1)).map fun p =>
        build opcode [p.1, p.2.1, p.2.2], r.2.2) := by
  simp only [fallbackOpcodes, mem_cons, not_mem_nil, or_false] at hop
  rcases hop with rfl | rfl | rfl | rfl | rfl | rfl | rfl | rfl | rfl | rfl | rfl | rfl <;> rfl

theorem not_isCompare_of_fallback : isCompare opcode = false := by
  simp only [fallbackOpcodes, mem_cons, not_mem_nil, or_false] at hop
  rcases hop with rfl | rfl | rfl | rfl | rfl | rfl | rfl | rfl | rfl | rfl | rfl | rfl <;> decide

/-- The opcode itself is applied to the chunks. -/
theorem fallback_emitted (hbits : 0 < narrowType.totalSizeInBits)
    (hwide : narrowType.totalSizeInBits < bitsOf dst) :
    ∃ rewrite, legalizeNarrowScalar types ⟨opcode, desc, [dst, lhs, rhs]⟩ operandSlot narrowType
        nextRegister = some rewrite ∧
      ∃ emitted ∈ rewrite.before, emitted.opcode = opcode := by
  obtain ⟨wideOp, hwideOp⟩ := wideOperand_isSome ⟨opcode, desc, [dst, lhs, rhs]⟩ operandSlot
    List.mem_cons_self hwide
  unfold legalizeNarrowScalar
  dsimp only
  rw [if_neg (ne_of_gt hbits), hwideOp]
  dsimp only
  rw [not_isCompare_of_fallback hop, if_neg Bool.false_ne_true, narrowChunks_fallback hop]
  refine ⟨_, rfl, ?_⟩
  dsimp only
  generalize hcount : max 2 ((wideOp.mirType.map MirType.totalSizeInBits).getD 0 /
    narrowType.totalSizeInBits) = count
  have hpos : 0 < count := by
    rw [← hcount]
    exact lt_of_lt_of_le two_pos (le_max_left 2 _)
  generalize hl : splitOperand lhs count narrowType.totalSizeInBits narrowType
    (nextRegister + count) = l
  generalize hr : splitOperand rhs count narrowType.totalSizeInBits narrowType l.2.2 = r
  have hllen : count ≤ l.1.length := hl ▸ le_length_splitOperand _ _ _ _ _
  have hrlen : count ≤ r.1.length := hr ▸ le_length_splitOperand _ _ _ _ _
  obtain ⟨p, hp⟩ : ∃ p, p ∈ ((List.range count).map fun k =>
      buildVReg (nextRegister + k) narrowType).zip (l.1.zip r.1) := by
    refine List.exists_mem_of_length_pos ?_
    rw [List.length_zip, List.length_zip, List.length_map, List.length_range]
    omega
  refine ⟨build opcode [p.1, p.2.1, p.2.2], ?_, rfl⟩
  simp only [List.mem_append, List.mem_map]
  exact Or.inl (Or.inr ⟨p, hp, rfl⟩)

theorem fallback_not_obtainedByChunks {bits : ℕ} (hbits : 0 < bits) (hcount : 2 ≤ count) :
    ¬ObtainedByChunks opcode count bits := by
  simp only [fallbackOpcodes, mem_cons, not_mem_nil, or_false] at hop
  rcases hop with rfl | rfl | rfl | rfl | rfl | rfl | rfl | rfl | rfl | rfl | rfl | rfl
  · exact product_not_obtainedByChunks hbits hcount (by decide)
  · exact product_not_obtainedByChunks hbits hcount (by decide)
  · exact highProduct_not_obtainedByChunks hbits hcount
  · exact signedHighProduct_not_obtainedByChunks hbits hcount
  · exact quotient_not_obtainedByChunks hbits hcount (by decide)
  · exact quotient_not_obtainedByChunks hbits hcount (by decide)
  · exact quotient_not_obtainedByChunks hbits hcount (by decide)
  · exact quotient_not_obtainedByChunks hbits hcount (by decide)
  · exact quotient_not_obtainedByChunks hbits hcount (by decide)
  · exact leftShift_not_obtainedByChunks hbits hcount
  · exact rightShift_not_obtainedByChunks hbits hcount (by decide)
  · exact rightShift_not_obtainedByChunks hbits hcount (by decide)

theorem not_narrowedExactly_fallback (hbits : 0 < narrowType.totalSizeInBits) (hcount : 2 ≤ count)
    (hdst : bitsOf dst = count * narrowType.totalSizeInBits) :
    ¬NarrowedExactly types ⟨opcode, desc, [dst, lhs, rhs]⟩ operandSlot narrowType count
      nextRegister := by
  have hwide : narrowType.totalSizeInBits < bitsOf dst := by
    have := two_mul_bits_le hcount narrowType.totalSizeInBits
    omega
  intro h
  obtain ⟨rewrite, hrewrite, emitted, hmem, hopcode⟩ : ∃ rewrite, legalizeNarrowScalar types
      ⟨opcode, desc, [dst, lhs, rhs]⟩ operandSlot narrowType nextRegister = some rewrite ∧
      ∃ emitted ∈ rewrite.before, emitted.opcode = opcode := fallback_emitted hop hbits hwide
  rcases (h rewrite hrewrite).2 emitted hmem hopcode with hcompare | hobtained
  · rw [not_isCompare_of_fallback hop] at hcompare
    cases hcompare
  · exact fallback_not_obtainedByChunks hop hbits hcount hobtained

theorem fallback_excluded :
    ¬(opcode ∈ chunkedOpcodes ∨ isCompare opcode = true ∨ [dst, lhs, rhs].length ≠ 3) := by
  have hnot : ∀ op ∈ fallbackOpcodes, op ∉ chunkedOpcodes := by decide
  simp only [not_or, not_not]
  exact ⟨hnot opcode hop, Bool.eq_false_iff.mp (not_isCompare_of_fallback hop), rfl⟩

end

end Fallback

theorem binary_chunked_or_fallback : ∀ opcode ∈ [MirInstructionOpCode.ADD, .SUB, .MUL, .IMUL,
    .UMULH, .SMULH, .DIV, .UDIV, .IDIV, .SDIV, .REM, .AND, .OR, .XOR],
    opcode ∈ [.ADD, .SUB, .AND, .OR, .XOR] ∨ opcode ∈ fallbackOpcodes := by
  decide

theorem shift_fallback : ∀ opcode ∈ [MirInstructionOpCode.SHL, .SHR, .SAR],
    opcode ∈ fallbackOpcodes := by
  decide

/-! ## The exact condition -/

/-- Narrowing is exact for the opcodes with a sequence of their own or a bitwise meaning, for
comparisons, and where the action rejects the instruction for the number of its operands. -/
theorem narrowedExactly_iff (types : MirTypeTable) (inst : TypedInstruction) (operandSlot : ℕ)
    (narrowType : MirType) (count nextRegister : ℕ) (hbool : types.i1.totalSizeInBits = 1)
    (hbits : 0 < narrowType.totalSizeInBits) (hcount : 2 ≤ count)
    (hinst : IntegerInstruction 1 (count * narrowType.totalSizeInBits) inst)
    (hold : ∀ op ∈ inst.operands, Avoids (newFrom nextRegister) op) :
    NarrowedExactly types inst operandSlot narrowType count nextRegister ↔
      inst.opcode ∈ chunkedOpcodes ∨ isCompare inst.opcode = true ∨ inst.operands.length ≠ 3 := by
  have hpos : 0 < types.i1.totalSizeInBits := by rw [hbool]; exact one_pos
  cases hinst with
  | unary opcode desc dst src hop hdst hsrc =>
    refine iff_of_true ?_ (Or.inr (Or.inr nofun))
    simp only [mem_cons, not_mem_nil, or_false] at hop
    rcases hop with rfl | rfl | rfl
    · exact narrowedExactly_mov hbits hcount hdst hsrc
    · exact narrowedExactly_neg hpos hbits hcount hdst hsrc
    · exact narrowedExactly_not hbits hcount hdst hsrc
  | binary opcode desc dst lhs rhs hop hdst hlhs hrhs =>
    rcases binary_chunked_or_fallback opcode hop with hchunked | hfallback
    · have holdRhs : Avoids (newFrom nextRegister) rhs := hold rhs (by simp)
      simp only [mem_cons, not_mem_nil, or_false] at hchunked
      rcases hchunked with rfl | rfl | rfl | rfl | rfl
      · exact iff_of_true (narrowedExactly_add hpos hbits hcount hdst hlhs hrhs holdRhs)
          (Or.inl (show MirInstructionOpCode.ADD ∈ chunkedOpcodes by decide))
      · exact iff_of_true (narrowedExactly_sub hpos hbits hcount hdst hlhs hrhs holdRhs)
          (Or.inl (show MirInstructionOpCode.SUB ∈ chunkedOpcodes by decide))
      · exact iff_of_true (narrowedExactly_and hbits hcount hdst hlhs hrhs holdRhs)
          (Or.inl (show MirInstructionOpCode.AND ∈ chunkedOpcodes by decide))
      · exact iff_of_true (narrowedExactly_or hbits hcount hdst hlhs hrhs holdRhs)
          (Or.inl (show MirInstructionOpCode.OR ∈ chunkedOpcodes by decide))
      · exact iff_of_true (narrowedExactly_xor hbits hcount hdst hlhs hrhs holdRhs)
          (Or.inl (show MirInstructionOpCode.XOR ∈ chunkedOpcodes by decide))
    · exact iff_of_false (not_narrowedExactly_fallback hfallback hbits hcount hdst)
        (fallback_excluded hfallback)
  | shift opcode desc dst value amount hop hdst hvalue =>
    have hfallback : opcode ∈ fallbackOpcodes := shift_fallback opcode hop
    exact iff_of_false (not_narrowedExactly_fallback hfallback hbits hcount hdst)
      (fallback_excluded hfallback)
  | comparison opcode desc dst lhs rhs hop hdst hlhs hrhs =>
    exact iff_of_true (narrowedExactly_comparison hbool hbits hcount hdst hlhs hrhs
      (hold rhs (by simp)) hop) (Or.inr (Or.inl hop))
  | select desc dst cond lhs rhs =>
    exact iff_of_true (narrowedExactly_of_none (show isCompare .SELECT = false by decide)
      fun _ _ _ => rfl) (Or.inr (Or.inr nofun))
  | cast opcode desc dst src hop =>
    refine iff_of_true ?_ (Or.inr (Or.inr nofun))
    simp only [mem_cons, not_mem_nil, or_false] at hop
    rcases hop with rfl | rfl | rfl
    · exact narrowedExactly_of_none (show isCompare .TRUNC = false by decide) fun _ _ _ => rfl
    · exact narrowedExactly_of_none (show isCompare .ZEXT = false by decide) fun _ _ _ => rfl
    · exact narrowedExactly_of_none (show isCompare .SEXT = false by decide) fun _ _ _ => rfl
  | carry opcode desc sum carry lhs rhs hop =>
    refine iff_of_true ?_ (Or.inr (Or.inr nofun))
    simp only [mem_cons, not_mem_nil, or_false] at hop
    rcases hop with rfl | rfl
    · exact narrowedExactly_of_none (show isCompare .UADDO = false by decide) fun _ _ _ => rfl
    · exact narrowedExactly_of_none (show isCompare .USUBO = false by decide) fun _ _ _ => rfl
  | carryIn opcode desc sum carry lhs rhs carryIn hop =>
    refine iff_of_true ?_ (Or.inr (Or.inr nofun))
    simp only [mem_cons, not_mem_nil, or_false] at hop
    rcases hop with rfl | rfl
    · exact narrowedExactly_of_none (show isCompare .UADDE = false by decide) fun _ _ _ => rfl
    · exact narrowedExactly_of_none (show isCompare .USUBE = false by decide) fun _ _ _ => rfl

section Examples

def integerOf (bits : ℕ) : MirType := ⟨.Integer, bits, bits, 64, bits, MirType.wordAlignment⟩

/-- A table with the integers that carries need. -/
def integerTypes : MirTypeTable := ⟨fun _ => none, id, integerOf 64, integerOf 1⟩

/-- An instruction on three registers of 128 bits. -/
def wideInstruction (opcode : MirInstructionOpCode) : TypedInstruction :=
  ⟨opcode, none, [buildVReg 2 (integerOf 128), buildVReg 0 (integerOf 128),
    buildVReg 1 (integerOf 128)]⟩

theorem narrowedExactly_iff_wideAdd :
    NarrowedExactly integerTypes (wideInstruction .ADD) 0 (integerOf 64) 2 3 ↔
      (wideInstruction .ADD).opcode ∈ chunkedOpcodes ∨
        isCompare (wideInstruction .ADD).opcode = true ∨
          (wideInstruction .ADD).operands.length ≠ 3 := by
  refine narrowedExactly_iff integerTypes (wideInstruction .ADD) 0 (integerOf 64) 2 3 rfl
    (by decide) (by decide) (.binary _ _ _ _ _ (by decide) rfl rfl rfl) ?_
  intro op hop
  simp only [wideInstruction, mem_cons, not_mem_nil, or_false] at hop
  rcases hop with rfl | rfl | rfl <;>
    exact avoids_buildVReg fun h => absurd (newRegister_mem_newFrom.mp h) (by decide)

/-- The product of `2 ^ 64` and one: each chunk is multiplied by the chunk of its own place. -/
theorem wideMul_not_narrowedExactly :
    ¬NarrowedExactly integerTypes (wideInstruction .MUL) 0 (integerOf 64) 2 3 := by
  intro h
  let env : RegisterFile := fun r => if r = newRegister 0 then 2 ^ 64 else 1
  obtain ⟨env₂, hrun, hagree⟩ := (h _ rfl).1 env _ rfl
  obtain rfl := some.inj hrun
  have hresult := hagree (newRegister 2) fun hmem =>
    absurd (newRegister_mem_newFrom.mp hmem) (by decide)
  revert hresult
  decide

end Examples

end EzPacker.Legalizer
