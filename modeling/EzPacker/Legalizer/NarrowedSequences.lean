import EzPacker.Legalizer.NarrowScalar

/-!
# Narrowed sequences

The code for a carry chain, for bitwise operations and for comparisons leaves the value that
the wide instruction computes in the merged destination.
-/

namespace EzPacker.Legalizer

open Nat List Option Mir LegalizeNarrowScalar

/-! ## Statement -/

def Rewrite.code (rewrite : Rewrite) : List TypedInstruction :=
  rewrite.before ++ rewrite.target.toList ++ rewrite.after

/-- The code leaves all registers but the new ones as the instruction does. -/
def Simulates (n : ℕ) (code : List TypedInstruction) (inst : TypedInstruction) : Prop :=
  ∀ env env₁, exec env inst = some env₁ →
    ∃ env₂, run env code = some env₂ ∧ AgreesOff (newFrom n) env₁ env₂

/-- Each chunk of the result is the operation on the chunks of the sources. -/
def ObtainedByChunks (opcode : MirInstructionOpCode) (count bits : ℕ) : Prop :=
  (∃ srcs, (scalarValue opcode (count * bits) srcs).isSome ∧ ∀ src ∈ srcs, src.1 = count * bits) ∧
  ∀ (xs : List ℕ) (v : ℕ), (∀ x ∈ xs, x < 2 ^ (count * bits)) →
    scalarValue opcode (count * bits) (xs.map fun x => (count * bits, x)) = some v →
    ∀ k < count,
      scalarValue opcode bits (xs.map fun x => (bits, chunk bits k x)) = some (chunk bits k v)

/-- The instruction is rejected, or its code computes the same and applies the opcode itself to
chunks only to compare them or where the result is obtained so. -/
def NarrowedExactly (types : MirTypeTable) (inst : TypedInstruction) (operandSlot : ℕ)
    (narrowType : MirType) (count nextRegister : ℕ) : Prop :=
  ∀ rewrite, legalizeNarrowScalar types inst operandSlot narrowType nextRegister = some rewrite →
    Simulates nextRegister rewrite.code inst ∧
      ∀ emitted ∈ rewrite.before, emitted.opcode = inst.opcode → isCompare inst.opcode = true ∨
          ObtainedByChunks inst.opcode count narrowType.totalSizeInBits

/-- An instruction that computes an integer of `w` bits, or compares two of them. -/
inductive IntegerInstruction (boolBits w : ℕ) : TypedInstruction → Prop
  | unary (opcode desc dst src) (hop : opcode ∈ [.MOV, .NEG, .NOT]) (hdst : bitsOf dst = w)
      (hsrc : bitsOf src = w) : IntegerInstruction boolBits w ⟨opcode, desc, [dst, src]⟩
  | binary (opcode desc dst lhs rhs)
      (hop : opcode ∈ [.ADD, .SUB, .MUL, .IMUL, .UMULH, .SMULH, .DIV, .UDIV, .IDIV, .SDIV,
        .REM, .AND, .OR, .XOR])
      (hdst : bitsOf dst = w) (hlhs : bitsOf lhs = w) (hrhs : bitsOf rhs = w) :
      IntegerInstruction boolBits w ⟨opcode, desc, [dst, lhs, rhs]⟩
  | shift (opcode desc dst value amount) (hop : opcode ∈ [.SHL, .SHR, .SAR])
      (hdst : bitsOf dst = w) (hvalue : bitsOf value = w) :
      IntegerInstruction boolBits w ⟨opcode, desc, [dst, value, amount]⟩
  | comparison (opcode desc dst lhs rhs) (hop : isCompare opcode = true)
      (hdst : bitsOf dst = boolBits) (hlhs : bitsOf lhs = w) (hrhs : bitsOf rhs = w) :
      IntegerInstruction boolBits w ⟨opcode, desc, [dst, lhs, rhs]⟩
  | select (desc dst cond lhs rhs) :
      IntegerInstruction boolBits w ⟨.SELECT, desc, [dst, cond, lhs, rhs]⟩
  | cast (opcode desc dst src) (hop : opcode ∈ [.TRUNC, .ZEXT, .SEXT]) :
      IntegerInstruction boolBits w ⟨opcode, desc, [dst, src]⟩
  | carry (opcode desc sum carry lhs rhs) (hop : opcode ∈ [.UADDO, .USUBO]) :
      IntegerInstruction boolBits w ⟨opcode, desc, [sum, carry, lhs, rhs]⟩
  | carryIn (opcode desc sum carry lhs rhs carryIn) (hop : opcode ∈ [.UADDE, .USUBE]) :
      IntegerInstruction boolBits w ⟨opcode, desc, [sum, carry, lhs, rhs, carryIn]⟩

/-- The opcodes that are computed chunk by chunk, with a carry or without one. -/
def chunkedOpcodes : List MirInstructionOpCode :=
  [.ADD, .SUB, .NEG, .NOT, .MOV, .AND, .OR, .XOR]

/-! ## Execution of the wide instruction -/

variable {env : RegisterFile}

theorem read_some {op : TypedOperand} {x : ℕ} (h : read env op = some x) :
    IsScalar op ∧ x < 2 ^ bitsOf op := by
  unfold read at h
  cases hop : op.operand with
  | register r =>
    rw [hop] at h
    obtain rfl := some.inj h
    exact ⟨Or.inl ⟨r, hop⟩, Nat.mod_lt _ (Nat.two_pow_pos _)⟩
  | integer value =>
    rw [hop] at h
    obtain rfl := some.inj h
    refine ⟨Or.inr ⟨value, hop⟩, ?_⟩
    have hpos : (0 : ℤ) < 2 ^ bitsOf op := by positivity
    have hlt := Int.emod_lt_of_pos value hpos
    have hnonneg := Int.emod_nonneg value (Int.ne_of_gt hpos)
    zify
    rw [Int.toNat_of_nonneg hnonneg]
    exact hlt
  | _ =>
    rw [hop] at h
    cases h

/-- The opcodes that move chunks or carries. -/
def isChunkOp (opcode : MirInstructionOpCode) : Prop :=
  opcode ∈ [.UNMERGE_VALUES, .MERGE_VALUES, .UADDO, .UADDE, .USUBO, .USUBE]

instance : DecidablePred isChunkOp := fun _ => inferInstanceAs (Decidable (_ ∈ _))

variable {opcode : MirInstructionOpCode}

theorem exec_scalar (h : ¬isChunkOp opcode) (env : RegisterFile)
    (desc : Option MirTargetInstructionDesc) (dst : TypedOperand) (srcs : List TypedOperand) :
    exec env ⟨opcode, desc, dst :: srcs⟩ =
      (readAll env srcs).bind fun values =>
        (scalarValue opcode (bitsOf dst) values).bind fun value => write env dst value := by
  unfold exec
  split
  all_goals first
    | rfl
    | exact absurd (by simp_all [isChunkOp]) h

theorem exec_unary_some (h : ¬isChunkOp opcode)
    {env₁ : RegisterFile} {desc : Option MirTargetInstructionDesc} {dst src : TypedOperand}
    (hexec : exec env ⟨opcode, desc, [dst, src]⟩ = some env₁) :
    ∃ x value, read env src = some x ∧ x < 2 ^ bitsOf src ∧
      scalarValue opcode (bitsOf dst) [(bitsOf src, x)] = some value ∧
        write env dst value = some env₁ := by
  rw [exec_scalar h] at hexec
  simp only [readAll, bind_eq_some_iff, map_eq_some_iff, some.injEq] at hexec
  obtain ⟨values, ⟨x, hx, values', rfl, rfl⟩, value, hvalue, hwrite⟩ := hexec
  exact ⟨x, value, hx, (read_some hx).2, hvalue, hwrite⟩

theorem exec_binary_some (h : ¬isChunkOp opcode)
    {env₁ : RegisterFile} {desc : Option MirTargetInstructionDesc}
    {dst lhs rhs : TypedOperand} (hexec : exec env ⟨opcode, desc, [dst, lhs, rhs]⟩ = some env₁) :
    ∃ x y value, read env lhs = some x ∧ read env rhs = some y ∧
      scalarValue opcode (bitsOf dst) [(bitsOf lhs, x), (bitsOf rhs, y)] = some value ∧
        write env dst value = some env₁ := by
  rw [exec_scalar h] at hexec
  simp only [readAll, bind_eq_some_iff, map_eq_some_iff, some.injEq] at hexec
  obtain ⟨values, ⟨x, hx, values', ⟨y, hy, values'', rfl, rfl⟩, rfl⟩, value, hvalue, hwrite⟩ :=
    hexec
  exact ⟨x, y, value, hx, hy, hvalue, hwrite⟩

/-! ## The emitted code -/

section Emitted

variable {types : MirTypeTable} {inst : TypedInstruction} {operandSlot : ℕ} {narrowType : MirType}
  {nextRegister : ℕ} {rewrite : Rewrite}

theorem wideOperand_some {narrowBits : ℕ} {op : TypedOperand}
    (h : wideOperand inst operandSlot narrowBits = some op) :
    op ∈ inst.operands ∧ narrowBits < bitsOf op := by
  have hwide {op : TypedOperand} (h : ((op.mirType.map fun type =>
      decide (type.totalSizeInBits > narrowBits)).getD false) = true) : narrowBits < bitsOf op := by
    unfold bitsOf
    cases htype : op.mirType with
    | none =>
      rw [htype] at h
      cases h
    | some type =>
      rw [htype] at h
      exact of_decide_eq_true h
  unfold wideOperand at h
  dsimp only at h
  split at h
  next op' hslot =>
    obtain rfl := some.inj h
    obtain ⟨hget, hbits⟩ := filter_eq_some_iff.mp hslot
    exact ⟨mem_of_getElem? hget, hwide hbits⟩
  next =>
    have hfound := find?_some h
    exact ⟨mem_of_find?_eq_some h, hwide hfound⟩

theorem legalizeNarrowScalar_some
    (h : legalizeNarrowScalar types inst operandSlot narrowType nextRegister = some rewrite) :
    rewrite = .notModified inst nextRegister ∨
      ∃ dst srcs wideOp, inst.operands = dst :: srcs ∧ wideOp ∈ inst.operands ∧
        narrowType.totalSizeInBits < bitsOf wideOp ∧
        (let count := max 2 (bitsOf wideOp / narrowType.totalSizeInBits)
         if isCompare inst.opcode then
          narrowCompare inst dst count narrowType.totalSizeInBits narrowType types.i1
            nextRegister = some rewrite
         else ∃ code n, narrowChunks inst
            ((range count).map fun k => buildVReg (nextRegister + k) narrowType) count
            narrowType.totalSizeInBits narrowType types.i1 (nextRegister + count) = some (code, n) ∧
            rewrite = ⟨code ++ [build .MERGE_VALUES (dst ::
              (range count).map fun k => buildVReg (nextRegister + k) narrowType)],
                none, [], n⟩) := by
  unfold legalizeNarrowScalar at h
  split at h
  next => exact Or.inl (some.inj h).symm
  next dst srcs hops =>
    dsimp only at h
    split at h
    next => exact Or.inl (some.inj h).symm
    next hbits =>
      split at h
      next => exact Or.inl (some.inj h).symm
      next wideOp hwide =>
        obtain ⟨hmem, hlt⟩ := wideOperand_some hwide
        refine Or.inr ⟨dst, srcs, wideOp, hops, hmem, hlt, ?_⟩
        dsimp only
        split at h
        next hcompare => rw [if_pos hcompare]; exact h
        next hcompare =>
          rw [if_neg hcompare]
          split at h
          next => cases h
          next code n hcode => exact ⟨code, n, hcode, (some.inj h).symm⟩

end Emitted

/-! ## The sequences compute the wide result -/

section Sequences

variable {type : MirType} {lhs rhs src dst : TypedOperand} {count n x y : ℕ}
  {env env₁ : RegisterFile}

theorem dstNumbers (n count : ℕ) : ((range count).map (n + ·)).Nodup ∧
      (∀ d ∈ (range count).map (n + ·), n ≤ d ∧ d < n + count) ∧
      ((range count).map (n + ·)).length = count := by
  refine ⟨Nodup.map (fun _ _ h => add_left_cancel h) nodup_range, ?_, by simp⟩
  intro d hd
  obtain ⟨k, hk, rfl⟩ := mem_map.mp hd
  exact ⟨Nat.le_add_right n k, Nat.add_lt_add_left (mem_range.mp hk) n⟩

/-- The destinations of the chunks. -/
def dstChunks (type : MirType) (n count : ℕ) : List TypedOperand :=
  (range count).map fun k => buildVReg (n + k) type

theorem dstChunks_eq (type : MirType) (n count : ℕ) :
    dstChunks type n count = ((range count).map (n + ·)).map fun d => buildVReg d type := by
  unfold dstChunks
  rw [List.map_map]
  rfl

theorem length_dstChunks (type : MirType) (n count : ℕ) :
    (dstChunks type n count).length = count := by
  simp [dstChunks]

variable {opcode : MirInstructionOpCode} {desc : Option MirTargetInstructionDesc}

variable {carryType : MirType}

/-- The digits of the operands make up the value. -/
def HasDigits (opcode : MirInstructionOpCode) (b count : ℕ) (digits : ℕ → ℕ → List ℕ) : Prop :=
  ∀ x y v, x < 2 ^ (count * b) → y < 2 ^ (count * b) →
    scalarValue opcode (count * b) [(count * b, x), (count * b, y)] = some v →
      Nat.ofDigits (2 ^ b) (digits x y) = v

/-- The digits of the only operand make up the value. -/
def HasUnaryDigits (opcode : MirInstructionOpCode) (b count : ℕ) (digits : ℕ → List ℕ) : Prop :=
  ∀ x v, x < 2 ^ (count * b) → scalarValue opcode (count * b) [(count * b, x)] = some v →
    Nat.ofDigits (2 ^ b) (digits x) = v

section Wide

variable (hop : ¬isChunkOp opcode) (hdbits : bitsOf dst = count * type.totalSizeInBits)
  (hlbits : bitsOf lhs = count * type.totalSizeInBits)
  (hrbits : bitsOf rhs = count * type.totalSizeInBits) (hold : Avoids (newFrom n) rhs)
include hop hdbits hlbits hrbits hold

/-- Code over the chunks that leaves the digits of the value in the destinations, behind the code
that splits both operands. -/
theorem splitMerged_simulates (digits : ℕ → ℕ → List ℕ)
    (mid : List (TypedOperand × TypedOperand × TypedOperand) → ℕ → List TypedInstruction)
    (hvalue : HasDigits opcode type.totalSizeInBits count digits)
    (hmid : ∀ (x y : ℕ) (env' : RegisterFile) (ps : List (TypedOperand × TypedOperand)) (k : ℕ),
      n + count ≤ k → ps.length = count →
      Forall₂ (fun t p => ReadsChunk env' type.totalSizeInBits (n + count) k t.1 p.1 ∧
          ReadsChunk env' type.totalSizeInBits (n + count) k t.2 p.2) ps
        ((chunks type.totalSizeInBits count x).zip (chunks type.totalSizeInBits count y)) →
      ∃ env'', run env' (mid ((dstChunks type n count).zip ps) k) = some env'' ∧
        AgreesOff (newFrom n) env' env'' ∧
        Forall₂ (fun d v => env'' (newRegister d) = v ∧ v < 2 ^ type.totalSizeInBits)
          ((range count).map (n + ·)) (digits x y)) :
    let l := splitOperand lhs count type.totalSizeInBits type (n + count)
    let r := splitOperand rhs count type.totalSizeInBits type l.2.2
    Simulates n (l.2.1 ++ r.2.1 ++ mid ((dstChunks type n count).zip (l.1.zip r.1)) r.2.2 ++
      [build .MERGE_VALUES (dst :: dstChunks type n count)]) ⟨opcode, desc, [dst, lhs, rhs]⟩ := by
  intro l r env env₁ hexec
  obtain ⟨x, y, v, hx, hy, hv, hwrite⟩ := exec_binary_some hop hexec
  rw [hdbits, hlbits, hrbits] at hv
  rw [← hvalue x y v (hlbits ▸ (read_some hx).2) (hrbits ▸ (read_some hy).2) hv] at hwrite
  obtain ⟨env', ls, rs, el, er, hle, hls, hrs, hll, hrl, hrun, hagree, hreads⟩ :=
    run_splitBoth (m := n + count) (read_some hx).1 hlbits (read_some hy).1 hrbits
      (hold.mono (newFrom_mono (le_add_right n count))) hx hy
  have hzip : (dstChunks type n count).zip (l.1.zip r.1) =
      (dstChunks type n count).zip (ls.zip rs) := by
    rw [hls, hrs]
    exact zip_zip_append (hll.trans (length_dstChunks type n count).symm)
      (hrl.trans (length_dstChunks type n count).symm)
  obtain ⟨env'', hrun', hagree', hvalues⟩ := hmid x y env' (ls.zip rs) r.2.2 hle
    (by rw [length_zip, hll, hrl, min_self]) hreads
  rw [hzip, dstChunks_eq] at *
  refine run_merged ?_ ((hagree.mono (newFrom_mono (le_add_right n count))).trans hagree')
    hvalues hwrite
  rw [run_append, hrun, bind_some]
  exact hrun'

theorem chain_simulates {firstOp nextOp : MirInstructionOpCode} {digit : ℕ → ℕ → ℕ → ℕ × ℕ}
    (hops : DigitOps type.totalSizeInBits digit firstOp nextOp)
    (hcarry : 0 < carryType.totalSizeInBits)
    (hvalue : HasDigits opcode type.totalSizeInBits count fun x y => (chain digit
      ((chunks type.totalSizeInBits count x).zip (chunks type.totalSizeInBits count y)) 0).1) :
    let l := splitOperand lhs count type.totalSizeInBits type (n + count)
    let r := splitOperand rhs count type.totalSizeInBits type l.2.2
    Simulates n (l.2.1 ++ r.2.1 ++ (carryChain firstOp nextOp carryType
        ((dstChunks type n count).zip (l.1.zip r.1)) none r.2.2).1 ++
      [build .MERGE_VALUES (dst :: dstChunks type n count)]) ⟨opcode, desc, [dst, lhs, rhs]⟩ := by
  obtain ⟨hnodup, hrange, hlen⟩ := dstNumbers n count
  refine splitMerged_simulates hop hdbits hlbits hrbits hold _
    (fun ts k => (carryChain firstOp nextOp carryType ts none k).1) hvalue ?_
  intro x y env' ps k hk hps hreads
  rw [dstChunks_eq]
  exact run_narrowChain hnodup hrange (le_add_right n count) hk hops hcarry
    (hps.trans hlen.symm) hreads

theorem pairs_simulates {f : ℕ → ℕ → ℕ}
    (hexec : ∀ (env : RegisterFile) (dst lhs rhs : TypedOperand) (x y : ℕ),
      bitsOf dst = type.totalSizeInBits → bitsOf lhs = type.totalSizeInBits →
      bitsOf rhs = type.totalSizeInBits → x < 2 ^ type.totalSizeInBits →
      y < 2 ^ type.totalSizeInBits → read env lhs = some x → read env rhs = some y →
      exec env (build opcode [dst, lhs, rhs]) = write env dst (f x y) ∧
        f x y < 2 ^ type.totalSizeInBits)
    (hvalue : HasDigits opcode type.totalSizeInBits count fun x y => ((chunks type.totalSizeInBits
      count x).zip (chunks type.totalSizeInBits count y)).map fun p => f p.1 p.2) :
    let l := splitOperand lhs count type.totalSizeInBits type (n + count)
    let r := splitOperand rhs count type.totalSizeInBits type l.2.2
    Simulates n (l.2.1 ++ r.2.1 ++ ((dstChunks type n count).zip (l.1.zip r.1)).map (fun p =>
        build opcode [p.1, p.2.1, p.2.2]) ++
      [build .MERGE_VALUES (dst :: dstChunks type n count)]) ⟨opcode, desc, [dst, lhs, rhs]⟩ := by
  obtain ⟨hnodup, hrange, hlen⟩ := dstNumbers n count
  refine splitMerged_simulates hop hdbits hlbits hrbits hold _
    (fun ts _ => ts.map fun p => build opcode [p.1, p.2.1, p.2.2]) hvalue ?_
  intro x y env' ps k hk hps hreads
  rw [dstChunks_eq]
  exact run_narrowPairs hnodup hrange (le_add_right n count) hk hexec (hps.trans hlen.symm) hreads

end Wide

theorem zip_append_of_length {α β : Type} {ds : List α} {ss es : List β}
    (h : ss.length = ds.length) : ds.zip (ss ++ es) = ds.zip ss := by
  conv_lhs => rw [← append_nil ds]
  rw [zip_append h.symm]
  simp

section WideSource

variable (hop : ¬isChunkOp opcode) (hdbits : bitsOf dst = count * type.totalSizeInBits)
  (hsbits : bitsOf src = count * type.totalSizeInBits)
include hop hdbits hsbits

theorem splitMergedOne_simulates (digits : ℕ → List ℕ)
    (mid : List TypedOperand → ℕ → List TypedInstruction)
    (hmid : ∀ ss es k, ss.length = count → mid (ss ++ es) k = mid ss k)
    (hvalue : HasUnaryDigits opcode type.totalSizeInBits count digits)
    (hrun : ∀ (x : ℕ) (env' : RegisterFile) (ss : List TypedOperand) (k : ℕ),
      n + count ≤ k → ss.length = count →
      Forall₂ (ReadsChunk env' type.totalSizeInBits (n + count) k) ss
        (chunks type.totalSizeInBits count x) →
      ∃ env'', run env' (mid ss k) = some env'' ∧ AgreesOff (newFrom n) env' env'' ∧
        Forall₂ (fun d v => env'' (newRegister d) = v ∧ v < 2 ^ type.totalSizeInBits)
          ((range count).map (n + ·)) (digits x)) :
    let s := splitOperand src count type.totalSizeInBits type (n + count)
    Simulates n (s.2.1 ++ mid s.1 s.2.2 ++ [build .MERGE_VALUES (dst :: dstChunks type n count)])
      ⟨opcode, desc, [dst, src]⟩ := by
  intro s env env₁ hexec
  obtain ⟨x, v, hx, hxlt, hv, hwrite⟩ := exec_unary_some hop hexec
  rw [hdbits, hsbits] at hv
  rw [← hvalue x v (hsbits ▸ hxlt) hv] at hwrite
  obtain ⟨env', ss, es, hle, hss, hsplit, hagree, hreads⟩ :=
    run_splitOperand (m := n + count) (read_some hx).1 hsbits hx
  have hlen : ss.length = count := hreads.length_eq.trans (length_chunks count x)
  obtain ⟨env'', hrun', hagree', hvalues⟩ := hrun x env' ss s.2.2 hle hlen hreads
  have hagree₁ : AgreesOff (newFrom n) env env' :=
    (hagree.mono newBetween_subset).mono (newFrom_mono (le_add_right n count))
  rw [dstChunks_eq, hss, hmid ss es _ hlen]
  refine run_merged ?_ (hagree₁.trans hagree') hvalues hwrite
  rw [run_append, hsplit, bind_some]
  exact hrun'

theorem negChain_simulates (hcarry : 0 < carryType.totalSizeInBits)
    (hvalue : HasUnaryDigits opcode type.totalSizeInBits count fun x => (chain
      (subDigit type.totalSizeInBits) ((chunks type.totalSizeInBits count x).map (0, ·)) 0).1) :
    let s := splitOperand src count type.totalSizeInBits type (n + count)
    Simulates n (s.2.1 ++ (carryChain .USUBO .USUBE carryType ((dstChunks type n count).zip
        (s.1.map fun c => (⟨.integer 0, some type⟩, c))) none s.2.2).1 ++
      [build .MERGE_VALUES (dst :: dstChunks type n count)]) ⟨opcode, desc, [dst, src]⟩ := by
  obtain ⟨hnodup, hrange, hlen⟩ := dstNumbers n count
  refine splitMergedOne_simulates hop hdbits hsbits _ (fun ss k => (carryChain .USUBO .USUBE
    carryType ((dstChunks type n count).zip (ss.map fun c => (⟨.integer 0, some type⟩, c)))
      none k).1) (fun ss es k hss => ?_) hvalue fun x env' ss k hk hss hreads => ?_
  · rw [map_append, zip_append_of_length
      ((length_map _).trans (hss.trans (length_dstChunks type n count).symm))]
  · rw [dstChunks_eq]
    refine run_narrowChain hnodup hrange (le_add_right n count) hk
      (subDigitOps type.totalSizeInBits) hcarry
      ((length_map _).trans (hss.trans hlen.symm)) ?_
    rw [forall₂_map_left_iff, forall₂_map_right_iff]
    refine hreads.imp fun c v h => ⟨⟨rfl, ?_, Nat.two_pow_pos _, fun r hr => ?_⟩, h⟩
    · simp [read]
    · exact MirOperand.noConfusion hr

theorem sources_simulates {f : ℕ → ℕ}
    (hexec : ∀ (env : RegisterFile) (dst src : TypedOperand) (x : ℕ),
      bitsOf dst = type.totalSizeInBits → bitsOf src = type.totalSizeInBits →
      x < 2 ^ type.totalSizeInBits → read env src = some x →
      exec env (build opcode [dst, src]) = write env dst (f x) ∧ f x < 2 ^ type.totalSizeInBits)
    (hvalue : HasUnaryDigits opcode type.totalSizeInBits count fun x =>
      (chunks type.totalSizeInBits count x).map f) :
    let s := splitOperand src count type.totalSizeInBits type (n + count)
    Simulates n (s.2.1 ++ ((dstChunks type n count).zip s.1).map (fun p =>
        build opcode [p.1, p.2]) ++
      [build .MERGE_VALUES (dst :: dstChunks type n count)]) ⟨opcode, desc, [dst, src]⟩ := by
  obtain ⟨hnodup, hrange, hlen⟩ := dstNumbers n count
  refine splitMergedOne_simulates hop hdbits hsbits _
    (fun ss _ => ((dstChunks type n count).zip ss).map fun p => build opcode [p.1, p.2])
    (fun ss es k hss => ?_) hvalue fun x env' ss k hk hss hreads => ?_
  · rw [zip_append_of_length (hss.trans (length_dstChunks type n count).symm)]
  · rw [dstChunks_eq]
    exact run_narrowSources hnodup hrange (le_add_right n count) hk hexec
      (hss.trans hlen.symm) hreads

end WideSource

/-! ## Comparisons -/

theorem compare_simulates {combineOp : MirInstructionOpCode} {cmp : ℕ → ℕ → Bool}
    {combine : Bool → Bool → Bool}
    (hops : CompareOps type.totalSizeInBits carryType.totalSizeInBits cmp combine opcode combineOp)
    (hop : ¬isChunkOp opcode) (hbool : 0 < carryType.totalSizeInBits) (hcount : 0 < count)
    (hdbits : bitsOf dst = carryType.totalSizeInBits)
    (hlbits : bitsOf lhs = count * type.totalSizeInBits)
    (hrbits : bitsOf rhs = count * type.totalSizeInBits) (hold : Avoids (newFrom n) rhs) (hvalue : ∀
      x y v p ps, x < 2 ^ (count * type.totalSizeInBits) → y < 2 ^ (count * type.totalSizeInBits) →
      scalarValue opcode carryType.totalSizeInBits [(count * type.totalSizeInBits, x), (count *
      type.totalSizeInBits, y)] = some v → (chunks type.totalSizeInBits count x).zip (chunks
      type.totalSizeInBits count y) = p :: ps → (ps.foldl (fun acc v => combine acc (cmp v.1 v.2))
      (cmp p.1 p.2)).toNat = v) : let l := splitOperand lhs count type.totalSizeInBits type n
    let r := splitOperand rhs count type.totalSizeInBits type l.2.2
    let c := compareChunks opcode combineOp carryType ((l.1.zip r.1).take count) none r.2.2
    Simulates n (l.2.1 ++ r.2.1 ++ c.1 ++ [build .MOV (dst :: c.2.1.toList)])
      ⟨opcode, desc, [dst, lhs, rhs]⟩ := by
  intro l r c env env₁ hrunWide
  obtain ⟨x, y, v, hx, hy, hv, hwrite⟩ := exec_binary_some hop hrunWide
  have hxlt := (read_some hx).2
  have hylt := (read_some hy).2
  rw [hlbits] at hxlt
  rw [hrbits] at hylt
  rw [hdbits, hlbits, hrbits] at hv
  obtain ⟨env', ls, rs, el, er, hle, hls, hrs, hll, hrl, hrun, hagree, hreads⟩ :=
    run_splitBoth (m := n) (read_some hx).1 hlbits (read_some hy).1 hrbits hold hx hy
  have htake : (l.1.zip r.1).take count = ls.zip rs := by
    rw [hls, hrs, zip_append (hll.trans hrl.symm)]
    exact take_left' (by rw [length_zip, hll, hrl, min_self])
  obtain ⟨p, ps, hps⟩ : ∃ p ps, (chunks type.totalSizeInBits count x).zip
      (chunks type.totalSizeInBits count y) = p :: ps := by
    refine exists_cons_of_ne_nil fun hnil => ?_
    have := congrArg length hnil
    rw [length_zip, length_chunks, length_chunks, min_self] at this
    exact ne_of_gt hcount this
  rw [hps] at hreads
  obtain ⟨t, ts, hts⟩ : ∃ t ts, ls.zip rs = t :: ts := by
    cases hzip : ls.zip rs with
    | nil =>
      rw [hzip] at hreads
      cases hreads
    | cons t ts => exact ⟨t, ts, rfl⟩
  rw [hts] at hreads
  have hsub : newFrom r.2.2 ⊆ newOutside n r.2.2 := by
    rintro s ⟨k, hk, rfl⟩
    exact ⟨k, Or.inr hk, rfl⟩
  have havoid : ∀ s ∈ t :: ts, Avoids (newFrom r.2.2) s.1 ∧ Avoids (newFrom r.2.2) s.2 :=
    forall_of_forall₂ hreads fun s v h => ⟨h.1.avoids.mono hsub, h.2.avoids.mono hsub⟩
  obtain ⟨env'', last, hlast, hrun', hagree', hresult⟩ :=
    run_compareChunks hops hbool t ts p ps env' r.2.2 havoid
      (hreads.imp fun s v h => ⟨h.1.width, h.2.width, h.1.bound, h.2.bound, h.1.reads, h.2.reads⟩)
  rw [hvalue x y v p ps hxlt hylt hv hps] at hresult
  have hvlt : v < 2 ^ carryType.totalSizeInBits := by
    rw [← hvalue x y v p ps hxlt hylt hv hps]
    exact toNat_lt_two_pow hbool _
  have hc : c = compareChunks opcode combineOp carryType (t :: ts) none r.2.2 := by
    rw [← hts, ← htake]
  obtain ⟨env₂, hwrite₂, hagree₂⟩ :=
    write_agreesOff (hagree.trans (hagree'.mono (newFrom_mono hle))) hwrite
  refine ⟨env₂, ?_, hagree₂⟩
  have hmov : exec env'' (build .MOV [dst, buildVReg last carryType]) = some env₂ := by
    have hnot : ¬isChunkOp MirInstructionOpCode.MOV := by decide
    unfold build
    rw [exec_scalar hnot]
    simp only [readAll, read_buildVReg hvlt hresult, bitsOf_buildVReg, bind_some,
      map_some, hdbits, scalarValue_mov hvlt, hwrite₂]
  rw [run_append, run_append, hrun, bind_some, hc, hrun', bind_some, hlast, toList_some, run, hmov]
  rfl

end Sequences

end EzPacker.Legalizer
