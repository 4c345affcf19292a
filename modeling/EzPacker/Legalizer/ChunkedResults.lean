import EzPacker.Legalizer.NarrowedSequences

/-!
# Results obtained chunk by chunk

Moves and bitwise operations act on each chunk alone. Products, quotients and shifts do not: a
chunk of theirs depends on the other chunks of the sources.
-/

namespace EzPacker.Legalizer

open Nat Option List Mir

variable {opcode : MirInstructionOpCode} {count bits : ℕ}

/-- An operation with one source that acts on each chunk alone. -/
theorem obtainedByChunks_of_unary {op : ℕ → ℕ → ℕ}
    (hshape : ∀ dstBits srcs v, scalarValue opcode dstBits srcs = some v → ∃ src, srcs = [src])
    (hvalue : ∀ w x, x < 2 ^ w → scalarValue opcode w [(w, x)] = some (op w x))
    (hchunk : ∀ k < count, ∀ x < 2 ^ (count * bits),
      chunk bits k (op (count * bits) x) = op bits (chunk bits k x)) :
    ObtainedByChunks opcode count bits := by
  refine ⟨⟨[(count * bits, 0)], ?_, by simp⟩, ?_⟩
  · rw [hvalue _ _ (Nat.two_pow_pos _)]
    rfl
  · intro xs v hxs hv k hk
    obtain ⟨src, hsrc⟩ := hshape _ _ _ hv
    obtain ⟨x, rfl, rfl⟩ := map_eq_singleton_iff.mp hsrc
    have hx := hxs x mem_cons_self
    rw [map_cons, map_nil, hvalue _ _ hx] at hv
    obtain rfl := some.inj hv
    rw [map_cons, map_nil, hvalue _ _ (chunk_lt k x), hchunk k hk x hx]

/-- An operation with two sources that acts on each pair of chunks alone. -/
theorem obtainedByChunks_of_binary {op : ℕ → ℕ → ℕ}
    (hshape : ∀ dstBits srcs v, scalarValue opcode dstBits srcs = some v →
      ∃ lhs rhs, srcs = [lhs, rhs])
    (hvalue : ∀ w x y, x < 2 ^ w → y < 2 ^ w →
      scalarValue opcode w [(w, x), (w, y)] = some (op x y))
    (hchunk : ∀ k x y, chunk bits k (op x y) = op (chunk bits k x) (chunk bits k y)) :
    ObtainedByChunks opcode count bits := by
  refine ⟨⟨[(count * bits, 0), (count * bits, 0)], ?_, by simp⟩, ?_⟩
  · rw [hvalue _ _ _ (Nat.two_pow_pos _) (Nat.two_pow_pos _)]
    rfl
  · intro xs v hxs hv k hk
    obtain ⟨lhs, rhs, hsrcs⟩ := hshape _ _ _ hv
    obtain ⟨x, ys, rfl, rfl, hys⟩ := map_eq_cons_iff.mp hsrcs
    obtain ⟨y, rfl, rfl⟩ := map_eq_singleton_iff.mp hys
    have hx := hxs x mem_cons_self
    have hy := hxs y (mem_cons_of_mem _ mem_cons_self)
    simp only [map_cons, map_nil] at hv ⊢
    rw [hvalue _ _ _ hx hy] at hv
    obtain rfl := some.inj hv
    rw [hvalue _ _ _ (chunk_lt k x) (chunk_lt k y), hchunk]

theorem scalarValue_unary_shape (hop : opcode ∈ [.MOV, .NOT]) {dstBits : ℕ}
    {srcs : List (ℕ × ℕ)} {v : ℕ} (h : scalarValue opcode dstBits srcs = some v) :
    ∃ src, srcs = [src] := by
  simp only [mem_cons, not_mem_nil, or_false] at hop
  rcases srcs with _ | ⟨a, _ | ⟨b, _ | ⟨c, _ | ⟨d, rest⟩⟩⟩⟩
  · cases h
  · exact ⟨a, rfl⟩
  · rcases hop with rfl | rfl <;> simp [scalarValue, binary, arithmetic] at h
  · rcases hop with rfl | rfl <;> simp [scalarValue] at h
  · cases h

theorem scalarValue_binary_shape (hop : opcode ∈ [.AND, .OR, .XOR]) {dstBits : ℕ}
    {srcs : List (ℕ × ℕ)} {v : ℕ} (h : scalarValue opcode dstBits srcs = some v) :
    ∃ lhs rhs, srcs = [lhs, rhs] := by
  simp only [mem_cons, not_mem_nil, or_false] at hop
  rcases srcs with _ | ⟨a, _ | ⟨b, _ | ⟨c, _ | ⟨d, rest⟩⟩⟩⟩
  · cases h
  · rcases hop with rfl | rfl | rfl <;> simp [scalarValue, unary] at h
  · exact ⟨a, b, rfl⟩
  · rcases hop with rfl | rfl | rfl <;> simp [scalarValue] at h
  · cases h

theorem obtainedByChunks_mov : ObtainedByChunks .MOV count bits :=
  obtainedByChunks_of_unary (fun _ _ _ => scalarValue_unary_shape (by decide))
    (fun _ _ => scalarValue_mov) (fun _ _ _ _ => rfl)

theorem obtainedByChunks_not : ObtainedByChunks .NOT count bits :=
  obtainedByChunks_of_unary (fun _ _ _ => scalarValue_unary_shape (by decide))
    (fun _ _ => scalarValue_not) (fun _ hk _ hx => chunk_complement hk hx)

theorem obtainedByChunks_and : ObtainedByChunks .AND count bits :=
  obtainedByChunks_of_binary (fun _ _ _ => scalarValue_binary_shape (by decide))
    (fun _ _ _ => scalarValue_and) chunk_and

theorem obtainedByChunks_or : ObtainedByChunks .OR count bits :=
  obtainedByChunks_of_binary (fun _ _ _ => scalarValue_binary_shape (by decide))
    (fun _ _ _ => scalarValue_or) chunk_or

theorem obtainedByChunks_xor : ObtainedByChunks .XOR count bits :=
  obtainedByChunks_of_binary (fun _ _ _ => scalarValue_binary_shape (by decide))
    (fun _ _ _ => scalarValue_xor) chunk_xor

/-! ## Opcodes whose chunks depend on other chunks -/

theorem not_obtainedByChunks (xs : List ℕ) (v k : ℕ) (hxs : ∀ x ∈ xs, x < 2 ^ (count * bits))
    (hv : scalarValue opcode (count * bits) (xs.map fun x => (count * bits, x)) = some v)
    (hk : k < count)
    (hne : scalarValue opcode bits (xs.map fun x => (bits, chunk bits k x)) ≠
      some (chunk bits k v)) : ¬ObtainedByChunks opcode count bits :=
  fun h => hne (h.2 xs v hxs hv k hk)

section Dependent

variable (hbits : 0 < bits) (hcount : 2 ≤ count)
include hbits hcount

omit hbits in
theorem two_mul_bits_le (bits : ℕ) : bits + bits ≤ count * bits := by
  rw [← two_mul]
  exact mul_le_mul_right bits hcount

theorem two_pow_bits_lt : 2 ^ bits < 2 ^ (count * bits) :=
  Nat.pow_lt_pow_right Nat.one_lt_two (by have := two_mul_bits_le hcount bits; omega)

theorem one_lt_two_pow_wide : 1 < 2 ^ (count * bits) :=
  Nat.lt_of_le_of_lt (Nat.one_le_two_pow) (two_pow_bits_lt hbits hcount)

omit hcount in
theorem chunk_one_one : chunk bits 1 1 = 0 := by
  unfold chunk
  rw [Nat.one_mul, Nat.div_eq_of_lt (Nat.one_lt_two_pow (Nat.ne_of_gt hbits)), Nat.zero_mod]

omit hcount in
theorem chunk_one_pow : chunk bits 1 (2 ^ bits) = 1 := by
  unfold chunk
  rw [Nat.one_mul, Nat.div_self (Nat.two_pow_pos bits),
    Nat.mod_eq_of_lt (Nat.one_lt_two_pow (Nat.ne_of_gt hbits))]

omit hbits hcount in
theorem chunk_zero_pow {m : ℕ} (h : bits ≤ m) : chunk bits 0 (2 ^ m) = 0 := by
  unfold chunk
  rw [Nat.zero_mul, pow_zero, Nat.div_one]
  exact mod_eq_zero_of_dvd (pow_dvd_pow 2 h)

theorem product_not_obtainedByChunks (hop : opcode ∈ [.MUL, .IMUL]) :
    ¬ObtainedByChunks opcode count bits := by
  have hlt := two_pow_bits_lt hbits hcount
  have hone := one_lt_two_pow_wide hbits hcount
  have hvalue : ∀ w x y, scalarValue opcode w [(w, x), (w, y)] = some (x * y % 2 ^ w) := by
    simp only [mem_cons, not_mem_nil, or_false] at hop
    rcases hop with rfl | rfl <;> simp [scalarValue, binary, arithmetic]
  refine not_obtainedByChunks [2 ^ bits, 1] (2 ^ bits) 1 (by simp [hlt, hone]) ?_ hcount ?_
  · rw [map_cons, map_cons, map_nil, hvalue, mul_one, mod_eq_of_lt hlt]
  · rw [map_cons, map_cons, map_nil, hvalue, chunk_one_one hbits, chunk_one_pow hbits]
    simp

theorem quotient_not_obtainedByChunks (hop : opcode ∈ [.DIV, .UDIV, .IDIV, .SDIV, .REM]) :
    ¬ObtainedByChunks opcode count bits := by
  have hone := one_lt_two_pow_wide hbits hcount
  have hne : BitVec.ofNat (count * bits) 1 ≠ 0 := by
    intro h
    have := congrArg BitVec.toNat h
    rw [BitVec.toNat_ofNat, mod_eq_of_lt hone] at this
    exact absurd this (by simp)
  obtain ⟨v, hv⟩ : ∃ v, scalarValue opcode (count * bits)
      [(count * bits, 1), (count * bits, 1)] = some v := by
    simp only [mem_cons, not_mem_nil, or_false] at hop
    rcases hop with rfl | rfl | rfl | rfl | rfl <;>
      simp only [scalarValue, binary, arithmetic, and_self, if_true, if_neg hne,
        map_some, some.injEq, exists_eq']
  -- The chunks above the lowest one divide zero by zero.
  have hnone : scalarValue opcode bits [(bits, 0), (bits, 0)] = none := by
    simp only [mem_cons, not_mem_nil, or_false] at hop
    rcases hop with rfl | rfl | rfl | rfl | rfl <;> simp [scalarValue, binary, arithmetic]
  refine not_obtainedByChunks [1, 1] v 1 (by simp [hone]) hv hcount ?_
  rw [map_cons, map_cons, map_nil, chunk_one_one hbits, hnone]
  exact nofun

theorem highProduct_not_obtainedByChunks : ¬ObtainedByChunks .UMULH count bits := by
  have hle := two_mul_bits_le hcount bits
  have hlt := two_pow_bits_lt hbits hcount
  have hpred : (count - 1) * bits + bits = count * bits := by
    rw [← Nat.succ_mul, Nat.succ_eq_add_one, Nat.sub_add_cancel (by omega)]
  have hhigh : 2 ^ ((count - 1) * bits) < 2 ^ (count * bits) :=
    Nat.pow_lt_pow_right Nat.one_lt_two (by omega)
  have hbelow : bits ≤ (count - 1) * bits := by omega
  refine not_obtainedByChunks [2 ^ ((count - 1) * bits), 2 ^ bits] 1 0
    (by simp [hlt, hhigh]) ?_ (by omega) ?_
  · have hproduct : 2 ^ ((count - 1) * bits) * 2 ^ bits = 2 ^ (count * bits) := by
      rw [← pow_add, hpred]
    have hwide : 2 ^ (count * bits) < 2 ^ (2 * (count * bits)) :=
      Nat.pow_lt_pow_right Nat.one_lt_two (by omega)
    simp only [map_cons, map_nil, scalarValue, binary, arithmetic, and_self, if_true,
      map_some, BitVec.extractLsb'_toNat, BitVec.toNat_mul, BitVec.toNat_setWidth,
      BitVec.toNat_ofNat, Nat.mod_eq_of_lt hlt, Nat.mod_eq_of_lt hhigh,
      Nat.mod_eq_of_lt (hlt.trans hwide), Nat.mod_eq_of_lt (hhigh.trans hwide), hproduct,
      Nat.mod_eq_of_lt hwide, Nat.shiftRight_eq_div_pow, Nat.div_self (Nat.two_pow_pos _),
      Nat.mod_eq_of_lt (one_lt_two_pow_wide hbits hcount)]
  · have hone : chunk bits 0 1 = 1 := by
      unfold chunk
      rw [Nat.zero_mul, pow_zero, Nat.div_one,
        Nat.mod_eq_of_lt (Nat.one_lt_two_pow (Nat.ne_of_gt hbits))]
    rw [map_cons, map_cons, map_nil, chunk_zero_pow hbelow, chunk_zero_pow (Nat.le_refl bits), hone]
    simp [scalarValue, binary, arithmetic]

/-- One times minus one: the upper half is all ones, and the upper chunk of one is zero. -/
theorem signedHighProduct_not_obtainedByChunks : ¬ObtainedByChunks .SMULH count bits := by
  have hle := two_mul_bits_le hcount bits
  have hone := one_lt_two_pow_wide hbits hcount
  have hpos : 0 < count * bits := by omega
  refine not_obtainedByChunks [1, 2 ^ (count * bits) - 1] (2 ^ (count * bits) - 1) 1
    (by simp [hone]) ?_ hcount ?_
  · have hmsb : (1#(count * bits)).msb = false := by
      rw [BitVec.msb_one, decide_eq_false_iff_not]
      omega
    have hlhs : (1#(count * bits)).signExtend (2 * (count * bits)) = 1#(2 * (count * bits)) := by
      rw [BitVec.signExtend_eq_setWidth_of_msb_false hmsb]
      apply BitVec.eq_of_toNat_eq
      simp [mod_eq_of_lt hone]
    have hall : BitVec.ofNat (count * bits) (2 ^ (count * bits) - 1) =
        BitVec.allOnes (count * bits) := by
      apply BitVec.eq_of_toNat_eq
      rw [BitVec.toNat_ofNat, BitVec.toNat_allOnes,
        Nat.mod_eq_of_lt (Nat.sub_one_lt (Nat.ne_of_gt (Nat.two_pow_pos _)))]
    have hrhs : (BitVec.allOnes (count * bits)).signExtend (2 * (count * bits)) =
        BitVec.allOnes (2 * (count * bits)) := by
      ext i hi
      rw [BitVec.getElem_signExtend, BitVec.getElem_allOnes, BitVec.msb_allOnes hpos]
      simp
    have hhigh : (BitVec.allOnes (2 * (count * bits))).extractLsb' (count * bits) (count * bits) =
        BitVec.allOnes (count * bits) := by
      ext i hi
      rw [BitVec.getElem_extractLsb', BitVec.getElem_allOnes, BitVec.getLsbD_allOnes]
      simp only [decide_eq_true_eq]
      omega
    simp only [map_cons, map_nil, scalarValue, binary, arithmetic, and_self, if_true,
      map_some, hlhs, hall, hrhs, BitVec.one_mul, hhigh, BitVec.toNat_allOnes]
  · have hmax : chunk bits 1 (2 ^ (count * bits) - 1) = 2 ^ bits - 1 := by
      have := chunk_complement (b := bits) (k := 1) hcount (Nat.two_pow_pos (count * bits))
      rw [Nat.sub_zero] at this
      rw [this]
      simp [chunk]
    rw [map_cons, map_cons, map_nil, chunk_one_one hbits, hmax]
    have hzero : (BitVec.ofNat bits 0).signExtend (2 * bits) = 0 := by
      rw [BitVec.signExtend_eq_setWidth_of_msb_false BitVec.msb_zero]
      simp
    have hlt := Nat.one_lt_two_pow (Nat.ne_of_gt hbits)
    simp only [scalarValue, binary, arithmetic, and_self, if_true, hzero]
    simp
    omega

theorem leftShift_not_obtainedByChunks : ¬ObtainedByChunks .SHL count bits := by
  have hle := two_mul_bits_le hcount bits
  have hlt := two_pow_bits_lt hbits hcount
  have hone := one_lt_two_pow_wide hbits hcount
  have hhalf : 2 ^ (bits - 1) < 2 ^ bits := Nat.pow_lt_pow_right Nat.one_lt_two (by omega)
  have hdouble : 2 ^ (bits - 1) * 2 = 2 ^ bits := by
    rw [← pow_succ, Nat.sub_add_cancel hbits]
  refine not_obtainedByChunks [2 ^ (bits - 1), 1] (2 ^ bits) 1
    (by simp [hone, hhalf.trans hlt]) ?_ hcount ?_
  · have hamount : ¬count * bits ≤ 1 := by omega
    simp only [map_cons, map_nil, scalarValue, binary, shift, if_true, if_neg hamount,
      map_some, BitVec.toNat_shiftLeft, BitVec.toNat_ofNat,
      mod_eq_of_lt (hhalf.trans hlt), shiftLeft_eq, pow_one, hdouble, mod_eq_of_lt hlt]
  · have hzero : chunk bits 1 (2 ^ (bits - 1)) = 0 := by
      unfold chunk
      rw [one_mul, div_eq_of_lt hhalf, zero_mod]
    rw [map_cons, map_cons, map_nil, chunk_one_one hbits, chunk_one_pow hbits, hzero]
    simp [scalarValue, binary, shift, ne_of_gt hbits]

/-- The bit above a chunk moves into it. -/
theorem rightShift_not_obtainedByChunks (hop : opcode ∈ [.SHR, .SAR]) :
    ¬ObtainedByChunks opcode count bits := by
  have hle := two_mul_bits_le hcount bits
  have hlt := two_pow_bits_lt hbits hcount
  have hone := one_lt_two_pow_wide hbits hcount
  have hamount : ¬count * bits ≤ 1 := by omega
  obtain ⟨v, hv, hbit⟩ : ∃ v, scalarValue opcode (count * bits)
      [(count * bits, 2 ^ bits), (count * bits, 1)] = some v ∧ v.testBit (bits - 1) = true := by
    have hsum : 1 + (bits - 1) = bits := by omega
    have hin : ¬count * bits ≤ bits - 1 := by omega
    have hbelow : bits < count * bits := by omega
    simp only [mem_cons, not_mem_nil, or_false] at hop
    rcases hop with rfl | rfl
    · refine ⟨(BitVec.ofNat (count * bits) (2 ^ bits) >>> 1).toNat, ?_, ?_⟩
      · simp only [scalarValue, binary, shift, if_true, if_neg hamount, map_some]
      · rw [BitVec.testBit_toNat, BitVec.getLsbD_ushiftRight, hsum, BitVec.getLsbD_ofNat,
          testBit_two_pow_self]
        simp [hbelow]
    · refine ⟨((BitVec.ofNat (count * bits) (2 ^ bits)).sshiftRight 1).toNat, ?_, ?_⟩
      · simp only [scalarValue, binary, shift, if_true, if_neg hamount, map_some]
      · rw [BitVec.testBit_toNat, BitVec.getLsbD_sshiftRight, hsum, if_pos hbelow,
          BitVec.getLsbD_ofNat, testBit_two_pow_self]
        simp [hin, hbelow]
  have hzero : ∀ u, scalarValue opcode bits [(bits, 0), (bits, chunk bits 0 1)] = some u →
      u = 0 := by
    intro u hu
    simp only [mem_cons, not_mem_nil, or_false] at hop
    rcases hop with rfl | rfl <;>
      simp only [scalarValue, binary, shift, if_true, map_eq_some_iff] at hu <;>
      obtain ⟨r, hr, rfl⟩ := hu <;> split at hr <;> simp at hr <;> simp [← hr]
  refine not_obtainedByChunks [2 ^ bits, 1] v 0 (by simp [hlt, hone]) hv (by omega) ?_
  rw [map_cons, map_cons, map_nil, chunk_zero_pow (le_refl bits)]
  intro h
  have hchunk := hzero _ h
  have := congrArg (testBit · (bits - 1)) hchunk
  simp [chunk, testBit_mod_two_pow, hbit, hbits] at this

end Dependent

end EzPacker.Legalizer
