import EzPacker.Legalizer.NarrowedCode

/-!
# Narrowing of integer instructions

The action rewrites an instruction on a wide type into instructions on its chunks. Carry
chains, comparisons for equality and bitwise operations leave the value that the wide
instruction computes. Any other instruction with two sources is rewritten chunk by chunk too,
and there the result is another one.
-/

namespace EzPacker.Legalizer

open Nat List Option Mir LegalizeNarrowScalar

/-! ## Splitting an operand -/

/-- A register or a constant. -/
def IsScalar (op : TypedOperand) : Prop :=
  (∃ r, op.operand = .register r) ∨ ∃ value, op.operand = .integer value

/-- The new registers with numbers in a range. -/
def newBetween (m n : ℕ) : Set MirRegisterRef := {r | ∃ k, (m ≤ k ∧ k < n) ∧ r = newRegister k}

def newOutside (m n : ℕ) : Set MirRegisterRef := {r | ∃ k, (k < m ∨ n ≤ k) ∧ r = newRegister k}

theorem newBetween_subset {m n : ℕ} : newBetween m n ⊆ newFrom m := by
  rintro r ⟨k, hk, rfl⟩
  exact ⟨k, hk.1, rfl⟩

/-- A chunk of an operand, read from a constant or a new register in a range. -/
structure ReadsChunk (env : RegisterFile) (bits m n : ℕ) (op : TypedOperand) (value : ℕ) :
    Prop where
  width : bitsOf op = bits
  reads : read env op = some value
  bound : value < 2 ^ bits
  avoids : Avoids (newOutside m n) op

variable {env : RegisterFile} {op : TypedOperand} {α β γ : Type} {as : List α} {bs : List β}

theorem ReadsChunk.of_agreesOff {env' : RegisterFile} {bits m n value : ℕ}
    {regs : Set MirRegisterRef} (h : ReadsChunk env bits m n op value)
    (hagree : AgreesOff regs env env') (hsub : regs ⊆ newOutside m n) :
    ReadsChunk env' bits m n op value :=
  ⟨h.width, (read_eq_of_agreesOff hagree (h.avoids.mono hsub)).trans h.reads, h.bound, h.avoids⟩

theorem ReadsChunk.widen {bits m n m' n' value : ℕ} (h : ReadsChunk env bits m n op value)
    (hm : m' ≤ m) (hn : n ≤ n') : ReadsChunk env bits m' n' op value := by
  refine ⟨h.width, h.reads, h.bound, h.avoids.mono ?_⟩
  rintro r ⟨k, hk, rfl⟩
  exact ⟨k, hk.imp (fun h => lt_of_lt_of_le h hm) (fun h => le_trans hn h), rfl⟩

theorem run_splitOperand {type : MirType} {count m x : ℕ} (hop : IsScalar op)
    (hbits : bitsOf op = count * type.totalSizeInBits) (hread : read env op = some x) :
    ∃ env' cs extra, m ≤ (splitOperand op count type.totalSizeInBits type m).2.2 ∧
      (splitOperand op count type.totalSizeInBits type m).1 = cs ++ extra ∧
      run env (splitOperand op count type.totalSizeInBits type m).2.1 = some env' ∧
      AgreesOff (newBetween m (splitOperand op count type.totalSizeInBits type m).2.2) env env' ∧
      Forall₂ (ReadsChunk env' type.totalSizeInBits m
        (splitOperand op count type.totalSizeInBits type m).2.2) cs
        (chunks type.totalSizeInBits count x) := by
  rcases hop with ⟨r, hr⟩ | ⟨value, hvalue⟩
  · let dsts := (range count).map (m + ·)
    have hnodup : dsts.Nodup := Nodup.map (fun _ _ h => add_left_cancel h) nodup_range
    have hchunks : (range count).map (fun k => buildVReg (m + k) type) =
        dsts.map fun d => buildVReg d type := by
      rw [List.map_map]
      rfl
    obtain ⟨env', hrun, hagree, hvalues⟩ := unmerge_buildVReg type dsts hnodup env x
    rw [length_map, length_range] at hvalues
    unfold splitOperand
    rw [hr, hchunks]
    dsimp only
    refine ⟨env', dsts.map fun d => buildVReg d type, [op], le_add_right m count, rfl, ?_, ?_, ?_⟩
    · simp only [run, exec, build, getLast?_append, getLast?_singleton,
        dropLast_concat, some_or, bind_some, hread, hrun]
    · intro r hr
      refine hagree r ?_
      rintro d hd rfl
      obtain ⟨k, hk, rfl⟩ := mem_map.mp hd
      exact hr ⟨m + k, ⟨Nat.le_add_right m k, Nat.add_lt_add_left (mem_range.mp hk) m⟩, rfl⟩
    · rw [forall₂_map_left_iff]
      have hmem := (forall₂_and_left dsts _).mpr
        ⟨fun d (hd : d ∈ dsts) => (mem_map.mp hd : ∃ k ∈ range count, m + k = d), hvalues⟩
      refine hmem.imp ?_
      intro d c h
      obtain ⟨⟨k, hk, rfl⟩, hset, hlt⟩ := h
      refine ⟨rfl, read_buildVReg hlt hset, hlt, avoids_buildVReg ?_⟩
      rintro ⟨j, hj, heq⟩
      have hjk := newRegister_injective heq
      have hlt := mem_range.mp hk
      omega
  · unfold splitOperand
    rw [hvalue]
    dsimp only
    refine ⟨env, _, [], le_refl m, (append_nil _).symm, rfl, AgreesOff.refl _ _, ?_⟩
    unfold chunks
    rw [forall₂_map_left_iff, forall₂_map_right_iff, forall₂_same]
    intro k hk
    have hx : x = (value % 2 ^ (count * type.totalSizeInBits)).toNat := by
      unfold read at hread
      rw [hvalue, hbits] at hread
      exact (some.inj hread).symm
    refine ⟨rfl, ?_, chunk_lt k x, fun r hr => MirOperand.noConfusion hr⟩
    rw [hx, ← chunk_emod (mem_range.mp hk)]
    have hmod : value / 2 ^ (k * type.totalSizeInBits) % 2 ^ type.totalSizeInBits %
        2 ^ type.totalSizeInBits = value / 2 ^ (k * type.totalSizeInBits) %
          2 ^ type.totalSizeInBits := Int.emod_emod _ _
    unfold read
    exact congrArg (fun v => some (Int.toNat v)) hmod

theorem forall₂_zip {δ : Type} {R : α → β → Prop} {S : γ → δ → Prop} {cs : List γ} {ds : List δ}
    (h : Forall₂ R as bs) (h' : Forall₂ S cs ds) :
    Forall₂ (fun t p => R t.1 p.1 ∧ S t.2 p.2) (as.zip cs) (bs.zip ds) := by
  induction h generalizing cs ds with
  | nil => exact .nil
  | cons hab _ ih =>
    cases h' with
    | nil => exact .nil
    | cons hcd htail => exact .cons ⟨hab, hcd⟩ (ih htail)

section Both

variable {type : MirType} {lhs rhs : TypedOperand} {count m x y : ℕ} {env : RegisterFile}

theorem run_splitBoth (hlhs : IsScalar lhs) (hlbits : bitsOf lhs = count * type.totalSizeInBits)
    (hrhs : IsScalar rhs) (hrbits : bitsOf rhs = count * type.totalSizeInBits)
    (hold : Avoids (newFrom m) rhs) (hx : read env lhs = some x) (hy : read env rhs = some y) :
    let l := splitOperand lhs count type.totalSizeInBits type m
    let r := splitOperand rhs count type.totalSizeInBits type l.2.2
    ∃ env' ls rs el er, m ≤ r.2.2 ∧ l.1 = ls ++ el ∧ r.1 = rs ++ er ∧
      ls.length = count ∧ rs.length = count ∧ run env (l.2.1 ++ r.2.1) = some env' ∧
      AgreesOff (newFrom m) env env' ∧
      Forall₂ (fun t p => ReadsChunk env' type.totalSizeInBits m r.2.2 t.1 p.1 ∧
          ReadsChunk env' type.totalSizeInBits m r.2.2 t.2 p.2) (ls.zip rs)
        ((chunks type.totalSizeInBits count x).zip (chunks type.totalSizeInBits count y)) := by
  intro l r
  obtain ⟨env₁, ls, el, hle₁, hls, hrun₁, hagree₁, hreads₁⟩ :=
    run_splitOperand (m := m) hlhs hlbits hx
  have hy₁ : read env₁ rhs = some y := by
    rw [read_eq_of_agreesOff (hagree₁.mono newBetween_subset) hold, hy]
  obtain ⟨env₂, rs, er, hle₂, hrs, hrun₂, hagree₂, hreads₂⟩ :=
    run_splitOperand (m := l.2.2) hrhs hrbits hy₁
  have hkept : Forall₂ (ReadsChunk env₂ type.totalSizeInBits m l.2.2) ls
      (chunks type.totalSizeInBits count x) := by
    refine hreads₁.imp fun c v h => h.of_agreesOff hagree₂ ?_
    rintro s ⟨k, hk, rfl⟩
    exact ⟨k, Or.inr hk.1, rfl⟩
  refine ⟨env₂, ls, rs, el, er, le_trans hle₁ hle₂, hls, hrs, ?_, ?_, ?_, ?_, ?_⟩
  · rw [hreads₁.length_eq, length_chunks]
  · rw [hreads₂.length_eq, length_chunks]
  · rw [run_append, hrun₁, bind_some]
    exact hrun₂
  · exact (hagree₁.mono newBetween_subset).trans
      ((hagree₂.mono newBetween_subset).mono (newFrom_mono hle₁))
  · refine (forall₂_zip hkept hreads₂).imp fun t p h => ⟨?_, ?_⟩
    · exact h.1.widen (le_refl m) hle₂
    · exact h.2.widen hle₁ (le_refl _)

end Both

theorem zip_zip_append {ds : List α} {ls el : List β} {rs er : List γ} (hl : ls.length = ds.length)
    (hr : rs.length = ds.length) : ds.zip ((ls ++ el).zip (rs ++ er)) = ds.zip (ls.zip rs) := by
  have hlen : ds.length = (ls.zip rs).length := by
    rw [length_zip, hl, hr, min_self]
  rw [zip_append (hl.trans hr.symm)]
  conv_lhs => rw [← append_nil ds]
  rw [zip_append hlen]
  simp

/-! ## The code of an instruction -/

theorem write_agreesOff {regs : Set MirRegisterRef} {env' env₁ : RegisterFile} {dst : TypedOperand}
    {value : ℕ} (h : AgreesOff regs env env') (hwrite : write env dst value = some env₁) :
    ∃ env₂, write env' dst value = some env₂ ∧ AgreesOff regs env₁ env₂ := by
  unfold write at hwrite ⊢
  cases hdst : dst.operand with
  | register reg =>
    rw [hdst] at hwrite
    obtain rfl := some.inj hwrite
    refine ⟨_, rfl, fun r hr => ?_⟩
    by_cases hreg : r = reg
    · exact (if_pos hreg).trans (if_pos hreg).symm
    · exact (if_neg hreg).trans ((h r hr).trans (if_neg hreg).symm)
  | _ =>
    rw [hdst] at hwrite
    cases hwrite

section Code

variable {type : MirType} {env env' env₁ : RegisterFile} {n : ℕ}

/-- The merged chunks are written as the wide result. -/
theorem run_merged {dst : TypedOperand} {dsts values : List ℕ} {code : List TypedInstruction}
    (hrun : run env code = some env') (hagree : AgreesOff (newFrom n) env env')
    (hvalues : Forall₂ (fun d v => env' (newRegister d) = v ∧
      v < 2 ^ type.totalSizeInBits) dsts values)
    (hwrite : write env dst (Nat.ofDigits (2 ^ type.totalSizeInBits) values) = some env₁) :
    ∃ env₂, run env (code ++ [build .MERGE_VALUES
        (dst :: dsts.map fun d => buildVReg d type)]) = some env₂ ∧
      AgreesOff (newFrom n) env₁ env₂ := by
  obtain ⟨env₂, hwrite₂, hagree₂⟩ := write_agreesOff hagree hwrite
  refine ⟨env₂, ?_, hagree₂⟩
  rw [run_append, hrun, bind_some]
  simp only [run, exec, build, head?_cons, tail_cons, bind_some, merge_buildVReg hvalues, hwrite₂]

theorem map_fst_zip_of_length (h : bs.length = as.length) : (as.zip bs).map Prod.fst = as :=
  map_fst_zip (le_of_eq h.symm)

theorem map_snd_zip_of_length (h : bs.length = as.length) : (as.zip bs).map Prod.snd = bs :=
  map_snd_zip (le_of_eq h)

theorem forall₂_zip_snd {R : β → γ → Prop} {cs : List γ} (hlen : bs.length = as.length)
    (h : Forall₂ R bs cs) : Forall₂ (fun t c => R t.2 c) (as.zip bs) cs := by
  rw [← map_snd_zip_of_length hlen, forall₂_map_left_iff] at h
  exact h

theorem forall₂_of_zip_fst {R : α → γ → Prop} {cs : List γ} (hlen : bs.length = as.length)
    (h : Forall₂ (fun t c => R t.1 c) (as.zip bs) cs) : Forall₂ R as cs := by
  rw [← map_fst_zip_of_length hlen, forall₂_map_left_iff]
  exact h

theorem forall_of_forall₂ {R : α → β → Prop} {P : α → Prop} (h : Forall₂ R as bs)
    (hP : ∀ a b, R a b → P a) : ∀ a ∈ as, P a := by
  induction h with
  | nil => exact fun a ha => absurd ha not_mem_nil
  | cons hab _ ih => exact forall_mem_cons.mpr ⟨hP _ _ hab, ih⟩

variable {m k : ℕ} {dsts : List ℕ} (hnodup : dsts.Nodup)
  (hrange : ∀ d ∈ dsts, n ≤ d ∧ d < m) (hnm : n ≤ m) (hmk : m ≤ k)
include hrange

theorem writtenBy_subset_newOutside : writtenBy dsts k ⊆ newOutside m k := by
  rintro r ⟨j, hj, rfl⟩
  exact ⟨j, hj.imp (fun h => (hrange j h).2) id, rfl⟩

include hnm hmk in
theorem writtenBy_subset_newFrom : writtenBy dsts k ⊆ newFrom n := by
  rintro r ⟨j, hj, rfl⟩
  exact ⟨j, hj.elim (fun h => (hrange j h).1) (fun h => by omega), rfl⟩

include hnodup hnm hmk

theorem run_narrowChain {carryType : MirType} {digit : ℕ → ℕ → ℕ → ℕ × ℕ}
    {firstOp nextOp : MirInstructionOpCode}
    (hops : DigitOps type.totalSizeInBits digit firstOp nextOp)
    (hbits : 0 < carryType.totalSizeInBits) {ps : List (TypedOperand × TypedOperand)}
    {pairs : List (ℕ × ℕ)} (hlen : ps.length = dsts.length)
    (hreads : Forall₂ (fun t p => ReadsChunk env type.totalSizeInBits m k t.1 p.1 ∧
      ReadsChunk env type.totalSizeInBits m k t.2 p.2) ps pairs) :
    ∃ env', run env (carryChain firstOp nextOp carryType
        ((dsts.map fun d => buildVReg d type).zip ps) none k).1 = some env' ∧
      AgreesOff (newFrom n) env env' ∧
      Forall₂ (fun d v => env' (newRegister d) = v ∧ v < 2 ^ type.totalSizeInBits) dsts
        (chain digit pairs 0).1 := by
  have hfst := map_fst_zip_of_length hlen
  have hsub := writtenBy_subset_newOutside (k := k) hrange
  have hzip := forall₂_zip_snd hlen hreads
  have havoid : ∀ t ∈ dsts.zip ps, Avoids (writtenBy ((dsts.zip ps).map Prod.fst) k) t.2.1 ∧
      Avoids (writtenBy ((dsts.zip ps).map Prod.fst) k) t.2.2 := by
    rw [hfst]
    refine forall_of_forall₂ hzip ?_
    intro t p h
    exact ⟨h.1.avoids.mono hsub, h.2.avoids.mono hsub⟩
  have hlt : ∀ t ∈ dsts.zip ps, t.1 < k := fun t ht =>
    lt_of_lt_of_le (hrange t.1 (of_mem_zip ht).1).2 hmk
  obtain ⟨env', hrun, hagree, hvalues⟩ := run_carryChain hops hbits (dsts.zip ps) pairs env none 0
    k (by rw [hfst]; exact hnodup) hlt havoid
    (hzip.imp fun t p h => ⟨h.1.reads, h.2.reads, h.1.bound, h.2.bound⟩) rfl (zero_le 1)
  refine ⟨env', ?_, ?_, forall₂_of_zip_fst hlen hvalues⟩
  · rw [zip_map_left]
    exact hrun
  · rw [hfst] at hagree
    exact hagree.mono (writtenBy_subset_newFrom hrange hnm hmk)

theorem run_narrowPairs {opcode : MirInstructionOpCode} {op : ℕ → ℕ → ℕ}
    (hexec : ∀ (env : RegisterFile) (dst lhs rhs : TypedOperand) (x y : ℕ),
      bitsOf dst = type.totalSizeInBits → bitsOf lhs = type.totalSizeInBits →
      bitsOf rhs = type.totalSizeInBits → x < 2 ^ type.totalSizeInBits →
      y < 2 ^ type.totalSizeInBits → read env lhs = some x → read env rhs = some y →
      exec env (build opcode [dst, lhs, rhs]) = write env dst (op x y) ∧
        op x y < 2 ^ type.totalSizeInBits)
    {ps : List (TypedOperand × TypedOperand)} {pairs : List (ℕ × ℕ)}
    (hlen : ps.length = dsts.length)
    (hreads : Forall₂ (fun t p => ReadsChunk env type.totalSizeInBits m k t.1 p.1 ∧
      ReadsChunk env type.totalSizeInBits m k t.2 p.2) ps pairs) :
    ∃ env', run env (((dsts.map fun d => buildVReg d type).zip ps).map fun p =>
        build opcode [p.1, p.2.1, p.2.2]) = some env' ∧
      AgreesOff (newFrom n) env env' ∧
      Forall₂ (fun d v => env' (newRegister d) = v ∧ v < 2 ^ type.totalSizeInBits) dsts
        (pairs.map fun p => op p.1 p.2) := by
  have hfst := map_fst_zip_of_length hlen
  have hsub := writtenBy_subset_newOutside (k := k) hrange
  let ts := (dsts.zip ps).map fun t => (t.1, [t.2.1, t.2.2])
  have hts : ts.map Prod.fst = dsts := by rw [List.map_map]; exact hfst
  have hcode : ((dsts.map fun d => buildVReg d type).zip ps).map (fun p =>
      build opcode [p.1, p.2.1, p.2.2]) =
      ts.map fun t => build opcode (buildVReg t.1 type :: t.2) := by
    rw [List.zip_map_left, List.map_map, List.map_map]
    rfl
  have hlt : ∀ t ∈ ts, t.1 < k := by
    intro t ht
    have hmem : t.1 ∈ dsts := hts ▸ mem_map_of_mem ht
    exact lt_of_lt_of_le (hrange t.1 hmem).2 hmk
  obtain ⟨env', hrun, hagree, hvalues⟩ := run_elementwise opcode k ts
    (pairs.map fun p => op p.1 p.2) env (by rw [hts]; exact hnodup) hlt (by
      rw [hts, forall₂_map_left_iff, forall₂_map_right_iff]
      refine (forall₂_zip_snd hlen hreads).imp ?_
      intro t p h
      refine ⟨(hexec env (buildVReg t.1 type) t.2.1 t.2.2 p.1 p.2 rfl h.1.width h.2.width
        h.1.bound h.2.bound h.1.reads h.2.reads).2, ?_⟩
      intro env₁ hagree
      have h₁ := h.1.of_agreesOff hagree hsub
      have h₂ := h.2.of_agreesOff hagree hsub
      exact (hexec env₁ (buildVReg t.1 type) t.2.1 t.2.2 p.1 p.2 rfl h₁.width h₂.width
        h₁.bound h₂.bound h₁.reads h₂.reads).1)
  rw [hts] at hagree
  refine ⟨env', hcode ▸ hrun, hagree.mono (writtenBy_subset_newFrom hrange hnm hmk), ?_⟩
  rw [← hts, forall₂_map_left_iff]
  exact hvalues

theorem run_narrowSources {opcode : MirInstructionOpCode} {op : ℕ → ℕ}
    (hexec : ∀ (env : RegisterFile) (dst src : TypedOperand) (x : ℕ),
      bitsOf dst = type.totalSizeInBits → bitsOf src = type.totalSizeInBits →
      x < 2 ^ type.totalSizeInBits → read env src = some x →
      exec env (build opcode [dst, src]) = write env dst (op x) ∧ op x < 2 ^ type.totalSizeInBits)
    {srcs : List TypedOperand} {xs : List ℕ} (hlen : srcs.length = dsts.length)
    (hreads : Forall₂ (ReadsChunk env type.totalSizeInBits m k) srcs xs) :
    ∃ env', run env (((dsts.map fun d => buildVReg d type).zip srcs).map fun p =>
        build opcode [p.1, p.2]) = some env' ∧
      AgreesOff (newFrom n) env env' ∧
      Forall₂ (fun d v => env' (newRegister d) = v ∧ v < 2 ^ type.totalSizeInBits) dsts
        (xs.map op) := by
  have hfst := map_fst_zip_of_length hlen
  have hsub := writtenBy_subset_newOutside (k := k) hrange
  let ts := (dsts.zip srcs).map fun t => (t.1, [t.2])
  have hts : ts.map Prod.fst = dsts := by rw [List.map_map]; exact hfst
  have hcode : ((dsts.map fun d => buildVReg d type).zip srcs).map (fun p =>
      build opcode [p.1, p.2]) =
      ts.map fun t => build opcode (buildVReg t.1 type :: t.2) := by
    rw [List.zip_map_left, List.map_map, List.map_map]
    rfl
  have hlt : ∀ t ∈ ts, t.1 < k := by
    intro t ht
    have hmem : t.1 ∈ dsts := hts ▸ mem_map_of_mem ht
    exact lt_of_lt_of_le (hrange t.1 hmem).2 hmk
  obtain ⟨env', hrun, hagree, hvalues⟩ := run_elementwise opcode k ts (xs.map op) env
    (by rw [hts]; exact hnodup) hlt (by
      rw [hts, forall₂_map_left_iff, forall₂_map_right_iff]
      refine (forall₂_zip_snd hlen hreads).imp ?_
      intro t x h
      refine ⟨(hexec env (buildVReg t.1 type) t.2 x rfl h.width h.bound h.reads).2, ?_⟩
      intro env₁ hagree
      have h₁ := h.of_agreesOff hagree hsub
      exact (hexec env₁ (buildVReg t.1 type) t.2 x rfl h₁.width h₁.bound h₁.reads).1)
  rw [hts] at hagree
  refine ⟨env', hcode ▸ hrun, hagree.mono (writtenBy_subset_newFrom hrange hnm hmk), ?_⟩
  rw [← hts, forall₂_map_left_iff]
  exact hvalues

end Code

end EzPacker.Legalizer
