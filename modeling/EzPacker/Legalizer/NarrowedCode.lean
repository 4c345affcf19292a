import EzPacker.Legalizer.LegalityQuery

/-!
# Code of the narrowing action

What the pieces of code that the action emits leave in the new registers: the chunks of an
operand, the digits of a carry chain, the combined comparisons, and the merged result.
-/

namespace EzPacker.Legalizer

open Nat List Option Mir

/-! ## Registers that code leaves alone -/

def newRegister (n : ℕ) : MirRegisterRef := ⟨true, none, n⟩

/-- The registers from a number on. -/
def newFrom (n : ℕ) : Set MirRegisterRef := {r | ∃ k, n ≤ k ∧ r = newRegister k}

def AgreesOff (regs : Set MirRegisterRef) (env env' : RegisterFile) : Prop :=
  ∀ r, r ∉ regs → env' r = env r

def Avoids (regs : Set MirRegisterRef) (op : TypedOperand) : Prop :=
  ∀ r, op.operand = .register r → r ∉ regs

variable {n : ℕ} {env : RegisterFile} {type : MirType} {dsts : List ℕ}

theorem newRegister_injective {m : ℕ} (h : newRegister m = newRegister n) : m = n :=
  congrArg MirRegisterRef.id h

theorem newRegister_mem_newFrom {m : ℕ} : newRegister m ∈ newFrom n ↔ n ≤ m := by
  constructor
  · rintro ⟨k, hle, heq⟩
    exact newRegister_injective heq ▸ hle
  · exact fun hle => ⟨m, hle, rfl⟩

section Agreement

variable {regs regs' : Set MirRegisterRef} {env env' env'' : RegisterFile} {op : TypedOperand}

theorem AgreesOff.refl (regs : Set MirRegisterRef) (env : RegisterFile) :
    AgreesOff regs env env := fun _ _ => rfl

theorem AgreesOff.trans (h : AgreesOff regs env env') (h' : AgreesOff regs env' env'') :
    AgreesOff regs env env'' := fun r hr => (h' r hr).trans (h r hr)

theorem AgreesOff.mono (h : AgreesOff regs env env') (hsub : regs ⊆ regs') :
    AgreesOff regs' env env' := fun r hr => h r fun hmem => hr (hsub hmem)

theorem Avoids.mono (h : Avoids regs' op) (hsub : regs ⊆ regs') : Avoids regs op :=
  fun r hr hmem => h r hr (hsub hmem)

theorem read_eq_of_agreesOff (h : AgreesOff regs env env') (hop : Avoids regs op) :
    read env' op = read env op := by
  unfold read
  cases hkind : op.operand with
  | register r => simp only [h r (hop r hkind)]
  | _ => rfl

end Agreement

/-! ## Writing new registers -/

def set (env : RegisterFile) (r : MirRegisterRef) (value : ℕ) : RegisterFile :=
  fun s => if s = r then value else env s

theorem agreesOff_set (env : RegisterFile) (r : MirRegisterRef) (value : ℕ) :
    AgreesOff {r} env (set env r value) := fun _ hs => if_neg hs

theorem bitsOf_buildVReg (n : ℕ) (type : MirType) :
    bitsOf (buildVReg n type) = type.totalSizeInBits := rfl

theorem write_buildVReg (env : RegisterFile) (n : ℕ) (type : MirType) {value : ℕ}
    (h : value < 2 ^ type.totalSizeInBits) :
    write env (buildVReg n type) value = some (set env (newRegister n) value) := by
  have hmod : value % 2 ^ bitsOf (buildVReg n type) = value := mod_eq_of_lt h
  unfold write
  rw [hmod]
  rfl

theorem read_buildVReg {value : ℕ} (h : value < 2 ^ type.totalSizeInBits)
    (hset : env (newRegister n) = value) : read env (buildVReg n type) = some value := by
  have hmod : env (newRegister n) % 2 ^ bitsOf (buildVReg n type) = value := by
    rw [hset]
    exact mod_eq_of_lt h
  unfold read
  exact congrArg some hmod

theorem avoids_buildVReg {regs : Set MirRegisterRef} (h : newRegister n ∉ regs) :
    Avoids regs (buildVReg n type) := by
  intro r hr
  obtain rfl : newRegister n = r := MirOperand.register.inj hr
  exact h

/-! ## Carry chains -/

/-- The registers with the given numbers, and the new ones from a number on. -/
def writtenBy (dsts : List ℕ) (n : ℕ) : Set MirRegisterRef :=
  {r | ∃ k, (k ∈ dsts ∨ n ≤ k) ∧ r = newRegister k}

theorem newRegister_mem_writtenBy {m : ℕ} :
    newRegister m ∈ writtenBy dsts n ↔ m ∈ dsts ∨ n ≤ m := by
  constructor
  · rintro ⟨k, hk, heq⟩
    exact newRegister_injective heq ▸ hk
  · exact fun h => ⟨m, h, rfl⟩

theorem writtenBy_subset_cons {d : ℕ} : writtenBy dsts (n + 1) ⊆ writtenBy (d :: dsts) n := by
  rintro r ⟨k, hk, rfl⟩
  refine newRegister_mem_writtenBy.mpr ?_
  rcases hk with hk | hk
  · exact Or.inl (mem_cons_of_mem _ hk)
  · exact Or.inr (le_of_succ_le hk)

/-- Two operations that compute a digit and its carry, the first one without a carry in. -/
structure DigitOps (bits : ℕ) (digit : ℕ → ℕ → ℕ → ℕ × ℕ)
    (firstOp nextOp : MirInstructionOpCode) : Prop where
  bounds {x y carry : ℕ} : x < 2 ^ bits → y < 2 ^ bits → carry ≤ 1 →
    (digit x y carry).1 < 2 ^ bits ∧ (digit x y carry).2 ≤ 1
  first {env : RegisterFile} {sum carryOut lhs rhs : TypedOperand} {x y : ℕ} :
    bitsOf sum = bits → read env lhs = some x → read env rhs = some y →
    exec env (build firstOp [sum, carryOut, lhs, rhs]) =
      (write env sum (digit x y 0).1).bind fun env => write env carryOut (digit x y 0).2
  next {env : RegisterFile} {sum carryOut lhs rhs carryIn : TypedOperand} {x y carry : ℕ} :
    bitsOf sum = bits → read env lhs = some x → read env rhs = some y →
    read env carryIn = some carry →
    exec env (build nextOp [sum, carryOut, lhs, rhs, carryIn]) =
      (write env sum (digit x y carry).1).bind fun env => write env carryOut (digit x y carry).2

theorem addDigitOps (bits : ℕ) : DigitOps bits (addDigit bits) .UADDO .UADDE where
  bounds := addDigit_bounds
  first hsum hlhs hrhs := by
    simp [exec, build, execCarry, readAll, carryValue, hsum, hlhs, hrhs]
  next hsum hlhs hrhs hcarry := by
    simp [exec, build, execCarry, readAll, carryValue, hsum, hlhs, hrhs, hcarry]

theorem subDigitOps (bits : ℕ) : DigitOps bits (subDigit bits) .USUBO .USUBE where
  bounds := subDigit_bounds
  first hsum hlhs hrhs := by
    simp [exec, build, execCarry, readAll, carryValue, hsum, hlhs, hrhs]
  next hsum hlhs hrhs hcarry := by
    simp [exec, build, execCarry, readAll, carryValue, hsum, hlhs, hrhs, hcarry]

open LegalizeNarrowScalar

/-- The value that an incoming carry has, zero when there is none. -/
def CarryReads (env : RegisterFile) (carry : Option TypedOperand) (value : ℕ) : Prop :=
  match carry with
  | some op => read env op = some value
  | none => value = 0

section Chain

variable {digit : ℕ → ℕ → ℕ → ℕ × ℕ} {firstOp nextOp : MirInstructionOpCode}
  {type carryType : MirType}

def chainInst (firstOp nextOp : MirInstructionOpCode) (sum carryOut lhs rhs : TypedOperand) :
    Option TypedOperand → TypedInstruction
  | none => build firstOp [sum, carryOut, lhs, rhs]
  | some carry => build nextOp [sum, carryOut, lhs, rhs, carry]

theorem exec_chainInst (hops : DigitOps type.totalSizeInBits digit firstOp nextOp)
    {sum carryOut lhs rhs : TypedOperand} {carry : Option TypedOperand} {x y c : ℕ}
    (hsum : bitsOf sum = type.totalSizeInBits) (hlhs : read env lhs = some x)
    (hrhs : read env rhs = some y) (hcarry : CarryReads env carry c) :
    exec env (chainInst firstOp nextOp sum carryOut lhs rhs carry) =
      (write env sum (digit x y c).1).bind fun env => write env carryOut (digit x y c).2 := by
  cases carry with
  | none =>
    obtain rfl : c = 0 := hcarry
    exact hops.first hsum hlhs hrhs
  | some op => exact hops.next hsum hlhs hrhs hcarry

theorem carryChain_cons (dst lhs rhs : TypedOperand)
    (rest : List (TypedOperand × TypedOperand × TypedOperand)) (carry : Option TypedOperand)
    (n : ℕ) :
    (carryChain firstOp nextOp carryType ((dst, lhs, rhs) :: rest) carry n).1 =
      chainInst firstOp nextOp dst (buildVReg n carryType) lhs rhs carry ::
        (carryChain firstOp nextOp carryType rest (some (buildVReg n carryType)) (n + 1)).1 := by
  cases carry <;> rfl

theorem run_carryChain (hops : DigitOps type.totalSizeInBits digit firstOp nextOp)
    (hbits : 0 < carryType.totalSizeInBits) (ts : List (ℕ × TypedOperand × TypedOperand))
    (pairs : List (ℕ × ℕ)) (env : RegisterFile) (carry : Option TypedOperand) (c n : ℕ)
    (hnodup : (ts.map Prod.fst).Nodup) (hlt : ∀ t ∈ ts, t.1 < n)
    (havoid : ∀ t ∈ ts, Avoids (writtenBy (ts.map Prod.fst) n) t.2.1 ∧
      Avoids (writtenBy (ts.map Prod.fst) n) t.2.2)
    (hreads : Forall₂ (fun t p => read env t.2.1 = some p.1 ∧ read env t.2.2 = some p.2 ∧
      p.1 < 2 ^ type.totalSizeInBits ∧ p.2 < 2 ^ type.totalSizeInBits) ts pairs)
    (hcarry : CarryReads env carry c) (hc : c ≤ 1) :
    ∃ env', run env (carryChain firstOp nextOp carryType
        (ts.map fun t => (buildVReg t.1 type, t.2)) carry n).1 = some env' ∧
      AgreesOff (writtenBy (ts.map Prod.fst) n) env env' ∧
      Forall₂ (fun t v => env' (newRegister t.1) = v ∧ v < 2 ^ type.totalSizeInBits) ts
        (chain digit pairs c).1 := by
  induction ts generalizing pairs env carry c n with
  | nil =>
    cases hreads
    exact ⟨env, rfl, AgreesOff.refl _ _, .nil⟩
  | cons t ts ih =>
    cases hreads with
    | @cons _ p _ pairs hread hrest =>
    obtain ⟨d, lhs, rhs⟩ := t
    obtain ⟨x, y⟩ := p
    obtain ⟨hlhs, hrhs, hx, hy⟩ := hread
    obtain ⟨hd, hnodup⟩ := nodup_cons.mp hnodup
    have hdn : d < n := hlt _ mem_cons_self
    obtain ⟨hdigit, hout⟩ := hops.bounds hx hy hc
    -- The first pair writes its digit and the carry that the rest reads.
    have hone : (digit x y c).2 < 2 ^ carryType.totalSizeInBits :=
      Nat.lt_of_le_of_lt hout (Nat.one_lt_two_pow (Nat.ne_of_gt hbits))
    let env₁ := set (set env (newRegister d) (digit x y c).1) (newRegister n) (digit x y c).2
    have hexec : exec env (chainInst firstOp nextOp (buildVReg d type)
        (buildVReg n carryType) lhs rhs carry) =
        some env₁ := by
      rw [exec_chainInst hops (bitsOf_buildVReg d type) hlhs hrhs hcarry,
        write_buildVReg env d type hdigit, bind_some, write_buildVReg _ n carryType hone]
    have hagree : AgreesOff (writtenBy (d :: ts.map Prod.fst) n) env env₁ := by
      refine ((agreesOff_set env _ _).mono ?_).trans ((agreesOff_set _ _ _).mono ?_)
      · rintro r rfl
        exact newRegister_mem_writtenBy.mpr (Or.inl mem_cons_self)
      · rintro r rfl
        exact newRegister_mem_writtenBy.mpr (Or.inr (le_refl n))
    have hcarry₁ : CarryReads env₁ (some (buildVReg n carryType)) (digit x y c).2 :=
      read_buildVReg hone (if_pos rfl)
    have hreads₁ : Forall₂ (fun t p => read env₁ t.2.1 = some p.1 ∧
        read env₁ t.2.2 = some p.2 ∧ p.1 < 2 ^ type.totalSizeInBits ∧
          p.2 < 2 ^ type.totalSizeInBits) ts pairs := by
      have hmem := (forall₂_and_left ts pairs).mpr
        ⟨fun t ht => havoid t (mem_cons_of_mem _ ht), hrest⟩
      refine hmem.imp ?_
      intro t p h
      obtain ⟨⟨hl, hr⟩, hx, hy, hlt⟩ := h
      refine ⟨?_, ?_, hlt⟩
      · rw [read_eq_of_agreesOff hagree hl, hx]
      · rw [read_eq_of_agreesOff hagree hr, hy]
    obtain ⟨env', hrun, hagree', hvalues⟩ := ih pairs env₁ (some (buildVReg n carryType))
      (digit x y c).2 (n + 1) hnodup
      (fun t ht => lt_succ_of_lt (hlt t (mem_cons_of_mem _ ht)))
      (fun t ht => ⟨(havoid t (mem_cons_of_mem _ ht)).1.mono writtenBy_subset_cons,
        (havoid t (mem_cons_of_mem _ ht)).2.mono writtenBy_subset_cons⟩)
      hreads₁ hcarry₁ hout
    refine ⟨env', ?_, hagree.trans (hagree'.mono writtenBy_subset_cons), .cons ⟨?_, hdigit⟩ hvalues⟩
    · rw [map_cons, carryChain_cons, run, hexec, bind_some]
      exact hrun
    · have hkeep : newRegister d ∉ writtenBy (ts.map Prod.fst) (n + 1) := by
        rw [newRegister_mem_writtenBy]
        rintro (hmem | hle)
        · exact hd hmem
        · omega
      rw [hagree' _ hkeep]
      exact (if_neg fun h => Nat.ne_of_lt hdn (newRegister_injective h)).trans (if_pos rfl)

end Chain

/-! ## Splitting and merging -/

section Split

theorem unmerge_buildVReg (type : MirType) (dsts : List ℕ) (hnodup : dsts.Nodup)
    (env : RegisterFile) (x : ℕ) :
    ∃ env', unmerge env (dsts.map fun d => buildVReg d type) x = some env' ∧
      (∀ r, (∀ d ∈ dsts, r ≠ newRegister d) → env' r = env r) ∧
      Forall₂ (fun d c => env' (newRegister d) = c ∧ c < 2 ^ type.totalSizeInBits) dsts
        (chunks type.totalSizeInBits dsts.length x) := by
  induction dsts generalizing env x with
  | nil => exact ⟨env, rfl, fun _ _ => rfl, .nil⟩
  | cons d dsts ih =>
    obtain ⟨hd, hnodup⟩ := nodup_cons.mp hnodup
    have hwrite : write env (buildVReg d type) x =
        some (set env (newRegister d) (x % 2 ^ type.totalSizeInBits)) := rfl
    obtain ⟨env', hrun, hagree, hvalues⟩ :=
      ih hnodup (set env (newRegister d) (x % 2 ^ type.totalSizeInBits))
        (x / 2 ^ type.totalSizeInBits)
    refine ⟨env', ?_, ?_, ?_⟩
    · rw [map_cons, unmerge, hwrite, bind_some]
      exact hrun
    · intro r hr
      rw [hagree r fun d hd => hr d (mem_cons_of_mem _ hd)]
      exact if_neg (hr d mem_cons_self)
    · rw [length_cons, chunks_succ]
      refine .cons ⟨?_, Nat.mod_lt _ (Nat.two_pow_pos _)⟩ hvalues
      rw [hagree _ fun e he heq => hd (by rw [newRegister_injective heq]; exact he)]
      exact if_pos rfl

theorem merge_buildVReg {values : List ℕ}
    (h : Forall₂ (fun d v => env (newRegister d) = v ∧ v < 2 ^ type.totalSizeInBits) dsts values) :
    merge env (dsts.map fun d => buildVReg d type) =
      some (Nat.ofDigits (2 ^ type.totalSizeInBits) values) := by
  induction h with
  | nil => rfl
  | cons hv _ ih =>
    rw [map_cons, merge, read_buildVReg hv.2 hv.1, ih, ofDigits_cons]
    rfl

end Split

/-! ## Comparisons of chunks -/

section Compare

variable {type carryType : MirType} {cmpOp combineOp : MirInstructionOpCode}
  {cmp : ℕ → ℕ → Bool} {combine : Bool → Bool → Bool}

/-- An opcode that compares two numbers and one that combines two comparisons. -/
structure CompareOps (bits boolBits : ℕ) (cmp : ℕ → ℕ → Bool) (combine : Bool → Bool → Bool)
    (cmpOp combineOp : MirInstructionOpCode) : Prop where
  compares {env : RegisterFile} {dst lhs rhs : TypedOperand} {x y : ℕ} :
    bitsOf lhs = bits → bitsOf rhs = bits → x < 2 ^ bits → y < 2 ^ bits →
    read env lhs = some x → read env rhs = some y →
    exec env (build cmpOp [dst, lhs, rhs]) = write env dst (cmp x y).toNat
  combines {env : RegisterFile} {dst lhs rhs : TypedOperand} {p q : Bool} :
    bitsOf dst = boolBits → bitsOf lhs = boolBits → bitsOf rhs = boolBits →
    read env lhs = some p.toNat → read env rhs = some q.toNat →
    exec env (build combineOp [dst, lhs, rhs]) = write env dst (combine p q).toNat

theorem toNat_lt_two_pow (h : 0 < n) (p : Bool) : p.toNat < 2 ^ n :=
  Nat.lt_of_le_of_lt (Bool.toNat_le p) (Nat.one_lt_two_pow (Nat.ne_of_gt h))

theorem newFrom_mono {m : ℕ} (h : m ≤ n) : newFrom n ⊆ newFrom m := by
  rintro r ⟨k, hk, rfl⟩
  exact ⟨k, le_trans h hk, rfl⟩

theorem compareChunks_some (lhs rhs acc : TypedOperand) (rest : List (TypedOperand × TypedOperand))
    (n : ℕ) :
    (compareChunks cmpOp combineOp carryType ((lhs, rhs) :: rest) (some acc) n).1 =
      [build cmpOp [buildVReg n carryType, lhs, rhs],
        build combineOp [buildVReg (n + 1) carryType, acc, buildVReg n carryType]] ++
      (compareChunks cmpOp combineOp carryType rest (some (buildVReg (n + 1) carryType))
        (n + 2)).1 := rfl

theorem run_compareStep
    (hops : CompareOps type.totalSizeInBits carryType.totalSizeInBits cmp combine cmpOp combineOp)
    (hbits : 0 < carryType.totalSizeInBits) {k : ℕ} {p : Bool} (hk : k < n)
    (hacc : env (newRegister k) = p.toNat) {lhs rhs : TypedOperand} {x y : ℕ}
    (hlbits : bitsOf lhs = type.totalSizeInBits) (hrbits : bitsOf rhs = type.totalSizeInBits)
    (hx : x < 2 ^ type.totalSizeInBits) (hy : y < 2 ^ type.totalSizeInBits)
    (hlhs : read env lhs = some x) (hrhs : read env rhs = some y) :
    ∃ env₂, run env [build cmpOp [buildVReg n carryType, lhs, rhs],
        build combineOp [buildVReg (n + 1) carryType, buildVReg k carryType,
          buildVReg n carryType]] = some env₂ ∧
      AgreesOff (newFrom n) env env₂ ∧
      env₂ (newRegister (n + 1)) = (combine p (cmp x y)).toNat := by
  let env₁ := set env (newRegister n) (cmp x y).toNat
  have hexec₁ : exec env (build cmpOp [buildVReg n carryType, lhs, rhs]) = some env₁ := by
    rw [hops.compares hlbits hrbits hx hy hlhs hrhs,
      write_buildVReg env n carryType (toNat_lt_two_pow hbits _)]
  have hkept : env₁ (newRegister k) = p.toNat :=
    (if_neg fun h => Nat.ne_of_lt hk (newRegister_injective h)).trans hacc
  have hexec₂ : exec env₁ (build combineOp [buildVReg (n + 1) carryType, buildVReg k carryType,
      buildVReg n carryType]) = some (set env₁ (newRegister (n + 1))
        (combine p (cmp x y)).toNat) := by
    rw [hops.combines rfl rfl rfl (read_buildVReg (toNat_lt_two_pow hbits p) hkept)
      (read_buildVReg (toNat_lt_two_pow hbits _) (if_pos rfl)),
      write_buildVReg env₁ (n + 1) carryType (toNat_lt_two_pow hbits _)]
  refine ⟨set env₁ (newRegister (n + 1)) (combine p (cmp x y)).toNat, ?_, ?_, if_pos rfl⟩
  · rw [run, hexec₁, bind_some, run, hexec₂]
    rfl
  · refine ((agreesOff_set env _ _).mono ?_).trans ((agreesOff_set _ _ _).mono ?_)
    · rintro r rfl
      exact newRegister_mem_newFrom.mpr (le_refl n)
    · rintro r rfl
      exact newRegister_mem_newFrom.mpr (le_succ n)

/-- Both operands of a comparison are read as chunks. -/
def ReadsPair (env : RegisterFile) (bits : ℕ) (t : TypedOperand × TypedOperand) (v : ℕ × ℕ) :
    Prop :=
  bitsOf t.1 = bits ∧ bitsOf t.2 = bits ∧ v.1 < 2 ^ bits ∧ v.2 < 2 ^ bits ∧
    read env t.1 = some v.1 ∧ read env t.2 = some v.2

theorem readsPairs_of_agreesOff {env' : RegisterFile} {bits : ℕ} (regs : Set MirRegisterRef)
    {ts : List (TypedOperand × TypedOperand)} {pairs : List (ℕ × ℕ)}
    (h : Forall₂ (ReadsPair env bits) ts pairs) (hagree : AgreesOff regs env env')
    (havoid : ∀ t ∈ ts, Avoids regs t.1 ∧ Avoids regs t.2) :
    Forall₂ (ReadsPair env' bits) ts pairs := by
  refine ((forall₂_and_left ts pairs).mpr ⟨havoid, h⟩).imp ?_
  rintro t v ⟨⟨hl, hr⟩, hlb, hrb, hx, hy, hlhs, hrhs⟩
  refine ⟨hlb, hrb, hx, hy, ?_, ?_⟩
  · rw [read_eq_of_agreesOff hagree hl, hlhs]
  · rw [read_eq_of_agreesOff hagree hr, hrhs]

section

variable
  (hops : CompareOps type.totalSizeInBits carryType.totalSizeInBits cmp combine cmpOp combineOp)
  (hbits : 0 < carryType.totalSizeInBits)
include hops hbits

theorem run_compareRest (ts : List (TypedOperand × TypedOperand)) (pairs : List (ℕ × ℕ))
    (env : RegisterFile) (k n : ℕ) (p : Bool) (hk : k < n) (hacc : env (newRegister k) = p.toNat)
    (havoid : ∀ t ∈ ts, Avoids (newFrom n) t.1 ∧ Avoids (newFrom n) t.2)
    (hreads : Forall₂ (ReadsPair env type.totalSizeInBits) ts pairs) :
    ∃ env' last, (compareChunks cmpOp combineOp carryType ts (some (buildVReg k carryType)) n).2.1 =
        some (buildVReg last carryType) ∧
      run env (compareChunks cmpOp combineOp carryType ts (some (buildVReg k carryType)) n).1 =
        some env' ∧ AgreesOff (newFrom n) env env' ∧
      env' (newRegister last) = (pairs.foldl (fun acc v => combine acc (cmp v.1 v.2)) p).toNat := by
  induction ts generalizing pairs env k n p with
  | nil =>
    cases hreads
    exact ⟨env, k, rfl, rfl, AgreesOff.refl _ _, hacc⟩
  | cons t ts ih =>
    cases hreads with
    | @cons _ v _ pairs hread hrest =>
    obtain ⟨lhs, rhs⟩ := t
    obtain ⟨x, y⟩ := v
    obtain ⟨hlbits, hrbits, hx, hy, hlhs, hrhs⟩ := hread
    obtain ⟨env₂, hrun₂, hagree₂, hacc₂⟩ := run_compareStep hops hbits hk hacc hlbits hrbits
      hx hy hlhs hrhs
    have havoid₂ := fun t ht => havoid t (mem_cons_of_mem _ ht)
    have hreads₂ := readsPairs_of_agreesOff (newFrom n) hrest hagree₂ havoid₂
    obtain ⟨env', last, hlast, hrun, hagree, hvalue⟩ := ih pairs env₂ (n + 1) (n + 2)
      (combine p (cmp x y)) (lt_succ_self _) hacc₂
      (fun t ht => ⟨(havoid₂ t ht).1.mono (newFrom_mono (by omega)),
        (havoid₂ t ht).2.mono (newFrom_mono (by omega))⟩) hreads₂
    refine ⟨env', last, hlast, ?_, hagree₂.trans (hagree.mono (newFrom_mono (by omega))), hvalue⟩
    rw [compareChunks_some, run_append, hrun₂, bind_some]
    exact hrun

theorem run_compareChunks (t : TypedOperand × TypedOperand)
    (ts : List (TypedOperand × TypedOperand)) (v : ℕ × ℕ) (pairs : List (ℕ × ℕ))
    (env : RegisterFile) (n : ℕ)
    (havoid : ∀ s ∈ t :: ts, Avoids (newFrom n) s.1 ∧ Avoids (newFrom n) s.2)
    (hreads : Forall₂ (ReadsPair env type.totalSizeInBits) (t :: ts) (v :: pairs)) :
    ∃ env' last, (compareChunks cmpOp combineOp carryType (t :: ts) none n).2.1 =
        some (buildVReg last carryType) ∧
      run env (compareChunks cmpOp combineOp carryType (t :: ts) none n).1 = some env' ∧
      AgreesOff (newFrom n) env env' ∧
      env' (newRegister last) =
        (pairs.foldl (fun acc v => combine acc (cmp v.1 v.2)) (cmp v.1 v.2)).toNat := by
  cases hreads with
  | cons hread hrest =>
  obtain ⟨hlbits, hrbits, hx, hy, hlhs, hrhs⟩ := hread
  let env₁ := set env (newRegister n) (cmp v.1 v.2).toNat
  have hexec : exec env (build cmpOp [buildVReg n carryType, t.1, t.2]) = some env₁ := by
    rw [hops.compares hlbits hrbits hx hy hlhs hrhs,
      write_buildVReg env n carryType (toNat_lt_two_pow hbits _)]
  have hagree₁ : AgreesOff (newFrom n) env env₁ := by
    refine (agreesOff_set env _ _).mono ?_
    rintro r rfl
    exact newRegister_mem_newFrom.mpr (le_refl n)
  have havoid₁ := fun t ht => havoid t (mem_cons_of_mem _ ht)
  have hreads₁ := readsPairs_of_agreesOff (newFrom n) hrest hagree₁ havoid₁
  obtain ⟨env', last, hlast, hrun, hagree, hvalue⟩ := run_compareRest hops hbits ts pairs env₁ n
    (n + 1) (cmp v.1 v.2) (lt_succ_self n) (if_pos rfl)
    (fun t ht => ⟨(havoid₁ t ht).1.mono (newFrom_mono (by omega)),
      (havoid₁ t ht).2.mono (newFrom_mono (by omega))⟩) hreads₁
  refine ⟨env', last, hlast, ?_, hagree₁.trans (hagree.mono (newFrom_mono (by omega))), hvalue⟩
  have hcode : (compareChunks cmpOp combineOp carryType (t :: ts) none n).1 =
      build cmpOp [buildVReg n carryType, t.1, t.2] ::
        (compareChunks cmpOp combineOp carryType ts (some (buildVReg n carryType)) (n + 1)).1 :=
    rfl
  rw [hcode, run, hexec, bind_some]
  exact hrun

end

end Compare

/-! ## Operations on single chunks -/

theorem run_elementwise (opcode : MirInstructionOpCode) (n : ℕ) (ts : List (ℕ × List TypedOperand))
    (values : List ℕ) (env : RegisterFile) (hnodup : (ts.map Prod.fst).Nodup)
    (hlt : ∀ t ∈ ts, t.1 < n) (hexec : Forall₂ (fun t v => v < 2 ^ type.totalSizeInBits ∧ ∀ env₁,
      AgreesOff (writtenBy (ts.map Prod.fst) n) env env₁ → exec env₁ (build opcode (buildVReg t.1
      type :: t.2)) = write env₁ (buildVReg t.1 type) v) ts values) :
    ∃ env', run env (ts.map fun t => build opcode (buildVReg t.1 type :: t.2)) = some env' ∧
      AgreesOff (writtenBy (ts.map Prod.fst) n) env env' ∧
      Forall₂ (fun t v => env' (newRegister t.1) = v ∧ v < 2 ^ type.totalSizeInBits)
        ts values := by
  induction ts generalizing values env with
  | nil =>
    cases hexec
    exact ⟨env, rfl, AgreesOff.refl _ _, .nil⟩
  | cons t ts ih =>
    cases hexec with
    | @cons _ v _ values hhead hrest =>
    obtain ⟨hd, hnodup⟩ := nodup_cons.mp hnodup
    obtain ⟨hv, hhead⟩ := hhead
    have hagree : AgreesOff (writtenBy (t.1 :: ts.map Prod.fst) n) env
        (set env (newRegister t.1) v) := by
      refine (agreesOff_set env _ _).mono ?_
      rintro r rfl
      exact newRegister_mem_writtenBy.mpr (Or.inl mem_cons_self)
    have hsub : writtenBy (ts.map Prod.fst) n ⊆ writtenBy (t.1 :: ts.map Prod.fst) n := by
      rintro r ⟨k, hk, rfl⟩
      exact ⟨k, hk.imp (mem_cons_of_mem _) id, rfl⟩
    obtain ⟨env', hrun, hagree', hvalues⟩ := ih values (set env (newRegister t.1) v) hnodup
      (fun s hs => hlt s (mem_cons_of_mem _ hs))
      (hrest.imp fun s w h => ⟨h.1, fun env₁ h₁ => h.2 env₁ (hagree.trans (h₁.mono hsub))⟩)
    refine ⟨env', ?_, hagree.trans (hagree'.mono hsub), .cons ⟨?_, hv⟩ hvalues⟩
    · rw [map_cons, run, hhead env (AgreesOff.refl _ _), write_buildVReg env t.1 type hv, bind_some]
      exact hrun
    · have hkeep : newRegister t.1 ∉ writtenBy (ts.map Prod.fst) n := by
        rw [newRegister_mem_writtenBy]
        rintro (hmem | hle)
        · exact hd hmem
        · exact Nat.not_lt_of_le hle (hlt t mem_cons_self)
      rw [hagree' _ hkeep]
      exact if_pos rfl

end EzPacker.Legalizer
