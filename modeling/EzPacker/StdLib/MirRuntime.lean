import EzPacker.StdLib.StringRoutines

/-!
# The routines of the MIR runtime

The memory routines as they are written in the MIR of the runtime. A PHI takes the value of the
block that it names; where the block that was left is not named there is no value, and the run is
stuck. `memcmp` names `compare` in the place of `advance`, so it is stuck behind the first bytes
that are the same.
-/

namespace EzPacker.StdLib

open Nat

namespace MirRuntime

open Lib ByteMemory

/-! ## The MIR of the runtime -/

inductive Register
  | dst | src | s1 | s2 | n | val | zero | one | zeroByte | bval | i | cond | byte | nextI | retV
  | isOverlap | iFwd | condFwd | byteFwd | nextIFwd | iBwd | condBwd | prevIBwd | byteBwd
  | hasMore | b1 | b2 | isDiff | isGt | posOne | negOne | zeroRes
  deriving DecidableEq, Repr

inductive Label
  | entry | check | body | exit | forwardCheck | forwardBody | backwardInit | backwardCheck
  | backwardBody | done | compare | advance | diffBranch | retPos | retNeg | equalExit
  deriving DecidableEq, Repr

inductive MirType
  | i8 | i32 | i64
  deriving DecidableEq, Repr

def MirType.bits : MirType → ℕ
  | i8 => 8
  | i32 => 32
  | i64 => 64

/-- The low bits of a value. -/
def MirType.cut (type : MirType) (value : BitVec 64) : BitVec 64 :=
  BitVec.ofNat 64 (value.toNat % 2 ^ type.bits)

/-- The instructions of the runtime. Bytes are loaded and stored at `[%base + %index * 1 + 0]`. -/
inductive Instruction
  | MOV (type : MirType) (dest : Register) (value : ℤ)
  | TRUNC (type : MirType) (dest source : Register)
  | PHI (dest : Register) (incoming : List (Register × Label))
  | CMP_ULT (dest source1 source2 : Register)
  | CMP_UGT (dest source1 source2 : Register)
  | CMP_NE (dest source1 source2 : Register)
  | LOAD (dest base index : Register)
  | STORE (base index source : Register)
  | ADD (dest source1 source2 : Register)
  | SUB (dest source1 source2 : Register)
  | BR (target : Label)
  | BR_COND (test : Register) (target otherwise : Label)
  | RET (value : Register)

open Instruction Register Label

/-- The code of the blocks. -/
abbrev MirFunction := Label → List Instruction

def memcpy : MirFunction
  | .entry => [MOV .i64 zero 0, MOV .i64 one 1, BR check]
  | .check =>
    [PHI i [(zero, .entry), (nextI, .body)], CMP_ULT cond i n, BR_COND cond .body .exit]
  | .body => [LOAD byte src i, STORE dst i byte, ADD nextI i one, BR check]
  | .exit => [RET dst]
  | _ => []

def memset : MirFunction
  | .entry => [MOV .i64 zero 0, MOV .i64 one 1, TRUNC .i8 bval val, BR check]
  | .check =>
    [PHI i [(zero, .entry), (nextI, .body)], CMP_ULT cond i n, BR_COND cond .body .exit]
  | .body => [STORE dst i bval, ADD nextI i one, BR check]
  | .exit => [RET dst]
  | _ => []

def bzero : MirFunction
  | .entry => [MOV .i64 zero 0, MOV .i8 zeroByte 0, MOV .i64 one 1, BR check]
  | .check =>
    [PHI i [(zero, .entry), (nextI, .body)], CMP_ULT cond i n, BR_COND cond .body .exit]
  | .body => [STORE dst i zeroByte, ADD nextI i one, BR check]
  | .exit => [MOV .i64 retV 0, RET retV]
  | _ => []

def memmove : MirFunction
  | .entry =>
    [MOV .i64 zero 0, MOV .i64 one 1, CMP_UGT isOverlap dst src,
      BR_COND isOverlap backwardInit forwardCheck]
  | .forwardCheck =>
    [PHI iFwd [(zero, .entry), (nextIFwd, .forwardBody)], CMP_ULT condFwd iFwd n,
      BR_COND condFwd .forwardBody .done]
  | .forwardBody =>
    [LOAD byteFwd src iFwd, STORE dst iFwd byteFwd, ADD nextIFwd iFwd one, BR forwardCheck]
  | .backwardInit => [BR backwardCheck]
  | .backwardCheck =>
    [PHI iBwd [(n, .backwardInit), (prevIBwd, .backwardBody)], CMP_UGT condBwd iBwd zero,
      BR_COND condBwd .backwardBody .done]
  | .backwardBody =>
    [SUB prevIBwd iBwd one, LOAD byteBwd src prevIBwd, STORE dst prevIBwd byteBwd, BR backwardCheck]
  | .done => [RET dst]
  | _ => []

def memcmp : MirFunction
  | .entry => [MOV .i64 zero 0, MOV .i64 one 1, BR check]
  | .check =>
    [PHI i [(zero, .entry), (nextI, .compare)], CMP_ULT hasMore i n,
      BR_COND hasMore .compare .equalExit]
  | .compare =>
    [LOAD b1 s1 i, LOAD b2 s2 i, CMP_NE isDiff b1 b2, BR_COND isDiff .diffBranch .advance]
  | .advance => [ADD nextI i one, BR check]
  | .diffBranch => [CMP_UGT isGt b1 b2, BR_COND isGt .retPos .retNeg]
  | .retPos => [MOV .i32 posOne 1, RET posOne]
  | .retNeg => [MOV .i32 negOne (-1), RET negOne]
  | .equalExit => [MOV .i32 zeroRes 0, RET zeroRes]
  | _ => []

/-! ## Runs -/

structure Env where
  regs : Register → BitVec 64
  memory : Traced

def Env.set (e : Env) (dest : Register) (value : BitVec 64) : Env :=
  { e with regs := fun r => if r = dest then value else e.regs r }

inductive Exit
  | branch (target : Label)
  | ret (value : BitVec 64)

def flag (b : Bool) : BitVec 64 := if b then 1 else 0

/-- The value of a PHI behind a block. -/
def incomingAt (came : Option Label) (incoming : List (Register × Label)) : Option Register :=
  (incoming.find? fun pair => came = some pair.2).map Prod.fst

/-- The code of a block, with the block that was left before. -/
def execute (came : Option Label) : List Instruction → Env → Option (Exit × Env)
  | [], _ => none
  | MOV type dest value :: rest, e =>
    execute came rest (e.set dest (type.cut (BitVec.ofInt 64 value)))
  | TRUNC type dest source :: rest, e =>
    execute came rest (e.set dest (type.cut (e.regs source)))
  | PHI dest incoming :: rest, e =>
    match incomingAt came incoming with
    | some source => execute came rest (e.set dest (e.regs source))
    | none => none
  | CMP_ULT dest source1 source2 :: rest, e =>
    execute came rest (e.set dest (flag (e.regs source1 < e.regs source2)))
  | CMP_UGT dest source1 source2 :: rest, e =>
    execute came rest (e.set dest (flag (e.regs source2 < e.regs source1)))
  | CMP_NE dest source1 source2 :: rest, e =>
    execute came rest (e.set dest (flag (e.regs source1 ≠ e.regs source2)))
  | LOAD dest base index :: rest, e =>
    let (loaded, memory) := e.memory.load (e.regs base + e.regs index)
    execute came rest ({ e with memory := memory }.set dest (BitVec.ofNat 64 loaded.toNat))
  | STORE base index source :: rest, e =>
    execute came rest { e with
      memory := e.memory.store (e.regs base + e.regs index) (UInt8.ofNat (e.regs source).toNat) }
  | ADD dest source1 source2 :: rest, e =>
    execute came rest (e.set dest (e.regs source1 + e.regs source2))
  | SUB dest source1 source2 :: rest, e =>
    execute came rest (e.set dest (e.regs source1 - e.regs source2))
  | BR target :: _, e => some (.branch target, e)
  | BR_COND test target otherwise :: _, e =>
    some (.branch (if e.regs test ≠ 0 then target else otherwise), e)
  | RET value :: _, e => some (.ret (e.regs value), e)

structure State where
  came : Option Label
  label : Label
  env : Env

def step (f : MirFunction) (s : State) : Option (State ⊕ BitVec 64 × Traced) :=
  match execute s.came (f s.label) s.env with
  | none => none
  | some (.branch target, env) => some (.inl ⟨some s.label, target, env⟩)
  | some (.ret value, env) => some (.inr (value, env.memory))

def call (f : MirFunction) (params : Register → BitVec 64) (fuel : ℕ) (t : Traced) :
    Option (BitVec 64 × Traced) :=
  loop (step f) fuel ⟨none, .entry, ⟨params, t⟩⟩

/-- A run from a block comes to an end. -/
def Returns (f : MirFunction) (came : Option Label) (label : Label) (e : Env) (value : BitVec 64)
    (t : Traced) : Prop :=
  ∃ fuel, loop (step f) fuel ⟨came, label, e⟩ = some (value, t)

section

variable {f : MirFunction} {came : Option Label} {label : Label} {e : Env} {value : BitVec 64}
  {t : Traced}

theorem Returns.branch {target : Label} {e' : Env}
    (h : execute came (f label) e = some (.branch target, e'))
    (hreturns : Returns f (some label) target e' value t) : Returns f came label e value t := by
  obtain ⟨fuel, hfuel⟩ := hreturns
  refine ⟨fuel + 1, ?_⟩
  have hstep : step f ⟨came, label, e⟩ = some (.inl ⟨some label, target, e'⟩) := by
    unfold step
    rw [h]
  unfold loop
  rw [hstep]
  exact hfuel

theorem Returns.ret {e' : Env} (h : execute came (f label) e = some (.ret value, e')) :
    Returns f came label e value e'.memory := by
  refine ⟨1, ?_⟩
  have hstep : step f ⟨came, label, e⟩ = some (.inr (value, e'.memory)) := by
    unfold step
    rw [h]
  unfold loop
  rw [hstep]

theorem Returns.of_branch {target : Label} {e' : Env}
    (h : execute came (f label) e = some (.branch target, e'))
    (hreturns : Returns f came label e value t) : Returns f (some label) target e' value t := by
  obtain ⟨fuel, hfuel⟩ := hreturns
  have hstep : step f ⟨came, label, e⟩ = some (.inl ⟨some label, target, e'⟩) := by
    unfold step
    rw [h]
  cases fuel with
  | zero => cases hfuel
  | succ fuel =>
    unfold loop at hfuel
    rw [hstep] at hfuel
    exact ⟨fuel, hfuel⟩

theorem not_returns_of_stuck (h : execute came (f label) e = none) :
    ¬Returns f came label e value t := by
  rintro ⟨fuel, hfuel⟩
  have hstep : step f ⟨came, label, e⟩ = none := by
    unfold step
    rw [h]
  cases fuel with
  | zero => cases hfuel
  | succ fuel =>
    unfold loop at hfuel
    rw [hstep] at hfuel
    cases hfuel

/-- A loop in the code: every round from its head comes back to it with one round less left. -/
theorem Returns.rounds {head : Label} {n : ℕ} {Inv : ℕ → Option Label → Env → Prop}
    {Post : BitVec 64 → Traced → Prop}
    (hround : ∀ i came e, i < n → Inv i came e → ∃ came' e', Inv (i + 1) came' e' ∧
      ∀ value t, Returns f came' head e' value t → Returns f came head e value t)
    (hlast : ∀ came e, Inv n came e → ∃ value t, Returns f came head e value t ∧ Post value t)
    {i : ℕ} (hi : i ≤ n) (hinv : Inv i came e) :
    ∃ value t, Returns f came head e value t ∧ Post value t := by
  induction hk : n - i generalizing i came e with
  | zero =>
    obtain rfl : i = n := by omega
    exact hlast came e hinv
  | succ k ih =>
    obtain ⟨came', e', hinv', hback⟩ := hround i came e (by omega) hinv
    obtain ⟨value, t, hreturns, hpost⟩ := ih (by omega) hinv' (by omega)
    exact ⟨value, t, hback value t hreturns, hpost⟩

/-! ## `memcpy`, `memset` and `bzero` -/

/-- A counter that is below the length. -/
theorem ofNat_lt {i : ℕ} {n : BitVec 64} (hi : i < n.toNat) : BitVec.ofNat 64 i < n := by
  bv_omega

theorem not_ofNat_lt (n : BitVec 64) : ¬BitVec.ofNat 64 n.toNat < n := by
  bv_omega

theorem cut_byte (b : UInt8) : UInt8.ofNat (BitVec.ofNat 64 b.toNat).toNat = b := by
  have hlt := b.toNat_lt
  rw [BitVec.toNat_ofNat, mod_eq_of_lt (by omega), UInt8.ofNat_toNat]

theorem ite_flag {α : Type*} (b : Bool) (x y : α) :
    (if flag b ≠ 0 then x else y) = if b = true then x else y := by
  cases b <;> rfl

theorem execute_head {came : Option Label} {e : Env} {counter test bound r : Register}
    {incoming : List (Register × Label)} {target otherwise : Label}
    (hphi : incomingAt came incoming = some r) (hne : bound ≠ counter) :
    execute came [PHI counter incoming, CMP_ULT test counter bound, BR_COND test target otherwise]
        e =
      some (.branch (if e.regs r < e.regs bound then target else otherwise),
        (e.set counter (e.regs r)).set test (flag (e.regs r < e.regs bound))) := by
  unfold execute
  rw [hphi]
  simp only [execute, Env.set, if_neg hne, if_true, ite_flag, decide_eq_true_eq]

theorem execute_downHead {came : Option Label} {e : Env} {counter test bound r : Register}
    {incoming : List (Register × Label)} {target otherwise : Label}
    (hphi : incomingAt came incoming = some r) (hne : bound ≠ counter) :
    execute came [PHI counter incoming, CMP_UGT test counter bound, BR_COND test target otherwise]
        e =
      some (.branch (if e.regs bound < e.regs r then target else otherwise),
        (e.set counter (e.regs r)).set test (flag (e.regs bound < e.regs r))) := by
  unfold execute
  rw [hphi]
  simp only [execute, Env.set, if_neg hne, if_true, ite_flag, decide_eq_true_eq]

def Takes (came : Option Label) (e : Env) (incoming : List (Register × Label))
    (value : BitVec 64) : Prop :=
  ∃ r, incomingAt came incoming = some r ∧ e.regs r = value

def checkIncoming : List (Register × Label) := [(zero, .entry), (nextI, .body)]

/-- A loop whose body is executed once for every number below the length. -/
theorem returns_counted {length : BitVec 64} {Inv : ℕ → Env → Prop}
    {Post : BitVec 64 → Traced → Prop} (hcheck : f .check = memcpy .check)
    (hlength : ∀ i e, Inv i e → e.regs .n = length)
    (hset : ∀ i e v w, Inv i e → Inv i ((e.set .i v).set .cond w))
    (hbody : ∀ i e, i < length.toNat → Inv i e → e.regs .i = BitVec.ofNat 64 i →
      ∃ e', execute (some Label.check) (f .body) e = some (.branch .check, e') ∧
        e'.regs nextI = BitVec.ofNat 64 i + 1 ∧ Inv (i + 1) e')
    (hexit : ∀ e, Inv length.toNat e → ∃ value e',
      execute (some Label.check) (f .exit) e = some (.ret value, e') ∧ Post value e'.memory)
    (hcounts : Takes came e checkIncoming 0) (hinv : Inv 0 e) :
    ∃ value t, Returns f came .check e value t ∧ Post value t := by
  refine @Returns.rounds f came e .check length.toNat
    (fun i came e => Takes came e checkIncoming (BitVec.ofNat 64 i) ∧ Inv i e) Post ?_ ?_ 0
    (zero_le _) ⟨hcounts, hinv⟩
  · rintro i came e hi ⟨⟨r, hphi, hr⟩, hinv⟩
    have hhead := @execute_head came e .i .cond .n r _ .body .exit hphi (by decide)
    rw [hlength i e hinv, hr, if_pos (ofNat_lt hi)] at hhead
    change execute came (memcpy .check) e = _ at hhead
    rw [← hcheck] at hhead
    obtain ⟨e', hrun, hnext, hinv'⟩ := hbody i _ hi (hset i e _ _ hinv) rfl
    refine ⟨some .body, e', ⟨⟨nextI, rfl, ?_⟩, hinv'⟩, fun value t hreturns =>
      .branch hhead (.branch hrun hreturns)⟩
    rw [hnext]
    exact (BitVec.ofNat_add i 1).symm
  · rintro came e ⟨⟨r, hphi, hr⟩, hinv⟩
    have hhead := @execute_head came e .i .cond .n r _ .body .exit hphi (by decide)
    rw [hlength _ e hinv, hr, if_neg (not_ofNat_lt length)] at hhead
    change execute came (memcpy .check) e = _ at hhead
    rw [← hcheck] at hhead
    obtain ⟨value, e', hrun, hpost⟩ := hexit _ (hset _ e _ _ hinv)
    exact ⟨value, e'.memory, .branch hhead (.ret hrun), hpost⟩

variable {dest source length : BitVec 64} {params : Register → BitVec 64}

/-- The loop of `memcpy`, with `i` bytes copied. -/
structure CopyLoop (dest source length : BitVec 64) (t : Traced) (i : ℕ) (e : Env) : Prop where
  dst_eq : e.regs .dst = dest
  src_eq : e.regs .src = source
  n_eq : e.regs .n = length
  one_eq : e.regs .one = 1
  copying : Copying dest source length t 0 i e.memory

theorem memcpy_returns (hapart : Apart dest source length) (hdst : params .dst = dest)
    (hsrc : params .src = source) (hn : params .n = length) (t : Traced) :
    ∃ value t', Returns memcpy none .entry ⟨params, t⟩ value t' ∧
      value = dest ∧ Copies dest source length t t' := by
  obtain ⟨value, t', hreturns, hpost⟩ := @returns_counted memcpy (some .entry)
    (((⟨params, t⟩ : Env).set zero 0).set one 1) length (CopyLoop dest source length t)
    (fun value t' => value = dest ∧ Copies dest source length t t') rfl
    (fun _ _ h => h.n_eq) (fun _ _ _ _ h => ⟨h.1, h.2, h.3, h.4, h.5⟩)
    (fun i e hi h hcounter => by
      refine ⟨_, rfl, ?_, h.dst_eq, h.src_eq, h.n_eq, h.one_eq, ?_⟩
      · change e.regs .i + e.regs one = _
        rw [hcounter, h.one_eq]
      · change Copying dest source length t 0 (i + 1)
          ((e.memory.load (e.regs .src + e.regs .i)).2.store (e.regs .dst + e.regs .i)
            (UInt8.ofNat (BitVec.ofNat 64 (e.memory.load (e.regs .src + e.regs .i)).1.toNat).toNat))
        rw [cut_byte, h.src_eq, h.dst_eq, hcounter]
        exact h.copying.step hi (fun k => by omega) (by omega)
          fun k _ hk => forwardSafe_of_apart hapart i hi k hk)
    (fun e h => ⟨_, e, rfl, h.dst_eq, h.copying.copies⟩)
    ⟨zero, rfl, rfl⟩
    ⟨hdst, hsrc, hn, rfl, CopiedPart.empty .., TouchedOnly.refl _ _ _ _⟩
  exact ⟨value, t', .branch rfl hreturns, hpost⟩

/-- The loop of `memset` and `bzero`, with `i` bytes filled; the byte is in a register. -/
structure FillLoop (dest length : BitVec 64) (filler : Register) (byte : UInt8) (t : Traced)
    (i : ℕ) (e : Env) : Prop where
  dst_eq : e.regs .dst = dest
  n_eq : e.regs .n = length
  one_eq : e.regs .one = 1
  byte_eq : UInt8.ofNat (e.regs filler).toNat = byte
  filling : Filling dest byte length t i e.memory

theorem FillLoop.step {filler : Register} {byte : UInt8} {i : ℕ} {e e' : Env}
    (h : FillLoop dest length filler byte t i e) (hi : i < length.toNat)
    (hcounter : e.regs .i = BitVec.ofNat 64 i)
    (hregs : ∀ r, r ≠ .nextI → e'.regs r = e.regs r) (hfiller : filler ≠ .nextI)
    (hmemory : e'.memory = e.memory.store (e.regs .dst + e.regs .i)
      (UInt8.ofNat (e.regs filler).toNat)) :
    FillLoop dest length filler byte t (i + 1) e' := by
  refine ⟨?_, ?_, ?_, ?_, ?_⟩
  · rw [hregs .dst (by decide), h.dst_eq]
  · rw [hregs .n (by decide), h.n_eq]
  · rw [hregs .one (by decide), h.one_eq]
  · rw [hregs _ hfiller, h.byte_eq]
  · rw [hmemory, h.byte_eq, h.dst_eq, hcounter]
    exact h.filling.step hi

/-- The argument of `memset` is an `i32`, whose value fills a register from its low end. -/
theorem memset_returns {c : BitVec 32} (hdst : params .dst = dest)
    (hval : params .val = c.setWidth 64) (hn : params .n = length) (t : Traced) :
    ∃ value t', Returns memset none .entry ⟨params, t⟩ value t' ∧
      value = dest ∧ Fills dest (UInt8.ofNat c.toNat) length t t' := by
  have hbyte : UInt8.ofNat (MirType.i8.cut (c.setWidth 64)).toNat = UInt8.ofNat c.toNat := by
    unfold MirType.cut
    have hc := c.isLt
    rw [BitVec.toNat_ofNat, BitVec.toNat_setWidth, mod_eq_of_lt (by omega : c.toNat < 2 ^ 64),
      mod_eq_of_lt (b := 2 ^ 64)]
    · exact UInt8.ofNat_mod_size
    · exact (mod_lt _ (by decide)).trans (by decide)
  obtain ⟨value, t', hreturns, hpost⟩ := @returns_counted memset (some .entry)
    ((((⟨params, t⟩ : Env).set zero 0).set one 1).set bval (MirType.i8.cut (params .val)))
    length (FillLoop dest length bval (UInt8.ofNat c.toNat) t)
    (fun value t' => value = dest ∧ Fills dest (UInt8.ofNat c.toNat) length t t') rfl
    (fun _ _ h => h.n_eq) (fun _ _ _ _ h => ⟨h.1, h.2, h.3, h.4, h.5⟩)
    (fun i e hi h hcounter => by
      refine ⟨_, rfl, ?_, h.step hi hcounter (fun r hr => if_neg hr) nofun rfl⟩
      change e.regs .i + e.regs one = _
      rw [hcounter, h.one_eq])
    (fun e h => ⟨_, e, rfl, h.dst_eq, h.filling.filled, h.filling.touched⟩)
    ⟨zero, rfl, rfl⟩
    ⟨hdst, hn, rfl, (congrArg (fun v => UInt8.ofNat (MirType.i8.cut v).toNat) hval).trans hbyte,
      Filling.init ..⟩
  exact ⟨value, t', .branch rfl hreturns, hpost⟩

theorem bzero_returns (hdst : params .dst = dest) (hn : params .n = length) (t : Traced) :
    ∃ value t', Returns bzero none .entry ⟨params, t⟩ value t' ∧ Fills dest 0 length t t' := by
  obtain ⟨value, t', hreturns, hpost⟩ := @returns_counted bzero (some .entry)
    ((((⟨params, t⟩ : Env).set zero 0).set zeroByte 0).set one 1) length
    (FillLoop dest length zeroByte 0 t) (fun _ t' => Fills dest 0 length t t') rfl
    (fun _ _ h => h.n_eq) (fun _ _ _ _ h => ⟨h.1, h.2, h.3, h.4, h.5⟩)
    (fun i e hi h hcounter => by
      refine ⟨_, rfl, ?_, h.step hi hcounter (fun r hr => if_neg hr) nofun rfl⟩
      change e.regs .i + e.regs one = _
      rw [hcounter, h.one_eq])
    (fun e h => ⟨_, _, rfl, h.filling.filled, h.filling.touched⟩)
    ⟨zero, rfl, rfl⟩ ⟨hdst, hn, rfl, rfl, Filling.init ..⟩
  exact ⟨value, t', .branch rfl hreturns, hpost⟩

/-! ## `memmove` -/

/-- The loops of `memmove`, with a part copied. -/
structure MoveLoop (dest source length : BitVec 64) (t : Traced) (lo hi : ℕ) (e : Env) :
    Prop where
  dst_eq : e.regs .dst = dest
  src_eq : e.regs .src = source
  n_eq : e.regs .n = length
  zero_eq : e.regs .zero = 0
  one_eq : e.regs .one = 1
  copying : Copying dest source length t lo hi e.memory

def forwardIncoming : List (Register × Label) := [(zero, .entry), (nextIFwd, .forwardBody)]

def backwardIncoming : List (Register × Label) := [(n, .backwardInit), (prevIBwd, .backwardBody)]

theorem forward_returns (hsafe : ForwardSafe dest source length)
    (hcounts : Takes came e forwardIncoming 0) (hloop : MoveLoop dest source length t 0 0 e) :
    ∃ value t', Returns memmove came .forwardCheck e value t' ∧
      value = dest ∧ Copies dest source length t t' := by
  refine @Returns.rounds memmove came e .forwardCheck length.toNat
    (fun i came e => Takes came e forwardIncoming (BitVec.ofNat 64 i) ∧
      MoveLoop dest source length t 0 i e)
    (fun value t' => value = dest ∧ Copies dest source length t t') ?_ ?_ 0 (zero_le _)
    ⟨hcounts, hloop⟩
  · rintro i came e hi ⟨⟨r, hphi, hr⟩, h⟩
    have hhead := @execute_head came e iFwd condFwd .n r _ .forwardBody .done hphi (by decide)
    rw [h.n_eq, hr, if_pos (ofNat_lt hi)] at hhead
    obtain ⟨e', hrun, hnext, hloop⟩ : ∃ e', execute (some .forwardCheck) (memmove .forwardBody)
        ((e.set iFwd (BitVec.ofNat 64 i)).set condFwd (flag (BitVec.ofNat 64 i < length))) =
          some (.branch .forwardCheck, e') ∧ e'.regs nextIFwd = BitVec.ofNat 64 (i + 1) ∧
        MoveLoop dest source length t 0 (i + 1) e' := by
      refine ⟨_, rfl, ?_, h.dst_eq, h.src_eq, h.n_eq, h.zero_eq, h.one_eq, ?_⟩
      · change BitVec.ofNat 64 i + e.regs one = _
        rw [h.one_eq]
        exact (BitVec.ofNat_add i 1).symm
      · change Copying dest source length t 0 (i + 1)
          ((e.memory.load (e.regs .src + BitVec.ofNat 64 i)).2.store
            (e.regs .dst + BitVec.ofNat 64 i) (UInt8.ofNat (BitVec.ofNat 64
              (e.memory.load (e.regs .src + BitVec.ofNat 64 i)).1.toNat).toNat))
        rw [cut_byte, h.src_eq, h.dst_eq]
        exact h.copying.step hi (fun k => by omega) (by omega) fun k _ hk => hsafe i hi k hk
    exact ⟨some .forwardBody, e', ⟨⟨nextIFwd, rfl, hnext⟩, hloop⟩,
      fun value t hreturns => .branch hhead (.branch hrun hreturns)⟩
  · rintro came e ⟨⟨r, hphi, hr⟩, h⟩
    have hhead := @execute_head came e iFwd condFwd .n r _ .forwardBody .done hphi (by decide)
    rw [h.n_eq, hr, if_neg (not_ofNat_lt length)] at hhead
    exact ⟨_, _, .branch hhead (.ret rfl), h.dst_eq, h.copying.copies⟩

theorem backward_returns (hsafe : BackwardSafe dest source length)
    (hcounts : Takes came e backwardIncoming length)
    (hloop : MoveLoop dest source length t length.toNat length.toNat e) :
    ∃ value t', Returns memmove came .backwardCheck e value t' ∧
      value = dest ∧ Copies dest source length t t' := by
  have hlength := length.isLt
  refine @Returns.rounds memmove came e .backwardCheck length.toNat
    (fun i came e => Takes came e backwardIncoming (BitVec.ofNat 64 (length.toNat - i)) ∧
      MoveLoop dest source length t (length.toNat - i) length.toNat e)
    (fun value t' => value = dest ∧ Copies dest source length t t') ?_ ?_ 0 (zero_le _) ?_
  · rintro i came e hi ⟨⟨r, hphi, hr⟩, h⟩
    obtain ⟨k, hk⟩ : ∃ k, length.toNat - i = k + 1 := ⟨length.toNat - i - 1, by omega⟩
    have hk' : length.toNat - (i + 1) = k := by omega
    have hhead := @execute_downHead came e iBwd condBwd .zero r _ .backwardBody .done hphi
      (by decide)
    have hpos : (0 : BitVec 64) < BitVec.ofNat 64 (k + 1) := by bv_omega
    rw [hk] at hr h
    rw [h.zero_eq, hr, if_pos hpos] at hhead
    have hpred : BitVec.ofNat 64 (k + 1) - 1 = BitVec.ofNat 64 k := by
      rw [BitVec.ofNat_add]
      exact BitVec.add_sub_cancel _ _
    obtain ⟨e', hrun, hnext, hloop⟩ : ∃ e', execute (some .backwardCheck) (memmove .backwardBody)
        ((e.set iBwd (BitVec.ofNat 64 (k + 1))).set condBwd
          (flag (0 < BitVec.ofNat 64 (k + 1)))) = some (.branch .backwardCheck, e') ∧
        e'.regs prevIBwd = BitVec.ofNat 64 k ∧ MoveLoop dest source length t k length.toNat e' := by
      refine ⟨_, rfl, ?_, h.dst_eq, h.src_eq, h.n_eq, h.zero_eq, h.one_eq, ?_⟩
      · change BitVec.ofNat 64 (k + 1) - e.regs one = _
        rw [h.one_eq, hpred]
      · change Copying dest source length t k length.toNat
          ((e.memory.load (e.regs .src + (BitVec.ofNat 64 (k + 1) - e.regs one))).2.store
            (e.regs .dst + (BitVec.ofNat 64 (k + 1) - e.regs one)) (UInt8.ofNat
              (BitVec.ofNat 64 (e.memory.load
                (e.regs .src + (BitVec.ofNat 64 (k + 1) - e.regs one))).1.toNat).toNat))
        rw [cut_byte, h.src_eq, h.dst_eq, h.one_eq, hpred]
        exact h.copying.step (by omega) (fun j => by omega) le_rfl
          fun j hj hjn => hsafe k (by omega) j (by omega) hjn
    rw [← hk'] at hnext hloop
    exact ⟨some .backwardBody, e', ⟨⟨prevIBwd, rfl, hnext⟩, hloop⟩,
      fun value t hreturns => .branch hhead (.branch hrun hreturns)⟩
  · rintro came e ⟨⟨r, hphi, hr⟩, h⟩
    rw [Nat.sub_self] at hr h
    have hhead := @execute_downHead came e iBwd condBwd .zero r _ .backwardBody .done hphi
      (by decide)
    rw [h.zero_eq, hr, if_neg (by decide)] at hhead
    exact ⟨_, _, .branch hhead (.ret rfl), h.dst_eq, h.copying.copies⟩
  · rw [Nat.sub_zero, BitVec.ofNat_toNat, BitVec.setWidth_eq]
    exact ⟨hcounts, hloop⟩

theorem memmove_returns (hdest : Fits dest length) (hsource : Fits source length)
    (hdst : params .dst = dest) (hsrc : params .src = source) (hn : params .n = length)
    (t : Traced) :
    ∃ value t', Returns memmove none .entry ⟨params, t⟩ value t' ∧
      value = dest ∧ Copies dest source length t t' := by
  have hentry : execute none (memmove .entry) ⟨params, t⟩ =
      some (.branch (if source < dest then .backwardInit else .forwardCheck),
        (((⟨params, t⟩ : Env).set zero 0).set one 1).set isOverlap (flag (source < dest))) := by
    rw [← hdst, ← hsrc]
    refine congrArg (fun target => some (Exit.branch target, _)) ((ite_flag _ _ _).trans ?_)
    simp only [decide_eq_true_eq]
    rfl
  split_ifs at hentry with hlt
  · obtain ⟨value, t', hreturns, hpost⟩ := @backward_returns (some .backwardInit)
      ((((⟨params, t⟩ : Env).set zero 0).set one 1).set isOverlap (flag (source < dest))) t dest
      source length (backwardSafe_of_le hdest hsource (le_of_lt hlt)) ⟨n, rfl, hn⟩
      ⟨hdst, hsrc, hn, rfl, rfl, CopiedPart.empty .., TouchedOnly.refl _ _ _ _⟩
    exact ⟨value, t', .branch hentry (.branch rfl hreturns), hpost⟩
  · obtain ⟨value, t', hreturns, hpost⟩ := @forward_returns (some .entry)
      ((((⟨params, t⟩ : Env).set zero 0).set one 1).set isOverlap (flag (source < dest))) t dest
      source length (forwardSafe_of_le hdest hsource (not_lt.mp hlt)) ⟨zero, rfl, rfl⟩
      ⟨hdst, hsrc, hn, rfl, rfl, CopiedPart.empty .., TouchedOnly.refl _ _ _ _⟩
    exact ⟨value, t', .branch hentry hreturns, hpost⟩

/-! ## `memcmp` -/

/-- The `int` in a register. -/
def intResult (value : BitVec 64) : ℤ := (value.setWidth 32).toInt

/-- The registers at the first head of the loop of `memcmp`. -/
def atHead (params : Register → BitVec 64) (t : Traced) : Env :=
  (((⟨params, t⟩ : Env).set zero 0).set one 1)

def inCompare (params : Register → BitVec 64) (length : BitVec 64) (t : Traced) : Env :=
  ((atHead params t).set i 0).set hasMore (flag (0 < length))

theorem memcmp_check (hn : params .n = length) (t : Traced) :
    execute (some Label.entry) (memcmp .check) (atHead params t) =
      some (.branch (if 0 < length then .compare else .equalExit), inCompare params length t) := by
  have hhead := @execute_head (some .entry) (atHead params t) .i hasMore .n zero
    [(zero, .entry), (nextI, .compare)] .compare .equalExit rfl (by decide)
  have hbound : (atHead params t).regs .n = length := hn
  rw [hbound] at hhead
  exact hhead

/-- The first bytes, loaded and compared. -/
def compared (params : Register → BitVec 64) (length x y : BitVec 64) (b1 b2 : UInt8)
    (t : Traced) : Env :=
  ((({ inCompare params length t with memory := ((t.load x).2.load y).2 }.set .b1
    (BitVec.ofNat 64 b1.toNat)).set .b2 (BitVec.ofNat 64 b2.toNat)).set isDiff (flag (b1 ≠ b2)))

theorem ofNat_byte_inj {x y : UInt8} :
    BitVec.ofNat 64 x.toNat ≠ BitVec.ofNat 64 y.toNat ↔ x ≠ y := by
  have hx := x.toNat_lt
  have hy := y.toNat_lt
  refine not_congr ⟨fun h => UInt8.toNat_inj.mp ?_, fun h => by rw [h]⟩
  bv_omega

theorem ofNat_byte_lt {x y : UInt8} :
    BitVec.ofNat 64 x.toNat < BitVec.ofNat 64 y.toNat ↔ x.toNat < y.toNat := by
  have hx := x.toNat_lt
  have hy := y.toNat_lt
  bv_omega

variable {x y : BitVec 64}

theorem memcmp_compare (hs1 : params .s1 = x) (hs2 : params .s2 = y) (t : Traced) :
    execute (some Label.check) (memcmp .compare) (inCompare params length t) =
      some (.branch (if t.mem x ≠ t.mem y then .diffBranch else .advance),
        compared params length x y (t.mem x) (t.mem y) t) := by
  have hx : params .s1 + (0 : BitVec 64) = x := by
    rw [hs1]
    exact BitVec.add_zero x
  have hy : params .s2 + (0 : BitVec 64) = y := by
    rw [hs2]
    exact BitVec.add_zero y
  have hrun : execute (some Label.check) (memcmp .compare) (inCompare params length t) =
      some (.branch (if flag (BitVec.ofNat 64 (t.mem (params .s1 + 0)).toNat ≠
            BitVec.ofNat 64 (t.mem (params .s2 + 0)).toNat) ≠ 0 then .diffBranch else .advance),
        ((({ inCompare params length t with
          memory := ((t.load (params .s1 + 0)).2.load (params .s2 + 0)).2 }.set .b1
            (BitVec.ofNat 64 (t.mem (params .s1 + 0)).toNat)).set .b2
              (BitVec.ofNat 64 (t.mem (params .s2 + 0)).toNat)).set isDiff
                (flag (BitVec.ofNat 64 (t.mem (params .s1 + 0)).toNat ≠
                  BitVec.ofNat 64 (t.mem (params .s2 + 0)).toNat)))) := rfl
  rw [hrun, hx, hy, ite_flag]
  unfold compared
  simp only [ofNat_byte_inj, decide_eq_true_eq]

theorem memcmp_diffBranch (b1 b2 : UInt8) (t : Traced) :
    ∃ e', execute (some Label.compare) (memcmp .diffBranch) (compared params length x y b1 b2 t) =
      some (.branch (if b2.toNat < b1.toNat then .retPos else .retNeg), e') ∧
        e'.memory = ((t.load x).2.load y).2 := by
  refine ⟨_, Eq.trans rfl (congrArg (fun target => some (Exit.branch target, _))
    ((ite_flag (decide (BitVec.ofNat 64 b2.toNat < BitVec.ofNat 64 b1.toNat)) _ _).trans ?_)), rfl⟩
  simp only [ofNat_byte_lt, decide_eq_true_eq]

/-- Without a length the objects are equal. -/
theorem memcmp_returns_zero (hn : params .n = 0) (t : Traced) :
    ∃ value t', Returns memcmp none .entry ⟨params, t⟩ value t' ∧
      Compares x y 0 t (intResult value) t' := by
  have hcheck := memcmp_check hn t
  rw [if_neg (by decide)] at hcheck
  have hinit : Comparing x y 0 t 0 t :=
    ⟨rfl, TouchedOnly.refl _ _ _ _, fun _ hk => absurd hk (not_lt_zero _)⟩
  refine ⟨_, _, .branch rfl (.branch hcheck (.ret rfl)), ?_⟩
  exact hinit.done

section

variable (hs1 : params .s1 = x) (hs2 : params .s2 = y) (hn : params .n = length) (hpos : 0 < length)
include hs1 hs2 hn hpos

/-- First bytes that differ give the result. -/
theorem memcmp_returns_ne (t : Traced) (hne : t.mem x ≠ t.mem y) :
    ∃ value t', Returns memcmp none .entry ⟨params, t⟩ value t' ∧
      Compares x y length t (intResult value) t' := by
  have hcheck := memcmp_check hn t
  have hcompare := @memcmp_compare length params x y hs1 hs2 t
  rw [if_pos hpos] at hcheck
  rw [if_pos hne] at hcompare
  obtain ⟨e', hdiff, hmemory⟩ :=
    @memcmp_diffBranch length params x y (t.mem x) (t.mem y) t
  have hpos : 0 < length.toNat := hpos
  have hcomparing : Comparing x y length t 0 ((t.load x).2.load y).2 := by
    have hinit : Comparing x y length t 0 t :=
      ⟨rfl, TouchedOnly.refl _ _ _ _, fun _ hk => absurd hk (not_lt_zero _)⟩
    have hloaded := hinit.loaded hpos
    rwa [BitVec.add_zero, BitVec.add_zero] at hloaded
  have hsign {result : ℤ} (h : result.sign = (((t.mem x).toNat : ℤ) - (t.mem y).toNat).sign) :
      Compares x y length t result ((t.load x).2.load y).2 := by
    refine hcomparing.differs hpos ?_ ?_
    · rwa [BitVec.add_zero, BitVec.add_zero]
    · rwa [BitVec.add_zero, BitVec.add_zero]
  split_ifs at hdiff with hgt
  · refine ⟨1, _, .branch rfl (.branch hcheck (.branch hcompare (.branch hdiff (.ret rfl)))), ?_⟩
    change Compares x y length t 1 e'.memory
    rw [hmemory]
    exact hsign (Int.sign_eq_one_of_pos (by omega)).symm
  · have hlt : (t.mem x).toNat < (t.mem y).toNat :=
      lt_of_le_of_ne (not_lt.mp hgt) fun h => hne (UInt8.toNat_inj.mp h)
    refine ⟨0xFFFFFFFF, _,
      .branch rfl (.branch hcheck (.branch hcompare (.branch hdiff (.ret rfl)))), ?_⟩
    change Compares x y length t (-1) e'.memory
    rw [hmemory]
    exact hsign (Int.sign_eq_neg_one_of_neg (by omega)).symm

/-- Behind first bytes that are the same the PHI has no value. -/
theorem memcmp_stuck (t : Traced) (heq : t.mem x = t.mem y) (value : BitVec 64) (t' : Traced) :
    ¬Returns memcmp none .entry ⟨params, t⟩ value t' := by
  intro hreturns
  have hcheck := memcmp_check hn t
  have hcompare := @memcmp_compare length params x y hs1 hs2 t
  rw [if_pos hpos] at hcheck
  rw [if_neg (not_not.mpr heq)] at hcompare
  have hcompared := (((hreturns.of_branch rfl).of_branch hcheck).of_branch hcompare)
  exact not_returns_of_stuck rfl (hcompared.of_branch rfl)

end

end

/-! ## All routines -/

/-- The parameters have the arguments, the other registers have any value. -/
def arguments (junk : Register → BitVec 64) (args : List (Register × BitVec 64)) :
    Register → BitVec 64 := fun r => (args.lookup r).getD (junk r)

/-- The routines of both libraries do what the standard demands. -/
structure RoutinesRight (x y length : BitVec 64) (c : BitVec 32) (junk : Register → BitVec 64)
    (t : Traced) : Prop where
  memcpyC : Apart x y length →
    ∃ fuel t', StdLib.memcpy fuel x y length t = some (x, t') ∧ Copies x y length t t'
  memmoveC : Fits x length → Fits y length →
    ∃ fuel t', StdLib.memmove fuel x y length t = some (x, t') ∧ Copies x y length t t'
  memsetC : ∃ fuel t', StdLib.memset fuel x c length t = some (x, t') ∧
    Fills x (UInt8.ofNat c.toNat) length t t'
  memcmpC : ∃ fuel result t', StdLib.memcmp fuel x y length t = some (result, t') ∧
    Compares x y length t result t'
  memcpyMir : Apart x y length → ∃ fuel t',
    call memcpy (arguments junk [(.dst, x), (.src, y), (.n, length)]) fuel t = some (x, t') ∧
      Copies x y length t t'
  memmoveMir : Fits x length → Fits y length → ∃ fuel t',
    call memmove (arguments junk [(.dst, x), (.src, y), (.n, length)]) fuel t = some (x, t') ∧
      Copies x y length t t'
  memsetMir : ∃ fuel t',
    call memset (arguments junk [(.dst, x), (.val, c.setWidth 64), (.n, length)]) fuel t =
      some (x, t') ∧ Fills x (UInt8.ofNat c.toNat) length t t'
  bzeroMir : ∃ fuel value t',
    call bzero (arguments junk [(.dst, x), (.n, length)]) fuel t = some (value, t') ∧
      Fills x 0 length t t'
  memcmpMir : ∃ fuel value t',
    call memcmp (arguments junk [(.s1, x), (.s2, y), (.n, length)]) fuel t = some (value, t') ∧
      Compares x y length t (intResult value) t'

theorem zero_lt_of_ne_zero {length : BitVec 64} (h : length ≠ 0) : 0 < length := by
  bv_omega

/-- All routines are right exactly where the objects have no bytes, or the first bytes differ. -/
theorem routinesRight_iff (x y length : BitVec 64) (c : BitVec 32) (junk : Register → BitVec 64)
    (t : Traced) :
    RoutinesRight x y length c junk t ↔ length = 0 ∨ t.mem x ≠ t.mem y := by
  constructor
  · intro h
    obtain ⟨fuel, value, t', hcall, -⟩ := h.memcmpMir
    by_contra hnot
    obtain ⟨hlength, heq⟩ := not_or.mp hnot
    have hpos : 0 < length := zero_lt_of_ne_zero hlength
    exact memcmp_stuck rfl rfl rfl hpos t (not_not.mp heq) value t' ⟨fuel, hcall⟩
  · intro h
    have hfuel : length.toNat < length.toNat + 1 := lt_succ_self _
    refine ⟨fun hapart => ⟨_, memcpy_total hapart hfuel t⟩,
      fun hx hy => ⟨_, memmove_total hx hy hfuel t⟩, ⟨_, memset_total c hfuel t⟩,
      ⟨_, memcmp_total hfuel t⟩, fun hapart => ?_, fun hx hy => ?_, ?_, ?_, ?_⟩
    · obtain ⟨value, t', ⟨fuel, hcall⟩, rfl, hcopies⟩ := @memcpy_returns x y length
        (arguments junk [(.dst, x), (.src, y), (.n, length)]) hapart rfl rfl rfl t
      exact ⟨fuel, t', hcall, hcopies⟩
    · obtain ⟨value, t', ⟨fuel, hcall⟩, rfl, hcopies⟩ := @memmove_returns x y length
        (arguments junk [(.dst, x), (.src, y), (.n, length)]) hx hy rfl rfl rfl t
      exact ⟨fuel, t', hcall, hcopies⟩
    · obtain ⟨value, t', ⟨fuel, hcall⟩, rfl, hfills⟩ := @memset_returns x length
        (arguments junk [(.dst, x), (.val, c.setWidth 64), (.n, length)]) c rfl rfl rfl t
      exact ⟨fuel, t', hcall, hfills⟩
    · obtain ⟨value, t', ⟨fuel, hcall⟩, hfills⟩ := @bzero_returns x length
        (arguments junk [(.dst, x), (.n, length)]) rfl rfl t
      exact ⟨fuel, value, t', hcall, hfills⟩
    · rcases eq_or_ne length 0 with rfl | hlength
      · obtain ⟨value, t', ⟨fuel, hcall⟩, hcompares⟩ := @memcmp_returns_zero
          (arguments junk [(.s1, x), (.s2, y), (.n, 0)]) x y rfl t
        exact ⟨fuel, value, t', hcall, hcompares⟩
      · obtain ⟨value, t', ⟨fuel, hcall⟩, hcompares⟩ := @memcmp_returns_ne length
          (arguments junk [(.s1, x), (.s2, y), (.n, length)]) x y rfl rfl rfl
          (zero_lt_of_ne_zero hlength) t (h.resolve_left hlength)
        exact ⟨fuel, value, t', hcall, hcompares⟩

/-- An object is compared with itself. -/
theorem routines_not_right : ¬RoutinesRight 0 0 1 0 (fun _ => 0) (Traced.ofMem fun _ => 0) := by
  intro h
  obtain ⟨fuel, value, t', hcall, -⟩ := h.memcmpMir
  exact memcmp_stuck rfl rfl rfl (by decide) (Traced.ofMem fun _ => 0) rfl value t' ⟨fuel, hcall⟩

end MirRuntime

end EzPacker.StdLib
