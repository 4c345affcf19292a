import EzPacker.Mir.InstructionSet

/-!
# Machine instructions and their effect

A register holds bytes, the lowest first, and memory maps addresses to bytes. The
effect of an instruction is a function on states of which only what its descriptor
declares is known: it changes no register but those it defines, and it changes
memory only when it is declared to write memory or to be a call.

Register references of one bank with one id are the same hardware register, whatever
their class.
-/

namespace EzPacker.Peephole

open List Mir

/-- The hardware register of a reference. -/
structure HwRegister where
  isVirtual : Bool
  bank : Option ℕ
  id : ℕ
  deriving DecidableEq, Repr

def hw (r : MirRegisterRef) : HwRegister :=
  ⟨r.isVirtual, if r.isVirtual then none else r.regClass.map MirRegisterClass.bank, r.id⟩

/-- The contents of a register, by byte. -/
abbrev Bytes := ℕ → UInt8

structure MachineState where
  regs : HwRegister → Bytes
  mem : ℤ → UInt8

variable {s t : MachineState} {inst cur : MachineInstruction} {mem1 : MirOperand}
  {reg1 : MirRegisterRef} {mid : List MachineInstruction}

namespace MachineState

/-- A register read as a number of 64 bits. -/
def word (s : MachineState) (r : HwRegister) : ℤ :=
  ((range 8).foldr (fun k acc => (s.regs r k).toNat + 256 * acc) 0 : ℕ)

def setReg (s : MachineState) (r : HwRegister) (v : Bytes) : MachineState :=
  { s with regs := fun r' => if r' = r then v else s.regs r' }

def store (s : MachineState) (a : ℤ) (w : ℕ) (v : Bytes) : MachineState :=
  { s with mem := fun x => if a ≤ x ∧ x < a + w then v (x - a).toNat else s.mem x }

/-- Memory from `a` on. -/
def bytesAt (s : MachineState) (a : ℤ) : Bytes := fun k => s.mem (a + k)

theorem ext_iff : s = t ↔ s.regs = t.regs ∧ s.mem = t.mem := by
  cases s
  cases t
  simp

end MachineState

/-- The registers of an address. -/
def collectMemoryRegisters (memOp : MirOperand) : List MirRegisterRef :=
  match memOp with
  | .memory mem => mem.base.toList ++ mem.index.toList
  | _ => []

def address (symbols : MirReferenceType → ℕ → ℤ) (memOp : MirOperand) (s : MachineState) : ℤ :=
  match memOp with
  | .memory mem =>
    (mem.base.map fun r => s.word (hw r)).getD 0 +
      (mem.index.map fun r => s.word (hw r) * mem.scale).getD 0 + mem.displ.getD 0
  | .reference ref => symbols ref.refType ref.refId + ref.offset
  | _ => 0

theorem address_congr (symbols : MirReferenceType → ℕ → ℤ) {memOp : MirOperand}
    (h : ∀ r ∈ collectMemoryRegisters memOp, s.regs (hw r) = t.regs (hw r)) :
    address symbols memOp s = address symbols memOp t := by
  cases memOp with
  | memory mem =>
    have hword : ∀ r ∈ mem.base.toList ++ mem.index.toList, s.word (hw r) = t.word (hw r) := by
      intro r hr
      rw [MachineState.word, MachineState.word, h r hr]
    cases hb : mem.base <;> cases hi : mem.index <;>
      simp_all [address]
  | register reg | integer value | floatingPoint bits | reference ref | runtimeSymbol name => rfl

def writesMem (inst : MirInstruction) : Bool :=
  inst.opcode = .STORE || .WritesMemory ∈ targetFlags inst

/-- An instruction with its effect, which keeps to what the descriptor declares. -/
structure MachineInstruction where
  inst : MirInstruction
  exec : MachineState → MachineState
  regs_frame : isCall inst = false → ∀ s r,
    (∀ d ∈ inst.getDefinedRegisters, hw d ≠ r) → (exec s).regs r = s.regs r
  mem_frame : isCall inst = false → writesMem inst = false → ∀ s, (exec s).mem = s.mem

def runBlock (block : List MachineInstruction) (s : MachineState) : MachineState :=
  block.foldl (fun s i => i.exec s) s

@[simp] theorem runBlock_nil (s : MachineState) : runBlock [] s = s := rfl

@[simp] theorem runBlock_cons (i : MachineInstruction) (is : List MachineInstruction)
    (s : MachineState) : runBlock (i :: is) s = runBlock is (i.exec s) := rfl

@[simp] theorem runBlock_append (is js : List MachineInstruction) (s : MachineState) :
    runBlock (is ++ js) s = runBlock js (runBlock is s) := by
  simp [runBlock]

/-!
## The scan for redundant memory accesses

`tryOptimizeMemoryAccesses` looks behind a store for a load of the same location
into the same register, which it erases, or for a store to the same location, for
which it erases the store it started from; behind a load it looks for the same load
again. The scan goes on until an instruction defines the register or a register of
the address, writes memory or is a call.
-/

def isSameMemoryLocation : MirOperand → MirOperand → Bool
  | .reference r1, .reference r2 =>
    r1.refType = r2.refType && r1.refId = r2.refId && r1.offset = r2.offset
  | .memory m1, .memory m2 =>
    match m1.base, m2.base with
    | some b1, some b2 =>
      b1.same b2 &&
      (match m1.index, m2.index with
        | some i1, some i2 => i1.same i2 && m1.scale = m2.scale
        | none, none => true
        | _, _ => false) &&
      (match m1.displ, m2.displ with
        | some d1, some d2 => d1 = d2
        | none, none => true
        | _, _ => false)
    | _, _ => false
  | _, _ => false

def isMemoryOperand : MirOperand → Bool
  | .memory _ | .reference _ => true
  | _ => false

def registerOf? : MirOperand → Option MirRegisterRef
  | .register reg => some reg
  | _ => none

/-- The last memory operand and the first register operand of an instruction that
reads memory. -/
def extractLoad (inst : MirInstruction) : Option (MirOperand × MirRegisterRef) :=
  if inst.opcode = .LOAD ∨ .ReadsMemory ∈ targetFlags inst then
    match inst.operands.reverse.find? isMemoryOperand,
        inst.operands.findSome? registerOf? with
    | some mem, some reg => some (mem, reg)
    | _, _ => none
  else none

/-- The last memory operand and the last register operand of an instruction that
writes memory. -/
def extractStore (inst : MirInstruction) : Option (MirOperand × MirRegisterRef) :=
  if inst.opcode = .STORE ∨ .WritesMemory ∈ targetFlags inst then
    match inst.operands.reverse.find? isMemoryOperand,
        inst.operands.reverse.findSome? registerOf? with
    | some mem, some reg => some (mem, reg)
    | _, _ => none
  else none

/-- `cur` is a load of the location into the register. -/
def reloads (mem1 : MirOperand) (reg1 : MirRegisterRef) (cur : MirInstruction) : Bool :=
  match extractLoad cur with
  | some (mem2, reg2) => isSameMemoryLocation mem1 mem2 && reg1.same reg2
  | none => false

/-- `cur` is a store to the location, and not seen as a load. -/
def overwrites (mem1 : MirOperand) (cur : MirInstruction) : Bool :=
  match extractLoad cur, extractStore cur with
  | none, some (mem2, _) => isSameMemoryLocation mem1 mem2
  | _, _ => false

def defines (cur : MirInstruction) (reg : MirRegisterRef) : Bool :=
  cur.getDefinedRegisters.any fun d => d.same reg

/-- The scan does not go on behind `cur`. -/
def invalidates (mem1 : MirOperand) (reg1 : MirRegisterRef) (cur : MirInstruction) : Bool :=
  defines cur reg1 || (collectMemoryRegisters mem1).any (defines cur) || writesMem cur || isCall cur

/-- The scan behind a store: the block from the store on without the instruction
that is found redundant, or none. -/
def scanStore (mem1 : MirOperand) (reg1 : MirRegisterRef) (inst : MachineInstruction) :
    List MachineInstruction → List MachineInstruction → Option (List MachineInstruction)
  | _, [] => none
  | seen, cur :: rest =>
    if reloads mem1 reg1 cur.inst then some (inst :: seen ++ rest)
    else if overwrites mem1 cur.inst then some (seen ++ cur :: rest)
    else if invalidates mem1 reg1 cur.inst then none
    else scanStore mem1 reg1 inst (seen ++ [cur]) rest

def scanLoad (mem1 : MirOperand) (reg1 : MirRegisterRef) (inst : MachineInstruction) :
    List MachineInstruction → List MachineInstruction → Option (List MachineInstruction)
  | _, [] => none
  | seen, cur :: rest =>
    if reloads mem1 reg1 cur.inst then some (inst :: seen ++ rest)
    else if invalidates mem1 reg1 cur.inst then none
    else scanLoad mem1 reg1 inst (seen ++ [cur]) rest

/-- Applied to `inst` with `rest` behind it: what is left of both, or none when
nothing is erased. -/
def tryOptimizeMemoryAccesses (inst : MachineInstruction)
    (rest : List MachineInstruction) : Option (List MachineInstruction) :=
  match extractStore inst.inst with
  | some (mem1, reg1) => scanStore mem1 reg1 inst [] rest
  | none =>
    match extractLoad inst.inst with
    | some (mem1, reg1) => scanLoad mem1 reg1 inst [] rest
    | none => none

/-- The block behind an attempt at the instruction `inst`. -/
def optimized (pre : List MachineInstruction) (inst : MachineInstruction)
    (rest : List MachineInstruction) : List MachineInstruction :=
  match tryOptimizeMemoryAccesses inst rest with
  | some rest' => pre ++ rest'
  | none => pre ++ inst :: rest

/-- The scan reaches `cur` behind `mid`: nothing in between matches or stops it. -/
def PassedByStore (mem1 : MirOperand) (reg1 : MirRegisterRef)
    (mid : List MachineInstruction) : Prop :=
  ∀ k ∈ mid, reloads mem1 reg1 k.inst = false ∧ overwrites mem1 k.inst = false ∧
    invalidates mem1 reg1 k.inst = false

def PassedByLoad (mem1 : MirOperand) (reg1 : MirRegisterRef)
    (mid : List MachineInstruction) : Prop :=
  ∀ k ∈ mid, reloads mem1 reg1 k.inst = false ∧ invalidates mem1 reg1 k.inst = false

theorem scanStore_eq_some {seen rest out : List MachineInstruction}
    (hseen : PassedByStore mem1 reg1 seen) (h : scanStore mem1 reg1 inst seen rest = some out) :
    ∃ mid cur tail, seen ++ rest = mid ++ cur :: tail ∧ PassedByStore mem1 reg1 mid ∧
      (reloads mem1 reg1 cur.inst = true ∧ out = inst :: mid ++ tail ∨
        overwrites mem1 cur.inst = true ∧ out = mid ++ cur :: tail) := by
  induction rest generalizing seen with
  | nil => cases h
  | cons cur rest ih =>
    unfold scanStore at h
    split at h
    · next hreload =>
        exact ⟨seen, cur, rest, rfl, hseen, .inl ⟨hreload, (Option.some.inj h).symm⟩⟩
    · next hreload =>
        split at h
        · next hover =>
            exact ⟨seen, cur, rest, rfl, hseen, .inr ⟨hover, (Option.some.inj h).symm⟩⟩
        · next hover =>
            split at h
            · cases h
            · next hstop =>
                have hpassed : PassedByStore mem1 reg1 (seen ++ [cur]) := by
                  intro k hk
                  rcases mem_append.mp hk with hk | hk
                  · exact hseen k hk
                  · obtain rfl := mem_singleton.mp hk
                    exact ⟨by simpa using hreload, by simpa using hover, by simpa using hstop⟩
                obtain ⟨mid, c, tail, heq, hmid, hout⟩ := ih hpassed h
                exact ⟨mid, c, tail, by simpa using heq, hmid, hout⟩

theorem scanLoad_eq_some {seen rest out : List MachineInstruction}
    (hseen : PassedByLoad mem1 reg1 seen) (h : scanLoad mem1 reg1 inst seen rest = some out) :
    ∃ mid cur tail, seen ++ rest = mid ++ cur :: tail ∧ PassedByLoad mem1 reg1 mid ∧
      reloads mem1 reg1 cur.inst = true ∧ out = inst :: mid ++ tail := by
  induction rest generalizing seen with
  | nil => cases h
  | cons cur rest ih =>
    unfold scanLoad at h
    split at h
    · next hreload =>
        exact ⟨seen, cur, rest, rfl, hseen, hreload, (Option.some.inj h).symm⟩
    · next hreload =>
        split at h
        · cases h
        · next hstop =>
            have hpassed : PassedByLoad mem1 reg1 (seen ++ [cur]) := by
              intro k hk
              rcases mem_append.mp hk with hk | hk
              · exact hseen k hk
              · obtain rfl := mem_singleton.mp hk
                exact ⟨by simpa using hreload, by simpa using hstop⟩
            obtain ⟨mid, c, tail, heq, hmid, hout⟩ := ih hpassed h
            exact ⟨mid, c, tail, by simpa using heq, hmid, hout⟩

/-!
## When erasing a memory access is sound

What the scan finds is redundant when the two accesses are plain loads and stores
whose widths fit together, when nothing in between changes the register or the
address under another name, and, for a store that is overwritten, when nothing in
between reads what it stored. The scan itself looks at none of this but the names.
-/

section

variable (symbols : MirReferenceType → ℕ → ℤ)

/-- What a register holds after a load of `w` bytes: these, and above them what the
instruction makes of the old contents and of memory. -/
def loaded (w : ℕ) (upper : Bytes → Bytes → Bytes) (v b : Bytes) : Bytes :=
  fun k => if k < w then b k else upper v b k

/-- A plain load: memory goes to the register and nowhere else. -/
def IsLoad (i : MachineInstruction) (memOp : MirOperand) (reg : MirRegisterRef) (w : ℕ)
    (upper : Bytes → Bytes → Bytes) : Prop :=
  ∀ s, i.exec s = s.setReg (hw reg)
    (loaded w upper (s.regs (hw reg)) (s.bytesAt (address symbols memOp s)))

/-- A plain store. -/
def IsStore (i : MachineInstruction) (memOp : MirOperand) (reg : MirRegisterRef) (w : ℕ) : Prop :=
  ∀ s, i.exec s = s.store (address symbols memOp s) w (s.regs (hw reg))

/-- No instruction defines one of the registers, under whatever class. -/
def KeepsRegisters (mid : List MachineInstruction) (regs : List MirRegisterRef) : Prop :=
  ∀ k ∈ mid, ∀ d ∈ k.inst.getDefinedRegisters, ∀ r ∈ regs, hw d ≠ hw r

/-- States that differ in the `w` bytes from `a` on at most. -/
def AgreeOutside (a : ℤ) (w : ℕ) (s t : MachineState) : Prop :=
  s.regs = t.regs ∧ ∀ x, ¬ (a ≤ x ∧ x < a + w) → s.mem x = t.mem x

/-- The instruction does the same whatever the `w` bytes of the location hold. -/
def Ignores (i : MachineInstruction) (memOp : MirOperand) (w : ℕ) : Prop :=
  ∀ s t, AgreeOutside (address symbols memOp s) w s t →
    AgreeOutside (address symbols memOp s) w (i.exec s) (i.exec t)

/-- The reload gives what the register held when the store was reached. -/
structure ForwardOk (pre : List MachineInstruction) (inst : MachineInstruction)
    (mid : List MachineInstruction) (cur : MachineInstruction) (mem1 : MirOperand)
    (reg1 : MirRegisterRef) : Prop where
  accesses : ∃ w1 w2 upper, IsStore symbols inst mem1 reg1 w1 ∧
    IsLoad symbols cur mem1 reg1 w2 upper ∧
    ∀ s0, let s := runBlock pre s0
      let a := address symbols mem1 s
      loaded w2 upper (s.regs (hw reg1)) ((s.store a w1 (s.regs (hw reg1))).bytesAt a) =
        s.regs (hw reg1)
  keeps : KeepsRegisters mid (reg1 :: collectMemoryRegisters mem1)

/-- What the first store wrote is overwritten and not read before. -/
structure OverwriteOk (inst : MachineInstruction) (mid : List MachineInstruction)
    (cur : MachineInstruction) (mem1 : MirOperand) (reg1 : MirRegisterRef) : Prop where
  accesses : ∃ w1 w2 reg2, w1 ≤ w2 ∧ IsStore symbols inst mem1 reg1 w1 ∧
    IsStore symbols cur mem1 reg2 w2 ∧ ∀ k ∈ mid, Ignores symbols k mem1 w1
  keeps : KeepsRegisters mid (collectMemoryRegisters mem1)

/-- Loading again gives what the first load gave. -/
structure ReloadOk (inst : MachineInstruction) (mid : List MachineInstruction)
    (cur : MachineInstruction) (mem1 : MirOperand) (reg1 : MirRegisterRef) : Prop where
  accesses : ∃ w1 w2 upper1 upper2, IsLoad symbols inst mem1 reg1 w1 upper1 ∧
    IsLoad symbols cur mem1 reg1 w2 upper2 ∧
    ∀ v b, loaded w2 upper2 (loaded w1 upper1 v b) b = loaded w1 upper1 v b
  base : ∀ r ∈ collectMemoryRegisters mem1, hw r ≠ hw reg1
  keeps : KeepsRegisters mid (reg1 :: collectMemoryRegisters mem1)

/-- Wherever the scan from `inst` gets to an access it takes for redundant, the
access is redundant. -/
structure AccessesRedundant (pre : List MachineInstruction) (inst : MachineInstruction)
    (rest : List MachineInstruction) : Prop where
  forward : ∀ mem1 reg1, extractStore inst.inst = some (mem1, reg1) →
    ∀ mid cur tail, rest = mid ++ cur :: tail → PassedByStore mem1 reg1 mid →
      reloads mem1 reg1 cur.inst = true → ForwardOk symbols pre inst mid cur mem1 reg1
  overwrite : ∀ mem1 reg1, extractStore inst.inst = some (mem1, reg1) →
    ∀ mid cur tail, rest = mid ++ cur :: tail → PassedByStore mem1 reg1 mid →
      overwrites mem1 cur.inst = true → OverwriteOk symbols inst mid cur mem1 reg1
  reload : extractStore inst.inst = none → ∀ mem1 reg1,
    extractLoad inst.inst = some (mem1, reg1) →
    ∀ mid cur tail, rest = mid ++ cur :: tail → PassedByLoad mem1 reg1 mid →
      reloads mem1 reg1 cur.inst = true → ReloadOk symbols inst mid cur mem1 reg1

end

variable {symbols : MirReferenceType → ℕ → ℤ}

theorem not_writes_of_not_invalidates {cur : MirInstruction}
    (h : invalidates mem1 reg1 cur = false) :
    writesMem cur = false ∧ isCall cur = false := by
  simp only [invalidates, Bool.or_eq_false_iff] at h
  exact ⟨h.1.2, h.2⟩

/-- Behind instructions the scan passes, memory and the registers they do not define
are as before. -/
theorem runBlock_frame {regs : List MirRegisterRef} (hkeeps : KeepsRegisters mid regs)
    (hquiet : ∀ k ∈ mid, writesMem k.inst = false ∧ isCall k.inst = false) (s : MachineState) :
    (runBlock mid s).mem = s.mem ∧ ∀ r ∈ regs, (runBlock mid s).regs (hw r) = s.regs (hw r) := by
  induction mid generalizing s with
  | nil => exact ⟨rfl, fun _ _ => rfl⟩
  | cons k mid ih =>
    obtain ⟨hwrites, hcall⟩ := hquiet k mem_cons_self
    have htail : KeepsRegisters mid regs := fun j hj => hkeeps j (mem_cons_of_mem _ hj)
    obtain ⟨hmem, hregs⟩ :=
      ih htail (fun j hj => hquiet j (mem_cons_of_mem _ hj)) (k.exec s)
    rw [runBlock_cons]
    constructor
    · rw [hmem, k.mem_frame hcall hwrites]
    · intro r hr
      rw [hregs r hr]
      apply k.regs_frame hcall
      intro d hd
      exact hkeeps k mem_cons_self d hd r hr

theorem setReg_self {r : HwRegister} {v : Bytes} (h : v = s.regs r) : s.setReg r v = s := by
  refine MachineState.ext_iff.mpr ⟨?_, rfl⟩
  funext r'
  by_cases hr : r' = r
  · simp [MachineState.setReg, hr, h]
  · simp [MachineState.setReg, hr]

theorem bytesAt_congr (h : s.mem = t.mem) (a : ℤ) : s.bytesAt a = t.bytesAt a := by
  funext k
  simp [MachineState.bytesAt, h]

@[simp] theorem store_regs (s : MachineState) (a : ℤ) (w : ℕ) (v : Bytes) :
    (s.store a w v).regs = s.regs := rfl

/-- A load of no more bytes than were stored, which keeps the others, gives back the
register. -/
theorem loaded_store_same {w1 w2 : ℕ} (hw : w2 ≤ w1) (s : MachineState) (a : ℤ) (v : Bytes) :
    loaded w2 (fun v _ => v) v ((s.store a w1 v).bytesAt a) = v := by
  funext k
  by_cases hk : k < w2
  · have hin : a ≤ a + (k : ℤ) ∧ a + (k : ℤ) < a + (w1 : ℤ) := by
      omega
    have hindex : (a + (k : ℤ) - a).toNat = k := by
      omega
    simp [loaded, hk, MachineState.bytesAt, MachineState.store, hin, hindex]
  · simp [loaded, hk]

/-- The reload behind a store changes nothing. -/
theorem exec_forward {pre : List MachineInstruction}
    (h : ForwardOk symbols pre inst mid cur mem1 reg1) (hpassed : PassedByStore mem1 reg1 mid)
    (s0 : MachineState) : cur.exec (runBlock mid (inst.exec (runBlock pre s0))) =
      runBlock mid (inst.exec (runBlock pre s0)) := by
  obtain ⟨w1, w2, upper, hstore, hload, hvalue⟩ := h.accesses
  have hquiet := fun k hk => not_writes_of_not_invalidates (hpassed k hk).2.2
  obtain ⟨hmem, hregs⟩ := runBlock_frame h.keeps hquiet (inst.exec (runBlock pre s0))
  have hs := hstore (runBlock pre s0)
  have hvalue0 := hvalue s0
  -- The state at the store, the state behind it and the state at the reload.
  generalize runBlock pre s0 = s at hmem hregs hs hvalue0 ⊢
  generalize inst.exec s = t at hmem hregs hs ⊢
  generalize runBlock mid t = u at hmem hregs ⊢
  have hreg : u.regs (hw reg1) = s.regs (hw reg1) := by
    rw [hregs reg1 mem_cons_self, hs, store_regs]
  have haddr : address symbols mem1 u = address symbols mem1 s := by
    apply address_congr
    intro r hr
    rw [hregs r (mem_cons_of_mem _ hr), hs, store_regs]
  rw [hload u]
  apply setReg_self
  rw [hreg, haddr, bytesAt_congr hmem, hs]
  exact hvalue0

/-- The same load again changes nothing. -/
theorem exec_reload (h : ReloadOk symbols inst mid cur mem1 reg1)
    (hpassed : PassedByLoad mem1 reg1 mid) (s : MachineState) :
    cur.exec (runBlock mid (inst.exec s)) = runBlock mid (inst.exec s) := by
  obtain ⟨w1, w2, upper1, upper2, hload1, hload2, hvalue⟩ := h.accesses
  have hquiet := fun k hk => not_writes_of_not_invalidates (hpassed k hk).2
  obtain ⟨hmem, hregs⟩ := runBlock_frame h.keeps hquiet (inst.exec s)
  have hs := hload1 s
  generalize inst.exec s = t at hmem hregs hs ⊢
  generalize runBlock mid t = u at hmem hregs ⊢
  have hreg : u.regs (hw reg1) = loaded w1 upper1 (s.regs (hw reg1))
      (s.bytesAt (address symbols mem1 s)) := by
    rw [hregs reg1 mem_cons_self, hs]
    simp [MachineState.setReg]
  have haddr : address symbols mem1 u = address symbols mem1 s := by
    apply address_congr
    intro r hr
    rw [hregs r (mem_cons_of_mem _ hr), hs]
    simp [MachineState.setReg, h.base r hr]
  rw [hload2 u]
  apply setReg_self
  have hmemory : u.mem = s.mem := by
    rw [hmem, hs]
    rfl
  rw [hreg, haddr, bytesAt_congr hmemory]
  exact hvalue _ _

theorem agreeOutside_runBlock {w : ℕ} (hignores : ∀ k ∈ mid, Ignores symbols k mem1 w)
    (hkeeps : KeepsRegisters mid (collectMemoryRegisters mem1))
    (hquiet : ∀ k ∈ mid, writesMem k.inst = false ∧ isCall k.inst = false)
    (h : AgreeOutside (address symbols mem1 s) w s t) :
    AgreeOutside (address symbols mem1 s) w (runBlock mid s) (runBlock mid t) := by
  induction mid generalizing s t with
  | nil => exact h
  | cons k mid ih =>
    have hk := hignores k mem_cons_self s t h
    have haddr : address symbols mem1 (k.exec s) = address symbols mem1 s := by
      apply address_congr
      intro r hr
      apply k.regs_frame (hquiet k mem_cons_self).2
      intro d hd
      exact hkeeps k mem_cons_self d hd r hr
    rw [← haddr] at hk ⊢
    exact ih (fun j hj => hignores j (mem_cons_of_mem _ hj))
      (fun j hj => hkeeps j (mem_cons_of_mem _ hj))
      (fun j hj => hquiet j (mem_cons_of_mem _ hj)) hk

theorem exec_overwrite (h : OverwriteOk symbols inst mid cur mem1 reg1)
    (hpassed : PassedByStore mem1 reg1 mid) (s : MachineState) :
    cur.exec (runBlock mid s) = cur.exec (runBlock mid (inst.exec s)) := by
  obtain ⟨w1, w2, reg2, hw12, hstore1, hstore2, hignores⟩ := h.accesses
  have hquiet := fun k hk => not_writes_of_not_invalidates (hpassed k hk).2.2
  have hagree : AgreeOutside (address symbols mem1 s) w1 s (inst.exec s) := by
    rw [hstore1 s]
    refine ⟨rfl, ?_⟩
    intro x hx
    simp [MachineState.store, hx]
  have hbehind := agreeOutside_runBlock hignores h.keeps hquiet hagree
  have hregs := (runBlock_frame h.keeps hquiet s).2
  have haddr : address symbols mem1 (runBlock mid s) = address symbols mem1 s :=
    address_congr symbols hregs
  generalize runBlock mid s = u at hbehind haddr ⊢
  generalize runBlock mid (inst.exec s) = v at hbehind ⊢
  have haddr' : address symbols mem1 v = address symbols mem1 s := by
    rw [← haddr]
    exact address_congr symbols fun r _ => by rw [hbehind.1]
  rw [hstore2 u, hstore2 v, haddr, haddr']
  refine MachineState.ext_iff.mpr ⟨hbehind.1, ?_⟩
  funext x
  by_cases hx : address symbols mem1 s ≤ x ∧ x < address symbols mem1 s + w2
  · simp [MachineState.store, hx, hbehind.1]
  · have hout : ¬ (address symbols mem1 s ≤ x ∧ x < address symbols mem1 s + w1) := by
      omega
    simp [MachineState.store, hx, hbehind.2 x hout]

def load64 (dst base : MirRegisterRef) (displ : ℤ) : MachineInstruction where
  inst :=
    { opcode := .TARGET_INST
      targetDesc := some ⟨64, [.Write, .Read], [], [], [.ReadsMemory]⟩
      operands := [.register dst, .memory ⟨some base, some displ, none, 1⟩] }
  exec s := s.setReg (hw dst)
    (loaded 8 (fun v _ => v) (s.regs (hw dst)) (s.bytesAt (s.word (hw base) + displ)))
  regs_frame := by
    intro _ s r hr
    have hdst : hw dst ≠ r := hr dst (by
      simp [MirInstruction.getDefinedRegisters, MirInstruction.visits,
        MirInstruction.visitsAt, visitOperandRegisters, MirInstruction.getOperandFlag,
        MirInstruction.selectedDesc, range_succ, MirOperandFlag.isWrite])
    simp [MachineState.setReg, hdst.symm]
  mem_frame := by
    intro _ _ s
    rfl

def store64 (src base : MirRegisterRef) (displ : ℤ) : MachineInstruction where
  inst :=
    { opcode := .TARGET_INST
      targetDesc := some ⟨65, [.Read, .Read], [], [], [.WritesMemory]⟩
      operands := [.memory ⟨some base, some displ, none, 1⟩, .register src] }
  exec s := s.store (s.word (hw base) + displ) 8 (s.regs (hw src))
  regs_frame := by
    intro _ s r _
    rfl
  mem_frame := by
    intro _ hwrites
    simp [writesMem, targetFlags] at hwrites

def gpr (id : ℕ) : MirRegisterRef := ⟨false, some ⟨3, 0⟩, id⟩

end EzPacker.Peephole
