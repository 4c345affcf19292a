import EzPacker.Lib.ByteMemory
import EzPacker.Lib.Run

/-!
# The heap functions

Every block is a mapping of its own, and no mapping is given back. `realloc` maps a new block and
does not look at the old one; `calloc` multiplies in 64 bits.
-/

namespace EzPacker.StdLib

/-- Bytes from an address on. -/
structure Block where
  addr : BitVec 64
  size : ℕ

namespace Block

def Disjoint (b c : Block) : Prop :=
  b.addr.toNat + b.size ≤ c.addr.toNat ∨ c.addr.toNat + c.size ≤ b.addr.toNat

/-- The block is the front of the other one. -/
def IsFront (b c : Block) : Prop := b.addr = c.addr ∧ b.size ≤ c.size

variable {b c b' c' : Block}

theorem Disjoint.symm (h : Disjoint b c) : Disjoint c b := Or.symm h

theorem Disjoint.front (h : Disjoint b' c') (hb : b.IsFront b') (hc : c.IsFront c') :
    Disjoint b c := by
  obtain ⟨hb, hbs⟩ := hb
  obtain ⟨hc, hcs⟩ := hc
  unfold Disjoint at *
  rw [hb, hc]
  omega

end Block

/-- The memory and the mappings that the kernel has handed out. -/
structure Heap where
  mem : ByteMemory
  mappings : List Block

/-- `mmap` of anonymous memory with what it returns; `none` stands for `(void *)-1`. -/
def mmap (answer : Option (BitVec 64)) (length : BitVec 64) (h : Heap) :
    Option (BitVec 64) × Heap :=
  match answer with
  | none => (none, h)
  | some p =>
    (some p, ⟨h.mem.fill p length.toNat 0, ⟨p, length.toNat⟩ :: h.mappings⟩)

def mappedLength (size : BitVec 64) : BitVec 64 := if size = 0 then 4096 else size

def ez_os_alloc (answer : Option (BitVec 64)) (size : BitVec 64) (h : Heap) :
    Option (BitVec 64) × Heap := mmap answer (mappedLength size) h

def ez_os_realloc (answer : Option (BitVec 64)) (ptr : Option (BitVec 64)) (new_size : BitVec 64)
    (h : Heap) : Option (BitVec 64) × Heap :=
  if ptr = none then ez_os_alloc answer new_size h else ez_os_alloc answer new_size h

def ez_os_free (_ : Option (BitVec 64)) (h : Heap) : Heap := h

def malloc (answer : Option (BitVec 64)) (size : BitVec 64) (h : Heap) :
    Option (BitVec 64) × Heap := ez_os_alloc answer size h

/-- `for (size_t i = 0; i < total; ++i) p[i] = 0` -/
def clear (p : BitVec 64) : ℕ → ByteMemory → ByteMemory
  | 0, mem => mem
  | i + 1, mem => (clear p i mem).fill (p + BitVec.ofNat 64 i) 1 0

def calloc (answer : Option (BitVec 64)) (nmemb size : BitVec 64) (h : Heap) :
    Option (BitVec 64) × Heap :=
  let total := nmemb * size
  let (ptr, h) := ez_os_alloc answer total h
  (ptr, ptr.elim h fun p => { h with mem := clear p total.toNat h.mem })

def realloc (answer : Option (BitVec 64)) (ptr : Option (BitVec 64)) (size : BitVec 64) (h : Heap) :
    Option (BitVec 64) × Heap := ez_os_realloc answer ptr size h

def free (ptr : Option (BitVec 64)) (h : Heap) : Heap := ez_os_free ptr h

/-! ## Runs -/

/-- A call with the answer of its `mmap`, or a store of the program. -/
inductive HeapCall
  | malloc (size : BitVec 64) (answer : Option (BitVec 64))
  | calloc (nmemb size : BitVec 64) (answer : Option (BitVec 64))
  | realloc (ptr : Option (BitVec 64)) (size : BitVec 64) (answer : Option (BitVec 64))
  | free (ptr : Option (BitVec 64))
  | store (addr : BitVec 64) (byte : UInt8)

def HeapCall.execute (h : Heap) : HeapCall → Option (BitVec 64) × Heap
  | .malloc size answer => StdLib.malloc answer size h
  | .calloc nmemb size answer => StdLib.calloc answer nmemb size h
  | .realloc ptr size answer => StdLib.realloc answer ptr size h
  | .free ptr => (none, StdLib.free ptr h)
  | .store addr byte => (none, { h with mem := h.mem.fill addr 1 byte })

/-- The live block at a pointer. -/
def blockAt (live : List Block) (ptr : Option (BitVec 64)) : Option Block :=
  live.find? fun b => some b.addr = ptr

def without (live : List Block) (ptr : Option (BitVec 64)) : List Block :=
  live.eraseP fun b => some b.addr = ptr

/-- The bytes that a call asks for. -/
def HeapCall.requested : HeapCall → ℕ
  | .malloc size _ | .realloc _ size _ => size.toNat
  | .calloc nmemb size _ => nmemb.toNat * size.toNat
  | .free _ | .store _ _ => 0

/-- The blocks that stay live when a call has the given result. -/
def HeapCall.kept (live : List Block) (result : Option (BitVec 64)) : HeapCall → List Block
  | .realloc ptr _ _ => if result = none then live else without live ptr
  | .free ptr => without live ptr
  | _ => live

/-- A call beside the live blocks. -/
def heapStep (t : Heap × List Block) (call : HeapCall) : Heap × List Block :=
  let (result, h) := call.execute t.1
  (h, (result.map fun p => ⟨p, call.requested⟩).toList ++ call.kept t.2 result)

/-- What the call leaves in the bytes of its result, and in the block that it failed to resize. -/
def ContentRight (h h' : Heap) (live : List Block) (result : Option (BitVec 64)) : HeapCall → Prop
  | .calloc nmemb size _ => ∀ p, result = some p → nmemb.toNat * size.toNat < 2 ^ 64 ∧
      ∀ i < nmemb.toNat * size.toNat, h'.mem (p + BitVec.ofNat 64 i) = 0
  | .realloc ptr size _ => ∀ old, blockAt live ptr = some old →
      (∀ p, result = some p → ∀ i < min old.size size.toNat,
        h'.mem (p + BitVec.ofNat 64 i) = h.mem (old.addr + BitVec.ofNat 64 i)) ∧
      (result = none → ∀ i < old.size,
        h'.mem (old.addr + BitVec.ofNat 64 i) = h.mem (old.addr + BitVec.ofNat 64 i))
  | _ => True

/-- The live blocks are fronts of mappings and disjoint. -/
def BlocksOk (t : Heap × List Block) : Prop :=
  (∀ b ∈ t.2, ∃ m ∈ t.1.mappings, b.IsFront m) ∧ t.2.Pairwise Block.Disjoint

def HeapRight (t : Heap × List Block) (call : HeapCall) : Prop :=
  BlocksOk (heapStep t call) ∧ ContentRight t.1 (heapStep t call).1 t.2 (call.execute t.1).1 call

def HeapCall.answer : HeapCall → Option (BitVec 64)
  | .malloc _ answer | .calloc _ _ answer | .realloc _ _ answer => answer
  | .free _ | .store _ _ => none

/-- The length that the call maps. -/
def HeapCall.length : HeapCall → BitVec 64
  | .malloc size _ | .realloc _ size _ => mappedLength size
  | .calloc nmemb size _ => mappedLength (nmemb * size)
  | .free _ | .store _ _ => 0

/-- A mapping is disjoint from all others. -/
def MapsFresh (t : Heap × List Block) (call : HeapCall) : Prop :=
  ∀ p, call.answer = some p → ∀ m ∈ t.1.mappings, Block.Disjoint ⟨p, call.length.toNat⟩ m

/-- The product of a `calloc` does not overflow and the block of a `realloc` has nothing to copy,
unless there is no memory for them. -/
def HeapMeets (t : Heap × List Block) (call : HeapCall) : Prop :=
  call.answer.isSome → match call with
  | .calloc nmemb size _ => nmemb.toNat * size.toNat < 2 ^ 64
  | .realloc ptr size _ => ∀ old, blockAt t.2 ptr = some old → ∀ i < min old.size size.toNat,
      t.1.mem (old.addr + BitVec.ofNat 64 i) = 0
  | _ => True

/-! ## One call -/

theorem fill_fill_of_le {mem : ByteMemory} {p : BitVec 64} {m n : ℕ} (hle : m ≤ n) :
    (mem.fill p n 0).fill p m 0 = mem.fill p n 0 := by
  funext a
  unfold ByteMemory.fill
  split_ifs <;> first | rfl | omega

theorem clear_eq_fill (p : BitVec 64) {n : ℕ} (hn : n ≤ 2 ^ 64) (mem : ByteMemory) :
    clear p n mem = mem.fill p n 0 := by
  induction n with
  | zero => exact (ByteMemory.fill_zero mem p 0).symm
  | succ n ih => rw [clear, ih (by omega), ByteMemory.fill_fill hn]

theorem le_mappedLength (size : BitVec 64) : size.toNat ≤ (mappedLength size).toNat := by
  unfold mappedLength
  split_ifs with hzero
  · rw [hzero]
    exact Nat.zero_le _
  · exact le_rfl

/-- Only the program's own stores do more than a mapping. -/
theorem execute_eq_mmap (h : Heap) (call : HeapCall)
    (hcall : ∀ addr byte, call ≠ .store addr byte) :
    call.execute h = mmap call.answer call.length h := by
  cases call with
  | malloc size answer => rfl
  | realloc ptr size answer => exact ite_self _
  | free ptr => rfl
  | store addr byte => exact absurd rfl (hcall addr byte)
  | calloc nmemb size answer =>
    cases answer with
    | none => rfl
    | some p =>
      have hclear := clear_eq_fill p (nmemb * size).isLt.le
        (h.mem.fill p (mappedLength (nmemb * size)).toNat 0)
      rw [fill_fill_of_le (le_mappedLength _)] at hclear
      simp only [HeapCall.execute, calloc, ez_os_alloc, mmap, Option.elim_some, hclear,
        HeapCall.answer, HeapCall.length]

theorem mem_mmap {p length : BitVec 64} {h : Heap} {i : ℕ} (hi : i < length.toNat) :
    (mmap (some p) length h).2.mem (p + BitVec.ofNat 64 i) = 0 := by
  have hbehind : ByteMemory.behind (p + BitVec.ofNat 64 i) p = i :=
    ByteMemory.behind_add (hi.trans length.isLt)
  exact if_pos (hbehind.symm ▸ hi)

theorem sublist_kept (live : List Block) (result : Option (BitVec 64)) (call : HeapCall) :
    (call.kept live result).Sublist live := by
  cases call with
  | realloc ptr size answer =>
    unfold HeapCall.kept
    split_ifs
    · exact .refl _
    · exact List.eraseP_sublist
  | free ptr => exact List.eraseP_sublist
  | _ => exact .refl _

section Call

variable {h : Heap} {live : List Block} {call : HeapCall}

theorem BlocksOk.sublist (hok : BlocksOk (h, live)) {live' : List Block}
    (hsub : live'.Sublist live) (mem : ByteMemory) : BlocksOk (⟨mem, h.mappings⟩, live') :=
  ⟨fun b hb => hok.1 b (hsub.mem hb), hok.2.sublist hsub⟩

theorem BlocksOk.mapped (hok : BlocksOk (h, live)) {p length : BitVec 64} {n : ℕ}
    (hn : n ≤ length.toNat) (hfresh : ∀ m ∈ h.mappings, Block.Disjoint ⟨p, length.toNat⟩ m) :
    BlocksOk ((mmap (some p) length h).2, ⟨p, n⟩ :: live) := by
  have hfront : Block.IsFront ⟨p, n⟩ ⟨p, length.toNat⟩ := ⟨rfl, hn⟩
  refine ⟨?_, List.pairwise_cons.mpr ⟨fun b hb => ?_, hok.2⟩⟩
  · rintro b (_ | ⟨_, hb⟩)
    · exact ⟨_, List.mem_cons_self, hfront⟩
    · obtain ⟨m, hm, hbm⟩ := hok.1 b hb
      exact ⟨m, List.mem_cons_of_mem _ hm, hbm⟩
  · obtain ⟨m, hm, hbm⟩ := hok.1 b hb
    exact (hfresh m hm).front hfront hbm

/-- A call that meets the condition asks for no more than it maps. -/
theorem requested_le (hmeets : HeapMeets (h, live) call) (hsome : call.answer.isSome) :
    call.requested ≤ call.length.toNat := by
  cases call with
  | malloc size answer | realloc ptr size answer => exact le_mappedLength size
  | free ptr | store addr byte => exact le_rfl
  | calloc nmemb size answer =>
    have hlt : nmemb.toNat * size.toNat < 2 ^ 64 := hmeets hsome
    have hle := le_mappedLength (nmemb * size)
    rwa [BitVec.toNat_mul, Nat.mod_eq_of_lt hlt] at hle

theorem blocksOk_step (hok : BlocksOk (h, live)) (hfresh : MapsFresh (h, live) call)
    (hmeets : HeapMeets (h, live) call) : BlocksOk (heapStep (h, live) call) := by
  by_cases hstore : ∃ addr byte, call = .store addr byte
  · obtain ⟨addr, byte, rfl⟩ := hstore
    exact hok.sublist (.refl _) _
  · have hexec := execute_eq_mmap h _ fun addr byte heq => hstore ⟨addr, byte, heq⟩
    simp only [heapStep, hexec]
    cases hanswer : call.answer with
    | none => exact hok.sublist (sublist_kept live none call) h.mem
    | some p =>
      exact (hok.sublist (sublist_kept live (some p) call) h.mem).mapped
        (requested_le hmeets (by simp [hanswer])) (hfresh p hanswer)

/-- What is in the block of a result is right exactly when the call meets the condition. -/
theorem contentRight_iff : ContentRight h (heapStep (h, live) call).1 live (call.execute h).1 call ↔
    HeapMeets (h, live) call := by
  cases call with
  | malloc size answer | free ptr | store addr byte => exact iff_of_true trivial fun _ => trivial
  | calloc nmemb size answer =>
    have hexec := execute_eq_mmap h (.calloc nmemb size answer) fun _ _ => by simp
    simp only [heapStep, hexec]
    cases answer with
    | none => exact iff_of_true (fun p hp => by cases hp) fun hsome => by cases hsome
    | some p =>
      refine ⟨fun hright _ => (hright p rfl).1, fun hmeets q hq => ⟨hmeets rfl, fun i hi => ?_⟩⟩
      cases hq
      have hle : nmemb.toNat * size.toNat ≤ (HeapCall.calloc nmemb size (some p)).length.toNat :=
        requested_le hmeets rfl
      exact mem_mmap (lt_of_lt_of_le hi hle)
  | realloc ptr size answer =>
    have hexec := execute_eq_mmap h (.realloc ptr size answer) fun _ _ => by simp
    simp only [heapStep, hexec]
    cases answer with
    | none =>
      refine iff_of_true (fun old _ => ⟨fun p hp => (by cases hp), fun _ _ _ => rfl⟩)
        fun hsome => by cases hsome
    | some p =>
      have hzero {i m : ℕ} (hi : i < min m size.toNat) :
          (mmap (some p) (mappedLength size) h).2.mem (p + BitVec.ofNat 64 i) = 0 :=
        mem_mmap (by have := le_mappedLength size; omega)
      constructor
      · intro hright _ old hold i hi
        rw [← (hright old hold).1 p rfl i hi]
        exact hzero hi
      · refine fun hmeets old hold => ⟨fun q hq i hi => ?_, fun hnone => by cases hnone⟩
        cases hq
        exact (hzero hi).trans (hmeets rfl old hold i hi).symm

theorem heapRight_iff (hok : BlocksOk (h, live)) (hfresh : MapsFresh (h, live) call) :
    HeapRight (h, live) call ↔ HeapMeets (h, live) call := by
  constructor
  · exact fun hright => contentRight_iff.mp hright.2
  · exact fun hmeets => ⟨blocksOk_step hok hfresh hmeets, contentRight_iff.mpr hmeets⟩

end Call

/-- The heap functions keep their contract in exactly the runs where no product overflows and no
block with something to copy is resized, as long as there is memory. -/
theorem heapRight_along_iff {h : Heap} {calls : List HeapCall}
    (hfresh : Run.along heapStep MapsFresh (h, []) calls) :
    Run.along heapStep HeapRight (h, []) calls ↔ Run.along heapStep HeapMeets (h, []) calls := by
  have hok : BlocksOk (h, []) := ⟨fun b hb => absurd hb List.not_mem_nil, .nil⟩
  exact Run.along_iff_along_of_along (I := BlocksOk)
    (fun t call hok hfresh => heapRight_iff hok hfresh)
    (fun t call hok hfresh hright => hright.1) hok hfresh

/-- Memory with nothing mapped in it. -/
def emptyHeap : Heap := ⟨fun _ => 0, []⟩

theorem grown_block_heapRight : Run.along heapStep HeapRight (emptyHeap, [])
      [.malloc 8 (some 0x1000), .realloc (some 0x1000) 16 (some 0x2000)] := by
  refine (heapRight_along_iff ?_).mpr ⟨fun _ => trivial, fun _ old hold i hi => ?_, trivial⟩
  · simp [Run.along_cons, MapsFresh, HeapCall.answer, HeapCall.length, heapStep, HeapCall.execute,
      malloc, ez_os_alloc, mmap, mappedLength, emptyHeap, Block.Disjoint]
  · exact ite_self _

/-- A byte of the old block is lost. -/
theorem written_block_not_resized : ¬ Run.along heapStep HeapRight (emptyHeap, [])
      [.malloc 8 (some 0x1000), .store 0x1000 7, .realloc (some 0x1000) 16 (some 0x2000)] := by
  rintro ⟨-, -, ⟨-, hcontent⟩, -⟩
  have hbyte := (hcontent ⟨0x1000, 8⟩ rfl).1 0x2000 rfl 0 (by decide)
  exact absurd hbyte (by decide)

end EzPacker.StdLib
