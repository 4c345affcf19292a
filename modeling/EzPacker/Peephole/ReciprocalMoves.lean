import EzPacker.Peephole.MachineState

/-!
# Moves there and back

Behind a move `tryEliminateReciprocalMove` looks for the move that takes the value back, which it
erases. The scan goes on until an instruction defines one of the two registers, by the name the
move has for it, or is a call or a terminator.
-/

namespace EzPacker.Peephole

open List Mir

/-- The destination and the source of a move between registers. -/
def isMoveInstruction (inst : MirInstruction) : Option (MirRegisterRef × MirRegisterRef) :=
  if isMove inst then
    match inst.operands with
    | .register dst :: .register src :: _ => some (dst, src)
    | _ => none
  else none

def isReciprocal (dst1 src1 : MirRegisterRef) (cur : MirInstruction) : Bool :=
  match isMoveInstruction cur with
  | some (dst2, src2) => dst2.same src1 && src2.same dst1
  | none => false

def isBarrier (cur : MirInstruction) : Bool :=
  cur.opcode = .CALL || .IsCall ∈ targetFlags cur || .IsTerminator ∈ targetFlags cur

/-- The scan does not go on behind `cur`. -/
def stopsScan (dst1 src1 : MirRegisterRef) (cur : MirInstruction) : Bool :=
  defines cur dst1 || defines cur src1 || isBarrier cur

/-- What the scan passed, the move it found and the rest. -/
def scanReciprocal (dst1 src1 : MirRegisterRef) : List MirInstruction → List MirInstruction →
    Option (List MirInstruction × MirInstruction × List MirInstruction)
  | _, [] => none
  | seen, cur :: rest =>
    if isReciprocal dst1 src1 cur then some (seen, cur, rest)
    else if stopsScan dst1 src1 cur then none
    else scanReciprocal dst1 src1 (seen ++ [cur]) rest

/-- Applied to `inst` with `rest` behind it: what stands before and behind the erased move. -/
def tryEliminateReciprocalMove (inst : MirInstruction) (rest : List MirInstruction) :
    Option (List MirInstruction × MirInstruction × List MirInstruction) :=
  match isMoveInstruction inst with
  | some (dst1, src1) => scanReciprocal dst1 src1 [] rest
  | none => none

def PassedByMove (dst1 src1 : MirRegisterRef) (mid : List MirInstruction) : Prop :=
  ∀ k ∈ mid, isReciprocal dst1 src1 k = false ∧ stopsScan dst1 src1 k = false

variable {dst1 src1 : MirRegisterRef} {mid : List MachineInstruction} {shape1 shape2 : MoveShape}

theorem scanReciprocal_eq_some {seen rest mid tail : List MirInstruction} {cur : MirInstruction}
    (hseen : PassedByMove dst1 src1 seen)
    (h : scanReciprocal dst1 src1 seen rest = some (mid, cur, tail)) :
    seen ++ rest = mid ++ cur :: tail ∧ PassedByMove dst1 src1 mid ∧
      isReciprocal dst1 src1 cur = true := by
  induction rest generalizing seen with
  | nil => cases h
  | cons k rest ih =>
    unfold scanReciprocal at h
    split at h
    · next hfound =>
        cases h
        exact ⟨rfl, hseen, hfound⟩
    · next hfound =>
        split at h
        · cases h
        · next hstop =>
            have hpassed : PassedByMove dst1 src1 (seen ++ [k]) := by
              intro j hj
              rcases mem_append.mp hj with hj | hj
              · exact hseen j hj
              · obtain rfl := mem_singleton.mp hj
                exact ⟨by simpa using hfound, by simpa using hstop⟩
            obtain ⟨heq, hmid, hcur⟩ := ih hpassed h
            exact ⟨by simpa using heq, hmid, hcur⟩

theorem hw_eq_of_same {a b : MirRegisterRef} (h : a.same b = true) : hw a = hw b := by
  simp only [MirRegisterRef.same, Bool.and_eq_true, beq_iff_eq, Bool.or_eq_true] at h
  obtain ⟨⟨hvirtual, hid⟩, hclass⟩ := h
  unfold hw
  rw [hvirtual, hid]
  rcases hclass with hclass | hclass
  · rw [← hvirtual, hclass]
    rfl
  · rw [hclass]

/-! ## Moves and their windows -/

/-- A move takes the low bytes, and clears or keeps those above them. -/
structure MoveShape where
  bytes : ℕ
  clears : Bool
  bytes_pos : 0 < bytes

def moved (shape : MoveShape) (old src : Bytes) : Bytes := fun k =>
  if k < shape.bytes then src k else if shape.clears then 0 else old k

def executeMove (shape : MoveShape) (dst src : MirRegisterRef) (s : MachineState) : MachineState :=
  s.setReg (hw dst) (moved shape (s.regs (hw dst)) (s.regs (hw src)))

/-- Whatever the other instructions do within what they declare, the registers at the end of the
block are those that the block without the second move leaves. -/
def EndsSame (shape1 shape2 : MoveShape) (dst1 src1 dst2 src2 : MirRegisterRef)
    (pre mid tail : List MirInstruction) : Prop :=
  ∀ pre' mid' tail' : List MachineInstruction, pre'.map MachineInstruction.inst = pre →
    mid'.map MachineInstruction.inst = mid → tail'.map MachineInstruction.inst = tail →
    ∀ s,
      let between := runBlock mid' (executeMove shape1 dst1 src1 (runBlock pre' s))
      (runBlock tail' (executeMove shape2 dst2 src2 between)).regs = (runBlock tail' between).regs

/-- No instruction changes one of the registers, under whatever class. -/
def LeavesAlone (mid : List MirInstruction) (dst1 src1 : MirRegisterRef) : Prop :=
  ∀ k ∈ mid, ∀ d ∈ k.getDefinedRegisters, hw d ≠ hw dst1 ∧ hw d ≠ hw src1

/-- The second move changes nothing. -/
def MovesBack (shape1 shape2 : MoveShape) (dst1 src1 : MirRegisterRef)
    (mid : List MirInstruction) : Prop :=
  if hw dst1 = hw src1 then
    shape2.clears = false ∨
      (shape1.clears = true ∧ shape1.bytes ≤ shape2.bytes ∧ LeavesAlone mid dst1 src1)
  else shape2.clears = false ∧ shape2.bytes ≤ shape1.bytes ∧ LeavesAlone mid dst1 src1

/-! ## When the registers stay -/

theorem isCall_of_passed {mid : List MirInstruction} (h : PassedByMove dst1 src1 mid)
    {k : MirInstruction} (hk : k ∈ mid) : isCall k = false := by
  have hstop := (h k hk).2
  simp only [stopsScan, isBarrier, Bool.or_eq_false_iff] at hstop
  rw [isCall, hstop.2.1.1, hstop.2.1.2]
  rfl

theorem runBlock_regs {r : HwRegister} (hcall : ∀ k ∈ mid, isCall k.inst = false)
    (hdefs : ∀ k ∈ mid, ∀ d ∈ k.inst.getDefinedRegisters, hw d ≠ r) (s : MachineState) :
    (runBlock mid s).regs r = s.regs r := by
  induction mid generalizing s with
  | nil => rfl
  | cons k mid ih =>
    rw [runBlock_cons, ih (fun j hj => hcall j (mem_cons_of_mem _ hj))
      (fun j hj => hdefs j (mem_cons_of_mem _ hj))]
    exact k.regs_frame (hcall k mem_cons_self) s r (hdefs k mem_cons_self)

theorem executeMove_regs_self (shape : MoveShape) (dst src : MirRegisterRef) (s : MachineState) :
    (executeMove shape dst src s).regs (hw dst) =
      moved shape (s.regs (hw dst)) (s.regs (hw src)) := if_pos rfl

theorem executeMove_regs_of_ne (shape : MoveShape) {dst : MirRegisterRef} (src : MirRegisterRef)
    (s : MachineState) {r : HwRegister} (h : r ≠ hw dst) :
    (executeMove shape dst src s).regs r = s.regs r := if_neg h

theorem moved_same {shape : MoveShape} (h : shape.clears = false) (v : Bytes) :
    moved shape v v = v := by
  funext k
  simp [moved, h]

/-- Where the window leaves the registers alone, they hold behind it what the first move left. -/
theorem runBlock_leavesAlone (hcall : ∀ k ∈ mid, isCall k.inst = false)
    (hleaves : LeavesAlone (mid.map MachineInstruction.inst) dst1 src1) (s : MachineState) :
    (runBlock mid s).regs (hw dst1) = s.regs (hw dst1) ∧
      (runBlock mid s).regs (hw src1) = s.regs (hw src1) :=
  ⟨runBlock_regs hcall (fun _ hk d hd => (hleaves _ (mem_map_of_mem hk) d hd).1) s,
    runBlock_regs hcall (fun _ hk d hd => (hleaves _ (mem_map_of_mem hk) d hd).2) s⟩

theorem moved_moved (hbytes : shape2.bytes ≤ shape1.bytes) (hclears : shape2.clears = false)
    (old v : Bytes) : moved shape2 v (moved shape1 old v) = v := by
  funext k
  unfold moved
  split
  · next hk => rw [if_pos (Nat.lt_of_lt_of_le hk hbytes)]
  · rw [hclears]
    rfl

theorem moved_cleared (hbytes : shape1.bytes ≤ shape2.bytes) (hclears : shape1.clears = true)
    (v : Bytes) : moved shape2 (moved shape1 v v) (moved shape1 v v) = moved shape1 v v := by
  funext k
  unfold moved
  by_cases hk : k < shape2.bytes
  · rw [if_pos hk]
  · rw [if_neg hk, if_neg (fun h => hk (Nat.lt_of_lt_of_le h hbytes)), hclears]
    simp

theorem executeMove_back {dst2 src2 : MirRegisterRef} (hdst : hw dst2 = hw src1)
    (hsrc : hw src2 = hw dst1) (hcall : ∀ k ∈ mid, isCall k.inst = false)
    (hback : MovesBack shape1 shape2 dst1 src1 (mid.map MachineInstruction.inst))
    (s : MachineState) :
    executeMove shape2 dst2 src2 (runBlock mid (executeMove shape1 dst1 src1 s)) =
      runBlock mid (executeMove shape1 dst1 src1 s) := by
  refine setReg_self ?_
  rw [hdst, hsrc]
  unfold MovesBack at hback
  by_cases hsame : hw dst1 = hw src1
  · rw [if_pos hsame] at hback
    rw [hsame]
    rcases hback with hclears | ⟨hclears, hbytes, hleaves⟩
    · exact moved_same hclears _
    · rw [(runBlock_leavesAlone hcall hleaves _).2, ← hsame, executeMove_regs_self, hsame]
      exact moved_cleared hbytes hclears _
  · rw [if_neg hsame] at hback
    obtain ⟨hclears, hbytes, hleaves⟩ := hback
    obtain ⟨hkeptDst, hkeptSrc⟩ :=
      runBlock_leavesAlone hcall hleaves (executeMove shape1 dst1 src1 s)
    rw [hkeptDst, hkeptSrc, executeMove_regs_self, executeMove_regs_of_ne _ _ _ (Ne.symm hsame)]
    exact moved_moved hbytes hclears _ _

/-! ## When they do not -/

/-- The instruction does nothing. -/
def idle (inst : MirInstruction) : MachineInstruction where
  inst := inst
  exec := id
  regs_frame := fun _ _ _ _ => rfl
  mem_frame := fun _ _ _ => rfl

theorem changing_regs_frame {inst : MirInstruction} {d : MirRegisterRef}
    (hd : d ∈ inst.getDefinedRegisters) (v : Bytes) (s : MachineState) (r : HwRegister)
    (hdefs : ∀ d ∈ inst.getDefinedRegisters, hw d ≠ r) : (s.setReg (hw d) v).regs r = s.regs r :=
  if_neg (Ne.symm (hdefs d hd))

def changing (inst : MirInstruction) (d : MirRegisterRef) (hd : d ∈ inst.getDefinedRegisters)
    (v : Bytes) : MachineInstruction where
  inst := inst
  exec := fun s => s.setReg (hw d) v
  regs_frame := fun _ => changing_regs_frame hd v
  mem_frame := fun _ _ _ => rfl

theorem map_inst_idle (insts : List MirInstruction) :
    (insts.map idle).map MachineInstruction.inst = insts := by
  rw [map_map]
  exact map_id insts

theorem runBlock_idle (insts : List MirInstruction) (s : MachineState) :
    runBlock (insts.map idle) s = s := by
  induction insts with
  | nil => rfl
  | cons inst insts ih => exact ih

section

variable {shape1 shape2 : MoveShape} {dst1 src1 dst2 src2 : MirRegisterRef}
  {pre mid tail : List MirInstruction}

theorem moved_of_endsSame (hdst : hw dst2 = hw src1) (hsrc : hw src2 = hw dst1)
    (h : EndsSame shape1 shape2 dst1 src1 dst2 src2 pre mid tail) {mid' : List MachineInstruction}
    (hmid : mid'.map MachineInstruction.inst = mid) (s : MachineState) :
    let between := runBlock mid' (executeMove shape1 dst1 src1 s)
    moved shape2 (between.regs (hw src1)) (between.regs (hw dst1)) = between.regs (hw src1) := by
  have hregs := h (pre.map idle) mid' (tail.map idle) (map_inst_idle pre) hmid
    (map_inst_idle tail) s
  rw [runBlock_idle] at hregs
  dsimp only at hregs
  rw [runBlock_idle, runBlock_idle] at hregs
  have hself := executeMove_regs_self shape2 dst2 src2
    (runBlock mid' (executeMove shape1 dst1 src1 s))
  rw [hregs, hdst, hsrc] at hself
  exact hself.symm

/-- Every register is filled with one byte. -/
def filled (b : UInt8) : MachineState := ⟨fun _ _ => b, fun _ => 0⟩

/-- An instruction of the window that defines one of the registers may fill it. -/
theorem leavesAlone_of_moved
    (h : ∀ mid' : List MachineInstruction, mid'.map MachineInstruction.inst = mid → ∀ s,
      let between := runBlock mid' (executeMove shape1 dst1 src1 s)
      moved shape2 (between.regs (hw src1)) (between.regs (hw dst1)) = between.regs (hw src1))
    (hbyte : ∀ r, (r = hw dst1 ∨ r = hw src1) → ∃ b s,
      let filledState := (executeMove shape1 dst1 src1 s).setReg r fun _ => b
      moved shape2 (filledState.regs (hw src1)) (filledState.regs (hw dst1)) ≠
        filledState.regs (hw src1)) : LeavesAlone mid dst1 src1 := by
  intro k hk d hd
  have hnot : ¬ (hw d = hw dst1 ∨ hw d = hw src1) := by
    intro hregister
    obtain ⟨b, s, hne⟩ := hbyte _ hregister
    obtain ⟨before, behind, rfl⟩ := mem_iff_append.mp hk
    have hmid : (before.map idle ++ changing k d hd (fun _ => b) :: behind.map idle).map
        MachineInstruction.inst = before ++ k :: behind := by
      rw [map_append, map_cons, map_inst_idle, map_inst_idle]
      rfl
    have hkept := h _ hmid s
    rw [runBlock_append, runBlock_idle, runBlock_cons, runBlock_idle] at hkept
    exact hne hkept
  exact not_or.mp hnot

theorem movesBack_of_moved
    (h : ∀ mid' : List MachineInstruction, mid'.map MachineInstruction.inst = mid → ∀ s,
      let between := runBlock mid' (executeMove shape1 dst1 src1 s)
      moved shape2 (between.regs (hw src1)) (between.regs (hw dst1)) = between.regs (hw src1)) :
    MovesBack shape1 shape2 dst1 src1 mid := by
  have hidle : ∀ s, moved shape2 ((executeMove shape1 dst1 src1 s).regs (hw src1))
      ((executeMove shape1 dst1 src1 s).regs (hw dst1)) =
      (executeMove shape1 dst1 src1 s).regs (hw src1) := by
    intro s
    have hkept := h (mid.map idle) (map_inst_idle mid) s
    rwa [runBlock_idle] at hkept
  unfold MovesBack
  by_cases hsame : hw dst1 = hw src1
  · rw [if_pos hsame]
    by_cases hclears : shape2.clears = false
    · exact .inl hclears
    · rw [Bool.not_eq_false] at hclears
      have hfilled := congrFun (hidle (filled 1)) shape2.bytes
      rw [← hsame, executeMove_regs_self, ← hsame] at hfilled
      simp only [moved, filled, Nat.lt_irrefl, if_false, hclears, if_true] at hfilled
      have hfirst : shape1.clears = true ∧ shape1.bytes ≤ shape2.bytes := by
        by_contra hnot
        rw [not_and_or, Nat.not_le, Bool.not_eq_true] at hnot
        rcases hnot with hkeeps | hlonger
        · rw [hkeeps] at hfilled
          simp at hfilled
        · rw [if_pos hlonger] at hfilled
          exact absurd hfilled (by decide)
      refine .inr ⟨hfirst.1, hfirst.2, leavesAlone_of_moved h fun r hr => ⟨1, filled 0, ?_⟩⟩
      have hr : r = hw src1 := hr.elim (fun h => h.trans hsame) id
      rw [hr, hsame]
      dsimp only
      intro heq
      have hbyte := congrFun heq shape2.bytes
      simp [moved, MachineState.setReg, hclears] at hbyte
  · rw [if_neg hsame]
    have hne := Ne.symm hsame
    have h1 := shape1.bytes_pos
    have h2 := shape2.bytes_pos
    have hpair : ∀ s : MachineState, moved shape2 (s.regs (hw src1))
        (moved shape1 (s.regs (hw dst1)) (s.regs (hw src1))) = s.regs (hw src1) := by
      intro s
      have hkept := hidle s
      rwa [executeMove_regs_self, executeMove_regs_of_ne _ _ _ hne] at hkept
    have hclears : shape2.clears = false := by
      by_contra hnot
      rw [Bool.not_eq_false] at hnot
      have hbyte := congrFun (hpair (filled 1)) shape2.bytes
      simp [moved, filled, hnot] at hbyte
    have hbytes : shape2.bytes ≤ shape1.bytes := by
      by_contra hnot
      have hlt := Nat.lt_of_not_le hnot
      have hbyte := congrFun (hpair ((filled 0).setReg (hw src1) fun _ => 1)) shape1.bytes
      simp [moved, filled, MachineState.setReg, hlt, hsame] at hbyte
    refine ⟨hclears, hbytes, leavesAlone_of_moved h fun r hr => ⟨1, filled 0, ?_⟩⟩
    dsimp only
    intro heq
    have hbyte := congrFun heq 0
    rcases hr with rfl | rfl
    · simp [moved, MachineState.setReg, executeMove, filled, h2, hne] at hbyte
    · simp [moved, MachineState.setReg, executeMove, filled, h1, h2, hsame] at hbyte

end

/-! ## Two moves of a general register -/

def MOV64rr (dst src : MirRegisterRef) : MirInstruction :=
  ⟨.TARGET_INST, some ⟨0, [.Write, .Read], [], [], [.IsMove]⟩, [.register dst, .register src]⟩

def MOV8ri (dst : MirRegisterRef) (imm : ℤ) : MirInstruction :=
  ⟨.TARGET_INST, some ⟨1, [.Write, .Read], [], [], []⟩, [.register dst, .integer imm]⟩

def gpr8 (id : ℕ) : MirRegisterRef := ⟨false, some ⟨0, 0⟩, id⟩

def wholeRegister : MoveShape := ⟨8, false, by decide⟩

theorem gpr8_mem_MOV8ri : gpr8 3 ∈ (MOV8ri (gpr8 3) 7).getDefinedRegisters := mem_cons_self

inductive CPUFlag
  | CF | PF | ZF | SF | OF
  deriving DecidableEq, Repr

/-- The general registers, those of floating point and the flags. -/
structure RegisterFile where
  gpr : HwRegister → BitVec 64
  fpr : HwRegister → BitVec 128
  flags : CPUFlag → Bool

namespace RegisterFile

def setGpr (s : RegisterFile) (r : HwRegister) (v : BitVec 64) : RegisterFile :=
  { s with gpr := Function.update s.gpr r v }

def setFpr (s : RegisterFile) (r : HwRegister) (v : BitVec 128) : RegisterFile :=
  { s with fpr := Function.update s.fpr r v }

end RegisterFile

inductive AluOp
  | add | sub | or | xor | shl | shr
  deriving DecidableEq, Repr

/-- What a row does: moves and operations of a number of bits, and jumps with the slot of the
target. A linking jump leaves the address behind it in its first operand. -/
inductive Effect
  | moveGpr (bits : ℕ)
  | moveFpr (bits : ℕ)
  | alu (op : AluOp) (bits : ℕ)
  | immediate (op : AluOp)
  | addWord
  | jump (slot : ℕ)
  | branch (slot : ℕ)
  | jumpAndLink (slot : ℕ)
  | jumpAndLinkRegister
  | ret
  | other
  deriving DecidableEq, Repr

structure TargetRow where
  name : String
  targetFlags : List MirInstructionFlag
  effect : Effect
  deriving DecidableEq, Repr

def amd64Rows : List TargetRow := [
  ⟨"ADD32ri", [], .alu .add 32⟩, ⟨"ADD64ri", [], .alu .add 64⟩, ⟨"SUB32ri", [], .alu .sub 32⟩,
  ⟨"SUB64ri", [], .alu .sub 64⟩, ⟨"IMUL32ri", [], .other⟩, ⟨"IMUL64ri", [], .other⟩,
  ⟨"AND32ri", [], .other⟩, ⟨"AND64ri", [], .other⟩, ⟨"OR32ri", [], .alu .or 32⟩,
  ⟨"OR64ri", [], .alu .or 64⟩, ⟨"XOR32ri", [], .alu .xor 32⟩, ⟨"XOR64ri", [], .alu .xor 64⟩,
  ⟨"SHL32ri", [], .alu .shl 32⟩, ⟨"SHL64ri", [], .alu .shl 64⟩, ⟨"SHR32ri", [], .alu .shr 32⟩,
  ⟨"SHR64ri", [], .alu .shr 64⟩, ⟨"SAR32ri", [], .other⟩, ⟨"SAR64ri", [], .other⟩,
  ⟨"MOV8rr", [.IsMove], .moveGpr 8⟩, ⟨"MOV16rr", [.IsMove], .moveGpr 16⟩,
  ⟨"MOV32rr", [.IsMove], .moveGpr 32⟩, ⟨"MOV64rr", [.IsMove], .moveGpr 64⟩,
  ⟨"JMP", [.IsTerminator, .IsBranch], .jump 0⟩,
  ⟨"JE", [.IsTerminator, .IsBranch, .ReadsCPUFlags], .branch 0⟩,
  ⟨"JNE", [.IsTerminator, .IsBranch, .ReadsCPUFlags], .branch 0⟩,
  ⟨"JL", [.IsTerminator, .IsBranch, .ReadsCPUFlags], .branch 0⟩,
  ⟨"JLE", [.IsTerminator, .IsBranch, .ReadsCPUFlags], .branch 0⟩,
  ⟨"JG", [.IsTerminator, .IsBranch, .ReadsCPUFlags], .branch 0⟩,
  ⟨"JGE", [.IsTerminator, .IsBranch, .ReadsCPUFlags], .branch 0⟩,
  ⟨"JB", [.IsTerminator, .IsBranch, .ReadsCPUFlags], .branch 0⟩,
  ⟨"JBE", [.IsTerminator, .IsBranch, .ReadsCPUFlags], .branch 0⟩,
  ⟨"JA", [.IsTerminator, .IsBranch, .ReadsCPUFlags], .branch 0⟩,
  ⟨"JAE", [.IsTerminator, .IsBranch, .ReadsCPUFlags], .branch 0⟩,
  ⟨"RET", [.IsTerminator, .IsReturn, .HasSideEffect], .ret⟩, ⟨"MOVSSrr", [.IsMove], .moveFpr 32⟩,
  ⟨"MOVSDrr", [.IsMove], .moveFpr 64⟩, ⟨"MOVAPSrr", [.IsMove], .moveFpr 128⟩,
  ⟨"MOVUPSrr", [.IsMove], .moveFpr 128⟩, ⟨"MOVAPDrr", [.IsMove], .moveFpr 128⟩,
  ⟨"MOVUPDrr", [.IsMove], .moveFpr 128⟩, ⟨"MOVDQArr", [.IsMove], .moveFpr 128⟩,
  ⟨"MOVDQUrr", [.IsMove], .moveFpr 128⟩]

def riscv64Rows : List TargetRow := [
  ⟨"ADDI64ri", [], .immediate .add⟩, ⟨"ADDI32ri", [], .addWord⟩, ⟨"ANDI64ri", [], .other⟩,
  ⟨"ORI64ri", [], .immediate .or⟩, ⟨"XORI64ri", [], .immediate .xor⟩, ⟨"AND32ri", [], .other⟩,
  ⟨"OR32ri", [], .immediate .or⟩, ⟨"XOR32ri", [], .immediate .xor⟩, ⟨"SLLI64ri", [], .other⟩,
  ⟨"SRLI64ri", [], .other⟩, ⟨"SRAI64ri", [], .other⟩, ⟨"SLLI32ri", [], .other⟩,
  ⟨"SRLI32ri", [], .other⟩, ⟨"SRAI32ri", [], .other⟩, ⟨"SLTI64ri", [], .other⟩,
  ⟨"SLTIU64ri", [], .other⟩, ⟨"LD", [.ReadsMemory], .other⟩, ⟨"LW", [.ReadsMemory], .other⟩,
  ⟨"LWU", [.ReadsMemory], .other⟩, ⟨"LH", [.ReadsMemory], .other⟩, ⟨"LHU", [.ReadsMemory], .other⟩,
  ⟨"LB", [.ReadsMemory], .other⟩, ⟨"LBU", [.ReadsMemory], .other⟩, ⟨"SD", [.WritesMemory], .other⟩,
  ⟨"SW", [.WritesMemory], .other⟩, ⟨"SH", [.WritesMemory], .other⟩, ⟨"SB", [.WritesMemory], .other⟩,
  ⟨"FLD", [.ReadsMemory], .other⟩, ⟨"FLW", [.ReadsMemory], .other⟩,
  ⟨"FSD", [.WritesMemory], .other⟩, ⟨"FSW", [.WritesMemory], .other⟩,
  ⟨"BEQ", [.IsBranch], .branch 2⟩, ⟨"BNE", [.IsBranch], .branch 2⟩, ⟨"BLT", [.IsBranch], .branch 2⟩,
  ⟨"BGE", [.IsBranch], .branch 2⟩, ⟨"BLTU", [.IsBranch], .branch 2⟩,
  ⟨"BGEU", [.IsBranch], .branch 2⟩, ⟨"JAL", [.IsBranch], .jumpAndLink 1⟩,
  ⟨"JALR", [.IsBranch], .jumpAndLinkRegister⟩]

structure TargetInstruction where
  row : TargetRow
  operands : List MirOperand
  deriving DecidableEq, Repr

/-! ## What the rows do -/

def fillLow {w : ℕ} (bits : ℕ) (old new : BitVec w) : BitVec w :=
  let mask := BitVec.allOnes w >>> (w - bits)
  (old &&& ~~~mask) ||| (new &&& mask)

/-- The count of a shift is taken modulo the width. -/
def aluResult {w : ℕ} (op : AluOp) (x y : BitVec w) : BitVec w :=
  match op with
  | .add => x + y
  | .sub => x - y
  | .or => x ||| y
  | .xor => x ^^^ y
  | .shl => x <<< (y.toNat % w)
  | .shr => x >>> (y.toNat % w)

def resultFlags {w : ℕ} (result : BitVec w) (carry overflow : Bool) : CPUFlag → Bool
  | .CF => carry
  | .PF => (result.setWidth 8).cpop.toNat % 2 = 0
  | .ZF => result = 0
  | .SF => result.msb
  | .OF => overflow

/-- A shift by nothing leaves the flags. -/
def aluFlags {w : ℕ} (op : AluOp) (x y : BitVec w) (old : CPUFlag → Bool) : CPUFlag → Bool :=
  let count := y.toNat % w
  let result := aluResult op x y
  match op with
  | .add => resultFlags result (x.uaddOverflow y) (x.saddOverflow y)
  | .sub => resultFlags result (x.usubOverflow y) (x.ssubOverflow y)
  | .or => resultFlags result false false
  | .xor => resultFlags result false false
  | .shl =>
    if count = 0 then old
    else resultFlags result (x.getLsbD (w - count)) (result.msb ^^ x.getLsbD (w - count))
  | .shr => if count = 0 then old else resultFlags result (x.getLsbD (count - 1)) x.msb

/-- The register that is constant on RISC-V. -/
def zeroRegister : HwRegister := ⟨false, some 0, 0⟩

namespace RegisterFile

def readX (s : RegisterFile) (r : HwRegister) : BitVec 64 :=
  if r = zeroRegister then 0 else s.gpr r

def setX (s : RegisterFile) (r : HwRegister) (v : BitVec 64) : RegisterFile :=
  if r = zeroRegister then s else s.setGpr r v

end RegisterFile

def TargetInstruction.execute (inst : TargetInstruction) (link : BitVec 64) (s : RegisterFile) :
    RegisterFile :=
  match inst.row.effect, inst.operands with
  | .moveGpr bits, .register dst :: .register src :: _ =>
    s.setGpr (hw dst) (if bits = 32 then ((s.gpr (hw src)).setWidth 32).setWidth 64
      else fillLow bits (s.gpr (hw dst)) (s.gpr (hw src)))
  | .moveFpr bits, .register dst :: .register src :: _ =>
    s.setFpr (hw dst) (fillLow bits (s.fpr (hw dst)) (s.fpr (hw src)))
  | .alu op bits, .register dst :: .register src :: .integer imm :: _ =>
    let x := (s.gpr (hw src)).setWidth bits
    let y := BitVec.ofInt bits imm
    { s.setGpr (hw dst) ((aluResult op x y).setWidth 64) with flags := aluFlags op x y s.flags }
  | .immediate op, .register dst :: .register src :: .integer imm :: _ =>
    s.setX (hw dst) (aluResult op (s.readX (hw src)) ((BitVec.ofInt 12 imm).signExtend 64))
  | .addWord, .register dst :: .register src :: .integer imm :: _ =>
    s.setX (hw dst) (((s.readX (hw src)).setWidth 32 +
      (BitVec.ofInt 12 imm).signExtend 32).signExtend 64)
  | .jumpAndLink _, .register dst :: _ => s.setX (hw dst) link
  | .jumpAndLinkRegister, .register dst :: _ => s.setX (hw dst) link
  | _, _ => s

/-- Where an instruction leads: on, to a place for sure, or to a place when its condition holds. A
place is a block or an address that no block is known for. -/
inductive Control
  | straight
  | jump (dest : Option ℕ)
  | branch (dest : Option ℕ)
  deriving DecidableEq, Repr

def blockOf (operand : Option MirOperand) : Option ℕ :=
  match operand with
  | some (.reference ref) => if ref.refType = .Block then some ref.refId else none
  | _ => none

def TargetInstruction.control (inst : TargetInstruction) : Control :=
  match inst.row.effect with
  | .jump slot => .jump (blockOf inst.operands[slot]?)
  | .jumpAndLink slot => .jump (blockOf inst.operands[slot]?)
  | .jumpAndLinkRegister => .jump none
  | .ret => .jump none
  | .branch slot => .branch (blockOf inst.operands[slot]?)
  | _ => .straight

/-- The successor of a block, each instruction with the outcome of its condition. -/
def successor (next : Option ℕ) : List (Control × Bool) → Option ℕ
  | [] => next
  | (.straight, _) :: rest => successor next rest
  | (.jump dest, _) :: _ => dest
  | (.branch dest, taken) :: rest => if taken then dest else successor next rest

end EzPacker.Peephole
