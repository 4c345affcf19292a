import Mathlib.Data.List.Infix
import EzPacker.Peephole.ReciprocalMoves

/-!
# Erased moves, identities and jumps

The rules that erase an instruction by itself, and what an instruction leaves unchanged. What is
read later are registers, with all their bits, and flags.
-/

namespace EzPacker.Peephole

open TargetInstruction RegisterFile List Function Mir

/-! ## The rules -/

def TargetInstruction.mir (inst : TargetInstruction) : MirInstruction :=
  ⟨.TARGET_INST, some ⟨0, [], [], [], inst.row.targetFlags⟩, inst.operands⟩

def tryEliminateSelfMove (inst : TargetInstruction) : Bool :=
  match isMoveInstruction inst.mir with
  | some (dst, src) => dst.same src
  | none => false

/-- A fragment of the lower-case name. -/
def contains (name fragment : String) : Bool :=
  decide (fragment.toList <:+: name.toList.map Char.toLower)

def isIdentityOp (name : String) : Bool :=
  contains name "add" || contains name "sub" || contains name "or" || contains name "xor" ||
    contains name "shl" || contains name "shr"

def tryEliminateZeroIdentity (inst : TargetInstruction) : Bool :=
  match inst.operands with
  | .register dst :: .register src :: .integer value :: _ =>
    dst.same src && value = 0 && isIdentityOp inst.row.name &&
      !decide (.WritesCPUFlags ∈ inst.row.targetFlags)
  | _ => false

/-- A jump or branch that does not read flags and names the next block. -/
def tryEliminateAdjacentJump (next : Option ℕ) (inst : TargetInstruction) : Bool :=
  match next with
  | some next =>
    (.IsBranch ∈ inst.row.targetFlags || .IsTerminator ∈ inst.row.targetFlags) &&
      !decide (.ReadsCPUFlags ∈ inst.row.targetFlags) &&
      inst.operands.any fun op => blockOf (some op) = some next
  | none => false

/-! ## What is read later -/

inductive Location
  | gpr (r : HwRegister)
  | fpr (r : HwRegister)
  | flag (f : CPUFlag)
  deriving DecidableEq, Repr

structure AgreesOn (live : Location → Prop) (s t : RegisterFile) : Prop where
  gpr : ∀ r, live (.gpr r) → s.gpr r = t.gpr r
  fpr : ∀ r, live (.fpr r) → s.fpr r = t.fpr r
  flags : ∀ f, live (.flag f) → s.flags f = t.flags f

theorem AgreesOn.refl (live : Location → Prop) (s : RegisterFile) : AgreesOn live s s :=
  ⟨fun _ _ => rfl, fun _ _ => rfl, fun _ _ => rfl⟩

/-- Without the instruction every register and flag that is read later is the same. -/
def KeepsLive (live : Location → Prop) (inst : TargetInstruction) : Prop :=
  ∀ link s, AgreesOn live (inst.execute link s) s

/-- Without the instruction control reaches the same successor on every outcome of every
condition. -/
def KeepsSuccessor (next : Option ℕ) (pre : List TargetInstruction) (inst : TargetInstruction)
    (post : List TargetInstruction) : Prop :=
  ∀ (outcomes outcomes' : List Bool) (outcome : Bool), outcomes.length = pre.length →
    outcomes'.length = post.length →
    successor next ((pre.map TargetInstruction.control).zip outcomes ++
        (inst.control, outcome) :: (post.map TargetInstruction.control).zip outcomes') =
      successor next ((pre.map TargetInstruction.control).zip outcomes ++
        (post.map TargetInstruction.control).zip outcomes')

/-! ## Conditions -/

def shippedRows : List TargetRow := amd64Rows ++ riscv64Rows

def TargetInstruction.destination (inst : TargetInstruction) : Option HwRegister :=
  match inst.operands with
  | .register dst :: _ => some (hw dst)
  | _ => none

/-- The destination is not read later. -/
def DestinationDead (live : Location → Prop) (inst : TargetInstruction) : Prop :=
  ∀ r, inst.destination = some r → ¬ live (.gpr r)

/-- A move of 32 bits clears the upper half. -/
def SelfMoveFits (live : Location → Prop) (inst : TargetInstruction) : Prop :=
  inst.row.effect = .moveGpr 32 → DestinationDead live inst

/-- Operations of 32 bits change the upper half, and all but the shifts set the flags. -/
def ZeroIdentityFits (live : Location → Prop) (inst : TargetInstruction) : Prop :=
  match inst.row.effect with
  | .alu op bits => (bits = 32 → DestinationDead live inst) ∧
      (op ≠ .shl → op ≠ .shr → ∀ f, ¬ live (.flag f))
  | .addWord => inst.destination = some zeroRegister ∨ DestinationDead live inst
  | _ => True

theorem effect_of_isMove : ∀ row ∈ shippedRows, .IsMove ∈ row.targetFlags →
    row.effect ∈ [.moveGpr 8, .moveGpr 16, .moveGpr 32, .moveGpr 64, .moveFpr 32, .moveFpr 64,
      .moveFpr 128] := by
  decide

theorem effect_of_isIdentityOp : ∀ row ∈ shippedRows, isIdentityOp row.name = true →
    row.effect ∈ [.alu .add 32, .alu .add 64, .alu .sub 32, .alu .sub 64, .alu .or 32, .alu .or 64,
      .alu .xor 32, .alu .xor 64, .alu .shl 32, .alu .shl 64, .alu .shr 32, .alu .shr 64,
      .immediate .add, .immediate .or, .immediate .xor, .addWord] := by
  decide +kernel

theorem effect_of_branch : ∀ row ∈ shippedRows,
    (.IsBranch ∈ row.targetFlags ∨ .IsTerminator ∈ row.targetFlags) →
    .ReadsCPUFlags ∉ row.targetFlags →
    row.effect ∈ [.jump 0, .branch 2, .jumpAndLink 1, .jumpAndLinkRegister, .ret] := by
  decide

/-! ## Registers -/

theorem setGpr_self (s : RegisterFile) (r : HwRegister) : s.setGpr r (s.gpr r) = s := by
  unfold setGpr
  rw [update_eq_self]

theorem setGpr_gpr (s : RegisterFile) (r : HwRegister) (v : BitVec 64) : (s.setGpr r v).gpr r = v :=
  update_self _ _ _

theorem setFpr_self (s : RegisterFile) (r : HwRegister) : s.setFpr r (s.fpr r) = s := by
  unfold setFpr
  rw [update_eq_self]

theorem agreesOn_setGpr {live : Location → Prop} {r : HwRegister} (h : ¬ live (.gpr r))
    (s : RegisterFile) (v : BitVec 64) : AgreesOn live (s.setGpr r v) s := by
  have hne : ∀ r', live (.gpr r') → r' ≠ r := by
    rintro r' hlive rfl
    exact h hlive
  exact ⟨fun r' hlive => update_of_ne (hne r' hlive) _ _, fun _ _ => rfl, fun _ _ => rfl⟩

theorem setX_readX (s : RegisterFile) (r : HwRegister) : s.setX r (s.readX r) = s := by
  unfold setX readX
  split
  · rfl
  · exact setGpr_self s r

theorem agreesOn_setX {live : Location → Prop} {r : HwRegister}
    (h : r = zeroRegister ∨ ¬ live (.gpr r)) (s : RegisterFile) (v : BitVec 64) :
    AgreesOn live (s.setX r v) s := by
  unfold setX
  split
  · exact .refl live s
  · next hzero => exact agreesOn_setGpr (h.resolve_left hzero) s v

theorem fillLow_self {w : ℕ} (bits : ℕ) (v : BitVec w) : fillLow bits v v = v := by
  unfold fillLow
  apply BitVec.eq_of_getLsbD_eq
  intro i hi
  simp only [BitVec.getLsbD_or, BitVec.getLsbD_and, BitVec.getLsbD_not, decide_eq_true hi]
  cases v.getLsbD i <;> cases (BitVec.allOnes w >>> (w - bits)).getLsbD i <;> rfl

theorem aluResult_zero {w : ℕ} (op : AluOp) (x : BitVec w) : aluResult op x 0 = x := by
  cases op with
  | add => exact BitVec.add_zero x
  | sub => exact BitVec.sub_zero x
  | or => exact BitVec.or_zero
  | xor => exact BitVec.xor_zero
  | shl | shr => simp [aluResult]

variable {op : AluOp} {next : Option ℕ} {pre : List TargetInstruction}

theorem aluFlags_shift {w : ℕ} (h : op = .shl ∨ op = .shr) (x : BitVec w) (old : CPUFlag → Bool) :
    aluFlags op x 0 old = old := by
  rcases h with rfl | rfl <;> simp [aluFlags]

/-- What the other operations make of the flags does not depend on them. -/
theorem aluFlags_congr {w : ℕ} (hshl : op ≠ .shl) (hshr : op ≠ .shr) (x y : BitVec w)
    (old old' : CPUFlag → Bool) : aluFlags op x y old = aluFlags op x y old' := by
  cases op with
  | add | sub | or | xor => rfl
  | shl => exact absurd rfl hshl
  | shr => exact absurd rfl hshr

section

variable {live : Location → Prop} {inst : TargetInstruction} {dst src : MirRegisterRef}
  {rest : List MirOperand}

theorem destination_eq (hoperands : inst.operands = .register dst :: rest) :
    inst.destination = some (hw dst) := by
  unfold destination
  rw [hoperands]

theorem destinationDead_iff (hoperands : inst.operands = .register dst :: rest) :
    DestinationDead live inst ↔ ¬ live (.gpr (hw dst)) := by
  unfold DestinationDead
  rw [destination_eq hoperands]
  simp

/-- Every general register is filled with ones and no flag is set. -/
def onesFile : RegisterFile := ⟨fun _ => BitVec.allOnes 64, fun _ => 0, fun _ => false⟩

theorem keepsLive_moveGpr {bits : ℕ} (heffect : inst.row.effect = .moveGpr bits)
    (hoperands : inst.operands = .register dst :: .register src :: rest) (hsame : hw dst = hw src) :
    KeepsLive live inst ↔ (bits = 32 → DestinationDead live inst) := by
  have hexecute : ∀ link s, inst.execute link s = s.setGpr (hw dst)
      (if bits = 32 then ((s.gpr (hw dst)).setWidth 32).setWidth 64
      else fillLow bits (s.gpr (hw dst)) (s.gpr (hw dst))) := by
    intro link s
    unfold execute
    rw [heffect, hoperands]
    dsimp only
    rw [hsame]
  unfold KeepsLive
  rw [destinationDead_iff hoperands]
  simp only [hexecute]
  by_cases hbits : bits = 32
  · simp only [hbits, if_true, true_implies]
    constructor
    · intro h hlive
      have hones := (h 0 onesFile).gpr _ hlive
      rw [setGpr_gpr] at hones
      have hcut : ((BitVec.allOnes 64).setWidth 32).setWidth 64 = BitVec.allOnes 64 := hones
      exact absurd hcut (by decide)
    · intro hdead _ s
      exact agreesOn_setGpr hdead s _
  · simp only [if_neg hbits, fillLow_self, setGpr_self]
    exact iff_of_true (fun _ s => .refl live s) (fun h => absurd h hbits)

theorem keepsLive_moveFpr {bits : ℕ} (heffect : inst.row.effect = .moveFpr bits)
    (hoperands : inst.operands = .register dst :: .register src :: rest) (hsame : hw dst = hw src) :
    KeepsLive live inst := by
  intro link s
  unfold execute
  rw [heffect, hoperands]
  dsimp only
  rw [hsame, fillLow_self, setFpr_self]
  exact .refl live s

theorem keepsLive_alu {bits : ℕ} (hbits : bits = 32 ∨ bits = 64)
    (heffect : inst.row.effect = .alu op bits)
    (hoperands : inst.operands = .register dst :: .register src :: .integer 0 :: rest)
    (hsame : hw dst = hw src) : KeepsLive live inst ↔ (bits = 32 → DestinationDead live inst) ∧
      (op ≠ .shl → op ≠ .shr → ∀ f, ¬ live (.flag f)) := by
  have hexecute : ∀ link s, inst.execute link s =
      { s.setGpr (hw dst) (((s.gpr (hw dst)).setWidth bits).setWidth 64) with
        flags := aluFlags op ((s.gpr (hw dst)).setWidth bits) 0 s.flags } := by
    intro link s
    unfold execute
    rw [heffect, hoperands]
    have hzero : BitVec.ofInt bits 0 = 0 := by simp
    dsimp only
    rw [hsame, hzero, aluResult_zero]
  unfold KeepsLive
  rw [destinationDead_iff hoperands]
  constructor
  · intro h
    refine ⟨fun hnarrow hlive => ?_, fun hshl hshr f hlive => ?_⟩
    · have hones := (h 0 onesFile).gpr _ hlive
      rw [hexecute, hnarrow] at hones
      have hcut : ((BitVec.allOnes 64).setWidth 32).setWidth 64 = BitVec.allOnes 64 :=
        (setGpr_gpr _ _ _).symm.trans hones
      exact absurd hcut (by decide)
    · let x := (onesFile.gpr (hw dst)).setWidth bits
      let flipped : RegisterFile :=
        ⟨onesFile.gpr, onesFile.fpr, fun f => !aluFlags op x 0 onesFile.flags f⟩
      have hflag := (h 0 flipped).flags f hlive
      rw [hexecute] at hflag
      dsimp only at hflag
      rw [aluFlags_congr hshl hshr _ _ _ onesFile.flags] at hflag
      exact (Bool.eq_not_self _).mp hflag
  · intro ⟨hdead, hflags⟩ link s
    rw [hexecute]
    refine ⟨fun r hlive => ?_, fun _ _ => rfl, fun f hlive => ?_⟩
    · rcases hbits with rfl | rfl
      · exact (agreesOn_setGpr (hdead rfl) s _).gpr r hlive
      · rw [BitVec.setWidth_eq, BitVec.setWidth_eq]
        exact congrFun (congrArg RegisterFile.gpr (setGpr_self s (hw dst))) r
    · have hshift : op = .shl ∨ op = .shr := by
        by_contra hnot
        obtain ⟨hshl, hshr⟩ := not_or.mp hnot
        exact hflags hshl hshr f hlive
      exact congrFun (aluFlags_shift hshift _ _) f

theorem keepsLive_immediate (heffect : inst.row.effect = .immediate op)
    (hoperands : inst.operands = .register dst :: .register src :: .integer 0 :: rest)
    (hsame : hw dst = hw src) : KeepsLive live inst := by
  intro link s
  unfold execute
  rw [heffect, hoperands]
  have hzero : (BitVec.ofInt 12 0).signExtend 64 = 0 := by decide
  dsimp only
  rw [hsame, hzero, aluResult_zero, setX_readX]
  exact .refl live s

theorem keepsLive_addWord (heffect : inst.row.effect = .addWord)
    (hoperands : inst.operands = .register dst :: .register src :: .integer 0 :: rest)
    (hsame : hw dst = hw src) :
    KeepsLive live inst ↔ inst.destination = some zeroRegister ∨ DestinationDead live inst := by
  have hexecute : ∀ link s, inst.execute link s =
      s.setX (hw dst) (((s.readX (hw dst)).setWidth 32 + 0).signExtend 64) := by
    intro link s
    unfold execute
    rw [heffect, hoperands]
    have hzero : (BitVec.ofInt 12 0).signExtend 32 = 0 := by decide
    dsimp only
    rw [hsame, hzero]
  unfold KeepsLive
  rw [destinationDead_iff hoperands, destination_eq hoperands, Option.some.injEq]
  constructor
  · intro h
    by_contra hnot
    rw [not_or, not_not] at hnot
    have hword := (h 0 ⟨fun _ => 0x80000000, fun _ => 0, fun _ => false⟩).gpr _ hnot.2
    rw [hexecute, setX, if_neg hnot.1, setGpr_gpr, readX,
      if_neg hnot.1] at hword
    have hcut : ((0x80000000 : BitVec 64).setWidth 32 + 0).signExtend 64 = 0x80000000 := hword
    exact absurd hcut (by decide)
  · intro h link s
    rw [hexecute]
    exact agreesOn_setX h s _

theorem keepsLive_link (heffect : (∃ slot, inst.row.effect = .jumpAndLink slot) ∨
    inst.row.effect = .jumpAndLinkRegister) :
    KeepsLive live inst ↔ inst.destination = some zeroRegister ∨ DestinationDead live inst := by
  have hexecute : ∀ link s, inst.execute link s =
      match inst.destination with
      | some r => s.setX r link
      | none => s := by
    intro link s
    unfold execute destination
    rcases heffect with ⟨slot, heffect⟩ | heffect
    · rw [heffect]
      split <;> simp_all
    · rw [heffect]
      split <;> simp_all
  unfold KeepsLive DestinationDead
  simp only [hexecute]
  cases inst.destination with
  | none =>
    refine iff_of_true (fun _ s => .refl live s) (.inr ?_)
    simp
  | some r =>
    simp only [Option.some.injEq, forall_eq']
    constructor
    · intro h
      by_contra hnot
      rw [not_or, not_not] at hnot
      have hlink := (h 0 onesFile).gpr _ hnot.2
      rw [setX, if_neg hnot.1, setGpr_gpr] at hlink
      exact absurd (show (0 : BitVec 64) = BitVec.allOnes 64 from hlink) (by decide)
    · intro h link s
      exact agreesOn_setX h s link

end

/-! ## Control -/

/-- The block is left by an instruction that always jumps. -/
def Ends (block : List TargetInstruction) : Prop :=
  ∃ k ∈ block, ∃ dest, k.control = .jump dest

/-- The rest of the block leads there, on every outcome. -/
def Leads (next dest : Option ℕ) : List Control → Prop
  | [] => next = dest
  | .straight :: rest => Leads next dest rest
  | .jump dest' :: _ => dest' = dest
  | .branch dest' :: rest => dest' = dest ∧ Leads next dest rest

def Control.dest : Control → Option ℕ
  | .straight => none
  | .jump dest => dest
  | .branch dest => dest

/-- A jump that links leaves the address in a register that is not read later, and the block is left
before the jump or goes on to where the jump leads. -/
def JumpFits (live : Location → Prop) (next : Option ℕ) (pre : List TargetInstruction)
    (inst : TargetInstruction) (post : List TargetInstruction) : Prop :=
  ((∃ slot, inst.row.effect = .jumpAndLink slot) ∨ inst.row.effect = .jumpAndLinkRegister →
      inst.destination = some zeroRegister ∨ DestinationDead live inst) ∧
    (Ends pre ∨ Leads next inst.control.dest (post.map TargetInstruction.control))

theorem leads_iff (next dest : Option ℕ) (controls : List Control) :
    Leads next dest controls ↔ ∀ outcomes : List Bool, outcomes.length = controls.length →
      successor next (controls.zip outcomes) = dest := by
  induction controls with
  | nil =>
    constructor
    · intro h outcomes _
      exact h
    · intro h
      exact h [] rfl
  | cons control controls ih =>
    have hcons : (∀ outcomes : List Bool, outcomes.length = (control :: controls).length →
        successor next ((control :: controls).zip outcomes) = dest) ↔
        ∀ (outcome : Bool) (outcomes : List Bool), outcomes.length = controls.length →
          successor next ((control, outcome) :: controls.zip outcomes) = dest := by
      constructor
      · intro h outcome outcomes hlength
        exact h (outcome :: outcomes) (congrArg Nat.succ hlength)
      · intro h outcomes hlength
        cases outcomes with
        | nil => cases hlength
        | cons outcome outcomes => exact h outcome outcomes (Nat.succ.inj hlength)
    rw [hcons]
    cases control with
    | straight =>
      unfold Leads
      rw [ih]
      exact ⟨fun h _ => h, fun h => h true⟩
    | jump dest' =>
      unfold Leads
      constructor
      · intro h _ _ _
        exact h
      · intro h
        exact h true (replicate controls.length true) length_replicate
    | branch dest' =>
      unfold Leads
      rw [ih]
      constructor
      · intro ⟨htaken, hrest⟩ outcome outcomes hlength
        cases outcome with
        | true => exact htaken
        | false => exact hrest outcomes hlength
      · intro h
        exact ⟨h true (replicate controls.length true) length_replicate, h false⟩

theorem successor_append_congr {tail tail' : List (Control × Bool)}
    (h : successor next tail = successor next tail') (front : List (Control × Bool)) :
    successor next (front ++ tail) = successor next (front ++ tail') := by
  induction front with
  | nil => exact h
  | cons first front ih =>
    obtain ⟨control, outcome⟩ := first
    cases control with
    | straight => exact ih
    | jump dest => rfl
    | branch dest =>
      cases outcome with
      | true => rfl
      | false => exact ih

/-- A front that ends the block decides alone. -/
theorem successor_append_of_ends (h : Ends pre) {outcomes : List Bool}
    (hlength : outcomes.length = pre.length) (tail tail' : List (Control × Bool)) :
    successor next ((pre.map TargetInstruction.control).zip outcomes ++ tail) =
      successor next ((pre.map TargetInstruction.control).zip outcomes ++ tail') := by
  induction pre generalizing outcomes with
  | nil =>
    obtain ⟨k, hk, -⟩ := h
    cases hk
  | cons first pre ih =>
    cases outcomes with
    | nil => cases hlength
    | cons outcome outcomes =>
      have hrest : (∀ dest, first.control ≠ .jump dest) →
          successor next ((pre.map control).zip outcomes ++ tail) =
            successor next ((pre.map control).zip outcomes ++ tail') := by
        intro hfirst
        refine ih ?_ (Nat.succ.inj hlength)
        obtain ⟨k, hk, dest, hdest⟩ := h
        rcases mem_cons.mp hk with rfl | hk
        · exact absurd hdest (hfirst dest)
        · exact ⟨k, hk, dest, hdest⟩
      rw [map_cons, zip_cons_cons, cons_append, cons_append]
      cases hcontrol : first.control with
      | straight => exact hrest (by simp [hcontrol])
      | jump dest => rfl
      | branch dest =>
        cases outcome with
        | true => rfl
        | false => exact hrest (by simp [hcontrol])

/-- With no branch taken a front that does not end the block is passed. -/
theorem successor_append_of_not_ends (h : ¬ Ends pre) (tail : List (Control × Bool)) :
    successor next ((pre.map TargetInstruction.control).zip (replicate pre.length false) ++
      tail) = successor next tail := by
  induction pre with
  | nil => rfl
  | cons first pre ih =>
    have hpre : ¬ Ends pre := fun ⟨k, hk, hdest⟩ => h ⟨k, mem_cons_of_mem _ hk, hdest⟩
    rw [map_cons, length_cons, replicate_succ, zip_cons_cons, cons_append]
    cases hcontrol : first.control with
    | straight => exact ih hpre
    | jump dest => exact absurd ⟨first, mem_cons_self, dest, hcontrol⟩ h
    | branch dest => exact ih hpre

theorem keepsSuccessor_straight {post : List TargetInstruction} {inst : TargetInstruction}
    (h : inst.control = .straight) : KeepsSuccessor next pre inst post := by
  intro outcomes outcomes' outcome _ _
  rw [h]
  have hskip : ∀ rest, successor next ((.straight, outcome) :: rest) = successor next rest :=
    fun _ => rfl
  exact successor_append_congr (hskip _) _

theorem keepsSuccessor_iff {post : List TargetInstruction} {inst : TargetInstruction}
    (h : inst.control ≠ .straight) : KeepsSuccessor next pre inst post ↔
      Ends pre ∨ Leads next inst.control.dest (post.map TargetInstruction.control) := by
  have htaken : ∀ rest, successor next ((inst.control, true) :: rest) = inst.control.dest := by
    intro rest
    cases hcontrol : inst.control with
    | straight => exact absurd hcontrol h
    | jump dest | branch dest => rfl
  constructor
  · intro hkeeps
    by_cases hends : Ends pre
    · exact .inl hends
    · refine .inr ((leads_iff _ _ _).mpr fun outcomes hlength => ?_)
      rw [length_map] at hlength
      have hsame := hkeeps (replicate pre.length false) outcomes true length_replicate hlength
      rw [successor_append_of_not_ends hends, successor_append_of_not_ends hends, htaken] at hsame
      exact hsame.symm
  · intro hfits outcomes outcomes' outcome hlength hlength'
    rcases hfits with hends | hleads
    · exact successor_append_of_ends hends hlength _ _
    · have hpost := (leads_iff _ _ _).mp hleads outcomes' (by rw [length_map, hlength'])
      refine successor_append_congr ?_ _
      cases hcontrol : inst.control with
      | straight => exact absurd hcontrol h
      | jump dest =>
        rw [hpost, hcontrol]
        rfl
      | branch dest =>
        cases outcome with
        | true =>
          rw [hpost, hcontrol]
          rfl
        | false => rfl

/-! ## The erasing rules -/

section

variable {inst : TargetInstruction} (hrow : inst.row ∈ shippedRows) (live : Location → Prop)

include hrow

theorem selfMove_keepsLive (h : tryEliminateSelfMove inst = true) :
    inst.control = .straight ∧ (KeepsLive live inst ↔ SelfMoveFits live inst) := by
  unfold tryEliminateSelfMove isMoveInstruction isMove at h
  by_cases hmove : .IsMove ∈ inst.row.targetFlags
  · have hflags : (inst.mir.opcode = .MOV || .IsMove ∈ targetFlags inst.mir) = true := by
      simp [mir, targetFlags, hmove]
    rw [if_pos hflags] at h
    have hoperands : ∃ dst src rest, inst.operands = .register dst :: .register src :: rest ∧
        hw dst = hw src := by
      have hmir : inst.mir.operands = inst.operands := rfl
      rw [hmir] at h
      split at h
      · next dst src hpair =>
          split at hpair
          · next dst' src' rest heq =>
              cases hpair
              exact ⟨dst, src, rest, heq, hw_eq_of_same h⟩
          · cases hpair
      · cases h
    obtain ⟨dst, src, rest, hoperands, hsame⟩ := hoperands
    have heffect := effect_of_isMove _ hrow hmove
    have hgpr : ∀ bits, inst.row.effect = .moveGpr bits →
        inst.control = .straight ∧ (KeepsLive live inst ↔ SelfMoveFits live inst) := by
      intro bits heffect
      refine ⟨by rw [TargetInstruction.control, heffect], ?_⟩
      rw [keepsLive_moveGpr heffect hoperands hsame, SelfMoveFits, heffect, Effect.moveGpr.injEq]
    have hfpr : ∀ bits, inst.row.effect = .moveFpr bits →
        inst.control = .straight ∧ (KeepsLive live inst ↔ SelfMoveFits live inst) := by
      intro bits heffect
      refine ⟨by rw [TargetInstruction.control, heffect], iff_of_true ?_ ?_⟩
      · exact keepsLive_moveFpr heffect hoperands hsame
      · rw [SelfMoveFits, heffect]
        nofun
    simp only [mem_cons, not_mem_nil, or_false] at heffect
    rcases heffect with h | h | h | h | h | h | h
    · exact hgpr _ h
    · exact hgpr _ h
    · exact hgpr _ h
    · exact hgpr _ h
    · exact hfpr _ h
    · exact hfpr _ h
    · exact hfpr _ h
  · have hflags : (inst.mir.opcode = .MOV || .IsMove ∈ targetFlags inst.mir) = false := by
      simp [mir, targetFlags, hmove]
    rw [hflags] at h
    cases h

theorem zeroIdentity_keepsLive (h : tryEliminateZeroIdentity inst = true) :
    inst.control = .straight ∧ (KeepsLive live inst ↔ ZeroIdentityFits live inst) := by
  have hshape : ∃ dst src rest, inst.operands =
      .register dst :: .register src :: .integer 0 :: rest ∧ hw dst = hw src ∧
        isIdentityOp inst.row.name = true := by
    unfold tryEliminateZeroIdentity at h
    split at h
    · next dst src value rest hoperands =>
        simp only [Bool.and_eq_true, decide_eq_true_eq] at h
        obtain ⟨⟨⟨hsame, rfl⟩, hname⟩, -⟩ := h
        exact ⟨dst, src, rest, hoperands, hw_eq_of_same hsame, hname⟩
    · cases h
  obtain ⟨dst, src, rest, hoperands, hsame, hname⟩ := hshape
  have heffect := effect_of_isIdentityOp _ hrow hname
  have halu : ∀ op bits, (bits = 32 ∨ bits = 64) → inst.row.effect = .alu op bits →
      inst.control = .straight ∧ (KeepsLive live inst ↔ ZeroIdentityFits live inst) := by
    intro op bits hbits heffect
    refine ⟨by rw [TargetInstruction.control, heffect], ?_⟩
    rw [keepsLive_alu hbits heffect hoperands hsame, ZeroIdentityFits, heffect]
  have himmediate : ∀ op, inst.row.effect = .immediate op →
      inst.control = .straight ∧ (KeepsLive live inst ↔ ZeroIdentityFits live inst) := by
    intro op heffect
    refine ⟨by rw [TargetInstruction.control, heffect], iff_of_true ?_ ?_⟩
    · exact keepsLive_immediate heffect hoperands hsame
    · rw [ZeroIdentityFits, heffect]
      trivial
  simp only [mem_cons, not_mem_nil, or_false] at heffect
  rcases heffect with h | h | h | h | h | h | h | h | h | h | h | h | h | h | h | h
  case inr.inr.inr.inr.inr.inr.inr.inr.inr.inr.inr.inr.inr.inr.inr =>
    refine ⟨by rw [TargetInstruction.control, h], ?_⟩
    rw [keepsLive_addWord h hoperands hsame, ZeroIdentityFits, h]
  all_goals
    first
      | exact halu _ _ (.inl rfl) h
      | exact halu _ _ (.inr rfl) h
      | exact himmediate _ h

theorem adjacentJump_keepsLive (h : tryEliminateAdjacentJump next inst = true) :
    inst.control ≠ .straight ∧ (KeepsLive live inst ↔
        ((∃ slot, inst.row.effect = .jumpAndLink slot) ∨ inst.row.effect = .jumpAndLinkRegister →
          inst.destination = some zeroRegister ∨ DestinationDead live inst)) := by
  unfold tryEliminateAdjacentJump at h
  cases next with
  | none => cases h
  | some next =>
    simp only [Bool.and_eq_true, Bool.or_eq_true, Bool.not_eq_true', decide_eq_true_eq,
      decide_eq_false_iff_not] at h
    have heffect := effect_of_branch _ hrow h.1.1 h.1.2
    simp only [mem_cons, not_mem_nil, or_false] at heffect
    have hlink : ((∃ slot, inst.row.effect = .jumpAndLink slot) ∨
        inst.row.effect = .jumpAndLinkRegister) → (KeepsLive live inst ↔
          ((∃ slot, inst.row.effect = .jumpAndLink slot) ∨ inst.row.effect = .jumpAndLinkRegister →
            inst.destination = some zeroRegister ∨ DestinationDead live inst)) := by
      intro hlinks
      rw [keepsLive_link hlinks]
      exact ⟨fun hfits _ => hfits, fun hfits => hfits hlinks⟩
    have hquiet : ¬ ((∃ slot, inst.row.effect = .jumpAndLink slot) ∨
        inst.row.effect = .jumpAndLinkRegister) →
        (∀ link s, inst.execute link s = s) → (KeepsLive live inst ↔
          ((∃ slot, inst.row.effect = .jumpAndLink slot) ∨ inst.row.effect = .jumpAndLinkRegister →
            inst.destination = some zeroRegister ∨ DestinationDead live inst)) := by
      intro hnot hexecute
      refine iff_of_true (fun link s => ?_) fun hlinks => absurd hlinks hnot
      rw [hexecute]
      exact .refl live s
    rcases heffect with heffect | heffect | heffect | heffect | heffect
    · refine ⟨by simp [TargetInstruction.control, heffect], hquiet (by simp [heffect]) ?_⟩
      intro link s
      rw [execute, heffect]
    · refine ⟨by simp [TargetInstruction.control, heffect], hquiet (by simp [heffect]) ?_⟩
      intro link s
      rw [execute, heffect]
    · exact ⟨by simp [TargetInstruction.control, heffect], hlink (.inl ⟨1, heffect⟩)⟩
    · exact ⟨by simp [TargetInstruction.control, heffect], hlink (.inr heffect)⟩
    · refine ⟨by simp [TargetInstruction.control, heffect], hquiet (by simp [heffect]) ?_⟩
      intro link s
      rw [execute, heffect]

/-- An erased instruction of the tables leaves what is read later and the successor as they are
under its condition and under no other. -/
theorem erased_instruction_iff (next : Option ℕ) (pre post : List TargetInstruction) :
    (tryEliminateSelfMove inst = true →
        (KeepsLive live inst ∧ KeepsSuccessor next pre inst post ↔ SelfMoveFits live inst)) ∧
      (tryEliminateZeroIdentity inst = true →
        (KeepsLive live inst ∧ KeepsSuccessor next pre inst post ↔ ZeroIdentityFits live inst)) ∧
      (tryEliminateAdjacentJump next inst = true →
        (KeepsLive live inst ∧ KeepsSuccessor next pre inst post ↔
          JumpFits live next pre inst post)) := by
  refine ⟨fun h => ?_, fun h => ?_, fun h => ?_⟩
  · obtain ⟨hcontrol, hiff⟩ := selfMove_keepsLive hrow live h
    rw [hiff, and_iff_left (keepsSuccessor_straight hcontrol)]
  · obtain ⟨hcontrol, hiff⟩ := zeroIdentity_keepsLive hrow live h
    rw [hiff, and_iff_left (keepsSuccessor_straight hcontrol)]
  · obtain ⟨hcontrol, hiff⟩ := adjacentJump_keepsLive hrow live h
    rw [hiff, keepsSuccessor_iff hcontrol]
    rfl

end

def blockReference (id : ℕ) : MirOperand := .reference ⟨.Block, id, 0⟩

/-- A conditional branch to the next block with a jump elsewhere behind it. -/
def BNE (target : ℕ) : TargetInstruction :=
  ⟨⟨"BNE", [.IsBranch], .branch 2⟩, [.register (gpr 10), .register (gpr 0), blockReference target]⟩

def JAL (target : ℕ) : TargetInstruction :=
  ⟨⟨"JAL", [.IsBranch], .jumpAndLink 1⟩, [.register (gpr 0), blockReference target]⟩

/-- The jump at the end of the block goes where the block goes on. -/
theorem erased_jump_at_the_end :
    KeepsLive (fun _ => True) (JAL 7) ∧ KeepsSuccessor (some 7) [BNE 3] (JAL 7) [] := by
  have hrow : (JAL 7).row ∈ shippedRows := by decide
  have herased : tryEliminateAdjacentJump (some 7) (JAL 7) = true := by decide
  refine ((erased_instruction_iff hrow (fun _ => True) (some 7) [BNE 3] []).2.2 herased).mpr ?_
  exact ⟨fun _ => .inl rfl, .inr rfl⟩

/-- The branch to the next block is erased, and control goes on to the jump elsewhere. -/
theorem erased_branch_before_jump :
    (BNE 7).row ∈ shippedRows ∧ tryEliminateAdjacentJump (some 7) (BNE 7) = true ∧
      ¬ KeepsSuccessor (some 7) [] (BNE 7) [JAL 3] := by
  refine ⟨by decide, by decide, fun h => ?_⟩
  have hsame := h [] [true] true rfl rfl
  revert hsame
  decide

end EzPacker.Peephole
