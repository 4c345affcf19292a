import EzPacker.Lib.Correspondence
import EzPacker.SpillCode.LastWrites
import Mathlib.Data.List.Induction

/-!
# Paths of the rewritten function

A path of the function becomes one of the rewritten function that passes the code around
every instruction. No code is put behind a branch, which writes no register.
-/

namespace EzPacker.SpillCode

open List Function Mir RegAlloc KeyedSet CodeFlow

/-! ### Functions in general -/

namespace Function

variable {f : Function}

theorem Run.straight {q : ℕ} {l : List ℕ} (h : f.Run q l) {n : ℕ}
    (hn : ∀ i < n, q + i < f.code.length ∧ endsScan (f.viewAt (q + i)) = false) :
    f.Run (q + n) ((range' q n).reverse ++ l) := by
  induction n with
  | zero => exact h
  | succ n ih =>
    obtain ⟨hlt, hends⟩ := hn n (Nat.lt_succ_self n)
    rw [range'_1_concat, reverse_append, reverse_singleton]
    exact (ih fun i hi => hn i (Nat.lt_succ_of_lt hi)).next hlt hends

end Function

theorem runPath_append {I : Interp} (isSlot : ℕ → Bool) (f : Function) (s : State I)
    (l l' : List ℕ) :
    runPath isSlot f s (l ++ l') = runPath isSlot f (runPath isSlot f s l') l := by
  induction l with
  | nil => rfl
  | cons p l ih =>
    rw [cons_append, runPath, ih]
    rfl

/-- Where a group starts in the code of all. -/
def groupOffset (groups : List SpillJob.Group) (p : ℕ) : ℕ :=
  ((groups.take p).map (·.code.length)).sum

theorem drop_groupOffset (groups : List SpillJob.Group) (p : ℕ) :
    (groups.flatMap SpillJob.Group.code).drop (groupOffset groups p) =
      (groups.drop p).flatMap SpillJob.Group.code := by
  induction groups generalizing p with
  | nil => simp [groupOffset]
  | cons g groups ih =>
    cases p with
    | zero => rfl
    | succ p =>
      have hoffset : groupOffset (g :: groups) (p + 1) = g.code.length + groupOffset groups p := by
        simp [groupOffset]
      rw [hoffset, flatMap_cons, drop_length_add_append, ih, drop_succ_cons]

theorem groupOffset_succ {groups : List SpillJob.Group} {p : ℕ} {g : SpillJob.Group}
    (hg : groups[p]? = some g) :
    groupOffset groups (p + 1) = groupOffset groups p + g.code.length := by
  unfold groupOffset
  rw [take_add_one, hg, map_append, sum_append]
  simp

theorem blockStart_flatten {blocks : List Block} {bs : List (ℕ × List SpillJob.Group)}
    (h : Forall₂ (fun b x => b.id = x.1 ∧ b.instructions.length = x.2.length) blocks bs)
    {target q : ℕ} (hq : blockStart blocks target = some q) :
    blockStart (bs.map fun b => ⟨b.1, b.2.flatMap SpillJob.Group.code⟩) target =
      some (groupOffset (bs.flatMap Prod.snd) q) := by
  induction h generalizing q with
  | nil => cases hq
  | @cons b x blocks bs hb hrest ih =>
    rw [blockStart] at hq
    rw [map_cons, blockStart, flatMap_cons, ← hb.1]
    by_cases hid : b.id = target
    · rw [if_pos hid] at hq ⊢
      obtain rfl := Option.some.inj hq
      rfl
    · rw [if_neg hid] at hq ⊢
      obtain ⟨q', hq', rfl⟩ := Option.map_eq_some_iff.mp hq
      rw [ih hq', Option.map_some, hb.2]
      unfold groupOffset
      rw [Nat.add_comm q', take_length_add_append, map_append, sum_append, Nat.add_comm]
      dsimp only
      rw [length_flatMap]

namespace SpillJob

theorem length_rewriteCode (job : SpillJob) (code : List Instruction) (ctx : RegisterAllocatorCtx)
    (mems : ℕ → MirMemory) : (job.rewriteCode code ctx mems).1.length = code.length := by
  induction code generalizing ctx mems with
  | nil => rfl
  | cons inst code ih => rw [rewriteCode, length_cons, ih, length_cons]

theorem rewriteBlocks_forall₂ (job : SpillJob) (blocks : List Block) (ctx : RegisterAllocatorCtx)
    (mems : ℕ → MirMemory) :
    Forall₂ (fun b x => b.id = x.1 ∧ b.instructions.length = x.2.length) blocks
      (job.rewriteBlocks blocks ctx mems).1 := by
  induction blocks generalizing ctx mems with
  | nil => exact Forall₂.nil
  | cons b blocks ih =>
    exact Forall₂.cons ⟨rfl, (length_rewriteCode job _ _ _).symm⟩ (ih _ _)

end SpillJob

/-! ### The rewritten function -/

namespace SpillInput

section Paths

variable (j : SpillInput)

def rewrittenFunction : Function := (rewriteSpilledRegisters j.f j.spilledNodes j.ctx).1

def offsetAt (p : ℕ) : ℕ := groupOffset j.rewritten.groups p

def positionOf (p : ℕ) : ℕ := j.offsetAt p + (j.rewritten.groupAt p).before.length

def expand : List ℕ → List ℕ
  | [] => []
  | p :: l => (range' (j.offsetAt p) (j.rewritten.groupAt p).code.length).reverse ++ expand l

/-- The path to the rewritten instruction at `p`. -/
def pathTo (p : ℕ) (l : List ℕ) : List ℕ :=
  (range' (j.offsetAt p) (j.rewritten.groupAt p).before.length).reverse ++ j.expand l

end Paths

variable {j : SpillInput} {I : Interp} {p : ℕ}

theorem length_groups : j.rewritten.groups.length = j.f.code.length :=
  SpillJob.length_rewriteCode _ _ _ _

theorem groupAt_eq (hp : p < j.f.code.length) :
    j.rewritten.groups[p]? = some (j.rewritten.groupAt p) := by
  unfold RewrittenCode.groupAt
  have hlen : p < j.rewritten.groups.length := length_groups ▸ hp
  rw [getD_eq_getElem _ _ hlen, getElem?_eq_getElem hlen]

theorem offsetAt_succ (hp : p < j.f.code.length) :
    j.offsetAt (p + 1) = j.offsetAt p + (j.rewritten.groupAt p).code.length :=
  groupOffset_succ (groupAt_eq hp)

theorem getElem?_rewrittenFunction (hp : p < j.f.code.length) {i : ℕ}
    (hi : i < (j.rewritten.groupAt p).code.length) :
    j.rewrittenFunction.code[j.offsetAt p + i]? = (j.rewritten.groupAt p).code[i]? := by
  have hcode : j.rewrittenFunction.code = j.rewritten.groups.flatMap SpillJob.Group.code :=
    j.rewritten_code.1
  have hdrop : j.rewritten.groups.drop p =
      j.rewritten.groupAt p :: j.rewritten.groups.drop (p + 1) :=
    drop_eq_getElem?_toList_append.trans (by rw [groupAt_eq hp]; rfl)
  rw [← getElem?_drop, hcode]
  unfold offsetAt
  rw [drop_groupOffset, hdrop, flatMap_cons, getElem?_append_left hi]

variable {inst : Instruction}

theorem viewAt_rewrittenFunction (hp : p < j.f.code.length) {i : ℕ}
    (hi : (j.rewritten.groupAt p).code[i]? = some inst) :
    j.offsetAt p + i < j.rewrittenFunction.code.length ∧
      j.rewrittenFunction.viewAt (j.offsetAt p + i) = inst.view j.rewritten.mems := by
  have hlt := (List.getElem?_eq_some_iff.mp hi).1
  have hget := (getElem?_rewrittenFunction hp hlt).trans hi
  have hmems : j.rewrittenFunction.mems = j.rewritten.mems := j.rewritten_code.2
  refine ⟨(List.getElem?_eq_some_iff.mp hget).1, ?_⟩
  unfold Function.viewAt Function.instAt
  rw [List.getD_eq_getElem?_getD, hget, hmems]
  rfl

theorem runPath_range' (hp : p < j.f.code.length) {code : List Instruction}
    (rest : List Instruction) (hcode : (j.rewritten.groupAt p).code = code ++ rest)
    (s : State I) :
    runPath j.isSlot j.rewrittenFunction s (range' (j.offsetAt p) code.length).reverse =
      execCode j.isSlot j.rewritten.mems code s := by
  induction code using reverseRecOn generalizing rest with
  | nil => rfl
  | append_singleton code inst ih =>
    have hi : (j.rewritten.groupAt p).code[code.length]? = some inst := by
      rw [hcode, append_assoc]
      simp
    rw [length_append, length_singleton, range'_1_concat, reverse_append,
      reverse_singleton, singleton_append, runPath, (viewAt_rewrittenFunction hp hi).2,
      ih (inst :: rest) (by rw [hcode, append_assoc]; rfl), execCode_append]
    rfl

variable {l : List ℕ}

theorem runPath_expand (hl : ∀ p ∈ l, p < j.f.code.length) (s : State I) :
    runPath j.isSlot j.rewrittenFunction s (j.expand l) = j.rewritten.runPath j.isSlot s l := by
  induction l with
  | nil => rfl
  | cons p l ih =>
    have hp := hl p mem_cons_self
    rw [expand, runPath_append, ih fun q hq => hl q (mem_cons_of_mem _ hq),
      runPath_range' hp [] (by simp)]
    rfl

theorem readValues_positionOf (hp : p < j.f.code.length)
    (hl : ∀ q ∈ l, q < j.f.code.length) (s : State I) :
    readValues (j.rewrittenFunction.viewAt (j.positionOf p))
        (runPath j.isSlot j.rewrittenFunction s (j.pathTo p l)) =
      j.rewritten.readsAt j.isSlot p (j.rewritten.runPath j.isSlot s l) := by
  have hcode : (j.rewritten.groupAt p).code = (j.rewritten.groupAt p).before ++
        (j.rewritten.groupAt p).inst :: (j.rewritten.groupAt p).after := rfl
  have hi : (j.rewritten.groupAt p).code[(j.rewritten.groupAt p).before.length]? =
      some (j.rewritten.groupAt p).inst := by
    rw [hcode]
    simp
  unfold positionOf pathTo
  rw [(viewAt_rewrittenFunction hp hi).2, runPath_append, runPath_expand hl,
    runPath_range' hp _ hcode]
  rfl

/-! ### Control -/

theorem endsScan_emitReload (size : Option ℕ) (dst : MirRegisterRef) (slot : ℕ)
    (mems : ℕ → MirMemory) : endsScan ((emitReload size dst slot).view mems) = false := by
  unfold emitReload
  dsimp only
  split_ifs <;> rfl

theorem endsScan_emitSpill (size : Option ℕ) (slot : ℕ) (src : MirRegisterRef)
    (mems : ℕ → MirMemory) : endsScan ((emitSpill size slot src).view mems) = false := by
  unfold emitSpill
  dsimp only
  split_ifs <;> rfl

section

variable (hp : p < j.f.code.length)
include hp

theorem endsScan_before (h : inst ∈ (j.rewritten.groupAt p).before) :
    endsScan (inst.view j.rewritten.mems) = false := by
  obtain ⟨e, -, hreload⟩ := Correspondence.exists_left (fitsAt hp).before h
  cases hreload with
  | slot => exact endsScan_emitReload _ _ _ _
  | const hdef hremat =>
    obtain ⟨op, rest, hview, -, -⟩ :=
      constantMove_reMaterialize (definingInst_mem hdef) hremat e.2 j.rewritten.mems
    rw [hview]
    rfl

theorem endsScan_after (h : inst ∈ (j.rewritten.groupAt p).after) :
    endsScan (inst.view j.rewritten.mems) = false := by
  obtain ⟨e, -, size, slot, -, rfl⟩ := Correspondence.exists_left (fitsAt hp).after h
  exact endsScan_emitSpill _ _ _ _

theorem instFlags_rewrittenAt : instFlags (j.rewrittenAt p) = instFlags (j.f.viewAt p) := by
  unfold instFlags MirInstruction.getMetadata targetFlags
  rw [(rewrittenAt_desc hp).1, (rewrittenAt_desc hp).2]

theorem filterMap_rewrittenAt {α : Type*} (g : MirOperand → Option α)
    (hg : ∀ i op, (j.f.instAt p).operands[i]? = some op →
      g ((j.placeOperand (j.tempsAt p) ((j.f.instAt p).getOperandFlag i) op).view
        j.rewritten.mems) = g (op.view j.f.mems)) :
    (j.rewrittenAt p).operands.filterMap g = (j.f.viewAt p).operands.filterMap g := by
  have hmap := congrArg (filterMap id) (map_rewrittenAt hp g hg)
  rw [filterMap_map, filterMap_map] at hmap
  exact hmap

theorem jumpTargets_rewrittenAt (isBlock : ℕ → Bool) :
    jumpTargets isBlock (j.rewrittenAt p) = jumpTargets isBlock (j.f.viewAt p) := by
  refine filterMap_rewrittenAt hp _ fun i op _ => ?_
  cases op <;> rfl

/-- Nothing is stored behind a branch. -/
theorem after_of_branch (h : isBranch (j.f.viewAt p) = true) :
    (j.rewritten.groupAt p).after = [] := by
  have hnone := j.branch _ (instAt_mem hp) h
  have hafter := (fitsAt hp).after
  have hempty : ((j.rewritten.groupAt p).reloadedTemps.filter fun e =>
      storesIn (j.f.accesses p) e.1 && (j.rematConst e.1).isNone) = [] := by
    rw [filter_eq_nil_iff]
    intro e _ hstores
    have hwritten := written_of_storesIn (Bool.and_eq_true_iff.mp hstores).1
    obtain ⟨r, hr, -⟩ := mem_map.mp hwritten
    rw [show (j.f.viewAt p).getDefinedRegisters = [] from hnone] at hr
    cases hr
  rw [hempty] at hafter
  exact forall₂_nil_left_iff.mp hafter

end

/-! ### Paths -/

theorem blockIds_rewrittenFunction :
    j.rewrittenFunction.blocks.map Block.id = j.f.blocks.map Block.id := by
  have hids : ∀ {blocks : List Block} {bs : List (ℕ × List SpillJob.Group)},
      Forall₂ (fun b x => b.id = x.1 ∧ b.instructions.length = x.2.length) blocks bs →
        bs.map Prod.fst = blocks.map Block.id := by
    intro blocks bs h
    induction h with
    | nil => rfl
    | cons hb _ ih => rw [map_cons, map_cons, ih, hb.1]
  have h := hids (j.job.rewriteBlocks_forall₂ j.f.blocks j.slots j.f.mems)
  rw [← h]
  change map Block.id (map _ _) = _
  rw [map_map]
  rfl

theorem blockStart_rewrittenFunction {target q : ℕ} (h : blockStart j.f.blocks target = some q) :
    blockStart j.rewrittenFunction.blocks target = some (j.offsetAt q) := by
  have hstart := blockStart_flatten (j.job.rewriteBlocks_forall₂ j.f.blocks j.slots j.f.mems) h
  have hgroups : (j.job.rewriteBlocks j.f.blocks j.slots j.f.mems).1.flatMap Prod.snd =
      j.rewritten.groups := congrArg Prod.fst (j.job.rewriteBlocks_eq j.f.blocks j.slots j.f.mems)
  rw [hgroups] at hstart
  exact hstart

theorem run_pathTo (hp : p < j.f.code.length)
    (h : j.rewrittenFunction.Run (j.offsetAt p) (j.expand l)) :
    j.rewrittenFunction.Run (j.positionOf p) (j.pathTo p l) := by
  refine h.straight fun i hi => ?_
  have hget : (j.rewritten.groupAt p).code[i]? = some ((j.rewritten.groupAt p).before[i]) := by
    rw [← getElem?_eq_getElem hi]
    exact getElem?_append_left hi
  obtain ⟨hlt, hview⟩ := viewAt_rewrittenFunction hp hget
  rw [hview]
  exact ⟨hlt, endsScan_before hp (getElem_mem hi)⟩

theorem run_expand (h : j.f.Run p l) : j.rewrittenFunction.Run (j.offsetAt p) (j.expand l) := by
  induction h with
  | start => exact Run.start
  | @next p l _ hp hends ih =>
    rw [offsetAt_succ hp]
    refine ih.straight fun i hi => ?_
    obtain ⟨hlt, hview⟩ := viewAt_rewrittenFunction hp (getElem?_eq_getElem hi)
    rw [hview]
    refine ⟨hlt, ?_⟩
    have hmem := getElem_mem hi
    rcases mem_append.mp hmem with hmem | hmem
    · exact endsScan_before hp hmem
    · rcases mem_cons.mp hmem with heq | hmem
      · rw [heq]
        change endsScan (j.rewrittenAt p) = false
        unfold endsScan isBranch at hends ⊢
        rwa [instFlags_rewrittenAt hp]
      · exact endsScan_after hp hmem
  | @jump p q target l _ hp hbranch htarget hstart ih =>
    have hcode : (j.rewritten.groupAt p).code =
        (j.rewritten.groupAt p).before ++ [(j.rewritten.groupAt p).inst] := by
      rw [SpillJob.Group.code, after_of_branch hp hbranch]
    have hget : (j.rewritten.groupAt p).code[(j.rewritten.groupAt p).before.length]? =
        some (j.rewritten.groupAt p).inst := by
      rw [hcode]
      exact getElem?_concat_length
    obtain ⟨hlt, hview⟩ := viewAt_rewrittenFunction hp hget
    have hexpand : j.expand (p :: l) = j.positionOf p :: j.pathTo p l := by
      rw [expand, hcode, length_append, length_singleton, range'_1_concat,
        reverse_append, reverse_singleton]
      rfl
    rw [hexpand]
    refine (run_pathTo hp ih).jump hlt ?_ ?_ (blockStart_rewrittenFunction hstart)
    · unfold positionOf
      rw [hview]
      change isBranch (j.rewrittenAt p) = true
      unfold isBranch at hbranch ⊢
      rwa [instFlags_rewrittenAt hp]
    · unfold positionOf
      rw [hview, blockIds_rewrittenFunction]
      change target ∈ jumpTargets _ (j.rewrittenAt p)
      rwa [jumpTargets_rewrittenAt hp]

end SpillInput

/-!
## What a rewritten function reads

The first access of an instruction to a spilled register decides for all of them: when
it writes, a read behind it is not reloaded, and when it reads, a write behind it is not
stored. A memory operand has the temporaries of its first instruction. A register that
is rebuilt has the constant of its last definition in the code. So the reads are kept
exactly when on no path one of these loses the value that was written last.
-/

namespace SpillInput

/-- In every machine and on every path of the function, the rewritten function has the
path too, and its instruction reads at every operand, base and index the same values. -/
def KeepsReads (j : SpillInput) : Prop :=
  ∀ (I : Interp) (s s' : State I), j.StartsKept s s' → ∀ p l, j.f.Run p l → p < j.f.code.length →
      j.rewrittenFunction.Run (j.positionOf p) (j.pathTo p l) ∧
        readValues (j.rewrittenFunction.viewAt (j.positionOf p))
            (runPath j.isSlot j.rewrittenFunction s' (j.pathTo p l)) =
          readValues (j.f.viewAt p) (runPath j.isSlot j.f s l)

theorem keepsReads_iff_groups (j : SpillInput) : j.KeepsReads ↔ j.GroupsKeepReads := by
  constructor
  · intro h I s s' hstart p l hrun hp
    rw [← readValues_positionOf hp (lt_of_run hrun)]
    exact (h I s s' hstart p l hrun hp).2
  · intro h I s s' hstart p l hrun hp
    refine ⟨run_pathTo hp (run_expand hrun), ?_⟩
    rw [readValues_positionOf hp (lt_of_run hrun)]
    exact h I s s' hstart p l hrun hp

/-- `v1 = load [v1]; ret v1` -/
def pointerChase : Function :=
  ⟨[⟨0, [⟨.TARGET_INST, some x86_64TargetInst.LOAD64, [.register ⟨true, none, 1⟩, .memory 0]⟩,
    ⟨.RET, none, [.register ⟨true, none, 1⟩]⟩]⟩], fun _ => ⟨some ⟨true, none, 1⟩, none, none, 1⟩⟩

theorem pointerChase_code {inst : Instruction} (h : inst ∈ pointerChase.code) :
    inst = ⟨.TARGET_INST, some x86_64TargetInst.LOAD64, [.register ⟨true, none, 1⟩, .memory 0]⟩ ∨
      inst = ⟨.RET, none, [.register ⟨true, none, 1⟩]⟩ := by
  rcases mem_cons.mp h with rfl | h
  · exact Or.inl rfl
  · exact Or.inr (mem_singleton.mp h)

theorem pointerChase_names {r : MirRegisterRef} (h : Names pointerChase r) :
    r = ⟨true, none, 1⟩ := by
  rcases h with ⟨inst, hinst, hr⟩ | ⟨m, hr | hr⟩
  · rcases pointerChase_code hinst with rfl | rfl
    all_goals simpa using hr
  · exact (Option.some.inj hr).symm
  · cases hr

theorem pointerChase_ref {inst : Instruction} (h : inst ∈ pointerChase.code)
    (ref : MirReference) : .reference ref ∉ inst.operands := by
  rcases pointerChase_code h with rfl | rfl
  all_goals simp

/-- The function with `v1` spilled. -/
def pointerChaseInput : SpillInput where
  f := pointerChase
  spilledNodes := [⟨true, none, 1⟩]
  ctx := ⟨[], fun _ => none, 2, 0, fun _ => some 64⟩
  isVirtual := by decide
  node_lt := by decide
  name_lt r h _ := by
    rw [pointerChase_names h]
    decide
  slot_lt _ _ h := nomatch h
  slot_inj _ _ _ h := nomatch h
  ref_lt _ hinst ref href := absurd href (pointerChase_ref hinst ref)
  ref_ne _ hinst ref href := absurd href (pointerChase_ref hinst ref)
  plain inst hinst hopcode := by
    rcases pointerChase_code hinst with rfl | rfl
    · exact absurd rfl hopcode
    · rfl
  implicit inst hinst desc hdesc r hr := by
    rcases pointerChase_code hinst with rfl | rfl
    · obtain rfl := Option.some.inj hdesc
      cases hr
    · cases hdesc
  branch inst hinst hbranch := by
    rcases pointerChase_code hinst with rfl | rfl
    all_goals exact absurd hbranch (by decide)

end SpillInput

end EzPacker.SpillCode
