import EzPacker.Abi.FrameRuns

/-!
# The frames of RISC-V

A function with a frame pointer saves the return address and s0 in the 16 bytes
under its entry stack pointer, which is where s0 points then; one without saves
neither. Every saved register takes 16 bytes more at the bottom. All adjustments of
the stack pointer are immediates of twelve bits.
-/

namespace EzPacker.Abi

open FrameFunction

open WordMachine (disp)

namespace RiscV64

section

variable {imm : ℤ} (hlo : -2048 ≤ imm) (hhi : imm < 2048)
include hlo hhi

theorem add_immField (v : BitVec 64) : v + immField 12 imm = disp v imm := by
  rw [immField_of_fits (k := 11) (by omega) (by omega), disp]

theorem exec_addi (dst src : MirRegisterRef) (m : Cpu) :
    (FrameInst.ADDI64ri dst src imm).exec m = m.setReg dst (disp (m.regs src) imm) := by
  simp only [FrameInst.exec, add_immField hlo hhi]

theorem exec_sd (src base : MirRegisterRef) (m : Cpu) :
    (FrameInst.SD src base imm).exec m = m.store (disp (m.regs base) imm) (m.regs src) := by
  simp only [FrameInst.exec, add_immField hlo hhi]

theorem exec_ld (dst base : MirRegisterRef) (m : Cpu) :
    (FrameInst.LD dst base imm).exec m = m.setReg dst (m.load (disp (m.regs base) imm)) := by
  simp only [FrameInst.exec, add_immField hlo hhi]

end

theorem add_immField_zero (v : BitVec 64) : v + immField 12 0 = v := by
  have hzero := add_immField (show (-2048 : ℤ) ≤ 0 by norm_num) (by norm_num) v
  simpa using hzero

theorem exec_saveReg (r : MirRegisterRef) (m : Cpu) : exec (saveReg r) m =
      (m.setReg sp (disp (m.regs sp) (-16))).store (disp (m.regs sp) (-16))
        ((m.setReg sp (disp (m.regs sp) (-16))).regs r) := by
  have haddi := exec_addi (show (-2048 : ℤ) ≤ -16 by norm_num) (by norm_num) sp sp m
  have hstore : ∀ m' : Cpu, FrameInst.exec m' (if r.bank = .FPR then .FSD r sp 0 else .SD r sp 0) =
        m'.store (m'.regs sp) (m'.regs r) := by
    intro m'
    split <;> simp [FrameInst.exec, add_immField_zero]
  rw [saveReg, exec_cons, haddi, exec_cons, hstore, exec_nil, WordMachine.setReg_regs_self]

theorem exec_restoreReg (r : MirRegisterRef) (m : Cpu) : exec (restoreReg r) m =
      (m.setReg r (m.load (m.regs sp))).setReg sp
        (disp ((m.setReg r (m.load (m.regs sp))).regs sp) 16) := by
  have haddi := exec_addi (show (-2048 : ℤ) ≤ 16 by norm_num) (by norm_num) sp sp
    (m.setReg r (m.load (m.regs sp)))
  have hload : FrameInst.exec m (if r.bank = .FPR then .FLD r sp 0 else .LD r sp 0) =
        m.setReg r (m.load (m.regs sp)) := by
    split <;> simp [FrameInst.exec, add_immField_zero]
  rw [restoreReg, exec_cons, hload, exec_cons, haddi, exec_nil]

/-- A register saved in 16 bytes of its own. -/
def saveRestore : SlotPair MirRegisterRef sp where
  size := 16
  save r m := exec (saveReg r) m
  restore r m := exec (restoreReg r) m
  save_sp r m := by simp [exec_saveReg]
  save_regs r m r' hr' := by
    simp [exec_saveReg, WordMachine.setReg_regs_of_ne hr']
  save_mem r m e he hlt := by
    rw [exec_saveReg]
    refine WordMachine.store_mem_disp ?_ ?_
    · omega
    · rw [abs_lt] at hlt ⊢
      omega
  restore_mem r m := by simp [exec_restoreReg]
  restore_regs r m r' hsp hr := by
    simp [exec_restoreReg, WordMachine.setReg_regs_of_ne hsp, WordMachine.setReg_regs_of_ne hr]
  restore_save r m m' hsp hslot := by
    have htop : m'.regs sp = disp (m.regs sp) (-16) := by
      simpa [exec_saveReg] using hsp
    have hload : m'.load (disp (m.regs sp) (-16)) =
        (m.setReg sp (disp (m.regs sp) (-16))).regs r := by
      have hcongr : m'.load (disp (m.regs sp) (-16)) =
          (exec (saveReg r) m).load (disp (m.regs sp) (-16)) := by
        apply WordMachine.load_congr
        intro i hi
        rw [WordMachine.disp_disp]
        exact hslot _ (by omega) (by omega)
      rw [hcongr, exec_saveReg]
      exact WordMachine.load_store_self _ _ _
    rw [exec_restoreReg, htop, hload]
    constructor
    · rcases eq_or_ne r sp with rfl | hne
      · simp
      · simp [WordMachine.setReg_regs_of_ne hne.symm, htop]
    · intro hne
      simp [WordMachine.setReg_regs_of_ne hne]

theorem exec_flatMap_saveReg (rs : List MirRegisterRef) (m : Cpu) :
    exec (rs.flatMap saveReg) m = saveRestore.saveAll rs m := by
  induction rs generalizing m with
  | nil => rfl
  | cons r rs ih => rw [List.flatMap_cons, exec_append, ih, SlotPair.saveAll_cons]; rfl

theorem exec_flatMap_restoreReg (rs : List MirRegisterRef) (m : Cpu) :
    exec (rs.reverse.flatMap restoreReg) m = saveRestore.restoreAll rs m := by
  induction rs with
  | nil => rfl
  | cons r rs ih =>
    rw [List.reverse_cons, List.flatMap_append, exec_append, ih, SlotPair.restoreAll_cons]
    simp [saveRestore]

section

variable (f : FrameFunction)

/-- addi sp, sp, -16; sd ra, 8(sp); sd s0, 0(sp); addi s0, sp, 16 -/
def enterCode : List FrameInst :=
  if f.frame.hasFramePointer then
    [.ADDI64ri sp sp (-16), .SD raReg sp 8, .SD s0 sp 0, .ADDI64ri s0 sp 16]
  else []

def reserveCode : List FrameInst :=
  if 0 < f.frame.layout.totalFrameSize then
    [.ADDI64ri sp sp (-(frameSize f.frame : ℤ))]
  else []

/-- addi sp, s0, -16; ld s0, 0(sp); ld ra, 8(sp); addi sp, sp, 16 -/
def leaveCode : List FrameInst :=
  if f.frame.hasFramePointer then
    [.ADDI64ri sp s0 (-16), .LD s0 sp 0, .LD raReg sp 8, .ADDI64ri sp sp 16]
  else if 0 < f.frame.layout.totalFrameSize then
    [.ADDI64ri sp sp (frameSize f.frame)]
  else []

end

variable {f : FrameFunction} {m₀ m : Cpu} {n : ℕ}

section

variable (hr : f.conv.target = .RiscV64)
include hr

theorem sp_eq : f.conv.spReg = sp := by
  rw [ShippedConv.spReg, hr, sp]

theorem s0_eq : f.conv.fpReg = s0 := by
  rw [ShippedConv.fpReg, hr, s0]

theorem linkArea_eq : f.linkArea = if f.frame.hasFramePointer then 16 else 0 := by
  rw [linkArea, hr]
  rfl

theorem exec_insertPrologue (m : Cpu) : exec (Abi.insertPrologue f.frame f.conv.target) m =
      saveRestore.saveAll f.pushed (exec (reserveCode f) (exec (enterCode f) m)) := by
  have hpushed : pushedRegs .RiscV64 f.frame = f.pushed := by
    rw [pushed, hr]
  rw [hr, Abi.insertPrologue, insertPrologue, exec_append, exec_append,
    exec_flatMap_saveReg, hpushed]
  rfl

theorem exec_insertEpilogue (m : Cpu) : exec (Abi.insertEpilogue f.frame f.conv.target) m =
      exec (leaveCode f) (saveRestore.restoreAll f.pushed m) := by
  have hpushed : pushedRegs .RiscV64 f.frame = f.pushed := by
    rw [pushed, hr]
  rw [hr, Abi.insertEpilogue, insertEpilogue, exec_append, exec_flatMap_restoreReg, hpushed]
  rfl

end

theorem exec_enterCode_framePointer (hfp : f.frame.hasFramePointer = true) (m : Cpu) :
    exec (enterCode f) m = (((m.setReg sp (disp (m.regs sp) (-16))).store (disp (m.regs sp) (-8))
        (m.regs raReg)).store (disp (m.regs sp) (-16)) (m.regs s0)).setReg s0 (m.regs sp) := by
  have hra : raReg ≠ sp := by decide
  have hs0 : s0 ≠ sp := by decide
  have hdown := exec_addi (show (-2048 : ℤ) ≤ -16 by norm_num) (by norm_num) sp sp m
  simp only [enterCode, hfp, if_true, exec_cons, exec_nil, hdown]
  rw [exec_sd (by norm_num) (by norm_num), exec_sd (by norm_num) (by norm_num),
    exec_addi (by norm_num) (by norm_num)]
  simp [WordMachine.setReg_regs_of_ne hra, WordMachine.setReg_regs_of_ne hs0]

/-- The two words at the top of the frame and the registers behind the entry code. -/
structure Entered (f : FrameFunction) (m m' : Cpu) : Prop where
  sp : m'.regs sp = disp (m.regs sp) (-(f.linkArea : ℤ))
  s0 : f.frame.hasFramePointer = true → m'.regs s0 = m.regs RiscV64.sp
  ra : f.frame.hasFramePointer = true → m'.load (disp (m.regs RiscV64.sp) (-8)) = m.regs raReg
  fp : f.frame.hasFramePointer = true → m'.load (disp (m.regs RiscV64.sp) (-16)) = m.regs RiscV64.s0
  regs : ∀ r, r ≠ RiscV64.sp → (f.frame.hasFramePointer = true → r ≠ RiscV64.s0) →
    m'.regs r = m.regs r

theorem entered (hr : f.conv.target = .RiscV64) (m : Cpu) : Entered f m (exec (enterCode f) m) := by
  have hlink := linkArea_eq hr
  cases hfp : f.frame.hasFramePointer with
  | false =>
    rw [hfp] at hlink
    constructor <;> simp [enterCode, hfp, hlink]
  | true =>
    rw [hfp] at hlink
    have hne : sp ≠ s0 := by decide
    rw [exec_enterCode_framePointer hfp]
    refine ⟨?_, ?_, ?_, ?_, ?_⟩
    · simp [WordMachine.setReg_regs_of_ne hne, hlink]
    · intro _
      exact WordMachine.setReg_regs_self _ _ _
    · intro _
      rw [WordMachine.setReg_load, WordMachine.load_congr,
        WordMachine.load_store_self _ _ (m.setReg sp (disp (m.regs sp) (-16)))]
      intro i hi
      rw [WordMachine.disp_disp]
      exact WordMachine.store_mem_disp (Or.inr (by omega)) (by rw [abs_lt]; omega)
    · intro _
      rw [WordMachine.setReg_load]
      exact WordMachine.load_store_self _ _ _
    · intro r hr' hfp'
      simp [WordMachine.setReg_regs_of_ne hr', WordMachine.setReg_regs_of_ne (hfp' hfp)]

theorem frameSize_pos_iff (f : FrameFunction) :
    0 < f.frame.layout.totalFrameSize ∨ frameSize f.frame = 0 := by
  rcases Nat.eq_zero_or_pos f.frame.layout.totalFrameSize with h | h
  · right
    rw [frameSize, h]
    rfl
  · exact Or.inl h

theorem exec_reserveCode (hr : f.conv.target = .RiscV64) (hfits : f.Fits) (m : Cpu) :
    exec (reserveCode f) m = m.setReg sp (disp (m.regs sp) (-(f.allocSize : ℤ))) := by
  have hsize : f.allocSize = frameSize f.frame := by rw [allocSize, hr]
  have halloc := hfits.alloc
  rw [hr, maxAlloc] at halloc
  unfold reserveCode
  split
  · rw [exec_cons, exec_nil, exec_addi (by omega) (by omega), hsize]
  · next hzero =>
      have hzero' := (frameSize_pos_iff f).resolve_left hzero
      simp [hsize, hzero']

theorem allocated (hr : f.conv.target = .RiscV64) (hfits : f.Fits) (m₀ : Cpu) :
    f.Allocated m₀ (exec (reserveCode f) (exec (enterCode f) m₀)) := by
  have henter := entered hr m₀
  rw [exec_reserveCode hr hfits]
  refine ⟨?_, ?_, ?_, ?_⟩
  · rw [sp_eq hr, WordMachine.setReg_regs_self, henter.sp, WordMachine.disp_disp]
    congr 1
    push_cast
    ring
  · intro hfp
    have hne : s0 ≠ sp := by decide
    rw [s0_eq hr, sp_eq hr, WordMachine.setReg_regs_of_ne hne, henter.s0 hfp, hr]
    simp [fpDisp]
  · intro r _ hne hfp
    rw [sp_eq hr] at hne
    rw [WordMachine.setReg_regs_of_ne hne, henter.regs r hne fun h => s0_eq hr ▸ hfp h]
  · intro _
    rw [WordMachine.setReg_regs_of_ne (by decide), henter.regs raReg (by decide)]
    intro _
    decide

/-- With a frame pointer everything comes back from the two words under it. -/
theorem exec_leaveCode_framePointer (hfp : f.frame.hasFramePointer = true) (m : Cpu) :
    (exec (leaveCode f) m).regs sp = m.regs s0 ∧
      (exec (leaveCode f) m).regs s0 = m.load (disp (m.regs s0) (-16)) ∧
      (exec (leaveCode f) m).regs raReg = m.load (disp (m.regs s0) (-8)) ∧
      ∀ r, r ≠ sp → r ≠ s0 → r ≠ raReg → (exec (leaveCode f) m).regs r = m.regs r := by
  have hspra : sp ≠ raReg := by decide
  have hsps0 : sp ≠ s0 := by decide
  have hras0 : raReg ≠ s0 := by decide
  have hexec : exec (leaveCode f) m = (((m.setReg sp (disp (m.regs s0) (-16))).setReg s0
        (m.load (disp (m.regs s0) (-16)))).setReg raReg
          (m.load (disp (m.regs s0) (-8)))).setReg sp (m.regs s0) := by
    have hdown := exec_addi (show (-2048 : ℤ) ≤ -16 by norm_num) (by norm_num) sp s0 m
    simp only [leaveCode, hfp, if_true, exec_cons, exec_nil, hdown]
    rw [exec_ld (by norm_num) (by norm_num), exec_ld (by norm_num) (by norm_num),
      exec_addi (by norm_num) (by norm_num)]
    simp [WordMachine.setReg_regs_of_ne hspra, WordMachine.setReg_regs_of_ne hsps0]
  rw [hexec]
  refine ⟨WordMachine.setReg_regs_self _ _ _, ?_, ?_, ?_⟩
  · simp [WordMachine.setReg_regs_of_ne hsps0.symm, WordMachine.setReg_regs_of_ne hras0.symm]
  · simp [WordMachine.setReg_regs_of_ne hspra.symm]
  · intro r h h' h''
    simp [WordMachine.setReg_regs_of_ne h, WordMachine.setReg_regs_of_ne h',
      WordMachine.setReg_regs_of_ne h'']

theorem exec_leaveCode_frameless (hr : f.conv.target = .RiscV64)
    (hfp : f.frame.hasFramePointer = false) (hlt : f.allocSize < 2048) (m : Cpu) :
    exec (leaveCode f) m = m.setReg sp (disp (m.regs sp) f.allocSize) := by
  have hsize : f.allocSize = frameSize f.frame := by rw [allocSize, hr]
  rw [hsize] at hlt
  unfold leaveCode
  rw [hfp]
  split
  · next h => cases h
  · split
    · rw [exec_cons, exec_nil, exec_addi (by omega) (by omega), hsize]
    · next hzero =>
        have hzero' := (frameSize_pos_iff f).resolve_left hzero
        simp [hsize, hzero']

/-- A frame without objects has room for the saved registers and no more. -/
theorem allocSize_lt_of_frameless (hr : f.conv.target = .RiscV64)
    (hfp : f.frame.hasFramePointer = false) : f.allocSize < 2048 := by
  have hobjects : f.objects = [] := by
    cases h : f.objects with
    | nil => rfl
    | cons obj objs => simp [frame, lowerFrame, h] at hfp
  have hconv : f.conv = .LP64D := by
    cases h : f.conv <;> rw [h] at hr <;> first | rfl | cases hr
  have hused := length_used_le (f := f)
  have hmask : ∀ n, alignMask 16 n = alignUp (2 ^ 4) n := alignUp.mask_two_pow 4
  have hframe : f.frame.layout.totalFrameSize = alignUp (2 ^ 4) (f.used.length * 8) := by
    simp only [frame, lowerFrame, calculateFrameLayout, hobjects, hconv,
      layoutObjects, ShippedConv.desc, LP64D, stackSlotSize, hmask, Nat.add_zero]
  have hinner := alignUp.lt_add (a := 2 ^ 4) (by decide) (f.used.length * 8)
  have houter := alignUp.lt_add (a := 2 ^ 4) (by decide) f.frame.layout.totalFrameSize
  rw [allocSize, hr]
  simp only [frameSize, hmask]
  omega

theorem codeSpec (hr : f.conv.target = .RiscV64) (hfits : f.Fits) : f.CodeSpec where
  prologue m₀ :=
    bodyState_saveAll saveRestore (sp_eq hr) (by rw [hr]; rfl)
      (allocated hr hfits m₀) (exec_insertPrologue hr m₀)
  epilogue m₀ n m hbody := by
    have hsize : saveRestore.size = saveSize f.conv.target := by rw [hr]; rfl
    have hq := allocated hr hfits m₀
    have hprologue := exec_insertPrologue hr m₀
    have hback := givenBack_restoreAll saveRestore (sp_eq hr) hsize hq hprologue hbody
    rw [exec_insertEpilogue hr]
    cases hfp : f.frame.hasFramePointer with
    | false =>
      have hsp := hback.sp hfp
      have hqsp := hq.sp
      rw [sp_eq hr] at hsp
      rw [sp_eq hr, linkArea_eq hr, hfp] at hqsp
      rw [exec_leaveCode_frameless hr hfp (allocSize_lt_of_frameless hr hfp)]
      refine restored_of_givenBack hback ?_ ?_ ?_ ?_
      · rw [sp_eq hr, WordMachine.setReg_regs_self, hsp, hqsp, WordMachine.disp_disp]
        simp
      · intro h
        exact absurd (hfp.symm.trans h) (by decide)
      · intro r _ hne _
        exact WordMachine.setReg_regs_of_ne (sp_eq hr ▸ hne) _ _
      · intro htarget
        rw [WordMachine.setReg_regs_of_ne (by decide), hback.link htarget, hbody.link htarget hfp]
    | true =>
      have henter := entered hr m₀
      have hbase := hback.fp hfp
      rw [hbody.fp hfp, s0_eq hr, sp_eq hr, hr] at hbase
      have hword : ∀ d : ℤ, -16 ≤ d → d ≤ -8 →
          (saveRestore.restoreAll f.pushed m).load (disp (m₀.regs sp) d) =
            (exec (enterCode f) m₀).load (disp (m₀.regs sp) d) := by
        intro d hlo hhi
        apply WordMachine.load_congr
        intro i hi
        have hlo' : -(f.linkArea : ℤ) ≤ d + i := by
          rw [linkArea_eq hr, hfp]
          simp only [if_true]
          omega
        have hmem := linkArea_mem saveRestore hfits (sp_eq hr) hsize hq
          hprologue hbody hlo' (by omega)
        rw [sp_eq hr, exec_reserveCode hr hfits, WordMachine.setReg_mem] at hmem
        rw [hback.mem, WordMachine.disp_disp, hmem]
      obtain ⟨hsp, hs0, hra, hregs⟩ := exec_leaveCode_framePointer hfp
        (saveRestore.restoreAll f.pushed m)
      simp only [fpDisp, WordMachine.disp_zero] at hbase
      rw [hbase] at hsp hs0 hra
      refine restored_of_givenBack hback ?_ ?_ ?_ ?_
      · rw [sp_eq hr, hsp]
      · intro _
        rw [s0_eq hr, hs0, hword _ (by norm_num) (by norm_num), henter.fp hfp]
      · intro r hmem hne hne'
        have hra' : r ≠ raReg := by
          rintro rfl
          cases hconv : f.conv <;> rw [hconv] at hmem hr <;> revert hmem hr <;> decide
        exact hregs r (sp_eq hr ▸ hne) (s0_eq hr ▸ hne' hfp) hra'
      · intro _
        rw [hra, hword _ (by norm_num) (by norm_num), henter.ra hfp]

end RiscV64

namespace FrameFunction

open RiscV64

variable {f : FrameFunction} {m₀ : Cpu}

/-- The return is `jalr x0, 0(ra)`. -/
def returnTarget (m : Cpu) : BitVec 64 := m.regs raReg

/-- At a return control goes back to where it came from, and the caller finds sp, s0
and the saved registers again. -/
structure RespectsRiscV64At (f : FrameFunction) (m₀ : Cpu) (c : FrameConfig) : Prop where
  target : ∀ rest, c.rest = .ret :: rest → returnTarget c.cpu = m₀.regs raReg
  regs : ∀ rest, c.rest = .ret :: rest →
    ∀ r ∈ sp :: s0 :: f.conv.calleeSavedRegs, c.cpu.regs r = m₀.regs r

/-- The property in every state of every run. -/
def RespectsRiscV64 (f : FrameFunction) : Prop :=
  ∀ m₀ c, f.Reaches m₀ c → f.RespectsRiscV64At m₀ c

/-- Every run of a function whose frame fits, all of whose states meet the
condition, respects the convention in every state. -/
theorem respectsRiscV64_of_reachesVia (hr : f.conv.target = .RiscV64) (hfits : f.Fits)
    {c : FrameConfig} (hrun : f.ReachesVia f.StepOk m₀ c) : f.RespectsRiscV64At m₀ c := by
  by_cases hblocks : f.blocks = []
  · have hrest := rest_of_reaches_of_blocks_eq_nil hblocks (reaches_of_reachesVia hrun)
    constructor <;> intros <;> simp_all
  · have hlocated := located_of_reachesVia hfits (codeSpec hr hfits) hblocks (fun _ h => h) hrun
    constructor
    · intro rest hret
      exact (restored_of_located hlocated hret).link hr
    · intro rest hret r hmem
      have hrestored := restored_of_located hlocated hret
      rcases List.mem_cons.mp hmem with rfl | hmem
      · exact sp_eq hr ▸ hrestored.sp
      · rcases List.mem_cons.mp hmem with rfl | hmem
        · exact s0_eq hr ▸ hrestored.fp
        · exact hrestored.preserved r hmem

/-- One local of 64 bits, s1 and s2 saved, and a call. -/
def callingRiscV64 : FrameFunction where
  conv := .LP64D
  objects := [⟨⟨.Integer, 0, 0, 64, 64, Mir.MirType.wordAlignment⟩, .Variable⟩]
  used := [gpr 9, gpr 18]
  blocks := [[.other [gpr 9], .call .LP64D, .ret]]
  used_preserved := by decide
  used_nodup := by decide
  defs_assignable := by decide
  callee_target := by simp

/-- An entry from the address 0x2000. -/
def entryRiscV64 : Cpu where
  regs r := if r = sp then 0x100000 else if r = raReg then 0x2000 else 0
  mem _ := 0

/-- Its run in which s1 becomes 5 and the call leaves its own address in ra. -/
theorem respectsRiscV64_calling :
    ∃ c, callingRiscV64.ReachesVia callingRiscV64.StepOk entryRiscV64 c ∧
      c.rest = [.ret] ∧ callingRiscV64.RespectsRiscV64At entryRiscV64 c := by
  have hfits : callingRiscV64.Fits := ⟨by decide, by decide⟩
  have hlink : ∀ r, callingRiscV64.KeepsLink r := fun _ _ => Or.inl rfl
  have hentry : callingRiscV64.ReachesVia callingRiscV64.StepOk entryRiscV64
      (callingRiscV64.start entryRiscV64) := .start trivial
  have hprologue := hentry.step (.code _ _ _ _ _) fun r _ => hlink r
  have hother := hprologue.step (.other _ _ _ _ (WordMachine.setReg (gpr 9) 5 _) _
      ⟨fun r hr => WordMachine.setReg_regs_of_ne (by simpa using hr) _ _,
        fun _ _ => rfl⟩)
    ⟨Or.inl rfl, fun _ hr => Or.inl hr, hlink raReg⟩
  have hcall := hother.step (.call _ _ _ _ (WordMachine.setReg raReg 0x3004 _) _
      ⟨WordMachine.setReg_regs_of_ne (by decide) _ _,
        fun r hr => WordMachine.setReg_regs_of_ne
          (by rintro rfl; revert hr; decide) _ _, fun _ _ _ => rfl⟩)
    trivial
  have hepilogue := hcall.step (.code _ _ _ _ _) trivial
  exact ⟨_, hepilogue, rfl, respectsRiscV64_of_reachesVia rfl hfits hepilogue⟩

/-- A call and no object. -/
def framelessCalling : FrameFunction where
  conv := .LP64D
  objects := []
  used := []
  blocks := [[.call .LP64D, .ret]]
  used_preserved := preserved_nil .LP64D
  used_nodup := List.nodup_nil
  defs_assignable := by decide
  callee_target := by simp

/-- Without an object nothing saves the return address across the call. -/
theorem return_address_lost_at_call :
    ¬ ∀ f : FrameFunction, f.conv.target = .RiscV64 → f.RespectsRiscV64 := by
  intro h
  have hentry : framelessCalling.ReachesVia (fun _ => True) entryRiscV64
      (framelessCalling.start entryRiscV64) := .start trivial
  have hprologue := hentry.step (.code _ _ _ _ _) trivial
  have hcall := hprologue.step (.call _ _ _ _ (WordMachine.setReg raReg 0x3004 _) _
      ⟨WordMachine.setReg_regs_of_ne (by decide) _ _,
        fun r hr => WordMachine.setReg_regs_of_ne
          (by rintro rfl; revert hr; decide) _ _, fun _ _ _ => rfl⟩)
    trivial
  have hepilogue := hcall.step (.code _ _ _ _ _) trivial
  have hra := (h framelessCalling rfl _ _ (reaches_of_reachesVia hepilogue)).target [] rfl
  revert hra
  decide

end FrameFunction

end EzPacker.Abi
