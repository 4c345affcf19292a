import EzPacker.Abi.FrameRuns

/-!
# The frames of x86-64

The prologue pushes the frame pointer, moves the stack pointer down by the frame
size and pushes the saved registers. The epilogue pops the registers from wherever
the stack pointer is, so that it finds them as long as no dynamic allocation has
moved the stack pointer since.
-/

namespace EzPacker.Abi

open FrameInst

open WordMachine (disp)

namespace X86_64

theorem mem_push (r : MirRegisterRef) (m : Cpu) (e : ℤ) (he : e < -8 ∨ 0 ≤ e) (hlt : |e| < 2 ^ 62) :
    ((FrameInst.PUSH64r r).exec m).mem (disp (m.regs rsp) e) = m.mem (disp (m.regs rsp) e) := by
  refine WordMachine.store_mem_disp ?_ ?_
  · omega
  · rw [abs_lt] at hlt ⊢
    omega

/-- A pop brings back what the push of its register has left in the slot. -/
theorem pop_push (r : MirRegisterRef) (m m' : Cpu)
    (hsp : m'.regs rsp = ((FrameInst.PUSH64r r).exec m).regs rsp)
    (hslot : ∀ e : ℤ, -8 ≤ e → e < 0 →
      m'.mem (disp (m.regs rsp) e) = ((FrameInst.PUSH64r r).exec m).mem (disp (m.regs rsp) e)) :
    ((FrameInst.POP64r r).exec m').regs rsp = m.regs rsp ∧
      (r ≠ rsp → ((FrameInst.POP64r r).exec m').regs r = m.regs r) := by
  have htop : m'.regs rsp = disp (m.regs rsp) (-8) := by
    simpa [FrameInst.exec] using hsp
  have hload : m'.load (disp (m.regs rsp) (-8)) = m.regs r := by
    have hcongr : m'.load (disp (m.regs rsp) (-8)) =
        ((PUSH64r r).exec m).load (disp (m.regs rsp) (-8)) := by
      apply WordMachine.load_congr
      intro i hi
      rw [WordMachine.disp_disp]
      exact hslot _ (by omega) (by omega)
    rw [hcongr]
    exact WordMachine.load_store_self _ _ _
  have hpop : (POP64r r).exec m' = (m'.setReg rsp (m.regs rsp)).setReg r (m.regs r) := by
    simp [FrameInst.exec, htop, hload]
  rw [hpop]
  constructor
  · rcases eq_or_ne r rsp with rfl | hne
    · simp
    · rw [WordMachine.setReg_regs_of_ne hne.symm, WordMachine.setReg_regs_self]
  · intro _
    exact WordMachine.setReg_regs_self _ _ _

def pushPop : SlotPair MirRegisterRef rsp where
  size := 8
  save r m := (FrameInst.PUSH64r r).exec m
  restore r m := (FrameInst.POP64r r).exec m
  save_sp r m := by simp [FrameInst.exec]
  save_regs r m r' hr' := by
    simp [FrameInst.exec, WordMachine.setReg_regs_of_ne hr']
  save_mem := mem_push
  restore_mem r m := by simp [FrameInst.exec]
  restore_regs r m r' hsp hr := by
    simp [FrameInst.exec, WordMachine.setReg_regs_of_ne hsp, WordMachine.setReg_regs_of_ne hr]
  restore_save := pop_push

theorem exec_map_push (rs : List MirRegisterRef) (m : Cpu) :
    exec (rs.map .PUSH64r) m = pushPop.saveAll rs m := by
  simp [exec, SlotPair.saveAll, pushPop, List.foldl_map]

theorem exec_map_pop (rs : List MirRegisterRef) (m : Cpu) :
    exec (rs.reverse.map .POP64r) m = pushPop.restoreAll rs m := by
  simp [exec, SlotPair.restoreAll, pushPop, List.foldr_map]

/-- The probes change nothing but their scratch register. -/
theorem exec_probeCode (frameSize : ℕ) (m : Cpu) : (exec (probeCode frameSize) m).mem = m.mem ∧
      ∀ r, r ≠ probeReg → (exec (probeCode frameSize) m).regs r = m.regs r := by
  have hloads : ∀ (offs : List ℕ) (m : Cpu),
      (exec (offs.map fun off : ℕ => LOAD64 probeReg rsp (-(off : ℤ))) m).mem = m.mem ∧
      ∀ r, r ≠ probeReg →
        (exec (offs.map fun off : ℕ => LOAD64 probeReg rsp (-(off : ℤ))) m).regs r
          = m.regs r := by
    intro offs
    induction offs with
    | nil => exact fun m => ⟨rfl, fun _ _ => rfl⟩
    | cons off offs ih =>
      intro m
      obtain ⟨hmem, hregs⟩ :=
        ih (FrameInst.exec m (.LOAD64 probeReg rsp (-(off : ℤ))))
      refine ⟨hmem, ?_⟩
      intro r hr
      exact (hregs r hr).trans (WordMachine.setReg_regs_of_ne hr _ _)
  unfold probeCode
  split
  · exact hloads _ m
  · exact ⟨rfl, fun _ _ => rfl⟩

end X86_64

namespace FrameFunction

open X86_64

variable (f : FrameFunction)

/-- push rbp; mov rbp, rsp -/
def enterCode : List FrameInst :=
  if f.frame.hasFramePointer then [.PUSH64r rbp, .MOV64rr rbp rsp] else []

def reserveCode : List FrameInst :=
  if 0 < f.frame.layout.totalFrameSize then
    probeCode f.frame.layout.totalFrameSize ++ [.SUB64ri rsp rsp f.frame.layout.totalFrameSize]
  else []

variable {f} {m₀ m : Cpu} {n : ℕ}

section

variable (hx : f.conv.target = .X86_64)
include hx

theorem rsp_eq : f.conv.spReg = rsp := by
  rw [ShippedConv.spReg, hx, rsp]

theorem rbp_eq : f.conv.fpReg = rbp := by
  rw [ShippedConv.fpReg, hx, rbp]

theorem exec_insertPrologue (m : Cpu) : exec (insertPrologue f.frame f.conv.target) m =
      pushPop.saveAll f.pushed (exec f.reserveCode (exec f.enterCode m)) := by
  have hpushed : pushedRegs .X86_64 f.frame = f.pushed := by rw [pushed, hx]
  rw [hx, insertPrologue, X86_64.insertPrologue, exec_append, exec_append, exec_map_push, hpushed]
  rfl

theorem sub_immField (hfits : f.Fits) (v : BitVec 64) :
    v - immField 32 f.frame.layout.totalFrameSize = disp v (-(f.allocSize : ℤ)) ∧
      v + immField 32 f.frame.layout.totalFrameSize = disp v f.allocSize := by
  have hsize : f.allocSize = f.frame.layout.totalFrameSize := by rw [allocSize, hx]
  have halloc := hfits.alloc
  rw [hx, maxAlloc] at halloc
  rw [← hsize, immField_of_fits (by omega) (by omega), BitVec.ofInt_natCast]
  exact ⟨WordMachine.sub_ofNat v _, WordMachine.add_ofNat v _⟩

theorem exec_reserveCode (hfits : f.Fits) (m : Cpu) : (exec f.reserveCode m).mem = m.mem ∧
      (exec f.reserveCode m).regs rsp = disp (m.regs rsp) (-(f.allocSize : ℤ)) ∧
      ∀ r, r ≠ rsp → r ≠ probeReg → (exec f.reserveCode m).regs r = m.regs r := by
  have hsize : f.allocSize = f.frame.layout.totalFrameSize := by rw [allocSize, hx]
  obtain ⟨hmem, hregs⟩ := exec_probeCode f.frame.layout.totalFrameSize m
  unfold reserveCode
  split
  · refine ⟨?_, ?_, ?_⟩
    · simpa [FrameInst.exec] using hmem
    · have hrsp := hregs rsp (by decide)
      simp [FrameInst.exec, hrsp, (sub_immField hx hfits _).1]
    · intro r hne hprobe
      simp [FrameInst.exec, WordMachine.setReg_regs_of_ne hne, hregs r hprobe]
  · refine ⟨rfl, ?_, fun _ _ _ => rfl⟩
    have hzero : f.allocSize = 0 := by omega
    simp [hzero]

theorem linkArea_eq : f.linkArea = if f.frame.hasFramePointer then 8 else 0 := by
  rw [linkArea, hx]
  rfl

end

/-- The word at the top of the frame and the registers behind the entry code. -/
theorem exec_enterCode (m : Cpu) : (exec f.enterCode m).regs rsp =
        disp (m.regs rsp) (if f.frame.hasFramePointer then -8 else 0) ∧
      (f.frame.hasFramePointer = true → (exec f.enterCode m).regs rbp = disp (m.regs rsp) (-8) ∧
        (exec f.enterCode m).load (disp (m.regs rsp) (-8)) = m.regs rbp) ∧
      ∀ r, r ≠ rsp → (f.frame.hasFramePointer = true → r ≠ rbp) →
        (exec f.enterCode m).regs r = m.regs r := by
  have hne : rsp ≠ rbp := by decide
  cases h : f.frame.hasFramePointer with
  | false => simp [enterCode, h]
  | true =>
    refine ⟨?_, fun _ => ⟨?_, ?_⟩, ?_⟩
    · simp [enterCode, h, FrameInst.exec, WordMachine.setReg_regs_of_ne hne]
    · simp [enterCode, h, FrameInst.exec]
    · simp [enterCode, h, FrameInst.exec, WordMachine.load_store_self]
    · intro r hr hfp
      simp [enterCode, h, FrameInst.exec, WordMachine.setReg_regs_of_ne hr,
        WordMachine.setReg_regs_of_ne (hfp rfl)]

theorem probeReg_not_preserved (conv : ShippedConv) (hx : conv.target = .X86_64) :
    probeReg ∉ conv.calleeSavedRegs := by
  cases conv with
  | SysV_AMD64 | Win64 => decide
  | LP64D => cases hx

/-- In front of the pushes of the saved registers. -/
theorem allocated_x86 (hx : f.conv.target = .X86_64) (hfits : f.Fits) (m₀ : Cpu) :
    f.Allocated m₀ (exec f.reserveCode (exec f.enterCode m₀)) := by
  obtain ⟨-, hsp, hregs⟩ := exec_reserveCode hx hfits (exec f.enterCode m₀)
  obtain ⟨hsp', hfp', hregs'⟩ := exec_enterCode (f := f) m₀
  have hprobe := probeReg_not_preserved f.conv hx
  refine ⟨?_, ?_, ?_, ?_⟩
  · rw [rsp_eq hx, hsp, hsp', WordMachine.disp_disp, linkArea_eq hx]
    congr 1
    cases f.frame.hasFramePointer <;> simp
    ring
  · intro hfp
    rw [rbp_eq hx, rsp_eq hx, hregs rbp (by decide) (by decide), (hfp' hfp).1, hx]
    rfl
  · intro r hr hne hfp
    have hne' : r ≠ probeReg := fun h => hprobe (h ▸ hr)
    rw [rsp_eq hx] at hne
    rw [hregs r hne hne', hregs' r hne fun h => rbp_eq hx ▸ hfp h]
  · intro htarget
    rw [hx] at htarget
    cases htarget

theorem load_frameWord (hx : f.conv.target = .X86_64) (hfits : f.Fits)
    (hfp : f.frame.hasFramePointer = true) (m₀ : Cpu) :
    (exec f.reserveCode (exec f.enterCode m₀)).load (disp (m₀.regs rsp) (-8)) = m₀.regs rbp := by
  obtain ⟨hmem, -, -⟩ := exec_reserveCode hx hfits (exec f.enterCode m₀)
  obtain ⟨-, hfp', -⟩ := exec_enterCode (f := f) m₀
  rw [← (hfp' hfp).2]
  apply WordMachine.load_congr
  intro i _
  rw [hmem]

/-- add rsp, frameSize, or with a frame pointer mov rsp, rbp; pop rbp -/
def leaveCode (f : FrameFunction) : List FrameInst :=
  if f.frame.hasFramePointer then [.MOV64rr rsp rbp, .POP64r rbp]
  else if 0 < f.frame.layout.totalFrameSize then
    [.ADD64ri rsp rsp f.frame.layout.totalFrameSize]
  else []

theorem exec_insertEpilogue (hx : f.conv.target = .X86_64) (m : Cpu) :
    exec (insertEpilogue f.frame f.conv.target) m =
      exec f.leaveCode (pushPop.restoreAll f.pushed m) := by
  have hpushed : pushedRegs .X86_64 f.frame = f.pushed := by rw [pushed, hx]
  rw [hx, insertEpilogue, X86_64.insertEpilogue, exec_append, exec_map_pop, hpushed]
  rfl

theorem exec_leaveCode_framePointer (hfp : f.frame.hasFramePointer = true) (m : Cpu) :
    (exec f.leaveCode m).regs rsp = disp (m.regs rbp) 8 ∧
      (exec f.leaveCode m).regs rbp = m.load (m.regs rbp) ∧
      ∀ r, r ≠ rsp → r ≠ rbp → (exec f.leaveCode m).regs r = m.regs r := by
  have hne : rsp ≠ rbp := by decide
  refine ⟨?_, ?_, ?_⟩
  · simp [leaveCode, hfp, FrameInst.exec, WordMachine.setReg_regs_of_ne hne]
  · simp [leaveCode, hfp, FrameInst.exec]
  · intro r hr hr'
    simp [leaveCode, hfp, FrameInst.exec, WordMachine.setReg_regs_of_ne hr,
      WordMachine.setReg_regs_of_ne hr']

theorem exec_leaveCode_frameless (hx : f.conv.target = .X86_64) (hfits : f.Fits)
    (hfp : f.frame.hasFramePointer = false) (m : Cpu) :
    (exec f.leaveCode m).regs rsp = disp (m.regs rsp) f.allocSize ∧
      ∀ r, r ≠ rsp → (exec f.leaveCode m).regs r = m.regs r := by
  have hsize : f.allocSize = f.frame.layout.totalFrameSize := by rw [allocSize, hx]
  rcases Nat.eq_zero_or_pos f.frame.layout.totalFrameSize with hzero | hpos
  · simp [leaveCode, hfp, hsize, hzero]
  · refine ⟨?_, ?_⟩
    · simp [leaveCode, hfp, hpos, FrameInst.exec, (sub_immField hx hfits _).2]
    · intro r hr
      simp [leaveCode, hfp, hpos, FrameInst.exec, WordMachine.setReg_regs_of_ne hr]

theorem codeSpec_x86 (hx : f.conv.target = .X86_64) (hfits : f.Fits) : f.CodeSpec where
  prologue m₀ :=
    bodyState_saveAll pushPop (rsp_eq hx) (by rw [hx]; rfl) (allocated_x86 hx hfits m₀)
      (exec_insertPrologue hx m₀)
  epilogue m₀ n m hbody := by
    have hsize : pushPop.size = saveSize f.conv.target := by rw [hx]; rfl
    have hq := allocated_x86 hx hfits m₀
    have hprologue := exec_insertPrologue hx m₀
    have hback := givenBack_restoreAll pushPop (rsp_eq hx) hsize hq hprologue hbody
    have hlink : f.conv.target = .RiscV64 → ∀ P : Prop, P := by
      intro h
      rw [hx] at h
      cases h
    rw [exec_insertEpilogue hx]
    cases hfp : f.frame.hasFramePointer with
    | false =>
      obtain ⟨hsp, hregs⟩ := exec_leaveCode_frameless hx hfits hfp (pushPop.restoreAll f.pushed m)
      have hrsp := hback.sp hfp
      rw [rsp_eq hx] at hrsp
      refine restored_of_givenBack hback ?_ ?_ ?_ fun h => hlink h _
      · have hqsp := hq.sp
        rw [rsp_eq hx, linkArea_eq hx, hfp] at hqsp
        rw [rsp_eq hx, hsp, hrsp, hqsp, WordMachine.disp_disp]
        simp
      · intro h
        exact absurd (hfp.symm.trans h) (by decide)
      · intro r _ hne _
        exact hregs r (rsp_eq hx ▸ hne)
    | true =>
      obtain ⟨hsp, hrbp, hregs⟩ := exec_leaveCode_framePointer hfp (pushPop.restoreAll f.pushed m)
      have hbase := hback.fp hfp
      rw [hbody.fp hfp, rbp_eq hx, rsp_eq hx, hx] at hbase
      have hword : (pushPop.restoreAll f.pushed m).load (disp (m₀.regs rsp) (-8)) =
          m₀.regs rbp := by
        rw [← load_frameWord hx hfits hfp m₀]
        apply WordMachine.load_congr
        intro i hi
        have hlo : -(f.linkArea : ℤ) ≤ -8 + i := by
          rw [linkArea_eq hx, hfp]
          simp
        have hmem := linkArea_mem pushPop hfits (rsp_eq hx) hsize hq hprologue hbody hlo (by omega)
        rw [rsp_eq hx] at hmem
        rw [hback.mem, WordMachine.disp_disp, hmem]
      refine restored_of_givenBack hback ?_ ?_ ?_ fun h => hlink h _
      · rw [rsp_eq hx, hsp, hbase, WordMachine.disp_disp]
        simp [fpDisp]
      · intro _
        rw [rbp_eq hx, hrbp, hbase]
        exact hword
      · intro r _ hne hne'
        exact hregs r (rsp_eq hx ▸ hne) (rbp_eq hx ▸ hne' hfp)

/-- At a return the caller finds rsp, rbp and the saved registers again, and at a
call the stack is aligned if it was at the call of this function. -/
structure RespectsX86_64At (f : FrameFunction) (m₀ : Cpu) (c : FrameConfig) : Prop where
  atReturn : ∀ rest, c.rest = .ret :: rest →
    ∀ r ∈ rsp :: rbp :: f.conv.calleeSavedRegs, c.cpu.regs r = m₀.regs r
  atCall : ∀ callee rest, c.rest = .call callee :: rest →
    ((m₀.regs rsp).toNat + 8) % 16 = 0 → (c.cpu.regs rsp).toNat % 16 = 0

/-- The property in every state of every run. -/
def RespectsX86_64 (f : FrameFunction) : Prop :=
  ∀ m₀ c, f.Reaches m₀ c → f.RespectsX86_64At m₀ c

/-- The condition on the states of a run. At a call the pushed registers, the
allocations and, without a frame pointer, the missing word of it have to come to a
multiple of 16. -/
structure X86_64StepOk (f : FrameFunction) (c : FrameConfig) : Prop where
  step : f.StepOk c
  atCall : ∀ callee rest, c.rest = .call callee :: rest →
    (8 * f.pushed.length + (if f.hasFramePointer then 0 else 8) + c.allocated) % 16 = 0

theorem toNat_disp_mod (base : BitVec 64) (d : ℤ) :
    ((disp base d).toNat : ℤ) % 16 = (base.toNat + d) % 16 := by
  rw [disp, BitVec.toNat_add, BitVec.toNat_ofInt]
  omega

theorem allocSize_mod : f.allocSize % 16 = 0 := by
  have hdvd : ∀ n, alignMask 16 n % 16 = 0 := by
    intro n
    have h := alignUp.dvd_alignUp (a := 2 ^ 4) (by decide) n
    rw [← alignUp.mask_two_pow] at h
    exact Nat.mod_eq_zero_of_dvd h
  have hframe : f.frame.layout.totalFrameSize % 16 = 0 := by
    have halign := stackAlignment_eq f.conv
    simp only [frame, lowerFrame, calculateFrameLayout, halign]
    exact hdvd _
  unfold allocSize
  cases f.conv.target with
  | X86_64 => exact hframe
  | RiscV64 => exact hdvd _

theorem aligned_at_call (hx : f.conv.target = .X86_64) (hbody : f.BodyState m₀ n m)
    (hentry : ((m₀.regs rsp).toNat + 8) % 16 = 0)
    (hsum : (8 * f.pushed.length + (if f.hasFramePointer then 0 else 8) + n) % 16 = 0) :
    (m.regs rsp).toNat % 16 = 0 := by
  have hmod := toNat_disp_mod (m₀.regs rsp) (f.frameBottom - n)
  have hsp := hbody.sp
  have halloc := allocSize_mod (f := f)
  rw [rsp_eq hx] at hsp
  rw [← hsp, frameBottom, linkArea, hx] at hmod
  simp only [saveSize, linkSize] at hmod
  split at hsum <;> simp_all <;> omega

/-- Every run of a function whose frame fits, all of whose states meet the
condition, respects the convention in every state. -/
theorem respectsX86_64_of_reachesVia (hx : f.conv.target = .X86_64) (hfits : f.Fits)
    {c : FrameConfig} (hrun : f.ReachesVia f.X86_64StepOk m₀ c) :
    f.RespectsX86_64At m₀ c := by
  by_cases hblocks : f.blocks = []
  · have hrest := rest_of_reaches_of_blocks_eq_nil hblocks (reaches_of_reachesVia hrun)
    constructor <;> intros <;> simp_all
  · have hlocated := located_of_reachesVia hfits (codeSpec_x86 hx hfits) hblocks
      (fun _ h => h.step) hrun
    constructor
    · intro rest hret r hr
      have hrestored := restored_of_located hlocated hret
      rcases List.mem_cons.mp hr with rfl | hr
      · exact rsp_eq hx ▸ hrestored.sp
      · rcases List.mem_cons.mp hr with rfl | hr
        · exact rbp_eq hx ▸ hrestored.fp
        · exact hrestored.preserved r hr
    · intro callee rest hcall hentry
      exact aligned_at_call hx (bodyState_of_located hlocated hcall) hentry
        (hrun.2.atCall callee rest hcall)

/-- A local of 64 bits. -/
def wordLocal : StackFrameObject := ⟨⟨.Integer, 0, 0, 64, 64, Mir.MirType.wordAlignment⟩, .Variable⟩

/-- One local, no saved register, a dynamic allocation in front of a call. -/
def allocating : FrameFunction where
  conv := .SysV_AMD64
  objects := [wordLocal]
  used := []
  blocks := [[.dalloc (gpr 0) (gpr 1), .call .SysV_AMD64, .ret]]
  used_preserved := by decide
  used_nodup := List.nodup_nil
  defs_assignable := by decide
  callee_target := by simp

def allocatingEntry (size : BitVec 64) : Cpu where
  regs r := if r = rsp then 0x100008 else if r = gpr 1 then size else
    if r = gpr 3 then 1 else 0
  mem _ := 0

/-- Its run with an allocation of 32 bytes gets to the return. -/
theorem respectsX86_64_allocating :
    ∃ c, allocating.ReachesVia allocating.X86_64StepOk (allocatingEntry 32) c ∧
      c.rest = [.ret] ∧ allocating.RespectsX86_64At (allocatingEntry 32) c := by
  have hfits : allocating.Fits := ⟨by decide, by decide⟩
  have hentry : allocating.ReachesVia allocating.X86_64StepOk (allocatingEntry 32)
      (allocating.start (allocatingEntry 32)) :=
    .start ⟨trivial, fun _ _ h => by cases h⟩
  have hprologue := hentry.step (.code _ _ _ _ _)
    ⟨⟨Or.inr ⟨rfl, rfl⟩, by decide, fun h => by cases h⟩, fun _ _ h => by cases h⟩
  have hdalloc := hprologue.step (.dalloc _ _ _ _ _ _ _)
    ⟨⟨Or.inl rfl, fun _ hr => Or.inl hr, fun h => by cases h⟩, fun _ _ _ => by decide⟩
  have hcall := hdalloc.step (.call _ _ _ _ _ _ ⟨rfl, fun _ _ => rfl, fun _ _ _ => rfl⟩)
    ⟨trivial, fun _ _ h => by cases h⟩
  have hepilogue := hcall.step (.code _ _ _ _ _) ⟨trivial, fun _ _ h => by cases h⟩
  exact ⟨_, hepilogue, rfl, respectsX86_64_of_reachesVia rfl hfits hepilogue⟩

/-- One local, rbx saved, a dynamic allocation in front of the return. -/
def savingAllocating : FrameFunction where
  conv := .SysV_AMD64
  objects := [wordLocal]
  used := [gpr 3]
  blocks := [[.dalloc (gpr 0) (gpr 1), .ret]]
  used_preserved := by decide
  used_nodup := by decide
  defs_assignable := by decide
  callee_target := by simp

/-- The epilogue pops rbx out of the dynamic allocation. -/
theorem rbx_popped_from_allocation :
    ¬ ∀ f : FrameFunction, f.conv.target = .X86_64 → f.RespectsX86_64 := by
  intro h
  have hentry : savingAllocating.ReachesVia (fun _ => True) (allocatingEntry 16)
      (savingAllocating.start (allocatingEntry 16)) := .start trivial
  have hprologue := hentry.step (.code _ _ _ _ _) trivial
  have hdalloc := hprologue.step (.dalloc _ _ _ _ _ _ _) trivial
  have hepilogue := hdalloc.step (.code _ _ _ _ _) trivial
  have hrbx := (h savingAllocating rfl _ _ (reaches_of_reachesVia hepilogue)).atReturn
    [] rfl (gpr 3) (by decide)
  revert hrbx
  decide

end FrameFunction

end EzPacker.Abi
