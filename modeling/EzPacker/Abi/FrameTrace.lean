import EzPacker.Abi.FrameRuns

/-!
# What frame code does to the stack, without running it

The trace of frame code follows the registers whose values are known displacements
from the entry stack pointer, and the words the code writes. It agrees with every
run of the code from an entry state, and it is where the places of a frame are read
off.
-/

namespace EzPacker.Abi

open RiscV64

open X86_64 List

open WordMachine (disp)

/-- `known` are the registers that point into the stack, `writes` the registers
saved so far, each with the displacement of its word. -/
structure StackTrace where
  known : MirRegisterRef → Option ℤ
  writes : List (MirRegisterRef × ℤ)

/-- At entry the stack pointer is known and nothing else. -/
def StackTrace.entry (target : TargetArch) : StackTrace where
  known r := if r = stackPointerReg target then some 0 else none
  writes := []

namespace StackTrace

def setKnown (r : MirRegisterRef) (d : Option ℤ) (t : StackTrace) : StackTrace :=
  { t with known := fun r' => if r' = r then d else t.known r' }

/-- A word written at a known place. -/
def write (src : MirRegisterRef) (place : Option ℤ) (t : StackTrace) : StackTrace :=
  { t with writes := t.writes ++ (place.map fun d => (src, d)).toList }

@[simp] theorem setKnown_self (r : MirRegisterRef) (d : Option ℤ) (t : StackTrace) :
    (t.setKnown r d).known r = d := by simp [setKnown]

theorem setKnown_of_ne {r r' : MirRegisterRef} (h : r' ≠ r) (d : Option ℤ)
    (t : StackTrace) : (t.setKnown r d).known r' = t.known r' := by simp [setKnown, h]

@[simp] theorem setKnown_writes (r : MirRegisterRef) (d : Option ℤ) (t : StackTrace) :
    (t.setKnown r d).writes = t.writes := rfl

@[simp] theorem write_known (src : MirRegisterRef) (place : Option ℤ) (t : StackTrace) :
    (t.write src place).known = t.known := rfl

@[simp] theorem write_writes (src : MirRegisterRef) (d : ℤ) (t : StackTrace) :
    (t.write src (some d)).writes = t.writes ++ [(src, d)] := by simp [write]

end StackTrace

/-- An immediate of a field of `w` bits, as a number. -/
def immValue (w : ℕ) (imm : ℤ) : ℤ := imm.bmod (2 ^ w)

namespace FrameInst

open StackTrace

def trace (t : StackTrace) : FrameInst → StackTrace
  | PUSH64r src =>
    let top := (t.known X86_64.rsp).map (· - 8)
    (t.setKnown X86_64.rsp top).write src top
  | POP64r dst =>
    (t.setKnown X86_64.rsp ((t.known X86_64.rsp).map (· + 8))).setKnown dst none
  | MOV64rr dst src => t.setKnown dst (t.known src)
  | SUB64ri dst src1 imm => t.setKnown dst ((t.known src1).map (· - immValue 32 imm))
  | ADD64ri dst src1 imm => t.setKnown dst ((t.known src1).map (· + immValue 32 imm))
  | SUB64rr dst _ _ => t.setKnown dst none
  | LOAD64 dst _ _ => t.setKnown dst none
  | ADDI64ri dst src1 imm => t.setKnown dst ((t.known src1).map (· + immValue 12 imm))
  | SD src base disp | FSD src base disp =>
    t.write src ((t.known base).map (· + immValue 12 disp))
  | LD dst _ _ | FLD dst _ _ => t.setKnown dst none

end FrameInst

def trace (code : List FrameInst) (t : StackTrace) : StackTrace :=
  code.foldl FrameInst.trace t

@[simp] theorem trace_nil (t : StackTrace) : trace [] t = t := rfl

@[simp] theorem trace_cons (i : FrameInst) (code : List FrameInst) (t : StackTrace) :
    trace (i :: code) t = trace code (i.trace t) := rfl

@[simp] theorem trace_append (code code' : List FrameInst) (t : StackTrace) :
    trace (code ++ code') t = trace code' (trace code t) := by
  simp [trace]

theorem immField_eq (w : ℕ) (imm : ℤ) : immField w imm = BitVec.ofInt 64 (immValue w imm) := by
  rw [immField, BitVec.signExtend, BitVec.toInt_ofInt, immValue]

theorem add_immField_eq (w : ℕ) (imm : ℤ) (v : BitVec 64) :
    v + immField w imm = disp v (immValue w imm) := by
  rw [immField_eq, disp]

theorem sub_immField_eq (w : ℕ) (imm : ℤ) (v : BitVec 64) :
    v - immField w imm = disp v (-immValue w imm) := by
  rw [immField_eq, disp, BitVec.ofInt_neg, BitVec.sub_eq_add_neg]

/-- The state is one the trace tells of: the known registers point where it says,
and memory differs from that at entry in the written words only. -/
structure Agrees (m₀ : Cpu) (entrySp : BitVec 64) (t : StackTrace) (m : Cpu) : Prop where
  known : ∀ r d, t.known r = some d → m.regs r = disp entrySp d
  mem : ∀ a, (∀ p ∈ t.writes, ∀ i : ℕ, i < 8 → a ≠ disp (disp entrySp p.2) i) → m.mem a = m₀.mem a

def StoresKnown (t : StackTrace) : FrameInst → Prop
  | .PUSH64r _ => ∃ d, t.known X86_64.rsp = some d
  | .SD _ base _ | .FSD _ base _ => ∃ d, t.known base = some d
  | _ => True

def KnownStores : StackTrace → List FrameInst → Prop
  | _, [] => True
  | t, i :: code => StoresKnown t i ∧ KnownStores (i.trace t) code

/-- The instruction stores relative to the stack pointer only, and moves the stack
pointer only by an immediate. -/
def OnStack (target : TargetArch) : FrameInst → Prop
  | .PUSH64r _ => target = .X86_64
  | .SD _ base _ | .FSD _ base _ => base = stackPointerReg target
  | .SUB64ri dst src1 _ | .ADD64ri dst src1 _ | .ADDI64ri dst src1 _ =>
    dst = stackPointerReg target → src1 = stackPointerReg target
  | .POP64r dst | .MOV64rr dst _ | .SUB64rr dst _ _ | .LOAD64 dst _ _ | .LD dst _ _
  | .FLD dst _ _ => dst ≠ stackPointerReg target

variable {t : StackTrace}

theorem storesKnown_of_onStack {target : TargetArch} {i : FrameInst}
    (hi : OnStack target i) (ht : (t.known (stackPointerReg target)).isSome) :
    StoresKnown t i ∧ ((i.trace t).known (stackPointerReg target)).isSome := by
  have hexists := Option.isSome_iff_exists.mp ht
  have hset : ∀ dst src1 (g : ℤ → ℤ),
      (dst = stackPointerReg target → src1 = stackPointerReg target) →
      ((t.setKnown dst ((t.known src1).map g)).known (stackPointerReg target)).isSome := by
    intro dst src1 g hsrc
    by_cases hdst : dst = stackPointerReg target
    · rw [hdst, StackTrace.setKnown_self, hsrc hdst, Option.isSome_map, ht]
    · rw [StackTrace.setKnown_of_ne (Ne.symm hdst), ht]
  have hother : ∀ (t' : StackTrace) dst (d : Option ℤ), dst ≠ stackPointerReg target →
      (t'.known (stackPointerReg target)).isSome →
      ((t'.setKnown dst d).known (stackPointerReg target)).isSome := by
    intro t' dst d hdst ht'
    rw [StackTrace.setKnown_of_ne (Ne.symm hdst), ht']
  cases i with
  | PUSH64r src =>
    obtain rfl : target = .X86_64 := hi
    exact ⟨hexists, hset rsp rsp (· - 8) id⟩
  | POP64r dst =>
    refine ⟨trivial, hother _ dst _ hi ?_⟩
    rcases Decidable.em (rsp = stackPointerReg target) with hrsp | hrsp
    · exact hset rsp rsp (· + 8) id
    · exact hother t _ _ hrsp ht
  | MOV64rr dst src | SUB64rr dst src1 src2 | LOAD64 dst base disp | LD dst base disp
  | FLD dst base disp => exact ⟨trivial, hother _ _ _ hi ht⟩
  | SUB64ri dst src1 imm | ADD64ri dst src1 imm | ADDI64ri dst src1 imm =>
    exact ⟨trivial, hset _ _ _ hi⟩
  | SD src base disp | FSD src base disp =>
    obtain rfl : base = stackPointerReg target := hi
    exact ⟨hexists, ht⟩

theorem knownStores_of_onStack {target : TargetArch}
    {code : List FrameInst} (hcode : ∀ i ∈ code, OnStack target i)
    (ht : (t.known (stackPointerReg target)).isSome) : KnownStores t code := by
  induction code generalizing t with
  | nil => trivial
  | cons i code ih =>
    obtain ⟨hstores, hknown⟩ := storesKnown_of_onStack (hcode i mem_cons_self) ht
    exact ⟨hstores, ih (fun j hj => hcode j (mem_cons_of_mem i hj)) hknown⟩

section

variable {m₀ m : Cpu} {entrySp : BitVec 64} {t : StackTrace}

section

variable (h : Agrees m₀ entrySp t m)
include h

theorem Agrees.setReg {r : MirRegisterRef} {v : BitVec 64} {d : Option ℤ}
    (hd : ∀ d', d = some d' → v = disp entrySp d') :
    Agrees m₀ entrySp (t.setKnown r d) (m.setReg r v) where
  known := by
    intro r' d' hr'
    by_cases hne : r' = r
    · subst hne
      rw [StackTrace.setKnown_self] at hr'
      rw [WordMachine.setReg_regs_self, hd d' hr']
    · rw [StackTrace.setKnown_of_ne hne] at hr'
      rw [WordMachine.setReg_regs_of_ne hne, h.known r' d' hr']
  mem := h.mem

theorem Agrees.store (src : MirRegisterRef) (d : ℤ) (v : BitVec 64) :
    Agrees m₀ entrySp (t.write src (some d)) (m.store (disp entrySp d) v) where
  known := h.known
  mem := by
    intro a ha
    rw [StackTrace.write_writes] at ha
    rw [WordMachine.store_mem_of_ne (ha (src, d) (by simp))]
    exact h.mem a fun p hp => ha p (mem_append_left _ hp)

theorem Agrees.shift (r : MirRegisterRef) (k : ℤ) :
    ∀ d', (t.known r).map (· + k) = some d' → disp (m.regs r) k = disp entrySp d' := by
  intro d' hd'
  obtain ⟨d, hd, rfl⟩ := Option.map_eq_some_iff.mp hd'
  rw [h.known r d hd, WordMachine.disp_disp]

theorem Agrees.step {i : FrameInst} (hi : StoresKnown t i) :
    Agrees m₀ entrySp (i.trace t) (i.exec m) := by
  have hdown : ∀ r k, ∀ d', (t.known r).map (· - k) = some d' →
      disp (m.regs r) (-k) = disp entrySp d' := fun r k d' hd' =>
    h.shift r (-k) d' (by simpa [sub_eq_add_neg] using hd')
  have hstore : ∀ src base imm, (∃ d, t.known base = some d) →
      Agrees m₀ entrySp (t.write src ((t.known base).map (· + immValue 12 imm)))
        (m.store (m.regs base + immField 12 imm) (m.regs src)) := by
    rintro src base imm ⟨d, hd⟩
    rw [add_immField_eq, h.known base d hd, WordMachine.disp_disp, hd]
    exact h.store src _ _
  cases i with
  | PUSH64r src =>
    obtain ⟨d, hd⟩ := hi
    have hset := h.setReg (r := rsp) (hdown rsp 8)
    have hrsp : disp (m.regs rsp) (-8) = disp entrySp (d - 8) :=
      hdown rsp 8 _ (by rw [hd]; rfl)
    simp only [FrameInst.trace, FrameInst.exec, hd, Option.map_some, hrsp] at hset ⊢
    exact hset.store src _ _
  | POP64r dst =>
    exact (h.setReg (h.shift rsp 8)).setReg (by simp)
  | MOV64rr dst src => exact h.setReg fun d' hd' => h.known src d' hd'
  | SUB64ri dst src1 imm =>
    simp only [FrameInst.exec, sub_immField_eq]
    exact h.setReg (hdown src1 _)
  | ADD64ri dst src1 imm | ADDI64ri dst src1 imm =>
    simp only [FrameInst.exec, add_immField_eq]
    exact h.setReg (h.shift src1 _)
  | SUB64rr dst src1 src2 | LOAD64 dst base disp | LD dst base disp | FLD dst base disp =>
    exact h.setReg (by simp)
  | SD src base disp | FSD src base disp => exact hstore src base disp hi

theorem Agrees.run {code : List FrameInst} (hcode : KnownStores t code) :
    Agrees m₀ entrySp (trace code t) (exec code m) := by
  induction code generalizing t m with
  | nil => exact h
  | cons i code ih => exact ih (h.step hcode.1) hcode.2

end

theorem Agrees.entry (target : TargetArch) (m : Cpu) :
    Agrees m (m.regs (stackPointerReg target)) (StackTrace.entry target) m where
  known := by
    intro r d hd
    simp only [StackTrace.entry] at hd
    split at hd
    · next hr =>
        obtain rfl := Option.some.inj hd
        rw [hr, WordMachine.disp_zero]
    · cases hd
  mem _ _ := rfl

end

/-!
## The places of a frame

`calculateFrameLayout` places the objects relative to the frame pointer, the
prologue saves registers relative to the stack pointer. Both are displacements from
the entry stack pointer here: the objects through the layout, the saved words and
the stack pointer behind the prologue through the trace of its code.
-/

/-- The words of registers saved one by one below the displacement `d`. -/
def slotWrites (size : ℕ) : ℤ → List MirRegisterRef → List (MirRegisterRef × ℤ)
  | _, [] => []
  | d, r :: rs => (r, d - size) :: slotWrites size (d - size) rs

theorem trace_map_push (rs : List MirRegisterRef) {d : ℤ} (hd : t.known X86_64.rsp = some d) :
    (trace (rs.map .PUSH64r) t).known X86_64.rsp = some (d - (8 * rs.length : ℕ)) ∧
      (∀ r, r ≠ X86_64.rsp → (trace (rs.map .PUSH64r) t).known r = t.known r) ∧
      (trace (rs.map .PUSH64r) t).writes = t.writes ++ slotWrites 8 d rs := by
  induction rs generalizing t d with
  | nil => simp [hd, slotWrites]
  | cons r rs ih =>
    have hhead : ((FrameInst.PUSH64r r).trace t).known rsp = some (d - 8) := by
      simp [FrameInst.trace, hd]
    obtain ⟨hsp, hknown, hwrites⟩ := ih hhead
    refine ⟨?_, ?_, ?_⟩
    · rw [map_cons, trace_cons, hsp]
      congr 1
      push_cast [length_cons]
      ring
    · intro r' hr'
      rw [map_cons, trace_cons, hknown r' hr']
      simp [FrameInst.trace, StackTrace.setKnown_of_ne hr']
    · rw [map_cons, trace_cons, hwrites]
      simp [FrameInst.trace, hd, slotWrites]

theorem trace_flatMap_saveReg (rs : List MirRegisterRef) {d : ℤ}
    (hd : t.known RiscV64.sp = some d) :
    (trace (rs.flatMap RiscV64.saveReg) t).known RiscV64.sp = some (d - (16 * rs.length : ℕ)) ∧
      (∀ r, r ≠ RiscV64.sp → (trace (rs.flatMap RiscV64.saveReg) t).known r = t.known r) ∧
      (trace (rs.flatMap RiscV64.saveReg) t).writes = t.writes ++ slotWrites 16 d rs := by
  have himm : immValue 12 (-16) = -16 ∧ immValue 12 0 = 0 := by decide
  induction rs generalizing t d with
  | nil => simp [hd, slotWrites]
  | cons r rs ih =>
    have hsave : trace (saveReg r) t =
        (t.setKnown sp (some (d - 16))).write r (some (d - 16)) := by
      rw [saveReg]
      split <;> simp [FrameInst.trace, hd, himm.1, himm.2, sub_eq_add_neg]
    obtain ⟨hsp, hknown, hwrites⟩ := ih (t := trace (saveReg r) t)
      (d := d - 16) (by rw [hsave]; simp)
    refine ⟨?_, ?_, ?_⟩
    · rw [flatMap_cons, trace_append, hsp]
      congr 1
      push_cast [length_cons]
      ring
    · intro r' hr'
      rw [flatMap_cons, trace_append, hknown r' hr', hsave]
      simp [StackTrace.setKnown_of_ne hr']
    · rw [flatMap_cons, trace_append, hwrites, hsave]
      simp [slotWrites]

theorem trace_probeCode (frameSize : ℕ) (t : StackTrace) :
    (trace (probeCode frameSize) t).writes = t.writes ∧
      ∀ r, r ≠ probeReg → (trace (probeCode frameSize) t).known r = t.known r := by
  have hloads : ∀ (offs : List ℕ) (t : StackTrace),
      (trace (offs.map fun off : ℕ =>
        FrameInst.LOAD64 probeReg (stackPointerReg .X86_64) (-(off : ℤ))) t).writes = t.writes ∧
      ∀ r, r ≠ probeReg →
        (trace (offs.map fun off : ℕ =>
          FrameInst.LOAD64 probeReg (stackPointerReg .X86_64) (-(off : ℤ))) t).known r
            = t.known r := by
    intro offs
    induction offs with
    | nil => exact fun t => ⟨rfl, fun _ _ => rfl⟩
    | cons off offs ih =>
      intro t
      obtain ⟨hwrites, hknown⟩ := ih (FrameInst.trace t
        (.LOAD64 probeReg (stackPointerReg .X86_64) (-(off : ℤ))))
      refine ⟨hwrites, ?_⟩
      intro r hr
      exact (hknown r hr).trans (StackTrace.setKnown_of_ne hr _ _)
  unfold probeCode
  split
  · exact hloads _ t
  · exact ⟨rfl, fun _ _ => rfl⟩

namespace FrameFunction

variable (f : FrameFunction)

def prologueTrace : StackTrace :=
  trace (insertPrologue f.frame f.conv.target) (StackTrace.entry f.conv.target)

/-- What the stack pointer is moved down by for the size of the frame. -/
def reserved : ℤ :=
  match f.conv.target with
  | .X86_64 => immValue 32 f.frame.layout.totalFrameSize
  | .RiscV64 => -immValue 12 (-(RiscV64.frameSize f.frame : ℤ))

/-- The words saved at entry. -/
def linkWrites : List (MirRegisterRef × ℤ) :=
  if f.hasFramePointer then
    match f.conv.target with
    | .X86_64 => [(X86_64.rbp, -8)]
    | .RiscV64 => [(raReg, -8), (RiscV64.s0, -16)]
  else []

/-- What the trace of a prologue says. -/
structure TraceSpec : Prop where
  sp : f.prologueTrace.known f.conv.spReg =
    some (-f.linkArea - f.reserved - (saveSize f.conv.target * f.pushed.length : ℕ))
  fp : f.hasFramePointer = true → f.prologueTrace.known f.conv.fpReg = some (fpDisp f.conv.target)
  writes : f.prologueTrace.writes = f.linkWrites ++
    slotWrites (saveSize f.conv.target) (-f.linkArea - f.reserved) f.pushed

variable {f}

theorem trace_enter_x86 (hasFramePointer : Bool) :
    (trace (if hasFramePointer then
        [.PUSH64r X86_64.rbp, .MOV64rr X86_64.rbp X86_64.rsp] else [])
      (StackTrace.entry .X86_64)).known X86_64.rsp = some (if hasFramePointer then -8 else 0) ∧
      (hasFramePointer = true →
        (trace (if hasFramePointer then
            [.PUSH64r X86_64.rbp, .MOV64rr X86_64.rbp X86_64.rsp] else [])
          (StackTrace.entry .X86_64)).known X86_64.rbp = some (-8)) ∧
      (trace (if hasFramePointer then
          [.PUSH64r X86_64.rbp, .MOV64rr X86_64.rbp X86_64.rsp] else [])
        (StackTrace.entry .X86_64)).writes =
          if hasFramePointer then [(X86_64.rbp, -8)] else [] := by
  cases hasFramePointer <;> decide

theorem trace_enter_riscv (hasFramePointer : Bool) :
    (trace (if hasFramePointer then
        [.ADDI64ri RiscV64.sp RiscV64.sp (-16), .SD raReg RiscV64.sp 8,
          .SD RiscV64.s0 RiscV64.sp 0, .ADDI64ri RiscV64.s0 RiscV64.sp 16] else [])
      (StackTrace.entry .RiscV64)).known RiscV64.sp = some (if hasFramePointer then -16 else 0) ∧
      (hasFramePointer = true →
        (trace (if hasFramePointer then
            [.ADDI64ri RiscV64.sp RiscV64.sp (-16), .SD raReg RiscV64.sp 8,
              .SD RiscV64.s0 RiscV64.sp 0, .ADDI64ri RiscV64.s0 RiscV64.sp 16] else [])
          (StackTrace.entry .RiscV64)).known RiscV64.s0 = some 0) ∧
      (trace (if hasFramePointer then
          [.ADDI64ri RiscV64.sp RiscV64.sp (-16), .SD raReg RiscV64.sp 8,
            .SD RiscV64.s0 RiscV64.sp 0, .ADDI64ri RiscV64.s0 RiscV64.sp 16] else [])
        (StackTrace.entry .RiscV64)).writes =
          if hasFramePointer then [(raReg, -8), (RiscV64.s0, -16)] else [] := by
  cases hasFramePointer <;> decide

theorem traceSpec_x86 (hx : f.conv.target = .X86_64) : f.TraceSpec := by
  have hpushed : pushedRegs .X86_64 f.frame = f.pushed := by rw [pushed, hx]
  have hsp : f.conv.spReg = rsp := by rw [ShippedConv.spReg, hx, rsp]
  have hfp : f.conv.fpReg = rbp := by rw [ShippedConv.fpReg, hx, rbp]
  have hlink : -(f.linkArea : ℤ) = if f.frame.hasFramePointer then -8 else 0 := by
    rw [linkArea, hx, hasFramePointer]
    cases f.frame.hasFramePointer <;> rfl
  obtain ⟨hentersp, henterfp, henterwrites⟩ :=
    trace_enter_x86 f.frame.hasFramePointer
  set t := trace (if f.frame.hasFramePointer then
    [.PUSH64r rbp, .MOV64rr rbp rsp] else [])
      (StackTrace.entry .X86_64) with ht
  set reserve : List FrameInst := if 0 < f.frame.layout.totalFrameSize then
    probeCode f.frame.layout.totalFrameSize ++
      [.SUB64ri rsp rsp f.frame.layout.totalFrameSize] else [] with hreserve
  have hreserved : (trace reserve t).known rsp = some (-f.linkArea - f.reserved) ∧
      (∀ r, r ≠ rsp → r ≠ probeReg → (trace reserve t).known r = t.known r) ∧
      (trace reserve t).writes = t.writes := by
    obtain ⟨hwrites, hknown⟩ := trace_probeCode f.frame.layout.totalFrameSize t
    rw [hreserve]
    split
    · refine ⟨?_, ?_, ?_⟩
      · have hrsp := hknown rsp (by decide)
        simp [FrameInst.trace, hrsp, hentersp, hlink, reserved, hx]
      · intro r hr hprobe
        simp [FrameInst.trace, StackTrace.setKnown_of_ne hr, hknown r hprobe]
      · simp [FrameInst.trace, hwrites]
    · next hzero =>
        have hzero' : f.frame.layout.totalFrameSize = 0 := by omega
        refine ⟨?_, fun _ _ _ => rfl, rfl⟩
        rw [trace_nil, hentersp, hlink, reserved, hx, hzero']
        norm_num [immValue]
  obtain ⟨hsp', hknown', hwrites'⟩ := trace_map_push f.pushed hreserved.1
  have htrace : f.prologueTrace = trace (f.pushed.map .PUSH64r) (trace reserve t) := by
    rw [prologueTrace, hx, insertPrologue, X86_64.insertPrologue, trace_append,
      trace_append, hpushed]
  refine ⟨?_, ?_, ?_⟩
  · rw [htrace, hsp, hsp', hx]
    rfl
  · intro h
    rw [htrace, hfp, hknown' _ (by decide), hreserved.2.1 _ (by decide) (by decide), henterfp h, hx]
    rfl
  · rw [htrace, hwrites', hreserved.2.2, henterwrites, linkWrites, hx]
    rfl

theorem traceSpec_riscv (hr : f.conv.target = .RiscV64) : f.TraceSpec := by
  have hpushed : pushedRegs .RiscV64 f.frame = f.pushed := by rw [pushed, hr]
  have hsp : f.conv.spReg = sp := by rw [ShippedConv.spReg, hr, sp]
  have hfp : f.conv.fpReg = s0 := by rw [ShippedConv.fpReg, hr, s0]
  have hlink : -(f.linkArea : ℤ) = if f.frame.hasFramePointer then -16 else 0 := by
    rw [linkArea, hr, hasFramePointer]
    cases f.frame.hasFramePointer <;> rfl
  obtain ⟨hentersp, henterfp, henterwrites⟩ :=
    trace_enter_riscv f.frame.hasFramePointer
  set t := trace (if f.frame.hasFramePointer then
    [.ADDI64ri sp sp (-16), .SD raReg sp 8,
      .SD s0 sp 0, .ADDI64ri s0 sp 16] else [])
        (StackTrace.entry .RiscV64) with ht
  set reserve : List FrameInst := if 0 < f.frame.layout.totalFrameSize then
    [.ADDI64ri sp sp (-(frameSize f.frame : ℤ))] else [] with hreserve
  have hreserved : (trace reserve t).known sp = some (-f.linkArea - f.reserved) ∧
      (∀ r, r ≠ sp → (trace reserve t).known r = t.known r) ∧
      (trace reserve t).writes = t.writes := by
    rw [hreserve]
    split
    · refine ⟨?_, ?_, rfl⟩
      · simp [FrameInst.trace, hentersp, hlink, reserved, hr]
      · intro r hne
        simp [FrameInst.trace, StackTrace.setKnown_of_ne hne]
    · next hzero =>
        have hzero' : f.frame.layout.totalFrameSize = 0 := by omega
        refine ⟨?_, fun _ _ => rfl, rfl⟩
        rw [trace_nil, hentersp, hlink, reserved, hr, frameSize, hzero']
        norm_num [immValue, alignMask]
  obtain ⟨hsp', hknown', hwrites'⟩ := trace_flatMap_saveReg f.pushed hreserved.1
  have htrace : f.prologueTrace = trace (f.pushed.flatMap saveReg) (trace reserve t) := by
    rw [prologueTrace, hr, insertPrologue, RiscV64.insertPrologue, trace_append,
      trace_append, hpushed]
  refine ⟨?_, ?_, ?_⟩
  · rw [htrace, hsp, hsp', hr]
    rfl
  · intro h
    rw [htrace, hfp, hknown' _ (by decide), hreserved.2.1 _ (by decide), henterfp h, hr]
    rfl
  · rw [htrace, hwrites', hreserved.2.2, henterwrites, linkWrites, hr]
    rfl

theorem traceSpec : f.TraceSpec := by
  cases h : f.conv.target with
  | X86_64 => exact traceSpec_x86 h
  | RiscV64 => exact traceSpec_riscv h

theorem onStack_insertPrologue (frame : LoweredFrame) (target : TargetArch) :
    ∀ i ∈ insertPrologue frame target, OnStack target i := by
  intro i hi
  cases target with
  | X86_64 =>
    simp only [insertPrologue, X86_64.insertPrologue, mem_append] at hi
    rcases hi with (hi | hi) | hi
    · split at hi
      · simp only [mem_cons, not_mem_nil, or_false] at hi
        rcases hi with rfl | rfl
        · rfl
        · exact (by decide : X86_64.rbp ≠ stackPointerReg .X86_64)
      · cases hi
    · split at hi
      · simp only [mem_append, mem_singleton] at hi
        rcases hi with hi | rfl
        · unfold probeCode at hi
          split at hi
          · obtain ⟨off, -, rfl⟩ := mem_map.mp hi
            exact (by decide : probeReg ≠ stackPointerReg .X86_64)
          · cases hi
        · exact id
      · cases hi
    · obtain ⟨r, -, rfl⟩ := mem_map.mp hi
      rfl
  | RiscV64 =>
    simp only [insertPrologue, RiscV64.insertPrologue, mem_append] at hi
    rcases hi with (hi | hi) | hi
    · split at hi
      · simp only [mem_cons, not_mem_nil, or_false] at hi
        rcases hi with rfl | rfl | rfl | rfl
        · exact id
        · rfl
        · rfl
        · exact fun _ => rfl
      · cases hi
    · split at hi
      · obtain rfl := mem_singleton.mp hi
        exact id
      · cases hi
    · obtain ⟨r, -, hi⟩ := mem_flatMap.mp hi
      simp only [RiscV64.saveReg, mem_cons, not_mem_nil, or_false] at hi
      rcases hi with rfl | rfl
      · exact id
      · split <;> rfl

theorem agrees_prologue (m : Cpu) : Agrees m (m.regs f.conv.spReg) f.prologueTrace
      (exec (insertPrologue f.frame f.conv.target) m) :=
  (Agrees.entry f.conv.target m).run
    (knownStores_of_onStack (onStack_insertPrologue _ _) (by simp [StackTrace.entry]))

/-- The prologue moves the stack pointer and writes the saved words, and no others. -/
theorem prologue_frame (m : Cpu) :
    let sp := m.regs f.conv.spReg
    let m' := exec (insertPrologue f.frame f.conv.target) m
    m'.regs f.conv.spReg = disp sp
        (-f.linkArea - f.reserved - (saveSize f.conv.target * f.pushed.length : ℕ)) ∧
      (f.hasFramePointer = true → m'.regs f.conv.fpReg = disp sp (fpDisp f.conv.target)) ∧
      ∀ a, (∀ p ∈ f.linkWrites ++
          slotWrites (saveSize f.conv.target) (-f.linkArea - f.reserved) f.pushed,
        ∀ i : ℕ, i < 8 → a ≠ disp (disp sp p.2) i) → m'.mem a = m.mem a := by
  intro sp m'
  have h := f.agrees_prologue m
  have hspec := f.traceSpec
  exact ⟨h.known _ _ hspec.sp, fun hfp => h.known _ _ (hspec.fp hfp),
    fun a ha => h.mem a (by rwa [hspec.writes])⟩

end FrameFunction

end EzPacker.Abi
