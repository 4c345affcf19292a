import EzPacker.Abi.FrameTrace

/-!
# When the places of a frame are disjoint

The local objects lie below one another from the area of the callee-saved registers
on, each rounded to its alignment. They know nothing of the words that the prologue
of RISC-V saves under the frame pointer, of bits that a size in bytes drops, of an
alignment above that of the stack, or of an immediate that does not carry the frame
size; and the pushes come to lie in the shadow space. These are all the ways in which
places of a frame meet.
-/

namespace EzPacker.Abi

open StackFrameObject Nat List

/-- A range of bytes, by its displacement from the entry stack pointer. -/
structure FramePlace where
  lo : ℤ
  size : ℕ

namespace FramePlace

def Has (p : FramePlace) (e : ℤ) : Prop := p.lo ≤ e ∧ e < p.lo + p.size

def Apart (p q : FramePlace) : Prop := ∀ e, ¬ (p.Has e ∧ q.Has e)

theorem apart_of_le {p q : FramePlace} (h : p.lo + p.size ≤ q.lo ∨ q.lo + q.size ≤ p.lo) :
    p.Apart q := by
  rintro e ⟨hp, hq⟩
  simp only [Has] at hp hq
  omega

end FramePlace

/-- The alignment of the type in bytes, 0 for none. -/
def StackFrameObject.alignBytes (obj : StackFrameObject) : ℕ :=
  (obj.type.maxAlignmentInBits + 7) / 8

namespace FrameFunction

variable (f : FrameFunction)

/-- The stack pointer behind the prologue. -/
def spAfter : ℤ := (f.prologueTrace.known f.conv.spReg).getD 0

/-- What the offsets of the objects are relative to. -/
def base : ℤ := (f.prologueTrace.known f.conv.fpReg).getD 0

def placedObjects : List (StackFrameObject × ℤ) :=
  f.objects.zip f.frame.layout.offsets

def placedLocals : List (StackFrameObject × ℤ) :=
  f.placedObjects.filter fun p => !p.1.isParameter

def localPlaces : List FramePlace :=
  f.placedLocals.map fun p => ⟨f.base + p.2, p.1.bytes⟩

/-- The words the prologue saves: on RISC-V the return address is one of them. -/
def savedPlaces : List FramePlace :=
  f.prologueTrace.writes.map fun w => ⟨w.2, 8⟩

/-- The shadow space for the calls of the function. -/
def shadowPlace : FramePlace := ⟨f.spAfter, f.conv.desc.shadowSpaceSize⟩

/-- The return address that the call instruction of x86-64 has pushed. -/
def returnPlaces : List FramePlace :=
  match f.conv.target with
  | .X86_64 => [⟨0, 8⟩]
  | .RiscV64 => []

/-- The layout and the prologue fit together. -/
structure IsDisjoint : Prop where
  apart : (f.returnPlaces ++ f.savedPlaces ++ f.localPlaces ++ [f.shadowPlace]).Pairwise
    FramePlace.Apart
  within : ∀ p ∈ f.savedPlaces ++ f.localPlaces ++ [f.shadowPlace], ∀ e, p.Has e →
    f.spAfter ≤ e ∧ e < 0
  /-- Given a stack pointer that is a multiple of 16 at the call instruction. -/
  aligned : ∀ entrySp : ℤ, 16 ∣ entrySp + frameTop f.conv.target →
    ∀ p ∈ f.placedLocals, p.1.alignBytes ≠ 0 → (p.1.alignBytes : ℤ) ∣ entrySp + (f.base + p.2)
  /-- Parameter objects are behind the return address and the shadow space of the
  caller. -/
  parameters : ∀ p ∈ f.placedObjects, p.1.isParameter = true →
    frameTop f.conv.target + f.conv.desc.shadowSpaceSize ≤ f.base + p.2

/-- The lowest of the bytes under the frame pointer that are taken before the
objects: the return address and s0 on RISC-V. -/
def takenUnderFp : TargetArch → ℕ
  | .X86_64 => 0
  | .RiscV64 => 16

/-- What an immediate of the frame size can carry, in multiples of the alignment. -/
def maxFrame : TargetArch → ℕ
  | .X86_64 => 2 ^ 31 - 16
  | .RiscV64 => 2048

/-- Every local object, put below `current` and rounded to its alignment, ends below
the bytes under the frame pointer that are taken. -/
def Roomy : (taken current : ℕ) → List StackFrameObject → Prop
  | _, _, [] => True
  | taken, current, obj :: objs =>
    if obj.isParameter then Roomy taken current objs
    else
      (obj.bytes = 0 ∨ taken + obj.bytes ≤ alignUp obj.objAlign
          (current + obj.type.getTotalSizeInBytes)) ∧
      Roomy (if obj.bytes = 0 then taken
          else alignUp obj.objAlign (current + obj.type.getTotalSizeInBytes))
        (alignUp obj.objAlign (current + obj.type.getTotalSizeInBytes)) objs

/-- The end of the local objects placed below `current`. -/
def localSpace : (current : ℕ) → List StackFrameObject → ℕ
  | current, [] => current
  | current, obj :: objs =>
    if obj.isParameter then localSpace current objs
    else localSpace (alignUp obj.objAlign (current + obj.type.getTotalSizeInBytes)) objs

/-- The condition on the objects and the saved registers of a function. -/
structure IsRoomy : Prop where
  aligned : ∀ obj ∈ f.objects, obj.isParameter = false → obj.alignBytes ≤ 16
  shadow : f.conv.desc.shadowSpaceSize = 0 ∨ f.pushed = []
  size : localSpace (f.used.length * 8) f.objects + f.conv.desc.shadowSpaceSize ≤
    maxFrame f.conv.target
  room : Roomy (takenUnderFp f.conv.target) (f.used.length * 8) f.objects

def localEnds : (current : ℕ) → List StackFrameObject → List (StackFrameObject × ℕ)
  | _, [] => []
  | current, obj :: objs =>
    if obj.isParameter then localEnds current objs
    else
      (obj, alignUp obj.objAlign (current + obj.type.getTotalSizeInBytes)) ::
        localEnds (alignUp obj.objAlign (current + obj.type.getTotalSizeInBytes)) objs

/-- The object ends below the bytes that are taken. -/
def ClearOf (taken : ℕ) (p : StackFrameObject × ℕ) : Prop :=
  p.1.bytes = 0 ∨ taken + p.1.bytes ≤ p.2

variable {f}

variable {obj : StackFrameObject}

theorem localAdvance_eq (hobj : obj.isParameter = false) (current : ℕ) :
    obj.localAdvance true current =
      alignUp obj.objAlign (current + obj.type.getTotalSizeInBytes) := by
  simp [localAdvance, hobj, alignMask_objAlign]

theorem layoutObjects_size_eq (incoming current : ℕ) (objs : List StackFrameObject) :
    (layoutObjects true incoming current objs).2 = localSpace current objs := by
  induction objs generalizing incoming current with
  | nil => rfl
  | cons obj objs ih =>
    cases hobj : obj.isParameter with
    | true =>
      have hadv : obj.localAdvance true current = current := by
        simp [localAdvance, hobj]
      simp only [layoutObjects, ih, hadv, localSpace, hobj, if_true]
    | false =>
      simp only [layoutObjects, ih, localAdvance_eq hobj, localSpace, hobj,
        Bool.false_eq_true, if_false]

theorem filter_layoutObjects (incoming current : ℕ) (objs : List StackFrameObject) :
    (objs.zip (layoutObjects true incoming current objs).1).filter (fun p => !p.1.isParameter) =
      (localEnds current objs).map fun p => (p.1, -(p.2 : ℤ)) := by
  induction objs generalizing incoming current with
  | nil => rfl
  | cons obj objs ih =>
    cases hobj : obj.isParameter with
    | true =>
      have hadv : obj.localAdvance true current = current := by
        simp [localAdvance, hobj]
      simp only [layoutObjects, zip_cons_cons, hadv, localEnds, hobj, if_true]
      rw [filter_cons_of_neg (by simp [hobj]), ih]
    | false =>
      simp only [layoutObjects, zip_cons_cons, localEnds, hobj,
        Bool.false_eq_true, if_false, map_cons]
      rw [filter_cons_of_pos (by simp [hobj]), ih, offset_local hobj, localAdvance_eq hobj]

theorem roomy_iff (objs : List StackFrameObject) (taken current : ℕ) : Roomy taken current objs ↔
      (∀ p ∈ localEnds current objs, ClearOf taken p) ∧ (localEnds current objs).Pairwise
          fun p q => p.1.bytes = 0 ∨ ClearOf p.2 q := by
  induction objs generalizing taken current with
  | nil => simp [Roomy, localEnds]
  | cons obj objs ih =>
    cases hobj : obj.isParameter with
    | true => simp only [Roomy, localEnds, hobj, if_true, ih]
    | false =>
      simp only [Roomy, localEnds, hobj, Bool.false_eq_true, if_false, ih,
        forall_mem_cons, pairwise_cons]
      generalize alignUp obj.objAlign (current + obj.type.getTotalSizeInBytes) = stop
      by_cases hbytes : obj.bytes = 0
      · simp [hbytes, ClearOf]
      · simp only [hbytes, if_false, false_or, ClearOf]
        constructor
        · rintro ⟨hhead, htail, hpair⟩
          refine ⟨⟨hhead, ?_⟩, htail, hpair⟩
          intro q hq
          rcases htail q hq with h | h
          · exact Or.inl h
          · right
            omega
        · rintro ⟨⟨hhead, -⟩, htail, hpair⟩
          exact ⟨hhead, htail, hpair⟩

variable {p : StackFrameObject × ℕ}

theorem localEnds_mem {objs : List StackFrameObject} {current : ℕ}
    (hp : p ∈ localEnds current objs) :
    p.1 ∈ objs ∧ p.1.isParameter = false ∧ p.1.objAlign ∣ p.2 ∧
      current ≤ p.2 ∧ p.2 ≤ localSpace current objs := by
  induction objs generalizing current with
  | nil => cases hp
  | cons obj objs ih =>
    have hspace : ∀ c os, c ≤ localSpace c os := by
      intro c os
      rw [← layoutObjects_size_eq 0, layoutObjects_size]
      exact le_place (le_localAdvance true) c os
    cases hobj : obj.isParameter with
    | true =>
      simp only [localEnds, hobj, if_true] at hp
      obtain ⟨hmem, hrest⟩ := ih hp
      simp only [localSpace, hobj, if_true]
      exact ⟨mem_cons_of_mem obj hmem, hrest⟩
    | false =>
      simp only [localEnds, hobj, Bool.false_eq_true, if_false] at hp
      simp only [localSpace, hobj, Bool.false_eq_true, if_false]
      have hle := alignUp.le_alignUp obj.objAlign (current + obj.type.getTotalSizeInBytes)
      rcases mem_cons.mp hp with rfl | hp
      · obtain ⟨k, hk⟩ := objAlign_eq_two_pow obj
        have hpos : obj.objAlign ≠ 0 := by
          rw [hk]
          exact (Nat.two_pow_pos k).ne'
        exact ⟨mem_cons_self, hobj, alignUp.dvd_alignUp hpos _, by omega, hspace _ _⟩
      · obtain ⟨hmem, hlocal, hdvd, hlo, hhi⟩ := ih hp
        exact ⟨mem_cons_of_mem obj hmem, hlocal, hdvd, by omega, hhi⟩

theorem placedLocals_eq : f.placedLocals =
      (localEnds (f.used.length * 8) f.objects).map fun p => (p.1, -(p.2 : ℤ)) := by
  have hgrows := growsDownwards f.conv
  rw [placedLocals, placedObjects, ← filter_layoutObjects (16 + f.conv.desc.shadowSpaceSize)]
  simp only [frame, lowerFrame, calculateFrameLayout, hgrows, stackSlotSize]

theorem allocSize_eq : f.allocSize = alignUp (2 ^ 4) (localSpace (f.used.length * 8) f.objects +
      f.conv.desc.shadowSpaceSize) := by
  have hmask : ∀ n, alignMask 16 n = alignUp (2 ^ 4) n := alignUp.mask_two_pow 4
  have halign := stackAlignment_eq f.conv
  have hgrows := growsDownwards f.conv
  have hframe : f.frame.layout.totalFrameSize =
      alignUp (2 ^ 4) (localSpace (f.used.length * 8) f.objects + f.conv.desc.shadowSpaceSize) := by
    simp only [frame, lowerFrame, calculateFrameLayout, hgrows, halign, stackSlotSize,
      layoutObjects_size_eq, alignUp.mask_two_pow]
  unfold allocSize
  cases f.conv.target with
  | X86_64 => exact hframe
  | RiscV64 =>
    simp only [RiscV64.frameSize, hmask, hframe]
    exact alignUp.of_dvd (alignUp.dvd_alignUp (by decide) _)

/-- The size of the frame reaches the stack pointer when its immediate carries it. -/
theorem reserved_of_le (h : f.allocSize ≤ maxFrame f.conv.target) : f.reserved = f.allocSize := by
  have hbmod : ∀ (w : ℕ) (z : ℤ), -2 ^ w ≤ z → z < 2 ^ w → immValue (w + 1) z = z := by
    intro w z hlo hhi
    apply Int.bmod_eq_of_le_mul_two <;> push_cast [pow_succ] <;> linarith
  unfold reserved allocSize at *
  cases htarget : f.conv.target with
  | X86_64 =>
    simp only [htarget, maxFrame] at h
    exact hbmod 31 _ (by omega) (by omega)
  | RiscV64 =>
    simp only [htarget, maxFrame] at h
    have himm := hbmod 11 (-(RiscV64.frameSize f.frame : ℤ)) (by omega) (by omega)
    simp only [himm, neg_neg]

variable {w : MirRegisterRef × ℤ}

theorem slotWrites_bounds (size : ℕ) (rs : List MirRegisterRef) {d : ℤ}
    (hw : w ∈ slotWrites size d rs) :
    d - (size * rs.length : ℕ) ≤ w.2 ∧ w.2 + size ≤ d := by
  induction rs generalizing d with
  | nil => cases hw
  | cons r rs ih =>
    rw [length_cons, mul_add, mul_one]
    rcases mem_cons.mp hw with rfl | hw
    · push_cast
      constructor
      · have hnonneg : (0 : ℤ) ≤ (size : ℤ) * rs.length := by positivity
        linarith
      · linarith
    · obtain ⟨hlo, hhi⟩ := ih hw
      push_cast at hlo ⊢
      constructor
      · linarith
      · have hnonneg : (0 : ℤ) ≤ size := by positivity
        linarith

theorem slotWrites_pairwise {size : ℕ} (hsize : 8 ≤ size) (rs : List MirRegisterRef)
    (d : ℤ) : (slotWrites size d rs).Pairwise fun v w => w.2 + 8 ≤ v.2 := by
  induction rs generalizing d with
  | nil => exact Pairwise.nil
  | cons r rs ih =>
    refine Pairwise.cons ?_ (ih _)
    intro w hw
    have hhi := (slotWrites_bounds size rs hw).2
    simp only
    linarith

/-- The last register saved is at the stack pointer. -/
theorem exists_slotWrites_last (size : ℕ) {rs : List MirRegisterRef} (hrs : rs ≠ [])
    (d : ℤ) : ∃ w ∈ slotWrites size d rs, w.2 = d - (size * rs.length : ℕ) := by
  induction rs generalizing d with
  | nil => exact absurd rfl hrs
  | cons r rs ih =>
    rcases eq_or_ne rs [] with rfl | hne
    · exact ⟨(r, d - size), by simp [slotWrites], by simp⟩
    · obtain ⟨w, hw, hlast⟩ := ih hne (d - size)
      refine ⟨w, mem_cons_of_mem _ hw, ?_⟩
      rw [hlast]
      push_cast [length_cons]
      ring

theorem linkWrites_bounds (hw : w ∈ f.linkWrites) : -(f.linkArea : ℤ) ≤ w.2 ∧ w.2 + 8 ≤ 0 := by
  unfold linkWrites at hw
  unfold linkArea
  split at hw
  · next hfp =>
      rw [if_pos hfp]
      cases htarget : f.conv.target <;> rw [htarget] at hw <;>
        simp only [mem_cons, not_mem_nil, or_false] at hw
      · subst hw
        decide
      · rcases hw with rfl | rfl <;> decide
  · cases hw

theorem linkWrites_pairwise : f.linkWrites.Pairwise fun v w => w.2 + 8 ≤ v.2 := by
  unfold linkWrites
  split
  · cases f.conv.target <;> simp
  · exact Pairwise.nil

theorem saveSize_ge (target : TargetArch) : 8 ≤ saveSize target := by
  cases target <;> decide

theorem spAfter_eq : f.spAfter =
      -f.linkArea - f.reserved - (saveSize f.conv.target * f.pushed.length : ℕ) := by
  rw [spAfter, traceSpec.sp]
  rfl

theorem base_eq (hfp : f.hasFramePointer = true) : f.base = fpDisp f.conv.target := by
  rw [base, traceSpec.fp hfp]
  rfl

theorem hasFramePointer_of_mem_objects (h : obj ∈ f.objects) : f.hasFramePointer = true := by
  change (!f.objects.isEmpty) = true
  cases hobj : f.objects with
  | nil => simp [hobj] at h
  | cons obj objs => rfl

/-- The words the prologue saves lie one below the other between the stack pointers. -/
theorem writes_bounds (hreserved : 0 ≤ f.reserved)
    (hw : w ∈ f.prologueTrace.writes) : f.spAfter ≤ w.2 ∧ w.2 + 8 ≤ 0 := by
  have hsave := saveSize_ge f.conv.target
  rw [traceSpec.writes, mem_append] at hw
  rw [spAfter_eq]
  rcases hw with hw | hw
  · have hbounds := linkWrites_bounds hw
    omega
  · have hbounds := slotWrites_bounds _ _ hw
    omega

theorem writes_pairwise (hreserved : 0 ≤ f.reserved) :
    f.prologueTrace.writes.Pairwise fun v w => w.2 + 8 ≤ v.2 := by
  have hsave := saveSize_ge f.conv.target
  rw [traceSpec.writes]
  refine pairwise_append.mpr ⟨linkWrites_pairwise, slotWrites_pairwise hsave _ _, ?_⟩
  intro v hv w hw
  have hlink := linkWrites_bounds hv
  have hslot := slotWrites_bounds _ _ hw
  omega

theorem localPlaces_eq : f.localPlaces = (localEnds (f.used.length * 8) f.objects).map
      fun p => ⟨f.base - p.2, p.1.bytes⟩ := by
  rw [localPlaces, placedLocals_eq, map_map]
  rfl

theorem takenUnderFp_eq (target : TargetArch) :
    (takenUnderFp target : ℤ) = linkSize target + fpDisp target := by
  cases target <;> rfl

theorem linkArea_of_framePointer (hfp : f.hasFramePointer = true) :
    f.linkArea = linkSize f.conv.target := by
  rw [linkArea, if_pos hfp]

theorem allocSize_le_of_size
    (h : localSpace (f.used.length * 8) f.objects + f.conv.desc.shadowSpaceSize ≤
      maxFrame f.conv.target) : f.allocSize ≤ maxFrame f.conv.target := by
  have hdvd : 2 ^ 4 ∣ maxFrame f.conv.target := by cases f.conv.target <;> decide
  rw [allocSize_eq, ← alignUp.of_dvd hdvd]
  exact alignUp.mono (2 ^ 4) h

theorem localSpace_le_allocSize :
    localSpace (f.used.length * 8) f.objects + f.conv.desc.shadowSpaceSize ≤ f.allocSize := by
  rw [allocSize_eq]
  exact alignUp.le_alignUp _ _

/-- A local object that has bytes lies between the saved registers, with the shadow
space under it, and the words saved at entry. -/
theorem localEnds_bounds (hroomy : f.IsRoomy)
    (hp : p ∈ localEnds (f.used.length * 8) f.objects) (hbytes : p.1.bytes ≠ 0) :
    -(f.linkArea + f.allocSize : ℤ) + f.conv.desc.shadowSpaceSize ≤ f.base - p.2 ∧
      f.base - p.2 + p.1.bytes ≤ -(f.linkArea : ℤ) := by
  obtain ⟨hmem, -, -, -, hend⟩ := localEnds_mem hp
  have hfp := hasFramePointer_of_mem_objects hmem
  have htaken := takenUnderFp_eq f.conv.target
  have hspace := localSpace_le_allocSize (f := f)
  have hroom := ((roomy_iff _ _ _).mp hroomy.room).1 p hp
  have hclear := hroom.resolve_left hbytes
  have htaken' : (0 : ℤ) ≤ takenUnderFp f.conv.target := by positivity
  rw [base_eq hfp, linkArea_of_framePointer hfp]
  omega

theorem apart_of_size_eq_zero {p q : FramePlace} (h : p.size = 0 ∨ q.size = 0) : p.Apart q := by
  rintro e ⟨hp, hq⟩
  simp only [FramePlace.Has] at hp hq
  omega

theorem localPlaces_pairwise (hroomy : f.IsRoomy) : f.localPlaces.Pairwise FramePlace.Apart := by
  rw [localPlaces_eq, pairwise_map]
  refine ((roomy_iff _ _ _).mp hroomy.room).2.imp ?_
  rintro p q (hp | hq | hle)
  · exact apart_of_size_eq_zero (Or.inl hp)
  · exact apart_of_size_eq_zero (Or.inr hq)
  · refine FramePlace.apart_of_le (Or.inr ?_)
    simp only
    omega

theorem savedPlaces_pairwise (hreserved : 0 ≤ f.reserved) :
    f.savedPlaces.Pairwise FramePlace.Apart := by
  rw [savedPlaces, pairwise_map]
  exact (writes_pairwise hreserved).imp fun h => FramePlace.apart_of_le (Or.inr h)

/-- A saved word is at the top of the frame or at its bottom. -/
theorem writes_cases (hreserved : f.reserved = f.allocSize) (hw : w ∈ f.prologueTrace.writes) :
    -(f.linkArea : ℤ) ≤ w.2 ∨ (f.pushed ≠ [] ∧ w.2 + 8 ≤ -(f.linkArea + f.allocSize : ℤ)) := by
  have hsave := saveSize_ge f.conv.target
  rw [traceSpec.writes, mem_append] at hw
  rcases hw with hw | hw
  · exact Or.inl (linkWrites_bounds hw).1
  · right
    refine ⟨?_, ?_⟩
    · intro hnil
      rw [hnil] at hw
      cases hw
    · have hbounds := slotWrites_bounds _ _ hw
      omega

theorem alignBytes_eq_two_pow (h : obj.alignBytes ≠ 0) :
    ∃ j, obj.alignBytes = 2 ^ j ∧ obj.objAlign = 2 ^ max j 3 := by
  rcases obj.type.alignment with hzero | ⟨k, hk⟩
  · simp [alignBytes, hzero] at h
  · rcases Nat.lt_or_ge k 4 with hlt | hge
    · refine ⟨0, ?_⟩
      rw [alignBytes, objAlign, hk, stackSlotSize]
      interval_cases k <;> decide
    · obtain ⟨i, rfl⟩ := Nat.exists_eq_add_of_le hge
      have hpow : 2 ^ (4 + i) = 8 * 2 ^ (1 + i) := by
        rw [show 4 + i = 3 + (1 + i) by omega, Nat.pow_add]
      have hbytes : (2 ^ (4 + i) + 7) / 8 = 2 ^ (1 + i) := by
        rw [hpow]
        omega
      refine ⟨1 + i, ?_, ?_⟩
      · rw [alignBytes, hk, hbytes]
      · rw [objAlign, hk, hbytes, stackSlotSize]
        rcases Nat.lt_or_ge (1 + i) 3 with hi | hi
        · have hle : 2 ^ (1 + i) ≤ 2 ^ 3 := Nat.pow_le_pow_right (by decide) hi.le
          rw [max_eq_right hi.le]
          exact max_eq_right hle
        · have hle : 2 ^ 3 ≤ 2 ^ (1 + i) := Nat.pow_le_pow_right (by decide) hi
          rw [max_eq_left hi]
          exact max_eq_left hle

theorem alignBytes_dvd_objAlign (h : obj.alignBytes ≠ 0) : obj.alignBytes ∣ obj.objAlign := by
  obtain ⟨j, hj, hobj⟩ := alignBytes_eq_two_pow h
  rw [hj, hobj]
  exact pow_dvd_pow 2 (le_max_left j 3)

theorem alignBytes_dvd_sixteen (h : obj.alignBytes ≠ 0)
    (hle : obj.alignBytes ≤ 16) : obj.alignBytes ∣ 16 := by
  obtain ⟨j, hj, -⟩ := alignBytes_eq_two_pow h
  rw [hj] at hle ⊢
  have hj4 : j ≤ 4 := by
    by_contra hcontra
    have hpow : 2 ^ 5 ≤ 2 ^ j := Nat.pow_le_pow_right (by decide) (by omega)
    omega
  exact pow_dvd_pow 2 hj4

theorem dvd_base_iff (entrySp : ℤ) (hfp : f.hasFramePointer = true) :
    (16 : ℤ) ∣ entrySp + frameTop f.conv.target ↔ (16 : ℤ) ∣ entrySp + f.base := by
  rw [base_eq hfp]
  cases f.conv.target with
  | X86_64 =>
    simp only [frameTop, fpDisp]
    omega
  | RiscV64 =>
    simp only [frameTop, fpDisp]

theorem aligned_of_isRoomy (hroomy : f.IsRoomy) (entrySp : ℤ)
    (hsp : 16 ∣ entrySp + frameTop f.conv.target) :
    ∀ p ∈ f.placedLocals, p.1.alignBytes ≠ 0 → (p.1.alignBytes : ℤ) ∣ entrySp + (f.base + p.2) := by
  intro p hp hne
  rw [placedLocals_eq] at hp
  obtain ⟨q, hq, rfl⟩ := mem_map.mp hp
  obtain ⟨hmem, hlocal, hdvd, -, -⟩ := localEnds_mem hq
  have hsixteen := alignBytes_dvd_sixteen hne (hroomy.aligned _ hmem hlocal)
  have hbase := (dvd_base_iff entrySp (hasFramePointer_of_mem_objects hmem)).mp hsp
  have hend : (q.1.alignBytes : ℤ) ∣ (q.2 : ℤ) :=
    Int.natCast_dvd_natCast.mpr ((alignBytes_dvd_objAlign hne).trans hdvd)
  have hfirst : (q.1.alignBytes : ℤ) ∣ entrySp + f.base :=
    (Int.natCast_dvd_natCast.mpr hsixteen).trans hbase
  have hsum := hfirst.sub hend
  simpa [add_assoc, sub_eq_add_neg] using hsum

/-- A Parameter object is above the offset the walk starts with. -/
theorem layoutObjects_parameter_ge (growsDown : Bool) (objs : List StackFrameObject)
    (incoming current : ℕ) {p : StackFrameObject × ℤ}
    (hp : p ∈ objs.zip (layoutObjects growsDown incoming current objs).1)
    (hparam : p.1.isParameter = true) : (incoming : ℤ) ≤ p.2 := by
  induction objs generalizing incoming current with
  | nil => simp at hp
  | cons obj objs ih =>
    rcases mem_cons.mp hp with rfl | hp
    · have hle := alignUp.le_alignUp obj.objAlign incoming
      have hoff : obj.offset growsDown incoming current =
          (alignMask obj.objAlign incoming : ℕ) := by
        have hobj : obj.isParameter = true := hparam
        simp [offset, hobj]
      simp only [hoff, alignMask_objAlign]
      exact_mod_cast hle
    · have hle := le_incomingAdvance obj incoming
      have htail := ih _ _ hp
      omega

theorem parameters_above : ∀ p ∈ f.placedObjects, p.1.isParameter = true →
      frameTop f.conv.target + f.conv.desc.shadowSpaceSize ≤ f.base + p.2 := by
  intro p hp hparam
  have hfp := hasFramePointer_of_mem_objects (of_mem_zip hp).1
  have hge := layoutObjects_parameter_ge _ f.objects _ _ hp hparam
  rw [base_eq hfp]
  cases f.conv.target <;> simp only [frameTop, fpDisp] <;> omega

theorem isDisjoint_of_isRoomy (hroomy : f.IsRoomy) : f.IsDisjoint := by
  have hreserved := reserved_of_le (allocSize_le_of_size hroomy.size)
  have hnonneg : 0 ≤ f.reserved := by omega
  have hspace := localSpace_le_allocSize (f := f)
  have hsp := spAfter_eq (f := f)
  have hlocal : ∀ q ∈ f.localPlaces, q.size ≠ 0 →
      -(f.linkArea + f.allocSize : ℤ) + f.conv.desc.shadowSpaceSize ≤ q.lo ∧
        q.lo + q.size ≤ -(f.linkArea : ℤ) := by
    intro q hq hbytes
    rw [localPlaces_eq] at hq
    obtain ⟨p, hp, rfl⟩ := mem_map.mp hq
    exact localEnds_bounds hroomy hp hbytes
  have hsaved : ∀ q ∈ f.savedPlaces, q.size = 8 ∧ f.spAfter ≤ q.lo ∧ q.lo + 8 ≤ 0 ∧
      (-(f.linkArea : ℤ) ≤ q.lo ∨
        (f.pushed ≠ [] ∧ q.lo + 8 ≤ -(f.linkArea + f.allocSize : ℤ))) := by
    intro q hq
    obtain ⟨w, hw, rfl⟩ := mem_map.mp hq
    obtain ⟨hlo, hhi⟩ := writes_bounds hnonneg hw
    exact ⟨rfl, hlo, hhi, writes_cases hreserved hw⟩
  have hreturn : ∀ q ∈ f.returnPlaces, 0 ≤ q.lo := by
    intro q hq
    unfold returnPlaces at hq
    cases htarget : f.conv.target <;> rw [htarget] at hq <;>
      simp only [mem_cons, not_mem_nil, or_false] at hq
    subst hq
    exact le_rfl
  have hshadowlo : f.shadowPlace.lo = f.spAfter := rfl
  have hshadowsize : f.shadowPlace.size = f.conv.desc.shadowSpaceSize := rfl
  have hshadow : ∀ q, (q ∈ f.savedPlaces ∨ q ∈ f.localPlaces) → q.Apart f.shadowPlace := by
    intro q hq
    rcases hroomy.shadow with hzero | hnil
    · exact apart_of_size_eq_zero (Or.inr hzero)
    · by_cases hbytes : q.size = 0
      · exact apart_of_size_eq_zero (Or.inl hbytes)
      · have hsp' : f.spAfter = -f.linkArea - f.allocSize := by
          rw [hsp, hreserved, hnil]
          simp
        apply FramePlace.apart_of_le
        rw [hshadowlo, hshadowsize]
        rcases hq with hq | hq
        · obtain ⟨-, -, -, hcases⟩ := hsaved q hq
          rcases hcases with h | ⟨h, -⟩
          · omega
          · exact absurd hnil h
        · have hbounds := hlocal q hq hbytes
          omega
  refine ⟨?_, ?_, ?_, ?_⟩
  · simp only [pairwise_append, mem_append]
    refine ⟨⟨⟨?_, savedPlaces_pairwise hnonneg, ?_⟩, localPlaces_pairwise hroomy, ?_⟩,
      pairwise_singleton _ _, ?_⟩
    · unfold returnPlaces
      cases f.conv.target <;> simp
    · intro p hp q hq
      obtain ⟨hsize, -, hhi, -⟩ := hsaved q hq
      have hlo := hreturn p hp
      exact FramePlace.apart_of_le (Or.inr (by omega))
    · intro p hp q hq
      by_cases hbytes : q.size = 0
      · exact apart_of_size_eq_zero (Or.inr hbytes)
      · have hbounds := hlocal q hq hbytes
        apply FramePlace.apart_of_le
        rcases hp with hp | hp
        · have hlo := hreturn p hp
          omega
        · obtain ⟨hsize, -, -, hcases⟩ := hsaved p hp
          omega
    · intro p hp q hq
      rw [mem_singleton] at hq
      subst hq
      rcases hp with (hp | hp) | hp
      · have hlo := hreturn p hp
        apply FramePlace.apart_of_le
        rw [hshadowlo, hshadowsize]
        rcases hroomy.shadow with h | h
        · omega
        · rw [h, length_nil] at hsp
          omega
      · exact hshadow p (Or.inl hp)
      · exact hshadow p (Or.inr hp)
  · intro p hp e he
    simp only [FramePlace.Has] at he
    simp only [mem_append, mem_singleton] at hp
    rcases hp with (hp | hp) | rfl
    · obtain ⟨hsize, hlo, hhi, -⟩ := hsaved p hp
      omega
    · have hbounds := hlocal p hp (by omega)
      omega
    · rw [hshadowlo, hshadowsize] at he
      rcases hroomy.shadow with h | h
      · omega
      · rw [h, length_nil] at hsp
        omega
  · exact aligned_of_isRoomy hroomy
  · exact parameters_above

theorem mem_localPlaces (hp : p ∈ localEnds (f.used.length * 8) f.objects) :
    ⟨f.base - p.2, p.1.bytes⟩ ∈ f.localPlaces := by
  rw [localPlaces_eq]
  exact mem_map.mpr ⟨p, hp, rfl⟩

theorem exists_localEnds {objs : List StackFrameObject}
    (hobj : obj ∈ objs) (hlocal : obj.isParameter = false) (current : ℕ) :
    ∃ stop, (obj, stop) ∈ localEnds current objs := by
  induction objs generalizing current with
  | nil => cases hobj
  | cons o objs ih =>
    cases ho : o.isParameter with
    | true =>
      have htail : obj ∈ objs := by
        rcases mem_cons.mp hobj with rfl | h
        · rw [hlocal] at ho
          cases ho
        · exact h
      simpa only [localEnds, ho, if_true] using ih htail current
    | false =>
      simp only [localEnds, ho, Bool.false_eq_true, if_false, mem_cons]
      rcases mem_cons.mp hobj with rfl | h
      · exact ⟨_, Or.inl rfl⟩
      · obtain ⟨stop, hstop⟩ := ih h _
        exact ⟨stop, Or.inr hstop⟩

theorem alignBytes_le_of_isDisjoint (h : f.IsDisjoint)
    (hobj : obj ∈ f.objects) (hlocal : obj.isParameter = false) : obj.alignBytes ≤ 16 := by
  obtain ⟨stop, hstop⟩ := exists_localEnds hobj hlocal (f.used.length * 8)
  by_cases hne : obj.alignBytes = 0
  · omega
  · have hp : (obj, -(stop : ℤ)) ∈ f.placedLocals := by
      rw [placedLocals_eq]
      exact mem_map.mpr ⟨_, hstop, rfl⟩
    have hlow := h.aligned (-frameTop f.conv.target) (by simp) _ hp hne
    have hhigh := h.aligned (16 - frameTop f.conv.target) (by simp) _ hp hne
    have hdiff := hhigh.sub hlow
    have hsixteen : (16 - frameTop f.conv.target + (f.base + -(stop : ℤ))) -
        (-frameTop f.conv.target + (f.base + -(stop : ℤ))) = 16 := by ring
    simp only at hdiff
    rw [hsixteen] at hdiff
    have hdvd : obj.alignBytes ∣ 16 := by exact_mod_cast hdiff
    exact le_of_dvd (by decide) hdvd

theorem shadow_of_isDisjoint (h : f.IsDisjoint) :
    f.conv.desc.shadowSpaceSize = 0 ∨ f.pushed = [] := by
  by_contra hcontra
  rw [not_or] at hcontra
  obtain ⟨hsize, hpushed⟩ := hcontra
  obtain ⟨w, hw, hlast⟩ := exists_slotWrites_last (saveSize f.conv.target) hpushed
    (-f.linkArea - f.reserved)
  have hmem : ⟨w.2, 8⟩ ∈ f.savedPlaces := by
    refine mem_map.mpr ⟨w, ?_, rfl⟩
    rw [traceSpec.writes]
    exact mem_append_right _ hw
  have hapart := (pairwise_append.mp h.apart).2.2 _
    (mem_append_left _ (mem_append_right _ hmem)) f.shadowPlace (by simp)
  apply hapart f.spAfter
  rw [← spAfter_eq] at hlast
  simp only [FramePlace.Has, shadowPlace, hlast]
  omega

theorem exists_linkWrite (hfp : f.hasFramePointer = true) {e : ℤ}
    (hlo : -(f.linkArea : ℤ) ≤ e) (hhi : e < 0) :
    ∃ w ∈ f.linkWrites, w.2 ≤ e ∧ e < w.2 + 8 := by
  rw [linkArea_of_framePointer hfp] at hlo
  rw [linkWrites, if_pos hfp]
  cases htarget : f.conv.target with
  | X86_64 =>
    rw [htarget, linkSize] at hlo
    exact ⟨_, mem_cons_self, by omega, by omega⟩
  | RiscV64 =>
    rw [htarget, linkSize] at hlo
    rcases lt_or_ge e (-8) with h | h
    · exact ⟨_, mem_cons_of_mem _ mem_cons_self, by omega, by omega⟩
    · exact ⟨_, mem_cons_self, by omega, by omega⟩

/-- The highest byte of a local object is below the words saved at entry. -/
theorem clearOf_of_isDisjoint (h : f.IsDisjoint)
    (hp : p ∈ localEnds (f.used.length * 8) f.objects) :
    ClearOf (takenUnderFp f.conv.target) p := by
  by_contra hcontra
  rw [ClearOf, not_or] at hcontra
  obtain ⟨hbytes, hlt⟩ := hcontra
  have hfp := hasFramePointer_of_mem_objects (localEnds_mem hp).1
  have htaken := takenUnderFp_eq f.conv.target
  have hmem := mem_localPlaces hp
  have htop : FramePlace.Has ⟨f.base - p.2, p.1.bytes⟩ (f.base - p.2 + p.1.bytes - 1) := by
    simp only [FramePlace.Has]
    omega
  have hneg := (h.within _ (mem_append_left _ (mem_append_right _ hmem)) _ htop).2
  obtain ⟨w, hw, hlo, hhi⟩ := exists_linkWrite (f := f) hfp (e := f.base - p.2 + p.1.bytes - 1)
    (by rw [linkArea_of_framePointer hfp, base_eq hfp]; omega) hneg
  have hsaved : ⟨w.2, 8⟩ ∈ f.savedPlaces := by
    refine mem_map.mpr ⟨w, ?_, rfl⟩
    rw [traceSpec.writes]
    exact mem_append_left _ hw
  have hapart := (pairwise_append.mp (pairwise_append.mp h.apart).1).2.2 _
    (mem_append_right _ hsaved) _ hmem
  exact hapart _ ⟨⟨hlo, hhi⟩, htop⟩

theorem localEnds_sorted (objs : List StackFrameObject) (current : ℕ) :
    (localEnds current objs).Pairwise fun p q => p.2 ≤ q.2 := by
  induction objs generalizing current with
  | nil => exact Pairwise.nil
  | cons obj objs ih =>
    cases hobj : obj.isParameter with
    | true => simpa only [localEnds, hobj, if_true] using ih current
    | false =>
      simp only [localEnds, hobj, Bool.false_eq_true, if_false]
      exact Pairwise.cons (fun q hq => (localEnds_mem hq).2.2.2.1) (ih _)

theorem roomy_of_isDisjoint (h : f.IsDisjoint) :
    Roomy (takenUnderFp f.conv.target) (f.used.length * 8) f.objects := by
  rw [roomy_iff]
  refine ⟨fun p hp => clearOf_of_isDisjoint h hp, ?_⟩
  have hlocals := (pairwise_append.mp (pairwise_append.mp h.apart).1).2.1
  rw [localPlaces_eq, pairwise_map] at hlocals
  refine (hlocals.and (localEnds_sorted _ _)).imp ?_
  rintro p q ⟨hapart, hle⟩
  by_cases hp : p.1.bytes = 0
  · exact Or.inl hp
  · right
    by_cases hq : q.1.bytes = 0
    · exact Or.inl hq
    · right
      by_contra hlt
      apply hapart (f.base - p.2)
      simp only [FramePlace.Has]
      omega

theorem objAlign_dvd_sixteen (hle : obj.alignBytes ≤ 16) : obj.objAlign ∣ 16 := by
  by_cases hne : obj.alignBytes = 0
  · have halign : obj.objAlign = 8 := by
      rw [alignBytes] at hne
      rw [objAlign, hne, stackSlotSize]
      rfl
    rw [halign]
    decide
  · obtain ⟨j, hj, hobj⟩ := alignBytes_eq_two_pow hne
    have hdvd := alignBytes_dvd_sixteen hne hle
    rw [hj] at hdvd
    have hj4 : j ≤ 4 := (pow_dvd_pow_iff_le_right (by decide)).mp hdvd
    rw [hobj]
    exact pow_dvd_pow 2 (max_le hj4 (by decide))

theorem localSpace_le (objs : List StackFrameObject) (current : ℕ)
    (halign : ∀ obj ∈ objs, obj.isParameter = false → obj.alignBytes ≤ 16) :
    localSpace current objs ≤ alignUp 16 current ∨ ∃ p ∈ localEnds current objs, p.1.bytes ≠ 0 ∧
        localSpace current objs ≤ alignUp 16 p.2 := by
  induction objs generalizing current with
  | nil => exact Or.inl (alignUp.le_alignUp 16 current)
  | cons obj objs ih =>
    have htail := fun c => ih c fun o ho => halign o (mem_cons_of_mem obj ho)
    cases hobj : obj.isParameter with
    | true => simpa only [localSpace, localEnds, hobj, if_true] using htail current
    | false =>
      simp only [localSpace, localEnds, hobj, Bool.false_eq_true, if_false,
        mem_cons, exists_eq_or_imp]
      rcases htail (alignUp obj.objAlign
        (current + obj.type.getTotalSizeInBytes)) with hle | ⟨p, hp, hrest⟩
      · by_cases hbytes : obj.bytes = 0
        · left
          have hzero : obj.type.getTotalSizeInBytes = 0 := by
            simp only [bytes, Mir.MirType.getTotalSizeInBytes] at *
            omega
          have hdvd := objAlign_dvd_sixteen (halign obj mem_cons_self hobj)
          have hstop : alignUp obj.objAlign current ≤ alignUp 16 current :=
            alignUp.le_of_dvd_of_le (hdvd.trans (alignUp.dvd_alignUp (by decide) current))
              (alignUp.le_alignUp 16 current)
          rw [hzero, add_zero] at hle ⊢
          exact hle.trans (alignUp.le_of_dvd_of_le (alignUp.dvd_alignUp (by decide) current) hstop)
        · exact Or.inr (Or.inl ⟨hbytes, hle⟩)
      · exact Or.inr (Or.inr ⟨p, hp, hrest⟩)

/-- What an immediate of the frame size loses when it does not carry it. -/
def immRange : TargetArch → ℕ
  | .X86_64 => 2 ^ 32
  | .RiscV64 => 2 ^ 12

theorem reserved_of_gt (h : maxFrame f.conv.target < f.allocSize) :
    f.reserved ≤ f.allocSize - immRange f.conv.target := by
  have hdvd : 16 ∣ f.allocSize := by
    rw [allocSize_eq]
    exact alignUp.dvd_alignUp (by decide) _
  unfold reserved allocSize immValue at *
  cases htarget : f.conv.target with
  | X86_64 =>
    simp only [htarget, maxFrame] at h hdvd
    have hdiv := Int.bmod_add_bdiv (f.frame.layout.totalFrameSize : ℤ) (2 ^ 32)
    have hlt := Int.bmod_lt (x := (f.frame.layout.totalFrameSize : ℤ)) (m := 2 ^ 32) (by decide)
    simp only [immRange]
    omega
  | RiscV64 =>
    simp only [htarget, maxFrame] at h hdvd
    have hdiv := Int.bmod_add_bdiv (-(RiscV64.frameSize f.frame : ℤ)) (2 ^ 12)
    have hle := Int.le_bmod (x := -(RiscV64.frameSize f.frame : ℤ)) (m := 2 ^ 12) (by decide)
    simp only [immRange]
    omega

/-- A frame whose size the immediate does not carry is too short for its locals. -/
theorem size_of_isDisjoint (h : f.IsDisjoint) :
    localSpace (f.used.length * 8) f.objects + f.conv.desc.shadowSpaceSize ≤
      maxFrame f.conv.target := by
  by_contra hcontra
  have hspace := localSpace_le_allocSize (f := f)
  have hreserved := reserved_of_gt (f := f) (by omega)
  have hshadow : f.conv.desc.shadowSpaceSize ≤ 32 := by cases f.conv <;> decide
  have hrange : maxFrame f.conv.target + 2048 ≤ immRange f.conv.target ∧
      2048 ≤ maxFrame f.conv.target := by
    cases f.conv.target <;> decide
  have hused := length_used_le (f := f)
  have hpushed := length_pushed_lt (f := f)
  have hup : ∀ n, alignUp 16 n < n + 16 := alignUp.lt_add (by decide)
  rcases localSpace_le f.objects (f.used.length * 8)
      (fun obj hobj hlocal => alignBytes_le_of_isDisjoint h hobj hlocal)
    with hle | ⟨p, hp, hbytes, hle⟩
  · have hlt := hup (f.used.length * 8)
    omega
  · have hlt := hup p.2
    have hfp := hasFramePointer_of_mem_objects (localEnds_mem hp).1
    have hlow : f.spAfter ≤ f.base - p.2 :=
      (h.within _ (mem_append_left _ (mem_append_right _ (mem_localPlaces hp)))
        (f.base - p.2) (by simp only [FramePlace.Has]; omega)).1
    have halloc : f.allocSize < localSpace (f.used.length * 8) f.objects +
        f.conv.desc.shadowSpaceSize + 16 := by
      rw [allocSize_eq]
      exact hup _
    have htaken := takenUnderFp_eq f.conv.target
    have htaken' : takenUnderFp f.conv.target ≤ 16 := by cases f.conv.target <;> decide
    rw [spAfter_eq, base_eq hfp, linkArea_of_framePointer hfp] at hlow
    omega

/-- The places of a frame are disjoint exactly when its locals leave room. -/
theorem isDisjoint_iff_isRoomy : f.IsDisjoint ↔ f.IsRoomy := by
  constructor
  · intro h
    exact ⟨fun obj hobj hlocal => alignBytes_le_of_isDisjoint h hobj hlocal,
      shadow_of_isDisjoint h, size_of_isDisjoint h, roomy_of_isDisjoint h⟩
  · exact isDisjoint_of_isRoomy

/-- A RISC-V function with one local of eight bytes and no saved register. -/
def spilling : FrameFunction where
  conv := .LP64D
  objects := [⟨⟨.Integer, 0, 0, 64, 64, Mir.MirType.wordAlignment⟩, .Variable⟩]
  used := []
  blocks := [[.ret]]
  used_preserved := preserved_nil .LP64D
  used_nodup := nodup_nil
  defs_assignable := by decide
  callee_target := by simp

/-- Its local is the word of the saved return address. -/
theorem local_over_return_address : ¬ ∀ f : FrameFunction, f.IsDisjoint := by
  intro h
  have hclear := clearOf_of_isDisjoint (h spilling)
    (p := (⟨⟨.Integer, 0, 0, 64, 64, Mir.MirType.wordAlignment⟩, .Variable⟩, 8)) (by decide)
  revert hclear
  unfold ClearOf
  decide

end FrameFunction

end EzPacker.Abi
