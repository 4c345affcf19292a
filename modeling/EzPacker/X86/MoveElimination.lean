import EzPacker.X86.SelectedCode

/-!
# The elimination of moves

What `optimizeBlock` erases of code that has no jumps and no memory operands: moves of a register to
itself, and moves back. It goes on while it erases something, sixteen times at most. Of a division
it leaves all but some of the moves.
-/

namespace EzPacker.X86

open SelectedInst List Mir RegAlloc
open Peephole (isMoveInstruction isReciprocal stopsScan scanReciprocal tryEliminateReciprocalMove)

/-- A pass over the instructions, of which there are at most as many as the first argument says. -/
def visitMoves : ℕ → List SelectedInst → List SelectedInst
  | 0, insts => insts
  | _, [] => []
  | n + 1, inst :: rest =>
    if inst.isRedundantCopy then visitMoves n rest
    else
      match tryEliminateReciprocalMove inst.mir (rest.map SelectedInst.mir) with
      -- the iterator stands on the instruction that is erased, and the pass ends
      | some ([], _, _) => inst :: rest.tail
      | some (mid, _, _) => inst :: visitMoves n (rest.eraseIdx mid.length)
      | none => inst :: visitMoves n rest

def optimizeMoves : ℕ → List SelectedInst → List SelectedInst
  | 0, insts => insts
  | n + 1, insts =>
    let visited := visitMoves insts.length insts
    if visited.length = insts.length then visited else optimizeMoves n visited

def optimizeBlock (insts : List SelectedInst) : List SelectedInst := optimizeMoves 16 insts

/-- The instructions without the one that takes the value back. -/
def eraseReciprocal (dst src : MirRegisterRef) : List SelectedInst → List SelectedInst
  | [] => []
  | inst :: rest =>
    if isReciprocal dst src inst.mir then rest
    else if stopsScan dst src inst.mir then inst :: rest
    else inst :: eraseReciprocal dst src rest

variable {insts : List SelectedInst}

section

variable {dst src : MirRegisterRef} {inst : SelectedInst} {rest : List SelectedInst}

theorem eraseReciprocal_of_some {seen mid tail : List MirInstruction} {cur : MirInstruction}
    (h : scanReciprocal dst src seen (rest.map SelectedInst.mir) = some (mid, cur, tail)) :
    ∃ k, mid.length = seen.length + k ∧ eraseReciprocal dst src rest = rest.eraseIdx k := by
  induction rest generalizing seen with
  | nil => cases h
  | cons inst rest ih =>
    rw [map_cons] at h
    unfold scanReciprocal at h
    unfold eraseReciprocal
    split at h
    · next hfound =>
        cases h
        exact ⟨0, rfl, if_pos hfound⟩
    · next hfound =>
        rw [if_neg hfound]
        split at h
        · cases h
        · next hstop =>
            obtain ⟨k, hlength, herase⟩ := ih h
            rw [length_append] at hlength
            refine ⟨k + 1, by rw [hlength, length_singleton]; omega, ?_⟩
            rw [if_neg hstop, herase, eraseIdx_cons_succ]

theorem eraseReciprocal_of_none {seen : List MirInstruction}
    (h : scanReciprocal dst src seen (rest.map SelectedInst.mir) = none) :
    eraseReciprocal dst src rest = rest := by
  induction rest generalizing seen with
  | nil => rfl
  | cons inst rest ih =>
    rw [map_cons] at h
    unfold scanReciprocal at h
    unfold eraseReciprocal
    split at h
    · cases h
    · next hfound =>
        rw [if_neg hfound]
        split at h
        · next hstop => exact if_pos hstop
        · next hstop => rw [if_neg hstop, ih h]

theorem visitMoves_nil (n : ℕ) : visitMoves n [] = [] := by cases n <;> rfl

theorem visitMoves_copy (n : ℕ) (h : inst.isRedundantCopy = true) :
    visitMoves (n + 1) (inst :: rest) = visitMoves n rest := if_pos h

theorem visitMoves_other (n : ℕ) (h : isMoveInstruction inst.mir = none) :
    visitMoves (n + 1) (inst :: rest) = inst :: visitMoves n rest := by
  have hcopy : inst.isRedundantCopy = false := by rw [isRedundantCopy, h]
  have hnone : tryEliminateReciprocalMove inst.mir (rest.map mir) = none := by
    rw [tryEliminateReciprocalMove, h]
  rw [visitMoves, hcopy, hnone]
  rfl

/-- A move stays, and the first move back behind it does not. -/
theorem visitMoves_move (n : ℕ) (rest : List SelectedInst)
    (h : isMoveInstruction inst.mir = some (dst, src)) (hcopy : inst.isRedundantCopy = false) :
    ∃ m, visitMoves (n + 1) (inst :: rest) =
      inst :: visitMoves m (eraseReciprocal dst src rest) := by
  have hscan : tryEliminateReciprocalMove inst.mir (rest.map mir) =
      scanReciprocal dst src [] (rest.map mir) := by
    rw [tryEliminateReciprocalMove, h]
  rw [visitMoves, hcopy, hscan]
  cases hresult : scanReciprocal dst src [] (rest.map mir) with
  | none =>
    rw [eraseReciprocal_of_none hresult]
    exact ⟨n, rfl⟩
  | some found =>
    obtain ⟨mid, cur, tail⟩ := found
    obtain ⟨k, hlength, herase⟩ := eraseReciprocal_of_some hresult
    rw [herase]
    cases mid with
    | nil =>
      obtain rfl : k = 0 := by simpa using hlength.symm
      refine ⟨0, ?_⟩
      show inst :: rest.tail = inst :: rest.eraseIdx 0
      rw [eraseIdx_zero]
    | cons inst' mid =>
      obtain rfl : (inst' :: mid).length = k := by simpa using hlength
      exact ⟨n, rfl⟩

variable {front : List SelectedInst}

/-- Code without moves stays as it is. -/
theorem visitMoves_append (rest : List SelectedInst)
    (hfront : ∀ k ∈ front, isMoveInstruction k.mir = none) (n : ℕ) :
    ∃ m, visitMoves n (front ++ rest) = front ++ visitMoves m rest := by
  induction front generalizing n with
  | nil => exact ⟨n, rfl⟩
  | cons k front ih =>
    cases n with
    | zero => exact ⟨0, rfl⟩
    | succ n =>
      obtain ⟨m, hm⟩ := ih (fun j hj => hfront j (mem_cons_of_mem k hj)) n
      refine ⟨m, ?_⟩
      rw [cons_append, visitMoves_other n (hfront k mem_cons_self), hm]
      rfl

theorem eraseReciprocal_append (rest : List SelectedInst)
    (hfront : ∀ k ∈ front, isReciprocal dst src k.mir = false) :
    eraseReciprocal dst src (front ++ rest) = front ++ rest ∨
      (∀ k ∈ front, stopsScan dst src k.mir = false) ∧
        eraseReciprocal dst src (front ++ rest) = front ++ eraseReciprocal dst src rest := by
  induction front with
  | nil => exact .inr ⟨nofun, rfl⟩
  | cons k front ih =>
    have hk := hfront k mem_cons_self
    rw [cons_append, eraseReciprocal, if_neg (Bool.eq_false_iff.mp hk)]
    by_cases hstop : stopsScan dst src k.mir = true
    · exact .inl (if_pos hstop)
    · rw [if_neg hstop]
      rcases ih (fun j hj => hfront j (mem_cons_of_mem k hj)) with heq | ⟨hpassed, heq⟩
      · exact .inl (congrArg (k :: ·) heq)
      · refine .inr ⟨?_, congrArg (k :: ·) heq⟩
        intro j hj
        rcases mem_cons.mp hj with rfl | hj
        · exact Bool.not_eq_true _ ▸ hstop
        · exact hpassed j hj

theorem eraseReciprocal_passed (rest : List SelectedInst)
    (hfront : ∀ k ∈ front, isReciprocal dst src k.mir = false)
    (hstops : ∀ k ∈ front, stopsScan dst src k.mir = false) :
    eraseReciprocal dst src (front ++ rest) = front ++ eraseReciprocal dst src rest := by
  induction front with
  | nil => rfl
  | cons k front ih =>
    rw [cons_append, eraseReciprocal, if_neg (Bool.eq_false_iff.mp (hfront k mem_cons_self)),
      if_neg (Bool.eq_false_iff.mp (hstops k mem_cons_self)),
      ih (fun j hj => hfront j (mem_cons_of_mem k hj))
        (fun j hj => hstops j (mem_cons_of_mem k hj))]
    rfl

theorem eraseReciprocal_sublist (insts : List SelectedInst) :
    (eraseReciprocal dst src insts).Sublist insts := by
  induction insts with
  | nil => exact Sublist.refl _
  | cons inst rest ih =>
    unfold eraseReciprocal
    split
    · exact sublist_cons_self inst rest
    · split
      · exact Sublist.refl _
      · exact ih.cons_cons inst

theorem visitMoves_sublist (n : ℕ) (insts : List SelectedInst) :
    (visitMoves n insts).Sublist insts := by
  induction n generalizing insts with
  | zero => exact Sublist.refl _
  | succ n ih =>
    cases insts with
    | nil => exact Sublist.refl _
    | cons inst rest =>
      unfold visitMoves
      split
      · exact (ih rest).cons inst
      · split
        · exact (tail_sublist rest).cons_cons inst
        · exact ((ih _).trans (eraseIdx_sublist _ _)).cons_cons inst
        · exact (ih rest).cons_cons inst

/-- Nothing comes back behind the first pass. -/
theorem optimizeBlock_sublist (insts : List SelectedInst) :
    (optimizeBlock insts).Sublist (visitMoves insts.length insts) := by
  have hmoves : ∀ n insts, (optimizeMoves n insts).Sublist insts := by
    intro n
    induction n with
    | zero => exact fun insts => Sublist.refl insts
    | succ n ih =>
      intro insts
      unfold optimizeMoves
      dsimp only
      split
      · exact visitMoves_sublist _ _
      · exact (ih _).trans (visitMoves_sublist _ _)
  unfold optimizeBlock optimizeMoves
  dsimp only
  split
  · exact Sublist.refl _
  · exact hmoves 15 _

/-- What every pass keeps holds behind the block's passes. -/
theorem optimizeBlock_keeps {P : List SelectedInst → Prop}
    (hvisit : ∀ n insts, P insts → P (visitMoves n insts)) (h : P insts) :
    P (optimizeBlock insts) := by
  have hmoves : ∀ n insts, P insts → P (optimizeMoves n insts) := by
    intro n
    induction n with
    | zero => exact fun _ h => h
    | succ n ih =>
      intro insts h
      unfold optimizeMoves
      dsimp only
      split
      · exact hvisit _ _ h
      · exact ih _ (hvisit _ _ h)
  exact hmoves 16 insts h

end

/-! ## What is left of it -/

section

variable (isSigned isRem is64 : Bool) (divRhs dummy dst : MirRegisterRef) (lhs rhs : MirOperand)

/-- The instructions that are no moves of registers. -/
def division : List SelectedInst :=
  extension isSigned is64 :: ((loadDivisor is64 divRhs rhs).2 ++
    [⟨divideRow isSigned is64, [(loadDivisor is64 divRhs rhs).1]⟩])

/-- The move of the quotient counts as one back to the dividend's register. -/
def Loses : Prop :=
  isRem = false ∧ ∃ l, lhs = .register l ∧ dst.same l = true ∧
    ∀ k ∈ division isSigned is64 divRhs rhs, stopsScan (raxPhys is64) l k.mir = false

/-- The instructions are there unless they may be left out. -/
def Optional (part whole : List SelectedInst) (Dropped : Prop) : Prop :=
  part = whole ∨ part = [] ∧ Dropped

/-- What passes leave of the sequence. -/
def Thinned (insts : List SelectedInst) : Prop :=
  ∃ p1 p2 p3 p4, insts = p1 ++ (p2 ++ (division isSigned is64 divRhs rhs ++ (p3 ++ p4))) ∧
    Optional p1 [moveInto is64 (raxPhys is64) lhs]
      ((moveInto is64 (raxPhys is64) lhs).isRedundantCopy = true) ∧
    Optional p2 (highCopy isSigned is64) (∃ l, lhs = .register l ∧ (rdxPhys is64).same l = true) ∧
    Optional p3 [moveReg is64 dst (resultReg isRem is64)]
      ((moveReg is64 dst (resultReg isRem is64)).isRedundantCopy = true ∨
        Loses isSigned isRem is64 divRhs dst lhs rhs) ∧
    Optional p4 [moveReg is64 dummy (resultReg (!isRem) is64)] True

theorem isMoveInstruction_moveReg (dst src : MirRegisterRef) :
    isMoveInstruction (moveReg is64 dst src).mir = some (dst, src) := by
  cases is64 <;> rfl

theorem isMoveInstruction_division {k : SelectedInst}
    (hk : k ∈ division isSigned is64 divRhs rhs) : isMoveInstruction k.mir = none := by
  rcases mem_cons.mp hk with rfl | hk
  · cases isSigned <;> cases is64 <;> rfl
  · rcases mem_append.mp hk with hk | hk
    · cases rhs with
      | integer value =>
        rw [mem_singleton.mp hk]
        cases is64 <;> rfl
      | _ => cases hk
    · rw [mem_singleton.mp hk]
      cases isSigned <;> cases is64 <;> rfl

variable {isSigned isRem is64 divRhs dummy dst lhs rhs}

theorem isReciprocal_of_none {d s : MirRegisterRef} {inst : MirInstruction}
    (h : isMoveInstruction inst = none) : isReciprocal d s inst = false := by
  rw [isReciprocal, h]

variable {P : Prop} {part : List SelectedInst} {inst : SelectedInst} {l : MirRegisterRef}

theorem Optional.mono {whole : List SelectedInst} {Q : Prop} (h : Optional part whole P)
    (hPQ : P → Q) : Optional part whole Q := h.imp id fun h => ⟨h.1, hPQ h.2⟩

theorem Optional.eraseReciprocal (h : Optional part [inst] P)
    (hP : isReciprocal dst src inst.mir = true → P) :
    Optional (eraseReciprocal dst src part) [inst] P := by
  rcases h with rfl | ⟨rfl, hp⟩
  · unfold X86.eraseReciprocal
    split
    · next hfound => exact .inr ⟨rfl, hP hfound⟩
    · split
      · exact .inl rfl
      · exact .inl rfl
  · exact .inr ⟨rfl, hp⟩

/-- Behind a part that is one move, or nothing, a scan goes on to what comes next. -/
theorem eraseReciprocal_optional (dst src : MirRegisterRef) (h : Optional part [inst] P)
    (rest : List SelectedInst) :
    ∃ part' rest', eraseReciprocal dst src (part ++ rest) = part' ++ rest' ∧
      Optional part' [inst] (P ∨ isReciprocal dst src inst.mir = true) ∧
      (rest' = rest ∨ rest' = eraseReciprocal dst src rest) := by
  rcases h with rfl | ⟨rfl, hp⟩
  · rw [singleton_append, eraseReciprocal]
    split
    · next hfound => exact ⟨[], rest, rfl, .inr ⟨rfl, .inr hfound⟩, .inl rfl⟩
    · split
      · exact ⟨[inst], rest, rfl, .inl rfl, .inl rfl⟩
      · exact ⟨[inst], _, rfl, .inl rfl, .inr rfl⟩
  · exact ⟨[], _, rfl, .inr ⟨rfl, .inl hp⟩, .inr rfl⟩

/-- A pass over one move, or nothing. -/
theorem visitMoves_optional (h : Optional part [inst] P)
    (hmove : isMoveInstruction inst.mir = some (dst, src)) (rest : List SelectedInst) (n : ℕ) :
    ∃ m part' rest', visitMoves n (part ++ rest) = part' ++ visitMoves m rest' ∧
      Optional part' [inst] (P ∨ inst.isRedundantCopy = true) ∧
      (rest' = rest ∨ rest' = eraseReciprocal dst src rest) := by
  rcases h with rfl | ⟨rfl, hp⟩
  · cases n with
    | zero => exact ⟨0, [inst], rest, rfl, .inl rfl, .inl rfl⟩
    | succ n =>
      by_cases hcopy : inst.isRedundantCopy = true
      · exact ⟨n, [], rest, visitMoves_copy n hcopy, .inr ⟨rfl, .inr hcopy⟩, .inl rfl⟩
      · obtain ⟨m, hm⟩ := visitMoves_move n rest hmove (Bool.eq_false_iff.mpr hcopy)
        exact ⟨m, [inst], _, hm, .inl rfl, .inr rfl⟩
  · exact ⟨n, [], rest, rfl, .inr ⟨rfl, .inl hp⟩, .inl rfl⟩

/-- A pass over the moves behind the division. -/
theorem visit_tail {part1 part2 : List SelectedInst} {c d : SelectedInst}
    {d1 s1 d2 s2 : MirRegisterRef} (hc : isMoveInstruction c.mir = some (d1, s1))
    (hd : isMoveInstruction d.mir = some (d2, s2)) (hP : c.isRedundantCopy = true → P)
    (h1 : Optional part1 [c] P) (h2 : Optional part2 [d] True) (n : ℕ) :
    ∃ part1' part2', visitMoves n (part1 ++ part2) = part1' ++ part2' ∧
      Optional part1' [c] P ∧ Optional part2' [d] True := by
  obtain ⟨m, part1', rest, heq, h1', hrest⟩ := visitMoves_optional h1 hc part2 n
  have h2' : Optional rest [d] True := by
    rcases hrest with rfl | rfl
    · exact h2
    · exact h2.eraseReciprocal fun _ => trivial
  obtain ⟨k, part2', rest', heq', h2'', hrest'⟩ := visitMoves_optional h2' hd [] m
  have hnil : rest' = [] := hrest'.elim id id
  rw [append_nil, hnil, visitMoves_nil, append_nil] at heq'
  rw [heq, heq']
  exact ⟨part1', part2', rfl, h1'.mono (Or.elim · id hP), h2''.mono fun _ => trivial⟩

theorem isReciprocal_moveReg {d1 s1 d2 s2 : MirRegisterRef} :
    isReciprocal d1 s1 (moveReg is64 d2 s2).mir = (d2.same s1 && s2.same d1) := by
  rw [isReciprocal, isMoveInstruction_moveReg]

theorem isRedundantCopy_moveReg (d s : MirRegisterRef) :
    (moveReg is64 d s).isRedundantCopy = d.same s := by
  rw [isRedundantCopy, isMoveInstruction_moveReg]

theorem eraseReciprocal_division (hlhs : lhs = .register l) {p2 p3 p4 : List SelectedInst} (h2 :
      Optional p2 (highCopy isSigned is64) (∃ l, lhs = .register l ∧ (rdxPhys is64).same l = true))
      (h3 : Optional p3 [moveReg is64 dst (resultReg isRem is64)] ((moveReg is64 dst (resultReg
      isRem is64)).isRedundantCopy = true ∨ Loses isSigned isRem is64 divRhs dst lhs rhs))
    (h4 : Optional p4 [moveReg is64 dummy (resultReg (!isRem) is64)] True) :
    ∃ p2' p3' p4', eraseReciprocal (raxPhys is64) l
        (p2 ++ (division isSigned is64 divRhs rhs ++ (p3 ++ p4))) =
        p2' ++ (division isSigned is64 divRhs rhs ++ (p3' ++ p4')) ∧
      Optional p2' (highCopy isSigned is64)
        (∃ l, lhs = .register l ∧ (rdxPhys is64).same l = true) ∧
      Optional p3' [moveReg is64 dst (resultReg isRem is64)]
        ((moveReg is64 dst (resultReg isRem is64)).isRedundantCopy = true ∨
          Loses isSigned isRem is64 divRhs dst lhs rhs) ∧
      Optional p4' [moveReg is64 dummy (resultReg (!isRem) is64)] True := by
  have hpassed : ∀ k ∈ division isSigned is64 divRhs rhs,
      isReciprocal (raxPhys is64) l k.mir = false := fun k hk =>
    isReciprocal_of_none (isMoveInstruction_division isSigned is64 divRhs rhs hk)
  -- behind the division the scan may find either move
  have htail : ∃ p3' p4', eraseReciprocal (raxPhys is64) l
        (division isSigned is64 divRhs rhs ++ (p3 ++ p4)) =
        division isSigned is64 divRhs rhs ++ (p3' ++ p4') ∧
      Optional p3' [moveReg is64 dst (resultReg isRem is64)]
        ((moveReg is64 dst (resultReg isRem is64)).isRedundantCopy = true ∨
          Loses isSigned isRem is64 divRhs dst lhs rhs) ∧
      Optional p4' [moveReg is64 dummy (resultReg (!isRem) is64)] True := by
    rcases eraseReciprocal_append (p3 ++ p4) hpassed with heq | ⟨hstops, heq⟩
    · exact ⟨p3, p4, heq, h3, h4⟩
    · obtain ⟨p3', p4', herase, h3', hp4⟩ := eraseReciprocal_optional (raxPhys is64) l h3 p4
      refine ⟨p3', p4', heq.trans (congrArg _ herase), h3'.mono ?_, ?_⟩
      · rintro (hdropped | hreciprocal)
        · exact hdropped
        · rw [isReciprocal_moveReg, Bool.and_eq_true] at hreciprocal
          refine .inr ⟨?_, l, hlhs, hreciprocal.1, hstops⟩
          cases isRem with
          | false => rfl
          | true =>
            have hne : (rdxPhys is64).same (raxPhys is64) = false := by cases is64 <;> rfl
            exact absurd (hne.symm.trans hreciprocal.2) (by decide)
      · rcases hp4 with rfl | rfl
        · exact h4
        · exact h4.eraseReciprocal fun _ => trivial
  cases isSigned with
  | true =>
    obtain ⟨p2', rest', herase, h2', hrest⟩ :=
      eraseReciprocal_optional (raxPhys is64) l h2 (division true is64 divRhs rhs ++ (p3 ++ p4))
    have h2'' := h2'.mono (Q := ∃ l, lhs = .register l ∧ (rdxPhys is64).same l = true) <| by
      rintro (hdropped | hreciprocal)
      · exact hdropped
      · rw [isReciprocal_moveReg, Bool.and_eq_true] at hreciprocal
        exact ⟨l, hlhs, hreciprocal.1⟩
    rw [herase]
    rcases hrest with rfl | rfl
    · exact ⟨p2', p3, p4, rfl, h2'', h3, h4⟩
    · obtain ⟨p3', p4', heq, h3', h4'⟩ := htail
      exact ⟨p2', p3', p4', congrArg _ heq, h2'', h3', h4'⟩
  | false =>
    obtain rfl : p2 = [] := h2.elim id And.left
    obtain ⟨p3', p4', heq, h3', h4'⟩ := htail
    exact ⟨[], p3', p4', heq, .inl rfl, h3', h4'⟩

/-- A pass over what stands behind the first move. -/
theorem visitMoves_division {p2 p3 p4 : List SelectedInst} {P2 P3 : Prop}
    (h2 : Optional p2 (highCopy isSigned is64) P2)
    (h3 : Optional p3 [moveReg is64 dst (resultReg isRem is64)] P3)
    (hP3 : (moveReg is64 dst (resultReg isRem is64)).isRedundantCopy = true → P3)
    (h4 : Optional p4 [moveReg is64 dummy (resultReg (!isRem) is64)] True) (n : ℕ) :
    ∃ p2' p3' p4', visitMoves n (p2 ++ (division isSigned is64 divRhs rhs ++ (p3 ++ p4))) =
        p2' ++ (division isSigned is64 divRhs rhs ++ (p3' ++ p4')) ∧
      Optional p2' (highCopy isSigned is64) P2 ∧
      Optional p3' [moveReg is64 dst (resultReg isRem is64)] P3 ∧
      Optional p4' [moveReg is64 dummy (resultReg (!isRem) is64)] True := by
  have htail : ∀ n, ∃ p3' p4', visitMoves n (division isSigned is64 divRhs rhs ++ (p3 ++ p4)) =
        division isSigned is64 divRhs rhs ++ (p3' ++ p4') ∧
      Optional p3' [moveReg is64 dst (resultReg isRem is64)] P3 ∧
      Optional p4' [moveReg is64 dummy (resultReg (!isRem) is64)] True := by
    intro n
    obtain ⟨m, hm⟩ := visitMoves_append (p3 ++ p4)
      (fun k hk => isMoveInstruction_division isSigned is64 divRhs rhs hk) n
    obtain ⟨p3', p4', htail, h3', h4'⟩ := visit_tail (isMoveInstruction_moveReg is64 _ _)
      (isMoveInstruction_moveReg is64 _ _) hP3 h3 h4 m
    exact ⟨p3', p4', hm.trans (congrArg _ htail), h3', h4'⟩
  cases isSigned with
  | true =>
    obtain ⟨m, p2', rest', heq, h2', hrest⟩ := visitMoves_optional h2
      (isMoveInstruction_moveReg is64 _ _) (division true is64 divRhs rhs ++ (p3 ++ p4)) n
    -- the shift behind the copy writes what it copied to
    have hstop : eraseReciprocal (rdxPhys is64) (raxPhys is64)
        (division true is64 divRhs rhs ++ (p3 ++ p4)) =
        division true is64 divRhs rhs ++ (p3 ++ p4) := by
      rw [division, cons_append, eraseReciprocal]
      cases is64 <;> rfl
    have hcopy : (moveReg is64 (rdxPhys is64) (raxPhys is64)).isRedundantCopy = false := by
      cases is64 <;> rfl
    obtain rfl : rest' = division true is64 divRhs rhs ++ (p3 ++ p4) :=
      hrest.elim id (fun h => h.trans hstop)
    obtain ⟨p3', p4', htail, h3', h4'⟩ := htail m
    refine ⟨p2', p3', p4', heq.trans (congrArg _ htail), h2'.mono ?_, h3', h4'⟩
    rintro (hdropped | hcopied)
    · exact hdropped
    · exact absurd (hcopy.symm.trans hcopied) (by decide)
  | false =>
    obtain rfl : p2 = [] := h2.elim id And.left
    obtain ⟨p3', p4', heq, h3', h4'⟩ := htail n
    exact ⟨[], p3', p4', heq, .inl rfl, h3', h4'⟩

/-- A pass over the sequence. -/
theorem Thinned.visitMoves (h : Thinned isSigned isRem is64 divRhs dummy dst lhs rhs insts)
    (n : ℕ) :
    Thinned isSigned isRem is64 divRhs dummy dst lhs rhs (visitMoves n insts) := by
  obtain ⟨p1, p2, p3, p4, rfl, h1, h2, h3, h4⟩ := h
  cases hmove : isMoveInstruction (moveInto is64 (raxPhys is64) lhs).mir with
  | none =>
    have hcopy : (moveInto is64 (raxPhys is64) lhs).isRedundantCopy = false := by
      rw [isRedundantCopy, hmove]
    obtain rfl : p1 = [moveInto is64 (raxPhys is64) lhs] :=
      h1.elim id fun h => absurd (hcopy.symm.trans h.2) (by decide)
    obtain ⟨m, hm⟩ := visitMoves_append (p2 ++ (division isSigned is64 divRhs rhs ++ (p3 ++ p4)))
      (forall_mem_singleton.mpr hmove) n
    obtain ⟨p2', p3', p4', heq, h2', h3', h4'⟩ := visitMoves_division h2 h3 .inl h4 m
    exact ⟨_, p2', p3', p4', hm.trans (congrArg _ heq), h1, h2', h3', h4'⟩
  | some refs =>
    obtain ⟨l, hlhs, rfl⟩ : ∃ l, lhs = .register l ∧ refs = (raxPhys is64, l) := by
      cases lhs with
      | register l =>
        have hrefs := isMoveInstruction_moveReg is64 (raxPhys is64) l
        exact ⟨l, rfl, Option.some.inj (hmove.symm.trans hrefs)⟩
      | _ => cases is64 <;> cases hmove
    obtain ⟨m, p1', rest', heq, h1', hrest⟩ := visitMoves_optional h1 hmove
      (p2 ++ (division isSigned is64 divRhs rhs ++ (p3 ++ p4))) n
    have h1'' := h1'.mono (Or.elim · id id)
    rcases hrest with rfl | rfl
    · obtain ⟨p2', p3', p4', heq', h2', h3', h4'⟩ := visitMoves_division h2 h3 .inl h4 m
      exact ⟨p1', p2', p3', p4', heq.trans (congrArg _ heq'), h1'', h2', h3', h4'⟩
    · obtain ⟨q2, q3, q4, herase, hq2, hq3, hq4⟩ := eraseReciprocal_division hlhs h2 h3 h4
      rw [herase] at heq
      obtain ⟨p2', p3', p4', heq', h2', h3', h4'⟩ := visitMoves_division hq2 hq3 .inl hq4 m
      exact ⟨p1', p2', p3', p4', heq.trans (congrArg _ heq'), h1'', h2', h3', h4'⟩

theorem optional_filter (inst : SelectedInst) :
    Optional ([inst].filter fun k => !k.isRedundantCopy) [inst] (inst.isRedundantCopy = true) := by
  cases h : inst.isRedundantCopy with
  | true => exact .inr ⟨by simp [h], rfl⟩
  | false => exact .inl (by simp [h])

theorem filter_of_other (h : ∀ k ∈ insts, isMoveInstruction k.mir = none) :
    (insts.filter fun k => !k.isRedundantCopy) = insts := by
  refine filter_eq_self.mpr fun k hk => ?_
  rw [isRedundantCopy, h k hk]
  rfl

theorem highCopy_filter :
    ((highCopy isSigned is64).filter fun k => !k.isRedundantCopy) = highCopy isSigned is64 := by
  cases isSigned <;> cases is64 <;> rfl

theorem divisionCode_eq : divisionCode isSigned isRem is64 divRhs dummy dst lhs rhs =
    [moveInto is64 (raxPhys is64) lhs] ++ (highCopy isSigned is64 ++
      (division isSigned is64 divRhs rhs ++ ([moveReg is64 dst (resultReg isRem is64)] ++
        [moveReg is64 dummy (resultReg (!isRem) is64)]))) := by
  simp [divisionCode, division]

/-- What the allocator leaves of the sequence. -/
theorem eliminateRedundantCopies_thinned : Thinned isSigned isRem is64 divRhs dummy dst lhs rhs
      (eliminateRedundantCopies (divisionCode isSigned isRem is64 divRhs dummy dst lhs rhs)) := by
  have hother := filter_of_other fun k hk =>
    isMoveInstruction_division isSigned is64 divRhs rhs hk
  refine ⟨_, _, _, _, ?_, optional_filter _, .inl highCopy_filter,
    (optional_filter _).mono .inl, (optional_filter _).mono fun _ => trivial⟩
  unfold eliminateRedundantCopies
  rw [divisionCode_eq, filter_append, filter_append, filter_append, filter_append, hother]

theorem optimizeBlock_thinned :
    Thinned isSigned isRem is64 divRhs dummy dst lhs rhs (optimizeBlock (eliminateRedundantCopies
      (divisionCode isSigned isRem is64 divRhs dummy dst lhs rhs))) :=
  optimizeBlock_keeps (fun n _ h => h.visitMoves n) eliminateRedundantCopies_thinned

theorem highCopy_passed (h2 : (rdxPhys is64).same l = false) {k : SelectedInst}
    (hk : k ∈ highCopy isSigned is64) : k = moveReg is64 (rdxPhys is64) (raxPhys is64) ∧
      isReciprocal (raxPhys is64) l k.mir = false ∧ stopsScan (raxPhys is64) l k.mir = false := by
  cases isSigned with
  | false => cases hk
  | true =>
    obtain rfl := mem_singleton.mp hk
    refine ⟨rfl, ?_, ?_⟩
    · rw [isReciprocal_moveReg, h2]
      rfl
    · have hdefs : (moveReg is64 (rdxPhys is64) (raxPhys is64)).mir.getDefinedRegisters =
          [rdxPhys is64] := by cases is64 <;> rfl
      have hrax : (rdxPhys is64).same (raxPhys is64) = false := by cases is64 <;> rfl
      have hbarrier : Peephole.isBarrier (moveReg is64 (rdxPhys is64) (raxPhys is64)).mir =
          false := by cases is64 <;> rfl
      rw [stopsScan, Peephole.defines, Peephole.defines, hdefs, hbarrier]
      simp [hrax, h2]

/-- The first pass erases the move of the quotient. -/
theorem moveReg_notMem_optimizeBlock (hlhs : lhs = .register l) (hdst : dst.same l = true)
    (h0 : (raxPhys is64).same l = false) (h2 : (rdxPhys is64).same l = false)
    (hstops : ∀ k ∈ division isSigned is64 divRhs rhs, stopsScan (raxPhys is64) l k.mir = false) :
    moveReg is64 dst (raxPhys is64) ∉ optimizeBlock (eliminateRedundantCopies
      (divisionCode isSigned false is64 divRhs dummy dst lhs rhs)) := by
  have hother : ∀ k ∈ division isSigned is64 divRhs rhs, isMoveInstruction k.mir = none :=
    fun k hk => isMoveInstruction_division isSigned is64 divRhs rhs hk
  have hcopy : (moveReg is64 (raxPhys is64) l).isRedundantCopy = false :=
    (isRedundantCopy_moveReg _ _).trans h0
  obtain ⟨p3, p4, h3, h4, hcode⟩ : ∃ p3 p4, Optional p3 [moveReg is64 dst (raxPhys is64)] True ∧
      p4 ⊆ [moveReg is64 dummy (rdxPhys is64)] ∧
      eliminateRedundantCopies (divisionCode isSigned false is64 divRhs dummy dst lhs rhs) =
        moveReg is64 (raxPhys is64) l :: (highCopy isSigned is64 ++
          (division isSigned is64 divRhs rhs ++ (p3 ++ p4))) := by
    refine ⟨_, [moveReg is64 dummy (rdxPhys is64)].filter fun k => !k.isRedundantCopy,
      (optional_filter _).mono fun _ => trivial, filter_sublist.subset, ?_⟩
    have hfirst : [moveReg is64 (raxPhys is64) l].filter (fun k => !k.isRedundantCopy) =
        [moveReg is64 (raxPhys is64) l] := filter_eq_self.mpr (by simp [hcopy])
    unfold eliminateRedundantCopies
    rw [divisionCode_eq, hlhs, filter_append, filter_append, filter_append,
      filter_append, filter_of_other hother, highCopy_filter]
    exact congrArg (· ++ _) hfirst
  have htail : eraseReciprocal (raxPhys is64) l (p3 ++ p4) ⊆
      [moveReg is64 dummy (rdxPhys is64)] := by
    rcases h3 with rfl | ⟨rfl, -⟩
    · have hfound : isReciprocal (raxPhys is64) l (moveReg is64 dst (raxPhys is64)).mir = true := by
        rw [isReciprocal_moveReg, hdst]
        cases is64 <;> rfl
      rw [singleton_append, eraseReciprocal, if_pos hfound]
      exact h4
    · exact Subset.trans (eraseReciprocal_sublist p4).subset h4
  rw [hcode]
  intro hmem
  have hvisited := (optimizeBlock_sublist _).subset hmem
  obtain ⟨m, hm⟩ := visitMoves_move (highCopy isSigned is64 ++
    (division isSigned is64 divRhs rhs ++ (p3 ++ p4))).length _
    (isMoveInstruction_moveReg is64 (raxPhys is64) l) hcopy
  rw [length_cons, hm, eraseReciprocal_passed _ (fun k hk => (highCopy_passed h2 hk).2.1)
    (fun k hk => (highCopy_passed h2 hk).2.2),
    eraseReciprocal_passed _ (fun k hk => isReciprocal_of_none (hother k hk)) hstops] at hvisited
  -- the move of the quotient is none of the others
  have hinj : ∀ d s d' s', moveReg is64 d s = moveReg is64 d' s' → d = d' ∧ s = s' := by
    rintro d s d' s' heq
    injection heq with _ hoperands
    injection hoperands with hd htail
    injection htail with hs _
    exact ⟨MirOperand.register.inj hd, MirOperand.register.inj hs⟩
  rcases mem_cons.mp hvisited with heq | hvisited
  · obtain ⟨hd, hs⟩ := hinj _ _ _ _ heq
    rw [hd, h0] at hdst
    cases hdst
  · rcases mem_append.mp ((visitMoves_sublist m _).subset hvisited) with hmem | hmem
    · obtain ⟨hd, -⟩ := hinj _ _ _ _ (highCopy_passed h2 hmem).1
      rw [hd, h2] at hdst
      cases hdst
    · rcases mem_append.mp hmem with hmem | hmem
      · exact absurd ((isMoveInstruction_moveReg is64 _ _).symm.trans (hother _ hmem)) nofun
      · obtain ⟨-, hs⟩ := hinj _ _ _ _ (mem_singleton.mp (htail hmem))
        cases hs

end

end EzPacker.X86
