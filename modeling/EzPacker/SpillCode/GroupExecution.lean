import EzPacker.SpillCode.Execution

/-!
# Executing a rewritten instruction

The code in front of an instruction gives the temporaries their values, the instruction
does to its temporaries what the instruction before the rewriting does to its registers,
and the code behind it puts the temporaries into the slots.
-/

namespace EzPacker.SpillCode

open List Function Option Mir RegAlloc KeyedSet

variable {k : RegKey}

namespace SpillInput

variable {j : SpillInput} {I : Interp} {p q : ℕ}

/-- The state in front of a rewritten instruction, behind the code in front of it. -/
def loadedState (j : SpillInput) (p : ℕ) (s : State I) : State I :=
  execCode j.isSlot j.rewritten.mems (j.rewritten.groupAt p).before s

/-- The state behind a rewritten instruction and the code around it. -/
def groupState (j : SpillInput) (p : ℕ) (s : State I) : State I :=
  execCode j.isSlot j.rewritten.mems (j.rewritten.groupAt p).code s

theorem groupState_eq (p : ℕ) (s : State I) : j.groupState p s =
    execCode j.isSlot j.rewritten.mems (j.rewritten.groupAt p).after
      (exec j.isSlot (j.rewrittenAt p) (j.loadedState p s)) := by
  unfold groupState SpillJob.Group.code
  rw [execCode_append, execCode_cons]
  rfl

/-! ### In front of the instruction -/

section

variable (hp : p < j.f.code.length)
include hp

theorem loadedTemps_before (s : State I) :
    (j.loadedState p s).env = s.env ∧ (j.loadedState p s).slots = s.slots ∧
      (∀ e ∈ j.tempsAt p, loadsIn (j.f.accesses p) e.1 = true →
        (j.loadedState p s).regs (regKey e.2) = j.loaded e.1 s) ∧
      ∀ k, (∀ e ∈ j.tempsAt p, loadsIn (j.f.accesses p) e.1 = true → k ≠ regKey e.2) →
        (j.loadedState p s).regs k = s.regs k := by
  have hsub := filter_sublist (p := fun e => loadsIn (j.f.accesses p) e.1) (l := j.tempsAt p)
  obtain ⟨henv, hslots, htemps, hothers⟩ := execCode_before (fitsAt hp).before
    (fun e he => isSpilled_of_mem hp (hsub.subset he)) ((nodup_temps hp).sublist (hsub.map _))
    j.rewritten.mems s
  refine ⟨henv, hslots, fun e he hload => htemps e (mem_filter.mpr ⟨he, hload⟩),
    fun k hk => hothers k fun hmem => ?_⟩
  obtain ⟨e, he, rfl⟩ := mem_map.mp hmem
  obtain ⟨hin, hload⟩ := mem_filter.mp he
  exact hk e hin hload rfl

theorem loadedState_old (s : State I) (hk : j.IsOld k) : (j.loadedState p s).regs k = s.regs k := by
  refine (loadedTemps_before hp s).2.2.2 k fun e he _ heq => ?_
  exact not_isOld_temp hp he (heq ▸ hk)

theorem loadedState_temp (hq : q < j.f.code.length) {e : RegKey × MirRegisterRef}
    (he : e ∈ j.tempsAt q) (s : State I) : (j.loadedState p s).regs (regKey e.2) =
      if q = p ∧ loadsIn (j.f.accesses p) e.1 = true then j.loaded e.1 s
      else s.regs (regKey e.2) := by
  obtain ⟨-, -, htemps, hothers⟩ := loadedTemps_before hp s
  by_cases h : q = p ∧ loadsIn (j.f.accesses p) e.1 = true
  · rw [if_pos h]
    obtain ⟨rfl, hload⟩ := h
    exact htemps e he hload
  · rw [if_neg h]
    refine hothers _ fun e' he' hload heq => ?_
    obtain ⟨rfl, rfl⟩ := temp_inj hq hp he he' heq
    exact h ⟨rfl, hload⟩

theorem readsAt_eq (s : State I) : j.rewritten.readsAt j.isSlot p s =
      (j.f.placedReads p).map (fun x =>
          (j.loadedState p s).regs (placeKey (j.tempsAt x.1) (regKey x.2))) ++
        (j.implicitUses p).map (j.loadedState p s).regs := by
  change (j.rewrittenAt p).getUsedRegisters.map (fun r => (j.loadedState p s).regs (regKey r)) = _
  have h := congrArg (List.map (j.loadedState p s).regs) (used_rewrittenAt hp)
  rw [List.map_append, List.map_map, List.map_map] at h
  exact h

end

theorem readValues_eq (p : ℕ) (s : State I) : readValues (j.f.viewAt p) s =
    (j.f.placedReads p).map (fun x => s.regs (regKey x.2)) ++ (j.implicitUses p).map s.regs := by
  have h := congrArg (List.map s.regs) (used_viewAt (j := j) p)
  rw [List.map_append, List.map_map, List.map_map] at h
  exact h

/-! ### The instruction -/

theorem exec_viewAt (hp : p < j.f.code.length) {s : State I} {s' : State I} (henv : s'.env = s.env)
    (hreads : readValues (j.rewrittenAt p) s' = readValues (j.f.viewAt p) s) :
    ∃ w env, exec j.isSlot (j.f.viewAt p) s = ⟨writeAll w (j.writtenAt p) 0 s.regs, s.slots, env⟩ ∧
      exec j.isSlot (j.rewrittenAt p) s' =
        ⟨writeAll w ((j.writtenAt p).map (placeKey (j.tempsAt p))) 0 s'.regs, s'.slots, env⟩ := by
  unfold exec
  rw [spillAccess_viewAt hp, spillAccess_rewrittenAt hp, constantMove_rewrittenAt hp,
    shape_rewrittenAt hp, hreads, henv, written_rewrittenAt hp]
  dsimp only
  cases constantMove (j.f.viewAt p) with
  | none | some op => exact ⟨_, _, rfl, rfl⟩

/-! ### Behind the instruction -/

theorem mem_writtenAt {a : Access} (ha : a ∈ j.f.accesses p) (hwrite : a.2.isWrite = true) :
    regKey a.1 ∈ j.writtenAt p := by
  obtain ⟨i, op, hop, hacc⟩ := mem_accesses.mp ha
  cases op with
  | register r =>
    obtain rfl := mem_singleton.mp hacc
    unfold writtenAt MirInstruction.getDefinedRegisters
    rw [visits_viewAt]
    refine mem_map_of_mem (mem_append_left _ (mem_map_of_mem (f := Prod.fst)
      (a := (r, (j.f.instAt p).getOperandFlag i)) (mem_filter.mpr ⟨?_, hwrite⟩)))
    exact mem_map_of_mem (f := Prod.snd)
      (mem_sites.mpr ⟨i, .register r, hop, mem_singleton.mpr rfl⟩)
  | memory object =>
    by_cases howner : j.f.ownerOf object = some p
    · rw [operandAccesses, if_pos howner] at hacc
      rw [(mem_visit_memory hacc).1] at hwrite
      cases hwrite
    · rw [operandAccesses, if_neg howner] at hacc
      cases hacc
  | integer value | floatingPoint bits | reference ref | runtimeSymbol name => cases hacc

theorem written_of_storesIn (h : storesIn (j.f.accesses p) k = true) : k ∈ j.writtenAt p := by
  obtain ⟨a, ha, hwrite⟩ := (any_eq_true _ _).mp h
  have hkey := find?_some ha
  rw [Bool.and_eq_true, decide_eq_true_eq] at hkey
  rw [← hkey.1]
  exact mem_writtenAt (mem_of_find?_eq_some ha) hwrite

theorem storesIn_of_not_loadsIn (hp : p < j.f.code.length) {e : RegKey × MirRegisterRef}
    (he : e ∈ j.tempsAt p) (h : loadsIn (j.f.accesses p) e.1 = false) :
    storesIn (j.f.accesses p) e.1 = true := by
  obtain ⟨a, ha, hkey, hflagged, -⟩ := ((fitsAt hp).keys e.1).mp (mem_map_of_mem he)
  obtain ⟨b, hb⟩ := isSome_iff_exists.mp (firstAccess_isSome.mpr ⟨a, ha, hkey, hflagged⟩)
  have hbflag := find?_some hb
  rw [Bool.and_eq_true] at hbflag
  unfold loadsIn at h
  unfold storesIn
  rw [hb] at h ⊢
  have hread : b.2.isRead = false := h
  have hboth : (b.2.isRead || b.2.isWrite) = true := hbflag.2
  rw [hread, Bool.false_or] at hboth
  exact hboth

theorem isOld_of_mem_writtenAt (hp : p < j.f.code.length) (h : k ∈ j.writtenAt p) : j.IsOld k := by
  obtain ⟨r, hr, rfl⟩ := mem_map.mp h
  rcases mem_append.mp hr with hr | hr
  · obtain ⟨a, ha, rfl⟩ := mem_map.mp hr
    obtain ⟨hvisit, hwrite⟩ := mem_filter.mp ha
    rw [visits_viewAt] at hvisit
    obtain ⟨site, hsite, rfl⟩ := mem_map.mp hvisit
    exact isOld_site hp hsite
  · cases hdesc : (j.f.viewAt p).targetDesc with
    | none =>
      rw [hdesc] at hr
      cases hr
    | some desc =>
      rw [hdesc] at hr
      have hphysical := j.implicit _ (instAt_mem hp) desc hdesc r (mem_append_left _ hr)
      intro id hid
      rw [regKey, if_neg (by rw [hphysical]; exact Bool.false_ne_true)] at hid
      cases hid

/-- What a rewritten instruction does, when it reads what the instruction before the
rewriting reads. -/
structure Steps (j : SpillInput) (p : ℕ) (s s' t t' : State I) : Prop where
  env : t'.env = t.env
  old : ∀ k, j.IsOld k → ¬ j.IsSpilled k → s'.regs k = s.regs k → t'.regs k = t.regs k
  temps : ∀ e ∈ j.tempsAt p, t'.regs (regKey e.2) =
    if e.1 ∈ j.writtenAt p then t.regs e.1 else (j.loadedState p s').regs (regKey e.2)
  others : ∀ q < j.f.code.length, q ≠ p → ∀ e ∈ j.tempsAt q,
    t'.regs (regKey e.2) = s'.regs (regKey e.2)
  slots : ∀ k slot, j.IsSpilled k → j.slots.spilledRegs k = some slot → t'.slots slot =
    if storesIn (j.f.accesses p) k = true ∧ j.rematConst k = none then t.regs k
    else s'.slots slot

theorem steps (hp : p < j.f.code.length) {s s' : State I} (henv : s'.env = s.env)
    (hreads : j.rewritten.readsAt j.isSlot p s' = readValues (j.f.viewAt p) s) :
    j.Steps p s s' (exec j.isSlot (j.f.viewAt p) s) (j.groupState p s') := by
  obtain ⟨hbenv, hbslots, -, -⟩ := loadedTemps_before hp s'
  obtain ⟨w, env, ht, hexec⟩ := exec_viewAt hp (hbenv.trans henv) hreads
  have hsub := List.filter_sublist (l := j.tempsAt p)
    (p := fun e => storesIn (j.f.accesses p) e.1 && (j.rematConst e.1).isNone)
  obtain ⟨haenv, haregs, hastores, haothers⟩ := execCode_after (fitsAt hp).after
    (fun e he => isSpilled_of_mem hp (hsub.subset (List.mem_reverse.mp he)))
    (by
      rw [List.map_reverse, List.nodup_reverse]
      exact (fitsAt hp).nodup.sublist (hsub.map _))
    j.rewritten.mems (exec j.isSlot (j.rewrittenAt p) (j.loadedState p s'))
  rw [← groupState_eq] at haenv haregs hastores haothers
  rw [hexec] at haenv haregs hastores haothers
  have hplaceOld : ∀ k ∈ j.writtenAt p, ∀ k', j.IsOld k' →
      placeKey (j.tempsAt p) k = placeKey (j.tempsAt p) k' → k = k' :=
    fun k hk k' hk' heq => placeKey_inj hp (isOld_of_mem_writtenAt hp hk) hk' heq
  have htemps : ∀ e ∈ j.tempsAt p, (j.groupState p s').regs (regKey e.2) =
      if e.1 ∈ j.writtenAt p then (exec j.isSlot (j.f.viewAt p) s).regs e.1
      else (j.loadedState p s').regs (regKey e.2) := by
    intro e he
    have hold := (isSpilled_of_mem hp he).isOld
    rw [haregs, ht, ← placeKey_temp hp he]
    by_cases hmem : e.1 ∈ j.writtenAt p
    · rw [if_pos hmem]
      exact writeAll_map w _ (fun k hk heq => hplaceOld k hk e.1 hold heq) hmem 0 _ _
    · rw [if_neg hmem]
      refine writeAll_of_not_mem w (fun hin => ?_) 0 _
      obtain ⟨k, hk, heq⟩ := List.mem_map.mp hin
      exact hmem (hplaceOld k hk e.1 hold heq ▸ hk)
  constructor
  case env => rw [haenv, ht]
  case old =>
    intro k hk hspilled hsame
    have hkey : placeKey (j.tempsAt p) k = k := by
      rcases placeKey_cases k p with hkeep | ⟨e, he, rfl, -⟩
      · exact hkeep
      · exact absurd (isSpilled_of_mem hp he) hspilled
    rw [haregs, ht]
    by_cases hmem : k ∈ j.writtenAt p
    · have h := writeAll_map w (placeKey (j.tempsAt p))
        (fun k' hk' heq => hplaceOld k' hk' k hk heq) hmem 0 s.regs (j.loadedState p s').regs
      rwa [hkey] at h
    · have hno : k ∉ (j.writtenAt p).map (placeKey (j.tempsAt p)) := by
        intro hin
        obtain ⟨k', hk', heq⟩ := List.mem_map.mp hin
        exact hmem (hplaceOld k' hk' k hk (heq.trans hkey.symm) ▸ hk')
      dsimp only
      rw [writeAll_of_not_mem w hno, writeAll_of_not_mem w hmem, loadedState_old hp s' hk, hsame]
  case temps => exact htemps
  case others =>
    intro q hq hne e he
    have hbefore := loadedState_temp hp hq he s'
    rw [if_neg fun h => hne h.1] at hbefore
    rw [haregs, ← hbefore]
    refine writeAll_of_not_mem w (fun hin => ?_) 0 _
    obtain ⟨k, hk, heq⟩ := List.mem_map.mp hin
    rcases placeKey_cases k p with hkeep | ⟨e', he', rfl, htemp⟩
    · refine not_isOld_temp hq he ?_
      rw [← heq, hkeep]
      exact isOld_of_mem_writtenAt hp hk
    · exact hne (temp_inj hq hp he he' (heq.symm.trans htemp)).1
  case slots =>
    intro k slot hk hslot
    by_cases hstores : storesIn (j.f.accesses p) k = true ∧ j.rematConst k = none
    · rw [if_pos hstores]
      have hwritten := written_of_storesIn hstores.1
      obtain ⟨r, hspills, rfl⟩ := hk
      obtain ⟨a, ha, hwrite⟩ := (Option.any_eq_true _ _).mp hstores.1
      have hflagged := List.find?_some ha
      rw [Bool.and_eq_true, decide_eq_true_eq] at hflagged
      have hkey : regKey r ∈ (j.tempsAt p).map Prod.fst :=
        ((fitsAt hp).keys _).mpr ⟨a, List.mem_of_find?_eq_some ha, hflagged.1, hflagged.2,
          (spills_congr hflagged.1).trans hspills⟩
      obtain ⟨e, he, hekey⟩ := List.mem_map.mp hkey
      have hstored := hastores e (List.mem_reverse.mpr (List.mem_filter.mpr ⟨he, by
        rw [hekey, hstores.1, hstores.2]
        rfl⟩)) slot (hekey ▸ hslot)
      have htemp := htemps e he
      rw [hekey, if_pos hwritten, haregs] at htemp
      exact hstored.trans htemp
    · rw [if_neg hstores, haothers slot]
      · exact congrFun hbslots slot
      · intro e he hslot'
        obtain ⟨hin, hboth⟩ := List.mem_filter.mp (List.mem_reverse.mp he)
        rw [Bool.and_eq_true, Option.isNone_iff_eq_none] at hboth
        rw [j.slotsKept.slot_inj _ _ slot hslot' hslot] at hboth
        exact hstores hboth

end SpillInput

/-!
## Where values come from

Along a path, the origin of a register's value is the move of a constant or the path up
to the instruction that wrote it last. The slot of a spilled register has the value of
the last instruction whose first access to the register writes it, and a temporary has
what the last run of its instruction left.
-/

inductive Origin
  | start
  | const (op : MirOperand)
  | written (path : List ℕ)
  deriving DecidableEq, Repr

namespace SpillInput

section Origins

variable (j : SpillInput)

def origin (k : RegKey) : List ℕ → Origin
  | [] => .start
  | p :: l =>
    if k ∈ j.writtenAt p then (constantMove (j.f.viewAt p)).elim (.written (p :: l)) .const
    else origin k l

/-- The origin of the value in the register's slot. -/
def stored (k : RegKey) : List ℕ → Origin
  | [] => .start
  | p :: l => if storesIn (j.f.accesses p) k then j.origin k (p :: l) else stored k l

/-- The origin of the value that a reload gives. -/
def kept (k : RegKey) (l : List ℕ) : Origin := (j.rematConst k).elim (j.stored k l) .const

/-- The origin of the value in the temporary that the instruction at `q` has for the
register, none before its first run. -/
def left (q : ℕ) (k : RegKey) : List ℕ → Option Origin
  | [] => none
  | p :: l =>
    if p = q then some (if k ∈ j.writtenAt p then j.origin k (p :: l) else j.kept k l)
    else left q k l

/-- The same when the instruction at `p` is about to read it. -/
def held (p q : ℕ) (k : RegKey) (l : List ℕ) : Option Origin :=
  if q = p ∧ loadsIn (j.f.accesses p) k = true then some (j.kept k l) else j.left q k l

/-- Whatever an operand, a base or an index reads on a path, the temporary that takes its
place holds the value that was written last. -/
def HoldsLastWrite : Prop :=
  ∀ p l, j.f.Run p l → p < j.f.code.length → ∀ x ∈ j.f.placedReads p, j.spills x.2 = true →
    j.held p x.1 (regKey x.2) l = some (j.origin (regKey x.2) l)

end Origins

variable {j : SpillInput} {I : Interp}

/-! ### Values -/

def valueOf (j : SpillInput) (s : State I) (k : RegKey) : Origin → I.Val
  | .start => s.regs k
  | .const op => I.const op
  | .written path => (runPath j.isSlot j.f s path).regs k

theorem exec_viewAt_regs {p : ℕ} (hp : p < j.f.code.length) (s : State I) (k : RegKey) :
    (exec j.isSlot (j.f.viewAt p) s).regs k =
      if k ∈ j.writtenAt p then
        (constantMove (j.f.viewAt p)).elim ((exec j.isSlot (j.f.viewAt p) s).regs k) I.const
      else s.regs k := by
  unfold exec
  rw [spillAccess_viewAt hp]
  dsimp only
  by_cases hk : k ∈ j.writtenAt p
  · rw [if_pos hk]
    cases constantMove (j.f.viewAt p) with
    | none => rfl
    | some op => exact writeAll_const hk 0 _
  · rw [if_neg hk]
    cases constantMove (j.f.viewAt p) with
    | none | some op => exact writeAll_of_not_mem _ hk 0 _

theorem regs_eq_valueOf {p : ℕ} {l : List ℕ} (h : j.f.Run p l) (s : State I) (k : RegKey) :
    (runPath j.isSlot j.f s l).regs k = j.valueOf s k (j.origin k l) := by
  induction l generalizing p with
  | nil => rfl
  | cons q l ih =>
    obtain ⟨hrun, hq⟩ := h.tail
    rw [runPath, exec_viewAt_regs hq, origin]
    by_cases hk : k ∈ j.writtenAt q
    · rw [if_pos hk, if_pos hk]
      cases constantMove (j.f.viewAt q) with
      | none | some op => rfl
    · rw [if_neg hk, if_neg hk, ih hrun]

/-! ### The rewritten code -/

/-- The states of the two codes behind a path, when all reads on it were the same. -/
structure Tracks (j : SpillInput) (s s' : State I) (l : List ℕ) (t t' : State I) : Prop where
  env : t'.env = t.env
  old : ∀ k, j.IsOld k → ¬ j.IsSpilled k → t'.regs k = t.regs k
  slots : ∀ k slot, j.IsSpilled k → j.rematConst k = none → j.slots.spilledRegs k = some slot →
    t'.slots slot = j.valueOf s k (j.stored k l)
  temps : ∀ q < j.f.code.length, ∀ e ∈ j.tempsAt q,
    t'.regs (regKey e.2) = (j.left q e.1 l).elim (s'.regs (regKey e.2)) (j.valueOf s e.1)

theorem StartsKept.tracks {s s' : State I} (h : j.StartsKept s s') : j.Tracks s s' [] s s' where
  env := h.env
  old k hk _ := h.regs k hk
  slots k slot hk _ hslot := by
    obtain ⟨r, hspills, rfl⟩ := hk
    exact h.slots r hspills slot hslot
  temps _ _ _ _ := rfl

section Step

variable {p : ℕ} {l : List ℕ} {s s' t' : State I}

theorem Tracks.loaded_eq {t : State I} (h : j.Tracks s s' l t t') (hk : j.IsSpilled k) :
    j.loaded k t' = j.valueOf s k (j.kept k l) := by
  unfold loaded kept
  cases hremat : j.rematConst k with
  | some op => rfl
  | none =>
    obtain ⟨r, hspills, rfl⟩ := id hk
    obtain ⟨slot, hslot⟩ := isSome_iff_exists.mp (slot_isSome hspills hremat)
    rw [hslot]
    exact h.slots _ slot hk hremat hslot

theorem Tracks.next (hrun : j.f.Run p l) (hp : p < j.f.code.length)
    (h : j.Tracks s s' l (runPath j.isSlot j.f s l) t')
    (hreads : j.rewritten.readsAt j.isSlot p t' =
      readValues (j.f.viewAt p) (runPath j.isSlot j.f s l)) :
    j.Tracks s s' (p :: l) (runPath j.isSlot j.f s (p :: l)) (j.groupState p t') := by
  have hsteps := steps hp h.env hreads
  have hvalue : ∀ k, (exec j.isSlot (j.f.viewAt p) (runPath j.isSlot j.f s l)).regs k =
      j.valueOf s k (j.origin k (p :: l)) := by
    intro k
    rw [exec_viewAt_regs hp, origin]
    by_cases hk : k ∈ j.writtenAt p
    · rw [if_pos hk, if_pos hk]
      cases constantMove (j.f.viewAt p) with
      | none | some op => rfl
    · rw [if_neg hk, if_neg hk, regs_eq_valueOf hrun]
  refine ⟨hsteps.env, fun k hk hspilled => hsteps.old k hk hspilled (h.old k hk hspilled),
    fun k slot hk hremat hslot => ?_, fun q hq e he => ?_⟩
  · rw [hsteps.slots k slot hk hslot, stored]
    by_cases hstores : storesIn (j.f.accesses p) k = true
    · rw [if_pos ⟨hstores, hremat⟩, if_pos hstores]
      exact hvalue k
    · rw [if_neg fun hc => hstores hc.1, if_neg hstores]
      exact h.slots k slot hk hremat hslot
  · rw [left]
    by_cases hqp : p = q
    · subst hqp
      rw [if_pos rfl, hsteps.temps e he, Option.elim_some]
      by_cases hwritten : e.1 ∈ j.writtenAt p
      · rw [if_pos hwritten, if_pos hwritten]
        exact hvalue e.1
      · have hload : loadsIn (j.f.accesses p) e.1 = true := by
          by_contra hno
          exact hwritten (written_of_storesIn
            (storesIn_of_not_loadsIn hp he (Bool.not_eq_true _ ▸ hno)))
        rw [if_neg hwritten, if_neg hwritten, loadedState_temp hp hp he, if_pos ⟨rfl, hload⟩,
          h.loaded_eq (isSpilled_of_mem hp he)]
    · rw [if_neg hqp, hsteps.others q hq (Ne.symm hqp) e he]
      exact h.temps q hq e he

end Step

end SpillInput

end EzPacker.SpillCode
