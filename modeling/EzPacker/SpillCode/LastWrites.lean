import EzPacker.SpillCode.GroupExecution

/-!
# When the reads are kept

The rewritten code reads the same in every machine exactly when every temporary that is
read holds what was written last. That it suffices is an induction on the path. That it
is needed is seen in the machine that counts: every instruction but a move of a constant
writes the number of such instructions before it, so that values tell their origins.
-/

namespace EzPacker.SpillCode

open Function Mir RegAlloc KeyedSet

namespace SpillInput

variable {j : SpillInput} {I : Interp}

/-! ### The reads of one instruction -/

section Reads

variable {p : ℕ} {l : List ℕ} {s s' t' : State I}

section

variable (hp : p < j.f.code.length)
include hp

theorem exists_temp {x : ℕ × MirRegisterRef} (hx : x ∈ j.f.placedReads p)
    (hspills : j.spills x.2 = true) :
    x.1 < j.f.code.length ∧ ∃ e ∈ j.tempsAt x.1, e.1 = regKey x.2 := by
  obtain ⟨site, hsite, rfl⟩ := List.mem_map.mp hx
  obtain ⟨hmem, hread⟩ := List.mem_filter.mp hsite
  have hq := lt_length_of_mem_sites hp hmem
  have hflagged : site.2.flagged = true := Bool.or_eq_true_iff.mpr (Or.inl hread)
  refine ⟨hq, List.mem_map.mp (((fitsAt hq).keys _).mpr ?_)⟩
  exact ⟨site.2, (accesses_of_mem_sites hp hmem).2, rfl, hflagged, hspills⟩

theorem isOld_of_placedReads {x : ℕ × MirRegisterRef} (hx : x ∈ j.f.placedReads p) :
    j.IsOld (regKey x.2) := by
  obtain ⟨site, hsite, rfl⟩ := List.mem_map.mp hx
  exact isOld_site hp (List.mem_filter.mp hsite).1

theorem implicitUses_old {k : RegKey} (hk : k ∈ j.implicitUses p) :
    j.IsOld k ∧ ¬ j.IsSpilled k := by
  obtain ⟨r, hr, rfl⟩ := List.mem_map.mp hk
  cases hdesc : (j.f.instAt p).targetDesc with
  | none =>
    rw [hdesc] at hr
    cases hr
  | some desc =>
    rw [hdesc] at hr
    have hphysical := j.implicit _ (instAt_mem hp) desc hdesc r (List.mem_append_right _ hr)
    have hkey : regKey r = .preg r.regClass r.id := by
      rw [regKey, if_neg (by rw [hphysical]; exact Bool.false_ne_true)]
    rw [hkey]
    constructor
    · intro id hid
      cases hid
    rintro ⟨r', hspills, hr'⟩
    rw [spills, Bool.and_eq_true, contains_iff, mem_keys] at hspills
    obtain ⟨⟨r₀, hr₀, hkey₀⟩, -⟩ := hspills
    rw [hr', regKey, if_pos (j.isVirtual r₀ hr₀)] at hkey₀
    cases hkey₀

theorem Tracks.temp_eq {t : State I} (h : j.Tracks s s' l t t') {q : ℕ} (hq : q < j.f.code.length)
    {e : RegKey × MirRegisterRef} (he : e ∈ j.tempsAt q) : (j.loadedState p t').regs (regKey e.2) =
      (j.held p q e.1 l).elim (s'.regs (regKey e.2)) (j.valueOf s e.1) := by
  rw [loadedState_temp hp hq he, held]
  by_cases hload : q = p ∧ loadsIn (j.f.accesses p) e.1 = true
  · rw [if_pos hload, if_pos hload, h.loaded_eq (isSpilled_of_mem hq he)]
    rfl
  · rw [if_neg hload, if_neg hload]
    exact h.temps q hq e he

theorem Tracks.reads_iff {t : State I} (h : j.Tracks s s' l t t') :
    j.rewritten.readsAt j.isSlot p t' = readValues (j.f.viewAt p) t ↔
      ∀ x ∈ j.f.placedReads p, j.spills x.2 = true → ∀ e ∈ j.tempsAt x.1, e.1 = regKey x.2 →
          (j.held p x.1 e.1 l).elim (s'.regs (regKey e.2)) (j.valueOf s e.1) = t.regs e.1 := by
  have himplicit : (j.implicitUses p).map (j.loadedState p t').regs =
      (j.implicitUses p).map t.regs := by
    refine List.map_congr_left fun k hk => ?_
    obtain ⟨hold, hspilled⟩ := implicitUses_old hp hk
    rw [loadedState_old hp t' hold, h.old k hold hspilled]
  rw [readsAt_eq hp, readValues_eq, himplicit, List.append_left_inj, List.map_inj_left]
  constructor
  · intro hall x hx hspills e he hkey
    have hq := (exists_temp hp hx hspills).1
    have hvalue := hall x hx
    rw [← hkey, placeKey_temp hq he, h.temp_eq hp hq he] at hvalue
    exact hvalue
  · intro hall x hx
    by_cases hspills : j.spills x.2 = true
    · obtain ⟨hq, e, he, hkey⟩ := exists_temp hp hx hspills
      rw [← hkey, placeKey_temp hq he, h.temp_eq hp hq he]
      exact hall x hx hspills e he hkey
    · obtain ⟨site, hsite, rfl⟩ := List.mem_map.mp hx
      have hq := lt_length_of_mem_sites hp (List.mem_filter.mp hsite).1
      have hkeep : regKey site.2.1 ∉ (j.tempsAt site.1).map Prod.fst := by
        intro hmem
        obtain ⟨r, hr, hkey⟩ := spilled_of_tempsAt hq hmem
        exact hspills ((spills_congr hkey).symm.trans hr)
      have hold := isOld_of_placedReads hp hx
      rw [placeKey_of_none hkeep, loadedState_old hp t' hold, h.old _ hold]
      rintro ⟨r, hr, hkey⟩
      exact hspills ((spills_congr hkey).symm.trans hr)

end

end Reads

/-! ### It suffices -/

variable {p : ℕ} {l : List ℕ}

theorem HoldsLastWrite.tracks (hholds : j.HoldsLastWrite) {s s' : State I}
    (hstart : j.StartsKept s s') (hrun : j.f.Run p l) :
    j.Tracks s s' l (runPath j.isSlot j.f s l) (j.rewritten.runPath j.isSlot s' l) := by
  induction l generalizing p with
  | nil => exact hstart.tracks
  | cons q l ih =>
    obtain ⟨hrun', hq⟩ := hrun.tail
    have htracks := ih hrun'
    refine htracks.next hrun' hq ((htracks.reads_iff hq).mpr fun x hx hspills e _ hkey => ?_)
    rw [hkey, hholds q l hrun' hq x hx hspills, Option.elim_some, regs_eq_valueOf hrun']

theorem HoldsLastWrite.groupsKeepReads (hholds : j.HoldsLastWrite) : j.GroupsKeepReads := by
  intro I s s' hstart p l hrun hp
  have htracks := hholds.tracks hstart hrun
  refine (htracks.reads_iff hp).mpr fun x hx hspills e _ hkey => ?_
  rw [hkey, hholds p l hrun hp x hx hspills, Option.elim_some, regs_eq_valueOf hrun]

theorem GroupsKeepReads.tracks (hkeeps : j.GroupsKeepReads) {s s' : State I}
    (hstart : j.StartsKept s s') (hrun : j.f.Run p l) :
    j.Tracks s s' l (runPath j.isSlot j.f s l) (j.rewritten.runPath j.isSlot s' l) := by
  induction l generalizing p with
  | nil => exact hstart.tracks
  | cons q l ih =>
    obtain ⟨hrun', hq⟩ := hrun.tail
    exact (ih hrun').next hrun' hq (hkeeps I s s' hstart q l hrun' hq)

/-! ### The machine that counts -/

inductive Term
  | start
  | const (op : MirOperand)
  | tick (n : ℕ)
  | other
  deriving DecidableEq, Repr

def counting : Interp := ⟨Term, ℕ, .const, fun _ _ n => (fun _ => .tick n, n + 1)⟩

def countingStart : State counting := ⟨fun _ => .start, fun _ => .start, (0 : ℕ)⟩

def count (t : State counting) : ℕ := t.env

/-- The temporaries hold no value that the function computes. -/
def temporariesUnset (j : SpillInput) : State counting where
  regs
    | .vreg id => if id < j.ctx.nextId then .start else .other
    | .preg _ _ => .start
  slots _ := .start
  env := (0 : ℕ)

theorem startsKept_counting (j : SpillInput) :
    j.StartsKept countingStart j.temporariesUnset where
  regs k hk := by
    cases k with
    | vreg id => exact if_pos (hk id rfl)
    | preg regClass id => rfl
  slots _ _ _ _ := rfl
  env := rfl

variable {k : RegKey}

theorem temporariesUnset_temp (hk : ¬ j.IsOld k) : j.temporariesUnset.regs k = Term.other := by
  cases k with
  | vreg id =>
    refine if_neg fun hlt => hk ?_
    rintro _ ⟨⟩
    exact hlt
  | preg regClass id => exact absurd (fun _ hid => by cases hid) hk

/-- How many instructions a path counts. -/
def ticks (j : SpillInput) (l : List ℕ) : ℕ :=
  count (runPath j.isSlot j.f countingStart l)

theorem count_exec (isSlot : ℕ → Bool) (inst : MirInstruction) (t : State counting) :
    count t ≤ count (exec isSlot inst t) := by
  unfold exec
  cases spillAccess isSlot inst with
  | some access => cases access <;> exact le_rfl
  | none =>
    cases constantMove inst with
    | none => exact Nat.le_succ (count t)
    | some op => exact le_rfl

theorem ticks_mono {l' : List ℕ} (h : l <:+ l') : j.ticks l ≤ j.ticks l' := by
  obtain ⟨more, rfl⟩ := h
  induction more with
  | nil => exact le_rfl
  | cons p more ih => exact ih.trans (count_exec _ _ _)

section Counted

variable {p : ℕ} {l : List ℕ} {k : RegKey}

theorem ticks_cons (hp : p < j.f.code.length) (hmove : constantMove (j.f.viewAt p) = none) :
    j.ticks (p :: l) = j.ticks l + 1 := by
  unfold ticks
  rw [runPath]
  unfold exec
  rw [spillAccess_viewAt hp, hmove]
  rfl

theorem regs_counting (hp : p < j.f.code.length) (hmove : constantMove (j.f.viewAt p) = none)
    (hk : k ∈ j.writtenAt p) :
    (runPath j.isSlot j.f countingStart (p :: l)).regs k = Term.tick (j.ticks l) := by
  rw [runPath]
  unfold exec
  rw [spillAccess_viewAt hp, hmove]
  exact writeAll_const hk 0 _

end Counted

def OnPath (j : SpillInput) (k : RegKey) (l : List ℕ) : Origin → Prop
  | .written path => path <:+ l ∧ ∃ p before, path = p :: before ∧ p < j.f.code.length ∧
      k ∈ j.writtenAt p ∧ constantMove (j.f.viewAt p) = none
  | _ => True

variable {o : Origin}

theorem OnPath.cons (h : j.OnPath k l o) (p : ℕ) : j.OnPath k (p :: l) o := by
  cases o with
  | written path => exact ⟨h.1.trans (List.suffix_cons p l), h.2⟩
  | _ => trivial

section

variable (hl : ∀ p ∈ l, p < j.f.code.length)
include hl

theorem onPath_origin (k : RegKey) : j.OnPath k l (j.origin k l) := by
  induction l with
  | nil => trivial
  | cons p l ih =>
    rw [origin]
    by_cases hk : k ∈ j.writtenAt p
    · rw [if_pos hk]
      cases hmove : constantMove (j.f.viewAt p) with
      | some op => trivial
      | none => exact ⟨List.suffix_rfl, p, l, rfl, hl p List.mem_cons_self, hk, hmove⟩
    · rw [if_neg hk]
      exact (ih fun q hq => hl q (List.mem_cons_of_mem _ hq)).cons p

theorem onPath_stored (k : RegKey) : j.OnPath k l (j.stored k l) := by
  induction l with
  | nil => trivial
  | cons p l ih =>
    rw [stored]
    split
    · exact onPath_origin hl k
    · exact (ih fun q hq => hl q (List.mem_cons_of_mem _ hq)).cons p

theorem onPath_kept (k : RegKey) : j.OnPath k l (j.kept k l) := by
  unfold kept
  cases j.rematConst k with
  | some op => trivial
  | none => exact onPath_stored hl k

theorem onPath_left {q : ℕ} (ho : j.left q k l = some o) : j.OnPath k l o := by
  induction l with
  | nil => cases ho
  | cons p l ih =>
    have hl' : ∀ q ∈ l, q < j.f.code.length := fun q hq => hl q (List.mem_cons_of_mem _ hq)
    rw [left] at ho
    split at ho
    · obtain rfl := Option.some.inj ho
      split
      · exact onPath_origin hl k
      · exact (onPath_kept hl' k).cons p
    · exact (ih hl' ho).cons p

theorem onPath_held {q : ℕ} (ho : j.held p q k l = some o) : j.OnPath k l o := by
  rw [held] at ho
  split at ho
  · obtain rfl := Option.some.inj ho
    exact onPath_kept hl k
  · exact onPath_left hl ho

end

theorem valueOf_ne_other (ho : j.OnPath k l o) : j.valueOf countingStart k o ≠ Term.other := by
  cases o with
  | start | const op => exact fun h => by cases h
  | written path =>
    obtain ⟨-, p, before, rfl, hp, hk, hmove⟩ := ho
    change (runPath j.isSlot j.f countingStart (p :: before)).regs k ≠ _
    rw [regs_counting hp hmove hk]
    exact fun h => by cases h

theorem valueOf_written {path : List ℕ} (h : j.OnPath k l (.written path)) :
    ∃ p before, path = p :: before ∧
      j.valueOf countingStart k (.written path) = Term.tick (j.ticks before) ∧
      j.ticks path = j.ticks before + 1 := by
  obtain ⟨-, p, before, rfl, hp, hk, hmove⟩ := h
  exact ⟨p, before, rfl, regs_counting hp hmove hk, ticks_cons hp hmove⟩

theorem written_eq_of_suffix {path path' : List ℕ}
    (ho : j.OnPath k l (.written path)) (ho' : j.OnPath k l (.written path'))
    (h : j.valueOf countingStart k (.written path) = j.valueOf countingStart k (.written path'))
    (hsuffix : path <:+ path') : path = path' := by
  obtain ⟨p, before, rfl, hvalue, hticks⟩ := valueOf_written ho
  obtain ⟨p', before', rfl, hvalue', -⟩ := valueOf_written ho'
  rw [hvalue, hvalue'] at h
  have hcount := Term.tick.inj h
  rcases List.suffix_cons_iff.mp hsuffix with heq | hbefore
  · exact heq
  · have := ticks_mono (j := j) hbefore
    omega

theorem valueOf_inj {o' : Origin} (ho : j.OnPath k l o) (ho' : j.OnPath k l o')
    (h : j.valueOf countingStart k o = j.valueOf countingStart k o') : o = o' := by
  cases o with
  | start =>
    cases o' with
    | start => rfl
    | const op => cases h
    | written path =>
      obtain ⟨_, _, _, hvalue, -⟩ := valueOf_written ho'
      rw [hvalue] at h
      cases h
  | const op =>
    cases o' with
    | start => cases h
    | const op' => rw [Term.const.inj h]
    | written path =>
      obtain ⟨_, _, _, hvalue, -⟩ := valueOf_written ho'
      rw [hvalue] at h
      cases h
  | written path =>
    cases o' with
    | start | const op =>
      obtain ⟨_, _, _, hvalue, -⟩ := valueOf_written ho
      rw [hvalue] at h
      cases h
    | written path' =>
      rcases List.suffix_or_suffix_of_suffix ho.1 ho'.1 with hsuffix | hsuffix
      · rw [written_eq_of_suffix ho ho' h hsuffix]
      · rw [written_eq_of_suffix ho' ho h.symm hsuffix]

/-! ### It is needed -/

theorem lt_of_run (h : j.f.Run p l) : ∀ q ∈ l, q < j.f.code.length := by
  induction l generalizing p with
  | nil => exact fun _ hq => nomatch hq
  | cons q l ih =>
    obtain ⟨hrun, hq⟩ := h.tail
    intro q' hq'
    rcases List.mem_cons.mp hq' with rfl | hq'
    · exact hq
    · exact ih hrun q' hq'

theorem GroupsKeepReads.holdsLastWrite (hkeeps : j.GroupsKeepReads) : j.HoldsLastWrite := by
  intro p l hrun hp x hx hspills
  have hl := lt_of_run hrun
  have htracks := hkeeps.tracks j.startsKept_counting hrun
  obtain ⟨hq, e, he, hkey⟩ := exists_temp hp hx hspills
  have hvalue := (htracks.reads_iff hp).mp
    (hkeeps counting countingStart j.temporariesUnset j.startsKept_counting p l hrun hp)
    x hx hspills e he hkey
  rw [hkey, regs_eq_valueOf hrun, temporariesUnset_temp (not_isOld_temp hq he)] at hvalue
  have horigin := onPath_origin hl (regKey x.2)
  cases hheld : j.held p x.1 (regKey x.2) l with
  | none =>
    rw [hheld] at hvalue
    exact absurd hvalue.symm (valueOf_ne_other horigin)
  | some o =>
    rw [hheld] at hvalue
    exact congrArg some (valueOf_inj (onPath_held hl hheld) horigin hvalue)

end SpillInput

end EzPacker.SpillCode
