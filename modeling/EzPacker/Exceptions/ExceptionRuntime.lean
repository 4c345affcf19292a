import Mathlib.Data.Fintype.Card

/-!
# The exception runtime

A thread keeps its exception frames in a chain, the innermost one at the top. Entering a `try`
pushes a frame, a `throw` pops the top one and goes on there. A leave shrinks the chain only when
its frame is the top one: this makes the leave behind a `catch`, whose frame the throw has popped,
do nothing, and it leaves a frame below the top in the chain.
-/

namespace EzPacker.Exceptions

open List Option

variable {ι P R δ : Type}

/-- A frame without its jump buffer, which no function here reads. -/
structure EzExceptionFrame (ι P R : Type) where
  prev : Option ι
  currentPayload : Option P
  currentRtti : Option R
  isCaught : Bool

/-- The frames at their addresses and the thread-local variables. -/
structure Runtime (ι P R : Type) where
  frames : ι → EzExceptionFrame ι P R
  g_ezTopFrame : Option ι
  g_ezCurrentPayload : Option P
  g_ezCurrentRtti : Option R

/-! ## Chains -/

section Chains

/-- The chain from a frame follows the list. -/
def Chain (frames : ι → EzExceptionFrame ι P R) : Option ι → List ι → Prop
  | top, [] => top = none
  | top, f :: rest => top = some f ∧ Chain frames (frames f).prev rest

variable {frames : ι → EzExceptionFrame ι P R} {top : Option ι} {l : List ι}

theorem Chain.top_eq (h : Chain frames top l) : top = l.head? := by
  cases l with
  | nil => exact h
  | cons f rest => exact h.1

theorem Chain.unique {l' : List ι} (h : Chain frames top l) (h' : Chain frames top l') :
    l = l' := by
  induction l generalizing top l' with
  | nil =>
    cases l' with
    | nil => rfl
    | cons g rest => exact absurd (h.symm.trans h'.1) (by simp)
  | cons f rest ih =>
    cases l' with
    | nil => exact absurd (h.1.symm.trans h') (by simp)
    | cons g rest' =>
      obtain rfl : f = g := some.inj (h.1.symm.trans h'.1)
      rw [ih h.2 h'.2]

/-- The links of the frames outside the chain do not matter. -/
theorem Chain.congr {frames' : ι → EzExceptionFrame ι P R} (h : Chain frames top l)
    (hprev : ∀ f ∈ l, (frames' f).prev = (frames f).prev) : Chain frames' top l := by
  induction l generalizing top with
  | nil => exact h
  | cons f rest ih =>
    rw [forall_mem_cons] at hprev
    exact ⟨h.1, hprev.1.symm ▸ ih h.2 hprev.2⟩

end Chains

section Calls

variable [DecidableEq ι] (ez_default_payload : P) (ez_default_rtti : R)

def ez_try_enter : Option ι → Runtime ι P R → Runtime ι P R
  | none, s => s
  | some frame, s =>
    { s with
      frames := Function.update s.frames frame ⟨s.g_ezTopFrame, none, none, false⟩
      g_ezTopFrame := some frame }

def ez_try_leave : Option ι → Runtime ι P R → Runtime ι P R
  | none, s => s
  | some frame, s =>
    if s.g_ezTopFrame = some frame then { s with g_ezTopFrame := (s.frames frame).prev } else s

/-- The frame whose jump buffer is restored; without a frame the thread traps. -/
def ez_throw (payload : Option P) (rtti : Option R) (s : Runtime ι P R) :
    Option (ι × Runtime ι P R) :=
  let effectiveRtti := rtti.getD ez_default_rtti
  let effectivePayload := payload.getD ez_default_payload
  s.g_ezTopFrame.map fun target =>
    (target,
      { frames := Function.update s.frames target
          ⟨(s.frames target).prev, some effectivePayload, some effectiveRtti, true⟩
        g_ezTopFrame := (s.frames target).prev
        g_ezCurrentPayload := some effectivePayload
        g_ezCurrentRtti := some effectiveRtti })

inductive RuntimeCall (ι P R : Type)
  | enter (frame : Option ι)
  | leave (frame : Option ι)
  | throw (payload : Option P) (rtti : Option R)
  deriving DecidableEq

/-- The state behind a call, unless the thread traps. -/
def execute (s : Runtime ι P R) : RuntimeCall ι P R → Option (Runtime ι P R)
  | .enter frame => some (ez_try_enter frame s)
  | .leave frame => some (ez_try_leave frame s)
  | .throw payload rtti =>
    (ez_throw ez_default_payload ez_default_rtti payload rtti s).map Prod.snd

/-! ## The frames that can catch -/

/-- The frames that were entered and neither left nor the target of a throw, the most recent one
first. -/
def live (l : List ι) : RuntimeCall ι P R → List ι
  | .enter frame => frame.toList ++ l
  | .leave frame => frame.elim l l.erase
  | .throw _ _ => l.tail

/-- Every call of the run meets the condition, which may look at the state and at the frames that
can catch; a trap ends the run. -/
def Along (p : Runtime ι P R → List ι → RuntimeCall ι P R → Prop) :
    Runtime ι P R → List ι → List (RuntimeCall ι P R) → Prop
  | _, _, [] => True
  | s, l, call :: calls =>
    p s l call ∧ ∀ s', execute ez_default_payload ez_default_rtti s call = some s' →
      Along p s' (live l call) calls

/-- A throw goes on at the most recent frame with its payload, or traps where there is none. -/
def Transfers (s : Runtime ι P R) (l : List ι) (payload : Option P) (rtti : Option R) : Prop :=
  (ez_throw ez_default_payload ez_default_rtti payload rtti s).map Prod.fst = l.head? ∧
    ∀ target s', ez_throw ez_default_payload ez_default_rtti payload rtti s = some (target, s') →
      s'.frames target = ⟨(s.frames target).prev, some (payload.getD ez_default_payload),
          some (rtti.getD ez_default_rtti), true⟩ ∧
        s'.g_ezCurrentPayload = some (payload.getD ez_default_payload) ∧
        s'.g_ezCurrentRtti = some (rtti.getD ez_default_rtti)

/-- Behind the call the chain holds the frames that can catch, and a throw goes on there. -/
def CallRight (s : Runtime ι P R) (l : List ι) (call : RuntimeCall ι P R) : Prop :=
  (∀ s', execute ez_default_payload ez_default_rtti s call = some s' →
    Chain s'.frames s'.g_ezTopFrame (live l call)) ∧
  ∀ payload rtti, call = .throw payload rtti →
    Transfers ez_default_payload ez_default_rtti s l payload rtti

/-- A frame that is entered is not one of those that can catch. -/
def EntersNew (_ : Runtime ι P R) (l : List ι) (call : RuntimeCall ι P R) : Prop :=
  ∀ frame, call = .enter (some frame) → frame ∉ l

/-- A frame that can catch and is left is the most recent one. -/
def LeavesInnermost (_ : Runtime ι P R) (l : List ι) (call : RuntimeCall ι P R) : Prop :=
  ∀ frame, call = .leave (some frame) → frame ∈ l → l.head? = some frame

variable {ez_default_payload ez_default_rtti} {s : Runtime ι P R} {l : List ι}

theorem Chain.update_frame {frames : ι → EzExceptionFrame ι P R} {top : Option ι}
    (h : Chain frames top l) {f : ι} (hf : f ∉ l) (x : EzExceptionFrame ι P R) :
    Chain (Function.update frames f x) top l := by
  refine h.congr fun g hg => ?_
  have hne : g ≠ f := fun hgf => hf (hgf ▸ hg)
  rw [Function.update_of_ne hne]

section

variable (h : Chain s.frames s.g_ezTopFrame l)
include h

theorem chain_enter {frame : Option ι} (hnew : ∀ f, frame = some f → f ∉ l) :
    Chain (ez_try_enter frame s).frames (ez_try_enter frame s).g_ezTopFrame
      (frame.toList ++ l) := by
  cases frame with
  | none => exact h
  | some f =>
    refine ⟨rfl, ?_⟩
    have hprev : ((ez_try_enter (some f) s).frames f).prev = s.g_ezTopFrame :=
      congrArg _ (Function.update_self ..)
    rw [hprev]
    exact h.update_frame (hnew f rfl) _

/-- A leave keeps the chain right exactly when it is not of a frame below the top. -/
theorem chain_leave_iff (hnodup : l.Nodup) (f : ι) :
    Chain (ez_try_leave (some f) s).frames (ez_try_leave (some f) s).g_ezTopFrame (l.erase f) ↔
      (f ∈ l → l.head? = some f) := by
  have htop := h.top_eq
  simp only [ez_try_leave]
  by_cases hf : s.g_ezTopFrame = some f
  · rw [if_pos hf]
    refine iff_of_true ?_ fun _ => htop.symm.trans hf
    cases l with
    | nil => exact absurd (hf.symm.trans h) (by simp)
    | cons g rest =>
      obtain rfl : f = g := some.inj (hf.symm.trans h.1)
      rw [erase_cons_head]
      exact h.2
  · rw [if_neg hf]
    constructor
    · intro hchain hmem
      have hlen := length_erase_of_mem hmem
      rw [← h.unique hchain] at hlen
      have hpos := length_pos_of_mem hmem
      omega
    · intro himp
      have hnot : f ∉ l := fun hmem => hf (htop.trans (himp hmem))
      rwa [erase_of_not_mem hnot]

theorem transfers_of_chain (payload : Option P) (rtti : Option R) :
    Transfers ez_default_payload ez_default_rtti s l payload rtti := by
  refine ⟨?_, fun target s' hthrow => ?_⟩
  · rw [ez_throw, Option.map_map, ← h.top_eq]
    exact map_id'
  · obtain ⟨f, -, heq⟩ := map_eq_some_iff.mp hthrow
    obtain ⟨rfl, rfl⟩ := Prod.mk.inj heq
    exact ⟨Function.update_self .., rfl, rfl⟩

theorem chain_throw (hnodup : l.Nodup) {payload : Option P} {rtti : Option R} {s' : Runtime ι P R}
    (hs' : execute ez_default_payload ez_default_rtti s (.throw payload rtti) = some s') :
    Chain s'.frames s'.g_ezTopFrame l.tail := by
  obtain ⟨⟨target, s''⟩, hthrow, rfl⟩ := map_eq_some_iff.mp hs'
  obtain ⟨f, hf, heq⟩ := map_eq_some_iff.mp hthrow
  obtain ⟨rfl, rfl⟩ := Prod.mk.inj heq
  cases l with
  | nil => exact absurd (hf.symm.trans h) (by simp)
  | cons g rest =>
    obtain rfl : f = g := some.inj (hf.symm.trans h.1)
    exact h.2.update_frame (nodup_cons.mp hnodup).1 _

/-- From a right chain, a call is right exactly when it leaves no frame below the top. -/
theorem callRight_iff (hnodup : l.Nodup) {call : RuntimeCall ι P R} (hnew : EntersNew s l call) :
    CallRight ez_default_payload ez_default_rtti s l call ↔ LeavesInnermost s l call := by
  refine (and_iff_left fun payload rtti _ => transfers_of_chain h payload rtti).trans ?_
  cases call with
  | enter frame =>
    refine iff_of_true ?_ fun _ hf => by cases hf
    rintro s' ⟨⟩
    exact chain_enter h fun f hf => hnew f (hf ▸ rfl)
  | leave frame =>
    cases frame with
    | none =>
      refine iff_of_true ?_ fun _ hf => by cases hf
      rintro s' ⟨⟩
      exact h
    | some f =>
      refine ⟨fun hchain g hg => ?_, fun hleave s' hs' => ?_⟩
      · cases hg
        exact (chain_leave_iff h hnodup f).mp (hchain _ rfl)
      · cases hs'
        exact (chain_leave_iff h hnodup f).mpr (hleave f rfl)
  | throw payload rtti =>
    exact iff_of_true (fun s' hs' => chain_throw h hnodup hs') fun _ hf => by cases hf

end

theorem nodup_live (hnodup : l.Nodup) {call : RuntimeCall ι P R} (hnew : EntersNew s l call) :
    (live l call).Nodup := by
  cases call with
  | enter frame =>
    cases frame with
    | none => exact hnodup
    | some f => exact nodup_cons.mpr ⟨hnew f rfl, hnodup⟩
  | leave frame =>
    cases frame with
    | none => exact hnodup
    | some f => exact hnodup.erase f
  | throw payload rtti => exact hnodup.tail

/-- The calls of a run are right exactly when none leaves a frame below the top. -/
theorem along_callRight_iff (h : Chain s.frames s.g_ezTopFrame l) (hnodup : l.Nodup)
    {calls : List (RuntimeCall ι P R)}
    (hnew : Along ez_default_payload ez_default_rtti EntersNew s l calls) :
    Along ez_default_payload ez_default_rtti (CallRight ez_default_payload ez_default_rtti) s l
        calls ↔
      Along ez_default_payload ez_default_rtti LeavesInnermost s l calls := by
  induction calls generalizing s l with
  | nil => exact Iff.rfl
  | cons call calls ih =>
    rw [Along, Along, ← callRight_iff h hnodup hnew.1]
    refine and_congr_right fun hright => forall₂_congr fun s' hs' => ?_
    exact ih (hright.1 s' hs') (nodup_live hnodup hnew.1) (hnew.2 s' hs')

end Calls

/-! ## Type descriptors -/

/-- A descriptor with the array of its bases; the name and the site of the declaration are not
read. -/
structure RttiTypeDescriptor (δ : Type) where
  typeId : BitVec 64
  numBases : BitVec 32
  bases : Option (List (Option δ))
  length_bases : ∀ l, bases = some l → l.length = numBases.toNat

/-- The loop over the bases. -/
def anyBase (isA : δ → Option Bool) : List (Option δ) → Option Bool
  | [] => some false
  | none :: rest => anyBase isA rest
  | some base :: rest => (isA base).bind fun found => if found then some true else anyBase isA rest

def isA [DecidableEq δ] (desc : δ → RttiTypeDescriptor δ) :
    ℕ → δ → Option δ → Option Bool
  | 0, _, _ => none
  | _ + 1, _, none => some false
  | fuel + 1, this, some target =>
    if this = target ∨ (desc this).typeId = (desc target).typeId then some true
    else anyBase (isA desc fuel · (some target)) ((desc this).bases.getD [])

def ez_catch_matches [DecidableEq δ] (desc : δ → RttiTypeDescriptor δ) (fuel : ℕ)
    (thrownRtti filterRtti : Option δ) : Option Bool :=
  match filterRtti, thrownRtti with
  | none, _ => some true
  | some _, none => some false
  | some filter, some thrown => isA desc fuel thrown (some filter)

section Hierarchy

variable (desc : δ → RttiTypeDescriptor δ)

/-- The second descriptor has a link to the first one. -/
def IsBase (base this : δ) : Prop := ∃ l, (desc this).bases = some l ∧ some base ∈ l

def Acyclic : Prop := ∀ this, ¬ Relation.TransGen (IsBase desc) this this

/-- Base links lead from the type to the target or to a descriptor with its `typeId`. -/
def Reaches (this target : δ) : Prop :=
  ∃ last, Relation.ReflTransGen (fun a b => IsBase desc b a) this last ∧
    (desc last).typeId = (desc target).typeId

/-- The filter is null or reachable from the thrown type. -/
def Matches (thrownRtti filterRtti : Option δ) : Prop :=
  ∀ filter, filterRtti = some filter → ∃ thrown, thrownRtti = some thrown ∧
    Reaches desc thrown filter

/-- With enough fuel there is a result, and it says whether the filter matches. -/
def CatchRight [DecidableEq δ] : Prop :=
  ∀ thrownRtti filterRtti, ∃ result enough, (result = true ↔ Matches desc thrownRtti filterRtti) ∧
    ∀ fuel, enough ≤ fuel → ez_catch_matches desc fuel thrownRtti filterRtti = some result

variable {desc}

theorem reaches_iff {this target : δ} : Reaches desc this target ↔
    (desc this).typeId = (desc target).typeId ∨
      ∃ base, IsBase desc base this ∧ Reaches desc base target := by
  constructor
  · rintro ⟨last, hpath, hid⟩
    rcases hpath.cases_head with rfl | ⟨base, hbase, hpath⟩
    · exact .inl hid
    · exact .inr ⟨base, hbase, last, hpath, hid⟩
  · rintro (hid | ⟨base, hbase, last, hpath, hid⟩)
    · exact ⟨this, .refl, hid⟩
    · exact ⟨last, .head hbase hpath, hid⟩

variable (desc) in
/-- Descriptors of one type have bases of the same types. -/
def SameBases : Prop :=
  ∀ a b base, (desc a).typeId = (desc b).typeId → IsBase desc base a →
    ∃ base', IsBase desc base' b ∧ (desc base').typeId = (desc base).typeId

variable (desc) in
/-- A descriptor of the first type has one of the second as a base. -/
def TypeBase (x y : BitVec 64) : Prop :=
  ∃ a b, (desc a).typeId = x ∧ (desc b).typeId = y ∧ IsBase desc b a

/-- The types along the links are reached whatever descriptor stands for each of them. -/
theorem reaches_iff_typeIds (hsame : SameBases desc) (this target : δ) : Reaches desc this target ↔
    Relation.ReflTransGen (TypeBase desc) (desc this).typeId (desc target).typeId := by
  constructor
  · rintro ⟨last, hpath, hid⟩
    rw [← hid]
    exact hpath.lift (fun d => (desc d).typeId) fun a b hbase => ⟨a, b, rfl, rfl, hbase⟩
  · intro hpath
    generalize hx : (desc this).typeId = x at hpath
    induction hpath using Relation.ReflTransGen.head_induction_on generalizing this with
    | refl => exact ⟨this, .refl, hx⟩
    | head hstep _ ih =>
      obtain ⟨a, b, rfl, rfl, hbase⟩ := hstep
      obtain ⟨base, hbase', hid⟩ := hsame a this b hx.symm hbase
      obtain ⟨last, hrest, hlast⟩ := ih base hid
      exact ⟨last, .head hbase' hrest, hlast⟩

theorem wellFounded_isBase [Finite δ] (h : Acyclic desc) : WellFounded (IsBase desc) := by
  have : IsTrans δ (Relation.TransGen (IsBase desc)) := ⟨fun _ _ _ => .trans⟩
  have : Std.Irrefl (Relation.TransGen (IsBase desc)) := ⟨h⟩
  exact Subrelation.wf .single
    (Finite.wellFounded_of_trans_of_irrefl (Relation.TransGen (IsBase desc)))

/-- A loop over bases that all get a result gets one. -/
theorem anyBase_result (isA : ℕ → δ → Option Bool) (p : δ → Prop) (l : List (Option δ))
    (h : ∀ base, some base ∈ l → ∃ result enough, (result = true ↔ p base) ∧
      ∀ fuel, enough ≤ fuel → isA fuel base = some result) :
    ∃ result enough, (result = true ↔ ∃ base, some base ∈ l ∧ p base) ∧
      ∀ fuel, enough ≤ fuel → anyBase (isA fuel) l = some result := by
  induction l with
  | nil => exact ⟨false, 0, by simp, fun _ _ => rfl⟩
  | cons link rest ih =>
    obtain ⟨result, enough, hiff, hrun⟩ := ih fun base hbase => h base (.tail _ hbase)
    cases link with
    | none => exact ⟨result, enough, by simpa using hiff, hrun⟩
    | some base =>
      obtain ⟨first, enough', hfirst, hrun'⟩ := h base (.head _)
      refine ⟨first || result, max enough enough', ?_, fun fuel hfuel => ?_⟩
      · simp [hfirst, hiff]
      · rw [anyBase, hrun' fuel (by omega), hrun fuel (by omega)]
        cases first <;> rfl

theorem isA_result [DecidableEq δ] (hwf : WellFounded (IsBase desc)) (this target : δ) :
    ∃ result enough, (result = true ↔ Reaches desc this target) ∧
      ∀ fuel, enough ≤ fuel → isA desc fuel this (some target) = some result := by
  induction this using hwf.induction with
  | _ this ih =>
  by_cases hid : (desc this).typeId = (desc target).typeId
  · refine ⟨true, 1, iff_of_true rfl (reaches_iff.mpr (.inl hid)), fun fuel hfuel => ?_⟩
    obtain ⟨fuel, rfl⟩ := Nat.exists_eq_add_of_le' hfuel
    exact if_pos (.inr hid)
  · obtain ⟨result, enough, hiff, hrun⟩ := anyBase_result
      (fun fuel base => isA desc fuel base (some target)) (Reaches desc · target)
      ((desc this).bases.getD []) fun base hbase => ih base (by
        cases hbases : (desc this).bases with
        | none => exact absurd (hbases ▸ hbase) not_mem_nil
        | some l => exact ⟨l, hbases, by simpa [hbases] using hbase⟩)
    refine ⟨result, enough + 1, ?_, fun fuel hfuel => ?_⟩
    · rw [hiff, reaches_iff, or_iff_right hid]
      refine exists_congr fun base => and_congr_left fun _ => ?_
      unfold IsBase
      cases (desc this).bases <;> simp
    · obtain ⟨fuel, rfl⟩ := Nat.exists_eq_add_of_le' (Nat.le_of_add_left_le hfuel)
      rw [isA, if_neg, hrun fuel (by omega)]
      rintro (rfl | heq)
      · exact hid rfl
      · exact hid heq

theorem catchRight_of_acyclic [DecidableEq δ] [Finite δ] (h : Acyclic desc) :
    CatchRight desc := by
  intro thrownRtti filterRtti
  unfold Matches
  cases filterRtti with
  | none => exact ⟨true, 0, by simp, fun _ _ => rfl⟩
  | some filter =>
    cases thrownRtti with
    | none => exact ⟨false, 0, by simp, fun _ _ => rfl⟩
    | some thrown =>
      obtain ⟨result, enough, hiff, hrun⟩ := isA_result (wellFounded_isBase h) thrown filter
      exact ⟨result, enough, by simpa using hiff, hrun⟩

/-- A type with two descriptors. -/
def twoCopies (_ : Bool) : RttiTypeDescriptor Bool := ⟨1, 0, none, nofun⟩

end Hierarchy

/-! ## The runtime -/

/-- The calls of a run keep the chain and throw to its top, and every hierarchy of types is
searched right. -/
def DispatchesRight [DecidableEq ι] (ez_default_payload : P) (ez_default_rtti : R)
    (s : Runtime ι P R) (calls : List (RuntimeCall ι P R)) : Prop :=
  Along ez_default_payload ez_default_rtti (CallRight ez_default_payload ez_default_rtti) s []
      calls ∧
    ∀ (δ : Type) [Finite δ] [DecidableEq δ] (desc : δ → RttiTypeDescriptor δ),
      Acyclic desc → CatchRight desc

/-- Exceptions are dispatched right in exactly the runs that leave no frame below the top. -/
theorem dispatchesRight_iff [DecidableEq ι] (ez_default_payload : P) (ez_default_rtti : R)
    {s : Runtime ι P R} (hs : s.g_ezTopFrame = none) {calls : List (RuntimeCall ι P R)}
    (hnew : Along ez_default_payload ez_default_rtti EntersNew s [] calls) :
    DispatchesRight ez_default_payload ez_default_rtti s calls ↔
      Along ez_default_payload ez_default_rtti LeavesInnermost s [] calls := by
  have hchain : Chain s.frames s.g_ezTopFrame [] := hs
  rw [← along_callRight_iff hchain .nil hnew]
  exact and_iff_left fun _ _ _ _ h => catchRight_of_acyclic h

/-- The state of a new thread. -/
def newThread : Runtime ℕ ℕ ℕ := ⟨fun _ => ⟨none, none, none, false⟩, none, none, none⟩

theorem nested_dispatchesRight :
    DispatchesRight 0 0 newThread [.enter (some 1), .enter (some 2), .leave (some 2)] := by
  refine (dispatchesRight_iff 0 0 rfl ?_).mpr ?_
  · simp [Along, EntersNew, execute, live]
  · simp [Along, LeavesInnermost, execute, live]

/-- The outer frame is left first and stays in the chain. -/
theorem outer_leave_not_dispatched :
    ¬ DispatchesRight 0 0 newThread [.enter (some 1), .enter (some 2), .leave (some 1)] := by
  rintro ⟨⟨-, h⟩, -⟩
  obtain ⟨⟨hchain, -⟩, -⟩ := ((h _ rfl).2 _ rfl)
  have hprev : some 1 = none := (hchain _ rfl).2
  cases hprev

end EzPacker.Exceptions
