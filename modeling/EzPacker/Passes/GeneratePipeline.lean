import EzPacker.Lib.DepthFirstOrder
import Mathlib.Data.String.Basic

/-!
# The pass pipeline

The pass manager keeps one pass for each registered type. The pipeline is generated from the
Transform passes in the order of their names, each resolved behind the passes it depends on by a
depth-first search with the identifiers on the current path and those that are resolved.
-/

namespace EzPacker.Passes

open List Relation

inductive MirPassType
  | Transform | Analysis
  deriving DecidableEq, Repr

/-- A pass, with the types of the passes that it depends on. -/
structure MirPass (ι ν : Type*) where
  name : ν
  passType : MirPassType
  dependencies : List ι

/-- The registered passes in the iteration order of the map. -/
structure Blueprint (ι ν : Type*) where
  entries : List (ι × MirPass ι ν)
  nodup : (entries.map Prod.fst).Nodup

/-- The two exceptions that the resolution throws. -/
inductive PipelineError
  | CircularDependency | MissingPass
  deriving DecidableEq, Repr

structure PipelineState (ι : Type*) where
  resolved : List ι
  executionPipeline : List ι
  deriving DecidableEq

variable {ι ν : Type*} [DecidableEq ι]

namespace Blueprint

omit [DecidableEq ι] in
theorem nodup_empty : (([] : List (ι × MirPass ι ν)).map Prod.fst).Nodup := nodup_nil

def empty : Blueprint ι ν := ⟨[], nodup_empty⟩

def find (b : Blueprint ι ν) (passId : ι) : Option (MirPass ι ν) :=
  (b.entries.find? fun entry => entry.1 = passId).map Prod.snd

def keys (b : Blueprint ι ν) : List ι := b.entries.map Prod.fst

theorem nodup_addPass (b : Blueprint ι ν) (passId : ι) (pass : MirPass ι ν) :
    ((b.entries.filter (fun entry => entry.1 ≠ passId) ++ [(passId, pass)]).map
      Prod.fst).Nodup := by
  rw [map_append, map_singleton, nodup_append]
  refine ⟨b.nodup.sublist (filter_sublist.map _), nodup_singleton _, ?_⟩
  intro p hp q hq
  obtain ⟨entry, hentry, rfl⟩ := mem_map.mp hp
  obtain rfl := mem_singleton.mp hq
  exact of_decide_eq_true (mem_filter.mp hentry).2

/-- A pass of a type that is registered already is replaced. -/
def addPass (b : Blueprint ι ν) (passId : ι) (pass : MirPass ι ν) : Blueprint ι ν :=
  ⟨b.entries.filter (fun entry => entry.1 ≠ passId) ++ [(passId, pass)],
    b.nodup_addPass passId pass⟩

/-- The registered passes of type Transform. -/
def transforms (b : Blueprint ι ν) : List (ι × MirPass ι ν) :=
  b.entries.filter fun entry => entry.2.passType = .Transform

/-- An order that sorting the Transform passes by name can yield. -/
structure Sorted [LT ν] (b : Blueprint ι ν) (orderedPasses : List (ι × MirPass ι ν)) : Prop where
  perm : orderedPasses.Perm b.transforms
  sorted : orderedPasses.Pairwise fun lhs rhs => ¬rhs.2.name < lhs.2.name

variable {b : Blueprint ι ν} {passId : ι}

theorem find_eq_some_iff {pass : MirPass ι ν} :
    b.find passId = some pass ↔ (passId, pass) ∈ b.entries := by
  unfold find
  constructor
  · intro h
    obtain ⟨entry, hentry, rfl⟩ := Option.map_eq_some_iff.mp h
    obtain rfl : entry.1 = passId := by simpa using find?_some hentry
    exact mem_of_find?_eq_some hentry
  · intro h
    cases hfind : b.entries.find? fun entry => entry.1 = passId with
    | none => exact absurd (find?_eq_none.mp hfind _ h) (by simp)
    | some entry =>
      have hkey : entry.1 = passId := by simpa using find?_some hfind
      have heq := inj_on_of_nodup_map b.nodup (mem_of_find?_eq_some hfind) h hkey
      rw [heq, Option.map_some]

theorem mem_keys_iff : passId ∈ b.keys ↔ ∃ pass, b.find passId = some pass := by
  unfold keys
  simp only [mem_map, Prod.exists, exists_and_right, exists_eq_right, find_eq_some_iff]

theorem unresolved_lt {path : List ι} {pass : MirPass ι ν}
    (hfind : b.find passId = some pass) (hpath : passId ∉ path) :
    (b.keys.filter (· ∉ passId :: path)).length < (b.keys.filter (· ∉ path)).length := by
  have hsub : (b.keys.filter (· ∉ passId :: path)) =
      (b.keys.filter (· ∉ path)).filter (· ≠ passId) := by
    rw [filter_filter]
    refine filter_congr fun p _ => ?_
    simp only [mem_cons, not_or, Bool.decide_and]
  rw [hsub]
  refine length_filter_lt_length_iff_exists.mpr ⟨passId, ?_, by simp⟩
  rw [mem_filter]
  exact ⟨mem_keys_iff.mpr ⟨pass, hfind⟩, decide_eq_true hpath⟩

end Blueprint

/-- The identifier behind those it depends on; in test mode alone. `seenInCurrentPath` holds the
identifiers whose dependencies are being resolved. -/
def resolveDependencies (b : Blueprint ι ν) (testMode : Bool) (passId : ι)
    (seenInCurrentPath : List ι) (s : PipelineState ι) :
    Except PipelineError (PipelineState ι) :=
  if passId ∈ s.resolved then .ok s
  else if passId ∈ seenInCurrentPath then .error .CircularDependency
  else
    match _hfind : b.find passId with
    | none => .error .MissingPass
    | some pass =>
      let dependencies := if testMode then [] else pass.dependencies
      (dependencies.foldlM (fun s depId =>
          resolveDependencies b testMode depId (passId :: seenInCurrentPath) s) s).map fun s =>
        ⟨passId :: s.resolved, s.executionPipeline ++ [passId]⟩
termination_by (b.keys.filter (· ∉ seenInCurrentPath)).length
decreasing_by exact Blueprint.unresolved_lt _hfind ‹_›

def generatePipeline (b : Blueprint ι ν) (testMode : Bool)
    (orderedPasses : List (ι × MirPass ι ν)) : Except PipelineError (PipelineState ι) :=
  orderedPasses.foldlM (fun s entry => resolveDependencies b testMode entry.1 [] s) ⟨[], []⟩

/-!
## The pipeline is a topological order

A resolution that succeeds extends the pipeline by what the identifier depends on, each behind its
own dependencies. It fails only at a pass that is not registered or that depends on itself.
-/

variable {ι ν : Type*} [DecidableEq ι] {b : Blueprint ι ν}

namespace Blueprint

/-- The pass `p` is registered and names `d` among its dependencies. -/
def DependsOn (b : Blueprint ι ν) (p d : ι) : Prop :=
  ∃ pass, b.find p = some pass ∧ d ∈ pass.dependencies

/-- A pass that is not registered or lies on a cycle. -/
def Blocked (b : Blueprint ι ν) (p : ι) : Prop := b.find p = none ∨ TransGen b.DependsOn p p

/-- What one of the passes requires, through others or directly. -/
def RequiredBy (b : Blueprint ι ν) (passIds : List ι) (p : ι) : Prop :=
  ∃ passId ∈ passIds, ReflTransGen b.DependsOn passId p

end Blueprint

open Blueprint

/-! ## One step of the resolution -/

section Equations

variable {passId : ι} {path : List ι} {s : PipelineState ι}

def resolveAll (b : Blueprint ι ν) (path passIds : List ι) (s : PipelineState ι) :
    Except PipelineError (PipelineState ι) :=
  passIds.foldlM (fun s depId => resolveDependencies b false depId path s) s

theorem resolveDependencies_resolved (h : passId ∈ s.resolved) :
    resolveDependencies b false passId path s = .ok s := by
  rw [resolveDependencies, if_pos h]

theorem resolveDependencies_circular (h : passId ∉ s.resolved) (hpath : passId ∈ path) :
    resolveDependencies b false passId path s = .error .CircularDependency := by
  rw [resolveDependencies, if_neg h, if_pos hpath]

theorem resolveDependencies_missing (h : passId ∉ s.resolved) (hpath : passId ∉ path)
    (hfind : b.find passId = none) :
    resolveDependencies b false passId path s = .error .MissingPass := by
  rw [resolveDependencies, if_neg h, if_neg hpath]
  split
  · rfl
  · next pass hpass => cases hfind.symm.trans hpass

theorem resolveDependencies_found {pass : MirPass ι ν} (h : passId ∉ s.resolved)
    (hpath : passId ∉ path) (hfind : b.find passId = some pass) :
    resolveDependencies b false passId path s =
      (resolveAll b (passId :: path) pass.dependencies s).map fun s =>
        ⟨passId :: s.resolved, s.executionPipeline ++ [passId]⟩ := by
  rw [resolveDependencies, if_neg h, if_neg hpath]
  split
  · next hnone => cases hfind.symm.trans hnone
  · next pass' hpass =>
      obtain rfl := Option.some.inj (hfind.symm.trans hpass)
      rfl

theorem resolveAll_cons (passIds : List ι) : resolveAll b path (passId :: passIds) s =
      (resolveDependencies b false passId path s).bind (resolveAll b path passIds) := rfl

end Equations

/-! ## What a resolution preserves -/

structure PipelineState.Ordered (b : Blueprint ι ν) (s : PipelineState ι) : Prop where
  resolved_iff : ∀ p, p ∈ s.resolved ↔ p ∈ s.executionPipeline
  nodup : s.executionPipeline.Nodup
  behind : BehindDependencies b.DependsOn s.executionPipeline
  registered : ∀ p ∈ s.executionPipeline, ∃ pass, b.find p = some pass

/-- A state reached by resolving the passes with the others on the path. -/
structure Resolved (b : Blueprint ι ν) (path passIds : List ι) (s s' : PipelineState ι) : Prop where
  ordered : s'.Ordered b
  front : s.executionPipeline ⊆ s'.executionPipeline
  required : ∀ p ∈ s'.executionPipeline, p ∈ s.executionPipeline ∨ b.RequiredBy passIds p
  resolves : ∀ p ∈ passIds, p ∈ s'.executionPipeline
  path_notMem : ∀ p ∈ path, p ∉ s'.executionPipeline

def ResolvesTo (b : Blueprint ι ν) (path passIds : List ι) (s : PipelineState ι) :
    Except PipelineError (PipelineState ι) → Prop
  | .ok s' => Resolved b path passIds s s'
  | .error _ => ∃ p, b.RequiredBy passIds p ∧ b.Blocked p

section Resolution

variable {path : List ι} {s : PipelineState ι}

theorem Blueprint.RequiredBy.of_mem {passIds : List ι} {passId p : ι} (hmem : passId ∈ passIds)
    (h : b.RequiredBy [passId] p) : b.RequiredBy passIds p := by
  obtain ⟨q, hq, hreach⟩ := h
  obtain rfl := mem_singleton.mp hq
  exact ⟨q, hmem, hreach⟩

theorem resolvesTo_all (passIds : List ι) (hs : s.Ordered b)
    (hpath : ∀ p ∈ path, p ∉ s.executionPipeline)
    (hone : ∀ passId ∈ passIds, ∀ s : PipelineState ι, s.Ordered b →
      (∀ p ∈ path, p ∉ s.executionPipeline) →
        ResolvesTo b path [passId] s (resolveDependencies b false passId path s)) :
    ResolvesTo b path passIds s (resolveAll b path passIds s) := by
  induction passIds generalizing s with
  | nil =>
    exact ⟨hs, Subset.refl _, fun p hp => Or.inl hp, fun p hp => absurd hp not_mem_nil, hpath⟩
  | cons passId passIds ih =>
    have hfirst := hone passId mem_cons_self s hs hpath
    rw [resolveAll_cons]
    cases hresult : resolveDependencies b false passId path s with
    | error e =>
      rw [hresult] at hfirst
      obtain ⟨p, hp, hblocked⟩ := hfirst
      exact ⟨p, hp.of_mem mem_cons_self, hblocked⟩
    | ok s₁ =>
      rw [hresult] at hfirst
      have hrest := ih hfirst.ordered hfirst.path_notMem
        fun q hq => hone q (mem_cons_of_mem _ hq)
      show ResolvesTo b path (passId :: passIds) s (resolveAll b path passIds s₁)
      cases hresult₁ : resolveAll b path passIds s₁ with
      | error e =>
        rw [hresult₁] at hrest
        obtain ⟨p, ⟨q, hq, hreach⟩, hblocked⟩ := hrest
        exact ⟨p, ⟨q, mem_cons_of_mem _ hq, hreach⟩, hblocked⟩
      | ok s₂ =>
        rw [hresult₁] at hrest
        refine ⟨hrest.ordered, Subset.trans hfirst.front hrest.front, ?_, ?_, hrest.path_notMem⟩
        · intro p hp
          rcases hrest.required p hp with hp | ⟨q, hq, hreach⟩
          · exact (hfirst.required p hp).imp_right fun h => h.of_mem mem_cons_self
          · exact Or.inr ⟨q, mem_cons_of_mem _ hq, hreach⟩
        · intro p hp
          rcases mem_cons.mp hp with rfl | hp
          · exact hrest.front (hfirst.resolves p mem_cons_self)
          · exact hrest.resolves p hp

/-- The identifier is appended behind its dependencies. -/
theorem Resolved.concat {passId : ι} {pass : MirPass ι ν} {s' : PipelineState ι}
    (hfind : b.find passId = some pass) (hpath : passId ∉ path)
    (h : Resolved b (passId :: path) pass.dependencies s s') :
    Resolved b path [passId] s ⟨passId :: s'.resolved, s'.executionPipeline ++ [passId]⟩ := by
  have hnew : passId ∉ s'.executionPipeline := h.path_notMem passId mem_cons_self
  have hdeps : ∀ d, b.DependsOn passId d → d ∈ s'.executionPipeline := by
    rintro d ⟨pass', hpass', hd⟩
    obtain rfl := Option.some.inj (hfind.symm.trans hpass')
    exact h.resolves d hd
  refine ⟨⟨?_, ?_, h.ordered.behind.concat hdeps, ?_⟩, ?_, ?_, ?_, ?_⟩
  · intro p
    simp only [mem_cons, mem_append, not_mem_nil, or_false, h.ordered.resolved_iff p]
    exact or_comm
  · rw [nodup_append]
    refine ⟨h.ordered.nodup, nodup_singleton _, ?_⟩
    rintro p hp q hq rfl
    obtain rfl := mem_singleton.mp hq
    exact hnew hp
  · intro p hp
    rcases mem_append.mp hp with hp | hp
    · exact h.ordered.registered p hp
    · obtain rfl := mem_singleton.mp hp
      exact ⟨pass, hfind⟩
  · exact Subset.trans h.front (subset_append_left _ _)
  · intro p hp
    rcases mem_append.mp hp with hp | hp
    · refine (h.required p hp).imp_right ?_
      rintro ⟨d, hd, hreach⟩
      exact ⟨passId, mem_cons_self, hreach.head ⟨pass, hfind, hd⟩⟩
    · obtain rfl := mem_singleton.mp hp
      exact Or.inr ⟨p, mem_cons_self, .refl⟩
  · intro p hp
    exact mem_append_right _ hp
  · intro p hp hmem
    rcases mem_append.mp hmem with hmem | hmem
    · exact h.path_notMem p (mem_cons_of_mem _ hp) hmem
    · obtain rfl := mem_singleton.mp hmem
      exact hpath hp

/-- The induction is on the registered passes that are not on the path. -/
theorem resolvesTo_one (n : ℕ) : ∀ (path : List ι) (passId : ι) (s : PipelineState ι),
    (b.keys.filter (· ∉ path)).length = n → s.Ordered b →
    (∀ p ∈ path, p ∉ s.executionPipeline) → (∀ p ∈ path, TransGen b.DependsOn p passId) →
    ResolvesTo b path [passId] s (resolveDependencies b false passId path s) := by
  induction n using Nat.strongRecOn with
  | _ n ih =>
  intro path passId s hn hs hpath hreach
  by_cases hresolved : passId ∈ s.resolved
  · rw [resolveDependencies_resolved hresolved]
    refine ⟨hs, Subset.refl _, fun p hp => Or.inl hp, fun p hp => ?_, hpath⟩
    obtain rfl := mem_singleton.mp hp
    exact (hs.resolved_iff p).mp hresolved
  · by_cases hcircular : passId ∈ path
    · rw [resolveDependencies_circular hresolved hcircular]
      exact ⟨passId, ⟨passId, mem_cons_self, .refl⟩, Or.inr (hreach passId hcircular)⟩
    · cases hfind : b.find passId with
      | none =>
        rw [resolveDependencies_missing hresolved hcircular hfind]
        exact ⟨passId, ⟨passId, mem_cons_self, .refl⟩, Or.inl hfind⟩
      | some pass =>
        have hnew : passId ∉ s.executionPipeline :=
          fun hmem => hresolved ((hs.resolved_iff passId).mpr hmem)
        have hdeps : ResolvesTo b (passId :: path) pass.dependencies s
            (resolveAll b (passId :: path) pass.dependencies s) := resolvesTo_all _ hs
          (forall_mem_cons.mpr ⟨hnew, hpath⟩) (by
            intro d hd s' hs' hpath'
            refine ih _ (hn ▸ unresolved_lt hfind hcircular) _ d s' rfl hs' hpath' ?_
            have hstep : b.DependsOn passId d := ⟨pass, hfind, hd⟩
            refine forall_mem_cons.mpr ⟨.single hstep, fun p hp => ?_⟩
            exact (hreach p hp).tail hstep)
        rw [resolveDependencies_found hresolved hcircular hfind]
        cases hresult : resolveAll b (passId :: path) pass.dependencies s with
        | error e =>
          rw [hresult] at hdeps
          obtain ⟨p, ⟨d, hd, hreach⟩, hblocked⟩ := hdeps
          exact ⟨p, ⟨passId, mem_cons_self, hreach.head ⟨pass, hfind, hd⟩⟩, hblocked⟩
        | ok s' =>
          rw [hresult] at hdeps
          exact hdeps.concat hfind hcircular

end Resolution

/-! ## The generated pipeline -/

theorem ordered_empty : (⟨[], []⟩ : PipelineState ι).Ordered b :=
  ⟨fun _ => Iff.rfl, nodup_nil, BehindDependencies.nil, fun _ h => absurd h not_mem_nil⟩

theorem generatePipeline_eq (orderedPasses : List (ι × MirPass ι ν)) :
    generatePipeline b false orderedPasses =
      resolveAll b [] (orderedPasses.map Prod.fst) ⟨[], []⟩ := by
  unfold generatePipeline resolveAll
  rw [foldlM_map]

theorem resolvesTo_pipeline (orderedPasses : List (ι × MirPass ι ν)) :
    ResolvesTo b [] (orderedPasses.map Prod.fst) ⟨[], []⟩
      (generatePipeline b false orderedPasses) := by
  rw [generatePipeline_eq]
  exact resolvesTo_all _ ordered_empty (fun _ h => absurd h not_mem_nil)
    fun passId _ s hs hpath =>
      resolvesTo_one _ [] passId s rfl hs hpath fun _ h => absurd h not_mem_nil

theorem PipelineState.Ordered.not_blocked {s : PipelineState ι} (h : s.Ordered b) {p : ι}
    (hp : p ∈ s.executionPipeline) : ¬b.Blocked p := by
  rintro (hnone | hcycle)
  · obtain ⟨pass, hpass⟩ := h.registered p hp
    cases hnone.symm.trans hpass
  · exact h.behind.not_cyclic h.nodup hp hcycle

section Generated

variable {orderedPasses : List (ι × MirPass ι ν)} {s : PipelineState ι}

theorem mem_pipeline_iff (h : Resolved b [] (orderedPasses.map Prod.fst) ⟨[], []⟩ s) (p : ι) :
    p ∈ s.executionPipeline ↔ b.RequiredBy (orderedPasses.map Prod.fst) p := by
  constructor
  · intro hp
    exact (h.required p hp).resolve_left not_mem_nil
  · rintro ⟨passId, hmem, hreach⟩
    exact h.ordered.behind.mem_of_reach (h.resolves passId hmem) hreach

theorem generatePipeline_error_iff : (∃ e, generatePipeline b false orderedPasses = .error e) ↔
      ∃ p, b.RequiredBy (orderedPasses.map Prod.fst) p ∧ b.Blocked p := by
  have hspec := resolvesTo_pipeline (b := b) orderedPasses
  cases hresult : generatePipeline b false orderedPasses with
  | error e =>
    rw [hresult] at hspec
    exact iff_of_true ⟨e, rfl⟩ hspec
  | ok s =>
    rw [hresult] at hspec
    refine iff_of_false nofun ?_
    rintro ⟨p, hp, hblocked⟩
    exact hspec.ordered.not_blocked ((mem_pipeline_iff hspec p).mpr hp) hblocked

end Generated

/-! ## Independence of the registration order -/

section Agree

variable {b' : Blueprint ι ν} (hfind : ∀ passId, b'.find passId = b.find passId)
include hfind

theorem Blueprint.perm_of_find : b'.entries.Perm b.entries := by
  refine (perm_ext_iff_of_nodup b'.nodup.of_map b.nodup.of_map).mpr fun entry => ?_
  rw [← find_eq_some_iff, ← find_eq_some_iff, hfind]

theorem resolveDependencies_congr (testMode : Bool) (n : ℕ) :
    ∀ (path : List ι) (passId : ι) (s : PipelineState ι), (b.keys.filter (· ∉ path)).length = n →
      resolveDependencies b' testMode passId path s =
        resolveDependencies b testMode passId path s := by
  induction n using Nat.strongRecOn with
  | _ n ih =>
  intro path passId s hn
  rw [resolveDependencies, resolveDependencies]
  by_cases hresolved : passId ∈ s.resolved
  · rw [if_pos hresolved, if_pos hresolved]
  · rw [if_neg hresolved, if_neg hresolved]
    by_cases hcircular : passId ∈ path
    · rw [if_pos hcircular, if_pos hcircular]
    · rw [if_neg hcircular, if_neg hcircular, hfind]
      split
      · rfl
      · next pass hpass =>
          have hdeps : (fun s depId => resolveDependencies b' testMode depId (passId :: path) s) =
              fun s depId => resolveDependencies b testMode depId (passId :: path) s := by
            funext s depId
            exact ih _ (hn ▸ unresolved_lt hpass hcircular) _ depId s rfl
          rw [hdeps]

theorem generatePipeline_congr (testMode : Bool) (orderedPasses : List (ι × MirPass ι ν)) :
    generatePipeline b' testMode orderedPasses = generatePipeline b testMode orderedPasses := by
  unfold generatePipeline
  congr 1
  funext s entry
  exact resolveDependencies_congr hfind testMode _ [] entry.1 s rfl

theorem Blueprint.perm_transforms : b'.transforms.Perm b.transforms :=
  (perm_of_find hfind).filter _

theorem sorted_unique [LinearOrder ν] (hnames : (b.transforms.map fun entry => entry.2.name).Nodup)
    {orderedPasses orderedPasses' : List (ι × MirPass ι ν)} (h : b.Sorted orderedPasses)
    (h' : b'.Sorted orderedPasses') : orderedPasses' = orderedPasses := by
  refine Perm.eq_of_pairwise ?_ h'.sorted h.sorted
    ((h'.perm.trans (perm_transforms hfind)).trans h.perm.symm)
  intro x y hx hy hle hge
  have hname : x.2.name = y.2.name := le_antisymm (not_lt.mp hle) (not_lt.mp hge)
  exact inj_on_of_nodup_map hnames
    ((perm_transforms hfind).subset (h'.perm.subset hx)) (h.perm.subset hy) hname

end Agree

section Register

def register (registrations : List (ι × MirPass ι ν)) : Blueprint ι ν :=
  registrations.foldl (fun b entry => b.addPass entry.1 entry.2) .empty

variable {entry : ι × MirPass ι ν}

theorem mem_addPass_iff {passId : ι} {pass : MirPass ι ν} :
    entry ∈ (b.addPass passId pass).entries ↔
      entry = (passId, pass) ∨ (entry ∈ b.entries ∧ entry.1 ≠ passId) := by
  unfold addPass
  rw [mem_append, mem_filter, mem_singleton, decide_eq_true_eq, or_comm]

theorem mem_foldl_addPass_iff (registrations : List (ι × MirPass ι ν))
    (hnodup : (registrations.map Prod.fst).Nodup) (b : Blueprint ι ν) :
    entry ∈ (registrations.foldl (fun b entry => b.addPass entry.1 entry.2) b).entries ↔
      entry ∈ registrations ∨ (entry ∈ b.entries ∧ entry.1 ∉ registrations.map Prod.fst) := by
  induction registrations generalizing b with
  | nil => simp
  | cons first registrations ih =>
    rw [map_cons, nodup_cons] at hnodup
    have hfirst : entry = first → entry.1 ∉ registrations.map Prod.fst := by
      rintro rfl
      exact hnodup.1
    rw [foldl_cons, ih hnodup.2, mem_addPass_iff, Prod.eta, map_cons, mem_cons, mem_cons, not_or]
    tauto

theorem mem_register_iff {registrations : List (ι × MirPass ι ν)}
    (hnodup : (registrations.map Prod.fst).Nodup) :
    entry ∈ (register registrations).entries ↔ entry ∈ registrations := by
  have hempty : entry ∉ (Blueprint.empty : Blueprint ι ν).entries := not_mem_nil
  rw [register, mem_foldl_addPass_iff registrations hnodup, or_iff_left fun h => hempty h.1]

/-- What is found does not depend on the order of the registrations. -/
theorem find_register_of_perm {registrations registrations' : List (ι × MirPass ι ν)}
    (hnodup : (registrations.map Prod.fst).Nodup) (hperm : registrations'.Perm registrations)
    (passId : ι) :
    (register registrations').find passId = (register registrations).find passId := by
  have hnodup' : (registrations'.map Prod.fst).Nodup := (hperm.map _).nodup_iff.mpr hnodup
  refine Option.ext fun pass => ?_
  rw [find_eq_some_iff, find_eq_some_iff, mem_register_iff hnodup', mem_register_iff hnodup,
    hperm.mem_iff]

end Register

/-! ## The pipeline of a registry -/

/-- The resolution fails exactly when a registered Transform pass requires a blocked pass. The
pipeline is else a topological order of what the Transform passes require; with distinct names it
is the same for every order of the registrations and every iteration order of the map. -/
theorem generatePipeline_correct [LinearOrder ν] (b : Blueprint ι ν) :
    (∀ orderedPasses, b.Sorted orderedPasses →
      ((∃ e, generatePipeline b false orderedPasses = .error e) ↔
        ∃ p, b.RequiredBy (b.transforms.map Prod.fst) p ∧ b.Blocked p) ∧
      ∀ s, generatePipeline b false orderedPasses = .ok s → s.executionPipeline.Nodup ∧
        (∀ p, p ∈ s.executionPipeline ↔ b.RequiredBy (b.transforms.map Prod.fst) p) ∧
        BehindDependencies b.DependsOn s.executionPipeline) ∧
    ((b.transforms.map fun entry => entry.2.name).Nodup →
      ∀ b' : Blueprint ι ν, ((∀ passId, b'.find passId = b.find passId) ∨
        ∃ registrations registrations' : List (ι × MirPass ι ν),
          (registrations.map Prod.fst).Nodup ∧ registrations'.Perm registrations ∧
          b = register registrations ∧ b' = register registrations') →
      ∀ orderedPasses orderedPasses', b.Sorted orderedPasses → b'.Sorted orderedPasses' →
        generatePipeline b' false orderedPasses' = generatePipeline b false orderedPasses) := by
  refine ⟨fun orderedPasses hsort => ?_, fun hnames b' hb' orderedPasses orderedPasses' h h' => ?_⟩
  · have hrequired : ∀ p, b.RequiredBy (orderedPasses.map Prod.fst) p ↔
        b.RequiredBy (b.transforms.map Prod.fst) p := by
      intro p
      simp only [RequiredBy, (hsort.perm.map Prod.fst).mem_iff]
    refine ⟨?_, fun s hs => ?_⟩
    · rw [generatePipeline_error_iff]
      simp only [hrequired]
    · have hspec := resolvesTo_pipeline (b := b) orderedPasses
      rw [hs] at hspec
      refine ⟨hspec.ordered.nodup, fun p => ?_, hspec.ordered.behind⟩
      rw [mem_pipeline_iff hspec, hrequired]
  · have hfind : ∀ passId, b'.find passId = b.find passId := by
      rcases hb' with hfind | ⟨registrations, registrations', hnodup, hperm, rfl, rfl⟩
      · exact hfind
      · exact find_register_of_perm hnodup hperm
    rw [sorted_unique hfind hnames h h', generatePipeline_congr hfind]

/-- A Transform pass behind the analysis that it depends on. -/
def ssaRegistrations : List (ℕ × MirPass ℕ String) :=
  [(1, ⟨"NonSsaToSsaPass", .Transform, [0]⟩), (0, ⟨"CodeFlowAnalysisPass", .Analysis, []⟩)]

def ssaOrder : List (ℕ × MirPass ℕ String) := [(1, ⟨"NonSsaToSsaPass", .Transform, [0]⟩)]

theorem sorted_ssaOrder : (register ssaRegistrations).Sorted ssaOrder :=
  ⟨Perm.refl _, pairwise_singleton _ _⟩

theorem generatePipeline_ssaOrder :
    generatePipeline (register ssaRegistrations) false ssaOrder = .ok ⟨[1, 0], [0, 1]⟩ := by
  rw [generatePipeline_eq]
  have hanalysis : resolveDependencies (register ssaRegistrations) false 0 [1] ⟨[], []⟩ =
      .ok ⟨[0], [0]⟩ := by
    rw [resolveDependencies_found (by decide) (by decide) rfl]
    rfl
  show resolveAll _ [] [1] ⟨[], []⟩ = _
  rw [resolveAll_cons, resolveDependencies_found (by decide) (by decide) rfl, resolveAll_cons,
    hanalysis]
  rfl

theorem generatePipeline_correct_ssa : ([0, 1] : List ℕ).Nodup ∧
      BehindDependencies (register ssaRegistrations).DependsOn ([0, 1] : List ℕ) ∧
      generatePipeline (register ssaRegistrations.reverse) false ssaOrder =
        .ok ⟨[1, 0], [0, 1]⟩ := by
  have hcorrect := generatePipeline_correct (register ssaRegistrations)
  obtain ⟨hnodup, -, hbehind⟩ :=
    (hcorrect.1 ssaOrder sorted_ssaOrder).2 _ generatePipeline_ssaOrder
  refine ⟨hnodup, hbehind, ?_⟩
  rw [hcorrect.2 (by decide) (register ssaRegistrations.reverse)
    (.inr ⟨ssaRegistrations, ssaRegistrations.reverse, by decide, reverse_perm _, rfl, rfl⟩)
    ssaOrder ssaOrder sorted_ssaOrder ⟨Perm.refl _, pairwise_singleton _ _⟩]
  exact generatePipeline_ssaOrder

end EzPacker.Passes
