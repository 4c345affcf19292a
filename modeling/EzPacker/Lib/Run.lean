import Mathlib.Data.List.Basic

/-!
# Runs of a deterministic transition function

A component is a state type `σ`, an alphabet of operations `α` and a total
transition function `step`. A run folds `step` over a list of operations. The
predicate `along step P s as` says that `P` holds of the state and the operation
at every step of the run from `s`; it is how a side condition on single steps is
stated for a whole run. The induction from steps to runs is packaged once in
`invariant_of_along`.
-/

namespace EzPacker.Run

/-- The state reached from `s` by the operations `as`, in order. -/
def run {σ α : Type*} (step : σ → α → σ) (s : σ) (as : List α) : σ :=
  as.foldl step s

/-- Every step of the run from `s` meets the condition `P`, which may look at the
state before the step and at the operation. -/
def along {σ α : Type*} (step : σ → α → σ) (P : σ → α → Prop) : σ → List α → Prop
  | _, [] => True
  | s, a :: as => P s a ∧ along step P (step s a) as

instance decidableAlong {σ α : Type*} (step : σ → α → σ) (P : σ → α → Prop)
    [∀ s a, Decidable (P s a)] : ∀ s as, Decidable (along step P s as)
  | _, [] => isTrue trivial
  | s, a :: as =>
    haveI := decidableAlong step P (step s a) as
    inferInstanceAs (Decidable (P s a ∧ along step P (step s a) as))

section

variable {σ α : Type*} (step : σ → α → σ)

@[simp] theorem run_nil (s : σ) : run step s [] = s := rfl

@[simp] theorem run_cons (s : σ) (a : α) (as : List α) :
    run step s (a :: as) = run step (step s a) as := rfl

theorem run_append (s : σ) (as bs : List α) :
    run step s (as ++ bs) = run step (run step s as) bs := by
  simp [run]

@[simp] theorem along_nil (P : σ → α → Prop) (s : σ) : along step P s [] := trivial

theorem along_cons (P : σ → α → Prop) (s : σ) (a : α) (as : List α) :
    along step P s (a :: as) ↔ P s a ∧ along step P (step s a) as :=
  Iff.rfl

theorem along_append (P : σ → α → Prop) (s : σ) (as bs : List α) : along step P s (as ++ bs) ↔
      along step P s as ∧ along step P (run step s as) bs := by
  induction as generalizing s with
  | nil => simp
  | cons a as ih =>
    simp only [List.cons_append, along_cons, run_cons, ih, and_assoc]

variable {step}

variable {I : σ → Prop} {P : σ → α → Prop} {s : σ}

/-- What every step that meets its side condition preserves holds at the end of
every run whose steps all meet it. -/
theorem invariant_of_along (hstep : ∀ s a, I s → P s a → I (step s a)) (hs : I s) {as : List α}
    (has : along step P s as) : I (run step s as) := by
  induction as generalizing s with
  | nil => exact hs
  | cons a as ih =>
    rw [along_cons] at has
    exact ih (hstep s a hs has.1) has.2

/-- What every step preserves holds at the end of every run. -/
theorem invariant_of_step (hstep : ∀ s a, I s → I (step s a)) (hs : I s) (as : List α) :
    I (run step s as) := by
  induction as generalizing s with
  | nil => exact hs
  | cons a as ih => exact ih (hstep s a hs)

/-- Two conditions on steps that agree where an invariant holds, which steps that meet one of them
preserve, agree on runs. -/
theorem along_iff_along {Q : σ → α → Prop} (hiff : ∀ s a, I s → (P s a ↔ Q s a))
    (hstep : ∀ s a, I s → P s a → I (step s a)) (hs : I s) (as : List α) :
    along step P s as ↔ along step Q s as := by
  induction as generalizing s with
  | nil => exact Iff.rfl
  | cons a as ih =>
    rw [along_cons, along_cons, ← hiff s a hs]
    exact and_congr_right fun ha => ih (hstep s a hs ha)

/-- Two conditions agree on runs whose steps all meet a third one. -/
theorem along_iff_along_of_along {H Q : σ → α → Prop} (hiff : ∀ s a, I s → H s a → (P s a ↔ Q s a))
    (hstep : ∀ s a, I s → H s a → P s a → I (step s a)) (hs : I s) {as : List α}
    (has : along step H s as) : along step P s as ↔ along step Q s as := by
  induction as generalizing s with
  | nil => exact Iff.rfl
  | cons a as ih =>
    rw [along_cons, along_cons, ← hiff s a hs has.1]
    exact and_congr_right fun ha => ih (hstep s a hs has.1 ha) has.2

/-- A run that does not meet a condition throughout has a first step that fails
it: everything before that step meets it. -/
theorem exists_first_of_not_along {as : List α} (h : ¬ along step P s as) :
    ∃ pre a post, as = pre ++ a :: post ∧ along step P s pre ∧ ¬ P (run step s pre) a := by
  induction as generalizing s with
  | nil => exact absurd trivial h
  | cons a as ih =>
    by_cases ha : P s a
    · have htail : ¬ along step P (step s a) as := fun htail => h ⟨ha, htail⟩
      obtain ⟨pre, b, post, rfl, hpre, hb⟩ := ih htail
      exact ⟨a :: pre, b, post, rfl, ⟨ha, hpre⟩, hb⟩
    · exact ⟨[], a, as, rfl, trivial, ha⟩

end

end EzPacker.Run
