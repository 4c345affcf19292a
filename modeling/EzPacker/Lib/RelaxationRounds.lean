import EzPacker.Lib.BranchLayout

/-!
# Rounds of relaxation

A round computes the offsets of all labels and then walks over the stream: a short branch
whose target is too far is made long at once, so the offsets that the walk counts are those
of the branches made long so far, while the offsets of the labels are those from before.
Rounds are repeated until one makes no branch long.
-/

namespace EzPacker.BranchLayout

open Nat Option

variable {L B : Type}

/-- The offsets of the labels, the last definition of a label stands. -/
def Form.labelsFrom [DecidableEq L] (F : Form L B) :
    ℕ → List (Item L B) → (L → Option ℕ) → L → Option ℕ
  | _, [], labels => labels
  | offset, .label l :: rest, labels =>
    F.labelsFrom offset rest fun l' => if l' = l then some offset else labels l'
  | offset, x :: rest, labels => F.labelsFrom (offset + F.width x) rest labels

def Form.labels [DecidableEq L] (F : Form L B) (items : List (Item L B)) : L → Option ℕ :=
  F.labelsFrom 0 items fun _ => none

/-- The target of the branch at an offset is known and too far. -/
def Form.outOfReach (F : Form L B) (labels : L → Option ℕ) (offset : ℕ) (b : B) : Bool :=
  (labels (F.target b)).any fun t : ℕ => F.far b ((t : ℤ) - offset)

/-- The walk of a round, with the number of branches that it makes long. -/
def Form.walk (F : Form L B) (labels : L → Option ℕ) : ℕ → List (Item L B) → List (Item L B) × ℕ
  | _, [] => ([], 0)
  | offset, .branch b false :: rest =>
    let isFar := F.outOfReach labels offset b
    let walked := F.walk labels (offset + F.size b isFar) rest
    (.branch b isFar :: walked.1, walked.2 + isFar.toNat)
  | offset, x :: rest =>
    let walked := F.walk labels (offset + F.width x) rest
    (x :: walked.1, walked.2)

def Form.round [DecidableEq L] (F : Form L B) (items : List (Item L B)) : List (Item L B) × ℕ :=
  F.walk (F.labels items) 0 items

/-- Rounds until no branch is made long, with the number of branches made long; `none` when
the fuel is not enough. -/
def Form.relax [DecidableEq L] (F : Form L B) :
    ℕ → List (Item L B) → ℕ → Option (List (Item L B) × ℕ)
  | 0, _, _ => none
  | fuel + 1, items, count =>
    let rounded := F.round items
    if rounded.2 = 0 then some (rounded.1, count)
    else F.relax fuel rounded.1 (count + rounded.2)

section

variable {F : Form L B} {items : List (Item L B)}

/-! ## Label offsets -/

theorem labelsFrom_eq [DecidableEq L] (offset : ℕ)
    (items : List (Item L B)) (labels : L → Option ℕ) (l : L) :
    F.labelsFrom offset items labels l =
      ((lastIndex items l).map fun k => offset + F.offset items k).or (labels l) := by
  induction items generalizing offset labels with
  | nil => rfl
  | cons x xs ih =>
    have hlast : ∀ {k}, lastIndex xs l = some k → lastIndex (x :: xs) l = some (k + 1) :=
      fun h => by rw [lastIndex, h]
    have hfirst : lastIndex xs l = none →
        lastIndex (x :: xs) l = if x.isLabel l then some 0 else none :=
      fun h => by rw [lastIndex, h]
    cases x with
    | label l' =>
      rw [Form.labelsFrom, ih]
      cases h : lastIndex xs l with
      | some k =>
        rw [hlast h, map_some, map_some, offset_cons_succ, Form.width, zero_add]
        rfl
      | none =>
        rw [hfirst h]
        unfold Item.isLabel
        by_cases hl : l = l'
        · rw [if_pos hl, if_pos (decide_eq_true hl.symm)]
          rfl
        · rw [if_neg hl, if_neg (fun h' => hl (of_decide_eq_true h').symm)]
          rfl
    | data bytes | branch b long =>
      rw [Form.labelsFrom, ih]
      cases h : lastIndex xs l with
      | some k =>
        rw [hlast h, map_some, map_some, offset_cons_succ, add_assoc]
      | none =>
        rw [hfirst h]
        rfl
      · intro l' hl'
        cases hl'

/-- A round knows the offset of the last definition of a label. -/
theorem labels_eq [DecidableEq L] (items : List (Item L B)) (l : L) :
    F.labels items l = F.labelOffset items l := by
  unfold Form.labels Form.labelOffset
  rw [labelsFrom_eq, or_none]
  congr 1
  funext k
  exact zero_add _

/-! ## The walk -/

def shortCount : List (Item L B) → ℕ
  | [] => 0
  | .branch _ false :: rest => shortCount rest + 1
  | _ :: rest => shortCount rest

variable (labels : L → Option ℕ) (offset : ℕ)

theorem grows_walk (items : List (Item L B)) : Grows items (F.walk labels offset items).1 := by
  induction items generalizing offset with
  | nil => exact .nil
  | cons x xs ih =>
    cases x with
    | data bytes => exact .cons (.data bytes) (ih _)
    | label l => exact .cons (.label l) (ih _)
    | branch b long =>
      cases long with
      | true => exact .cons (.branch b id) (ih _)
      | false => exact .cons (.branch b nofun) (ih _)

theorem shortCount_walk (items : List (Item L B)) :
    shortCount (F.walk labels offset items).1 + (F.walk labels offset items).2 =
      shortCount items := by
  induction items generalizing offset with
  | nil => rfl
  | cons x xs ih =>
    cases x with
    | data bytes | label l => exact ih _
    | branch b long =>
      cases long with
      | true => exact ih _
      | false =>
        have hrest := ih (offset + F.size b (F.outOfReach labels offset b))
        simp only [Form.walk]
        generalize F.outOfReach labels offset b = isFar at hrest ⊢
        cases isFar with
        | true =>
          simp only [shortCount, Bool.toNat_true]
          omega
        | false =>
          simp only [shortCount, Bool.toNat_false]
          omega

theorem walk_get {items : List (Item L B)} {i : ℕ} {b : B}
    (h : items[i]? = some (.branch b false)) :
    (F.walk labels offset items).1[i]? = some (.branch b
      (F.outOfReach labels (offset + F.offset (F.walk labels offset items).1 i) b)) := by
  induction items generalizing offset i with
  | nil => cases h
  | cons x xs ih =>
    cases i with
    | zero =>
      obtain rfl := some.inj h
      rfl
    | succ i =>
      cases x with
      | data bytes =>
        have hrest := ih (offset + F.width (.data bytes)) h
        rw [add_assoc] at hrest
        exact hrest
      | label l =>
        have hrest := ih (offset + F.width (.label l)) h
        rw [add_assoc] at hrest
        exact hrest
      | branch b' long =>
        cases long with
        | true =>
          have hrest := ih (offset + F.width (.branch b' true)) h
          rw [add_assoc] at hrest
          exact hrest
        | false =>
          have hrest := ih (offset + F.size b' (F.outOfReach labels offset b')) h
          rw [add_assoc] at hrest
          exact hrest

theorem walk_of_count {items : List (Item L B)} (h : (F.walk labels offset items).2 = 0) :
    (F.walk labels offset items).1 = items := by
  induction items generalizing offset with
  | nil => rfl
  | cons x xs ih =>
    cases x with
    | data bytes | label l => exact congrArg _ (ih _ h)
    | branch b long =>
      cases long with
      | true => exact congrArg _ (ih _ h)
      | false =>
        simp only [Form.walk] at h ⊢
        obtain ⟨hrest, hfar⟩ := Nat.add_eq_zero_iff.mp h
        rw [ih _ hrest, Bool.toNat_eq_zero.mp hfar]

end

/-! ## Runs -/

section

variable [DecidableEq L] {F : Form L B} {stream items : List (Item L B)}

/-- The stream after a number of rounds. -/
def Form.after (F : Form L B) (stream : List (Item L B)) (n : ℕ) : List (Item L B) :=
  (fun items => (F.round items).1)^[n] stream

theorem after_succ (n : ℕ) : F.after stream (n + 1) = (F.round (F.after stream n)).1 :=
  Function.iterate_succ_apply' _ n stream

theorem grows_round (items : List (Item L B)) : Grows items (F.round items).1 :=
  grows_walk _ 0 items

theorem grows_after (n k : ℕ) : Grows (F.after stream n) (F.after stream (n + k)) := by
  induction k with
  | zero => exact Grows.refl _
  | succ k ih =>
    rw [← add_assoc, after_succ]
    exact ih.trans (grows_round _)

theorem round_get {i : ℕ} {b : B} (h : items[i]? = some (.branch b false)) :
    (F.round items).1[i]? = some (.branch b
      (F.outOfReach (F.labelOffset items) (F.offset (F.round items).1 i) b)) := by
  have hget := walk_get (F := F) (F.labels items) 0 h
  rw [zero_add, funext (labels_eq items)] at hget
  unfold Form.round
  rw [funext (labels_eq items)]
  exact hget

/-- A round that makes no branch long leaves a valid stream. -/
theorem valid_of_round (h : (F.round items).2 = 0) : Valid F items := by
  have hsame : (F.round items).1 = items := walk_of_count _ 0 h
  intro i b t hi ht
  have hget := round_get (F := F) hi
  rw [hsame, hi] at hget
  have hreach := (Item.branch.inj (some.inj hget)).2
  unfold Form.outOfReach at hreach
  rw [ht] at hreach
  exact hreach.symm

/-- What the rounds leave. -/
structure Relaxed (F : Form L B) (stream items : List (Item L B)) : Prop where
  reached : ∃ n, items = F.after stream n
  settled : (F.round items).2 = 0

theorem relaxed_of_relax {fuel count count' : ℕ}
    (h : F.relax fuel stream count = some (items, count')) :
    Relaxed F stream items ∧ count' + shortCount items = count + shortCount stream := by
  induction fuel generalizing stream count with
  | zero => cases h
  | succ fuel ih =>
    have hcount := shortCount_walk (F := F) (F.labels stream) 0 stream
    unfold Form.relax at h
    dsimp only at h
    split at h
    · next hzero =>
        obtain ⟨rfl, rfl⟩ := Prod.mk.inj (some.inj h)
        have hsame : (F.round stream).1 = stream := walk_of_count _ 0 hzero
        rw [hsame]
        exact ⟨⟨⟨0, rfl⟩, hzero⟩, rfl⟩
    · obtain ⟨⟨⟨n, hn⟩, hsettled⟩, hcount'⟩ := ih h
      refine ⟨⟨⟨n + 1, hn.trans (Function.iterate_succ_apply _ n stream).symm⟩, hsettled⟩, ?_⟩
      unfold Form.round at hcount'
      omega

/-- There are at most as many rounds as short branches, and the last one. -/
theorem exists_relax {fuel : ℕ} (h : shortCount stream < fuel) (count : ℕ) :
    ∃ result, F.relax fuel stream count = some result := by
  induction fuel generalizing stream count with
  | zero => exact absurd h (not_lt_zero _)
  | succ fuel ih =>
    have hcount := shortCount_walk (F := F) (F.labels stream) 0 stream
    unfold Form.relax
    dsimp only
    split
    · exact ⟨_, rfl⟩
    · next hzero =>
        refine ih ?_ _
        unfold Form.round at hzero ⊢
        omega

section

variable (h : Relaxed F stream items)
include h

theorem Relaxed.grows : Grows stream items := by
  obtain ⟨⟨n, rfl⟩, -⟩ := h
  have hgrows : Grows (F.after stream 0) (F.after stream (0 + n)) := grows_after 0 n
  rwa [zero_add] at hgrows

theorem Relaxed.valid : Valid F items := valid_of_round h.settled

/-- No round makes anything long that is short in what the rounds leave. -/
theorem Relaxed.after_grows (n : ℕ) : Grows (F.after stream n) items := by
  obtain ⟨⟨m, rfl⟩, hsettled⟩ := h
  have hstays : ∀ k, F.after stream (m + k) = F.after stream m := by
    intro k
    induction k with
    | zero => rfl
    | succ k ih =>
      rw [← add_assoc, after_succ, ih]
      exact walk_of_count _ 0 hsettled
  rcases le_total n m with hle | hle
  · obtain ⟨k, rfl⟩ := Nat.exists_eq_add_of_le hle
    exact grows_after n k
  · obtain ⟨k, rfl⟩ := Nat.exists_eq_add_of_le hle
    rw [hstays k]
    exact Grows.refl _

/-- The rounds leave one stream. -/
theorem Relaxed.unique {items' : List (Item L B)} (h' : Relaxed F stream items') :
    items = items' := by
  obtain ⟨n, hn⟩ := h.reached
  obtain ⟨n', hn'⟩ := h'.reached
  have hle := h'.after_grows n
  have hge := h.after_grows n'
  rw [← hn] at hle
  rw [← hn'] at hge
  exact hle.antisymm hge

end

/-- Every branch that the round finds out of reach is long in all valid assignments. -/
def Warranted (F : Form L B) (stream items : List (Item L B)) : Prop :=
  ∀ (i : ℕ) (b : B) (t : ℕ), items[i]? = some (.branch b false) →
    F.labelOffset items (F.target b) = some t →
    F.far b ((t : ℤ) - F.offset (F.round items).1 i) = true → Needed F stream i

theorem Warranted.round (h : Warranted F stream items)
    (hneeded : ∀ (i : ℕ) (b : B), items[i]? = some (.branch b true) → Needed F stream i)
    {i : ℕ} {b : B} (hi : (F.round items).1[i]? = some (.branch b true)) :
    Needed F stream i := by
  obtain ⟨x, hx, hle⟩ := (grows_round (F := F) items).exists_get hi
  cases hle with
  | @branch _ long _ _ =>
    cases long with
    | true => exact hneeded i b hx
    | false =>
      have hget := (round_get (F := F) hx).symm.trans hi
      have hfar := (Item.branch.inj (some.inj hget)).2
      unfold Form.outOfReach at hfar
      obtain ⟨t, ht, hfar⟩ := (any_eq_true _ _).mp hfar
      exact h i b t hx ht hfar

theorem long_of_far {i : ℕ} {b : B} {t : ℕ} (hi : items[i]? = some (.branch b false))
    (ht : F.labelOffset items (F.target b) = some t)
    (hfar : F.far b ((t : ℤ) - F.offset (F.round items).1 i) = true) :
    (F.round items).1[i]? = some (.branch b true) := by
  have hget := round_get (F := F) hi
  unfold Form.outOfReach at hget
  rw [ht, any_some, hfar] at hget
  exact hget

/-- The rounds of a stream without long branches leave a minimal assignment exactly when all
of them are warranted. -/
theorem Relaxed.minimal_iff (h : Relaxed F stream items)
    (hshort : ∀ (i : ℕ) (b : B), stream[i]? ≠ some (.branch b true)) :
    Minimal F stream items ↔ ∀ n, Warranted F stream (F.after stream n) := by
  rw [BranchLayout.minimal_iff h.grows h.valid]
  constructor
  · intro hneeded n i b t hi ht hfar
    have hlong := long_of_far hi ht hfar
    rw [← after_succ] at hlong
    obtain ⟨long, hget, hkeep⟩ := (h.after_grows (n + 1)).branch hlong
    rw [hkeep rfl] at hget
    exact hneeded i b hget
  · intro hwarranted i b hi
    obtain ⟨⟨n, rfl⟩, -⟩ := h
    -- by the rounds: what a round makes long is needed
    induction n generalizing i b with
    | zero => exact absurd hi (hshort i b)
    | succ n ih =>
      rw [after_succ] at hi
      exact (hwarranted n).round (fun j b' hj => ih j b' hj) hi

end

end EzPacker.BranchLayout
