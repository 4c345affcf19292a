import Mathlib.Data.List.Forall2

/-!
# Lists that correspond element by element

A traversal that succeeds relates each element to its result, and an element of either
list has a partner in the other one.
-/

namespace EzPacker

open List Option

namespace Correspondence

variable {α β : Type*} {R : α → β → Prop}

variable {xs : List α} {ys : List β}

theorem mapM_eq_some_iff {f : α → Option β} :
    xs.mapM f = some ys ↔ Forall₂ (fun x y => f x = some y) xs ys := by
  induction xs generalizing ys with
  | nil =>
    rw [mapM_nil, forall₂_nil_left_iff]
    exact ⟨fun h => (some.inj h).symm, fun h => h ▸ rfl⟩
  | cons x xs ih =>
    rw [mapM_cons, forall₂_cons_left_iff]
    constructor
    · intro h
      obtain ⟨y, hy, h⟩ := bind_eq_some_iff.mp h
      obtain ⟨rest, hrest, h⟩ := bind_eq_some_iff.mp h
      exact ⟨y, rest, hy, ih.mp hrest, (some.inj h).symm⟩
    · rintro ⟨y, rest, hy, hrest, rfl⟩
      simp [hy, ih.mpr hrest]

theorem exists_right (h : Forall₂ R xs ys) {x : α} (hx : x ∈ xs) : ∃ y ∈ ys, R x y := by
  induction h with
  | nil => cases hx
  | cons hR _ ih =>
    rcases mem_cons.mp hx with rfl | hx
    · exact ⟨_, mem_cons_self, hR⟩
    · obtain ⟨y, hy, hxy⟩ := ih hx
      exact ⟨y, mem_cons_of_mem _ hy, hxy⟩

theorem exists_left (h : Forall₂ R xs ys) {y : β} (hy : y ∈ ys) : ∃ x ∈ xs, R x y := by
  obtain ⟨x, hx, hxy⟩ := exists_right (Forall₂.flip (a := ys) (b := xs) h) hy
  exact ⟨x, hx, hxy⟩

end Correspondence

end EzPacker

/-!
## Writes of which the last one stands

A fold each of whose steps overwrites a value or leaves it alone ends with what the last
overwriting step wrote.
-/

namespace EzPacker

namespace LastWrite

variable {X Y R W : Type*} (step : R → Y → R) (val : R → W)

/-- The steps may be those of another list that corresponds to the first. -/
theorem val_foldl (p : X → Bool) (written : X → W) {xs : List X} {ys : List Y}
    (h : List.Forall₂ (fun x y => ∀ r, val (step r y) = if p x then written x else val r) xs ys)
    (r : R) :
    val (ys.foldl step r) = ((xs.reverse.find? p).map written).getD (val r) := by
  induction h generalizing r with
  | nil => rfl
  | @cons x y xs ys hstep _ ih =>
    rw [List.foldl_cons, ih, List.reverse_cons, List.find?_append]
    cases xs.reverse.find? p with
    | some x' => rfl
    | none =>
      rw [Option.none_or, Option.map_none, Option.getD_none, hstep]
      by_cases hp : p x = true
      · rw [if_pos hp, List.find?_cons_of_pos hp, Option.map_some, Option.getD_some]
      · rw [if_neg hp, List.find?_cons_of_neg hp, List.find?_nil, Option.map_none, Option.getD_none]

/-- All steps write the same value. -/
theorem val_foldl_const {p : Y → Bool} {ys : List Y} {w : W}
    (h : ∀ y ∈ ys, ∀ r, val (step r y) = if p y then w else val r) (r : R) :
    val (ys.foldl step r) = if ys.any p then w else val r := by
  rw [val_foldl step val p (fun _ => w) (List.forall₂_same.mpr h)]
  cases hfind : ys.reverse.find? p with
  | some y =>
    have hany : ys.any p = true := List.any_eq_true.mpr
      ⟨y, List.mem_reverse.mp (List.mem_of_find?_eq_some hfind), List.find?_some hfind⟩
    rw [if_pos hany]
    rfl
  | none =>
    have hany : ¬ys.any p = true := by
      rw [List.any_eq_true]
      rintro ⟨y, hy, hp⟩
      exact List.find?_eq_none.mp hfind y (List.mem_reverse.mpr hy) hp
    rw [if_neg hany]
    rfl

end LastWrite

end EzPacker
