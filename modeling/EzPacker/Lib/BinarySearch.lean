import Mathlib.Data.Nat.Basic

/-!
# Binary search

The search for the first index of a range where a test holds. The range is halved by its length;
the test must not fail again once it holds.
-/

namespace EzPacker.Lib

/-- The search in the `len` indices from `first` on. Every round halves the length, so as many
rounds as the length are enough. -/
def partitionPoint (p : ℕ → Bool) : ℕ → ℕ → ℕ → ℕ
  | 0, first, _ => first
  | fuel + 1, first, len =>
    if len = 0 then first
    else
      let half := len / 2
      let middle := first + half
      if p middle then partitionPoint p fuel first half
      else partitionPoint p fuel (middle + 1) (len - half - 1)

/-- The index separates a range that a test splits. -/
structure Separates (p : ℕ → Bool) (first len r : ℕ) : Prop where
  le : first ≤ r
  ge : r ≤ first + len
  below : ∀ i, first ≤ i → i < r → p i = false
  above : ∀ i, r ≤ i → i < first + len → p i = true

theorem Separates.empty (p : ℕ → Bool) (first : ℕ) : Separates p first 0 first :=
  ⟨le_rfl, le_rfl, fun _ hle hlt => absurd hle (by omega), fun _ hle hlt => absurd hle (by omega)⟩

theorem separates_partitionPoint {p : ℕ → Bool} {fuel first len : ℕ} (hfuel : len ≤ fuel)
    (hmono : ∀ i j, first ≤ i → i ≤ j → j < first + len → p i = true → p j = true) :
    Separates p first len (partitionPoint p fuel first len) := by
  induction fuel generalizing first len with
  | zero =>
    obtain rfl : len = 0 := by omega
    exact Separates.empty p first
  | succ fuel ih =>
    unfold partitionPoint
    by_cases hlen : len = 0
    · rw [if_pos hlen, hlen]
      exact Separates.empty p first
    · rw [if_neg hlen]
      dsimp only
      have hhalf : len / 2 < len := by omega
      by_cases hmiddle : p (first + len / 2) = true
      · -- the index is in the lower half
        rw [if_pos hmiddle]
        obtain ⟨hle, hge, hbelow, habove⟩ := @ih first (len / 2) (by omega)
          fun i j hi hij hj => hmono i j hi hij (by omega)
        refine ⟨hle, by omega, hbelow, fun i hi hlt => ?_⟩
        by_cases hin : i < first + len / 2
        · exact habove i hi hin
        · exact hmono _ i (by omega) (by omega) hlt hmiddle
      · rw [if_neg hmiddle]
        have hsum : first + len / 2 + 1 + (len - len / 2 - 1) = first + len := by omega
        obtain ⟨hle, hge, hbelow, habove⟩ := @ih (first + len / 2 + 1)
          (len - len / 2 - 1) (by omega)
          fun i j hi hij hj => hmono i j (by omega) hij (by omega)
        rw [hsum] at hge habove
        refine ⟨by omega, hge, fun i hi hlt => ?_, habove⟩
        by_cases hin : first + len / 2 + 1 ≤ i
        · exact hbelow i hin hlt
        · refine Bool.eq_false_iff.mpr fun hi' => hmiddle ?_
          exact hmono i _ hi (by omega) (by omega) hi'

end EzPacker.Lib
