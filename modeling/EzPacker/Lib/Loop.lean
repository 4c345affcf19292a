import Mathlib.Data.BitVec

/-!
# Loops

A loop takes a step from its state to the next one or to its result; it runs out of fuel when it
goes on for too long. A loop whose measure falls ends with a result. Counted loops have a machine
integer as their counter, upwards and downwards.
-/

namespace EzPacker.Lib

variable {σ ρ : Type*}

def loop (step : σ → Option (σ ⊕ ρ)) : ℕ → σ → Option ρ
  | 0, _ => none
  | fuel + 1, s =>
    match step s with
    | none => none
    | some (.inl s') => loop step fuel s'
    | some (.inr r) => some r

/-- A step keeps the invariant and lowers the measure, or ends with a good result. -/
inductive Advances (Inv : σ → Prop) (measure : σ → ℕ) (Post : ρ → Prop) (s : σ) :
    Option (σ ⊕ ρ) → Prop
  | next {s' : σ} (hinv : Inv s') (hlt : measure s' < measure s) :
      Advances Inv measure Post s (some (.inl s'))
  | done {r : ρ} (hpost : Post r) : Advances Inv measure Post s (some (.inr r))

/-- A loop that advances ends with a good result. -/
theorem loop_total {step : σ → Option (σ ⊕ ρ)} {Inv : σ → Prop} {measure : σ → ℕ}
    {Post : ρ → Prop} (hstep : ∀ s, Inv s → Advances Inv measure Post s (step s)) {fuel : ℕ}
    {s : σ} (hs : Inv s) (hfuel : measure s < fuel) :
    ∃ r, loop step fuel s = some r ∧ Post r := by
  induction fuel generalizing s with
  | zero => exact absurd hfuel (Nat.not_lt_zero _)
  | succ fuel ih =>
    unfold loop
    have hnext := hstep s hs
    generalize step s = next at hnext
    cases hnext with
    | next hinv hlt => exact ih hinv (by omega)
    | done hpost => exact ⟨_, rfl, hpost⟩

/-! ## Counted loops -/

/-- `for (size_t i = first; i < n; ++i)` -/
def forLoop (body : BitVec 64 → σ → Option σ) (first n : BitVec 64) (fuel : ℕ) (s : σ) : Option σ :=
  loop (fun t : BitVec 64 × σ =>
    if t.1 < n then (body t.1 t.2).map fun s => .inl (t.1 + 1, s) else some (.inr t.2))
    fuel (first, s)

/-- `for (size_t i = n; i > 0; --i)` -/
def downLoop (body : BitVec 64 → σ → Option σ) (n : BitVec 64) (fuel : ℕ) (s : σ) : Option σ :=
  loop (fun t : BitVec 64 × σ =>
    if 0 < t.1 then (body t.1 t.2).map fun s => .inl (t.1 - 1, s) else some (.inr t.2))
    fuel (n, s)

theorem forLoop_total {body : BitVec 64 → σ → Option σ} {first n : BitVec 64} {fuel : ℕ} {s : σ}
    {Inv : ℕ → σ → Prop}
    (hbody : ∀ i s, first.toNat ≤ i → i < n.toNat → Inv i s →
      ∃ s', body (BitVec.ofNat 64 i) s = some s' ∧ Inv (i + 1) s')
    (hs : Inv first.toNat s) (hle : first.toNat ≤ n.toNat)
    (hfuel : n.toNat - first.toNat < fuel) :
    ∃ s', forLoop body first n fuel s = some s' ∧ Inv n.toNat s' := by
  refine @loop_total _ _ _
    (fun t : BitVec 64 × σ => first.toNat ≤ t.1.toNat ∧ t.1.toNat ≤ n.toNat ∧ Inv t.1.toNat t.2)
    (fun t => n.toNat - t.1.toNat) (Inv n.toNat) ?_ _ _ ⟨le_rfl, hle, hs⟩ hfuel
  rintro ⟨i, s⟩ ⟨hfirst, hi, hinv⟩
  dsimp only at hfirst hi hinv ⊢
  by_cases hlt : i < n
  · rw [if_pos hlt]
    have hlt : i.toNat < n.toNat := hlt
    obtain ⟨s', hs', hinv'⟩ := hbody i.toNat s hfirst hlt hinv
    rw [BitVec.ofNat_toNat, BitVec.setWidth_eq] at hs'
    rw [hs']
    have hnext : (i + 1).toNat = i.toNat + 1 := by bv_omega
    refine .next ?_ ?_
    · dsimp only
      rw [hnext]
      exact ⟨by omega, hlt, hinv'⟩
    · dsimp only
      omega
  · rw [if_neg hlt]
    have heq : i.toNat = n.toNat := le_antisymm hi (not_lt.mp hlt)
    exact .done (heq ▸ hinv)

/-- The counter is one more than what is left below it. -/
theorem downLoop_total {body : BitVec 64 → σ → Option σ} {n : BitVec 64} {fuel : ℕ} {s : σ}
    {Inv : ℕ → σ → Prop}
    (hbody : ∀ i s, i < n.toNat → Inv (i + 1) s →
      ∃ s', body (BitVec.ofNat 64 (i + 1)) s = some s' ∧ Inv i s')
    (hs : Inv n.toNat s) (hfuel : n.toNat < fuel) :
    ∃ s', downLoop body n fuel s = some s' ∧ Inv 0 s' := by
  refine @loop_total _ _ _
    (fun t : BitVec 64 × σ => t.1.toNat ≤ n.toNat ∧ Inv t.1.toNat t.2) (fun t => t.1.toNat)
    (Inv 0) ?_ _ _ ⟨le_rfl, hs⟩ hfuel
  rintro ⟨i, s⟩ ⟨hi, hinv⟩
  dsimp only at hi hinv ⊢
  by_cases hpos : 0 < i
  · rw [if_pos hpos]
    have hpos : 0 < i.toNat := hpos
    obtain ⟨k, hk⟩ := Nat.exists_eq_add_one.mpr hpos
    have hof : BitVec.ofNat 64 (k + 1) = i := by
      rw [← hk, BitVec.ofNat_toNat, BitVec.setWidth_eq]
    obtain ⟨s', hs', hinv'⟩ := hbody k s (by omega) (hk ▸ hinv)
    rw [hof] at hs'
    rw [hs']
    have hnext : (i - 1).toNat = k := by bv_omega
    refine .next ?_ ?_
    · dsimp only
      rw [hnext]
      exact ⟨by omega, hinv'⟩
    · dsimp only
      omega
  · rw [if_neg hpos]
    have hzero : i.toNat = 0 := Nat.eq_zero_of_not_pos hpos
    exact .done (hzero ▸ hinv)

end EzPacker.Lib
