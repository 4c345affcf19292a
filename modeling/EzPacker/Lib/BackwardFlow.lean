import Mathlib.Data.Set.Card
import Mathlib.Order.CompletePartialOrder

/-!
# Backward may-flow

Facts that a node generates and kills flow against the edges of a graph. A fact holds at
a node when a path leads from it to a node that generates the fact and none on the way
kills it. Visiting nodes until a round over all of them changes nothing finds exactly
these facts, in any order.
-/

namespace EzPacker

open Function

/-- A graph whose nodes generate and kill facts. -/
structure BackwardFlow (ι κ : Type*) where
  succ : ι → ι → Prop
  gen : ι → Set κ
  kill : ι → Set κ

namespace BackwardFlow

variable {ι κ ι' κ' : Type*}

section Paths

variable (F : BackwardFlow ι κ)

/-- A step along an edge whose source does not kill the fact. -/
def Passes (k : κ) (a b : ι) : Prop := k ∉ F.kill a ∧ F.succ a b

def LiveIn (k : κ) (a : ι) : Prop := ∃ b, Relation.ReflTransGen (F.Passes k) a b ∧ k ∈ F.gen b

def LiveOut (k : κ) (a : ι) : Prop := ∃ b, F.succ a b ∧ F.LiveIn k b

theorem liveIn_iff {k : κ} {a : ι} : F.LiveIn k a ↔ k ∈ F.gen a ∨ k ∉ F.kill a ∧ F.LiveOut k a := by
  constructor
  · rintro ⟨c, hpath, hc⟩
    rcases Relation.ReflTransGen.cases_head hpath with rfl | ⟨b, hstep, hrest⟩
    · exact Or.inl hc
    · exact Or.inr ⟨hstep.1, b, hstep.2, c, hrest, hc⟩
  · rintro (ha | ⟨hkill, b, hsucc, c, hpath, hc⟩)
    · exact ⟨a, Relation.ReflTransGen.refl, ha⟩
    · exact ⟨c, hpath.head ⟨hkill, hsucc⟩, hc⟩

end Paths

section

variable {G : BackwardFlow ι' κ'} {F : BackwardFlow ι κ} {k : κ} {k' : κ'} (e : ι → ι')
  (hsucc : ∀ a b', G.succ (e a) b' ↔ ∃ b, F.succ a b ∧ e b = b')
  (hgen : ∀ a, k ∈ F.gen a ↔ k' ∈ G.gen (e a)) (hkill : ∀ a, k ∈ F.kill a ↔ k' ∈ G.kill (e a))
include e hsucc hgen hkill

/-- Flows that agree along a map of the nodes have the same paths. -/
theorem liveIn_map (a : ι) : F.LiveIn k a ↔ G.LiveIn k' (e a) := by
  constructor
  · rintro ⟨b, hpath, hb⟩
    refine ⟨e b, hpath.lift e ?_, (hgen b).mp hb⟩
    rintro c d ⟨hk, hcd⟩
    exact ⟨(hkill c).not.mp hk, (hsucc c (e d)).mpr ⟨d, hcd, rfl⟩⟩
  · rintro ⟨b', hpath, hb'⟩
    have hlift : ∃ b, Relation.ReflTransGen (F.Passes k) a b ∧ e b = b' := by
      clear hb'
      induction hpath with
      | refl => exact ⟨a, Relation.ReflTransGen.refl, rfl⟩
      | tail _ hstep ih =>
        obtain ⟨c, hc, rfl⟩ := ih
        obtain ⟨d, hcd, rfl⟩ := (hsucc c _).mp hstep.2
        exact ⟨d, hc.tail ⟨(hkill c).not.mpr hstep.1, hcd⟩, rfl⟩
    obtain ⟨b, hb, rfl⟩ := hlift
    exact ⟨b, hb, (hgen b).mpr hb'⟩

theorem liveOut_map (a : ι) : F.LiveOut k a ↔ G.LiveOut k' (e a) := by
  have hlive := liveIn_map e hsucc hgen hkill
  constructor
  · rintro ⟨b, hab, hb⟩
    exact ⟨e b, (hsucc a _).mpr ⟨b, hab, rfl⟩, (hlive b).mp hb⟩
  · rintro ⟨b', hab', hb'⟩
    obtain ⟨b, hab, rfl⟩ := (hsucc a b').mp hab'
    exact ⟨b, hab, (hlive b).mpr hb'⟩

end

/-! ## Visiting nodes -/

/-- The facts found so far at the start and at the end of the nodes. -/
abbrev Facts (ι κ : Type*) := (ι → Set κ) × (ι → Set κ)

section Visit

variable (F : BackwardFlow ι κ)

def collected (i : ι) (s : Facts ι κ) : Set κ := s.2 i ∪ {k | ∃ j, F.succ i j ∧ k ∈ s.1 j}

variable [DecidableEq ι]

def visit (s : Facts ι κ) (i : ι) : Facts ι κ :=
  (update s.1 i (F.gen i ∪ (F.collected i s \ F.kill i)), update s.2 i (F.collected i s))

def round (order : List ι) (s : Facts ι κ) : Facts ι κ := order.foldl F.visit s

/-- Every fact that was found holds, and those at the start of a node come from it or
from its end. -/
structure Sound (s : Facts ι κ) : Prop where
  into : ∀ i, ∀ k ∈ s.1 i, F.LiveIn k i
  out : ∀ i, ∀ k ∈ s.2 i, F.LiveOut k i
  into_le : ∀ i, s.1 i ⊆ F.gen i ∪ (s.2 i \ F.kill i)

variable {F}

omit [DecidableEq ι] in
theorem Sound.empty : F.Sound (fun _ => ∅, fun _ => ∅) :=
  ⟨fun _ _ h => h.elim, fun _ _ h => h.elim, fun _ _ h => h.elim⟩

omit [DecidableEq ι] in
variable {s : Facts ι κ}

theorem Sound.collected (h : F.Sound s) {i : ι} : ∀ k ∈ F.collected i s, F.LiveOut k i := by
  rintro k (hk | ⟨j, hij, hk⟩)
  · exact h.out i k hk
  · exact ⟨j, hij, h.into j k hk⟩

theorem Sound.visit (h : F.Sound s) (i : ι) : F.Sound (F.visit s i) := by
  refine ⟨fun j k hk => ?_, fun j k hk => ?_, fun j => ?_⟩ <;>
    by_cases hji : j = i <;>
    simp only [BackwardFlow.visit, hji, update_self, ne_eq, not_false_eq_true, update_of_ne] at *
  · rcases hk with hk | ⟨hk, hkill⟩
    · exact F.liveIn_iff.mpr (Or.inl hk)
    · exact F.liveIn_iff.mpr (Or.inr ⟨hkill, h.collected k hk⟩)
  · exact h.into j k hk
  · exact h.collected k hk
  · exact h.out j k hk
  · exact subset_rfl
  · exact h.into_le j

theorem Sound.le_visit (h : F.Sound s) (i : ι) : s ≤ F.visit s i := by
  have hout : s.2 i ≤ F.collected i s := Set.subset_union_left
  constructor <;> intro j <;> by_cases hji : j = i
  · subst hji
    simp only [BackwardFlow.visit, update_self]
    exact (h.into_le j).trans (Set.union_subset_union_right _ (Set.sdiff_subset_sdiff_left hout))
  · simp only [BackwardFlow.visit, update_of_ne hji]
    exact le_rfl
  · subst hji
    simp only [BackwardFlow.visit, update_self]
    exact hout
  · simp only [BackwardFlow.visit, update_of_ne hji]
    exact le_rfl

theorem Sound.round (h : F.Sound s) (order : List ι) : F.Sound (F.round order s) := by
  unfold BackwardFlow.round
  induction order generalizing s with
  | nil => exact h
  | cons i order ih => exact ih (h.visit i)

theorem Sound.le_round (h : F.Sound s) (order : List ι) : s ≤ F.round order s := by
  unfold BackwardFlow.round
  induction order generalizing s with
  | nil => exact le_rfl
  | cons i order ih => exact (h.le_visit i).trans (ih (h.visit i))

/-- A round that changes nothing changes nothing at any of its nodes. -/
theorem Sound.visit_eq_of_round {order : List ι} (h : F.Sound s)
    (hround : F.round order s = s) {i : ι} (hi : i ∈ order) : F.visit s i = s := by
  induction order with
  | nil => cases hi
  | cons j order ih =>
    have hj : F.visit s j = s := by
      refine le_antisymm ?_ (h.le_visit j)
      exact ((h.visit j).le_round order).trans_eq hround
    rcases List.mem_cons.mp hi with rfl | hi
    · exact hj
    · refine ih ?_ hi
      unfold BackwardFlow.round at hround ⊢
      rwa [List.foldl_cons, hj] at hround

/-- The facts of a round that changes nothing are those of the paths. -/
theorem Sound.exact (h : F.Sound s) (hstable : ∀ i, F.visit s i = s) (k : κ)
    (i : ι) : (k ∈ s.1 i ↔ F.LiveIn k i) ∧ (k ∈ s.2 i ↔ F.LiveOut k i) := by
  have hinto : ∀ j, s.1 j = F.gen j ∪ (F.collected j s \ F.kill j) := fun j => by
    have := congrFun (congrArg Prod.fst (hstable j)) j
    simpa only [BackwardFlow.visit, update_self] using this.symm
  have hout : ∀ j, s.2 j = F.collected j s := fun j => by
    have := congrFun (congrArg Prod.snd (hstable j)) j
    simpa only [BackwardFlow.visit, update_self] using this.symm
  have hcomplete : ∀ j, F.LiveIn k j → k ∈ s.1 j := by
    rintro j ⟨b, hpath, hb⟩
    induction hpath using Relation.ReflTransGen.head_induction_on with
    | refl =>
      rw [hinto]
      exact Or.inl hb
    | head hstep _ ih =>
      rw [hinto]
      exact Or.inr ⟨Or.inr ⟨_, hstep.2, ih⟩, hstep.1⟩
  refine ⟨⟨h.into i k, hcomplete i⟩, h.out i k, ?_⟩
  rintro ⟨b, hib, hb⟩
  rw [hout]
  exact Or.inr ⟨b, hib, hcomplete b hb⟩

end Visit

/-! ## The number of facts -/

/-- The number of facts that were found. -/
noncomputable def Facts.size (s : Facts ι κ) : ℕ :=
  {p : ι × κ | p.2 ∈ s.1 p.1}.ncard + {p : ι × κ | p.2 ∈ s.2 p.1}.ncard

theorem ncard_lt_of_lt [Finite ι] [Finite κ] {f g : ι → Set κ} (h : f < g) :
    {p : ι × κ | p.2 ∈ f p.1}.ncard < {p : ι × κ | p.2 ∈ g p.1}.ncard := by
  refine Set.ncard_lt_ncard ?_ (Set.toFinite _)
  obtain ⟨hle, i, hi⟩ := Pi.lt_def.mp h
  obtain ⟨k, hk, hnot⟩ := Set.exists_of_ssubset hi
  have hmem : (i, k) ∈ {p : ι × κ | p.2 ∈ g p.1} := hk
  exact ⟨fun p hp => hle p.1 hp, fun hsub => hnot (hsub hmem)⟩

theorem ncard_le_of_le [Finite ι] [Finite κ] {f g : ι → Set κ} (h : f ≤ g) :
    {p : ι × κ | p.2 ∈ f p.1}.ncard ≤ {p : ι × κ | p.2 ∈ g p.1}.ncard :=
  Set.ncard_le_ncard (fun p hp => h p.1 hp) (Set.toFinite _)

theorem Facts.size_lt_of_lt [Finite ι] [Finite κ] {s t : Facts ι κ} (h : s < t) :
    s.size < t.size := by
  rcases Prod.lt_iff.mp h with ⟨hinto, hout⟩ | ⟨hinto, hout⟩
  · exact Nat.add_lt_add_of_lt_of_le (ncard_lt_of_lt hinto) (ncard_le_of_le hout)
  · exact Nat.add_lt_add_of_le_of_lt (ncard_le_of_le hinto) (ncard_lt_of_lt hout)

theorem Facts.size_le [Finite ι] [Finite κ] (s : Facts ι κ) :
    s.size ≤ 2 * (Nat.card ι * Nat.card κ) := by
  have hcard : ∀ t : Set (ι × κ), t.ncard ≤ Nat.card ι * Nat.card κ := fun t => by
    rw [← Nat.card_prod, ← Set.ncard_univ]
    exact Set.ncard_le_ncard (Set.subset_univ t) (Set.toFinite _)
  have hinto := hcard {p : ι × κ | p.2 ∈ s.1 p.1}
  have hout := hcard {p : ι × κ | p.2 ∈ s.2 p.1}
  unfold Facts.size
  omega

end BackwardFlow

end EzPacker
