import Mathlib.Data.List.Perm.Basic
import Mathlib.Data.List.Count
import Mathlib.Data.Prod.Basic

/-!
# Def-use tables

A table records for every register the user that defines it and the places where
users read it. A user is described by its list of accesses, each of a register at a
position. `record` enters one access of a user and `forget` takes one out again,
which drops every read of that register by that user at once.

A table is `Exact` for a family of access lists when it holds each read exactly
once and names the definer of every register that has a single one.
`Exact.edit` says when replacing part of one user's accesses keeps it exact: what
is kept must not be dropped together with what goes, and a definition that goes
must not leave behind a single other definer the table has forgotten.
-/

namespace EzPacker

open List Function

/-- An access of a register at a position. -/
structure Access (ρ π : Type*) where
  pos : π
  reg : ρ
  reads : Bool
  writes : Bool
  deriving DecidableEq, Repr

namespace Access

variable {ρ π : Type*}

def Writes (r : ρ) (as : List (Access ρ π)) : Prop :=
  ∃ a ∈ as, a.writes = true ∧ a.reg = r

def Reads (r : ρ) (as : List (Access ρ π)) : Prop :=
  ∃ a ∈ as, a.reads = true ∧ a.reg = r

@[simp] theorem not_writes_nil (r : ρ) : ¬ Writes r ([] : List (Access ρ π)) := by
  simp [Writes]

variable {r : ρ} {as bs : List (Access ρ π)}

@[simp] theorem writes_append : Writes r (as ++ bs) ↔ Writes r as ∨ Writes r bs := by
  simp [Writes, or_and_right, exists_or]

theorem writes_perm (h : as.Perm bs) : Writes r as ↔ Writes r bs := by
  simp [Writes, h.mem_iff]

@[simp] theorem reads_cons {a : Access ρ π} :
    Reads r (a :: as) ↔ (a.reads = true ∧ a.reg = r) ∨ Reads r as := by
  simp [Reads]

@[simp] theorem writes_cons {a : Access ρ π} :
    Writes r (a :: as) ↔ (a.writes = true ∧ a.reg = r) ∨ Writes r as := by
  simp [Writes]

variable [DecidableEq ρ]

instance (r : ρ) (as : List (Access ρ π)) : Decidable (Writes r as) :=
  inferInstanceAs (Decidable (∃ a ∈ as, _))

instance (r : ρ) (as : List (Access ρ π)) : Decidable (Reads r as) :=
  inferInstanceAs (Decidable (∃ a ∈ as, _))

/-- The positions at which `r` is read. -/
def readsAt (r : ρ) (as : List (Access ρ π)) : List π :=
  (as.filter fun a => a.reads && a.reg == r).map Access.pos

@[simp] theorem readsAt_nil (r : ρ) : readsAt r ([] : List (Access ρ π)) = [] := rfl

@[simp] theorem readsAt_append (r : ρ) (as bs : List (Access ρ π)) :
    readsAt r (as ++ bs) = readsAt r as ++ readsAt r bs := by
  simp [readsAt]

theorem readsAt_perm (r : ρ) (h : as.Perm bs) : (readsAt r as).Perm (readsAt r bs) :=
  (h.filter _).map _

theorem readsAt_eq_nil : readsAt r as = [] ↔ ¬ Reads r as := by
  simp [readsAt, Reads]

end Access

open Access

/-- Who defines each register and who reads it where. -/
structure DefUse (ι ρ π : Type*) where
  defOf : ρ → Option ι
  uses : ρ → List (ι × π)

namespace DefUse

variable {ι ρ π : Type*} [DecidableEq ρ]

def record (t : DefUse ι ρ π) (i : ι) (a : Access ρ π) : DefUse ι ρ π where
  defOf := if a.writes then update t.defOf a.reg (some i) else t.defOf
  uses :=
    if a.reads then update t.uses a.reg (t.uses a.reg ++ [(i, a.pos)])
    else t.uses

def recordAll (t : DefUse ι ρ π) (i : ι) (as : List (Access ρ π)) : DefUse ι ρ π :=
  as.foldl (fun t a => t.record i a) t

theorem uses_recordAll (t : DefUse ι ρ π) (i : ι) (as : List (Access ρ π)) (r : ρ) :
    (t.recordAll i as).uses r = t.uses r ++ (readsAt r as).map (i, ·) := by
  induction as generalizing t with
  | nil => simp [recordAll]
  | cons a as ih =>
    have hcons : t.recordAll i (a :: as) = (t.record i a).recordAll i as := rfl
    rw [hcons, ih]
    by_cases hreads : a.reads = true
    · by_cases hreg : a.reg = r
      · subst hreg
        simp [record, readsAt, hreads]
      · simp [record, readsAt, hreads, hreg, Ne.symm hreg]
    · simp [record, readsAt, hreads]

theorem defOf_recordAll (t : DefUse ι ρ π) (i : ι) (as : List (Access ρ π)) (r : ρ) :
    (t.recordAll i as).defOf r = if Writes r as then some i else t.defOf r := by
  induction as generalizing t with
  | nil => simp [recordAll]
  | cons a as ih =>
    have hcons : t.recordAll i (a :: as) = (t.record i a).recordAll i as := rfl
    rw [hcons, ih]
    by_cases htail : Writes r as
    · simp [htail]
    · by_cases hwrites : a.writes = true
      · by_cases hreg : a.reg = r
        · subst hreg
          simp [record, htail, hwrites]
        · simp [record, htail, hwrites, hreg, Ne.symm hreg]
      · simp [record, htail, hwrites]

variable [DecidableEq ι]

def forget (t : DefUse ι ρ π) (i : ι) (a : Access ρ π) : DefUse ι ρ π where
  defOf :=
    if a.writes ∧ t.defOf a.reg = some i then update t.defOf a.reg none
    else t.defOf
  uses :=
    if a.reads then
      update t.uses a.reg ((t.uses a.reg).filter fun u => u.1 ≠ i)
    else t.uses

def forgetAll (t : DefUse ι ρ π) (i : ι) (as : List (Access ρ π)) : DefUse ι ρ π :=
  as.foldl (fun t a => t.forget i a) t

theorem uses_forgetAll (t : DefUse ι ρ π) (i : ι) (as : List (Access ρ π)) (r : ρ) :
    (t.forgetAll i as).uses r =
      if Reads r as then (t.uses r).filter fun u => u.1 ≠ i else t.uses r := by
  induction as generalizing t with
  | nil => simp [forgetAll, Reads]
  | cons a as ih =>
    have hcons : t.forgetAll i (a :: as) = (t.forget i a).forgetAll i as := rfl
    rw [hcons, ih]
    by_cases hreads : a.reads = true
    · by_cases hreg : a.reg = r
      · subst hreg
        by_cases htail : Reads a.reg as
        · simp [forget, htail, hreads]
        · simp [forget, htail, hreads]
      · simp [forget, hreads, hreg, Ne.symm hreg]
    · simp [forget, hreads]

theorem defOf_forgetAll (t : DefUse ι ρ π) (i : ι) (as : List (Access ρ π)) (r : ρ) :
    (t.forgetAll i as).defOf r =
      if Writes r as ∧ t.defOf r = some i then none else t.defOf r := by
  induction as generalizing t with
  | nil => simp [forgetAll]
  | cons a as ih =>
    have hcons : t.forgetAll i (a :: as) = (t.forget i a).forgetAll i as := rfl
    rw [hcons, ih]
    by_cases hgone : a.writes = true ∧ t.defOf a.reg = some i
    · by_cases hreg : a.reg = r
      · subst hreg
        simp [forget, hgone]
      · simp [forget, hgone, hreg, Ne.symm hreg]
    · by_cases hreg : a.reg = r
      · subst hreg
        simp only [forget, if_neg hgone, writes_cons, and_true]
        by_cases hdef : t.defOf a.reg = some i
        · have hwrites : ¬ a.writes = true := fun h => hgone ⟨h, hdef⟩
          simp [hwrites]
        · simp [hdef]
      · simp [forget, hgone, hreg]

/-- The table holds every read of every user exactly once, and names the definer of
every register that has a single one. -/
structure Exact [DecidableEq π] (acc : ι → List (Access ρ π)) (t : DefUse ι ρ π) :
    Prop where
  count_uses : ∀ r i p, (t.uses r).count (i, p) = (readsAt r (acc i)).count p
  writes_of_defOf : ∀ r w, t.defOf r = some w → Writes r (acc w)
  defOf_of_unique : ∀ r w, Writes r (acc w) →
    (∀ w', Writes r (acc w') → w' = w) → t.defOf r = some w

namespace Exact

variable [DecidableEq π] {acc : ι → List (Access ρ π)} {t : DefUse ι ρ π}

theorem not_mem_uses (h : t.Exact acc) {i : ι} (hi : acc i = []) (r : ρ) :
    ∀ u ∈ t.uses r, u.1 ≠ i := by
  rintro ⟨j, p⟩ hu rfl
  have hcount := h.count_uses r j p
  rw [hi] at hcount
  exact absurd hu (count_eq_zero.mp hcount)

/-- Forgetting accesses of a user that has none changes nothing. -/
theorem forgetAll_of_nil (h : t.Exact acc) {i : ι} (hi : acc i = [])
    (gone : List (Access ρ π)) : t.forgetAll i gone = t := by
  have hdef : (t.forgetAll i gone).defOf = t.defOf := by
    funext r
    rw [defOf_forgetAll, if_neg]
    rintro ⟨_, hr⟩
    have hwrites := h.writes_of_defOf r i hr
    rw [hi] at hwrites
    exact not_writes_nil r hwrites
  have huses : (t.forgetAll i gone).uses = t.uses := by
    funext r
    have hfilter : (t.uses r).filter (fun u => u.1 ≠ i) = t.uses r := by
      rw [filter_eq_self]
      simpa using h.not_mem_uses hi r
    rw [uses_forgetAll, hfilter, ite_self]
  calc
    t.forgetAll i gone = ⟨(t.forgetAll i gone).defOf, (t.forgetAll i gone).uses⟩ := rfl
    _ = t := by rw [hdef, huses]

variable {i : ι} {new kept gone fresh : List (Access ρ π)}

section

variable (h : t.Exact acc) (hold : (acc i).Perm (kept ++ gone)) (hnew : new.Perm (kept ++ fresh))
  (hread : ∀ r, Reads r kept → ¬ Reads r gone)
include h hold hnew hread

theorem count_uses_edit (r : ρ) (j : ι) (p : π) :
    (((t.forgetAll i gone).recordAll i fresh).uses r).count (j, p) =
      (readsAt r (update acc i new j)).count p := by
  have hinj : Injective fun p : π => (i, p) := Prod.mk_right_injective i
  rw [uses_recordAll, uses_forgetAll, count_append]
  by_cases hj : j = i
  · subst hj
    have hfresh : ((readsAt r fresh).map (j, ·)).count (j, p) = (readsAt r fresh).count p :=
      count_map_of_injective _ _ hinj p
    have hnewCount := (readsAt_perm r hnew).count_eq p
    have holdCount := (readsAt_perm r hold).count_eq p
    rw [readsAt_append, count_append] at hnewCount holdCount
    rw [update_self, hnewCount, hfresh]
    congr 1
    by_cases hgone : Reads r gone
    · have hkept : readsAt r kept = [] :=
        readsAt_eq_nil.mpr fun hk => hread r hk hgone
      rw [if_pos hgone, hkept, count_nil, count_eq_zero]
      simp
    · rw [if_neg hgone, h.count_uses, holdCount, readsAt_eq_nil.mpr hgone, count_nil, Nat.add_zero]
  · have hfresh : ((readsAt r fresh).map (i, ·)).count (j, p) = 0 := by
      rw [count_eq_zero]
      simp [Ne.symm hj]
    rw [update_of_ne hj, hfresh, Nat.add_zero, ← h.count_uses r j p]
    split
    · rw [count_filter]
      simpa using hj
    · rfl

/-- Replacing the accesses `gone` of a user by `fresh`, while `kept` stays. -/
theorem edit
    (hwrite : ∀ r, Writes r kept → Writes r gone → Writes r fresh ∨ ∃ w, w ≠ i ∧ Writes r (acc w))
    (hdef : ∀ r, Writes r gone → ¬ Writes r new → ∀ w, w ≠ i → Writes r (acc w) →
      (∀ w', w' ≠ i → Writes r (acc w') → w' = w) → t.defOf r = some w) :
    ((t.forgetAll i gone).recordAll i fresh).Exact (update acc i new) := by
  have holdIff : ∀ r, Writes r (acc i) ↔ Writes r kept ∨ Writes r gone := fun r =>
    (writes_perm hold).trans writes_append
  have hnewIff : ∀ r, Writes r new ↔ Writes r kept ∨ Writes r fresh := fun r =>
    (writes_perm hnew).trans writes_append
  have hdefOf : ∀ r, ((t.forgetAll i gone).recordAll i fresh).defOf r =
      if Writes r fresh then some i
      else if Writes r gone ∧ t.defOf r = some i then none else t.defOf r := by
    intro r
    rw [defOf_recordAll, defOf_forgetAll]
  refine ⟨h.count_uses_edit hold hnew hread, ?_, ?_⟩
  · intro r w hw
    rw [hdefOf] at hw
    by_cases hfresh : Writes r fresh
    · rw [if_pos hfresh] at hw
      obtain rfl : i = w := by simpa using hw
      rw [update_self]
      exact (hnewIff r).mpr (.inr hfresh)
    · rw [if_neg hfresh] at hw
      split at hw
      · cases hw
      · next hnot =>
          have hwrites := h.writes_of_defOf r w hw
          by_cases hwi : w = i
          · subst hwi
            rcases (holdIff r).mp hwrites with hkept | hgone
            · rw [update_self]
              exact (hnewIff r).mpr (.inl hkept)
            · exact absurd ⟨hgone, hw⟩ hnot
          · rw [update_of_ne hwi]
            exact hwrites
  · intro r w hw huniq
    rw [hdefOf]
    by_cases hfresh : Writes r fresh
    · have hi : i = w := by
        refine huniq i ?_
        rw [update_self]
        exact (hnewIff r).mpr (.inr hfresh)
      rw [if_pos hfresh, hi]
    · rw [if_neg hfresh]
      have hothers : ∀ w', w' ≠ i → Writes r (acc w') → w' = w := by
        intro w' hne hw'
        refine huniq w' ?_
        rw [update_of_ne hne]
        exact hw'
      by_cases hwi : w = i
      · -- the user itself stays the only definer, by an access that is kept
        subst hwi
        rw [update_self] at hw
        have hkept : Writes r kept := by
          rcases (hnewIff r).mp hw with hk | hf
          · exact hk
          · exact absurd hf hfresh
        have hgone : ¬ Writes r gone := by
          intro hgone
          rcases hwrite r hkept hgone with hf | ⟨w', hne, hw'⟩
          · exact hfresh hf
          · exact hne (hothers w' hne hw')
        rw [if_neg fun hc => hgone hc.1]
        refine h.defOf_of_unique r w ((holdIff r).mpr (.inl hkept)) ?_
        intro w' hw'
        by_cases hne : w' = w
        · exact hne
        · exact hothers w' hne hw'
      · -- another user is the only definer left
        rw [update_of_ne hwi] at hw
        have hnotNew : ¬ Writes r new := by
          intro hn
          refine hwi (huniq i ?_).symm
          rw [update_self]
          exact hn
        have hdefw : t.defOf r = some w := by
          by_cases hgone : Writes r gone
          · exact hdef r hgone hnotNew w hwi hw hothers
          · refine h.defOf_of_unique r w hw ?_
            intro w' hw'
            by_cases hne : w' = i
            · subst hne
              rcases (holdIff r).mp hw' with hk | hg
              · exact absurd ((hnewIff r).mpr (.inl hk)) hnotNew
              · exact absurd hg hgone
            · exact hothers w' hne hw'
        rw [hdefw, if_neg]
        rintro ⟨_, hc⟩
        exact hwi (Option.some.inj hc)

end

theorem uses_perm (h : t.Exact acc) {users : List ι} (hnodup : users.Nodup)
    (hall : ∀ i, acc i ≠ [] → i ∈ users) (r : ρ) :
    (t.uses r).Perm (users.flatMap fun i => (readsAt r (acc i)).map (i, ·)) := by
  rw [perm_iff_count]
  rintro ⟨i, p⟩
  have hsum : ∀ users : List ι, users.Nodup →
      (users.flatMap fun i => (readsAt r (acc i)).map (i, ·)).count (i, p) =
        if i ∈ users then (readsAt r (acc i)).count p else 0 := by
    intro users hnodup
    induction users with
    | nil => simp
    | cons j users ih =>
      obtain ⟨hj, htail⟩ := nodup_cons.mp hnodup
      rw [flatMap_cons, count_append, ih htail]
      by_cases hij : i = j
      · subst hij
        have hinj : Injective fun p : π => (i, p) := Prod.mk_right_injective i
        have hmap : ((readsAt r (acc i)).map (i, ·)).count (i, p) =
            (readsAt r (acc i)).count p := count_map_of_injective _ _ hinj p
        simp [hj, hmap]
      · have hmap : ((readsAt r (acc j)).map (j, ·)).count (i, p) = 0 := by
          rw [count_eq_zero]
          simp [Ne.symm hij]
        simp [hij, hmap]
  rw [h.count_uses, hsum users hnodup]
  split
  · rfl
  · next hi =>
      have hnil : acc i = [] := by
        by_contra hne
        exact hi (hall i hne)
      simp [hnil]

end Exact

end DefUse

end EzPacker
