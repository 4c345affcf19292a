import Mathlib.Data.List.Basic

/-!
# Sets of values told apart by a key

A list stands for a set whose elements are compared by a key only: inserting a value
whose key is present leaves the list alone, so that the value that was inserted first
stays. What such a list holds is the set of its keys.
-/

namespace EzPacker.KeyedSet

open List

variable {α K : Type*} {key : α → K}

def keys (key : α → K) (s : List α) : List K := s.map key

@[simp] theorem keys_nil : keys key [] = [] := rfl

@[simp] theorem keys_cons (a : α) (s : List α) : keys key (a :: s) = key a :: keys key s := rfl

@[simp] theorem keys_append (s t : List α) : keys key (s ++ t) = keys key s ++ keys key t := by
  simp [keys]

variable {s : List α} {k : K}

theorem mem_keys : k ∈ keys key s ↔ ∃ a ∈ s, key a = k := by
  simp [keys]

variable {a : α}

theorem key_mem (h : a ∈ s) : key a ∈ keys key s :=
  mem_keys.mpr ⟨a, h, rfl⟩

variable [DecidableEq K]

section

variable (key)

def contains (s : List α) (a : α) : Bool := key a ∈ keys key s

def insert (s : List α) (a : α) : List α := if contains key s a then s else s ++ [a]

def erase (s : List α) (a : α) : List α := s.filter fun x => key x ≠ key a

end

@[simp] theorem contains_iff : contains key s a = true ↔ key a ∈ keys key s := by
  simp [contains]

theorem contains_eq_false : contains key s a = false ↔ key a ∉ keys key s := by
  simp [contains]

@[simp] theorem mem_keys_insert : k ∈ keys key (insert key s a) ↔ k ∈ keys key s ∨ k = key a := by
  unfold insert
  split
  · next h =>
      constructor
      · exact Or.inl
      · rintro (hk | rfl)
        · exact hk
        · exact contains_iff.mp h
  · simp

@[simp] theorem mem_keys_erase : k ∈ keys key (erase key s a) ↔ k ∈ keys key s ∧ k ≠ key a := by
  simp only [erase, mem_keys, mem_filter, decide_eq_true_eq]
  constructor
  · rintro ⟨x, ⟨hx, hne⟩, rfl⟩
    exact ⟨⟨x, hx, rfl⟩, hne⟩
  · rintro ⟨⟨x, hx, rfl⟩, hne⟩
    exact ⟨x, ⟨hx, hne⟩, rfl⟩

variable {x : α}

theorem mem_of_mem_insert (h : x ∈ insert key s a) : x ∈ s ∨ x = a := by
  unfold insert at h
  split at h
  · exact .inl h
  · simpa using h

theorem mem_of_mem_erase (h : x ∈ erase key s a) : x ∈ s :=
  mem_of_mem_filter h

theorem nodup_keys_insert (h : (keys key s).Nodup) : (keys key (insert key s a)).Nodup := by
  unfold insert
  split
  · exact h
  · next hnot =>
      rw [keys_append]
      refine nodup_append.mpr ⟨h, by simp, ?_⟩
      intro k hk k' hk'
      have hnew : key a ∉ keys key s := by
        simpa using hnot
      rintro rfl
      obtain rfl : k = key a := by simpa using hk'
      exact hnew hk

theorem nodup_keys_erase (h : (keys key s).Nodup) : (keys key (erase key s a)).Nodup :=
  h.sublist (filter_sublist.map key)

/-- Values inserted one after the other. -/
def insertAll (key : α → K) (s : List α) (as : List α) : List α := as.foldl (insert key) s

@[simp] theorem insertAll_nil (s : List α) : insertAll key s [] = s := rfl

@[simp] theorem insertAll_cons (s : List α) (a : α) (as : List α) :
    insertAll key s (a :: as) = insertAll key (insert key s a) as := rfl

variable {as : List α}

@[simp] theorem mem_keys_insertAll :
    k ∈ keys key (insertAll key s as) ↔ k ∈ keys key s ∨ k ∈ keys key as := by
  induction as generalizing s with
  | nil => simp
  | cons a as ih =>
    rw [insertAll_cons, ih, mem_keys_insert, keys_cons, mem_cons, or_assoc]

theorem mem_of_mem_insertAll (h : x ∈ insertAll key s as) : x ∈ s ∨ x ∈ as := by
  induction as generalizing s with
  | nil => exact .inl h
  | cons a as ih =>
    rcases ih h with h | h
    · rcases mem_of_mem_insert h with h | rfl
      · exact .inl h
      · exact .inr mem_cons_self
    · exact .inr (mem_cons_of_mem _ h)

/-- Values erased one after the other. -/
def eraseAll (key : α → K) (s : List α) (as : List α) : List α := as.foldl (erase key) s

@[simp] theorem eraseAll_nil (s : List α) : eraseAll key s [] = s := rfl

@[simp] theorem eraseAll_cons (s : List α) (a : α) (as : List α) :
    eraseAll key s (a :: as) = eraseAll key (erase key s a) as := rfl

@[simp] theorem mem_keys_eraseAll :
    k ∈ keys key (eraseAll key s as) ↔ k ∈ keys key s ∧ k ∉ keys key as := by
  induction as generalizing s with
  | nil => simp
  | cons a as ih =>
    rw [eraseAll_cons, ih, mem_keys_erase, keys_cons, mem_cons, not_or, and_assoc]

theorem mem_of_mem_eraseAll (h : x ∈ eraseAll key s as) : x ∈ s := by
  induction as generalizing s with
  | nil => exact h
  | cons a as ih => exact mem_of_mem_erase (ih h)

end EzPacker.KeyedSet
