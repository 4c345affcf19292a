import Mathlib.Data.List.Nodup
import Mathlib.Data.List.Pairwise
import Mathlib.Data.List.TakeWhile

/-!
# Names in the order of their first mention

A list of names grows by each name that it does not have yet. The position of a name
never changes once the name is in the list.
-/

namespace EzPacker

open List

namespace FirstMention

variable {α : Type*} [DecidableEq α]

def note (names : List α) (name : α) : List α :=
  if name ∈ names then names else names ++ [name]

def noteAll (names : List α) (mentions : List α) : List α := mentions.foldl note names

@[simp] theorem noteAll_nil (names : List α) : noteAll names [] = names := rfl

@[simp] theorem noteAll_cons (names : List α) (name : α) (rest : List α) :
    noteAll names (name :: rest) = noteAll (note names name) rest := rfl

theorem noteAll_append (names as bs : List α) :
    noteAll names (as ++ bs) = noteAll (noteAll names as) bs :=
  foldl_append

theorem prefix_note (names : List α) (name : α) : names <+: note names name := by
  unfold note
  split
  · exact prefix_rfl
  · exact prefix_append _ _

theorem prefix_noteAll (names mentions : List α) : names <+: noteAll names mentions := by
  induction mentions generalizing names with
  | nil => exact prefix_rfl
  | cons name rest ih => exact (prefix_note names name).trans (ih _)

variable {names : List α}

@[simp] theorem mem_note {name x : α} : x ∈ note names name ↔ x ∈ names ∨ x = name := by
  unfold note
  split
  · next h =>
      constructor
      · exact Or.inl
      · rintro (hx | rfl)
        · exact hx
        · exact h
  · rw [mem_append, mem_singleton]

theorem mem_noteAll {mentions : List α} {x : α} :
    x ∈ noteAll names mentions ↔ x ∈ names ∨ x ∈ mentions := by
  induction mentions generalizing names with
  | nil => simp
  | cons name rest ih => rw [noteAll_cons, ih, mem_note, mem_cons, or_assoc]

theorem nodup_note (h : names.Nodup) (name : α) : (note names name).Nodup := by
  unfold note
  split
  · exact h
  · next hmem =>
      rw [nodup_append]
      refine ⟨h, nodup_singleton _, fun a ha b hb hab => ?_⟩
      rw [mem_singleton] at hb
      exact hmem (hb ▸ hab ▸ ha)

theorem nodup_noteAll (h : names.Nodup) (mentions : List α) : (noteAll names mentions).Nodup := by
  induction mentions generalizing names with
  | nil => exact h
  | cons name rest ih => exact ih (nodup_note h name)

/-- A name keeps its position. -/
theorem idxOf_of_extends {names' : List α} (h : names <+: names') {name : α}
    (hname : name ∈ names) :
    names'.idxOf name = names.idxOf name := by
  obtain ⟨rest, rfl⟩ := h
  exact idxOf_append_of_mem hname

/-- A numbering that tells the names of a list apart keeps their positions. -/
theorem idxOf_map_of_inj {β : Type*} [DecidableEq β] {f : α → β} {name : α}
    (hinj : ∀ x ∈ names, f x = f name → x = name) :
    (names.map f).idxOf (f name) = names.idxOf name := by
  induction names with
  | nil => rfl
  | cons x names ih =>
    rw [map_cons]
    by_cases hx : x = name
    · rw [hx, idxOf_cons_self, idxOf_cons_self]
    · have hfx : f x ≠ f name := fun heq => hx (hinj x (mem_cons_self ..) heq)
      rw [idxOf_cons_ne _ hfx, idxOf_cons_ne _ hx, ih fun y hy => hinj y (mem_cons_of_mem _ hy)]

end FirstMention

end EzPacker

/-!
## Lists without repetition over the elements of a list

When the lists that belong to the elements of a list have no common element and no
repetition, an element of one of them tells which it is from.
-/

namespace EzPacker

variable {α β : Type*} {f : α → List β} {l : List α}

theorem eq_of_mem_flatMap (hnodup : (l.flatMap f).Nodup) {x y : α} (hx : x ∈ l)
    (hy : y ∈ l) {b : β} (hbx : b ∈ f x) (hby : b ∈ f y) : x = y := by
  by_contra hne
  have hsymm : Std.Symm (Function.onFun List.Disjoint f) :=
    ⟨fun _ _ hd _ ha hb => hd hb ha⟩
  have hdisjoint : (f x).Disjoint (f y) :=
    (List.nodup_flatMap.mp hnodup).2.forall hx hy hne
  exact hdisjoint hbx hby

theorem nodup_of_mem_flatMap (hnodup : (l.flatMap f).Nodup) {x : α} (hx : x ∈ l) : (f x).Nodup :=
  (List.nodup_flatMap.mp hnodup).1 x hx

end EzPacker

/-!
## Insertion in front of the first element of a kind

A list of new elements is put in front of the first element for which `p` holds, or at the
end when there is none.
-/

namespace EzPacker

variable {α β : Type*} (p : α → Bool)

def insertBefore (xs l : List α) : List α :=
  l.takeWhile (!p ·) ++ xs ++ l.dropWhile (!p ·)

variable {p}

theorem insertBefore_nil (l : List α) : insertBefore p [] l = l := by
  unfold insertBefore
  rw [List.append_nil, List.takeWhile_append_dropWhile]

variable {l xs : List α}

theorem mem_insertBefore {a : α} : a ∈ insertBefore p xs l ↔ a ∈ xs ∨ a ∈ l := by
  have hl : a ∈ l ↔ a ∈ l.takeWhile (!p ·) ∨ a ∈ l.dropWhile (!p ·) := by
    rw [← List.mem_append, List.takeWhile_append_dropWhile]
  unfold insertBefore
  rw [hl, List.mem_append, List.mem_append, or_comm (b := a ∈ xs), or_assoc]

/-- Behind elements that are not of the kind. -/
theorem insertBefore_append_of_neg {l' : List α} (h : ∀ a ∈ l, p a = false) :
    insertBefore p xs (l ++ l') = l ++ insertBefore p xs l' := by
  have hpos : ∀ a ∈ l, (!p a) = true := fun a ha => by rw [h a ha]; rfl
  unfold insertBefore
  rw [List.takeWhile_append_of_pos hpos, List.dropWhile_append_of_pos hpos]
  simp

/-- In front of a list that has an element of the kind. -/
theorem insertBefore_append_of_pos {l' : List α} (h : ∃ a ∈ l, p a = true) :
    insertBefore p xs (l ++ l') = insertBefore p xs l ++ l' := by
  induction l with
  | nil =>
    obtain ⟨a, ha, -⟩ := h
    cases ha
  | cons b l ih =>
    cases hb : p b with
    | true => simp [insertBefore, hb]
    | false =>
      have hl : ∃ a ∈ l, p a = true := by
        obtain ⟨a, ha, hpa⟩ := h
        rcases List.mem_cons.mp ha with rfl | ha
        · rw [hb] at hpa
          cases hpa
        · exact ⟨a, ha, hpa⟩
      have hhead : ∀ m : List α, insertBefore p xs (b :: m) = b :: insertBefore p xs m := by
        intro m
        simp [insertBefore, hb]
      rw [List.cons_append, hhead, hhead, ih hl, List.cons_append]

theorem dropWhile_append_of_pos {l' : List α} (h : ∃ a ∈ l, p a = true) :
    (l ++ l').dropWhile (!p ·) = l.dropWhile (!p ·) ++ l' := by
  have hne : l.dropWhile (!p ·) ≠ [] := by
    obtain ⟨a, ha, hpa⟩ := h
    intro hnil
    have hall := List.dropWhile_eq_nil_iff.mp hnil a ha
    rw [hpa] at hall
    cases hall
  rw [List.dropWhile_append, if_neg]
  rwa [List.isEmpty_iff]

theorem insertBefore_insertBefore {ys : List α} (h : ∀ a ∈ xs, p a = false) :
    insertBefore p ys (insertBefore p xs l) = insertBefore p (xs ++ ys) l := by
  have hbefore : ∀ a ∈ l.takeWhile (!p ·), p a = false := by
    intro a ha
    simpa using List.mem_takeWhile_imp ha
  have hbehind : insertBefore p ys (l.dropWhile (!p ·)) = ys ++ l.dropWhile (!p ·) := by
    cases hdrop : l.dropWhile (!p ·) with
    | nil => simp [insertBefore]
    | cons a rest =>
      have ha : p a = true := by
        have hhead := List.head?_dropWhile_not (!p ·) l
        rw [hdrop] at hhead
        simpa using hhead
      simp [insertBefore, ha]
  rw [show insertBefore p xs l = l.takeWhile (!p ·) ++ (xs ++ l.dropWhile (!p ·)) by
    simp [insertBefore], insertBefore_append_of_neg hbefore, insertBefore_append_of_neg h,
    hbehind]
  simp [insertBefore]

end EzPacker

/-!
## Values accumulated under a key

A table has one entry for each key it has met. Accumulating under a key appends to its
entry, or adds an entry at the end. After any number of accumulations the keys stand in
the order of their first mention, and each holds what was accumulated under it, in
order.
-/

namespace EzPacker

namespace Accumulation

open FirstMention

variable {K V : Type*} [DecidableEq K]

def accumulate : List (K × List V) → K → List V → List (K × List V)
  | [], k, vs => [(k, vs)]
  | entry :: rest, k, vs =>
    if entry.1 = k then (k, entry.2 ++ vs) :: rest else entry :: accumulate rest k vs

def accumulateAll (table : List (K × List V)) (entries : List (K × List V)) : List (K × List V) :=
  entries.foldl (fun t entry => accumulate t entry.1 entry.2) table

/-- What a table holds under a key. -/
def valuesAt (table : List (K × List V)) (k : K) : List V :=
  ((table.find? fun entry => entry.1 = k).map Prod.snd).getD []

@[simp] theorem valuesAt_nil (k : K) : valuesAt ([] : List (K × List V)) k = [] := rfl

theorem valuesAt_cons_self {entry : K × List V} {rest : List (K × List V)} {k : K}
    (h : entry.1 = k) : valuesAt (entry :: rest) k = entry.2 := by
  simp [valuesAt, h]

theorem valuesAt_cons_ne {entry : K × List V} {rest : List (K × List V)} {k : K}
    (h : entry.1 ≠ k) : valuesAt (entry :: rest) k = valuesAt rest k := by
  simp [valuesAt, h]

section

variable (table : List (K × List V))
include table

@[simp] theorem accumulateAll_nil : accumulateAll table [] = table := rfl

@[simp] theorem accumulateAll_cons (entry : K × List V) (rest : List (K × List V)) :
    accumulateAll table (entry :: rest) =
      accumulateAll (accumulate table entry.1 entry.2) rest := rfl

theorem keys_accumulate (k : K) (vs : List V) :
    (accumulate table k vs).map Prod.fst = note (table.map Prod.fst) k := by
  induction table with
  | nil => simp [accumulate, note]
  | cons entry rest ih =>
    rw [accumulate]
    by_cases h : entry.1 = k
    · simp [h, note]
    · rw [if_neg h, List.map_cons, ih, List.map_cons]
      by_cases hk : k ∈ rest.map Prod.fst
      · rw [note, note, if_pos hk, if_pos (List.mem_cons_of_mem _ hk)]
      · have hcons : k ∉ entry.1 :: rest.map Prod.fst := by
          rintro (_ | ⟨_, hmem⟩)
          · exact h rfl
          · exact hk hmem
        rw [note, note, if_neg hk, if_neg hcons, List.cons_append]

theorem valuesAt_accumulate_self (k : K) (vs : List V) :
    valuesAt (accumulate table k vs) k = valuesAt table k ++ vs := by
  induction table with
  | nil => simp [accumulate, valuesAt]
  | cons entry rest ih =>
    rw [accumulate]
    by_cases h : entry.1 = k
    · rw [if_pos h, valuesAt_cons_self rfl, valuesAt_cons_self h]
    · rw [if_neg h, valuesAt_cons_ne h, valuesAt_cons_ne h, ih]

end

variable {table : List (K × List V)}

theorem valuesAt_accumulate_ne {k k' : K} (h : k ≠ k') (vs : List V) :
    valuesAt (accumulate table k vs) k' = valuesAt table k' := by
  induction table with
  | nil => simp [accumulate, valuesAt, h]
  | cons entry rest ih =>
    rw [accumulate]
    by_cases hk : entry.1 = k
    · rw [if_pos hk, valuesAt_cons_ne h, valuesAt_cons_ne (hk ▸ h)]
    · rw [if_neg hk]
      by_cases hk' : entry.1 = k'
      · rw [valuesAt_cons_self hk', valuesAt_cons_self hk']
      · rw [valuesAt_cons_ne hk', valuesAt_cons_ne hk', ih]

theorem keys_accumulateAll (table entries : List (K × List V)) :
    (accumulateAll table entries).map Prod.fst =
      noteAll (table.map Prod.fst) (entries.map Prod.fst) := by
  induction entries generalizing table with
  | nil => rfl
  | cons entry rest ih =>
    rw [accumulateAll_cons, ih, keys_accumulate, List.map_cons, noteAll_cons]

theorem valuesAt_accumulateAll (table entries : List (K × List V)) (k : K) :
    valuesAt (accumulateAll table entries) k =
      valuesAt table k ++ (entries.filter fun entry => entry.1 = k).flatMap Prod.snd := by
  induction entries generalizing table with
  | nil => simp
  | cons entry rest ih =>
    rw [accumulateAll_cons, ih]
    by_cases h : entry.1 = k
    · rw [List.filter_cons_of_pos (by simpa using h), List.flatMap_cons, ← List.append_assoc,
        ← h, valuesAt_accumulate_self]
    · rw [List.filter_cons_of_neg (by simpa using h), valuesAt_accumulate_ne h]

theorem nodup_keys_accumulateAll (h : (table.map Prod.fst).Nodup) (entries : List (K × List V)) :
    ((accumulateAll table entries).map Prod.fst).Nodup := by
  rw [keys_accumulateAll]
  exact nodup_noteAll h _

theorem valuesAt_eq_nil {k : K} (h : k ∉ table.map Prod.fst) : valuesAt table k = [] := by
  induction table with
  | nil => rfl
  | cons entry rest ih =>
    rw [List.map_cons, List.mem_cons, not_or] at h
    rw [valuesAt_cons_ne (fun heq => h.1 heq.symm), ih h.2]

/-- Rows of an array that are each written once, from the values of their key. -/
theorem foldl_update_eq {R : Type*} (step : R → List V → R) (hstep : ∀ r, step r [] = r)
    (h : (table.map Prod.fst).Nodup) (rows : K → R) (k : K) :
    table.foldl (fun rows entry => Function.update rows entry.1 (step (rows entry.1) entry.2))
      rows k = step (rows k) (valuesAt table k) := by
  induction table generalizing rows with
  | nil => exact (hstep _).symm
  | cons entry rest ih =>
    rw [List.map_cons, List.nodup_cons] at h
    rw [List.foldl_cons, ih h.2]
    by_cases hk : entry.1 = k
    · subst hk
      rw [valuesAt_cons_self rfl, valuesAt_eq_nil h.1, hstep, Function.update_self]
    · rw [valuesAt_cons_ne hk, Function.update_of_ne (Ne.symm hk)]

theorem lookup_filter_map {R : Type*} {p : List V → Bool} (hp : p [] = false) (f : List V → R)
    (h : (table.map Prod.fst).Nodup) (k : K) :
    ((table.filter fun entry => p entry.2).map fun entry => (entry.1, f entry.2)).lookup k =
      if p (valuesAt table k) then some (f (valuesAt table k)) else none := by
  induction table with
  | nil => simp [hp]
  | cons entry rest ih =>
    rw [List.map_cons, List.nodup_cons] at h
    by_cases hk : entry.1 = k
    · subst hk
      rw [valuesAt_cons_self rfl]
      by_cases hpe : p entry.2 = true
      · rw [@List.filter_cons_of_pos _ (fun e => p e.2) entry rest hpe, List.map_cons,
          List.lookup_cons, if_pos hpe]
        simp
      · rw [@List.filter_cons_of_neg _ (fun e => p e.2) entry rest hpe, ih h.2, valuesAt_eq_nil h.1,
          hp, if_neg hpe,
          if_neg Bool.false_ne_true]
    · rw [valuesAt_cons_ne hk, ← ih h.2]
      by_cases hpe : p entry.2 = true
      · have hne : (k == entry.1) = false := by simpa using Ne.symm hk
        rw [@List.filter_cons_of_pos _ (fun e => p e.2) entry rest hpe, List.map_cons,
          List.lookup_cons, hne]
      · rw [@List.filter_cons_of_neg _ (fun e => p e.2) entry rest hpe]

end Accumulation

end EzPacker
