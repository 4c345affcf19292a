import Mathlib.Data.List.Basic

/-!
# Postfix texts with bracketed lists

A text is followed by a bracketed list of texts. Read from its end, such a text gives back the list
and what it follows, if every part is transparent: its own brackets are balanced and its own
separators are inside of them.
-/

namespace EzPacker

open List

structure Brackets (α : Type*) where
  opening : α
  closing : α
  separator : α
  opening_ne_closing : opening ≠ closing
  separator_ne_opening : separator ≠ opening
  separator_ne_closing : separator ≠ closing

namespace Brackets

variable {α : Type*} [DecidableEq α] (b : Brackets α)

/-- The parts of a list in front of the part that has been read and those behind it, and what the
list follows; the text is reversed and the depth counts the brackets that are open. -/
def scan : ℕ → List α → List α → List (List α) → Option (List (List α) × List α)
  | _, [], _, _ => none
  | depth, c :: text, part, parts =>
    if c = b.closing then scan (depth + 1) text (c :: part) parts
    else if c = b.opening then
      match depth with
      | 0 => some (part :: parts, text.reverse)
      | depth + 1 => scan depth text (c :: part) parts
    else if c = b.separator ∧ depth = 0 then scan 0 text [] (part :: parts)
    else scan depth text (c :: part) parts

/-- A text that is read as a piece of one part, at any depth. -/
def Transparent (text : List α) : Prop :=
  ∀ depth rest part parts,
    b.scan depth (text.reverse ++ rest) part parts = b.scan depth rest (text ++ part) parts

def joined : List (List α) → List α
  | [] => []
  | [part] => part
  | part :: next :: parts => part ++ b.separator :: joined (next :: parts)

def followed (text : List α) (parts : List (List α)) : List α :=
  text ++ b.opening :: b.joined parts ++ [b.closing]

variable {b}

theorem transparent_nil : b.Transparent [] := fun _ _ _ _ => rfl

variable {text : List α} {parts : List (List α)}

theorem Transparent.append {text' : List α} (h : b.Transparent text) (h' : b.Transparent text') :
    b.Transparent (text ++ text') := by
  intro depth rest part parts
  rw [reverse_append, append_assoc, h', h, append_assoc]

theorem scan_plain {c : α} (hopening : c ≠ b.opening) (hclosing : c ≠ b.closing) {depth : ℕ}
    (hseparator : c = b.separator → depth ≠ 0) (rest part : List α) (parts : List (List α)) :
    b.scan depth (c :: rest) part parts = b.scan depth rest (c :: part) parts := by
  rw [scan.eq_def]
  dsimp only
  rw [if_neg hclosing, if_neg hopening, if_neg fun h => hseparator h.1 h.2]

theorem scan_closing (depth : ℕ) (rest part : List α) (parts : List (List α)) :
    b.scan depth (b.closing :: rest) part parts =
      b.scan (depth + 1) rest (b.closing :: part) parts := by
  rw [scan.eq_def]
  dsimp only
  rw [if_pos rfl]

theorem scan_opening_succ (depth : ℕ) (rest part : List α) (parts : List (List α)) :
    b.scan (depth + 1) (b.opening :: rest) part parts =
      b.scan depth rest (b.opening :: part) parts := by
  rw [scan.eq_def]
  dsimp only
  rw [if_neg b.opening_ne_closing, if_pos rfl]

theorem scan_opening_zero (rest part : List α) (parts : List (List α)) :
    b.scan 0 (b.opening :: rest) part parts = some (part :: parts, rest.reverse) := by
  rw [scan.eq_def]
  dsimp only
  rw [if_neg b.opening_ne_closing, if_pos rfl]

theorem scan_separator_zero (rest part : List α) (parts : List (List α)) :
    b.scan 0 (b.separator :: rest) part parts = b.scan 0 rest [] (part :: parts) := by
  rw [scan.eq_def]
  dsimp only
  rw [if_neg b.separator_ne_closing, if_neg b.separator_ne_opening, if_pos ⟨rfl, rfl⟩]

theorem transparent_of_plain (h : ∀ c ∈ text, c ≠ b.opening ∧ c ≠ b.closing ∧ c ≠ b.separator) :
    b.Transparent text := by
  induction text with
  | nil => exact transparent_nil
  | cons c text ih =>
    have hc := h c (mem_cons_self ..)
    have hsingle : b.Transparent [c] := fun depth rest part parts =>
      scan_plain hc.1 hc.2.1 (fun heq => absurd heq hc.2.2) rest part parts
    exact hsingle.append (ih fun d hd => h d (mem_cons_of_mem _ hd))

/-- Inside of brackets separators are read as any other piece. -/
theorem scan_joined_succ (h : ∀ part ∈ parts, b.Transparent part) (depth : ℕ) (rest tail : List α)
    (acc : List (List α)) : b.scan (depth + 1) ((b.joined parts).reverse ++ rest) tail acc =
      b.scan (depth + 1) rest (b.joined parts ++ tail) acc := by
  induction parts generalizing rest tail with
  | nil => rfl
  | cons part parts ih =>
    have hpart := h part (mem_cons_self ..)
    cases parts with
    | nil => exact hpart (depth + 1) rest tail acc
    | cons next parts =>
      have hrest := ih fun p hp => h p (mem_cons_of_mem _ hp)
      rw [joined, reverse_append, reverse_cons, append_assoc, append_assoc, append_assoc, hrest]
      change b.scan (depth + 1) (b.separator :: (part.reverse ++ rest)) _ acc = _
      rw [scan_plain b.separator_ne_opening b.separator_ne_closing
        (fun _ => Nat.succ_ne_zero depth), hpart]
      rfl

/-- Outside of brackets separators end the parts. -/
theorem scan_joined_zero {part : List α} (h : ∀ p ∈ part :: parts, b.Transparent p) (rest : List α)
    (acc : List (List α)) : b.scan 0 ((b.joined (part :: parts)).reverse ++ rest) [] acc =
      b.scan 0 rest part (parts ++ acc) := by
  induction parts generalizing part rest with
  | nil =>
    have hpart := h part (mem_cons_self ..) 0 rest [] acc
    rw [append_nil] at hpart
    exact hpart
  | cons next parts ih =>
    have hpart := h part (mem_cons_self ..) 0 rest [] (next :: (parts ++ acc))
    rw [append_nil] at hpart
    rw [joined, reverse_append, reverse_cons, append_assoc, append_assoc,
      ih fun p hp => h p (mem_cons_of_mem _ hp)]
    change b.scan 0 (b.separator :: (part.reverse ++ rest)) next (parts ++ acc) = _
    rw [scan_separator_zero]
    exact hpart

theorem transparent_followed (htext : b.Transparent text)
    (hparts : ∀ part ∈ parts, b.Transparent part) : b.Transparent (b.followed text parts) := by
  intro depth rest part acc
  have hshape : (b.followed text parts).reverse ++ rest =
      b.closing :: ((b.joined parts).reverse ++ (b.opening :: (text.reverse ++ rest))) := by
    simp [followed]
  rw [hshape, scan_closing, scan_joined_succ hparts, scan_opening_succ, htext]
  simp [followed]

theorem scan_followed (hparts : ∀ part ∈ parts, b.Transparent part) :
    b.scan 0 (b.followed text parts).reverse.tail [] [] =
      some (if parts = [] then [[]] else parts, text) := by
  have hshape : (b.followed text parts).reverse.tail =
      (b.joined parts).reverse ++ (b.opening :: text.reverse) := by
    simp [followed]
  rw [hshape]
  cases parts with
  | nil =>
    change b.scan 0 (b.opening :: text.reverse) [] [] = _
    rw [scan_opening_zero, reverse_reverse]
    rfl
  | cons part parts =>
    rw [scan_joined_zero hparts, scan_opening_zero, append_nil, reverse_reverse]
    rfl

theorem followed_inj {text' : List α} {parts' : List (List α)}
    (hparts : ∀ part ∈ parts, b.Transparent part ∧ part ≠ [])
    (hparts' : ∀ part ∈ parts', b.Transparent part ∧ part ≠ [])
    (h : b.followed text parts = b.followed text' parts') : text = text' ∧ parts = parts' := by
  have hread := @scan_followed _ _ b text _ fun p hp => (hparts p hp).1
  have hread' := @scan_followed _ _ b text' _ fun p hp => (hparts' p hp).1
  rw [h, hread'] at hread
  obtain ⟨hlist, htext⟩ := Prod.mk.inj (Option.some.inj hread)
  refine ⟨htext.symm, ?_⟩
  split_ifs at hlist with hnil hnil' hnil'
  · rw [hnil, hnil']
  · exact absurd rfl ((hparts [] (hlist ▸ mem_singleton_self _)).2)
  · exact absurd rfl ((hparts' [] (hlist ▸ mem_singleton_self _)).2)
  · exact hlist.symm

end Brackets

end EzPacker
