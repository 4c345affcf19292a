import Mathlib.Data.List.Basic
import Mathlib.Algebra.Ring.Nat
import Mathlib.Order.Monotone.Basic

/-!
# Placing a stream of items

An item of a stream is placed at an offset and pushes the offset on: `adv x off`
is the offset behind an item `x` placed at `off`. Data items add their length,
markers add nothing, and alignment items add padding that depends on where they
are placed. What is used about `adv` is that it never goes back and that it is
monotone in the offset, so that moving the front of a stream moves nothing in it
backwards.

`offsetOf adv p off xs` is the offset of the first item of `xs` that satisfies
`p`, when the stream is placed at `off`.
-/

namespace EzPacker

/-- The offset behind the stream `xs` placed at `off`. -/
def place {α : Type*} (adv : α → ℕ → ℕ) (off : ℕ) (xs : List α) : ℕ :=
  xs.foldl (fun o x => adv x o) off

def offsetOf {α : Type*} (adv : α → ℕ → ℕ) (p : α → Bool) : ℕ → List α → Option ℕ
  | _, [] => none
  | off, x :: xs => if p x then some off else offsetOf adv p (adv x off) xs

section

variable {α : Type*} (adv : α → ℕ → ℕ)

@[simp] theorem place_nil (off : ℕ) : place adv off [] = off := rfl

@[simp] theorem place_cons (off : ℕ) (x : α) (xs : List α) :
    place adv off (x :: xs) = place adv (adv x off) xs := rfl

@[simp] theorem place_append (off : ℕ) (xs ys : List α) :
    place adv off (xs ++ ys) = place adv (place adv off xs) ys := by
  simp [place]

@[simp] theorem offsetOf_nil (p : α → Bool) (off : ℕ) : offsetOf adv p off [] = none := rfl

theorem offsetOf_append (p : α → Bool) (off : ℕ) (xs ys : List α) : offsetOf adv p off (xs ++ ys) =
      (offsetOf adv p off xs).or (offsetOf adv p (place adv off xs) ys) := by
  induction xs generalizing off with
  | nil => simp
  | cons x xs ih =>
    by_cases hx : p x
    · simp [offsetOf, hx]
    · simp [offsetOf, hx, ih]

variable {p : α → Bool} {off : ℕ} {xs : List α}

theorem offsetOf_eq_none : offsetOf adv p off xs = none ↔ ∀ x ∈ xs, p x = false := by
  induction xs generalizing off with
  | nil => simp
  | cons x xs ih =>
    by_cases hx : p x
    · simp [offsetOf, hx]
    · simp [offsetOf, hx, ih]

/-- The first item that satisfies `p` splits the stream in front of itself. -/
theorem exists_split_of_offsetOf {a : ℕ} (h : offsetOf adv p off xs = some a) :
    ∃ pre x post, xs = pre ++ x :: post ∧ p x = true ∧ (∀ y ∈ pre, p y = false) ∧
      a = place adv off pre := by
  induction xs generalizing off with
  | nil => cases h
  | cons x xs ih =>
    by_cases hx : p x
    · have ha : off = a := by simpa [offsetOf, hx] using h
      exact ⟨[], x, xs, rfl, hx, by simp, ha.symm⟩
    · have htail : offsetOf adv p (adv x off) xs = some a := by
        simpa [offsetOf, hx] using h
      obtain ⟨pre, y, post, rfl, hy, hpre, ha⟩ := ih htail
      refine ⟨x :: pre, y, post, rfl, hy, ?_, ha⟩
      intro z hz
      rcases List.mem_cons.mp hz with rfl | hz
      · simpa using hx
      · exact hpre z hz

theorem offsetOf_of_split (off : ℕ) {pre : List α} {x : α}
    (post : List α) (hx : p x = true) (hpre : ∀ y ∈ pre, p y = false) :
    offsetOf adv p off (pre ++ x :: post) = some (place adv off pre) := by
  rw [offsetOf_append, (offsetOf_eq_none adv).mpr hpre]
  simp [offsetOf, hx]

/-- When the first item that satisfies `p` stays where it is, everything from it
on stays: so does the first item that satisfies a stronger condition. -/
theorem offsetOf_congr {q : α → Bool} {off' : ℕ} (hqp : ∀ x ∈ xs, q x = true → p x = true)
    (h : offsetOf adv p off xs = offsetOf adv p off' xs) :
    offsetOf adv q off xs = offsetOf adv q off' xs := by
  induction xs generalizing off off' with
  | nil => rfl
  | cons x xs ih =>
    by_cases hx : p x
    · have hoff : off = off' := by simpa [offsetOf, hx] using h
      rw [hoff]
    · have hq : ¬ q x = true := fun hq => hx (hqp x (by simp) hq)
      have htail : offsetOf adv p (adv x off) xs = offsetOf adv p (adv x off') xs := by
        simpa [offsetOf, hx] using h
      have hmem : ∀ y ∈ xs, q y = true → p y = true := fun y hy =>
        hqp y (List.mem_cons_of_mem x hy)
      simpa [offsetOf, hq] using ih hmem htail

variable {adv}

theorem place_mono (hmono : ∀ x, Monotone (adv x)) (xs : List α) :
    Monotone fun off => place adv off xs := by
  induction xs with
  | nil => exact monotone_id
  | cons x xs ih => exact fun a b hab => ih (hmono x hab)

theorem le_place (hle : ∀ x off, off ≤ adv x off) (off : ℕ) (xs : List α) :
    off ≤ place adv off xs := by
  induction xs generalizing off with
  | nil => exact le_rfl
  | cons x xs ih => exact (hle x off).trans (ih _)

theorem offsetOf_mono (hmono : ∀ x, Monotone (adv x)) {off' a : ℕ} (hoff : off ≤ off')
    (h : offsetOf adv p off xs = some a) :
    ∃ b, offsetOf adv p off' xs = some b ∧ a ≤ b := by
  obtain ⟨pre, x, post, rfl, hx, hpre, rfl⟩ := exists_split_of_offsetOf adv h
  exact ⟨place adv off' pre, offsetOf_of_split adv off' post hx hpre, place_mono hmono pre hoff⟩

end

end EzPacker

/-!
## Rounding up to an alignment

`alignUp a n` is the least multiple of `a` that is at least `n`; an alignment of
`0` or `1` asks for nothing. Programs write it in two ways, by the remainder
(`n + (a - n % a)` when the remainder is not zero) and, for a power of two, by a
mask (`(n + a - 1) & ~(a - 1)`, where `x & ~m` is `x - (x & m)`). Both are bridged
to `alignUp` here, so that the order facts are proved once.
-/

namespace EzPacker

/-- The least multiple of `a` that is at least `n`, and `n` itself when `a = 0`. -/
def alignUp (a n : ℕ) : ℕ := if a = 0 then n else (n + (a - 1)) / a * a

/-- Rounding up by clearing the low bits. -/
def alignMask (a n : ℕ) : ℕ := (n + a - 1) - ((n + a - 1) &&& (a - 1))

namespace alignUp

@[simp] theorem zero_left (n : ℕ) : alignUp 0 n = n := rfl

@[simp] theorem one_left (n : ℕ) : alignUp 1 n = n := by simp [alignUp]

theorem le_alignUp (a n : ℕ) : n ≤ alignUp a n := by
  unfold alignUp
  split
  · exact le_rfl
  · next ha =>
      have hmod := Nat.div_add_mod' (n + (a - 1)) a
      have hlt := Nat.mod_lt (n + (a - 1)) (Nat.pos_of_ne_zero ha)
      omega

variable {n : ℕ}

theorem mono (a : ℕ) {m : ℕ} (h : m ≤ n) : alignUp a m ≤ alignUp a n := by
  unfold alignUp
  split
  · exact h
  · exact Nat.mul_le_mul_right a (Nat.div_le_div_right (by omega))

variable {a : ℕ}

theorem dvd_alignUp (ha : a ≠ 0) (n : ℕ) : a ∣ alignUp a n := by
  rw [alignUp, if_neg ha]
  exact Nat.dvd_mul_left a _

theorem lt_add (ha : a ≠ 0) (n : ℕ) : alignUp a n < n + a := by
  rw [alignUp, if_neg ha]
  have hle := Nat.div_mul_le_self (n + (a - 1)) a
  omega

theorem of_dvd (h : a ∣ n) : alignUp a n = n := by
  rcases eq_or_ne a 0 with rfl | ha
  · rfl
  · obtain ⟨k, rfl⟩ := h
    have hpos : 0 < a := Nat.pos_of_ne_zero ha
    rw [alignUp, if_neg ha, Nat.mul_add_div hpos,
      Nat.div_eq_of_lt (by omega : a - 1 < a), add_zero, mul_comm]

/-- `alignUp a n` is the least of the multiples above `n`. -/
theorem le_of_dvd_of_le {m : ℕ} (hdvd : a ∣ m) (hle : n ≤ m) : alignUp a n ≤ m := by
  have hmono := mono a hle
  rwa [of_dvd hdvd] at hmono

/-- The remainder form of rounding up. -/
theorem eq_add_sub_mod (h : n % a ≠ 0) (ha : a ≠ 0) : alignUp a n = n + (a - n % a) := by
  have hpos : 0 < a := Nat.pos_of_ne_zero ha
  have hlt := Nat.mod_lt n hpos
  have hn := Nat.div_add_mod n a
  have hsum : n + (a - 1) = a * (n / a + 1) + (n % a - 1) := by
    rw [Nat.mul_add, mul_one]
    omega
  rw [alignUp, if_neg ha, hsum, Nat.mul_add_div hpos,
    Nat.div_eq_of_lt (by omega : n % a - 1 < a), add_zero, mul_comm, Nat.mul_add,
    mul_one]
  omega

/-- The mask form of rounding up to a power of two. -/
theorem mask_two_pow (k n : ℕ) : alignMask (2 ^ k) n = alignUp (2 ^ k) n := by
  have hpos : 0 < 2 ^ k := Nat.two_pow_pos k
  have hsub : n + 2 ^ k - 1 = n + (2 ^ k - 1) := by omega
  have hdiv := Nat.div_add_mod' (n + (2 ^ k - 1)) (2 ^ k)
  rw [alignMask, Nat.and_two_pow_sub_one_eq_mod, hsub, alignUp, if_neg hpos.ne']
  omega

end alignUp

end EzPacker

/-!
## Aligned blocks

Blocks of items that are laid out one behind the other, each at the next multiple of its
alignment, with a fill item in the gaps. Every block is found where it starts, and
different blocks do not overlap.
-/

namespace EzPacker

structure AlignedBlock (β : Type*) where
  alignment : ℕ
  items : List β

namespace AlignedBlock

variable {β : Type*}

/-- Where a block starts that comes behind `off` items. -/
def start (b : AlignedBlock β) (off : ℕ) : ℕ := alignUp b.alignment off

def behind (b : AlignedBlock β) (off : ℕ) : ℕ := b.start off + b.items.length

def layout (fill : β) : ℕ → List (AlignedBlock β) → List β
  | _, [] => []
  | off, b :: bs =>
    List.replicate (b.start off - off) fill ++ (b.items ++ layout fill (b.behind off) bs)

theorem le_start (b : AlignedBlock β) (off : ℕ) : off ≤ b.start off :=
  alignUp.le_alignUp _ _

theorem le_behind (b : AlignedBlock β) (off : ℕ) : off ≤ b.behind off :=
  Nat.le_trans (b.le_start off) (Nat.le_add_right _ _)

variable {fill : β}

theorem length_layout (off : ℕ) (bs : List (AlignedBlock β)) :
    off + (layout fill off bs).length = place behind off bs := by
  induction bs generalizing off with
  | nil => rfl
  | cons b bs ih =>
    have hstart := b.le_start off
    rw [place_cons, ← ih, layout, List.length_append, List.length_append,
      List.length_replicate, behind]
    omega

theorem layout_append (off : ℕ) (bs bs' : List (AlignedBlock β)) : layout fill off (bs ++ bs') =
      layout fill off bs ++ layout fill (place behind off bs) bs' := by
  induction bs generalizing off with
  | nil => rfl
  | cons b bs ih => rw [List.cons_append, layout, layout, ih, place_cons, List.append_assoc,
      List.append_assoc]

/-- The items of a block stand where it starts. -/
theorem items_layout (before after : List (AlignedBlock β)) (b : AlignedBlock β) :
    ((layout fill 0 (before ++ b :: after)).drop (b.start (place behind 0 before))).take
      b.items.length = b.items := by
  have hlength : 0 + (layout fill 0 before).length = place behind 0 before :=
    length_layout 0 before
  rw [Nat.zero_add] at hlength
  have hstart := b.le_start (place behind 0 before)
  rw [layout_append, layout, ← List.append_assoc, List.drop_append_of_le_length,
    List.drop_of_length_le, List.nil_append, List.take_append_of_le_length (Nat.le_refl _),
      List.take_length]
  all_goals
    rw [List.length_append, List.length_replicate, hlength]
    omega

/-- A block that comes later starts behind an earlier one. -/
theorem behind_le_start (off : ℕ) (b b' : AlignedBlock β) (between : List (AlignedBlock β)) :
    b.behind off ≤ b'.start (place behind (b.behind off) between) :=
  Nat.le_trans (le_place le_behind _ _) (b'.le_start _)

end AlignedBlock

end EzPacker
