import EzPacker.Lib.Bytes

/-!
# Layouts of streams with branches of two sizes

A stream holds bytes, labels and branches, each branch in its short or its long form. The
offsets grow with the set of long branches, and with them every distance between a branch
and its target. An assignment of forms is valid when no short branch is too far from its
target; the valid assignments of a stream are closed under meets, so an assignment is
minimal when its long branches are long in all of them.
-/

namespace EzPacker.BranchLayout

open Nat List Option

inductive Item (L B : Type)
  | data (bytes : List UInt8)
  | label (l : L)
  | branch (b : B) (long : Bool)
  deriving DecidableEq

/-- The targets and sizes of branches, and the distances, from the start of a branch, that
its short form does not reach. -/
structure Form (L B : Type) where
  target : B → L
  size : B → Bool → ℕ
  far : B → ℤ → Bool
  size_le : ∀ b, size b false ≤ size b true
  far_forward : ∀ {b : B} {d d' : ℤ}, 0 ≤ d → d ≤ d' → far b d = true → far b d' = true
  far_backward : ∀ {b : B} {d d' : ℤ}, d' ≤ d → d ≤ 0 → far b d = true → far b d' = true

variable {L B : Type}

/-! ## Offsets -/

def Form.width (F : Form L B) : Item L B → ℕ
  | .data bytes => bytes.length
  | .label _ => 0
  | .branch b long => F.size b long

def Form.total (F : Form L B) : List (Item L B) → ℕ
  | [] => 0
  | x :: xs => F.width x + F.total xs

def Form.offset (F : Form L B) (items : List (Item L B)) (i : ℕ) : ℕ := F.total (items.take i)

def Item.isLabel [DecidableEq L] (x : Item L B) (l : L) : Bool :=
  match x with
  | .label l' => l' = l
  | _ => false

def lastIndex [DecidableEq L] : List (Item L B) → L → Option ℕ
  | [], _ => none
  | x :: xs, l =>
    match lastIndex xs l with
    | some k => some (k + 1)
    | none => if x.isLabel l then some 0 else none

def Form.labelOffset [DecidableEq L] (F : Form L B) (items : List (Item L B)) (l : L) : Option ℕ :=
  (lastIndex items l).map (F.offset items)

variable (F : Form L B)

theorem total_append (xs ys : List (Item L B)) : F.total (xs ++ ys) = F.total xs + F.total ys := by
  induction xs with
  | nil => exact (zero_add _).symm
  | cons x xs ih =>
    rw [cons_append, Form.total, Form.total, ih, add_assoc]

theorem offset_cons_succ (x : Item L B) (xs : List (Item L B)) (i : ℕ) :
    F.offset (x :: xs) (i + 1) = F.width x + F.offset xs i := rfl

variable {i : ℕ} {x y : Item L B} {xs ys zs stream : List (Item L B)}

theorem offset_add (items : List (Item L B)) {k : ℕ} (h : i ≤ k) :
    F.offset items k = F.offset items i + F.total ((items.take k).drop i) := by
  have hsplit : items.take k = items.take i ++ (items.take k).drop i := by
    have htake : (items.take k).take i = items.take i := by
      rw [take_take, min_eq_left h]
    rw [← htake, take_append_drop]
  unfold Form.offset
  conv_lhs => rw [hsplit]
  exact total_append F _ _

/-! ## Growing branches -/

/-- The items are the same, and the branch is not shorter. -/
inductive Item.Le : Item L B → Item L B → Prop
  | data (bytes : List UInt8) : Le (.data bytes) (.data bytes)
  | label (l : L) : Le (.label l) (.label l)
  | branch (b : B) {long long' : Bool} (h : long = true → long' = true) :
      Le (.branch b long) (.branch b long')

def Grows (items items' : List (Item L B)) : Prop := Forall₂ Item.Le items items'

theorem Item.Le.refl (x : Item L B) : x.Le x := by
  cases x with
  | data bytes => exact .data bytes
  | label l => exact .label l
  | branch b long => exact .branch b id

theorem Item.Le.trans {z : Item L B} (h : x.Le y) (h' : y.Le z) : x.Le z := by
  cases h with
  | data bytes | label l => exact h'
  | branch b hxy =>
    cases h' with
    | branch _ hyz => exact .branch b fun hx => hyz (hxy hx)

theorem Grows.refl (items : List (Item L B)) : Grows items items :=
  forall₂_same.mpr fun x _ => Item.Le.refl x

theorem Grows.trans (h : Grows xs ys) (h' : Grows ys zs) : Grows xs zs := by
  induction h generalizing zs with
  | nil => exact h'
  | cons hx _ ih =>
    cases h' with
    | cons hy hrest => exact .cons (hx.trans hy) (ih hrest)

theorem Grows.get (h : Grows xs ys) (hx : xs[i]? = some x) (hy : ys[i]? = some y) : x.Le y := by
  induction h generalizing i with
  | nil => cases hx
  | cons hxy _ ih =>
    cases i with
    | zero =>
      obtain rfl := some.inj hx
      obtain rfl := some.inj hy
      exact hxy
    | succ i => exact ih hx hy

theorem Grows.exists_get (h : Grows xs ys) (hy : ys[i]? = some y) :
    ∃ x, xs[i]? = some x ∧ x.Le y := by
  obtain ⟨hi, -⟩ := List.getElem?_eq_some_iff.mp hy
  have hx := getElem?_eq_getElem (lt_of_lt_of_eq hi (Forall₂.length_eq h).symm)
  exact ⟨_, hx, h.get hx hy⟩

theorem Grows.branch (h : Grows xs ys) {b : B} {long : Bool} (hx : xs[i]? = some (.branch b long)) :
    ∃ long', ys[i]? = some (.branch b long') ∧ (long = true → long' = true) := by
  induction h generalizing i with
  | nil => cases hx
  | cons hxy _ ih =>
    cases i with
    | zero =>
      obtain rfl := some.inj hx
      cases hxy with
      | @branch _ _ long' hlong => exact ⟨long', rfl, hlong⟩
    | succ i => exact ih hx

theorem Grows.of_long (hx : Grows stream xs) (hy : Grows stream ys)
    (hlong : ∀ (i : ℕ) (b : B), xs[i]? = some (.branch b true) → ys[i]? = some (.branch b true)) :
    Grows xs ys := by
  induction hx generalizing ys with
  | nil => exact hy
  | cons hfirst _ ih =>
    cases hy with
    | cons hfirst' hrest' =>
      refine .cons ?_ (ih hrest' fun i b hi => hlong (i + 1) b hi)
      cases hfirst with
      | data bytes | label l => exact hfirst'
      | branch b _ =>
        cases hfirst' with
        | branch _ _ =>
          refine .branch b fun htrue => ?_
          have hzero := hlong 0 b (congrArg (fun l => some (Item.branch b l)) htrue)
          exact (Item.branch.inj (some.inj hzero)).2

variable {F} {items items' : List (Item L B)}

theorem Item.Le.width (h : x.Le y) : F.width x ≤ F.width y := by
  cases h with
  | data bytes | label l => exact le_refl _
  | @branch b long long' hlong =>
    cases long with
    | true =>
      rw [hlong rfl]
    | false =>
      cases long' with
      | true => exact F.size_le b
      | false => exact le_refl _

theorem Grows.total (h : Grows items items') : F.total items ≤ F.total items' := by
  induction h with
  | nil => exact le_refl _
  | cons hx _ ih => exact Nat.add_le_add hx.width ih

theorem Grows.between (h : Grows items items') {k : ℕ} :
    F.total ((items.take k).drop i) ≤ F.total ((items'.take k).drop i) :=
  Grows.total (forall₂_drop i (forall₂_take k h))

theorem Item.Le.isLabel [DecidableEq L] (h : x.Le y) (l : L) : x.isLabel l = y.isLabel l := by
  cases h <;> rfl

theorem Grows.lastIndex [DecidableEq L] (h : Grows items items') (l : L) :
    lastIndex items l = lastIndex items' l := by
  induction h with
  | nil => rfl
  | cons hx _ ih => simp only [BranchLayout.lastIndex, ih, hx.isLabel l]

/-- A branch that is too far from a label is too far when other branches grow. -/
theorem Grows.far (h : Grows items items') {b : B} {k : ℕ}
    (hfar : F.far b ((F.offset items k : ℤ) - F.offset items i) = true) :
    F.far b ((F.offset items' k : ℤ) - F.offset items' i) = true := by
  rcases le_total i k with hik | hki
  · have hbetween := h.between (F := F) (i := i) (k := k)
    rw [offset_add F items hik] at hfar
    rw [offset_add F items' hik]
    push_cast at hfar ⊢
    exact F.far_forward (by omega) (by omega) hfar
  · have hbetween := h.between (F := F) (i := k) (k := i)
    rw [offset_add F items hki] at hfar
    rw [offset_add F items' hki]
    push_cast at hfar ⊢
    exact F.far_backward (by omega) (by omega) hfar

/-! ## Valid assignments -/

section

variable [DecidableEq L]

/-- The short branches reach their targets. -/
def Valid (F : Form L B) (items : List (Item L B)) : Prop :=
  ∀ (i : ℕ) (b : B) (t : ℕ), items[i]? = some (.branch b false) →
    F.labelOffset items (F.target b) = some t → F.far b ((t : ℤ) - F.offset items i) = false

/-- A short branch that stays short reaches its target when it does in a grown stream. -/
theorem Grows.reaches (h : Grows items items') {b : B} (hreach : ∀ t, F.labelOffset items' (F.target
      b) = some t → F.far b ((t : ℤ) - F.offset items' i) = false) {t : ℕ}
    (ht : F.labelOffset items (F.target b) = some t) :
    F.far b ((t : ℤ) - F.offset items i) = false := by
  unfold Form.labelOffset at ht hreach
  rw [h.lastIndex] at ht
  obtain ⟨k, hk, rfl⟩ := map_eq_some_iff.mp ht
  rw [hk] at hreach
  rw [Bool.eq_false_iff]
  intro hfar
  exact Bool.eq_false_iff.mp (hreach _ rfl) (h.far hfar)

/-- The assignments by which a branch has to be long: the valid ones. -/
def Needed (F : Form L B) (stream : List (Item L B)) (i : ℕ) : Prop :=
  ∀ items, Grows stream items → Valid F items → ∃ b, items[i]? = some (.branch b true)

/-- No valid assignment has fewer long branches. -/
def Minimal (F : Form L B) (stream items : List (Item L B)) : Prop :=
  ∀ fewer, Grows stream fewer → Grows fewer items → Valid F fewer → fewer = items

end

/-! ## Meets -/

def Item.meet : Item L B → Item L B → Item L B
  | .branch b long, .branch _ long' => .branch b (long && long')
  | x, _ => x

def meet (items items' : List (Item L B)) : List (Item L B) := zipWith Item.meet items items'

theorem Item.Le.meet {z : Item L B} (hy : x.Le y) (hz : x.Le z) :
    x.Le (y.meet z) ∧ (y.meet z).Le y ∧ (y.meet z).Le z := by
  cases hy with
  | data bytes =>
    cases hz
    exact ⟨.data bytes, .data bytes, .data bytes⟩
  | label l =>
    cases hz
    exact ⟨.label l, .label l, .label l⟩
  | branch b hlong =>
    cases hz with
    | branch _ hlong' =>
      refine ⟨.branch b fun h => ?_, .branch b fun h => ?_, .branch b fun h => ?_⟩
      · rw [hlong h, hlong' h, Bool.and_self]
      · exact (Bool.and_eq_true_iff.mp h).1
      · exact (Bool.and_eq_true_iff.mp h).2

theorem grows_meet (hy : Grows stream ys) (hz : Grows stream zs) :
    Grows stream (meet ys zs) ∧ Grows (meet ys zs) ys ∧ Grows (meet ys zs) zs := by
  induction hy generalizing zs with
  | nil =>
    cases hz
    exact ⟨.nil, .nil, .nil⟩
  | cons hx _ ih =>
    cases hz with
    | cons hx' hrest =>
      obtain ⟨hfirst, hleft, hright⟩ := hx.meet hx'
      obtain ⟨hfirsts, hlefts, hrights⟩ := ih hrest
      exact ⟨.cons hfirst hfirsts, .cons hleft hlefts, .cons hright hrights⟩

theorem meet_get (h : (meet ys zs)[i]? = some x) :
    ∃ y z, ys[i]? = some y ∧ zs[i]? = some z ∧ x = y.meet z := by
  unfold meet at h
  rw [getElem?_zipWith_eq_some] at h
  obtain ⟨y, z, hy, hz, hx⟩ := h
  exact ⟨y, z, hy, hz, hx.symm⟩

theorem Item.meet_eq_short {z : Item L B} {b : B} (h : y.meet z = .branch b false)
    (hle : (y.meet z).Le z) : y = .branch b false ∨ z = .branch b false := by
  cases y with
  | data bytes | label l => cases h
  | branch b' long =>
    cases z with
    | data bytes | label l => cases hle
    | branch b'' long' =>
      cases hle
      unfold Item.meet at h
      obtain ⟨rfl, hand⟩ := Item.branch.inj h
      cases long with
      | false => exact .inl rfl
      | true => exact .inr (congrArg _ hand)

theorem Grows.antisymm (h : Grows items items') (h' : Grows items' items) : items = items' := by
  induction h with
  | nil => rfl
  | cons hx _ ih =>
    cases h' with
    | cons hy hrest =>
      rw [ih hrest]
      cases hx with
      | data bytes | label l => rfl
      | @branch b long long' hlong =>
        cases hy with
        | branch _ hlong' => rw [Bool.eq_iff_iff.mpr ⟨hlong, hlong'⟩]

section

variable [DecidableEq L]

theorem valid_meet (hy : Grows stream ys) (hz : Grows stream zs) (hvy : Valid F ys)
    (hvz : Valid F zs) : Valid F (meet ys zs) := by
  obtain ⟨-, hleft, hright⟩ := grows_meet hy hz
  intro i b t hi ht
  obtain ⟨y, z, hyi, hzi, heq⟩ := meet_get hi
  rcases Item.meet_eq_short heq.symm (hright.get (heq ▸ hi) hzi) with rfl | rfl
  · exact hleft.reaches (fun t' ht' => hvy i b t' hyi ht') ht
  · exact hright.reaches (fun t' ht' => hvz i b t' hzi ht') ht

/-- An assignment is minimal when each of its long branches is long in all valid ones. -/
theorem minimal_iff (h : Grows stream items) (hvalid : Valid F items) : Minimal F stream items ↔
      ∀ (i : ℕ) (b : B), items[i]? = some (.branch b true) → Needed F stream i := by
  constructor
  · intro hminimal i b hi others hothers hvothers
    obtain ⟨hmeet, hleft, hright⟩ := grows_meet h hothers
    have heq := hminimal _ hmeet hleft (valid_meet h hothers hvalid hvothers)
    rw [heq] at hright
    obtain ⟨long, hget, hlong⟩ := hright.branch hi
    rw [hlong rfl] at hget
    exact ⟨b, hget⟩
  · intro hneeded fewer hfewer hle hvfewer
    refine hle.antisymm (h.of_long hfewer fun i b hi => ?_)
    obtain ⟨b', hb'⟩ := hneeded i b hi fewer hfewer hvfewer
    obtain ⟨long, hget, -⟩ := hle.branch hb'
    obtain ⟨rfl, -⟩ := Item.branch.inj (some.inj (hi.symm.trans hget))
    exact hb'

end

/-! ## Emission -/

def Form.emit (F : Form L B) (code : ℕ → Item L B → List UInt8) : ℕ → List (Item L B) → List UInt8
  | _, [] => []
  | offset, x :: xs => code offset x ++ F.emit code (offset + F.width x) xs

section

variable {code : ℕ → Item L B → List UInt8}
  (hwidth : ∀ (offset : ℕ) (x : Item L B), (code offset x).length = F.width x)

include hwidth

theorem drop_emit (offset : ℕ) (items : List (Item L B)) (i : ℕ) :
    (F.emit code offset items).drop (F.offset items i) =
      F.emit code (offset + F.offset items i) (items.drop i) := by
  induction items generalizing offset i with
  | nil => rw [drop_nil, Form.emit, drop_nil, Form.emit]
  | cons x xs ih =>
    cases i with
    | zero => rfl
    | succ i =>
      have hrest := ih (offset + F.width x) i
      rw [add_assoc] at hrest
      rw [offset_cons_succ, Form.emit, ← drop_drop, ← hwidth offset x,
        drop_left, hwidth offset x, hrest]
      rfl

theorem slice_emit (h : items[i]? = some x) :
    slice (F.emit code 0 items) (F.offset items i) (F.width x) = code (F.offset items i) x := by
  obtain ⟨hlt, hget⟩ := List.getElem?_eq_some_iff.mp h
  unfold slice
  rw [drop_emit hwidth, drop_eq_getElem_cons hlt, hget, Form.emit, zero_add,
    ← hwidth (F.offset items i) x, take_left]

end

end EzPacker.BranchLayout
