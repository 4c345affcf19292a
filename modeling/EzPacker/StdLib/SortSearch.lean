import EzPacker.Lib.ByteMemory
import EzPacker.Lib.Loop

/-!
# Sorting and searching

`qsort` exchanges every element with each one behind it that compares less, and `bsearch` halves
an interval of the array. Elements are objects of any number of bytes in an array that does not
meet itself, and the comparison looks at their bytes and at memory outside the array.
-/

namespace EzPacker.StdLib

open Nat List BitVec Lib ByteMemory

/-! ## The functions -/

/-- A comparison function reads memory at two pointers. -/
abbrev Comparison := ByteMemory → BitVec 64 → BitVec 64 → ℤ

def swapBytes (fuel : ℕ) (a b size : BitVec 64) (mem : ByteMemory) : Option ByteMemory :=
  forLoop (fun i mem =>
    let t := mem (a + i)
    let mem := Function.update mem (a + i) (mem (b + i))
    some (Function.update mem (b + i) t)) 0 size fuel mem

def qsort (fuel : ℕ) (base nmemb size : BitVec 64) (compar : Comparison) (mem : ByteMemory) :
    Option ByteMemory :=
  if nmemb < 2 ∨ size = 0 then some mem
  else
    forLoop (fun i mem =>
      forLoop (fun j mem =>
        if 0 < compar mem (base + i * size) (base + j * size) then
          swapBytes fuel (base + i * size) (base + j * size) size mem
        else some mem) (i + 1) nmemb fuel mem) 0 (nmemb - 1) fuel mem

/-- The interval that is left, and the elements that the key was compared with. -/
structure Search where
  low : BitVec 64
  high : BitVec 64
  compared : List (BitVec 64)

/-- The element that was found, and the elements that the key was compared with. -/
structure Found where
  element : Option (BitVec 64)
  compared : List (BitVec 64)
  deriving DecidableEq, Repr

def bsearch (fuel : ℕ) (key base nmemb size : BitVec 64) (compar : Comparison)
    (mem : ByteMemory) : Option Found :=
  loop (fun s : Search =>
    if s.low < s.high then
      let mid := s.low + (s.high - s.low) / 2
      let cmp := compar mem key (base + mid * size)
      let compared := s.compared ++ [base + mid * size]
      if cmp < 0 then some (.inl ⟨s.low, mid, compared⟩)
      else if 0 < cmp then some (.inl ⟨mid + 1, s.high, compared⟩)
      else some (.inr ⟨some (base + mid * size), compared⟩)
    else some (.inr ⟨none, s.compared⟩)) fuel ⟨0, nmemb, []⟩

/-! ## What they do -/

/-- A comparison that orders all values, some of them alike. -/
structure TotalPreorder {α : Type*} (cmp : α → α → ℤ) : Prop where
  sign : ∀ a b, 0 < cmp a b ↔ cmp b a < 0
  trans : ∀ a b c, cmp a b ≤ 0 → cmp b c ≤ 0 → cmp a c ≤ 0

/-- Where an element stands. -/
def place (base size : BitVec 64) (i : ℕ) : BitVec 64 := base + BitVec.ofNat 64 (i * size.toNat)

def element (mem : ByteMemory) (base size : BitVec 64) (i : ℕ) : List UInt8 :=
  mem.bytes (place base size i) size.toNat

def elements (mem : ByteMemory) (base nmemb size : BitVec 64) : List (List UInt8) :=
  (range nmemb.toNat).map (element mem base size)

/-- Nothing outside the array has changed. -/
def SameOutside (base nmemb size : BitVec 64) (mem mem' : ByteMemory) : Prop :=
  ∀ a, nmemb.toNat * size.toNat ≤ behind a base → mem' a = mem a

/-- The function compares the elements of the array by their bytes, as long as memory outside the
array stays. -/
def ComparesElements (compar : Comparison) (cmp : List UInt8 → List UInt8 → ℤ)
    (base nmemb size : BitVec 64) (mem : ByteMemory) : Prop :=
  ∀ mem', SameOutside base nmemb size mem mem' → ∀ i < nmemb.toNat, ∀ j < nmemb.toNat,
    compar mem' (place base size i) (place base size j) =
      cmp (element mem' base size i) (element mem' base size j)

/-- The function compares the key with the elements of the array. -/
def ComparesKey (compar : Comparison) (cmp : List UInt8 → List UInt8 → ℤ) (key : BitVec 64)
    (keyBytes : List UInt8) (base nmemb size : BitVec 64) (mem : ByteMemory) : Prop :=
  ∀ i < nmemb.toNat, compar mem key (place base size i) = cmp keyBytes (element mem base size i)

def SortedBy (cmp : List UInt8 → List UInt8 → ℤ) (elems : List (List UInt8)) : Prop :=
  elems.Pairwise fun a b => cmp a b ≤ 0

structure Sorts (cmp : List UInt8 → List UInt8 → ℤ) (base nmemb size : BitVec 64)
    (mem mem' : ByteMemory) : Prop where
  perm : (elements mem' base nmemb size).Perm (elements mem base nmemb size)
  sorted : SortedBy cmp (elements mem' base nmemb size)
  outside : SameOutside base nmemb size mem mem'

structure Finds (cmp : List UInt8 → List UInt8 → ℤ) (keyBytes : List UInt8)
    (base nmemb size : BitVec 64) (mem : ByteMemory) (found : Found) : Prop where
  equal : ∀ a, found.element = some a →
    ∃ i < nmemb.toNat, a = place base size i ∧ cmp keyBytes (element mem base size i) = 0
  missing : found.element = none → ∀ i < nmemb.toNat, cmp keyBytes (element mem base size i) ≠ 0
  inside : ∀ a ∈ found.compared, ∃ i < nmemb.toNat, a = place base size i

/-! ## The exchange of two elements -/

section

variable {base nmemb size : BitVec 64} {mem mem' : ByteMemory} {fuel : ℕ}

theorem add_add_ofNat (base : BitVec 64) (i j : ℕ) :
    base + BitVec.ofNat 64 i + BitVec.ofNat 64 j = base + BitVec.ofNat 64 (i + j) := by
  rw [add_assoc, ← ofNat_add]

variable {i j : ℕ} {keyBytes : List UInt8}

theorem add_ofNat_inj (hi : i < 2 ^ 64) (hj : j < 2 ^ 64) :
    base + BitVec.ofNat 64 i = base + BitVec.ofNat 64 j ↔ i = j := by
  refine ⟨fun h => ?_, fun h => by rw [h]⟩
  rw [← behind_add hi, h, behind_add hj]

/-- The byte at a distance from the base when `t` bytes of two objects are exchanged. -/
def exchanged (mem : ByteMemory) (base : BitVec 64) (I J t p : ℕ) : UInt8 :=
  if I ≤ p ∧ p < I + t then mem (base + BitVec.ofNat 64 (p - I + J))
  else if J ≤ p ∧ p < J + t then mem (base + BitVec.ofNat 64 (p - J + I))
  else mem (base + BitVec.ofNat 64 p)

theorem swapBytes_total {I J : ℕ} (hIJ : I + size.toNat ≤ J) (hJ : J + size.toNat ≤ 2 ^ 64)
    (hfuel : size.toNat < fuel) :
    ∃ mem', swapBytes fuel (base + BitVec.ofNat 64 I) (base + BitVec.ofNat 64 J) size mem =
      some mem' ∧ ∀ p < 2 ^ 64,
        mem' (base + BitVec.ofNat 64 p) = exchanged mem base I J size.toNat p := by
  unfold swapBytes
  refine @forLoop_total _ _ 0 size fuel mem (fun t mem' => ∀ p < 2 ^ 64,
    mem' (base + BitVec.ofNat 64 p) = exchanged mem base I J t p) ?_ ?_ (zero_le _)
    (by simpa using hfuel)
  · intro t mem' _ ht hmem'
    refine ⟨_, rfl, fun p hp => ?_⟩
    have hI : mem' (base + BitVec.ofNat 64 (I + t)) = mem (base + BitVec.ofNat 64 (I + t)) := by
      rw [hmem' _ (by omega)]
      unfold exchanged
      rw [if_neg (by omega), if_neg (by omega)]
    have hJ' : mem' (base + BitVec.ofNat 64 (J + t)) = mem (base + BitVec.ofNat 64 (J + t)) := by
      rw [hmem' _ (by omega)]
      unfold exchanged
      rw [if_neg (by omega), if_neg (by omega)]
    have hatI : base + BitVec.ofNat 64 p = base + BitVec.ofNat 64 (I + t) ↔ p = I + t :=
      add_ofNat_inj hp (by omega)
    have hatJ : base + BitVec.ofNat 64 p = base + BitVec.ofNat 64 (J + t) ↔ p = J + t :=
      add_ofNat_inj hp (by omega)
    rw [add_add_ofNat, add_add_ofNat, hI, hJ', Function.update_apply, Function.update_apply,
      hmem' p hp]
    unfold exchanged
    by_cases hpJ : p = J + t
    · rw [if_pos (hatJ.mpr hpJ), if_neg (by omega), if_pos (by omega), hpJ]
      congr 3
      omega
    · rw [if_neg fun h => hpJ (hatJ.mp h)]
      by_cases hpI : p = I + t
      · rw [if_pos (hatI.mpr hpI), if_pos (by omega), hpI]
        congr 3
        omega
      · rw [if_neg fun h => hpI (hatI.mp h)]
        have hinI : (I ≤ p ∧ p < I + t) ↔ (I ≤ p ∧ p < I + (t + 1)) := by omega
        have hinJ : (J ≤ p ∧ p < J + t) ↔ (J ≤ p ∧ p < J + (t + 1)) := by omega
        simp only [hinI, hinJ]
  · intro p hp
    have hzero : (0 : BitVec 64).toNat = 0 := rfl
    unfold exchanged
    rw [hzero, if_neg (by omega), if_neg (by omega)]

theorem place_eq (base size : BitVec 64) (i : ℕ) :
    base + BitVec.ofNat 64 i * size = place base size i := by
  unfold place
  rw [ofNat_mul, ofNat_toNat, setWidth_eq]

theorem place_add (base size : BitVec 64) (i s : ℕ) :
    place base size i + BitVec.ofNat 64 s = base + BitVec.ofNat 64 (i * size.toNat + s) :=
  add_add_ofNat base _ s

/-- Elements at different indices are apart. -/
theorem place_le (h : i < j) (size : BitVec 64) : i * size.toNat + size.toNat ≤ j * size.toNat := by
  have hmul := Nat.mul_le_mul_right size.toNat (Nat.succ_le_of_lt h)
  rwa [Nat.succ_mul] at hmul

theorem swapElements_total (hfits : nmemb.toNat * size.toNat ≤ 2 ^ 64)
    (hfuel : size.toNat < fuel) {i j : ℕ} (hij : i < j) (hj : j < nmemb.toNat) :
    ∃ mem', swapBytes fuel (place base size i) (place base size j) size mem = some mem' ∧
      (∀ k < nmemb.toNat, element mem' base size k = element mem base size (Equiv.swap i j k)) ∧
      SameOutside base nmemb size mem mem' := by
  have hIJ := place_le hij size
  have hJ := place_le hj size
  obtain ⟨mem', hswap, hmem'⟩ := @swapBytes_total base size mem fuel _ _ hIJ (hJ.trans hfits) hfuel
  refine ⟨mem', hswap, fun k hk => ?_, fun a ha => ?_⟩
  · have hK := place_le hk size
    unfold element
    refine bytes_congr fun s hs => ?_
    rw [place_add, place_add, hmem' _ (by omega)]
    unfold exchanged
    rcases eq_or_ne k i with rfl | hki
    · rw [Equiv.swap_apply_left, if_pos (by omega)]
      congr 3
      omega
    · rcases eq_or_ne k j with rfl | hkj
      · rw [Equiv.swap_apply_right, if_neg (by omega), if_pos (by omega)]
        congr 3
        omega
      · rw [Equiv.swap_apply_of_ne_of_ne hki hkj]
        have hapart {l : ℕ} (hl : k ≠ l) : ¬(l * size.toNat ≤ k * size.toNat + s ∧
              k * size.toNat + s < l * size.toNat + size.toNat) := by
          rcases lt_or_gt_of_ne hl with hlt | hgt
          · have := place_le hlt size
            omega
          · have := place_le hgt size
            omega
        rw [if_neg (hapart hki), if_neg (hapart hkj)]
  · have hlt : behind a base < 2 ^ 64 := isLt _
    rw [eq_add_behind a base, hmem' _ hlt]
    unfold exchanged
    rw [if_neg (by omega), if_neg (by omega)]

/-! ## The order of the elements -/

theorem TotalPreorder.total {α : Type*} {cmp : α → α → ℤ} (h : TotalPreorder cmp) {a b : α}
    (hab : 0 < cmp a b) : cmp b a ≤ 0 := ((h.sign a b).mp hab).le

/-- The elements of the array in another order, and nothing else. -/
structure Permuted (base nmemb size : BitVec 64) (mem mem' : ByteMemory) : Prop where
  order : ∃ σ : Equiv.Perm ℕ, (∀ k, nmemb.toNat ≤ k → σ k = k) ∧
    ∀ k < nmemb.toNat, element mem' base size k = element mem base size (σ k)
  outside : SameOutside base nmemb size mem mem'

theorem Permuted.refl (base nmemb size : BitVec 64) (mem : ByteMemory) :
    Permuted base nmemb size mem mem :=
  ⟨⟨Equiv.refl ℕ, fun _ _ => rfl, fun _ _ => rfl⟩, fun _ _ => rfl⟩

theorem lt_of_perm {n : ℕ} {σ : Equiv.Perm ℕ} (h : ∀ k, n ≤ k → σ k = k) {k : ℕ} (hk : k < n) :
    σ k < n := by
  by_contra hge
  have heq := σ.injective (h (σ k) (not_lt.mp hge))
  omega

theorem Permuted.trans {mem'' : ByteMemory} (h : Permuted base nmemb size mem mem')
    (h' : Permuted base nmemb size mem' mem'') : Permuted base nmemb size mem mem'' := by
  obtain ⟨⟨σ, hσ, horder⟩, houtside⟩ := h
  obtain ⟨⟨τ, hτ, horder'⟩, houtside'⟩ := h'
  refine ⟨⟨τ.trans σ, fun k hk => ?_, fun k hk => ?_⟩,
    fun a ha => (houtside' a ha).trans (houtside a ha)⟩
  · rw [Equiv.trans_apply, hτ k hk, hσ k hk]
  · rw [horder' k hk, horder _ (lt_of_perm hτ hk), Equiv.trans_apply]

theorem Permuted.perm (h : Permuted base nmemb size mem mem') :
    (elements mem' base nmemb size).Perm (elements mem base nmemb size) := by
  obtain ⟨⟨σ, hσ, horder⟩, -⟩ := h
  have hmap : elements mem' base nmemb size =
      ((range nmemb.toNat).map σ).map (element mem base size) := by
    unfold elements
    rw [map_map]
    exact map_congr_left fun k hk => horder k (mem_range.mp hk)
  have hrange : ((range nmemb.toNat).map σ).Perm (range nmemb.toNat) := by
    refine (perm_ext_iff_of_nodup (nodup_range.map σ.injective) nodup_range).mpr ?_
    intro k
    rw [mem_map, mem_range]
    constructor
    · rintro ⟨l, hl, rfl⟩
      exact lt_of_perm hσ (mem_range.mp hl)
    · intro hk
      have hsymm : ∀ l, nmemb.toNat ≤ l → σ.symm l = l := fun l hl => by
        rw [Equiv.symm_apply_eq, hσ l hl]
      exact ⟨σ.symm k, mem_range.mpr (lt_of_perm hsymm hk), σ.apply_symm_apply k⟩
  rw [hmap]
  exact hrange.map _

/-- The first elements compare less than or equal to all behind them. -/
def SortedTo (cmp : List UInt8 → List UInt8 → ℤ) (base nmemb size : BitVec 64) (i : ℕ)
    (mem : ByteMemory) : Prop :=
  ∀ a < i, ∀ b, a < b → b < nmemb.toNat →
    cmp (element mem base size a) (element mem base size b) ≤ 0

/-- One element compares less than or equal to those behind it, up to an index. -/
def LeastTo (cmp : List UInt8 → List UInt8 → ℤ) (base size : BitVec 64) (i j : ℕ)
    (mem : ByteMemory) : Prop :=
  ∀ b, i < b → b < j → cmp (element mem base size i) (element mem base size b) ≤ 0

variable {cmp : List UInt8 → List UInt8 → ℤ} {compar : Comparison}

/-- One exchange of the inner loop. -/
theorem exchange_total (hfits : nmemb.toNat * size.toNat ≤ 2 ^ 64) (hfuel : size.toNat < fuel)
    (hcmp : TotalPreorder cmp) (hcompar : ComparesElements compar cmp base nmemb size mem)
    {i j : ℕ} (hij : i < j) (hj : j < nmemb.toNat) (hperm : Permuted base nmemb size mem mem')
    (hsorted : SortedTo cmp base nmemb size i mem') (hleast : LeastTo cmp base size i j mem') :
    ∃ mem'', (if 0 < compar mem' (place base size i) (place base size j) then
        swapBytes fuel (place base size i) (place base size j) size mem' else some mem') =
        some mem'' ∧ Permuted base nmemb size mem mem'' ∧
      SortedTo cmp base nmemb size i mem'' ∧ LeastTo cmp base size i (j + 1) mem'' := by
  rw [hcompar mem' hperm.outside i (hij.trans hj) j hj]
  split_ifs with hgt
  · obtain ⟨mem'', hswap, helement, houtside⟩ :=
      @swapElements_total base nmemb size mem' fuel hfits hfuel i j hij hj
    have hi : element mem'' base size i = element mem' base size j := by
      rw [helement i (hij.trans hj), Equiv.swap_apply_left]
    have hj' : element mem'' base size j = element mem' base size i := by
      rw [helement j hj, Equiv.swap_apply_right]
    have hother {k : ℕ} (hk : k < nmemb.toNat) (hki : k ≠ i) (hkj : k ≠ j) :
        element mem'' base size k = element mem' base size k := by
      rw [helement k hk, Equiv.swap_apply_of_ne_of_ne hki hkj]
    have hstep : Permuted base nmemb size mem' mem'' := by
      refine ⟨⟨Equiv.swap i j, fun k hk => ?_, helement⟩, houtside⟩
      exact Equiv.swap_apply_of_ne_of_ne (by omega) (by omega)
    refine ⟨mem'', hswap, hperm.trans hstep, fun a ha b hab hb => ?_, fun b hib hbj => ?_⟩
    · rw [hother (by omega) (by omega) (by omega)]
      by_cases hbi : b = i
      · rw [hbi, hi]
        exact hsorted a ha j (by omega) hj
      · by_cases hbj : b = j
        · rw [hbj, hj']
          exact hsorted a ha i (by omega) (by omega)
        · rw [hother hb hbi hbj]
          exact hsorted a ha b hab hb
    · have hle := hcmp.total hgt
      rw [hi]
      by_cases hbj' : b = j
      · rw [hbj', hj']
        exact hle
      · rw [hother (by omega) (by omega) hbj']
        exact hcmp.trans _ _ _ hle (hleast b hib (by omega))
  · refine ⟨mem', rfl, hperm, hsorted, fun b hib hbj => ?_⟩
    rcases Nat.lt_succ_iff_lt_or_eq.mp hbj with hlt | rfl
    · exact hleast b hib hlt
    · exact not_lt.mp hgt

theorem sortedBy_of_sortedTo (h : SortedTo cmp base nmemb size (nmemb.toNat - 1) mem) :
    SortedBy cmp (elements mem base nmemb size) := by
  unfold SortedBy elements
  refine pairwise_map.mpr (pairwise_lt_range.imp_of_mem fun ha hb hab => ?_)
  have hb := mem_range.mp hb
  exact h _ (by omega) _ hab hb

theorem qsort_total (hfits : nmemb.toNat * size.toNat ≤ 2 ^ 64) (hcmp : TotalPreorder cmp)
    (hcompar : ComparesElements compar cmp base nmemb size mem) (hsize : size.toNat < fuel)
    (hnmemb : nmemb.toNat < fuel) :
    ∃ mem', qsort fuel base nmemb size compar mem = some mem' ∧
      Sorts cmp base nmemb size mem mem' := by
  unfold qsort
  split_ifs with hsmall
  · have hrefl := Permuted.refl base nmemb size mem
    refine ⟨mem, rfl, hrefl.perm, sortedBy_of_sortedTo fun a ha b hab hb => ?_, hrefl.outside⟩
    rcases hsmall with hsmall | rfl
    · have hlt : nmemb.toNat < 2 := hsmall
      omega
    · -- elements of no bytes are all the same
      refine not_lt.mp fun hpos => ?_
      exact absurd ((hcmp.sign _ _).mp hpos) (not_lt.mpr hpos.le)
  · obtain ⟨hlarge, hne⟩ := not_or.mp hsmall
    have hlarge : 2 ≤ nmemb.toNat := not_lt.mp hlarge
    have hlast : (nmemb - 1).toNat = nmemb.toNat - 1 := by bv_omega
    obtain ⟨mem', hrun, hperm, hsorted⟩ := @forLoop_total _ (fun i mem =>
      forLoop (fun j mem =>
        if 0 < compar mem (base + i * size) (base + j * size) then
          swapBytes fuel (base + i * size) (base + j * size) size mem
        else some mem) (i + 1) nmemb fuel mem) 0 (nmemb - 1) fuel mem
      (fun i mem' => Permuted base nmemb size mem mem' ∧ SortedTo cmp base nmemb size i mem')
      (fun i mem' _ hi hinv => by
        have hnext : (BitVec.ofNat 64 i + 1).toNat = i + 1 := by bv_omega
        obtain ⟨mem'', hrun, hperm, hsorted, hleast⟩ := @forLoop_total _ (fun j mem =>
            if 0 < compar mem (base + BitVec.ofNat 64 i * size) (base + j * size) then
              swapBytes fuel (base + BitVec.ofNat 64 i * size) (base + j * size) size mem
            else some mem) (BitVec.ofNat 64 i + 1) nmemb fuel mem'
          (fun j mem'' => Permuted base nmemb size mem mem'' ∧
            SortedTo cmp base nmemb size i mem'' ∧ LeastTo cmp base size i j mem'')
          (fun j mem'' hij hj hinv => by
            rw [hnext] at hij
            obtain ⟨hperm, hsorted, hleast⟩ := hinv
            rw [place_eq, place_eq]
            exact exchange_total hfits hsize hcmp hcompar hij hj hperm hsorted hleast)
          ⟨hinv.1, hinv.2, fun b hib hbi => by omega⟩ (by omega) (by omega)
        refine ⟨mem'', hrun, hperm, fun a ha b hab hb => ?_⟩
        rcases Nat.lt_succ_iff_lt_or_eq.mp ha with hlt | rfl
        · exact hsorted a hlt b hab hb
        · exact hleast b hab hb)
      ⟨Permuted.refl .., fun a ha => absurd ha (not_lt_zero _)⟩ (zero_le _)
      (by omega)
    rw [hlast] at hsorted
    exact ⟨mem', hrun, hperm.perm, sortedBy_of_sortedTo hsorted, hperm.outside⟩

/-! ## The search -/

section

variable (h : SortedBy cmp (elements mem base nmemb size))
include h

theorem SortedBy.le (hij : i < j) (hj : j < nmemb.toNat) :
    cmp (element mem base size i) (element mem base size j) ≤ 0 := by
  have hlength : (elements mem base nmemb size).length = nmemb.toNat := by
    unfold elements
    rw [length_map, length_range]
  have hpair := pairwise_iff_getElem.mp h i j (by omega) (by omega) hij
  unfold elements at hpair
  rwa [getElem_map, getElem_map, getElem_range, getElem_range] at hpair

theorem SortedBy.less (hcmp : TotalPreorder cmp)
    (hless : cmp keyBytes (element mem base size i) < 0) (hij : i ≤ j) (hj : j < nmemb.toNat) :
    cmp keyBytes (element mem base size j) < 0 := by
  rcases hij.lt_or_eq with hlt | rfl
  · by_contra hge
    have hle : cmp (element mem base size j) keyBytes ≤ 0 :=
      not_lt.mp fun h => hge ((hcmp.sign _ _).mp h)
    have htrans := hcmp.trans _ _ _ (h.le hlt hj) hle
    exact absurd ((hcmp.sign _ _).mpr hless) (not_lt.mpr htrans)
  · exact hless

theorem SortedBy.greater (hcmp : TotalPreorder cmp)
    (hgreater : 0 < cmp keyBytes (element mem base size j)) (hij : i ≤ j) (hj : j < nmemb.toNat) :
    0 < cmp keyBytes (element mem base size i) := by
  rcases hij.lt_or_eq with hlt | rfl
  · by_contra hle
    have htrans := hcmp.trans _ _ _ (not_lt.mp hle) (h.le hlt hj)
    exact absurd hgreater (not_lt.mpr htrans)
  · exact hgreater

end

/-- The elements outside the interval that is left compare unequal. -/
structure Searching (cmp : List UInt8 → List UInt8 → ℤ) (keyBytes : List UInt8)
    (base nmemb size : BitVec 64) (mem : ByteMemory) (s : Search) : Prop where
  le : s.low ≤ s.high
  bound : s.high ≤ nmemb
  below : ∀ i < s.low.toNat, 0 < cmp keyBytes (element mem base size i)
  above : ∀ i, s.high.toNat ≤ i → i < nmemb.toNat → cmp keyBytes (element mem base size i) < 0
  inside : ∀ a ∈ s.compared, ∃ i < nmemb.toNat, a = place base size i

theorem bsearch_total (hcmp : TotalPreorder cmp) {key : BitVec 64}
    (hkey : ComparesKey compar cmp key keyBytes base nmemb size mem)
    (hsorted : SortedBy cmp (elements mem base nmemb size)) (hfuel : nmemb.toNat < fuel) :
    ∃ found, bsearch fuel key base nmemb size compar mem = some found ∧
      Finds cmp keyBytes base nmemb size mem found := by
  refine @loop_total _ _ _ (Searching cmp keyBytes base nmemb size mem)
    (fun s => s.high.toNat - s.low.toNat) (Finds cmp keyBytes base nmemb size mem) ?_ _ _ ?_ ?_
  · rintro ⟨low, high, compared⟩ ⟨hle, hbound, hbelow, habove, hinside⟩
    dsimp only at hle hbound hbelow habove hinside ⊢
    have hbound : high.toNat ≤ nmemb.toNat := hbound
    by_cases hlt : low < high
    · rw [if_pos hlt]
      have hlt : low.toNat < high.toNat := hlt
      obtain ⟨mid, hmid⟩ : ∃ mid, mid = low + (high - low) / 2 := ⟨_, rfl⟩
      have hmidNat : mid.toNat = low.toNat + (high.toNat - low.toNat) / 2 := by
        have htwo : (2 : BitVec 64).toNat = 2 := rfl
        have hsub : (high - low).toNat = high.toNat - low.toNat := by bv_omega
        have hdiv : ((high - low) / 2).toNat = (high.toNat - low.toNat) / 2 := by
          rw [toNat_udiv, hsub, htwo]
        rw [hmid, toNat_add, hdiv, mod_eq_of_lt (by omega)]
      rw [← hmid]
      have hplace : base + mid * size = place base size mid.toNat := by
        rw [← place_eq, ofNat_toNat, setWidth_eq]
      have hin : mid.toNat < nmemb.toNat := by omega
      have hcompared : ∀ a ∈ compared ++ [base + mid * size],
          ∃ i < nmemb.toNat, a = place base size i := by
        intro a ha
        rcases mem_append.mp ha with ha | ha
        · exact hinside a ha
        · exact ⟨mid.toNat, hin, (mem_singleton.mp ha).trans hplace⟩
      have hcall : compar mem key (base + mid * size) =
          cmp keyBytes (element mem base size mid.toNat) := by
        rw [hplace]
        exact hkey _ hin
      rw [hcall]
      split_ifs with hless hgreater
      · refine .next ⟨?_, ?_, hbelow, fun i hi hn => ?_, hcompared⟩ ?_
        · exact (by omega : low.toNat ≤ mid.toNat)
        · exact (by omega : mid.toNat ≤ nmemb.toNat)
        · exact hsorted.less hcmp hless hi hn
        · dsimp only
          omega
      · have hnext : (mid + 1).toNat = mid.toNat + 1 := by bv_omega
        refine .next ⟨?_, hbound, fun i hi => ?_, habove, hcompared⟩ ?_
        · exact (by omega : (mid + 1).toNat ≤ high.toNat)
        · dsimp only at hi
          exact hsorted.greater hcmp hgreater (by omega) hin
        · dsimp only
          omega
      · refine .done ⟨fun a ha => ?_, nofun, hcompared⟩
        obtain rfl := Option.some.inj ha
        exact ⟨mid.toNat, hin, hplace, by omega⟩
    · rw [if_neg hlt]
      have hge : high.toNat ≤ low.toNat := not_lt.mp hlt
      refine .done ⟨nofun, fun _ i hi => ?_, hinside⟩
      rcases lt_or_ge i low.toNat with hlow | hhigh
      · exact (hbelow i hlow).ne'
      · exact (habove i (hge.trans hhigh) hi).ne
  · exact ⟨zero_le nmemb.toNat, BitVec.le_refl _, fun i hi => absurd hi (not_lt_zero _),
      fun i hle hlt => absurd hlt (not_lt.mpr hle), nofun⟩
  · dsimp only
    omega

end

/-- The first bytes are compared as numbers. -/
def compareBytes (a b : List UInt8) : ℤ := (a.headD 0).toNat - (b.headD 0).toNat

theorem totalPreorder_compareBytes : TotalPreorder compareBytes where
  sign a b := by
    unfold compareBytes
    omega
  trans a b c hab hbc := by
    unfold compareBytes at hab hbc ⊢
    omega

def fallingBytes : ByteMemory := fun a => 2 - UInt8.ofNat a.toNat

end EzPacker.StdLib
