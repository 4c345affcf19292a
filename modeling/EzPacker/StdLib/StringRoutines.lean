import EzPacker.Lib.ByteMemory
import EzPacker.Lib.Loop

/-!
# Memory routines

The memory functions of `string.h`, written as loops over bytes. What they do is stated for any
routine on memory: the bytes that it leaves, the addresses that it touches and its result.
-/

namespace EzPacker.StdLib

open Function Lib ByteMemory

/-! ## Touched memory -/

/-- Memory and the addresses that were read or written. -/
structure Traced where
  mem : ByteMemory
  touched : List (BitVec 64)

namespace Traced

def load (t : Traced) (a : BitVec 64) : UInt8 × Traced :=
  (t.mem a, { t with touched := a :: t.touched })

def store (t : Traced) (a : BitVec 64) (byte : UInt8) : Traced :=
  ⟨update t.mem a byte, a :: t.touched⟩

def ofMem (mem : ByteMemory) : Traced := ⟨mem, []⟩

end Traced

/-! ## The routines -/

/-- `d[i] = s[i]` -/
def copyByte (dest src i : BitVec 64) (t : Traced) : Option Traced :=
  let (byte, t) := t.load (src + i)
  some (t.store (dest + i) byte)

def memcpy (fuel : ℕ) (dest src n : BitVec 64) (t : Traced) : Option (BitVec 64 × Traced) :=
  (forLoop (copyByte dest src) 0 n fuel t).map fun t => (dest, t)

def memmove (fuel : ℕ) (dest src n : BitVec 64) (t : Traced) : Option (BitVec 64 × Traced) :=
  if dest < src then
    (forLoop (copyByte dest src) 0 n fuel t).map fun t => (dest, t)
  else if src < dest then
    (downLoop (fun i => copyByte dest src (i - 1)) n fuel t).map fun t => (dest, t)
  else some (dest, t)

def memset (fuel : ℕ) (s : BitVec 64) (c : BitVec 32) (n : BitVec 64) (t : Traced) :
    Option (BitVec 64 × Traced) :=
  let val := UInt8.ofNat c.toNat
  (forLoop (fun i t => some (t.store (s + i) val)) 0 n fuel t).map fun t => (s, t)

/-- The result is an `int`. -/
def memcmp (fuel : ℕ) (s1 s2 n : BitVec 64) (t : Traced) : Option (ℤ × Traced) :=
  loop (fun s : BitVec 64 × Traced =>
    let (i, t) := s
    if i < n then
      let (b1, t) := t.load (s1 + i)
      let (b2, t) := t.load (s2 + i)
      if b1 ≠ b2 then some (.inr ((b1.toNat : ℤ) - b2.toNat, t)) else some (.inl (i + 1, t))
    else some (.inr (0, t))) fuel (0, t)

/-! ## What the standard demands -/

/-- An address is one of the `n` bytes of an object. -/
def Within (a base n : BitVec 64) : Prop := behind a base < n.toNat

/-- Only the bytes of two objects are touched. -/
def TouchedOnly (dest src n : BitVec 64) (t t' : Traced) : Prop :=
  ∀ a ∈ t'.touched, a ∈ t.touched ∨ Within a dest n ∨ Within a src n

structure Copies (dest src n : BitVec 64) (t t' : Traced) : Prop where
  copied : Copied t.mem t'.mem dest src n.toNat
  touched : TouchedOnly dest src n t t'

structure Fills (dest : BitVec 64) (byte : UInt8) (n : BitVec 64) (t t' : Traced) : Prop where
  filled : t'.mem = t.mem.fill dest n.toNat byte
  touched : TouchedOnly dest dest n t t'

/-- The result has the sign of the first bytes that differ. -/
structure Compares (s1 s2 n : BitVec 64) (t : Traced) (result : ℤ) (t' : Traced) : Prop where
  same : t'.mem = t.mem
  touched : TouchedOnly s1 s2 n t t'
  equal : (∀ i < n.toNat, t.mem (s1 + BitVec.ofNat 64 i) = t.mem (s2 + BitVec.ofNat 64 i)) →
    result = 0
  differs : ∀ i < n.toNat,
    (∀ j < i, t.mem (s1 + BitVec.ofNat 64 j) = t.mem (s2 + BitVec.ofNat 64 j)) →
    t.mem (s1 + BitVec.ofNat 64 i) ≠ t.mem (s2 + BitVec.ofNat 64 i) →
    result.sign = (((t.mem (s1 + BitVec.ofNat 64 i)).toNat : ℤ) -
      (t.mem (s2 + BitVec.ofNat 64 i)).toNat).sign

/-- Two objects that have no byte in common. -/
def Apart (dest src n : BitVec 64) : Prop := ∀ a, Within a dest n → ¬Within a src n

/-- An object that ends in the address space. -/
def Fits (base n : BitVec 64) : Prop := base.toNat + n.toNat ≤ 2 ^ 64

/-! ## Copies of a part -/

section

variable {mem mem' : ByteMemory} {dest src n : BitVec 64} {lo hi : ℕ} {t t' : Traced}

/-- The bytes from `lo` to `hi` are copied, and no other byte has changed. -/
structure CopiedPart (dest src : BitVec 64) (lo hi : ℕ) (mem mem' : ByteMemory) : Prop where
  copied : ∀ i, lo ≤ i → i < hi → mem' (dest + BitVec.ofNat 64 i) = mem (src + BitVec.ofNat 64 i)
  same : ∀ a, (∀ i, lo ≤ i → i < hi → a ≠ dest + BitVec.ofNat 64 i) → mem' a = mem a

theorem CopiedPart.empty (dest src : BitVec 64) (i : ℕ) (mem : ByteMemory) :
    CopiedPart dest src i i mem mem :=
  ⟨fun _ hlo hhi => absurd hhi (by omega), fun _ _ => rfl⟩

theorem ofNat_inj {i j : ℕ} (hi : i < 2 ^ 64) (hj : j < 2 ^ 64)
    (h : dest + BitVec.ofNat 64 i = dest + BitVec.ofNat 64 j) : i = j := by
  rw [← behind_add hi, h, behind_add hj]

/-- One more byte behind the part, or in front of it. -/
theorem CopiedPart.step {i lo' hi' : ℕ} (h : CopiedPart dest src lo hi mem mem')
    (hpart : ∀ k, lo' ≤ k ∧ k < hi' ↔ k = i ∨ lo ≤ k ∧ k < hi) (hbound : hi' ≤ 2 ^ 64)
    (hsource : ∀ k, lo ≤ k → k < hi → src + BitVec.ofNat 64 i ≠ dest + BitVec.ofNat 64 k) :
    CopiedPart dest src lo' hi' mem (update mem' (dest + BitVec.ofNat 64 i)
      (mem' (src + BitVec.ofNat 64 i))) := by
  have hi : i < hi' := ((hpart i).mpr (.inl rfl)).2
  refine ⟨fun k hlo hhi => ?_, fun a ha => ?_⟩
  · by_cases hk : k = i
    · rw [hk, update_self, h.same _ hsource]
    · have hne : dest + BitVec.ofNat 64 k ≠ dest + BitVec.ofNat 64 i := fun heq =>
        hk (ofNat_inj (by omega) (by omega) heq)
      obtain ⟨hlo, hhi⟩ := ((hpart k).mp ⟨hlo, hhi⟩).resolve_left hk
      rw [update_of_ne hne, h.copied k hlo hhi]
  · obtain ⟨hlo', hhi'⟩ := (hpart i).mpr (.inl rfl)
    rw [update_of_ne (ha i hlo' hhi')]
    refine h.same a fun k hlo hhi => ?_
    obtain ⟨hlo', hhi'⟩ := (hpart k).mpr (.inr ⟨hlo, hhi⟩)
    exact ha k hlo' hhi'

theorem CopiedPart.whole (h : CopiedPart dest src 0 n.toNat mem mem') :
    Copied mem mem' dest src n.toNat := by
  refine ⟨fun i hi => h.copied i (Nat.zero_le _) hi, fun a ha => h.same a fun i _ hi heq => ?_⟩
  rw [heq, behind_add (by have := n.isLt; omega)] at ha
  omega

theorem within_add {i : ℕ} (hi : i < n.toNat) : Within (dest + BitVec.ofNat 64 i) dest n := by
  unfold Within
  rwa [behind_add (by have := n.isLt; omega)]

theorem TouchedOnly.cons {a : BitVec 64} {mem : ByteMemory} (h : TouchedOnly dest src n t t')
    (ha : Within a dest n ∨ Within a src n) :
    TouchedOnly dest src n t ⟨mem, a :: t'.touched⟩ := by
  intro b hb
  rcases List.mem_cons.mp hb with rfl | hb
  · exact .inr ha
  · exact h b hb

theorem TouchedOnly.refl (dest src n : BitVec 64) (t : Traced) : TouchedOnly dest src n t t :=
  fun _ h => .inl h

/-- The state of a copy: a part is copied. -/
structure Copying (dest src n : BitVec 64) (t : Traced) (lo hi : ℕ) (t' : Traced) : Prop where
  part : CopiedPart dest src lo hi t.mem t'.mem
  touched : TouchedOnly dest src n t t'

theorem Copying.step {i lo' hi' : ℕ} (h : Copying dest src n t lo hi t') (hin : i < n.toNat)
    (hpart : ∀ k, lo' ≤ k ∧ k < hi' ↔ k = i ∨ lo ≤ k ∧ k < hi) (hbound : hi' ≤ n.toNat)
    (hsource : ∀ k, lo ≤ k → k < hi → src + BitVec.ofNat 64 i ≠ dest + BitVec.ofNat 64 k) :
    Copying dest src n t lo' hi'
      ((t'.load (src + BitVec.ofNat 64 i)).2.store (dest + BitVec.ofNat 64 i)
        (t'.load (src + BitVec.ofNat 64 i)).1) := by
  have hn := n.isLt
  exact ⟨h.part.step hpart (by omega) hsource,
    (h.touched.cons (.inr (within_add hin))).cons (.inl (within_add hin))⟩

/-- The bytes in front are copied first when the source is not overwritten by them. -/
def ForwardSafe (dest src n : BitVec 64) : Prop :=
  ∀ i < n.toNat, ∀ k < i, src + BitVec.ofNat 64 i ≠ dest + BitVec.ofNat 64 k

def BackwardSafe (dest src n : BitVec 64) : Prop :=
  ∀ i < n.toNat, ∀ k, i < k → k < n.toNat → src + BitVec.ofNat 64 i ≠ dest + BitVec.ofNat 64 k

theorem forwardSafe_of_apart (h : Apart dest src n) : ForwardSafe dest src n := by
  intro i hi k hk heq
  refine h _ (within_add (hk.trans hi)) ?_
  rw [← heq]
  exact within_add hi

theorem toNat_add_ofNat {base : BitVec 64} (h : Fits base n) {i : ℕ} (hi : i < n.toNat) :
    (base + BitVec.ofNat 64 i).toNat = base.toNat + i := by
  unfold Fits at h
  rw [BitVec.toNat_add, BitVec.toNat_ofNat, Nat.mod_eq_of_lt (by omega : i < 2 ^ 64),
    Nat.mod_eq_of_lt (by omega)]

theorem forwardSafe_of_le (hdest : Fits dest n) (hsrc : Fits src n)
    (h : dest.toNat ≤ src.toNat) : ForwardSafe dest src n := by
  intro i hi k hk heq
  have htoNat := congrArg BitVec.toNat heq
  rw [toNat_add_ofNat hsrc hi, toNat_add_ofNat hdest (hk.trans hi)] at htoNat
  omega

theorem backwardSafe_of_le (hdest : Fits dest n) (hsrc : Fits src n)
    (h : src.toNat ≤ dest.toNat) : BackwardSafe dest src n := by
  intro i hi k hik hk heq
  have htoNat := congrArg BitVec.toNat heq
  rw [toNat_add_ofNat hsrc hi, toNat_add_ofNat hdest hk] at htoNat
  omega

theorem Copying.copies (h : Copying dest src n t 0 n.toNat t') : Copies dest src n t t' :=
  ⟨h.part.whole, h.touched⟩

variable {fuel : ℕ}

theorem copyForward_total (hsafe : ForwardSafe dest src n) (hfuel : n.toNat < fuel) (t : Traced) :
    ∃ t', forLoop (copyByte dest src) 0 n fuel t = some t' ∧ Copies dest src n t t' := by
  obtain ⟨t', hrun, hcopying⟩ := @forLoop_total _ (copyByte dest src) 0 n fuel t
    (fun i => Copying dest src n t 0 i)
    (fun i t' _ hin hcopying => ⟨_, rfl, hcopying.step hin (fun k => by omega) (by omega)
      fun k _ hk => hsafe i hin k hk⟩)
    ⟨CopiedPart.empty .., TouchedOnly.refl _ _ _ _⟩ (Nat.zero_le _) (by simpa using hfuel)
  exact ⟨t', hrun, hcopying.copies⟩

theorem copyBackward_total (hsafe : BackwardSafe dest src n) (hfuel : n.toNat < fuel) (t : Traced) :
    ∃ t', downLoop (fun i => copyByte dest src (i - 1)) n fuel t = some t' ∧
      Copies dest src n t t' := by
  obtain ⟨t', hrun, hcopying⟩ := @downLoop_total _ (fun i => copyByte dest src (i - 1)) n fuel t
    (fun i => Copying dest src n t i n.toNat)
    (fun i t' hin hcopying => by
      have hpred : BitVec.ofNat 64 (i + 1) - 1 = BitVec.ofNat 64 i := by
        rw [BitVec.ofNat_add]
        exact BitVec.add_sub_cancel _ _
      rw [hpred]
      exact ⟨_, rfl, hcopying.step hin (fun k => by omega) le_rfl
        fun k hk hkn => hsafe i hin k (by omega) hkn⟩)
    ⟨CopiedPart.empty .., TouchedOnly.refl _ _ _ _⟩ hfuel
  exact ⟨t', hrun, hcopying.copies⟩

theorem copies_self (dest n : BitVec 64) (t : Traced) : Copies dest dest n t t :=
  ⟨⟨fun _ _ => rfl, fun _ _ => rfl⟩, TouchedOnly.refl _ _ _ _⟩

/-! ## The routines are right -/

theorem memcpy_total (hapart : Apart dest src n) (hfuel : n.toNat < fuel) (t : Traced) :
    ∃ t', memcpy fuel dest src n t = some (dest, t') ∧ Copies dest src n t t' := by
  obtain ⟨t', hrun, hcopies⟩ := copyForward_total (forwardSafe_of_apart hapart) hfuel t
  exact ⟨t', by unfold memcpy; rw [hrun]; rfl, hcopies⟩

theorem memmove_total (hdest : Fits dest n) (hsrc : Fits src n) (hfuel : n.toNat < fuel)
    (t : Traced) :
    ∃ t', memmove fuel dest src n t = some (dest, t') ∧ Copies dest src n t t' := by
  unfold memmove
  split_ifs with hlt hgt
  · obtain ⟨t', hrun, hcopies⟩ := copyForward_total
      (forwardSafe_of_le hdest hsrc (Nat.le_of_lt hlt)) hfuel t
    exact ⟨t', by rw [hrun]; rfl, hcopies⟩
  · obtain ⟨t', hrun, hcopies⟩ := copyBackward_total
      (backwardSafe_of_le hdest hsrc (Nat.le_of_lt hgt)) hfuel t
    exact ⟨t', by rw [hrun]; rfl, hcopies⟩
  · obtain rfl : dest = src := BitVec.eq_of_toNat_eq (le_antisymm (not_lt.mp hgt) (not_lt.mp hlt))
    exact ⟨t, rfl, copies_self ..⟩

/-- The state of a fill. -/
structure Filling (dest : BitVec 64) (byte : UInt8) (n : BitVec 64) (t : Traced) (i : ℕ)
    (t' : Traced) : Prop where
  filled : t'.mem = t.mem.fill dest i byte
  touched : TouchedOnly dest dest n t t'

theorem fill_succ (mem : ByteMemory) (dest : BitVec 64) {i : ℕ} (byte : UInt8) (hi : i < 2 ^ 64) :
    update (mem.fill dest i byte) (dest + BitVec.ofNat 64 i) byte = mem.fill dest (i + 1) byte := by
  funext a
  rw [update_apply]
  unfold fill
  split_ifs with heq hlt hlt' hlt'
  · rfl
  · rw [heq, behind_add hi] at hlt
    omega
  · rfl
  · omega
  · have hbehind : behind a dest = i := by omega
    exact absurd (hbehind ▸ eq_add_behind a dest) heq
  · rfl

theorem Filling.step {byte : UInt8} {i : ℕ} (h : Filling dest byte n t i t') (hi : i < n.toNat) :
    Filling dest byte n t (i + 1) (t'.store (dest + BitVec.ofNat 64 i) byte) := by
  refine ⟨?_, h.touched.cons (.inl (within_add hi))⟩
  unfold Traced.store
  rw [h.filled]
  exact fill_succ t.mem dest byte (by have := n.isLt; omega)

theorem Filling.init (dest : BitVec 64) (byte : UInt8) (n : BitVec 64) (t : Traced) :
    Filling dest byte n t 0 t :=
  ⟨(fill_zero ..).symm, TouchedOnly.refl _ _ _ _⟩

theorem memset_total (c : BitVec 32) (hfuel : n.toNat < fuel) (t : Traced) :
    ∃ t', memset fuel dest c n t = some (dest, t') ∧ Fills dest (UInt8.ofNat c.toNat) n t t' := by
  obtain ⟨t', hrun, hfilling⟩ := @forLoop_total _
    (fun i t => some (Traced.store t (dest + i) (UInt8.ofNat c.toNat))) 0 n fuel t
    (fun i => Filling dest (UInt8.ofNat c.toNat) n t i)
    (fun i t' _ hi hfilling => ⟨_, rfl, hfilling.step hi⟩) (Filling.init ..) (Nat.zero_le _)
    (by simpa using hfuel)
  exact ⟨t', by unfold memset; dsimp only; rw [hrun]; rfl, hfilling.filled, hfilling.touched⟩

/-- The state of a comparison: the bytes so far are the same. -/
structure Comparing (s1 s2 n : BitVec 64) (t : Traced) (i : ℕ) (t' : Traced) : Prop where
  same : t'.mem = t.mem
  touched : TouchedOnly s1 s2 n t t'
  equal : ∀ k < i, t.mem (s1 + BitVec.ofNat 64 k) = t.mem (s2 + BitVec.ofNat 64 k)

section

variable {s1 s2 : BitVec 64} {i : ℕ}

/-- The two bytes are loaded. -/
theorem Comparing.loaded (h : Comparing s1 s2 n t i t') (hi : i < n.toNat) : Comparing s1 s2 n t i
      ((t'.load (s1 + BitVec.ofNat 64 i)).2.load (s2 + BitVec.ofNat 64 i)).2 :=
  ⟨h.same, (h.touched.cons (.inl (within_add hi))).cons (.inr (within_add hi)), h.equal⟩

theorem Comparing.next (h : Comparing s1 s2 n t i t')
    (heq : t.mem (s1 + BitVec.ofNat 64 i) = t.mem (s2 + BitVec.ofNat 64 i)) :
    Comparing s1 s2 n t (i + 1) t' := by
  refine ⟨h.same, h.touched, fun k hk => ?_⟩
  rcases Nat.lt_succ_iff_lt_or_eq.mp hk with hlt | rfl
  · exact h.equal k hlt
  · exact heq

theorem Comparing.done (h : Comparing s1 s2 n t n.toNat t') : Compares s1 s2 n t 0 t' :=
  ⟨h.same, h.touched, fun _ => rfl, fun i hi _ hne => absurd (h.equal i hi) hne⟩

/-- A result with the sign of the two bytes is right where they differ. -/
theorem Comparing.differs (h : Comparing s1 s2 n t i t') (hi : i < n.toNat)
    (hne : t.mem (s1 + BitVec.ofNat 64 i) ≠ t.mem (s2 + BitVec.ofNat 64 i)) {result : ℤ}
    (hresult : result.sign = (((t.mem (s1 + BitVec.ofNat 64 i)).toNat : ℤ) -
      (t.mem (s2 + BitVec.ofNat 64 i)).toNat).sign) : Compares s1 s2 n t result t' := by
  refine ⟨h.same, h.touched, fun hequal => absurd (hequal i hi) hne, fun k hk hbefore hdiff => ?_⟩
  rcases Nat.lt_trichotomy k i with hlt | rfl | hgt
  · exact absurd (h.equal k hlt) hdiff
  · exact hresult
  · exact absurd (hbefore i hgt) hne

theorem memcmp_total (hfuel : n.toNat < fuel) (t : Traced) :
    ∃ result t', memcmp fuel s1 s2 n t = some (result, t') ∧ Compares s1 s2 n t result t' := by
  obtain ⟨⟨result, t'⟩, hrun, hcompares⟩ := @loop_total (BitVec 64 × Traced) (ℤ × Traced)
    (fun s =>
      let (i, t) := s
      if i < n then
        let (b1, t) := t.load (s1 + i)
        let (b2, t) := t.load (s2 + i)
        if b1 ≠ b2 then some (.inr ((b1.toNat : ℤ) - b2.toNat, t)) else some (.inl (i + 1, t))
      else some (.inr (0, t)))
    (fun s => s.1.toNat ≤ n.toNat ∧ Comparing s1 s2 n t s.1.toNat s.2)
    (fun s => n.toNat - s.1.toNat) (fun r => Compares s1 s2 n t r.1 r.2)
    (by
      rintro ⟨i, t'⟩ ⟨hle, hcomparing⟩
      dsimp only at hle hcomparing ⊢
      by_cases hlt : i < n
      · rw [if_pos hlt]
        have hlt : i.toNat < n.toNat := hlt
        have hloaded := hcomparing.loaded hlt
        have hof : BitVec.ofNat 64 i.toNat = i := by rw [BitVec.ofNat_toNat, BitVec.setWidth_eq]
        have hb1 : (t'.load (s1 + i)).1 = t.mem (s1 + i) := congrFun hcomparing.same _
        have hb2 : ((t'.load (s1 + i)).2.load (s2 + i)).1 = t.mem (s2 + i) :=
          congrFun hcomparing.same _
        rw [hof] at hloaded
        rw [hb1, hb2]
        split_ifs with hne
        · refine .done (hloaded.differs hlt ?_ ?_) <;> rw [hof]
          exact hne
        · have hnext : (i + 1).toNat = i.toNat + 1 := by bv_omega
          refine .next ⟨?_, ?_⟩ ?_
          · dsimp only
            omega
          · dsimp only
            rw [hnext]
            exact hloaded.next (by rw [hof]; exact not_not.mp hne)
          · dsimp only
            omega
      · rw [if_neg hlt]
        have heq : i.toNat = n.toNat := le_antisymm hle (not_lt.mp hlt)
        exact .done (heq ▸ hcomparing).done)
    fuel (0, t)
    ⟨Nat.zero_le _, rfl, TouchedOnly.refl _ _ _ _, fun k hk => absurd hk (Nat.not_lt_zero _)⟩
    (by dsimp only; omega)
  exact ⟨result, t', hrun, hcompares⟩

end

end

end EzPacker.StdLib
