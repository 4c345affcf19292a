import Mathlib.Data.Nat.Digits.Defs

/-!
# Numbers in chunks

A number of `n * b` bits is the digits of its `n` chunks in base `2 ^ b`. Sums and differences
are computed chunk by chunk with a carry or a borrow.
-/

namespace EzPacker

open Nat List

variable {b : ℕ}

/-- The bits of a number from `k * b` on. -/
def chunk (b k x : ℕ) : ℕ := x / 2 ^ (k * b) % 2 ^ b

def chunks (b n x : ℕ) : List ℕ := (range n).map fun k => chunk b k x

@[simp] theorem length_chunks (n x : ℕ) : (chunks b n x).length = n := by
  simp [chunks]

theorem chunk_lt (k x : ℕ) : chunk b k x < 2 ^ b := Nat.mod_lt _ (Nat.two_pow_pos b)

theorem lt_of_mem_chunks {n x c : ℕ} (h : c ∈ chunks b n x) : c < 2 ^ b := by
  obtain ⟨k, -, rfl⟩ := mem_map.mp h
  exact chunk_lt k x

theorem chunk_succ (k x : ℕ) : chunk b (k + 1) x = chunk b k (x / 2 ^ b) := by
  unfold chunk
  rw [Nat.div_div_eq_div_mul, ← pow_add, Nat.succ_mul, Nat.add_comm]

theorem chunks_succ (n x : ℕ) : chunks b (n + 1) x = x % 2 ^ b :: chunks b n (x / 2 ^ b) := by
  unfold chunks
  rw [range_succ_eq_map, map_cons, map_map]
  congr 1
  · unfold chunk
    rw [Nat.zero_mul, pow_zero, Nat.div_one]
  · exact map_congr_left fun k _ => chunk_succ k x

theorem ofDigits_chunks (n x : ℕ) : Nat.ofDigits (2 ^ b) (chunks b n x) = x % 2 ^ (n * b) := by
  induction n generalizing x with
  | zero => simp [chunks, mod_one]
  | succ n ih =>
    rw [chunks_succ, ofDigits_cons, ih, succ_mul, add_comm (n * b), pow_add, mod_mul]

/-- The chunks of an integer are those of its residue. -/
theorem chunk_emod {n k : ℕ} (h : k < n) (value : ℤ) :
    (value / 2 ^ (k * b) % 2 ^ b).toNat = chunk b k (value % 2 ^ (n * b)).toNat := by
  have hle : k * b + b ≤ n * b := by
    rw [← succ_mul]
    exact mul_le_mul_right b h
  obtain ⟨m, hm⟩ := Nat.exists_eq_add_of_le hle
  have hnonneg : 0 ≤ value % 2 ^ (n * b) := Int.emod_nonneg _ (by positivity)
  have hsplit := Int.emod_add_mul_ediv value (2 ^ (n * b))
  have hpow : (2 : ℤ) ^ (n * b) = 2 ^ (k * b) * (2 ^ b * 2 ^ m) := by
    rw [hm, add_assoc, pow_add, pow_add]
  have hdiv : value / 2 ^ (k * b) % 2 ^ b = value % 2 ^ (n * b) / 2 ^ (k * b) % 2 ^ b := by
    conv_lhs => rw [← hsplit]
    rw [hpow, Int.mul_assoc, Int.add_mul_ediv_left _ _ (by positivity), Int.mul_assoc,
      Int.add_mul_emod_self_left]
  obtain ⟨x, hx⟩ := Int.eq_ofNat_of_zero_le hnonneg
  rw [hdiv, hx]
  unfold chunk
  exact_mod_cast rfl

def chain (digit : ℕ → ℕ → ℕ → ℕ × ℕ) : List (ℕ × ℕ) → ℕ → List ℕ × ℕ
  | [], carry => ([], carry)
  | pair :: rest, carry =>
    let d := digit pair.1 pair.2 carry
    (d.1 :: (chain digit rest d.2).1, (chain digit rest d.2).2)

def addDigit (b x y carry : ℕ) : ℕ × ℕ := ((x + y + carry) % 2 ^ b, (x + y + carry) / 2 ^ b)

def subDigit (b x y borrow : ℕ) : ℕ × ℕ :=
  ((((x : ℤ) - y - borrow) % 2 ^ b).toNat, if x < y + borrow then 1 else 0)

section Digits

variable {x y carry : ℕ} (hx : x < 2 ^ b) (hy : y < 2 ^ b) (hcarry : carry ≤ 1)
include hx hy hcarry

theorem addDigit_bounds : (addDigit b x y carry).1 < 2 ^ b ∧ (addDigit b x y carry).2 ≤ 1 := by
  refine ⟨Nat.mod_lt _ (Nat.two_pow_pos b), ?_⟩
  have hlt : (x + y + carry) / 2 ^ b < 2 := by
    rw [Nat.div_lt_iff_lt_mul (Nat.two_pow_pos b)]
    omega
  exact le_of_lt_succ hlt

theorem subDigit_eq :
    (subDigit b x y carry).1 + y + carry = x + 2 ^ b * (subDigit b x y carry).2 := by
  have hcast : ((2 ^ b : ℕ) : ℤ) = 2 ^ b := by push_cast; rfl
  unfold subDigit
  rw [← hcast]
  generalize 2 ^ b = B at *
  dsimp only
  split
  next hlt =>
    have hmod : ((x : ℤ) - y - carry) % (B : ℤ) = x - y - carry + B := by
      rw [← Int.add_emod_right, Int.emod_eq_of_lt (by omega) (by omega)]
    rw [hmod]
    omega
  next hge =>
    rw [Int.emod_eq_of_lt (by omega) (by omega)]
    omega

theorem subDigit_bounds : (subDigit b x y carry).1 < 2 ^ b ∧ (subDigit b x y carry).2 ≤ 1 := by
  have heq := subDigit_eq hx hy hcarry
  unfold subDigit at *
  dsimp only at *
  generalize 2 ^ b = B at *
  split at heq <;> split <;> omega

end Digits

theorem ofDigits_addChain (pairs : List (ℕ × ℕ)) (carry : ℕ) :
    Nat.ofDigits (2 ^ b) (chain (addDigit b) pairs carry).1 +
        (2 ^ b) ^ pairs.length * (chain (addDigit b) pairs carry).2 =
      Nat.ofDigits (2 ^ b) (pairs.map Prod.fst) + Nat.ofDigits (2 ^ b) (pairs.map Prod.snd) +
        carry := by
  induction pairs generalizing carry with
  | nil => simp [chain]
  | cons pair rest ih =>
    obtain ⟨x, y⟩ := pair
    have htail := ih (addDigit b x y carry).2
    have hsplit : (addDigit b x y carry).1 + 2 ^ b * (addDigit b x y carry).2 =
        x + y + carry := mod_add_div (x + y + carry) (2 ^ b)
    simp only [chain, map_cons, ofDigits_cons, length_cons, pow_succ] at htail ⊢
    generalize addDigit b x y carry = d at *
    calc _ = d.1 + 2 ^ b * (ofDigits (2 ^ b) (chain (addDigit b) rest d.2).1 +
            (2 ^ b) ^ rest.length * (chain (addDigit b) rest d.2).2) := by ring
      _ = d.1 + 2 ^ b * d.2 + 2 ^ b * (ofDigits (2 ^ b) (rest.map Prod.fst) +
            ofDigits (2 ^ b) (rest.map Prod.snd)) := by rw [htail]; ring
      _ = _ := by rw [hsplit]; ring

theorem ofDigits_subChain (pairs : List (ℕ × ℕ)) (borrow : ℕ)
    (hpairs : ∀ pair ∈ pairs, pair.1 < 2 ^ b ∧ pair.2 < 2 ^ b) (hborrow : borrow ≤ 1) :
    Nat.ofDigits (2 ^ b) (chain (subDigit b) pairs borrow).1 +
        Nat.ofDigits (2 ^ b) (pairs.map Prod.snd) + borrow =
      Nat.ofDigits (2 ^ b) (pairs.map Prod.fst) +
        (2 ^ b) ^ pairs.length * (chain (subDigit b) pairs borrow).2 := by
  induction pairs generalizing borrow with
  | nil => simp [chain]
  | cons pair rest ih =>
    obtain ⟨x, y⟩ := pair
    obtain ⟨hx, hy⟩ := hpairs (x, y) mem_cons_self
    have htail := ih (subDigit b x y borrow).2
      (fun p hp => hpairs p (mem_cons_of_mem _ hp)) (subDigit_bounds hx hy hborrow).2
    have hdigit := subDigit_eq hx hy hborrow
    simp only [chain, map_cons, ofDigits_cons, length_cons, pow_succ] at htail ⊢
    generalize subDigit b x y borrow = d at *
    calc _ = (d.1 + y + borrow) + 2 ^ b * (ofDigits (2 ^ b) (chain (subDigit b) rest d.2).1 +
              ofDigits (2 ^ b) (rest.map Prod.snd)) := by ring
      _ = x + 2 ^ b * (ofDigits (2 ^ b) (chain (subDigit b) rest d.2).1 +
            ofDigits (2 ^ b) (rest.map Prod.snd) + d.2) := by rw [hdigit]; ring
      _ = _ := by rw [htail]; ring

/-! ## Sums, differences and bitwise operations -/

theorem chunk_and (k x y : ℕ) : chunk b k (x &&& y) = chunk b k x &&& chunk b k y := by
  unfold chunk
  simp only [← shiftRight_eq_div_pow, shiftRight_and_distrib, and_mod_two_pow]

theorem chunk_or (k x y : ℕ) : chunk b k (x ||| y) = chunk b k x ||| chunk b k y := by
  unfold chunk
  simp only [← shiftRight_eq_div_pow, shiftRight_or_distrib, or_mod_two_pow]

theorem chunk_xor (k x y : ℕ) : chunk b k (x ^^^ y) = chunk b k x ^^^ chunk b k y := by
  unfold chunk
  simp only [← shiftRight_eq_div_pow, shiftRight_xor_distrib, xor_mod_two_pow]

theorem chunks_zip_map {op : ℕ → ℕ → ℕ} {n x y z : ℕ}
    (h : ∀ k < n, chunk b k z = op (chunk b k x) (chunk b k y)) :
    ((chunks b n x).zip (chunks b n y)).map (fun p => op p.1 p.2) = chunks b n z := by
  unfold chunks
  rw [zip_map', map_map]
  exact map_congr_left fun k hk => (h k (mem_range.mp hk)).symm

theorem chunks_map {op : ℕ → ℕ} {n x z : ℕ} (h : ∀ k < n, chunk b k z = op (chunk b k x)) :
    (chunks b n x).map op = chunks b n z := by
  unfold chunks
  rw [map_map]
  exact map_congr_left fun k hk => (h k (mem_range.mp hk)).symm

theorem ofDigits_chunks_of_lt {n x : ℕ} (h : x < 2 ^ (n * b)) :
    Nat.ofDigits (2 ^ b) (chunks b n x) = x := by
  rw [ofDigits_chunks, mod_eq_of_lt h]

theorem chunk_complement {k n : ℕ} (h : k < n) {x : ℕ} (hx : x < 2 ^ (n * b)) :
    chunk b k (2 ^ (n * b) - 1 - x) = 2 ^ b - 1 - chunk b k x := by
  have hle : k * b + b ≤ n * b := by
    rw [← succ_mul]
    exact mul_le_mul_right b h
  apply eq_of_testBit_eq
  intro i
  unfold chunk
  have hmod : x / 2 ^ (k * b) % 2 ^ b < 2 ^ b := Nat.mod_lt _ (Nat.two_pow_pos b)
  rw [Nat.sub_sub, Nat.add_comm 1, Nat.sub_sub, Nat.add_comm 1, Nat.testBit_two_pow_sub_succ hmod,
    testBit_mod_two_pow, testBit_mod_two_pow, testBit_div_two_pow,
    testBit_div_two_pow, testBit_two_pow_sub_succ hx]
  by_cases hi : i < b
  · have hbit : i + k * b < n * b := by omega
    simp [hi, hbit]
  · simp [hi]

theorem chain_digits_lt {digit : ℕ → ℕ → ℕ → ℕ × ℕ} {base : ℕ}
    (hdigit : ∀ x y carry, (digit x y carry).1 < base) (pairs : List (ℕ × ℕ)) (carry : ℕ) :
    ∀ d ∈ (chain digit pairs carry).1, d < base := by
  induction pairs generalizing carry with
  | nil => exact fun d hd => absurd hd not_mem_nil
  | cons pair rest ih => exact forall_mem_cons.mpr ⟨hdigit _ _ _, ih _⟩

theorem length_chain (digit : ℕ → ℕ → ℕ → ℕ × ℕ) (pairs : List (ℕ × ℕ)) (carry : ℕ) :
    (chain digit pairs carry).1.length = pairs.length := by
  induction pairs generalizing carry with
  | nil => rfl
  | cons pair rest ih => exact congrArg succ (ih _)

theorem addDigit_lt (x y carry : ℕ) : (addDigit b x y carry).1 < 2 ^ b :=
  Nat.mod_lt _ (Nat.two_pow_pos b)

theorem subDigit_lt (x y borrow : ℕ) : (subDigit b x y borrow).1 < 2 ^ b := by
  have hpos : (0 : ℤ) < 2 ^ b := by positivity
  have hlt := Int.emod_lt_of_pos ((x : ℤ) - y - borrow) hpos
  unfold subDigit
  dsimp only
  zify
  rw [Int.toNat_of_nonneg (Int.emod_nonneg _ (Int.ne_of_gt hpos))]
  exact hlt

section Chains

variable {n x y : ℕ} (hb : 0 < b) (hx : x < 2 ^ (n * b)) (hy : y < 2 ^ (n * b))
include hb hx hy

theorem ofDigits_addChunks :
    Nat.ofDigits (2 ^ b) (chain (addDigit b) ((chunks b n x).zip (chunks b n y)) 0).1 =
      (x + y) % 2 ^ (n * b) := by
  have hsum := ofDigits_addChain (b := b) ((chunks b n x).zip (chunks b n y)) 0
  have hlen : ((chunks b n x).zip (chunks b n y)).length = n := by simp
  have hlt := Nat.ofDigits_lt_base_pow_length (Nat.one_lt_two_pow (Nat.ne_of_gt hb))
    (chain_digits_lt addDigit_lt ((chunks b n x).zip (chunks b n y)) 0)
  rw [length_chain, hlen, ← pow_mul, Nat.mul_comm b] at hlt
  rw [map_fst_zip (by simp), map_snd_zip (by simp), ofDigits_chunks_of_lt hx,
    ofDigits_chunks_of_lt hy, hlen, ← pow_mul, Nat.mul_comm b, Nat.add_zero] at hsum
  rw [← hsum, Nat.add_mul_mod_self_left, Nat.mod_eq_of_lt hlt]

theorem ofDigits_subChunks :
    Nat.ofDigits (2 ^ b) (chain (subDigit b) ((chunks b n x).zip (chunks b n y)) 0).1 =
      (2 ^ (n * b) - y + x) % 2 ^ (n * b) := by
  have hdiff := ofDigits_subChain (b := b) ((chunks b n x).zip (chunks b n y)) 0
    (fun pair hpair => ⟨lt_of_mem_chunks (of_mem_zip hpair).1,
      lt_of_mem_chunks (of_mem_zip hpair).2⟩) (Nat.zero_le 1)
  have hlen : ((chunks b n x).zip (chunks b n y)).length = n := by simp
  have hlt := Nat.ofDigits_lt_base_pow_length (Nat.one_lt_two_pow (Nat.ne_of_gt hb))
    (chain_digits_lt subDigit_lt ((chunks b n x).zip (chunks b n y)) 0)
  rw [length_chain, hlen, ← pow_mul, Nat.mul_comm b] at hlt
  rw [map_fst_zip (by simp), map_snd_zip (by simp), ofDigits_chunks_of_lt hx,
    ofDigits_chunks_of_lt hy, hlen, ← pow_mul, Nat.mul_comm b, Nat.add_zero] at hdiff
  generalize Nat.ofDigits (2 ^ b) (chain (subDigit b) ((chunks b n x).zip (chunks b n y)) 0).1 =
    d at hdiff hlt ⊢
  generalize (chain (subDigit b) ((chunks b n x).zip (chunks b n y)) 0).2 = out at hdiff
  -- Both sides are the difference with borrows of the whole power.
  have hmod : (2 ^ (n * b) - y + x) + 2 ^ (n * b) * out = d + 2 ^ (n * b) := by omega
  have := congrArg (· % 2 ^ (n * b)) hmod
  simp only [Nat.add_mul_mod_self_left, Nat.add_mod_right, Nat.mod_eq_of_lt hlt] at this
  exact this.symm

end Chains

/-- The chunks of a number subtracted from zero. -/
theorem ofDigits_negChunks {n x : ℕ} (hb : 0 < b) (hx : x < 2 ^ (n * b)) :
    Nat.ofDigits (2 ^ b) (chain (subDigit b) ((chunks b n x).map fun c => (0, c)) 0).1 =
      (2 ^ (n * b) - x) % 2 ^ (n * b) := by
  have hzip : (chunks b n x).map (fun c => (0, c)) = (chunks b n 0).zip (chunks b n x) := by
    unfold chunks
    rw [zip_map', map_map]
    refine map_congr_left fun k _ => ?_
    simp [chunk]
  rw [hzip, ofDigits_subChunks hb (Nat.two_pow_pos _) hx, Nat.add_zero]

end EzPacker
