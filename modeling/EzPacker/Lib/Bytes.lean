import Mathlib.Data.List.TakeWhile
import Mathlib.Tactic

/-!
# Fixed-width little-endian integers

`leBytes n v` is the list of the `n` low base-256 digits of `v`, least
significant first, and `leNat bs` the number the digits `bs` denote. Reading back
what was written gives the value modulo `256 ^ n`, which is the value itself when
it fits.
-/

namespace EzPacker

open Nat

/-- The `n` low bytes of `v`, least significant first. -/
def leBytes : ℕ → ℕ → List UInt8
  | 0, _ => []
  | n + 1, v => UInt8.ofNat v :: leBytes n (v / 256)

/-- The number whose base-256 digits, least significant first, are `bs`. -/
def leNat : List UInt8 → ℕ
  | [] => 0
  | b :: bs => b.toNat + 256 * leNat bs

@[simp] theorem length_leBytes (n v : ℕ) : (leBytes n v).length = n := by
  induction n generalizing v with
  | zero => rfl
  | succ n ih => simp [leBytes, ih]

theorem leNat_leBytes (n v : ℕ) : leNat (leBytes n v) = v % 256 ^ n := by
  induction n generalizing v with
  | zero => simp [leBytes, leNat, mod_one]
  | succ n ih =>
    rw [leBytes, leNat, ih, pow_succ', mod_mul]
    simp

theorem leNat_lt (bs : List UInt8) : leNat bs < 256 ^ bs.length := by
  induction bs with
  | nil => exact one_pos
  | cons b bs ih =>
    have hb := b.toNat_lt
    rw [leNat, List.length_cons, pow_succ']
    omega

/-- A digit is read off the number. -/
theorem leNat_div_mod (bs : List UInt8) (i : ℕ) :
    leNat bs / 256 ^ i % 256 = (bs[i]?.getD 0).toNat := by
  induction bs generalizing i with
  | nil => simp [leNat]
  | cons b bs ih =>
    have hb := b.toNat_lt
    cases i with
    | zero =>
      rw [leNat, pow_zero, Nat.div_one, Nat.add_mul_mod_self_left, Nat.mod_eq_of_lt hb]
      rfl
    | succ i =>
      rw [leNat, pow_succ', ← Nat.div_div_eq_div_mul, Nat.add_mul_div_left _ _ (by decide),
        div_eq_of_lt hb, zero_add, ih, List.getElem?_cons_succ]

theorem leNat_eq_zero {bs : List UInt8} : leNat bs = 0 ↔ ∀ b ∈ bs, b = 0 := by
  induction bs with
  | nil => simp [leNat]
  | cons b bs ih =>
    rw [leNat, Nat.add_eq_zero_iff, List.forall_mem_cons, ← ih, ← UInt8.toNat_inj]
    simp

theorem leNat_leBytes_of_lt {n v : ℕ} (h : v < 256 ^ n) : leNat (leBytes n v) = v := by
  rw [leNat_leBytes, mod_eq_of_lt h]

end EzPacker

/-!
## Byte buffers

A buffer is a list of bytes; `slice` reads a range of it and `memcpy` writes one in
place. What was written is read back, and a write leaves disjoint ranges alone.
-/

namespace EzPacker

/-- The `n` bytes from `off` on. -/
def slice (buf : List UInt8) (off n : ℕ) : List UInt8 := (buf.drop off).take n

/-- The buffer with `data` written at `off`. -/
def memcpy (buf : List UInt8) (off : ℕ) (data : List UInt8) : List UInt8 :=
  buf.take off ++ data ++ buf.drop (off + data.length)

section

variable {off : ℕ} {data buf : List UInt8} (h : off + data.length ≤ buf.length)
include h

theorem length_memcpy : (memcpy buf off data).length = buf.length := by
  simp [memcpy]
  omega

theorem slice_memcpy_self : slice (memcpy buf off data) off data.length = data := by
  have hlen : (buf.take off).length = off := by
    simp
    omega
  unfold slice memcpy
  rw [List.append_assoc, List.drop_append_of_le_length (by omega),
    List.drop_of_length_le (by omega),
    List.nil_append, List.take_append_of_le_length (le_refl _), List.take_length]

theorem getElem?_memcpy {i : ℕ} (hi : i < off ∨ off + data.length ≤ i) :
    (memcpy buf off data)[i]? = buf[i]? := by
  have hlen : (buf.take off).length = off := by
    simp
    omega
  unfold memcpy
  rcases hi with hi | hi
  · rw [List.append_assoc, List.getElem?_append_left (by omega), List.getElem?_take_of_lt hi]
  · rw [List.getElem?_append_right (by simp; omega), List.getElem?_drop]
    congr 1
    simp
    omega

end

theorem slice_slice {buf : List UInt8} {off n a k : ℕ} (h : a + k ≤ n) :
    slice (slice buf off n) a k = slice buf (off + a) k := by
  unfold slice
  rw [List.drop_take, List.drop_drop, List.take_take, min_eq_left (by omega)]

end EzPacker
