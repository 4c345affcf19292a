import EzPacker.Lib.Bytes
import Mathlib.Data.BitVec
import Mathlib.Data.List.GetD

/-!
# Memory of bytes

Numbers in a memory of bytes with addresses of 64 bits, the least significant byte first. What
is stored is loaded again, and a store leaves the bytes at other addresses alone.
-/

namespace EzPacker

open List BitVec

abbrev ByteMemory := BitVec 64 → UInt8

namespace ByteMemory

/-- The distance of an address behind another one. -/
def behind (addr base : BitVec 64) : ℕ := (addr - base).toNat

def load (mem : ByteMemory) (addr : BitVec 64) (size : ℕ) : ℕ :=
  leNat ((List.range size).map fun i => mem (addr + BitVec.ofNat 64 i))

def store (mem : ByteMemory) (addr : BitVec 64) (size value : ℕ) : ByteMemory := fun a =>
  if behind a addr < size then (leBytes size value).getD (behind a addr) 0 else mem a

def fill (mem : ByteMemory) (addr : BitVec 64) (size : ℕ) (byte : UInt8) : ByteMemory := fun a =>
  if behind a addr < size then byte else mem a

/-- The bytes of an object. -/
def bytes (mem : ByteMemory) (addr : BitVec 64) (size : ℕ) : List UInt8 :=
  (List.range size).map fun i => mem (addr + BitVec.ofNat 64 i)

variable {mem : ByteMemory} {addr : BitVec 64} {size value i : ℕ}

theorem behind_add (hi : i < 2 ^ 64) : behind (addr + BitVec.ofNat 64 i) addr = i := by
  unfold behind
  rw [add_comm, add_sub_cancel, toNat_ofNat, Nat.mod_eq_of_lt hi]

theorem eq_add_behind (a addr : BitVec 64) : a = addr + BitVec.ofNat 64 (behind a addr) := by
  unfold behind
  rw [ofNat_toNat, setWidth_eq, add_comm, sub_add_cancel]

theorem store_of_le {a : BitVec 64} (h : size ≤ behind a addr) :
    store mem addr size value a = mem a := if_neg (Nat.not_lt.mpr h)

theorem store_of_lt {a : BitVec 64} (h : behind a addr < size) :
    store mem addr size value a = (leBytes size value).getD (behind a addr) 0 := if_pos h

theorem bytes_congr {mem' : ByteMemory} {addr' : BitVec 64}
    (h : ∀ i < size, mem (addr + BitVec.ofNat 64 i) = mem' (addr' + BitVec.ofNat 64 i)) :
    bytes mem addr size = bytes mem' addr' size :=
  map_congr_left fun i hi => h i (mem_range.mp hi)

theorem load_lt (mem : ByteMemory) (addr : BitVec 64) (size : ℕ) :
    load mem addr size < 256 ^ size := by
  have hlt := leNat_lt ((List.range size).map fun i => mem (addr + BitVec.ofNat 64 i))
  rwa [List.length_map, List.length_range] at hlt

/-- What is stored is loaded again, cut to its bytes. -/
theorem load_store (hsize : size ≤ 2 ^ 64) :
    load (store mem addr size value) addr size = value % 256 ^ size := by
  have hbytes : ((List.range size).map fun i =>
      store mem addr size value (addr + BitVec.ofNat 64 i)) = leBytes size value := by
    refine List.ext_getElem (by simp) fun i hi hi' => ?_
    have hlt : i < size := by simpa using hi
    have hbehind : behind (addr + BitVec.ofNat 64 i) addr = i := behind_add (by omega)
    rw [List.getElem_map, List.getElem_range, store_of_lt (by rw [hbehind]; exact hlt), hbehind,
      List.getD_eq_getElem _ _ hi']
  unfold load
  rw [hbytes, leNat_leBytes]

/-- A byte of the number in memory. -/
theorem load_byte (hi : i < size) :
    load mem addr size / 256 ^ i % 256 = (mem (addr + BitVec.ofNat 64 i)).toNat := by
  unfold load
  rw [leNat_div_mod, getElem?_map, getElem?_range hi]
  rfl

theorem store_byte (hi : i < size) (hsize : size ≤ 2 ^ 64) :
    (store mem addr size value (addr + BitVec.ofNat 64 i)).toNat = value / 256 ^ i % 256 := by
  have hload : load (store mem addr size value) addr size = value % 256 ^ size := load_store hsize
  rw [← load_byte hi, hload]
  obtain ⟨k, rfl⟩ := Nat.exists_eq_add_of_lt hi
  rw [show i + k + 1 = i + (k + 1) by omega, pow_add, Nat.mod_mul_right_div_self,
    Nat.mod_mod_of_dvd _ (dvd_pow_self 256 (Nat.succ_ne_zero k))]

theorem store_zero {n : ℕ} : store mem addr n 0 = fill mem addr n 0 := by
  funext a
  unfold store fill
  have hzero : ∀ n i, (leBytes n 0).getD i 0 = 0 := by
    intro n
    induction n with
    | zero => exact fun i => rfl
    | succ n ih =>
      intro i
      cases i with
      | zero => rfl
      | succ i => exact ih i
  rw [hzero]

theorem fill_zero (mem : ByteMemory) (addr : BitVec 64) (byte : UInt8) :
    fill mem addr 0 byte = mem := funext fun _ => if_neg (Nat.not_lt_zero _)

theorem fill_fill {byte : UInt8} {n : ℕ} (h : size + n ≤ 2 ^ 64) :
    fill (fill mem addr size byte) (addr + BitVec.ofNat 64 size) n byte =
      fill mem addr (size + n) byte := by
  funext a
  have hbehind : behind a (addr + BitVec.ofNat 64 size) =
      (2 ^ 64 - size % 2 ^ 64 + behind a addr) % 2 ^ 64 := by
    unfold behind
    rw [← BitVec.sub_sub, BitVec.toNat_sub, BitVec.toNat_ofNat]
  have hlt : behind a addr < 2 ^ 64 := isLt _
  unfold fill
  rw [hbehind]
  split_ifs <;> first | rfl | omega

/-! ## Copies -/

/-- An object has the bytes of another one, and no other byte has changed. -/
def Copied (mem mem' : ByteMemory) (dest source : BitVec 64) (size : ℕ) : Prop :=
  (∀ i < size, mem' (dest + BitVec.ofNat 64 i) = mem (source + BitVec.ofNat 64 i)) ∧
    ∀ a, size ≤ behind a dest → mem' a = mem a

/-- The bytes of a number are those of the source as far as they are stored, and those behind the
object are there already. -/
def Holds (mem : ByteMemory) (dest source : BitVec 64) (size stored value : ℕ) : Prop :=
  (∀ i < size, (mem (source + BitVec.ofNat 64 i)).toNat =
    if i < stored then value / 256 ^ i % 256 else (mem (dest + BitVec.ofNat 64 i)).toNat) ∧
    ∀ i, size ≤ i → i < stored → (mem (dest + BitVec.ofNat 64 i)).toNat = value / 256 ^ i % 256

/-- The store of a number copies an object where the number happens to have its bytes. -/
theorem copied_store_iff {dest source : BitVec 64} {stored : ℕ} (hstored : stored ≤ 2 ^ 64)
    (hsize : size ≤ 2 ^ 64) :
    Copied mem (store mem dest stored value) dest source size ↔
      Holds mem dest source size stored value := by
  have hbyte (i : ℕ) (hi : i < 2 ^ 64) :
      (store mem dest stored value (dest + BitVec.ofNat 64 i)).toNat =
        if i < stored then value / 256 ^ i % 256 else (mem (dest + BitVec.ofNat 64 i)).toNat := by
    split_ifs with hlt
    · exact store_byte hlt hstored
    · rw [store_of_le (by rw [behind_add hi]; omega)]
  unfold Copied Holds
  constructor
  · rintro ⟨hcopy, hsame⟩
    refine ⟨fun i hi => ?_, fun i hle hlt => ?_⟩
    · rw [← hcopy i hi, hbyte i (by omega)]
    · have hbehind : size ≤ behind (dest + BitVec.ofNat 64 i) dest := by
        rw [behind_add (by omega)]
        exact hle
      rw [← hsame _ hbehind, hbyte i (by omega), if_pos hlt]
  · rintro ⟨hcopy, hsame⟩
    refine ⟨fun i hi => UInt8.toNat_inj.mp ?_, fun a ha => ?_⟩
    · rw [hbyte i (by omega), hcopy i hi]
    · rcases Nat.lt_or_ge (behind a dest) stored with hlt | hge
      · have hstore := hbyte (behind a dest) (by omega)
        rw [← eq_add_behind, if_pos hlt] at hstore
        have hold := hsame (behind a dest) ha hlt
        rw [← eq_add_behind] at hold
        exact UInt8.toNat_inj.mp (hstore.trans hold.symm)
      · exact store_of_le hge

end ByteMemory

end EzPacker
