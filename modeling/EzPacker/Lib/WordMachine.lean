import EzPacker.Lib.Bytes
import Mathlib.Data.BitVec

/-!
# A machine of 64-bit registers and bytes

Registers of any kind `ρ` hold 64-bit words, memory holds bytes, and an address is
a word: address arithmetic wraps. Words are loaded and stored in little-endian
order, at any address. A place in memory is written `base + ofInt e`, with the
displacement `e` an integer, so that facts about places are facts about integers
as long as the displacements stay within one turn of the address space.
-/

namespace EzPacker

open List BitVec

structure WordMachine (ρ : Type*) where
  regs : ρ → BitVec 64
  mem : BitVec 64 → UInt8

namespace WordMachine

variable {ρ : Type*}

/-- The address at the displacement `e` from `base`. -/
def disp (base : BitVec 64) (e : ℤ) : BitVec 64 := base + BitVec.ofInt 64 e

@[simp] theorem disp_zero (base : BitVec 64) : disp base 0 = base := by
  simp [disp]

@[simp] theorem disp_disp (base : BitVec 64) (d e : ℤ) :
    disp (disp base d) e = disp base (d + e) := by
  rw [disp, disp, disp, ofInt_add, add_assoc]

theorem sub_ofNat (base : BitVec 64) (n : ℕ) : base - BitVec.ofNat 64 n = disp base (-(n : ℤ)) := by
  rw [disp, ofInt_neg, ofInt_natCast, sub_eq_add_neg]

theorem add_ofNat (base : BitVec 64) (n : ℕ) : base + BitVec.ofNat 64 n = disp base n := by
  rw [disp, ofInt_natCast]

/-- Displacements less than a turn apart name different addresses. -/
theorem disp_inj {base : BitVec 64} {d e : ℤ} (h : disp base d = disp base e)
    (hlt : |d - e| < 2 ^ 64) : d = e := by
  have hofInt : BitVec.ofInt 64 d = BitVec.ofInt 64 e := by
    simpa [disp] using h
  have htoNat := congrArg (fun b : BitVec 64 => (b.toNat : ℤ)) hofInt
  simp only [BitVec.toNat_ofInt] at htoNat
  rw [abs_lt] at hlt
  omega

def setReg [DecidableEq ρ] (r : ρ) (v : BitVec 64) (m : WordMachine ρ) : WordMachine ρ :=
  { m with regs := fun r' => if r' = r then v else m.regs r' }

def loadBytes (m : WordMachine ρ) (a : BitVec 64) : List UInt8 :=
  (range 8).map fun i : ℕ => m.mem (disp a i)

def load (m : WordMachine ρ) (a : BitVec 64) : BitVec 64 :=
  BitVec.ofNat 64 (leNat (m.loadBytes a))

def store (a v : BitVec 64) (m : WordMachine ρ) : WordMachine ρ :=
  { m with mem := fun b =>
      if (b - a).toNat < 8 then (leBytes 8 v.toNat).getD (b - a).toNat 0
      else m.mem b }

section

variable [DecidableEq ρ]

@[simp] theorem setReg_regs_self (r : ρ) (v : BitVec 64) (m : WordMachine ρ) :
    (m.setReg r v).regs r = v := by simp [setReg]

theorem setReg_regs_of_ne {r r' : ρ} (h : r' ≠ r) (v : BitVec 64)
    (m : WordMachine ρ) : (m.setReg r v).regs r' = m.regs r' := by simp [setReg, h]

@[simp] theorem setReg_mem (r : ρ) (v : BitVec 64) (m : WordMachine ρ) :
    (m.setReg r v).mem = m.mem := rfl

@[simp] theorem setReg_load (r : ρ) (v : BitVec 64) (m : WordMachine ρ)
    (a : BitVec 64) : (m.setReg r v).load a = m.load a := rfl

@[simp] theorem setReg_self (r : ρ) (m : WordMachine ρ) : m.setReg r (m.regs r) = m := by
  simp only [setReg]
  congr
  funext r'
  split
  · next h => rw [h]
  · rfl

@[simp] theorem setReg_setReg (r : ρ) (v w : BitVec 64) (m : WordMachine ρ) :
    (m.setReg r v).setReg r w = m.setReg r w := by
  simp only [setReg]
  congr
  funext r'
  split <;> rfl

end

@[simp] theorem store_regs (a v : BitVec 64) (m : WordMachine ρ) :
    (m.store a v).regs = m.regs := rfl

theorem toNat_disp_sub {a : BitVec 64} {i : ℕ} (h : i < 2 ^ 64) : (disp a i - a).toNat = i := by
  rw [← add_ofNat, add_comm, add_sub_cancel, toNat_ofNat, Nat.mod_eq_of_lt h]

/-- A load sees the eight bytes from its address on and nothing else. -/
theorem load_congr {m m' : WordMachine ρ} {a : BitVec 64}
    (h : ∀ i : ℕ, i < 8 → m.mem (disp a i) = m'.mem (disp a i)) :
    m.load a = m'.load a := by
  have hbytes : m.loadBytes a = m'.loadBytes a :=
    map_congr_left fun i hi => h i (mem_range.mp hi)
  rw [load, load, hbytes]

theorem load_store_self (a v : BitVec 64) (m : WordMachine ρ) : (m.store a v).load a = v := by
  have hbytes : (m.store a v).loadBytes a = leBytes 8 v.toNat := by
    apply List.ext_getElem (by simp [loadBytes])
    intro i hi hi'
    have hlt : i < 8 := by simpa using hi'
    have hsub : (disp a i - a).toNat = i := toNat_disp_sub (by omega)
    simp only [loadBytes, List.getElem_map, List.getElem_range, store, hsub, hlt,
      if_true, List.getD_eq_getElem?_getD, List.getElem?_eq_getElem hi',
      Option.getD_some]
  rw [load, hbytes, leNat_leBytes_of_lt (by simpa using v.isLt)]
  simp

/-- A store leaves every byte that is not one of its eight. -/
theorem store_mem_of_ne {a v b : BitVec 64} {m : WordMachine ρ}
    (h : ∀ i : ℕ, i < 8 → b ≠ disp a i) : (m.store a v).mem b = m.mem b := by
  have hge : ¬ (b - a).toNat < 8 := by
    intro hlt
    apply h _ hlt
    rw [← add_ofNat, ofNat_toNat, setWidth_eq, add_comm, sub_add_cancel]
  simp only [store, hge, if_false]

/-- A store leaves every byte whose displacement is not among its eight. -/
theorem store_mem_disp {base v : BitVec 64} {d e : ℤ} {m : WordMachine ρ}
    (h : e < d ∨ d + 8 ≤ e) (hlt : |e - d| < 2 ^ 63) :
    (m.store (disp base d) v).mem (disp base e) = m.mem (disp base e) := by
  apply store_mem_of_ne
  intro i hi hcontra
  rw [disp_disp] at hcontra
  rw [abs_lt] at hlt
  have heq := disp_inj hcontra (by rw [abs_lt]; omega)
  omega

end WordMachine

end EzPacker

/-!
## Saving registers on a stack

A slot pair of size `k` saves one register in the `k` bytes under the stack pointer
and takes it back: what a save writes lies in its slot, and a restore that finds
the slot as the save left it gives the register its value and the stack pointer its
place. A list of registers saved in order is restored in the opposite order, by any
machine that still has the stack pointer and the bytes of the area. The stack
pointer may itself be among the registers.
-/

namespace EzPacker

open WordMachine (disp)

/-- One register saved below the stack pointer `sp`, and taken back. -/
structure SlotPair (ρ : Type*) [DecidableEq ρ] (sp : ρ) where
  size : ℕ
  save : ρ → WordMachine ρ → WordMachine ρ
  restore : ρ → WordMachine ρ → WordMachine ρ
  save_sp : ∀ r m, (save r m).regs sp = disp (m.regs sp) (-size)
  save_regs : ∀ r m r', r' ≠ sp → (save r m).regs r' = m.regs r'
  save_mem : ∀ r m (e : ℤ), (e < -size ∨ 0 ≤ e) → |e| < 2 ^ 62 →
    (save r m).mem (disp (m.regs sp) e) = m.mem (disp (m.regs sp) e)
  restore_mem : ∀ r m, (restore r m).mem = m.mem
  restore_regs : ∀ r m r', r' ≠ sp → r' ≠ r → (restore r m).regs r' = m.regs r'
  /-- The restore of a register from the slot its save has left. -/
  restore_save : ∀ r m m', m'.regs sp = (save r m).regs sp → (∀ e : ℤ, -size ≤ e → e < 0 →
      m'.mem (disp (m.regs sp) e) = (save r m).mem (disp (m.regs sp) e)) →
    (restore r m').regs sp = m.regs sp ∧ (r ≠ sp → (restore r m').regs r = m.regs r)

namespace SlotPair

variable {ρ : Type*} [DecidableEq ρ] {sp : ρ} (p : SlotPair ρ sp)

def saveAll (rs : List ρ) (m : WordMachine ρ) : WordMachine ρ :=
  rs.foldl (fun m r => p.save r m) m

/-- Takes the registers back in the order opposite to `rs`. -/
def restoreAll (rs : List ρ) (m : WordMachine ρ) : WordMachine ρ :=
  rs.reverse.foldl (fun m r => p.restore r m) m

@[simp] theorem saveAll_cons (r : ρ) (rs : List ρ) (m : WordMachine ρ) :
    p.saveAll (r :: rs) m = p.saveAll rs (p.save r m) := rfl

@[simp] theorem restoreAll_cons (r : ρ) (rs : List ρ) (m : WordMachine ρ) :
    p.restoreAll (r :: rs) m = p.restore r (p.restoreAll rs m) := by
  simp [restoreAll]

theorem saveAll_sp (rs : List ρ) (m : WordMachine ρ) :
    (p.saveAll rs m).regs sp = disp (m.regs sp) (-(p.size * rs.length : ℕ)) := by
  induction rs generalizing m with
  | nil => simp [saveAll]
  | cons r rs ih =>
    rw [saveAll_cons, ih, p.save_sp, WordMachine.disp_disp]
    congr 1
    push_cast [List.length_cons]
    ring

theorem saveAll_regs (rs : List ρ) (m : WordMachine ρ) {r : ρ} (hr : r ≠ sp) :
    (p.saveAll rs m).regs r = m.regs r := by
  induction rs generalizing m with
  | nil => rfl
  | cons r' rs ih => rw [saveAll_cons, ih, p.save_regs r' m r hr]

/-- The saves leave the bytes above the stack pointer and those below the area. -/
theorem saveAll_mem (rs : List ρ) (m : WordMachine ρ) {e : ℤ}
    (he : e < -(p.size * rs.length : ℕ) ∨ 0 ≤ e)
    (hlt : |e| + (p.size * rs.length : ℕ) < 2 ^ 62) :
    (p.saveAll rs m).mem (disp (m.regs sp) e) = m.mem (disp (m.regs sp) e) := by
  induction rs generalizing m e with
  | nil => rfl
  | cons r rs ih =>
    rw [List.length_cons, Nat.mul_add, mul_one] at he hlt
    have hplace : disp (m.regs sp) e = disp ((p.save r m).regs sp) (e + p.size) := by
      rw [p.save_sp, WordMachine.disp_disp]
      congr 1
      ring
    have habs : |e + p.size| ≤ |e| + p.size := by
      simpa using abs_add_le e (p.size : ℤ)
    generalize hn : p.size * rs.length = n at he hlt ih
    have hhead := p.save_mem r m e (by omega) (by omega)
    rw [saveAll_cons, hplace, ih _ (by omega) (by omega), ← hplace, hhead]

theorem restoreAll_saveAll (rs : List ρ) (m m' : WordMachine ρ)
    (hsp : m'.regs sp = (p.saveAll rs m).regs sp)
    (hmem : ∀ e : ℤ, -(p.size * rs.length : ℕ) ≤ e → e < 0 →
      m'.mem (disp (m.regs sp) e) = (p.saveAll rs m).mem (disp (m.regs sp) e))
    (hsize : p.size * rs.length < 2 ^ 60) :
    (p.restoreAll rs m').regs sp = m.regs sp ∧ (p.restoreAll rs m').mem = m'.mem ∧
      (∀ r ∈ rs, r ≠ sp → (p.restoreAll rs m').regs r = m.regs r) ∧
      ∀ r ∉ rs, r ≠ sp → (p.restoreAll rs m').regs r = m'.regs r := by
  induction rs generalizing m with
  | nil => exact ⟨by simpa [saveAll, restoreAll] using hsp, rfl, by simp, fun _ _ _ => rfl⟩
  | cons r rs ih =>
    have hplace : ∀ e : ℤ, disp ((p.save r m).regs sp) e = disp (m.regs sp) (e - p.size) := by
      intro e
      rw [p.save_sp, WordMachine.disp_disp]
      congr 1
      ring
    rw [List.length_cons, Nat.mul_add, mul_one] at hmem hsize
    obtain ⟨hsp', hmem', hin, hout⟩ := ih (p.save r m) hsp
      (fun e hlo hhi => by
        rw [hplace]
        exact hmem _ (by omega) (by omega)) (by omega)
    have hslot : ∀ e : ℤ, -p.size ≤ e → e < 0 → (p.restoreAll rs m').mem (disp (m.regs sp) e) =
          (p.save r m).mem (disp (m.regs sp) e) := by
      intro e hlo hhi
      have habs : |e + p.size| = e + p.size := abs_of_nonneg (by omega)
      have hkeep : (p.saveAll rs (p.save r m)).mem (disp ((p.save r m).regs sp) (e + p.size)) = _ :=
        p.saveAll_mem rs (p.save r m) (by omega) (by omega)
      rw [hplace, add_sub_cancel_right] at hkeep
      rw [hmem', hmem e (by omega) hhi, saveAll_cons, hkeep]
    obtain ⟨hback, hreg⟩ := p.restore_save r m (p.restoreAll rs m') hsp' hslot
    rw [restoreAll_cons]
    refine ⟨hback, (p.restore_mem r _).trans hmem', ?_, ?_⟩
    · intro r' hr' hne
      rcases eq_or_ne r' r with rfl | hrr
      · exact hreg hne
      · have htail : r' ∈ rs := (List.mem_cons.mp hr').resolve_left hrr
        rw [p.restore_regs r _ r' hne hrr, hin r' htail hne, p.save_regs r m r' hne]
    · intro r' hr' hne
      have hrr : r' ≠ r := fun h => hr' (h ▸ List.mem_cons_self)
      rw [p.restore_regs r _ r' hne hrr]
      exact hout r' (fun h => hr' (List.mem_cons_of_mem r h)) hne

end SlotPair

end EzPacker
