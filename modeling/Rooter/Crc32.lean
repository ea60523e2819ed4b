import Mathlib.Data.List.Basic
import Mathlib.Logic.Function.Iterate

/-!
# CRC-32

The register of the reflected CRC of Ethernet is shifted bit by bit (`shift`); an octet is added
to it and shifted out with eight steps, which a table can do at once.  A shift is linear for
exclusive or and can be undone, so the register behind some data tells the one in front of it.
-/

namespace Rooter.Crc32

open List

def poly : BitVec 32 := 0xedb88320#32

def shift (c : BitVec 32) : BitVec 32 := if c.getLsbD 0 then (c >>> 1) ^^^ poly else c >>> 1

def entry (index : BitVec 32) : BitVec 32 := shift^[8] index

def update (c : BitVec 32) (b : UInt8) : BitVec 32 :=
  entry ((c ^^^ b.toBitVec.setWidth 32) &&& 0xff#32) ^^^ (c >>> 8)

def crc (c : BitVec 32) (data : List UInt8) : BitVec 32 := data.foldl update c

/-! ### The shift -/

theorem shift_xor (a b : BitVec 32) : shift (a ^^^ b) = shift a ^^^ shift b := by
  unfold shift
  simp only [BitVec.getLsbD_xor, BitVec.ushiftRight_xor_distrib]
  cases a.getLsbD 0 <;> cases b.getLsbD 0
  · simp
  · simp [BitVec.xor_assoc]
  · simp [BitVec.xor_assoc, BitVec.xor_comm poly]
  · have hcancel : poly ^^^ (b >>> 1 ^^^ poly) = b >>> 1 := by
      rw [BitVec.xor_comm, BitVec.xor_assoc, BitVec.xor_self, BitVec.xor_zero]
    simp [BitVec.xor_assoc, hcancel]

@[simp] theorem shift_zero : shift 0#32 = 0#32 := by decide

theorem shift_eq_zero {c : BitVec 32} (h : shift c = 0#32) : c = 0#32 := by
  have hbit : ∀ i, (shift c).getLsbD i = false := by simp [h]
  have hhigh : (c >>> 1).getLsbD 31 = false := by simp
  have hlow : c.getLsbD 0 = false := by
    by_contra hlow
    have h31 := hbit 31
    rw [shift, if_pos (by simpa using hlow), BitVec.getLsbD_xor, hhigh] at h31
    exact absurd h31 (by decide)
  apply BitVec.eq_of_getLsbD_eq
  intro i hi
  rcases i with _ | i
  · simpa using hlow
  · have hnext := hbit i
    rw [shift, if_neg (Bool.not_eq_true _ ▸ hlow), BitVec.getLsbD_ushiftRight] at hnext
    rw [Nat.add_comm, hnext]
    simp

theorem shift_injective : Function.Injective shift := by
  intro a b h
  have hzero : shift (a ^^^ b) = 0#32 := by rw [shift_xor, h, BitVec.xor_self]
  exact BitVec.xor_eq_zero_iff.mp (shift_eq_zero hzero)

theorem iterate_shift_xor (n : Nat) (a b : BitVec 32) :
    shift^[n] (a ^^^ b) = shift^[n] a ^^^ shift^[n] b := by
  induction n generalizing a b with
  | zero => rfl
  | succ n ih => rw [Function.iterate_succ_apply, shift_xor, ih]; rfl

theorem iterate_shift_of_clear {c : BitVec 32} {n : Nat} (h : ∀ i < n, c.getLsbD i = false) :
    shift^[n] c = c >>> n := by
  induction n with
  | zero => simp
  | succ n ih =>
    have hlow : (c >>> n).getLsbD 0 = false := by simpa using h n (by omega)
    rw [Function.iterate_succ_apply', ih fun i hi => h i (by omega), shift, hlow]
    exact BitVec.shiftRight_add c n 1 |>.symm

/-! ### Octets -/

theorem low_xor_high (x : BitVec 32) : (x &&& 0xff#32) ^^^ (x &&& ~~~0xff#32) = x := by
  ext i
  simp only [BitVec.getElem_xor, BitVec.getElem_and, BitVec.getElem_not]
  cases x[i] <;> cases (0xff#32)[i] <;> rfl

theorem getLsbD_low (i : Nat) : (0xff#32).getLsbD i = decide (i < 8) := by
  rw [BitVec.getLsbD_ofNat, show 0xff = 2 ^ 8 - 1 by rfl, Nat.testBit_two_pow_sub_one]
  by_cases hi : i < 8
  · simp; omega
  · simp [hi]

/-- Eight shifts by the table: those of the low octet, and the others moved down. -/
theorem iterate_shift_eight (c : BitVec 32) :
    shift^[8] c = entry (c &&& 0xff#32) ^^^ (c >>> 8) := by
  have hclear : ∀ i < 8, (c &&& ~~~0xff#32).getLsbD i = false := by
    intro i hi
    rw [BitVec.getLsbD_and, BitVec.getLsbD_not, getLsbD_low]
    simp [hi]
  have hhigh : (c &&& ~~~0xff#32) >>> 8 = c >>> 8 := by
    apply BitVec.eq_of_getLsbD_eq
    intro i _
    rw [BitVec.getLsbD_ushiftRight, BitVec.getLsbD_and, BitVec.getLsbD_not, getLsbD_low]
    by_cases hi : 8 + i < 32
    · simp [hi]
    · simp [BitVec.getLsbD_of_ge c (8 + i) (by omega)]
  calc shift^[8] c = shift^[8] (c &&& 0xff#32 ^^^ c &&& ~~~0xff#32) := by rw [low_xor_high]
    _ = shift^[8] (c &&& 0xff#32) ^^^ shift^[8] (c &&& ~~~0xff#32) := iterate_shift_xor 8 _ _
    _ = entry (c &&& 0xff#32) ^^^ c >>> 8 := by
      rw [iterate_shift_of_clear hclear, hhigh, entry]

theorem update_eq (c : BitVec 32) (b : UInt8) :
    update c b = shift^[8] (c ^^^ b.toBitVec.setWidth 32) := by
  have hb : b.toBitVec.setWidth 32 >>> 8 = 0#32 := by
    apply BitVec.eq_of_getLsbD_eq
    intro i _
    simp
  rw [iterate_shift_eight, BitVec.ushiftRight_xor_distrib, hb, BitVec.xor_zero, update]

theorem update_zero (c : BitVec 32) : update c 0 = shift^[8] c := by
  rw [update_eq]
  congr 1
  exact BitVec.xor_zero

theorem update_inj {a c : BitVec 32} {b : UInt8} : update a b = update c b ↔ a = c := by
  rw [update_eq, update_eq, (shift_injective.iterate 8).eq_iff, BitVec.xor_left_inj]

theorem crc_inj {a c : BitVec 32} {data : List UInt8} : crc a data = crc c data ↔ a = c := by
  induction data generalizing a c with
  | nil => rfl
  | cons b data ih => exact ih.trans update_inj

theorem crc_zeros (c : BitVec 32) (n : Nat) : crc c (replicate n 0) = shift^[8 * n] c := by
  induction n generalizing c with
  | zero => rfl
  | succ n ih =>
    rw [Nat.mul_succ, Function.iterate_add_apply, ← update_zero, ← ih]
    rfl

end Rooter.Crc32
