import Mathlib.Data.List.Basic
import Mathlib.Data.Nat.Bitwise

/-!
# Bit fields of a memory

The bits of a memory of octets are counted from the highest bit of the first octet on, as in
network protocols.  A field is a run of such bits, read as a number whose first bit is the
highest one; it need not begin or end with an octet.
-/

namespace Rooter.BitField

def bit (m : Nat → UInt8) (j : Nat) : Bool := (m (j / 8)).toNat.testBit (7 - j % 8)

def field (m : Nat → UInt8) (i : Nat) : Nat → Nat
  | 0 => 0
  | n + 1 => 2 * field m i n + (bit m (i + n)).toNat

def octets (size v : Nat) : Nat → UInt8 := fun k =>
  if k < size then UInt8.ofNat (v / 2 ^ (8 * (size - 1 - k))) else 0

variable {m m' : Nat → UInt8} {i i' n : Nat}

theorem field_lt (m : Nat → UInt8) (i n : Nat) : field m i n < 2 ^ n := by
  induction n with
  | zero => simp [field]
  | succ n ih =>
    have hbit : (bit m (i + n)).toNat ≤ 1 := Bool.toNat_le _
    rw [field]
    omega

theorem testBit_field (m : Nat → UInt8) (i n k : Nat) :
    (field m i n).testBit k = (decide (k < n) && bit m (i + (n - 1 - k))) := by
  induction n generalizing k with
  | zero => simp [field]
  | succ n ih =>
    rw [field]
    cases k with
    | zero =>
      have hparity : (2 * field m i n + (bit m (i + n)).toNat) % 2 = (bit m (i + n)).toNat := by
        have hbit : (bit m (i + n)).toNat ≤ 1 := Bool.toNat_le _
        omega
      cases hbit : bit m (i + n) <;> simp [hbit]
    | succ k =>
      have hhalf : (2 * field m i n + (bit m (i + n)).toNat) / 2 = field m i n := by
        have hbit : (bit m (i + n)).toNat ≤ 1 := Bool.toNat_le _
        omega
      rw [Nat.testBit_succ, hhalf, ih, show n + 1 - 1 - (k + 1) = n - 1 - k by omega]
      simp

theorem field_add (m : Nat → UInt8) (i a b : Nat) :
    field m i (a + b) = field m i a * 2 ^ b + field m (i + a) b := by
  induction b with
  | zero => simp [field]
  | succ b ih =>
    rw [← Nat.add_assoc, field, field, ih, Nat.pow_succ', Nat.add_assoc i a b, Nat.mul_add,
      Nat.mul_left_comm, Nat.add_assoc]

theorem field_congr (h : ∀ j < n, bit m (i + j) = bit m' (i' + j)) :
    field m i n = field m' i' n := by
  induction n with
  | zero => rfl
  | succ n ih =>
    rw [field, field, h n (by omega), ih fun j hj => h j (by omega)]

theorem field_split {a b x y : Nat} (h : field m i (a + b) = x * 2 ^ b + y) (hy : y < 2 ^ b) :
    field m i a = x ∧ field m (i + a) b = y := by
  rw [field_add] at h
  have hlow := congrArg (· % 2 ^ b) h
  have hhigh := congrArg (· / 2 ^ b) h
  simp only [Nat.mul_comm _ (2 ^ b), Nat.mul_add_mod,
    Nat.mod_eq_of_lt (field_lt _ _ _), Nat.mod_eq_of_lt hy] at hlow
  simp only [Nat.mul_comm _ (2 ^ b), Nat.mul_add_div (Nat.two_pow_pos b),
    Nat.div_eq_of_lt (field_lt _ _ _), Nat.div_eq_of_lt hy] at hhigh
  exact ⟨hhigh, hlow⟩

theorem field_eq_zero (h : ∀ j < n, bit m (i + j) = false) : field m i n = 0 := by
  induction n with
  | zero => rfl
  | succ n ih =>
    rw [field, h n (by omega), ih fun j hj => h j (by omega)]
    rfl

/-! ### Numbers in memory -/

theorem bit_octets {size j : Nat} (h : j < 8 * size) (v : Nat) :
    bit (octets size v) j = v.testBit (8 * size - 1 - j) := by
  have hposition : 8 * (size - 1 - j / 8) + (7 - j % 8) = 8 * size - 1 - j := by omega
  have hlow : 7 - j % 8 < 8 := by omega
  rw [bit, octets, if_pos (by omega), UInt8.toNat_ofNat', Nat.testBit_mod_two_pow,
    Nat.testBit_div_two_pow, Nat.add_comm, hposition]
  simp [hlow]

theorem field_octets {size v : Nat} (h : v < 2 ^ (8 * size)) :
    field (octets size v) 0 (8 * size) = v := by
  apply Nat.eq_of_testBit_eq
  intro k
  rw [testBit_field, Nat.zero_add]
  by_cases hk : k < 8 * size
  · rw [bit_octets (by omega), show 8 * size - 1 - (8 * size - 1 - k) = k by omega]
    simp [hk]
  · have hzero : v.testBit k = false :=
      Nat.testBit_lt_two_pow (h.trans_le (Nat.pow_le_pow_right (by decide) (by omega)))
    simp [hk, hzero]

end Rooter.BitField
