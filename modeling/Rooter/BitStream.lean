import Mathlib.Data.List.Basic
import Mathlib.Data.Nat.Bitwise

/-!
# Numbers as bit lists

The lowest bit comes first.  A stream of numbers of one width is the bit list of its
members one after the other, so that the same stream can be cut into numbers of
another width.
-/

namespace Rooter.BitStream

open List

def bitsOf (w n : Nat) : List Bool := (range w).map n.testBit

def ofBits : List Bool → Nat
  | [] => 0
  | b :: bs => b.toNat + 2 * ofBits bs

@[simp] theorem length_bitsOf (w n : Nat) : (bitsOf w n).length = w := by simp [bitsOf]

theorem getElem?_bitsOf {w n i : Nat} (h : i < w) : (bitsOf w n)[i]? = some (n.testBit i) := by
  simp [bitsOf, h]

theorem ofBits_lt (bs : List Bool) : ofBits bs < 2 ^ bs.length := by
  induction bs with
  | nil => exact Nat.one_pos
  | cons b bs ih =>
    have hb := Bool.toNat_le b
    rw [ofBits, length_cons]
    omega

theorem testBit_ofBits (bs : List Bool) :
    ∀ i : Nat, (ofBits bs).testBit i = (bs[i]?).getD false := by
  induction bs with
  | nil => intro i; simp [ofBits]
  | cons b bs ih =>
    intro i
    have hbit : ofBits (b :: bs) = Nat.bit b (ofBits bs) := by
      rw [ofBits, Nat.bit_val]
      omega
    cases i with
    | zero => rw [hbit]; simp
    | succ i => rw [hbit, Nat.testBit_bit_succ, ih]; simp

theorem ofBits_bitsOf {w n : Nat} (h : n < 2 ^ w) : ofBits (bitsOf w n) = n := by
  refine Nat.eq_of_testBit_eq fun i => ?_
  rw [testBit_ofBits]
  by_cases hi : i < w
  · rw [getElem?_bitsOf hi]
    rfl
  · have hhigh : n.testBit i = false :=
      Nat.testBit_lt_two_pow (h.trans_le (Nat.pow_le_pow_right (by decide) (by omega)))
    rw [getElem?_eq_none (by simpa using hi), hhigh]
    rfl

theorem bitsOf_congr {w m n : Nat} (h : ∀ i < w, m.testBit i = n.testBit i) :
    bitsOf w m = bitsOf w n :=
  map_congr_left fun i hi => h i (mem_range.mp hi)

theorem bitsOf_add (v w n : Nat) : bitsOf (v + w) n = bitsOf v n ++ bitsOf w (n / 2 ^ v) := by
  simp only [bitsOf, range_add, map_append, map_map]
  congr 1
  refine map_congr_left fun i _ => ?_
  simp [Nat.testBit_div_two_pow, Nat.add_comm]

theorem bitsOf_zero (w : Nat) : bitsOf w 0 = replicate w false := by
  refine eq_replicate_iff.mpr ⟨length_bitsOf w 0, fun b hb => ?_⟩
  obtain ⟨i, -, rfl⟩ := mem_map.mp hb
  exact Nat.zero_testBit i

theorem bitsOf_of_lt {v n : Nat} (h : n < 2 ^ v) (w : Nat) :
    bitsOf (v + w) n = bitsOf v n ++ replicate w false := by
  rw [bitsOf_add, Nat.div_eq_of_lt h, bitsOf_zero]

theorem length_flatMap_bitsOf (w : Nat) (ns : List Nat) :
    (ns.flatMap (bitsOf w)).length = w * ns.length := by
  induction ns with
  | nil => simp
  | cons n ns ih => simp [ih, Nat.mul_succ, Nat.add_comm]

/-- **Where a bit of the stream comes from.** -/
theorem getElem?_flatMap_bitsOf {w : Nat} (hw : 0 < w) (ns : List Nat) :
    ∀ p : Nat, (ns.flatMap (bitsOf w))[p]? = (ns[p / w]?).map fun n => n.testBit (p % w) := by
  induction ns with
  | nil => intro p; simp
  | cons n ns ih =>
    intro p
    rw [flatMap_cons]
    by_cases hp : p < w
    · rw [getElem?_append_left (by simpa using hp), getElem?_bitsOf hp, Nat.div_eq_of_lt hp,
        Nat.mod_eq_of_lt hp]
      rfl
    · have hle : w ≤ p := Nat.le_of_not_lt hp
      have hdiv : p / w = (p - w) / w + 1 := Nat.div_eq_sub_div hw hle
      have hmod : p % w = (p - w) % w := Nat.mod_eq_sub_mod hle
      rw [getElem?_append_right (by simpa using hle), length_bitsOf, ih, hdiv, hmod,
        getElem?_cons_succ]

end Rooter.BitStream
