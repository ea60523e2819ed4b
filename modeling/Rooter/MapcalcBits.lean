import Rooter.Mapcalc

/-!
# Bit strings

The functions of `mapcalc.c` that compare and copy bits are described by the bits they look at and
move, whatever the alignment.
-/

namespace Rooter.Mapcalc

open List BitField Memory

/-! ### The bits that are compared -/

theorem shiftRight_eq_iff (a b : UInt8) (n : Nat) : a.toNat >>> n = b.toNat >>> n ↔
    ∀ i < 8, n ≤ i → a.toNat.testBit i = b.toNat.testBit i := by
  constructor
  · intro h i _ hi
    have hbit := congrArg (Nat.testBit · (i - n)) h
    simpa only [Nat.testBit_shiftRight, Nat.add_sub_cancel' hi] using hbit
  · intro h
    apply Nat.eq_of_testBit_eq
    intro i
    rw [Nat.testBit_shiftRight, Nat.testBit_shiftRight]
    by_cases hi : n + i < 8
    · exact h _ hi (by omega)
    · have hzero : ∀ x : UInt8, x.toNat.testBit (n + i) = false := fun x =>
        Nat.testBit_lt_two_pow (x.toNat_lt.trans_le (Nat.pow_le_pow_right (by decide) (by omega)))
      rw [hzero, hzero]

theorem bit_of_octet (a : Octets) (k : Nat) {i : Nat} (hi : i < 8) :
    bit a (8 * k + (7 - i)) = (a k).toNat.testBit i := by
  unfold bit
  rw [show (8 * k + (7 - i)) / 8 = k by omega, show 7 - (8 * k + (7 - i)) % 8 = i by omega]

theorem bmemcmp_iff (a b : Octets) (n : Nat) :
    bmemcmp a b n = true ↔ ∀ j < n, bit a j = bit b j := by
  have hwhole : ∀ k, a k = b k ↔ ∀ i < 8, (a k).toNat.testBit i = (b k).toNat.testBit i := by
    intro k
    rw [← UInt8.toNat_inj]
    simpa using shiftRight_eq_iff (a k) (b k) 0
  have hpart : 0 < n % 8 → (a (n / 8) >>> UInt8.ofNat (8 - n % 8) =
      b (n / 8) >>> UInt8.ofNat (8 - n % 8) ↔ ∀ i < 8, 8 - n % 8 ≤ i →
        (a (n / 8)).toNat.testBit i = (b (n / 8)).toNat.testBit i) := by
    intro hpos
    have hshift : (UInt8.ofNat (8 - n % 8)).toNat % 8 = 8 - n % 8 := by
      rw [UInt8.toNat_ofNat']
      omega
    rw [← UInt8.toNat_inj, UInt8.toNat_shiftRight, UInt8.toNat_shiftRight, hshift,
      shiftRight_eq_iff]
  unfold bmemcmp
  rw [Bool.and_eq_true, all_eq_true, Bool.or_eq_true, beq_iff_eq, beq_iff_eq]
  constructor
  · rintro ⟨hbytes, hlast⟩ j hj
    unfold bit
    by_cases hk : j / 8 < n / 8
    · rw [eq_of_beq (hbytes _ (mem_range.mpr hk))]
    · rw [show j / 8 = n / 8 by omega]
      exact (hpart (by omega)).mp (hlast.resolve_left (by omega)) _ (by omega) (by omega)
  · intro h
    refine ⟨fun k hk => beq_iff_eq.mpr ((hwhole k).mpr fun i hi => ?_), ?_⟩
    · have hlt := mem_range.mp hk
      rw [← bit_of_octet a k hi, ← bit_of_octet b k hi]
      exact h _ (by omega)
    · refine (Nat.eq_zero_or_pos (n % 8)).imp_right fun hpos => (hpart hpos).mpr fun i hi hle => ?_
      rw [← bit_of_octet a _ hi, ← bit_of_octet b _ hi]
      exact h _ (by omega)

/-! ### The bits that are copied -/

theorem testBit_mask : ∀ r < 8, ∀ i < 8, 0 < r →
    (1 <<< UInt8.ofNat (8 - r) - 1 : UInt8).toNat.testBit i = decide (i < 8 - r) ∧
    (~~~(1 <<< UInt8.ofNat (8 - r) - 1 : UInt8)).toNat.testBit i = decide (8 - r ≤ i) := by
  decide

theorem bit_bmemcpy (a b : Octets) (n j : Nat) :
    bit (bmemcpy a b n) j = if j < n then bit b j else bit a j := by
  unfold bit bmemcpy
  split
  · rw [if_pos (by omega)]
  · by_cases hpart : j / 8 = n / 8 ∧ 0 < n % 8
    · obtain ⟨hmask, hmask'⟩ := testBit_mask (n % 8) (Nat.mod_lt _ (by decide)) (7 - j % 8)
        (by omega) hpart.2
      rw [if_pos hpart, UInt8.toNat_or, UInt8.toNat_and, UInt8.toNat_and, Nat.testBit_or,
        Nat.testBit_and, Nat.testBit_and, hmask, hmask']
      by_cases hj : j < n
      · have hlow : ¬ 7 - j % 8 < 8 - n % 8 := by omega
        have hhigh : 8 - n % 8 ≤ 7 - j % 8 := by omega
        simp [hj, hhigh]
      · have hlow : 7 - j % 8 < 8 - n % 8 := by omega
        have hhigh : ¬ 8 - n % 8 ≤ 7 - j % 8 := by omega
        simp [hj, hlow, hhigh]
    · rw [if_neg hpart, if_neg (by omega)]

theorem bit_bmemcpys64 {length size start n : Nat} (a b : Octets) (hend : (start + n) / 8 < length)
    (hsize : n ≤ 8 * size) (hn : start % 8 + n < 64) :
    ∃ a', bmemcpys64 length size a b start n = some a' ∧
      ∀ j, bit a' j = if j < n then bit b (start + j) else bit a j := by
  have hguard : ¬ (8 < (start + n) / 8 - start / 8 + 1 ∨ length ≤ (start + n) / 8 ∨
      8 * size < n) := by omega
  refine ⟨_, by rw [bmemcpys64, if_neg hguard], ?_⟩
  intro j
  rw [bit_bmemcpy]
  by_cases hj : j < n
  · rw [if_pos hj, if_pos hj, bit_octets (by omega), Nat.testBit_mod_two_pow,
      Nat.testBit_shiftLeft, testBit_field]
    have hshift : start % 8 ≤ 8 * 8 - 1 - j := by omega
    have hlow : 8 * 8 - 1 - j < 64 := by omega
    have hbit : 8 * 8 - 1 - j - start % 8 < 64 := by omega
    have hposition : 64 - 1 - (8 * 8 - 1 - j - start % 8) = j + start % 8 := by omega
    -- the bit lies in one of the octets that were copied into the buffer
    have hoctet : store zeros 0 (load b (start / 8) ((start + n) / 8 - start / 8 + 1))
        ((j + start % 8) / 8) = b (start / 8 + (j + start % 8) / 8) := by
      have hload : (load b (start / 8) ((start + n) / 8 - start / 8 + 1))[(j + start % 8) / 8]?
          = some (b (start / 8 + (j + start % 8) / 8)) := getElem?_load (by omega)
      conv_lhs => rw [← Nat.zero_add ((j + start % 8) / 8)]
      exact store_in hload
    rw [hposition, Nat.zero_add, bit, hoctet, bit]
    have hdiv : start / 8 + (j + start % 8) / 8 = (start + j) / 8 := by omega
    have hmod : (j + start % 8) % 8 = (start + j) % 8 := by omega
    simp [hshift, hlow, hbit, hdiv, hmod]
  · rw [if_neg hj, if_neg hj]

/-- **The bit strings are compared and copied exactly**, unless the range ends with the 64th bit
    from its first octet on. -/
theorem bitStrings_exact_iff (a b : Octets) {length size start n : Nat}
    (hrange : start % 8 + n ≤ 64) (hend : (start + n) / 8 < length) (hsize : n ≤ 8 * size) :
    ((∀ k, bmemcmp a b k = true ↔ ∀ j < k, bit a j = bit b j) ∧
      (∀ k j, bit (bmemcpy a b k) j = if j < k then bit b j else bit a j) ∧
      ∃ a', bmemcpys64 length size a b start n = some a' ∧
        ∀ j, bit a' j = if j < n then bit b (start + j) else bit a j) ↔
      start % 8 + n ≠ 64 := by
  constructor
  · rintro ⟨-, -, a', hcopy, -⟩ hlast
    rw [bmemcpys64, if_pos (by omega)] at hcopy
    cases hcopy
  · intro hlast
    exact ⟨bmemcmp_iff a b, bit_bmemcpy a b, bit_bmemcpys64 a b hend hsize (by omega)⟩

theorem bitStrings_exact_byte :
    ∃ a', bmemcpys64 16 4 zeros (octets 16 1) 119 8 = some a' ∧
      ∀ j, bit a' j = if j < 8 then bit (octets 16 1) (119 + j) else bit zeros j :=
  ((bitStrings_exact_iff zeros (octets 16 1) (by decide) (by decide) (by decide)).mpr
    (by decide)).2.2

/-- **A range of eight octets**: nine octets are copied into the buffer. -/
theorem not_bitStrings_exact : bmemcpys64 16 8 zeros zeros 0 64 = none := by decide

end Rooter.Mapcalc
