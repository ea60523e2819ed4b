import Mathlib.Data.FinEnum
import Mathlib.Dynamics.PeriodicPts.Defs
import Mathlib.Tactic.NormNum.Prime
import Rooter.Crc32

/-!
# The period of the CRC-32 register

Zero octets shift the register without adding to it.  The registers stand for the polynomials
modulo `poly`, `one` for the polynomial 1, and a shift multiplies by the indeterminate.  So `n`
shifts of a register are its product with `n` shifts of `one` (`iterate_shift`), which makes the
powers computable by squaring; they show that `one` comes back after `2 ^ 32 - 1` shifts and not
before.  It then runs through all registers but zero, and each of them has this period.
-/

namespace Rooter.Crc32

open Function

def one : BitVec 32 := 0x80000000#32

def period : Nat := 0xffffffff

/-! ### Products -/

/-- The coefficients of `a`, the highest one first, by the rule of Horner. -/
def mulLoop (a b : BitVec 32) : Nat → BitVec 32
  | 0 => 0#32
  | n + 1 => shift (mulLoop a b n) ^^^ if a.getLsbD n then b else 0#32

def mul (a b : BitVec 32) : BitVec 32 := mulLoop a b 32

theorem mulLoop_shift (a b : BitVec 32) (n : Nat) :
    mulLoop a (shift b) n = shift (mulLoop a b n) := by
  induction n with
  | zero => simp [mulLoop]
  | succ n ih =>
    rw [mulLoop, mulLoop, ih, shift_xor]
    split
    · rfl
    · simp

theorem mulLoop_one (a : BitVec 32) {n : Nat} (hn : n ≤ 32) : mulLoop a one n = a <<< (32 - n) := by
  induction n with
  | zero => simp [mulLoop]
  | succ n ih =>
    have hlow : (a <<< (32 - n)).getLsbD 0 = false := by
      simp
      omega
    rw [mulLoop, ih (by omega), shift, if_neg (Bool.not_eq_true _ ▸ hlow)]
    apply BitVec.eq_of_getLsbD_eq
    intro i hi
    have hone : (if a.getLsbD n then one else 0#32).getLsbD i =
        (a.getLsbD n && decide (i = 31)) := by
      have hbit : one.getLsbD i = decide (i = 31) := by
        revert i
        decide
      split
      · simpa [*] using hbit
      · simp [*]
    rw [BitVec.getLsbD_xor, hone, BitVec.getLsbD_ushiftRight, BitVec.getLsbD_shiftLeft,
      BitVec.getLsbD_shiftLeft]
    by_cases h31 : i = 31
    · subst h31
      have hsub : 31 - (31 - n) = n := by omega
      simp [hsub]
    · have hlt : 1 + i < 32 := by omega
      have hsub : 1 + i - (32 - n) = i - (32 - (n + 1)) := by omega
      have hless : (1 + i < 32 - n) = (i < 32 - (n + 1)) := by
        apply propext
        omega
      simp [h31, hlt, hi, hsub, hless]

theorem mul_one (a : BitVec 32) : mul a one = a := by
  rw [mul, mulLoop_one a (by omega)]
  simp

theorem iterate_shift (n : Nat) (c : BitVec 32) : shift^[n] c = mul c (shift^[n] one) := by
  induction n with
  | zero => exact (mul_one c).symm
  | succ n ih =>
    rw [iterate_succ_apply', iterate_succ_apply', ih]
    exact (mulLoop_shift c _ 32).symm

/-! ### Powers of the indeterminate -/

/-- `n` shifts of `one`, for `n` of `k` binary digits, by squaring. -/
def power : Nat → Nat → BitVec 32
  | 0, _ => one
  | k + 1, n =>
      if n % 2 = 1 then shift (mul (power k (n / 2)) (power k (n / 2)))
      else mul (power k (n / 2)) (power k (n / 2))

variable {c : BitVec 32}

theorem power_eq {k n : Nat} (h : n < 2 ^ k) : power k n = shift^[n] one := by
  induction k generalizing n with
  | zero =>
    have hn : n = 0 := by simpa using h
    rw [hn]
    rfl
  | succ k ih =>
    have hsquare : mul (power k (n / 2)) (power k (n / 2)) = shift^[n / 2 + n / 2] one := by
      rw [ih (by omega), ← iterate_shift, ← iterate_add_apply]
    rw [power, hsquare]
    split
    · rw [← iterate_succ_apply' shift]
      congr 1
      omega
    · congr 1
      omega

set_option maxRecDepth 20000 in
/-- `one` comes back after a whole period, and not after its parts by a prime factor. -/
theorem power_period : power 32 period = one ∧
    ∀ p ∈ [3, 5, 17, 257, 65537], power 32 (period / p) ≠ one := by
  decide +kernel

theorem prime_dvd_period {p : Nat} (hp : p.Prime) (h : p ∣ period) :
    p ∈ [3, 5, 17, 257, 65537] := by
  have hfactors : period = 3 * 5 * 17 * 257 * 65537 := by decide
  rw [hfactors, hp.dvd_mul, hp.dvd_mul, hp.dvd_mul, hp.dvd_mul,
    Nat.prime_dvd_prime_iff_eq hp (by norm_num), Nat.prime_dvd_prime_iff_eq hp (by norm_num),
    Nat.prime_dvd_prime_iff_eq hp (by norm_num), Nat.prime_dvd_prime_iff_eq hp (by norm_num),
    Nat.prime_dvd_prime_iff_eq hp (by norm_num)] at h
  simpa [or_assoc] using h

theorem minimalPeriod_one : minimalPeriod shift one = period := by
  have hback : IsPeriodicPt shift period one := by
    rw [IsPeriodicPt, IsFixedPt, ← power_eq (k := 32) (by decide)]
    exact power_period.1
  obtain ⟨q, hq⟩ := hback.minimalPeriod_dvd
  by_contra hne
  have hq1 : q ≠ 1 := by
    rintro rfl
    exact hne (by rw [hq, Nat.mul_one])
  -- a prime factor of the quotient leaves a multiple of the period in front of it
  obtain ⟨p, hp, r, hr⟩ := Nat.exists_prime_and_dvd hq1
  have hperiod : period = minimalPeriod shift one * r * p := by rw [hq, hr]; ac_rfl
  have hdiv : period / p = minimalPeriod shift one * r := by
    rw [hperiod]
    exact Nat.mul_div_cancel _ hp.pos
  have hpart : shift^[period / p] one = one := by
    rw [hdiv]
    exact (isPeriodicPt_minimalPeriod shift one).mul_const r
  have hlt : period / p < 2 ^ 32 := Nat.lt_of_le_of_lt (Nat.div_le_self _ _) (by decide)
  rw [← power_eq hlt] at hpart
  exact power_period.2 p (prime_dvd_period hp ⟨_, by rw [hperiod, Nat.mul_comm]⟩) hpart

/-! ### All registers -/

theorem iterate_shift_ne_zero (hc : c ≠ 0#32) (n : Nat) : shift^[n] c ≠ 0#32 := by
  induction n with
  | zero => exact hc
  | succ n ih =>
    rw [iterate_succ_apply']
    exact fun h => ih (shift_eq_zero h)

theorem exists_iterate_one (hc : c ≠ 0#32) : ∃ n, shift^[n] one = c := by
  have hinj : Set.InjOn (fun n => shift^[n] one) (Finset.range period) := by
    have h := @iterate_injOn_Iio_minimalPeriod _ shift one
    rw [minimalPeriod_one] at h
    simpa using h
  have hsub : (Finset.range period).image (fun n => shift^[n] one) ⊆
      Finset.univ.erase 0#32 := by
    intro d hd
    obtain ⟨n, -, rfl⟩ := Finset.mem_image.mp hd
    exact Finset.mem_erase.mpr ⟨iterate_shift_ne_zero (by decide) n, Finset.mem_univ _⟩
  have hcard : (Finset.univ.erase 0#32).card ≤
      ((Finset.range period).image fun n => shift^[n] one).card := by
    rw [Finset.card_image_of_injOn hinj, Finset.card_range,
      Finset.card_erase_of_mem (Finset.mem_univ _), Finset.card_univ, ← FinEnum.card_eq_fintypeCard]
    decide
  have hmem : c ∈ (Finset.range period).image fun n => shift^[n] one := by
    rw [Finset.eq_of_subset_of_card_le hsub hcard]
    exact Finset.mem_erase.mpr ⟨hc, Finset.mem_univ _⟩
  obtain ⟨n, -, hn⟩ := Finset.mem_image.mp hmem
  exact ⟨n, hn⟩

/-- A register is back after the multiples of the period only, unless it is zero. -/
theorem iterate_shift_eq_self {n : Nat} : shift^[n] c = c ↔ c = 0#32 ∨ period ∣ n := by
  by_cases hc : c = 0#32
  · subst hc
    simp [iterate_fixed shift_zero]
  · obtain ⟨m, rfl⟩ := exists_iterate_one hc
    rw [← iterate_add_apply, Nat.add_comm, iterate_add_apply, (shift_injective.iterate m).eq_iff,
      ← minimalPeriod_one, ← isPeriodicPt_iff_minimalPeriod_dvd]
    simp [hc, IsPeriodicPt, IsFixedPt]

/-- Zero octets go unnoticed in a register that is zero, and in multiples of the period. -/
theorem crc_zeros_eq_self {n : Nat} : crc c (List.replicate n 0) = c ↔ c = 0#32 ∨ period ∣ n := by
  have hcoprime : Nat.Coprime period 8 := by decide
  rw [crc_zeros, iterate_shift_eq_self]
  exact or_congr_right ⟨hcoprime.dvd_of_dvd_mul_left, fun h => h.mul_left 8⟩

end Rooter.Crc32
