import Mathlib.Algebra.BigOperators.Ring.Finset
import Rooter.BandMask

/-!
# The mask as a set of bands

A mask stands for the set of the bands whose bits are one.  `encodemask` adds the bits of its
arguments nibble by nibble and prints the sums one after the other.  As long as no band comes
twice the sums are digits and the print is the mask of the set; a band that comes twice carries
into the next bit, or makes two digits of a nibble.
-/

namespace Rooter.BandMask

open List Numeral

/-! ### Digits of a number -/

def nibbleValue (n : Nat) (f : Nat → Nat) : Nat := ∑ k ∈ Finset.range n, f k * 16 ^ k

def hexDigits (width n : Nat) : List Char :=
  ((range width).map fun k => upperHexDigit (n / 16 ^ k % 16)).reverse

variable {bands : List Nat}

theorem nibbleValue_succ (n : Nat) (f : Nat → Nat) :
    nibbleValue (n + 1) f = 16 * nibbleValue n (fun k => f (k + 1)) + f 0 := by
  rw [nibbleValue, Finset.sum_range_succ', nibbleValue, Finset.mul_sum, Nat.pow_zero, Nat.mul_one]
  congr 1
  refine Finset.sum_congr rfl fun k _ => ?_
  rw [Nat.pow_succ, ← Nat.mul_assoc, Nat.mul_comm]

theorem nibbleValue_digit (k : Nat) : ∀ {n : Nat} {f : Nat → Nat}, (∀ i, f i < 16) → k < n →
    nibbleValue n f / 16 ^ k % 16 = f k := by
  induction k with
  | zero =>
    intro n f hf hk
    obtain ⟨n, rfl⟩ : ∃ m, n = m + 1 := ⟨n - 1, by omega⟩
    rw [Nat.pow_zero, Nat.div_one, nibbleValue_succ, Nat.mul_add_mod]
    exact Nat.mod_eq_of_lt (hf 0)
  | succ k ih =>
    intro n f hf hk
    obtain ⟨n, rfl⟩ : ∃ m, n = m + 1 := ⟨n - 1, by omega⟩
    rw [Nat.pow_succ', ← Nat.div_div_eq_div_mul, nibbleValue_succ,
      Nat.mul_add_div (by decide), Nat.div_eq_of_lt (hf 0)]
    exact ih (fun i => hf (i + 1)) (by omega)

theorem hexDigits_nibbleValue {f : Nat → Nat} (hf : ∀ k, f k < 16) :
    hexDigits 72 (nibbleValue 72 f) = (tableOf f).map upperHexDigit := by
  rw [hexDigits, tableOf, map_reverse, map_map]
  congr 1
  refine map_congr_left fun k hk => ?_
  rw [nibbleValue_digit k hf (mem_range.mp hk)]
  rfl

/-! ### The number of a set -/

theorem sum_eq_nibbleValue (hrange : ∀ b ∈ bands, 1 ≤ b ∧ b ≤ 272) :
    (bands.map fun b => 2 ^ (b - 1)).sum = nibbleValue 72 (nibbleSum bands) := by
  induction bands with
  | nil => simp [nibbleValue, nibbleSum]
  | cons band bands ih =>
    obtain ⟨hpos, hle⟩ := hrange band mem_cons_self
    have hbit : 2 ^ (band - 1) = 2 ^ ((band - 1) % 4) * 16 ^ ((band - 1) / 4) := by
      rw [show 16 = 2 ^ 4 from rfl, ← Nat.pow_mul, ← Nat.pow_add, Nat.mod_add_div]
    have hnibble : ∀ k, nibbleSum (band :: bands) k * 16 ^ k
        = (if (band - 1) / 4 = k then 2 ^ (band - 1) else 0) + nibbleSum bands k * 16 ^ k := by
      intro k
      rw [nibbleSum_cons band bands k hpos, Nat.add_mul]
      split
      · next hk => rw [hbit, hk]
      · rw [Nat.zero_mul]
    rw [map_cons, sum_cons, ih fun b hb => hrange b (mem_cons_of_mem _ hb),
      nibbleValue, nibbleValue, Finset.sum_congr rfl fun k _ => hnibble k, Finset.sum_add_distrib,
      Finset.sum_ite_eq, if_pos (Finset.mem_range.mpr (by omega))]

def maskOf (bands : Finset Nat) : Nat := ∑ b ∈ bands, 2 ^ (b - 1)

theorem maskOf_toFinset (hrange : ∀ b ∈ bands, 1 ≤ b ∧ b ≤ 272) :
    maskOf bands.toFinset = nibbleValue 72 (nibbleSum bands.dedup) := by
  have hset : bands.toFinset = bands.dedup.toFinset := by
    ext b
    simp
  rw [← sum_eq_nibbleValue fun b hb => hrange b (mem_dedup.mp hb), hset]
  exact sum_toFinset _ (nodup_dedup bands)

theorem count_dedup_le (bands : List Nat) (b : Nat) :
    bands.dedup.count b ≤ 1 ∧ bands.dedup.count b ≤ bands.count b :=
  ⟨nodup_iff_count_le_one.mp (nodup_dedup bands) b,
    (dedup_sublist bands).count_le b⟩

theorem nibbleSum_dedup_lt (bands : List Nat) (k : Nat) : nibbleSum bands.dedup k < 16 := by
  have h₁ := (count_dedup_le bands (4 * k + 1)).1
  have h₂ := (count_dedup_le bands (4 * k + 2)).1
  have h₃ := (count_dedup_le bands (4 * k + 3)).1
  have h₄ := (count_dedup_le bands (4 * k + 4)).1
  unfold nibbleSum
  omega

theorem count_le_one_of_nibbleSum {k : Nat} (h : nibbleSum bands k = nibbleSum bands.dedup k)
    {b : Nat} (hb : (b - 1) / 4 = k) (hpos : 1 ≤ b) : bands.count b ≤ 1 := by
  have h₁ := count_dedup_le bands (4 * k + 1)
  have h₂ := count_dedup_le bands (4 * k + 2)
  have h₃ := count_dedup_le bands (4 * k + 3)
  have h₄ := count_dedup_le bands (4 * k + 4)
  unfold nibbleSum at h
  have hcases : b = 4 * k + 1 ∨ b = 4 * k + 2 ∨ b = 4 * k + 3 ∨ b = 4 * k + 4 := by omega
  rcases hcases with rfl | rfl | rfl | rfl <;> omega

/-! ### What is printed -/

theorem upperHexDigit_injective : ∀ v < 16, ∀ w < 16,
    upperHexDigit v = upperHexDigit w → v = w := by
  decide

theorem length_upperHex_pos (v : Nat) : 1 ≤ (upperHex v).length := by
  rw [upperHex, length_map]
  exact length_pos_of_ne_nil Nat.toDigits_ne_nil

theorem lt_of_length_upperHex {v : Nat} (h : (upperHex v).length ≤ 1) : v < 16 := by
  by_contra hv
  have hpos := length_upperHex_pos (v / 16)
  rw [upperHex_append (by omega), length_append, length_singleton] at h
  omega

theorem lt_of_length_flatMap {vs : List Nat} (h : (vs.flatMap upperHex).length ≤ vs.length) :
    ∀ v ∈ vs, v < 16 := by
  have hlower : ∀ ws : List Nat, ws.length ≤ (ws.flatMap upperHex).length := by
    intro ws
    induction ws with
    | nil => exact Nat.le_refl _
    | cons w ws ih =>
      have hw := length_upperHex_pos w
      rw [flatMap_cons, length_append, length_cons]
      omega
  induction vs with
  | nil => simp
  | cons v vs ih =>
    have hv := length_upperHex_pos v
    have hvs := hlower vs
    rw [flatMap_cons, length_append, length_cons] at h
    refine forall_mem_cons.mpr ⟨lt_of_length_upperHex (by omega), ih (by omega)⟩

theorem map_tableOf_inj {f g : Nat → Nat} {u : Nat → Char}
    (h : (tableOf f).map u = (tableOf g).map u) {k : Nat} (hk : k < 72) : u (f k) = u (g k) := by
  have hget := congrArg (fun s : List Char => s[71 - k]?) h
  simpa [getElem?_tableOf _ hk] using hget

theorem mem_tableOf {f : Nat → Nat} {v : Nat} : v ∈ tableOf f ↔ ∃ k < 72, f k = v := by
  simp [tableOf]

/-- **The print is the mask of the set exactly if no band comes twice.** -/
theorem encodemask_eq_maskOf_iff {args : List (List Char)} {bands : List Nat}
    (hargs : args.mapM decimal? = some bands) (hrange : ∀ b ∈ bands, 1 ≤ b ∧ b ≤ 272) :
    encodemask args = hexDigits 72 (maskOf bands.toFinset) ↔ bands.Nodup := by
  have hmask : hexDigits 72 (maskOf bands.toFinset)
      = (tableOf (nibbleSum bands.dedup)).map upperHexDigit := by
    rw [maskOf_toFinset hrange, hexDigits_nibbleValue (nibbleSum_dedup_lt bands)]
  rw [encodemask_of_mapM hargs hrange, hmask]
  constructor
  · intro hprint
    -- 72 digits leave one for each nibble, and then the nibbles agree
    have hlen : ((tableOf (nibbleSum bands)).flatMap upperHex).length
        ≤ (tableOf (nibbleSum bands)).length := by
      rw [hprint]
      simp [tableOf]
    have hsmall := lt_of_length_flatMap hlen
    rw [flatMap_upperHex hsmall] at hprint
    have hnibble : ∀ k < 72, nibbleSum bands k = nibbleSum bands.dedup k := by
      intro k hk
      apply upperHexDigit_injective _ (hsmall _ (mem_tableOf.mpr ⟨k, hk, rfl⟩)) _
        (nibbleSum_dedup_lt bands k)
      exact map_tableOf_inj hprint hk
    rw [nodup_iff_count_le_one]
    intro b
    by_cases hb : b ∈ bands
    · obtain ⟨hpos, hle⟩ := hrange b hb
      exact count_le_one_of_nibbleSum (hnibble ((b - 1) / 4) (by omega)) rfl hpos
    · rw [count_eq_zero_of_not_mem hb]
      exact Nat.zero_le 1
  · intro hnodup
    rw [hnodup.dedup]
    refine flatMap_upperHex fun v hv => ?_
    obtain ⟨k, -, rfl⟩ := mem_tableOf.mp hv
    have hlt := nibbleSum_dedup_lt bands k
    rwa [hnodup.dedup] at hlt

/-- Three bands in no order. -/
theorem encodemask_eq_maskOf_three :
    encodemask ["71".toList, "3".toList, "012".toList]
      = hexDigits 72 (maskOf [71, 3, 12].toFinset) :=
  (encodemask_eq_maskOf_iff (by decide) (by decide)).mpr (by decide)

/-- A band that is given twice selects the next one. -/
theorem not_encodemask_eq_maskOf : ¬ ∀ (args : List (List Char)) (bands : List Nat),
    args.mapM decimal? = some bands → (∀ b ∈ bands, 1 ≤ b ∧ b ≤ 272) →
    encodemask args = hexDigits 72 (maskOf bands.toFinset) := by
  intro hclaim
  have hprint := hclaim ["1".toList, "1".toList] [1, 1] (by decide) (by decide)
  have htwo : encodemask ["1".toList, "1".toList] = replicate 71 '0' ++ ['2'] := by
    decide +kernel
  have hone : hexDigits 72 (maskOf [1, 1].toFinset) = replicate 71 '0' ++ ['1'] := by
    decide +kernel
  rw [htwo, hone] at hprint
  exact absurd hprint (by decide)

end Rooter.BandMask
