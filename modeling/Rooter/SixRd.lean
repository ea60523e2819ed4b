import Rooter.BitField

/-!
# The subnet of a 6rd host

`6rdcalc` appends the host bits of an IPv4 address to a prefix, one after the other.  The addresses
are the octets that `inet_pton` reads and `inet_ntop` prints.
-/

namespace Rooter.SixRd

open BitField

def bitMask (it : Nat) : UInt8 := 128 >>> UInt8.ofNat (it &&& 0x07)

/-- `*byte |= bit` or `*byte &= ~bit`. -/
def putBit (a : Nat → UInt8) (it : Nat) (value : Bool) : Nat → UInt8 := fun k =>
  if k = it >>> 3 then if value then a k ||| bitMask it else a k &&& ~~~ bitMask it else a k

def combine (v4 : Nat → UInt8) (v4it : Nat) (v6 : Nat → UInt8) (v6it : Nat) :
    (Nat → UInt8) × Nat :=
  if v4it < 32 then
    combine v4 (v4it + 1) (putBit v6 v6it (v4 (v4it >>> 3) &&& bitMask v4it != 0)) (v6it + 1)
  else (v6, v6it)
termination_by 32 - v4it

def clearRest (v6 : Nat → UInt8) (v6it : Nat) : Nat → UInt8 :=
  if v6it < 128 then clearRest (putBit v6 v6it false) (v6it + 1) else v6
termination_by 128 - v6it

/-- The subnet with its length; `none` is the usage message. -/
def sixrdcalc (v6 : Nat → UInt8) (v6len : Nat) (v4 : Nat → UInt8) (v4len : Nat) :
    Option ((Nat → UInt8) × Nat) :=
  if 128 < v6len ∨ 32 < v4len then none
  else if 128 < 32 - v4len + v6len then none
  else
    let combined := combine v4 v4len v6 v6len
    some (clearRest combined.1 combined.2, 32 - v4len + v6len)

theorem toNat_bitMask (i : Nat) : (bitMask i).toNat = 2 ^ (7 - i % 8) := by
  have hall : ∀ r < 8, ((128 : UInt8) >>> UInt8.ofNat r).toNat = 2 ^ (7 - r) := by decide
  rw [bitMask, Nat.and_two_pow_sub_one_eq_mod i 3]
  exact hall _ (Nat.mod_lt _ (by decide))

theorem and_bitMask (a : Nat → UInt8) (i : Nat) : (a (i >>> 3) &&& bitMask i != 0) = bit a i := by
  rw [Bool.eq_iff_iff, bne_iff_ne, ne_eq, ← UInt8.toNat_inj, UInt8.toNat_and, toNat_bitMask,
    Nat.and_two_pow, Nat.shiftRight_eq_div_pow, bit]
  cases (a (i / 8)).toNat.testBit (7 - i % 8) <;> simp

theorem bit_putBit (a : Nat → UInt8) (i : Nat) (value : Bool) (j : Nat) :
    bit (putBit a i value) j = if j = i then value else bit a j := by
  unfold bit putBit
  rw [Nat.shiftRight_eq_div_pow]
  split
  · have hsame : j = i ↔ 7 - i % 8 = 7 - j % 8 := by omega
    have hlow : 7 - j % 8 < 8 := by omega
    have hmask : 2 ^ (7 - i % 8) < 2 ^ 8 := Nat.pow_lt_pow_right (by decide) (by omega)
    cases value
    · have hnot : (~~~ bitMask i).toNat = 2 ^ 8 - (2 ^ (7 - i % 8) + 1) := by
        rw [UInt8.toNat_not, toNat_bitMask, Nat.sub_sub, Nat.add_comm]
        rfl
      rw [if_neg Bool.false_ne_true, UInt8.toNat_and, hnot, Nat.testBit_and,
        Nat.testBit_two_pow_sub_succ hmask, Nat.testBit_two_pow]
      by_cases hj : 7 - i % 8 = 7 - j % 8 <;> simp [hsame, hj, hlow]
    · rw [if_pos rfl, UInt8.toNat_or, toNat_bitMask, Nat.testBit_or, Nat.testBit_two_pow]
      by_cases hj : 7 - i % 8 = 7 - j % 8 <;> simp [hsame, hj]
  · rw [if_neg (by omega)]

theorem combine_spec (v4 : Nat → UInt8) {v4it : Nat} (h : v4it ≤ 32) (v6 : Nat → UInt8)
    (v6it : Nat) : (combine v4 v4it v6 v6it).2 = v6it + (32 - v4it) ∧
    ∀ j, bit (combine v4 v4it v6 v6it).1 j =
      if v6it ≤ j ∧ j < v6it + (32 - v4it) then bit v4 (v4it + (j - v6it)) else bit v6 j := by
  fun_induction combine v4 v4it v6 v6it with
  | case1 v4it v6 v6it hlt ih =>
    obtain ⟨hit, hbits⟩ := ih hlt
    refine ⟨by omega, fun j => ?_⟩
    rw [hbits, bit_putBit, and_bitMask]
    by_cases hj : j = v6it
    · rw [if_neg (by omega), if_pos hj, if_pos (by omega), hj, Nat.sub_self, Nat.add_zero]
    by_cases hin : v6it ≤ j ∧ j < v6it + (32 - v4it)
    · rw [if_pos (by omega), if_pos hin,
        show v4it + 1 + (j - (v6it + 1)) = v4it + (j - v6it) by omega]
    · rw [if_neg (by omega), if_neg hj, if_neg hin]
  | case2 v4it v6 v6it hlt =>
    exact ⟨by omega, fun j => (if_neg (by omega)).symm⟩

theorem bit_clearRest (v6 : Nat → UInt8) (v6it j : Nat) :
    bit (clearRest v6 v6it) j = if v6it ≤ j ∧ j < 128 then false else bit v6 j := by
  fun_induction clearRest v6 v6it with
  | case1 v6 v6it hlt ih =>
    rw [ih, bit_putBit]
    grind
  | case2 v6 v6it hlt => exact (if_neg (by omega)).symm

def Covers (a : Nat → UInt8) (len : Nat) (x : Nat → UInt8) : Prop := ∀ j < len, bit x j = bit a j

/-- The bits of a subnet: the prefix, the low bits of the IPv4 address, and zeros. -/
structure Formed (v6 : Nat → UInt8) (v6len : Nat) (v4 : Nat → UInt8) (v4len : Nat)
    (a : Nat → UInt8) : Prop where
  first : ∀ j < v6len, bit a j = bit v6 j
  host : field a v6len (32 - v4len) = field v4 0 32 % 2 ^ (32 - v4len)
  rest : ∀ j, v6len + (32 - v4len) ≤ j → j < 128 → bit a j = false

variable {v6len v4len : Nat}

theorem field_domain (m : Nat → UInt8) (hv4 : v4len ≤ 32) : field m 0 32 =
    field m 0 v4len * 2 ^ (32 - v4len) + field m v4len (32 - v4len) := by
  have hsplit := field_add m 0 v4len (32 - v4len)
  rwa [Nat.add_sub_cancel' hv4, Nat.zero_add] at hsplit

theorem field_host (m : Nat → UInt8) (hv4 : v4len ≤ 32) :
    field m 0 32 % 2 ^ (32 - v4len) = field m v4len (32 - v4len) := by
  rw [field_domain m hv4, Nat.mul_add_mod_self_right, Nat.mod_eq_of_lt (field_lt _ _ _)]

theorem exists_formed (v6 v4 : Nat → UInt8) (hv4 : v4len ≤ 32) (hlen : v6len + (32 - v4len) ≤ 128) :
    ∃ a, sixrdcalc v6 v6len v4 v4len = some (a, v6len + (32 - v4len)) ∧
      Formed v6 v6len v4 v4len a := by
  obtain ⟨hit, hbits⟩ := combine_spec v4 hv4 v6 v6len
  unfold sixrdcalc
  dsimp only
  rw [if_neg (by omega), if_neg (by omega), hit, Nat.add_comm _ v6len]
  refine ⟨_, rfl, ?_, ?_, ?_⟩
  · intro j hj
    rw [bit_clearRest, if_neg (by omega), hbits, if_neg (by omega)]
  · rw [field_host v4 hv4]
    apply field_congr
    intro j hj
    rw [bit_clearRest, if_neg (by omega), hbits, if_pos (by omega), Nat.add_sub_cancel_left]
  · intro j hfrom hto
    rw [bit_clearRest, if_pos ⟨hfrom, hto⟩]

/-- **The subnet is formed bit for bit**, and another host of the domain gets a disjoint one. -/
theorem sixrdcalc_exact (v6 v4 : Nat → UInt8) (hv4 : v4len ≤ 32)
    (hlen : v6len + (32 - v4len) ≤ 128) :
    ∃ a, sixrdcalc v6 v6len v4 v4len = some (a, v6len + (32 - v4len)) ∧
      Formed v6 v6len v4 v4len a ∧
      ∀ v4', field v4' 0 v4len = field v4 0 v4len → field v4' 0 32 ≠ field v4 0 32 →
        ∃ a', sixrdcalc v6 v6len v4' v4len = some (a', v6len + (32 - v4len)) ∧
          ∀ x, Covers a (v6len + (32 - v4len)) x → ¬ Covers a' (v6len + (32 - v4len)) x := by
  obtain ⟨a, ha, hformed⟩ := exists_formed v6 v4 hv4 hlen
  refine ⟨a, ha, hformed, fun v4' hdomain hhost => ?_⟩
  obtain ⟨a', ha', hformed'⟩ := exists_formed v6 v4' hv4 hlen
  refine ⟨a', ha', fun x hx hx' => hhost ?_⟩
  have hsame : field a' v6len (32 - v4len) = field a v6len (32 - v4len) :=
    field_congr fun j hj => (hx' _ (by omega)).symm.trans (hx _ (by omega))
  rw [hformed.host, hformed'.host, field_host v4 hv4, field_host v4' hv4] at hsame
  rw [field_domain v4 hv4, field_domain v4' hv4, hdomain, hsame]

/-- The hosts 10.0.0.1 and 10.0.0.2 of the domain 10.0.0.0/8 with the prefix 2001:db8::/32. -/
theorem sixrdcalc_exact_host :
    ∃ a a', sixrdcalc (octets 16 (0x20010db8 * 2 ^ 96)) 32 (octets 4 0x0a000001) 8 = some (a, 56) ∧
      Formed (octets 16 (0x20010db8 * 2 ^ 96)) 32 (octets 4 0x0a000001) 8 a ∧
      sixrdcalc (octets 16 (0x20010db8 * 2 ^ 96)) 32 (octets 4 0x0a000002) 8 = some (a', 56) ∧
      ∀ x, Covers a 56 x → ¬ Covers a' 56 x := by
  obtain ⟨a, ha, hformed, hother⟩ := sixrdcalc_exact (octets 16 (0x20010db8 * 2 ^ 96))
    (octets 4 0x0a000001) (by decide : 8 ≤ 32) (by decide : 32 + (32 - 8) ≤ 128)
  obtain ⟨a', ha', hdisjoint⟩ :=
    hother (octets 4 0x0a000002) (by decide +kernel) (by decide +kernel)
  exact ⟨a, a', ha, hformed, ha', hdisjoint⟩

end Rooter.SixRd
