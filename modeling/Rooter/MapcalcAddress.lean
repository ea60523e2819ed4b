import Rooter.MapcalcBits

/-!
# Recovering the address of a MAP rule

The delegated prefix carries the suffix of the IPv4 address and the port set identifier
behind the IPv6 prefix of the rule.  What `mapcalc` computes follows from the positions of the
bits alone, whatever the alignment.
-/

namespace Rooter.Mapcalc

open BitField

/-! ### What the copies amount to -/

theorem bit_zeros (j : Nat) : bit zeros j = false := by simp [bit, zeros]

theorem field_bmemcpys64 {start n : Nat} (size : Nat) (pd : Octets) (hend : start + n ≤ 127)
    (hsize : n ≤ 8 * size) (hn : n ≤ 56) :
    ∃ a, bmemcpys64 16 size zeros pd start n = some a ∧
      field a 0 (8 * size) = field pd start n * 2 ^ (8 * size - n) := by
  obtain ⟨a, hcopy, hbit⟩ := bit_bmemcpys64 zeros pd (show (start + n) / 8 < 16 by omega) hsize
    (by omega)
  refine ⟨a, hcopy, ?_⟩
  have hhigh : field a 0 n = field pd start n := by
    apply field_congr
    intro j hj
    rw [Nat.zero_add, hbit, if_pos hj]
  have hlow : field a (0 + n) (8 * size - n) = 0 := by
    apply field_eq_zero
    intro j hj
    rw [hbit, if_neg (by omega), bit_zeros]
  have hsplit := field_add a 0 n (8 * size - n)
  rw [hhigh, hlow, Nat.add_sub_cancel' hsize] at hsplit
  exact hsplit

theorem field_bmemcpy_octets {size v n : Nat} (b : Octets) (hn : n ≤ 8 * size)
    (hv : v < 2 ^ (8 * size - n)) :
    field (bmemcpy (octets size v) b n) 0 (8 * size)
      = field b 0 n * 2 ^ (8 * size - n) + v := by
  have hfit : v < 2 ^ (8 * size) := hv.trans_le (Nat.pow_le_pow_right (by decide) (by omega))
  have hwhole : field (octets size v) 0 (n + (8 * size - n)) = 0 * 2 ^ (8 * size - n) + v := by
    rw [Nat.add_sub_cancel' hn, field_octets hfit, Nat.zero_mul, Nat.zero_add]
  have hhigh : field (bmemcpy (octets size v) b n) 0 n = field b 0 n := by
    apply field_congr
    intro j hj
    rw [bit_bmemcpy, Nat.zero_add, if_pos hj]
  have hlow : field (bmemcpy (octets size v) b n) (0 + n) (8 * size - n) = v := by
    apply Eq.trans _ (field_split hwhole hv).2
    apply field_congr
    intro j _
    rw [bit_bmemcpy, if_neg (by omega)]
  have hsplit := field_add (bmemcpy (octets size v) b n) 0 n (8 * size - n)
  rw [hhigh, hlow, Nat.add_sub_cancel' hn] at hsplit
  exact hsplit

/-! ### The identifier of the port set -/

theorem psidlenOf_pos {r : Rule} (h : 0 ≤ givenPsid r) (pdlen : Int) : 0 < psidlenOf r pdlen := by
  unfold givenPsid at h
  unfold psidlenOf
  split at h
  · omega
  · omega

/-- The identifier is at the low end of `psid16` and at the high end of `psid`. -/
theorem alignPsid_spec {k psid : Nat} (hk : 0 < k) (hk' : k ≤ 16) (hpsid : psid < 2 ^ k)
    {raw : Int} (hraw : raw >>> (16 - k) = psid) (psid16 : Octets) :
    alignPsid k (raw, psid16) = (((psid * 2 ^ (16 - k) : Nat) : Int), octets 2 psid) := by
  have hshift : (16 - (k : Int)).toNat = 16 - k := by omega
  have hlt : psid < 65536 :=
    hpsid.trans_le (Nat.pow_le_pow_right (by decide) hk' |>.trans (by decide))
  have hmod : ((psid : Int) % 65536).toNat = psid := by omega
  rw [alignPsid, if_pos (by omega), hshift, hraw]
  dsimp only
  rw [hmod]
  rfl

theorem psid_of_field {r : Rule} {pd : Octets} {pdlen start k psid : Nat}
    (hk : psidlenOf r pdlen = k) (hk' : k ≤ 16)
    (hstart : r.prefix6len + ealenOf r pdlen - psidlenOf r pdlen = start)
    (hend : start + k ≤ 127) (hfield : field pd start k = psid)
    (hgiven : 0 ≤ givenPsid r → givenPsid r >>> (16 - k) = psid) :
    ∃ raw, readPsid r pdlen pd = some raw ∧
      field (alignPsid k raw).2 0 16 = psid ∧
      (alignPsid k raw).1 = ((psid * 2 ^ (16 - k) : Nat) : Int) := by
  have hpsid : psid < 2 ^ k := by
    rw [← hfield]
    exact field_lt _ _ _
  have hlt : psid < 2 ^ (8 * 2) := hpsid.trans_le (Nat.pow_le_pow_right (by decide) hk')
  by_cases hown : 0 ≤ givenPsid r
  · -- the rule has its own identifier
    have hpos := psidlenOf_pos hown pdlen
    refine ⟨(givenPsid r, zeros), by rw [readPsid, if_neg (by omega)], ?_⟩
    rw [alignPsid_spec (by omega) hk' hpsid (hgiven hown)]
    exact ⟨field_octets hlt, rfl⟩
  · obtain ⟨a, hcopy, hvalue⟩ := field_bmemcpys64 2 pd hend (by omega) (by omega)
    rw [hfield] at hvalue
    refine ⟨(field a 0 16, a), ?_, ?_⟩
    · have hguard : givenPsid r < 0 ∧ 0 ≤ psidlenOf r pdlen ∧ (0 : Int) ≤ pdlen := by omega
      rw [readPsid, if_pos hguard, hstart, hk, Int.toNat_natCast, Int.toNat_natCast, hcopy]
      rfl
    · by_cases hzero : k = 0
      · subst hzero
        have hnone : psid = 0 := by omega
        subst hnone
        exact ⟨hvalue, by rw [alignPsid]; exact congrArg _ hvalue⟩
      · have hraw : (field a 0 16 : Int) >>> (16 - k) = psid := by
          rw [← Int.natCast_shiftRight, hvalue, Nat.shiftRight_eq_div_pow,
            Nat.mul_div_cancel _ (Nat.two_pow_pos _)]
        rw [alignPsid_spec (by omega) hk' hpsid hraw]
        exact ⟨field_octets hlt, rfl⟩

/-! ### The addresses -/

/-- The IPv4 address: the prefix of the rule and the suffix from the delegated prefix. -/
theorem ipv4_of_field {r : Rule} {pd : Octets} {pdlen p4 p6 suffix : Nat}
    (hp4 : r.prefix4len = p4) (hp4' : p4 ≤ 31) (hp6 : r.prefix6len = p6)
    (hlen : ealenOf r pdlen - psidlenOf r pdlen = (32 - p4 : Nat))
    (hend : p6 + (32 - p4) ≤ 127) (hfield : field pd p6 (32 - p4) = suffix) :
    ∃ ipv4, readIpv4 r pdlen pd = some ipv4 ∧
      field ipv4.1 0 32 = field r.ipv4Prefix 0 p4 * 2 ^ (32 - p4) + suffix := by
  have hsuffix : suffix < 2 ^ (8 * 4 - p4) := by
    rw [← hfield]
    exact field_lt _ _ _
  obtain ⟨a, hcopy, hvalue⟩ := field_bmemcpys64 4 pd hend (by omega) (by omega)
  have hshift : field a 0 32 >>> p4 = suffix := by
    rw [hvalue, hfield, show 8 * 4 - (32 - p4) = p4 by omega, Nat.shiftRight_eq_div_pow,
      Nat.mul_div_cancel _ (Nat.two_pow_pos _)]
  have hguard : 0 ≤ pdlen ∨ ealenOf r pdlen = psidlenOf r pdlen := by omega
  refine ⟨(bmemcpy (octets 4 (field a 0 32 >>> p4)) r.ipv4Prefix p4,
    if p4 + ealenOf r pdlen < 32 then p4 + ealenOf r pdlen else 32), ?_, ?_⟩
  · rw [readIpv4, hlen, hp6, hp4, Int.toNat_natCast, Int.toNat_natCast, hcopy]
    rfl
  · rw [hshift]
    exact field_bmemcpy_octets r.ipv4Prefix (by omega) hsuffix

theorem field_formIpv6 (legacy : Bool) (ipv4addr psid16 pd : Octets) (pdlen : Nat) :
    field (formIpv6 legacy ipv4addr psid16 pd pdlen) 0 pdlen = field pd 0 pdlen := by
  rw [formIpv6, if_pos (by omega)]
  apply field_congr
  intro j hj
  rw [bit_bmemcpy, if_pos (by omega)]

/-- **Recovering the address inverts forming it.**  `pd` is the IPv6 prefix of the rule, the suffix
    and the identifier, and then any bits; a rule that gives its identifier gives this one. -/
theorem calculate_inverts {r : Rule} {arg iface : List Char} {dump : List Interface}
    (legacy : Bool) {pd : Octets} {p4 p6 psidlen pdlen suffix psid : Nat}
    (hpd : findPd r arg dump = some ((pdlen : Int), pd, iface))
    (hp4 : r.prefix4len = p4 ∧ p4 ≤ 31) (hp6 : r.prefix6len = p6)
    (hpsidlen : psidlenOf r pdlen = psidlen ∧ psidlen ≤ 16)
    (healen : ealenOf r pdlen = (32 - p4 + psidlen : Nat))
    (hpdlen : p6 + (32 - p4 + psidlen) ≤ pdlen ∧ pdlen ≤ 127)
    (hsuffix : suffix < 2 ^ (32 - p4)) (hpsid : psid < 2 ^ psidlen)
    (hformed : field pd 0 (p6 + (32 - p4) + psidlen)
      = (field r.ipv6Prefix 0 p6 * 2 ^ (32 - p4) + suffix) * 2 ^ psidlen + psid)
    (hgiven : 0 ≤ givenPsid r → givenPsid r >>> (16 - psidlen) = psid) :
    ∃ res, r.calculate legacy arg dump = some (.printed res) ∧
      field res.ipv4addr 0 32 = field r.ipv4Prefix 0 p4 * 2 ^ (32 - p4) + suffix ∧
      field res.psid16 0 16 = psid ∧
      field res.ipv6addr 0 pdlen = field pd 0 pdlen := by
  obtain ⟨hfront, hpsidField⟩ := field_split hformed hpsid
  obtain ⟨-, hsuffixField⟩ := field_split hfront hsuffix
  rw [Nat.zero_add] at hpsidField hsuffixField
  obtain ⟨raw, hraw, hpsid16, -⟩ := psid_of_field hpsidlen.1 hpsidlen.2
    (show r.prefix6len + ealenOf r pdlen - psidlenOf r pdlen = (p6 + (32 - p4) : Nat) by omega)
    (by omega) hpsidField hgiven
  obtain ⟨ipv4, hread, hipv4⟩ := ipv4_of_field hp4.1 hp4.2 hp6
    (show ealenOf r pdlen - psidlenOf r pdlen = (32 - p4 : Nat) by omega) (by omega) hsuffixField
  have hcomplete : ¬ Incomplete r pdlen := by
    unfold Incomplete
    omega
  have hfound : ¬ ((pdlen : Int) < 0 ∧ ¬ r.fmr = true) := by omega
  refine ⟨r.report legacy pdlen pd iface (alignPsid psidlen raw) ipv4, ?_, hipv4, hpsid16,
    field_formIpv6 legacy ipv4.1 (alignPsid psidlen raw).2 pd pdlen⟩
  rw [Rule.calculate, hpd]
  simp only [Option.bind_eq_bind, Option.bind_some, if_neg hcomplete, hraw, hread, if_neg hfound,
    hpsidlen.1]

/-- The rule `2001:db8::/40`, `192.0.2.0/24` with sixteen bits for the address, and the
    delegated prefix `2001:db8:12:3400::/56`. -/
def exampleRule : Rule where
  ealen := 16
  prefix4len := 24
  prefix6len := 40
  ipv4Prefix := octets 4 0xC0000200
  ipv6Prefix := octets 16 0x20010db8000000000000000000000000
  pdlen := 56
  pd := octets 16 0x20010db8001234000000000000000000

theorem calculate_inverts_example : ∃ res,
    exampleRule.calculate false "wan6".toList [] = some (.printed res) ∧
      field res.ipv4addr 0 32 = 0xC0000212 ∧ field res.psid16 0 16 = 0x34 ∧
      field res.ipv6addr 0 56 = 0x20010db8001234 := by
  obtain ⟨res, hrun, hipv4, hpsid, hipv6⟩ := @calculate_inverts exampleRule "wan6".toList
    "wan6".toList [] false exampleRule.pd 24 40 8 56 0x12 0x34 rfl (by decide) rfl (by decide)
    (by decide) (by decide) (by decide) (by decide) (by decide +kernel) (by decide)
  refine ⟨res, hrun, hipv4.trans ?_, hpsid, hipv6.trans ?_⟩
  · decide +kernel
  · decide +kernel

/-- The same delegated prefix, with an identifier that the rule gives: the bits `0x34` are not
    looked at. -/
theorem not_calculate_inverts : ∃ res,
    { exampleRule with psidlen := 8, psid := 0 }.calculate false "wan6".toList [] =
        some (.printed res) ∧
      field exampleRule.pd 48 8 = 0x34 ∧ field res.psid16 0 16 = 0 :=
  ⟨_, rfl, by decide +kernel, by decide +kernel⟩

end Rooter.Mapcalc
