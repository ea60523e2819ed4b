import Rooter.MapcalcAddress

/-!
# The port sets of a MAP rule

A port is read as `a` bits, the identifier of its set in `k` bits, and the rest.  The ranges
that `mapcalc` prints for an identifier are the ports that have it, those without a first bit
and port 0 left out, so two customers never share a port and no other port is lost.
-/

namespace Rooter.Mapcalc

open List BitField

/-! ### The ranges -/

def InRanges (ranges : List (Nat × Nat)) (p : Nat) : Prop :=
  ∃ range ∈ ranges, range.1 ≤ p ∧ p ≤ range.2

/-- A port whose `k` bits behind the first `a` ones are the identifier. -/
def InSet (a k psid p : Nat) : Prop :=
  1 ≤ p ∧ p ≤ 65535 ∧ p / 2 ^ (16 - a - k) % 2 ^ k = psid ∧ (0 < a → p / 2 ^ (16 - a) ≠ 0)

theorem mem_portRange_iff {size : Nat} (hsize : 0 < size) (q p : Nat) :
    (∃ range, portRange (q * size) size = some range ∧ range.1 ≤ p ∧ p ≤ range.2) ↔
      1 ≤ p ∧ p / size = q := by
  have hdiv : p / size = q ↔ q * size ≤ p ∧ p < q * size + size := by
    rw [Nat.div_eq_iff hsize]
    omega
  rw [hdiv]
  unfold portRange
  dsimp only
  constructor
  · rintro ⟨range, hrange, hle, hge⟩
    split_ifs at hrange with hzero hsome hsome
    · cases hrange
      omega
    · cases hrange
      omega
  · rintro ⟨hpos, hle, hlt⟩
    refine ⟨(if q * size = 0 then 1 else q * size, q * size + size - 1), ?_, ?_⟩
    · rw [if_pos]
      split <;> omega
    · split <;> omega

section

variable {a k psid : Nat} (h : a + k ≤ 16)

include h

theorem two_pow_split : 2 ^ (16 - a) = 2 ^ k * 2 ^ (16 - a - k) := by
  rw [← Nat.pow_add]
  congr 1
  omega

/-- The number of the range and the identifier make up the high bits of its start. -/
theorem start_eq (hpsid : psid < 2 ^ k) (i : Nat) :
    i <<< (16 - a) ||| (psid * 2 ^ (16 - k)) >>> a = (i * 2 ^ k + psid) * 2 ^ (16 - a - k) := by
  have hshift : (psid * 2 ^ (16 - k)) >>> a = psid * 2 ^ (16 - a - k) := by
    rw [Nat.shiftRight_eq_div_pow, show 16 - k = 16 - a - k + a by omega, Nat.pow_add,
      ← Nat.mul_assoc, Nat.mul_div_cancel _ (Nat.two_pow_pos a)]
  have hlt : psid * 2 ^ (16 - a - k) < 2 ^ (16 - a) := by
    rw [two_pow_split h]
    exact Nat.mul_lt_mul_of_pos_right hpsid (Nat.two_pow_pos _)
  rw [hshift, ← Nat.shiftLeft_add_eq_or_of_lt hlt, Nat.shiftLeft_eq, two_pow_split h,
    Nat.add_mul, Nat.mul_assoc]

/-- **The ranges of an identifier are the ports that have it.** -/
theorem inRanges_iff (hpsid : psid < 2 ^ k) (p : Nat) :
    InRanges (portsets a k (psid * 2 ^ (16 - k))) p ↔ InSet a k psid p := by
  have hsize := Nat.two_pow_pos (16 - a - k)
  have hquot : p / 2 ^ (16 - a - k) / 2 ^ k = p / 2 ^ (16 - a) := by
    rw [Nat.div_div_eq_div_mul, Nat.mul_comm, ← two_pow_split h]
  have hfirst : p / 2 ^ (16 - a) < 2 ^ a ↔ p ≤ 65535 := by
    rw [Nat.div_lt_iff_lt_mul (Nat.two_pow_pos _), ← Nat.pow_add, show a + (16 - a) = 16 by omega]
    omega
  constructor
  · rintro ⟨range, hmem, hin⟩
    obtain ⟨i, hi, hrange⟩ := mem_filterMap.mp hmem
    obtain ⟨hlow, hhigh⟩ := mem_range'_1.mp hi
    rw [start_eq h hpsid] at hrange
    obtain ⟨hpos, hq⟩ := (mem_portRange_iff hsize _ p).mp ⟨range, hrange, hin⟩
    have hi' : p / 2 ^ (16 - a) = i := by
      rw [← hquot, hq, Nat.mul_comm, Nat.mul_add_div (Nat.two_pow_pos k),
        Nat.div_eq_of_lt hpsid, Nat.add_zero]
    refine ⟨hpos, hfirst.mp ?_, ?_, ?_⟩
    · have hcount := Nat.two_pow_pos a
      split at hhigh <;> omega
    · rw [hq, Nat.mul_comm, Nat.mul_add_mod, Nat.mod_eq_of_lt hpsid]
    · intro ha
      rw [if_neg (by omega)] at hlow
      omega
  · rintro ⟨hpos, hmax, hbits, hnonzero⟩
    have hq : p / 2 ^ (16 - a - k) = p / 2 ^ (16 - a) * 2 ^ k + psid := by
      rw [← hquot, ← hbits, Nat.mul_comm]
      exact (Nat.div_add_mod _ _).symm
    obtain ⟨range, hrange, hin⟩ := (mem_portRange_iff hsize _ p).mpr ⟨hpos, hq⟩
    rw [← start_eq h hpsid] at hrange
    refine ⟨range, mem_filterMap.mpr ⟨p / 2 ^ (16 - a), ?_, hrange⟩, hin⟩
    have hlt := hfirst.mpr hmax
    apply mem_range'_1.mpr
    generalize p / 2 ^ (16 - a) = i at hlt hnonzero
    split <;> omega

/-- **The port sets of the identifiers are disjoint.** -/
theorem eq_of_inRanges {psid' p : Nat} (hpsid : psid < 2 ^ k) (hpsid' : psid' < 2 ^ k)
    (hp : InRanges (portsets a k (psid * 2 ^ (16 - k))) p)
    (hp' : InRanges (portsets a k (psid' * 2 ^ (16 - k))) p) : psid = psid' := by
  obtain ⟨-, -, hbits, -⟩ := (inRanges_iff h hpsid p).mp hp
  obtain ⟨-, -, hbits', -⟩ := (inRanges_iff h hpsid' p).mp hp'
  rw [← hbits, ← hbits']

/-- **Every port from the first range on is in a set.** -/
theorem exists_inRanges {p : Nat} (hlow : (if a = 0 then 1 else 2 ^ (16 - a)) ≤ p)
    (hhigh : p ≤ 65535) :
    ∃ psid < 2 ^ k, InRanges (portsets a k (psid * 2 ^ (16 - k))) p := by
  have hlt : p / 2 ^ (16 - a - k) % 2 ^ k < 2 ^ k := Nat.mod_lt _ (Nat.two_pow_pos k)
  refine ⟨p / 2 ^ (16 - a - k) % 2 ^ k, hlt, (inRanges_iff h hlt p).mpr ⟨?_, hhigh, rfl, ?_⟩⟩
  · have hpos := Nat.two_pow_pos (16 - a)
    split at hlow <;> omega
  · intro ha
    rw [if_neg (by omega)] at hlow
    have hpos := Nat.div_pos hlow (Nat.two_pow_pos (16 - a))
    omega

end

/-! ### The options -/

structure Ranged (r : Rule) : Prop where
  psid : r.psid ≤ 65535
  offset : r.offset ≤ 16

theorem upTo_le {limit old : Int} (h : old ≤ limit) (v : Option Int) :
    upTo limit v old ≤ limit := by
  unfold upTo
  cases v with
  | none => exact h
  | some v =>
    dsimp only
    split <;> assumption

theorem ranged_set {r : Rule} (h : Ranged r) (option : RuleOption) : Ranged (r.set option) := by
  cases option with
  | offset v => exact ⟨h.psid, upTo_le h.offset v⟩
  | psid v => exact ⟨upTo_le h.psid v, h.offset⟩
  | _ => exact ⟨h.psid, h.offset⟩

theorem ranged_parse (options : List RuleOption) : Ranged (Rule.parse options) := by
  have hstart : Ranged {} := ⟨by decide, by decide⟩
  unfold Rule.parse
  generalize ({} : Rule) = r at hstart
  induction options generalizing r with
  | nil => exact hstart
  | cons option options ih => exact ih _ (ranged_set hstart option)

/-! ### The identifier that is printed -/

theorem readPsid_le {r : Rule} (h : Ranged r) {pdlen : Int} {pd : Octets} {raw : Int × Octets}
    (hread : readPsid r pdlen pd = some raw) : raw.1 ≤ 65535 := by
  unfold readPsid at hread
  split at hread
  · obtain ⟨a, -, hraw⟩ := Option.bind_eq_some_iff.mp hread
    cases hraw
    have hlt := field_lt a 0 16
    omega
  · cases hread
    have hpsid := h.psid
    unfold givenPsid
    split <;> omega

theorem alignPsid_eq {k : Nat} (hk : 1 ≤ k) (hk' : k ≤ 16) {raw : Int × Octets}
    (hraw : raw.1 ≤ 65535) (hpos : 0 ≤ (alignPsid k raw).1) :
    ∃ psid < 2 ^ k, field (alignPsid k raw).2 0 16 = psid ∧
      (alignPsid k raw).1 = ((psid * 2 ^ (16 - k) : Nat) : Int) := by
  obtain ⟨raw, psid16⟩ := raw
  have hshift : (16 - (k : Int)).toNat = 16 - k := by omega
  have hnonneg : 0 ≤ raw := by
    by_contra hneg
    have hquot : raw >>> (16 - k) < 0 := by
      rw [Int.shiftRight_eq_div_pow]
      exact Int.ediv_neg_of_neg_of_pos (by omega) (by exact_mod_cast Nat.two_pow_pos (16 - k))
    have hprod : raw >>> (16 - k) * 2 ^ (16 - k) < 0 :=
      Int.mul_neg_of_neg_of_pos hquot (by exact_mod_cast Nat.two_pow_pos (16 - k))
    rw [alignPsid, if_pos (by omega), hshift] at hpos
    dsimp only at hpos
    omega
  obtain ⟨v, rfl⟩ := Int.eq_ofNat_of_zero_le hnonneg
  have hv : v < 2 ^ 16 := by
    omega
  have hpsid : v >>> (16 - k) < 2 ^ k := by
    rw [Nat.shiftRight_eq_div_pow, Nat.div_lt_iff_lt_mul (Nat.two_pow_pos _), ← Nat.pow_add,
      Nat.add_sub_cancel' hk']
    exact hv
  refine ⟨v >>> (16 - k), hpsid, ?_⟩
  rw [alignPsid_spec hk hk' hpsid (Int.natCast_shiftRight v (16 - k)).symm psid16]
  exact ⟨field_octets (hpsid.trans_le (Nat.pow_le_pow_right (by decide) hk')), rfl⟩

theorem calculate_printed {r : Rule} {legacy : Bool} {arg : List Char} {dump : List Interface}
    {res : Result} (h : r.calculate legacy arg dump = some (.printed res)) :
    ∃ pdlen pd iface raw ipv4, ¬ Incomplete r pdlen ∧ readPsid r pdlen pd = some raw ∧
      res = r.report legacy pdlen pd iface (alignPsid (psidlenOf r pdlen) raw) ipv4 := by
  obtain ⟨⟨pdlen, pd, iface⟩, -, h⟩ := Option.bind_eq_some_iff.mp h
  dsimp only at h
  split at h
  · cases h
  next hcomplete =>
  obtain ⟨raw, hread, h⟩ := Option.bind_eq_some_iff.mp h
  obtain ⟨ipv4, -, h⟩ := Option.bind_eq_some_iff.mp h
  split at h
  · cases h
  · cases h
    exact ⟨pdlen, pd, iface, raw, ipv4, hcomplete, hread, rfl⟩

theorem ports_eq {options : List RuleOption} {legacy : Bool} {arg : List Char}
    {dump : List Interface} {res : Result} {a k : Nat}
    (h : (Rule.parse options).calculate legacy arg dump = some (.printed res))
    (hoffset : res.offset = a) (hpsidlen : res.psidlen = k) (hk : 1 ≤ k) (hpsid : 0 ≤ res.psid) :
    ∃ psid < 2 ^ k, field res.psid16 0 16 = psid ∧
      res.ports = some (portsets a k (psid * 2 ^ (16 - k))) := by
  obtain ⟨pdlen, pd, iface, raw, ipv4, hcomplete, hread, rfl⟩ := calculate_printed h
  have hlen : psidlenOf (Rule.parse options) pdlen = k := hpsidlen
  have hmax : ¬ 16 < psidlenOf (Rule.parse options) pdlen := by
    intro hlt
    simp [Incomplete, hlt] at hcomplete
  have haligned : 0 ≤ (alignPsid k raw).1 := by
    rw [← hlen]
    exact hpsid
  obtain ⟨psid, hlt, hpsid16, halign⟩ := alignPsid_eq hk (by omega)
    (readPsid_le (ranged_parse options) hread) haligned
  refine ⟨psid, hlt, ?_, ?_⟩
  · rw [← hpsid16, ← hlen]
    rfl
  · rw [Result.ports, if_pos ⟨by rw [hpsidlen]; omega, hpsid⟩, hoffset, hpsidlen]
    change some (portsets _ _ (alignPsid (psidlenOf (Rule.parse options) pdlen) raw).1.toNat) = _
    rw [hlen, halign, Int.toNat_natCast, Int.toNat_natCast, Int.toNat_natCast]

/-- **MAP port sets partition the port space.**  The last part says that the ranges in the
    output are those of the identifier in the address. -/
theorem portsets_partition {a k : Nat} (hk : 1 ≤ k) (hak : a + k ≤ 16) :
    (∀ psid < 2 ^ k, ∀ p, InRanges (portsets a k (psid * 2 ^ (16 - k))) p ↔
      1 ≤ p ∧ p ≤ 65535 ∧ p / 2 ^ (16 - a - k) % 2 ^ k = psid ∧
        (0 < a → p / 2 ^ (16 - a) ≠ 0)) ∧
    (∀ psid < 2 ^ k, ∀ psid' < 2 ^ k, psid ≠ psid' → ∀ p,
      ¬ (InRanges (portsets a k (psid * 2 ^ (16 - k))) p ∧
        InRanges (portsets a k (psid' * 2 ^ (16 - k))) p)) ∧
    (∀ p, (if a = 0 then 1 else 2 ^ (16 - a)) ≤ p → p ≤ 65535 →
      ∃ psid < 2 ^ k, InRanges (portsets a k (psid * 2 ^ (16 - k))) p) ∧
    (∀ options legacy arg dump res,
      (Rule.parse options).calculate legacy arg dump = some (.printed res) →
      res.offset = a → res.psidlen = k → 0 ≤ res.psid →
        ∃ psid < 2 ^ k, field res.psid16 0 16 = psid ∧
          res.ports = some (portsets a k (psid * 2 ^ (16 - k)))) := by
  refine ⟨fun psid hpsid p => inRanges_iff hak hpsid p, ?_, ?_, ?_⟩
  · rintro psid hpsid psid' hpsid' hne p ⟨hp, hp'⟩
    exact hne (eq_of_inRanges hak hpsid hpsid' hp hp')
  · intro p hlow hhigh
    exact exists_inRanges hak hlow hhigh
  · intro options legacy arg dump res h hoffset hpsidlen hpsid
    exact ports_eq h hoffset hpsidlen hk hpsid

/-- The customers 0x34 and 0x35 of the usual offset. -/
theorem portsets_partition_example :
    (portsets 6 8 (0x34 * 2 ^ 8)).head? = some (1232, 1235) ∧
    InRanges (portsets 6 8 (0x34 * 2 ^ 8)) 1232 ∧
    ¬ InRanges (portsets 6 8 (0x35 * 2 ^ 8)) 1232 := by
  obtain ⟨hexact, hdisjoint, -, -⟩ := portsets_partition (show 1 ≤ 8 by decide)
    (show 6 + 8 ≤ 16 by decide)
  have hport : InRanges (portsets 6 8 (0x34 * 2 ^ (16 - 8))) 1232 :=
    (hexact 0x34 (by decide) 1232).mpr (by decide)
  refine ⟨by decide +kernel, hport, ?_⟩
  intro hother
  exact hdisjoint 0x34 (by decide) 0x35 (by decide) (by decide) 1232 ⟨hport, hother⟩

end Rooter.Mapcalc
