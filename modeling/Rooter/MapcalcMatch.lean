import Mathlib.Data.List.Induction
import Rooter.MapcalcBits

/-!
# The longest delegated prefix

`match_prefix` keeps the longest prefix so far and copies its bits over those of the one before.
The bits behind it are still the ones that `pd` had at first.  They are zero unless the rule
gives a `pd`, which it may do without a `pdlen`.
-/

namespace Rooter.Mapcalc

open List BitField

/-- The mask and the address of an entry that a rule can use. -/
def candidate (r : Rule) (d : PrefixAttr) : Option (Int × Octets) :=
  match d.address, d.mask with
  | some address, some mask =>
      if r.prefix6len ≤ mask ∧ ∀ j < r.prefix6len.toNat, bit address j = bit r.ipv6Prefix j then
        some (mask, address)
      else none
  | _, _ => none

/-- The first one of the longest `candidates` is taken over what `found` was, if it is longer.  A
    search starts with a negative length, so any candidate is. -/
def Longest (candidates : List (Int × Octets)) (found result : Int × Octets) : Prop :=
  ((∀ x ∈ candidates, x.1 ≤ found.1) ∧ result = found) ∨
    ∃ front c back, candidates = front ++ c :: back ∧ found.1 < c.1 ∧ (∀ x ∈ front, x.1 < c.1) ∧
      (∀ x ∈ back, x.1 ≤ c.1) ∧ result.1 = c.1 ∧
      ∀ j, bit result.2 j = if j < c.1.toNat then bit c.2 j else bit found.2 j

def choose (found c : Int × Octets) : Int × Octets :=
  if found.1 < c.1 then (c.1, bmemcpy found.2 c.2 c.1.toNat) else found

variable {r : Rule} {found result c : Int × Octets}

theorem Longest.choose {candidates : List (Int × Octets)} (h : Longest candidates found result) :
    Longest (candidates ++ [c]) found (choose result c) := by
  unfold Mapcalc.choose
  rcases h with ⟨hall, rfl⟩ | ⟨front, c₀, back, rfl, hmore, hfront, hback, hlen, hbit⟩
  · split
    next hlt =>
      refine .inr ⟨candidates, c, [], rfl, hlt, fun x hx => ?_, by simp, rfl, bit_bmemcpy _ _ _⟩
      exact Int.lt_of_le_of_lt (hall x hx) hlt
    next hle =>
      refine .inl ⟨fun x hx => ?_, rfl⟩
      rcases mem_append.mp hx with hx | hx
      · exact hall x hx
      · rw [mem_singleton.mp hx]
        exact Int.not_lt.mp hle
  · rw [hlen]
    split
    next hlt =>
      refine .inr ⟨front ++ c₀ :: back, c, [], rfl, by omega, fun x hx => ?_, by simp, rfl,
        fun j => ?_⟩
      · refine Int.lt_of_le_of_lt ?_ hlt
        rcases mem_append.mp hx with hx | hx
        · exact Int.le_of_lt (hfront x hx)
        · rcases mem_cons.mp hx with rfl | hx
          · exact Int.le_refl _
          · exact hback x hx
      · rw [bit_bmemcpy, hbit]
        split
        · rfl
        · rw [if_neg (by omega)]
    next hle =>
      refine .inr ⟨front, c₀, back ++ [c], by simp, hmore, hfront, fun x hx => ?_, hlen, hbit⟩
      rcases mem_append.mp hx with hx | hx
      · exact hback x hx
      · rw [mem_singleton.mp hx]
        exact Int.not_lt.mp hle

theorem matchEntry_eq (hlw : r.lw4o6 = false) (hlen : 0 ≤ r.prefix6len) {d : PrefixAttr}
    (hmask : ∀ mask ∈ d.mask, mask ≤ 128) (found : Int × Octets) :
    matchEntry r found d = some ((candidate r d).elim found (choose found)) := by
  obtain ⟨_ | address, _ | mask⟩ := d
  · rfl
  · rfl
  · rfl
  · have hle := hmask mask rfl
    unfold matchEntry candidate choose
    simp only [hlw, Bool.false_eq_true, false_and, if_false, bmemcmp_iff]
    rw [if_neg (Int.not_lt.mpr hlen), if_neg (Int.not_lt.mpr hle)]
    by_cases hlong : r.prefix6len ≤ mask
    · by_cases hsame : ∀ j < r.prefix6len.toNat, bit address j = bit r.ipv6Prefix j
      · rw [if_pos hsame, if_pos (And.intro hlong hsame)]
        simp only [hlong, and_true, Option.elim_some]
        split <;> rfl
      · rw [if_neg hsame, if_neg (mt And.right hsame), ite_self]
        rfl
    · simp [hlong]

/-- **The longest prefix is found**, in any order of the entries. -/
theorem matchPrefix_longest (hlw : r.lw4o6 = false) (hlen : 0 ≤ r.prefix6len)
    {cur : List PrefixAttr} (hmask : ∀ d ∈ cur, ∀ mask ∈ d.mask, mask ≤ 128) :
    ∃ result, matchPrefix r found cur = some result ∧
      Longest (cur.filterMap (candidate r)) found result := by
  -- from the back, as the loop goes on from what it has found so far
  induction cur using reverseRecOn with
  | nil => exact ⟨found, rfl, .inl ⟨by simp, rfl⟩⟩
  | append_singleton cur d ih =>
    obtain ⟨result, hrun, hlongest⟩ := ih fun d' hd' => hmask d' (mem_append_left _ hd')
    have hd := hmask d (mem_append_right _ mem_cons_self)
    have hstep : matchPrefix r found (cur ++ [d]) =
        some ((candidate r d).elim result (choose result)) := by
      rw [matchPrefix, foldlM_append, ← matchPrefix, hrun]
      simpa using matchEntry_eq hlw hlen hd result
    refine ⟨_, hstep, ?_⟩
    rw [filterMap_append]
    cases hc : candidate r d with
    | none => simpa [hc] using hlongest
    | some c => simpa [hc] using hlongest.choose (c := c)

/-- Two entries are in 2001:db8::/32; the third is too short for the rule, the last is outside. -/
theorem matchPrefix_longest_three :
    let r := Rule.parse
      [.prefix6len (some 32), .ipv6Prefix (some (octets 16 (0x20010db8 * 2 ^ 96)))]
    let a := octets 16 (0x20010db80001 * 2 ^ 80)
    let b := octets 16 (0x20010db8000102 * 2 ^ 72)
    ∃ result, matchPrefix r (-1, zeros) [⟨some a, some 48⟩, ⟨some b, some 56⟩, ⟨some a, some 16⟩,
      ⟨some zeros, some 64⟩] = some result ∧ Longest [(48, a), (56, b)] (-1, zeros) result :=
  matchPrefix_longest rfl (by decide) (by simp)

/-- The rule gives an address as `pd`, and no `pdlen`: the last bit is still there behind the
    prefix that was found. -/
theorem not_longest_pd :
    let r := Rule.parse [.prefix6len (some 0), .pd (some (octets 16 1))]
    ∃ result, matchPrefix r (r.pdlen, r.pd) [⟨some zeros, some 56⟩] = some result ∧
      result.1 = 56 ∧ bit result.2 127 = true :=
  ⟨_, rfl, by decide +kernel⟩

end Rooter.Mapcalc
