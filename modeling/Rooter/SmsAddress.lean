import Rooter.SmsEscape

/-!
# The two address decoders

The sender of a message and the recipient of a report are read by the same lines, written twice.
For a name both put a length octet before the digits and decode them as a text.  `parseDeliver`
writes the octet in upper-case digits, `parseStatusReport` in lower-case ones, which `octet2bin`
takes for values from 42 on: with a letter in the octet 32 septets too many are decoded.
-/

namespace Rooter.SmsRead

open List LuaString Program

def readRecipient (a : Address) : Lua (Option (List Char)) :=
  readAddress hexOctet id false a.length a.addrType a.ptr

theorem hexOctet_value : ∀ n ≤ 36, (hexOctet n).length = 2 ∧
    octet2binCheck (hexOctet n) = some (if n % 16 < 10 then n else n + 32) := by
  decide +kernel

/-! ### Texts behind a length octet -/

section LengthOctet

variable {octet s : List Char} {n : Nat} (hlen : octet.length = 2)
  (hn : octet2binCheck octet = some n)
include hlen hn

theorem octet2binCheck_octet : octet2binCheck (octet ++ s) = some n := by
  rw [octet2binCheck_append (by omega), hn]

theorem textSeptets_octet : textSeptets (octet ++ s) = unpack s n := by
  rw [textSeptets, octet2binCheck_octet hlen hn]
  rw [drop_left' hlen]

theorem textComplete_octet : TextComplete (octet ++ s) ↔ (unpack s n).length = n := by
  rw [TextComplete, octet2binCheck_octet hlen hn, textSeptets_octet hlen hn, Option.some.injEq,
    eq_comm]

theorem pdu2text_octet (d : Decoder) : ∃ d', pdu2text (octet ++ s) false d
      = .ok (if (unpack s n).length = n then 1 else -2, d') ∧
    d'.mText = some (decodeText d.gTableNbr d.surrogate (unpack s n)) := by
  have hrun := pdu2text_run (octet2binCheck_octet (s := s) hlen hn) false d
  simp only [textSeptets_octet hlen hn, textComplete_octet hlen hn] at hrun
  exact ⟨_, hrun, rfl⟩

end LengthOctet

theorem readAddress_octet {a : Address} (ha : a.Named) (hwidth : a.width ≤ a.ptr.length)
    {htmp : Nat → List Char} {n : Nat} (hlen : (htmp (a.length * 4 / 7)).length = 2)
    (hn : octet2binCheck (htmp (a.length * 4 / 7)) = some n) (clean : List Char → List Char)
    (plus : Bool) (d : Decoder) : ∃ d', readAddress htmp clean plus a.length a.addrType a.ptr d
      = .ok (if (unpack a.ptr n).length = n then some a.behind else none, d') ∧
    ((unpack a.ptr n).length = n →
      d'.mNumber = some (clean (decodeText d.gTableNbr d.surrogate (unpack a.ptr n)))) := by
  obtain ⟨d₁, hrun, htext⟩ := pdu2text_octet hlen hn d
  rw [readAddress_named ha, if_neg (by omega), run_bind_of_ok hrun]
  by_cases hcomplete : (unpack a.ptr n).length = n
  · rw [if_pos hcomplete, if_neg (by decide), run_bind_of_ok (run_modify _ _), if_pos hcomplete]
    refine ⟨_, rfl, fun _ => ?_⟩
    rw [htext]
    rfl
  · rw [if_neg hcomplete, if_neg hcomplete]
    exact ⟨_, rfl, fun h => absurd h hcomplete⟩

/-! ### Septets that follow a text -/

theorem unpackFrom_add (s : List Char) (m n : Nat) : ∀ k, (unpackFrom s k m).length = m →
    unpackFrom s k (m + n) = unpackFrom s k m ++ unpackFrom s (k + m) n := by
  induction m with
  | zero =>
    intro k _
    rw [Nat.zero_add]
    rfl
  | succ m ih =>
    intro k hlen
    rw [Nat.succ_add, unpackFrom, unpackFrom]
    rw [unpackFrom] at hlen
    cases hc : septetAt s k with
    | none => simp [hc] at hlen
    | some c =>
      simp only [hc, length_cons, Nat.add_right_cancel_iff] at hlen
      rw [ih (k + 1) hlen, cons_append, Nat.add_right_comm, Nat.add_assoc]

theorem length_unpackFrom_of_add (s : List Char) (m n : Nat) : ∀ k,
    (unpackFrom s k (m + n)).length = m + n → (unpackFrom s k m).length = m := by
  induction m with
  | zero =>
    intro k _
    rfl
  | succ m ih =>
    intro k hlen
    rw [Nat.succ_add, unpackFrom] at hlen
    rw [unpackFrom]
    cases hc : septetAt s k with
    | none => simp [hc] at hlen
    | some c =>
      simp only [hc] at hlen
      rw [length_cons, ih (k + 1) (Nat.succ.inj hlen)]

theorem decodeText_append (table : TableNbr) (surrogate : Nat) (xs ys : List Nat) :
    ∃ table' surrogate', decodeText table surrogate (xs ++ ys)
      = decodeText table surrogate xs ++ decodeText table' surrogate' ys := by
  rw [decodeText, SmsEncode.write_flatMap, text_write]
  exact ⟨_, _, rfl⟩

theorem length_decodeText_pos {x y : Nat} (hx : x < 128) (hy : y < 128) (ys : List Nat)
    (table : TableNbr) (surrogate : Nat) :
    1 ≤ (decodeText table surrogate (x :: y :: ys)).length := by
  have hextension : ∀ {z : Nat}, z < 128 → ∀ zs,
      1 ≤ (decodeText .two surrogate (z :: zs)).length := by
    intro z hz zs
    have hpos := length_shownChar_pos (char_lt z hz).2.1 surrogate
    rw [decodeText_extension hz, length_append]
    omega
  cases table with
  | two => exact hextension hx _
  | one =>
    by_cases hescape : x = 27
    · rw [hescape, decodeText_escape]
      exact hextension hy _
    · have hpos := length_shownChar_pos ((char_lt x hx).1 hescape).1 surrogate
      rw [decodeText_basic hx hescape, length_append]
      omega

theorem length_decodeText_lt {s : List Char} {m n : Nat} (hmn : m + 2 ≤ n)
    (hlen : (unpack s n).length = n) (table : TableNbr) (surrogate : Nat) :
    (decodeText table surrogate (unpack s m)).length
      < (decodeText table surrogate (unpack s n)).length := by
  obtain ⟨more, rfl⟩ := Nat.exists_eq_add_of_le (show m ≤ n by omega)
  have hfirst := length_unpackFrom_of_add s m more 0 hlen
  have hsplit := unpackFrom_add s m more 0 hfirst
  rw [Nat.zero_add] at hsplit
  rw [unpack, hsplit, length_append] at hlen
  obtain ⟨table', surrogate', htext⟩ := decodeText_append table surrogate (unpackFrom s 0 m)
    (unpackFrom s m more)
  rw [unpack, unpack, hsplit, htext, length_append]
  have hlt := unpackFrom_lt s more m
  rcases hrest : unpackFrom s m more with _ | ⟨x, _ | ⟨y, ys⟩⟩
  · rw [hrest, length_nil] at hlen
    omega
  · rw [hrest, length_singleton] at hlen
    omega
  · rw [hrest] at hlt
    have hpos := length_decodeText_pos (hlt x (by simp)) (hlt y (by simp)) ys table' surrogate'
    omega

/-! ### The two decoders -/

/-- Both decoders read the address to the same end and find the same name, up to the ends of line
    that `parseDeliver` replaces. -/
def SameName (a : Address) (d : Decoder) : Prop :=
  ∃ behind number d₁ d₂, readSender a d = .ok (some behind, d₁) ∧
    readRecipient a d = .ok (some behind, d₂) ∧ d₂.mNumber = some number ∧
    d₁.mNumber = some (blankLines number)

theorem lastDigit_iff : ∀ n ≤ maxNumber,
    n * 4 / 7 % 16 < 10 ↔ ¬ ((18 ≤ n ∧ n ≤ 27) ∨ (46 ≤ n ∧ n ≤ 55)) := by
  decide +kernel

/-- **The two decoders agree** unless the number of septets has a letter for its last digit. -/
theorem sameName_iff {a : Address} (ha : a.Named) (hpos : 1 ≤ a.length)
    (hmax : a.length ≤ maxNumber) (hhex : Hex a.ptr) (hwidth : a.width ≤ a.ptr.length)
    (d : Decoder) :
    SameName a d ↔ ¬ ((18 ≤ a.length ∧ a.length ≤ 27) ∨ (46 ≤ a.length ∧ a.length ≤ 55)) := by
  have hbound : a.length * 4 / 7 ≤ 36 := by
    rw [maxNumber] at hmax
    omega
  have hletter := lastDigit_iff a.length hmax
  obtain ⟨hlen₁, hvalue₁, -⟩ := upperOctet_spec _ hbound
  obtain ⟨hlen₂, hvalue₂⟩ := hexOctet_value _ hbound
  have hcomplete : (unpack a.ptr (a.length * 4 / 7)).length = a.length * 4 / 7 := by
    have hreadable := (readable_iff_complete hhex hmax).mpr fun _ => hwidth
    exact (textComplete_octet hlen₁ hvalue₁).mp (hreadable ha).2
  obtain ⟨d₁, hsender, hname₁⟩ := readAddress_octet ha hwidth hlen₁ hvalue₁ blankLines true d
  obtain ⟨d₂, hrecipient, hname₂⟩ := readAddress_octet ha hwidth hlen₂ hvalue₂ id false d
  rw [if_pos hcomplete] at hsender
  rw [← hletter]
  by_cases hdigit : a.length * 4 / 7 % 16 < 10
  · rw [if_pos hdigit] at hrecipient hname₂
    rw [if_pos hcomplete] at hrecipient
    exact iff_of_true ⟨_, _, _, _, hsender, hrecipient, hname₂ hcomplete, hname₁ hcomplete⟩ hdigit
  · -- the report shows more characters, or is refused
    rw [if_neg hdigit] at hrecipient hname₂
    refine iff_of_false ?_ hdigit
    rintro ⟨behind, number, d₁', d₂', hsender', hrecipient', hnumber, hclean⟩
    cases hsender.symm.trans hsender'
    by_cases hlong : (unpack a.ptr (a.length * 4 / 7 + 32)).length = a.length * 4 / 7 + 32
    · rw [if_pos hlong] at hrecipient
      cases hrecipient.symm.trans hrecipient'
      have hname := Option.some.inj ((hname₂ hlong).symm.trans hnumber)
      have hsame := Option.some.inj ((hname₁ hcomplete).symm.trans hclean)
      have hlt := @length_decodeText_lt a.ptr (a.length * 4 / 7) _ (by omega) hlong d.gTableNbr
        d.surrogate
      have hlen := congrArg length hsame
      rw [← hname] at hlen
      simp only [blankLines, length_map, id] at hlen
      omega
    · rw [if_neg hlong] at hrecipient
      cases hrecipient.symm.trans hrecipient'

/-- A name of four septets. -/
theorem sameName_rooter : SameName ⟨7, 0xD0, "C8329BFD06".toList⟩ Decoder.initial :=
  (sameName_iff (by decide) (by decide) (by decide) (by decide) (by decide) _).mpr (by decide)

def tenAts : Address := ⟨18, 0xD0, replicate 80 '0'⟩

/-- The report shows 42 characters of it. -/
theorem not_sameName : ¬ ∀ (a : Address) (d : Decoder), a.Named → 1 ≤ a.length →
    a.length ≤ maxNumber → Hex a.ptr → a.width ≤ a.ptr.length → SameName a d := by
  intro hclaim
  obtain ⟨behind, number, d₁, d₂, hsender, hrecipient, hnumber, hclean⟩ :=
    hclaim tenAts Decoder.initial (by decide) (by decide) (by decide) (by decide) (by decide)
  have hten : (readSender tenAts Decoder.initial).toOption.bind (fun p => p.2.mNumber)
      = some (replicate 10 '@') := by decide +kernel
  have hmore : (readRecipient tenAts Decoder.initial).toOption.bind (fun p => p.2.mNumber)
      = some (replicate 42 '@') := by decide +kernel
  rw [hsender] at hten
  rw [hrecipient] at hmore
  simp only [Except.toOption, Option.bind_some] at hten hmore
  rw [hnumber, Option.some.injEq] at hmore
  rw [hclean, hmore] at hten
  exact absurd hten (by decide)

end Rooter.SmsRead
