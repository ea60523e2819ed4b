import Rooter.SmsOutcome

/-!
# Time stamps

`parseDeliver` and `parseStatusReport` test the digits of date and time with `not isdigit(..)`.
`isdigit` returns 0 or 1 and both are true in Lua, so no test ever fails: what is shown for an
accepted message is numeric exactly if the PDU has decimal digits there.
-/

namespace Rooter.SmsRead

open List Numeral Program

/-! ### What is shown -/

/-- Three numbers of two digits with separators between them; anything may follow. -/
def Numeric (separator : Char) : List Char → Prop
  | c₁ :: c₂ :: s₁ :: c₃ :: c₄ :: s₂ :: c₅ :: c₆ :: _ =>
      s₁ = separator ∧ s₂ = separator ∧ [c₁, c₂, c₃, c₄, c₅, c₆].all isdigit = true
  | _ => False

def NumericStamp (d : Decoder) : Prop :=
  ∃ date time, d.mDate = some date ∧ d.mTime = some time ∧
    date.length = 8 ∧ Numeric '-' date ∧ Numeric ':' time

variable {ptr : List Char}

theorem numeric_swapThree_append {separator : Char} (hlen : 6 ≤ ptr.length) (tail : List Char) :
    (swapThree separator ptr).length = 8 ∧
    (Numeric separator (swapThree separator ptr ++ tail) ↔ (ptr.take 6).all isdigit = true) := by
  match ptr, hlen with
  | c₁ :: c₂ :: c₃ :: c₄ :: c₅ :: c₆ :: rest, _ =>
    have hswap : swapThree separator (c₁ :: c₂ :: c₃ :: c₄ :: c₅ :: c₆ :: rest)
        = [c₂, c₁, separator, c₄, c₃, separator, c₆, c₅] := rfl
    rw [hswap]
    refine ⟨rfl, ?_⟩
    simp only [cons_append, Numeric, all_cons, Bool.and_eq_true, take_succ_cons]
    tauto

/-! ### Where it stands -/

def Tpdu.stamp : Tpdu → List Char
  | .deliver _ a => a.behind.drop 4
  | .report _ a => a.behind

def timeStamp (pdu : List Char) : List Char :=
  match tpduOf pdu with
  | none => []
  | some t => t.stamp.take 12

/-- The stamp as the decoder stores it; a DELIVER has the time zone behind the time. -/
def Decoder.HasStamp (d : Decoder) (stamp : List Char) : Prop :=
  12 ≤ stamp.length ∧ d.mDate = some (swapThree '-' stamp) ∧
    ∃ zone, d.mTime = some (swapThree ':' (stamp.drop 6) ++ zone)

variable {d d' : Decoder} {result : Int}

theorem Decoder.HasStamp.isNumeric_iff {stamp : List Char} (h : d.HasStamp stamp) :
    NumericStamp d ↔ (stamp.take 12).all isdigit = true := by
  obtain ⟨hlen, hdate, zone, htime⟩ := h
  have hbehind : 6 ≤ (stamp.drop 6).length := by
    rw [length_drop]
    omega
  obtain ⟨hlong, hnumeric⟩ := @numeric_swapThree_append stamp '-' (by omega) []
  obtain ⟨-, hnumeric'⟩ := @numeric_swapThree_append _ ':' hbehind zone
  rw [append_nil] at hnumeric
  have hsplit : stamp.take 12 = stamp.take 6 ++ (stamp.drop 6).take 6 :=
    take_add (j := 6)
  rw [hsplit, all_append, Bool.and_eq_true, ← hnumeric, ← hnumeric']
  constructor
  · rintro ⟨date, time, hd, ht, -, hday, hclock⟩
    rw [hdate] at hd
    rw [htime] at ht
    cases hd
    cases ht
    exact ⟨hday, hclock⟩
  · rintro ⟨hday, hclock⟩
    exact ⟨_, _, hdate, htime, hlong, hday, hclock⟩

/-! ### The two parsers -/

theorem readAddress_behind {a : Address} {htmp : Nat → List Char} {clean : List Char → List Char}
    {plus : Bool}
    (h : readAddress htmp clean plus a.length a.addrType a.ptr d = .ok (some ptr, d')) :
    ptr = a.behind := by
  by_cases hnamed : a.Named
  · rw [readAddress_named hnamed] at h
    split at h
    · cases h
    · obtain ⟨res, d₁, -, hrest⟩ := run_bind_eq_ok.mp h
      split at hrest
      · cases hrest
      · cases hrest
        rfl
  · rw [readAddress_number hnamed] at h
    split at h
    · cases h
    · cases h
      rfl

theorem deliverBody_stamp (h : deliverBody ptr d = .ok (result, d')) (hpos : 0 < result) :
    d'.HasStamp (ptr.drop 4) := by
  cases hud : userData ptr with
  | none =>
    rcases deliverBody_none hud d with ⟨alphabet, dcs, date, time, hrun⟩ | ⟨-, -, e, hrun⟩
    · rw [hrun] at h
      cases h
      exact absurd hpos (Int.lt_irrefl 0)
    · rw [hrun] at h
      cases h
  | some field =>
    obtain ⟨alphabet, ud⟩ := field
    obtain ⟨-, hlong⟩ := userData_length hud
    obtain ⟨dcs, date, time, hrun, hdate, zone, htime⟩ := deliverBody_some hud d
    rw [hrun] at h
    -- decoding the text does not touch the stamp
    have hkeep : d'.mDate = some date ∧ d'.mTime = some time := by
      split at h
      · obtain ⟨-, skip, c, rfl⟩ := pdu2text_frame h
        exact ⟨rfl, rfl⟩
      · obtain ⟨skip, n, c, rfl⟩ := pdu2binary_frame h
        exact ⟨rfl, rfl⟩
    refine ⟨?_, ?_, ' ' :: zone ++ ['h'], ?_⟩
    · rw [length_drop]
      omega
    · rw [hkeep.1, hdate]
    · rw [drop_drop, hkeep.2, htime, append_assoc]

theorem reportBody_stamp {messageid : Nat} (h : reportBody messageid ptr d = .ok (result, d'))
    (hpos : 0 < result) : d'.HasStamp ptr := by
  by_cases hcut : 14 ≤ ptr.length ∧ ptr.length < 26 ∧
      (octet2binCheck (ptr.drop 12)).isSome = true
  · rw [reportBody_error hcut.1 hcut.2.1 hcut.2.2] at h
    cases h
  · have hlen : ptr.length < 14 ∨ 26 ≤ ptr.length ∨ octet2binCheck (ptr.drop 12) = none := by
      cases hzone : octet2binCheck (ptr.drop 12) with
      | none => exact .inr (.inr rfl)
      | some zone =>
        rw [hzone] at hcut
        simp only [Option.isSome_some, and_true] at hcut
        omega
    obtain ⟨date, time, text, result', hrun, hcases, -, hshort⟩ := reportBody_ok hlen messageid d
    rw [hrun] at h
    cases h
    rcases hcases with ⟨hzero, -⟩ | ⟨-, hdate, htime, -⟩
    · omega
    · refine ⟨?_, hdate, [], ?_⟩
      · by_contra hlt
        omega
      · rw [append_nil]
        exact htime

/-! ### A whole PDU -/

theorem parseDeliver_stamp (h : parseDeliver ptr d = .ok (result, d')) (hpos : 0 < result) :
    ∃ a, deliverAddress ptr = some a ∧ d'.HasStamp (a.behind.drop 4) := by
  rw [parseDeliver_eq] at h
  cases ha : deliverAddress ptr with
  | none =>
    rw [ha] at h
    cases h
    exact absurd hpos (Int.lt_irrefl 0)
  | some a =>
    rw [ha] at h
    dsimp only at h
    refine ⟨a, rfl, ?_⟩
    split at h
    · next hzero =>
      have hbehind : a.behind = a.ptr := by
        rw [Address.behind, Address.width, hzero]
        rfl
      rw [hbehind]
      exact deliverBody_stamp h hpos
    · obtain ⟨behind, d₁, hsender, hbody⟩ := run_bind_eq_ok.mp h
      cases behind with
      | none =>
        cases hbody
        exact absurd hpos (Int.lt_irrefl 0)
      | some ptr' =>
        rw [← readAddress_behind hsender]
        exact deliverBody_stamp hbody hpos

theorem parseStatusReport_stamp (h : parseStatusReport ptr d = .ok (result, d'))
    (hpos : 0 < result) :
    ∃ messageid a, reportAddress ptr = some (messageid, a) ∧ d'.HasStamp a.behind := by
  rw [parseStatusReport_eq] at h
  cases ha : reportAddress ptr with
  | none =>
    rw [ha] at h
    cases h
    exact absurd hpos (Int.lt_irrefl 0)
  | some field =>
    obtain ⟨messageid, a⟩ := field
    rw [ha] at h
    refine ⟨messageid, a, rfl, ?_⟩
    obtain ⟨behind, d₁, haddress, hbody⟩ := run_bind_eq_ok.mp h
    cases behind with
    | none =>
      cases hbody
      exact absurd hpos (Int.lt_irrefl 0)
    | some ptr' =>
      rw [← readAddress_behind haddress]
      exact reportBody_stamp hbody hpos

/-- **An accepted PDU has its stamp stored**, whatever the digits are. -/
theorem parse_stamp {pdu : List Char} {flag : Int} (h : parse pdu d = .ok (flag, d'))
    (hpos : 0 < flag) : ∃ t, tpduOf pdu = some t ∧ d'.HasStamp t.stamp := by
  rw [parse_eq] at h
  unfold tpduOf
  cases hfirst : firstOctet pdu with
  | none =>
    rw [hfirst] at h
    cases h
    exact absurd hpos (Int.lt_irrefl 0)
  | some field =>
    obtain ⟨tmp, ptr⟩ := field
    rw [hfirst] at h
    dsimp only at h ⊢
    unfold parseTpdu at h
    rw [run_bind_of_ok (run_modify _ _)] at h
    by_cases hdeliver : tmp &&& 3 = 0
    · rw [if_pos hdeliver] at h ⊢
      obtain ⟨result, d₁, hrun, hflag⟩ := run_bind_eq_ok.mp h
      cases hflag
      have hresult : 0 < result := by
        split at hpos <;> omega
      obtain ⟨a, ha, hstamp⟩ := parseDeliver_stamp hrun hresult
      rw [ha]
      exact ⟨_, rfl, hstamp⟩
    · rw [if_neg hdeliver] at h ⊢
      by_cases hreport : tmp &&& 3 = 2
      · rw [if_pos hreport] at h ⊢
        obtain ⟨messageid, a, ha, hstamp⟩ := parseStatusReport_stamp h hpos
        rw [ha]
        exact ⟨_, rfl, hstamp⟩
      · rw [if_neg hreport] at h
        cases h
        exact absurd hpos (Int.lt_irrefl 0)

/-- **The stamp of an accepted message is numeric exactly if its twelve digits are decimal.** -/
theorem numericStamp_iff {pdu : List Char} {d d' : Decoder} {flag : Int}
    (h : parse pdu d = .ok (flag, d')) (hpos : 0 < flag) :
    NumericStamp d' ↔ (timeStamp pdu).all isdigit = true := by
  obtain ⟨t, ht, hstamp⟩ := parse_stamp h hpos
  rw [hstamp.isNumeric_iff, timeStamp, ht]

/-- The decoder after a message "A" from 1234 at three seconds after 10:02. -/
def shownAt (date : String) : Decoder :=
  { Decoder.initial with
    mNumber := some "1234".toList, mAlphabet := -1, mDcs := some 0, mDate := some date.toList,
    mTime := some "10:02:03  +0h".toList, mText := some "A".toList }

theorem numericStamp_november :
    parse "00040481214300002211710120300001C1".toList Decoder.initial
      = .ok (1, shownAt "22-11-17") ∧ NumericStamp (shownAt "22-11-17") := by
  have hparse : parse "00040481214300002211710120300001C1".toList Decoder.initial
      = .ok (1, shownAt "22-11-17") := by decide +kernel
  exact ⟨hparse, (numericStamp_iff hparse (by decide)).mpr (by decide +kernel)⟩

/-- With a letter in the month the message is accepted all the same. -/
theorem not_numericStamp : ¬ ∀ (pdu : List Char) (d d' : Decoder) (flag : Int), Hex pdu →
    parse pdu d = .ok (flag, d') → 0 < flag → NumericStamp d' := by
  intro h
  have hparse : parse "0004048121430000222A710120300001C1".toList Decoder.initial
      = .ok (1, shownAt "22-A2-17") := by decide +kernel
  obtain ⟨date, time, hdate, -, -, hnumeric, -⟩ := h _ _ _ _ (by decide) hparse (by decide)
  cases hdate
  exact absurd hnumeric.2.2 (by decide)

end Rooter.SmsRead
