import Rooter.SmsHex

/-!
# What becomes of a line of hexadecimal digits

`parse` meets a PDU that may end anywhere.  On most cut points it returns 0; on three
of them it indexes, compares or joins `nil` and the script stops: inside the first
pair of digits of the sender, inside the header of the user data, and inside the second
time stamp of a status report.  `Tpdu.Stops` collects them, and `parse_hex` says that
there are no others and what the variables hold afterwards.
-/

namespace Rooter.SmsRead

open List LuaString Program

/-! ### The user data -/

def headerOctets (udh : Bool) (ud : List Char) : Nat :=
  if udh then (octet2binCheck (ud.drop 2)).getD 0 + 1 else 0

def TextFits (udh : Bool) (alphabet : Nat) (ud : List Char) : Prop :=
  let n := (octet2binCheck ud).getD 0
  if alphabet = 0 then 2 + 2 * ((7 * n + 7) / 8) ≤ ud.length
  else headerOctets udh ud < n ∧ 2 + 2 * n ≤ ud.length

/-- The header is announced but missing, or it ends inside its concatenation data. -/
def CutUdh (udh : Bool) (ud : List Char) : Prop := udh = true ∧ (ud.length ≤ 2 ∨ CutConcat ud)

variable {pdu ud : List Char}

theorem binaryLoop_ok (h : Hex pdu) (skip : Nat) (alphabet : Int) (n : Nat) :
    ∀ (k lastI : Nat) (text : List Char) (surrogate : Nat),
      (binaryLoop pdu skip alphabet n k lastI text surrogate).1 = true ↔
        n = 0 ∨ 2 + 2 * (k + n + skip) ≤ pdu.length := by
  induction n with
  | zero => intro k lastI text surrogate; simp [binaryLoop]
  | succ n ih =>
    intro k lastI text surrogate
    have hoctet := octet2binCheck_isSome (h.subFrom (k * 2 + 3 + skip * 2))
    rw [LuaString.subFrom, length_drop] at hoctet
    rw [binaryLoop, LuaString.subFrom]
    cases hi : octet2binCheck (pdu.drop (k * 2 + 3 + skip * 2 - 1)) with
    | none =>
      rw [hi] at hoctet
      simp only [Option.isSome_none, Bool.false_eq_true, false_iff] at hoctet
      simp only [Bool.false_eq_true, false_iff]
      omega
    | some i =>
      rw [hi] at hoctet
      simp only [Option.isSome_some, true_iff] at hoctet
      have hgoal : n = 0 ∨ 2 + 2 * (k + 1 + n + skip) ≤ pdu.length ↔
          n + 1 = 0 ∨ 2 + 2 * (k + (n + 1) + skip) ≤ pdu.length := by omega
      rw [← hgoal]
      dsimp only
      split
      · split
        · exact ih _ _ _ _
        · exact ih _ _ _ _
      · exact ih _ _ _ _

theorem skipCharacters_hex (h : Hex ud) (udh : Bool) (d : Decoder) :
    Settles (CutUdh udh ud) (skipCharacters ud udh d) fun _ => True := by
  cases udh with
  | false => exact ⟨fun hcut => Bool.false_ne_true hcut.1, trivial⟩
  | true =>
    refine settles_bind (readUdh_hex h d) (fun hbad => ⟨rfl, hbad⟩) fun hgood udhsize d' _ => ?_
    cases udhsize <;> exact ⟨fun hcut => hgood hcut.2, trivial⟩

theorem skipOctets_hex (h : Hex ud) (udh : Bool) (d : Decoder) :
    Settles (CutUdh udh ud) (skipOctets ud udh d) fun p =>
      p.1 = if udh then (octet2binCheck (ud.drop 2)).map (· + 1) else some 0 := by
  cases udh with
  | false => exact ⟨fun hcut => Bool.false_ne_true hcut.1, rfl⟩
  | true =>
    refine settles_bind (readUdh_hex h d) (fun hbad => ⟨rfl, hbad⟩) fun hgood udhsize d' hsize => ?_
    rw [← hsize]
    cases udhsize <;> exact ⟨fun hcut => hgood hcut.2, rfl⟩

structure TextResult (udh : Bool) (alphabet : Nat) (ud : List Char) (d : Decoder)
    (p : Int × Decoder) : Prop where
  accepted : 0 < p.1 ↔ TextFits udh alphabet ud
  text : p.2.mText.isSome = true
  number : p.2.mNumber = d.mNumber
  date : p.2.mDate = d.mDate
  time : p.2.mTime = d.mTime

theorem pdu2text_hex (h : Hex ud) (hlen : 2 ≤ ud.length) (udh : Bool) (d : Decoder) :
    Settles (CutUdh udh ud) (pdu2text ud udh d) (TextResult udh 0 ud d) := by
  obtain ⟨n, hn⟩ := Option.isSome_iff_exists.mp ((octet2binCheck_isSome h).mpr hlen)
  have hfits : TextFits udh 0 ud ↔ TextComplete ud := by
    rw [textComplete_iff h hn]
    simp [TextFits, hn]
  have hskip := skipCharacters_hex h udh { d with mText := some [] }
  rw [pdu2text_run hn]
  cases hrun : skipCharacters ud udh { d with mText := some [] } with
  | error e =>
    rw [hrun] at hskip
    exact hskip
  | ok p =>
    obtain ⟨c, hd⟩ := skipCharacters_frame hrun
    rw [hrun] at hskip
    refine ⟨hskip.1, ?_, rfl, by rw [hd], by rw [hd], by rw [hd]⟩
    rw [hfits]
    split
    · next hc => simp [hc]
    · next hc => simp [hc]

theorem pdu2binary_hex (h : Hex ud) (hlen : 2 ≤ ud.length) (udh : Bool) {alphabet : Nat}
    (halph : alphabet ≠ 0) (d : Decoder) :
    Settles (CutUdh udh ud) (pdu2binary ud udh d) (TextResult udh alphabet ud d) := by
  obtain ⟨n, hn⟩ := Option.isSome_iff_exists.mp ((octet2binCheck_isSome h).mpr hlen)
  have hfits : TextFits udh alphabet ud ↔ headerOctets udh ud < n ∧ 2 + 2 * n ≤ ud.length := by
    simp [TextFits, hn, halph]
  unfold pdu2binary
  rw [run_modify_bind, hn]
  dsimp only
  have hskip := skipOctets_hex h udh { d with mText := some [] }
  cases hrun : skipOctets ud udh { d with mText := some [] } with
  | error e =>
    rw [hrun] at hskip
    rw [run_bind_of_error hrun]
    exact hskip
  | ok p =>
    obtain ⟨skip, d₁⟩ := p
    obtain ⟨c, hd⟩ := skipOctets_frame hrun
    rw [hrun] at hskip
    obtain ⟨hgood, hsize⟩ := hskip
    rw [run_bind_of_ok hrun]
    cases skip with
    | none =>
      refine ⟨hgood, ?_, by rw [hd]; rfl, by rw [hd], by rw [hd], by rw [hd]⟩
      -- there is no room for the length octet of the header
      have hnone : udh = true ∧ octet2binCheck (ud.drop 2) = none := by
        cases udh with
        | false => simp at hsize
        | true => simpa using hsize.symm
      have hshort := (octet2binCheck_eq_none (h.drop 2)).mp hnone.2
      rw [length_drop] at hshort
      rw [hfits, headerOctets]
      omega
    | some skip =>
      have hskipEq : headerOctets udh ud = skip := by
        cases udh with
        | false => simpa [headerOctets] using hsize.symm
        | true =>
          have hmap := hsize.symm
          simp only [if_true, Option.map_eq_some_iff] at hmap
          obtain ⟨m, hm, hmk⟩ := hmap
          simp [headerOctets, hm, hmk]
      dsimp only
      rw [run_bind_of_ok (run_get d₁)]
      have hloop := binaryLoop_ok h skip d₁.mAlphabet (n - skip) 0 0 [] d₁.surrogate
      generalize binaryLoop ud skip d₁.mAlphabet (n - skip) 0 0 [] d₁.surrogate = out at hloop
      obtain ⟨ok, text, surrogate⟩ := out
      dsimp only at hloop ⊢
      refine ⟨hgood, ?_, rfl, by rw [hd], by rw [hd], by rw [hd]⟩
      rw [hfits]
      cases ok with
      | true =>
        have hroom := hloop.mp rfl
        simp only [if_true]
        omega
      | false =>
        have hroom : ¬ (n - skip = 0 ∨ 2 + 2 * (0 + (n - skip) + skip) ≤ ud.length) := by
          rw [← hloop]
          decide
        simp only [Bool.false_eq_true, if_false]
        omega

/-! ### Addresses -/

namespace Address

variable (a : Address)

def CutNumber : Prop := ¬ a.Named ∧ a.ptr.length < 2

def Complete : Prop := a.Named → a.width ≤ a.ptr.length

instance : Decidable a.Complete := inferInstanceAs (Decidable (_ → _))

def text : Option (Nat × List Char) := if a.Complete then userData a.behind else none

end Address

structure AddressResult (htmp : Nat → List Char) (a : Address) (d : Decoder)
    (p : Option (List Char) × Decoder) : Prop where
  behind : p.1 = if a.Readable htmp then some a.behind else none
  number : a.Readable htmp → p.2.mNumber.isSome = true
  text : p.2.mText.isSome = true ↔ ¬ a.Readable htmp ∧ a.width ≤ a.ptr.length
  udh : p.2.mWithUdh = d.mWithUdh

variable {a : Address} {d : Decoder}

theorem AddressResult.text_eq_none {htmp : Nat → List Char} {p : Option (List Char) × Decoder}
    (hp : AddressResult htmp a d p) (hread : a.Readable htmp) : p.2.mText = none := by
  by_contra hne
  exact (hp.text.mp (Option.isSome_iff_ne_none.mpr hne)).1 hread

theorem readAddress_hex {htmp : Nat → List Char} (hlen : 1 ≤ a.length)
    (hoctet : (octet2binCheck (htmp (a.length * 4 / 7) ++ a.ptr)).isSome = true)
    (clean : List Char → List Char) (plus : Bool) (hd : d.mText = none) :
    Settles a.CutNumber (readAddress htmp clean plus a.length a.addrType a.ptr d)
      (AddressResult htmp a d) := by
  by_cases hnamed : a.Named
  · have hnocut : ¬ a.CutNumber := fun hcut => hcut.1 hnamed
    rw [readAddress_named hnamed]
    by_cases hshort : a.ptr.length < a.width
    · have hno : ¬ a.Readable htmp := fun hread => absurd (hread hnamed).1 (by omega)
      rw [if_pos hshort]
      exact ⟨hnocut, by rw [if_neg hno], fun h => absurd h hno, by simp [hd, hshort], rfl⟩
    · rw [if_neg hshort]
      obtain ⟨n, hn⟩ := Option.isSome_iff_exists.mp hoctet
      have hrun := pdu2text_run hn false d
      rw [run_bind_of_ok hrun]
      by_cases hcomplete : TextComplete (htmp (a.length * 4 / 7) ++ a.ptr)
      · have hread : a.Readable htmp := fun _ => ⟨Nat.not_lt.mp hshort, hcomplete⟩
        rw [if_pos hcomplete, if_neg (by decide)]
        exact ⟨hnocut, by rw [if_pos hread], fun _ => rfl, by simp [hread], rfl⟩
      · have hno : ¬ a.Readable htmp := fun hread => hcomplete (hread hnamed).2
        rw [if_neg hcomplete]
        exact ⟨hnocut, by rw [if_neg hno], fun h => absurd h hno, by simp [hno]; omega, rfl⟩
  · have hread : a.Readable htmp := fun h => absurd h hnamed
    have hwidth : 2 ≤ a.width := by
      rw [Address.width]
      omega
    rw [readAddress_number hnamed, swapchars, length_take]
    by_cases hcut : a.ptr.length < 2
    · rw [if_pos (by omega)]
      exact ⟨hnamed, hcut⟩
    · rw [if_neg (by omega)]
      exact ⟨fun h => hcut h.2, by rw [if_pos hread], fun _ => rfl, by simp [hd, hread], rfl⟩

/-- A name that is there is also complete as a text: `length * 4 / 7` septets never need
    more digits than announced. -/
theorem readable_iff_complete (h : Hex a.ptr) (hmax : a.length ≤ maxNumber) :
    a.Readable upperOctet ↔ a.Complete := by
  have hbound : a.length * 4 / 7 ≤ 36 := by
    rw [maxNumber] at hmax
    omega
  obtain ⟨htwo, hvalue, hhex⟩ := upperOctet_spec _ hbound
  have hn : octet2binCheck (upperOctet (a.length * 4 / 7) ++ a.ptr) = some (a.length * 4 / 7) := by
    rw [octet2binCheck_append (by omega), hvalue]
  have htext := textComplete_iff (hhex.append h) hn
  rw [length_append] at htext
  constructor
  · exact fun hread hnamed => (hread hnamed).1
  · intro hcomplete hnamed
    have hwidth := hcomplete hnamed
    refine ⟨hwidth, htext.mpr ?_⟩
    rw [Address.width] at hwidth
    omega

/-! ### From the address to the user data -/

structure BodyResult (udh : Bool) (text : Option (Nat × List Char)) (p : Int × Decoder) :
    Prop where
  accepted : 0 < p.1 ↔ ∃ alphabet ud, text = some (alphabet, ud) ∧ TextFits udh alphabet ud
  text : p.2.mText.isSome = text.isSome
  stamp : 0 < p.1 → p.2.mDate.isSome = true ∧ p.2.mTime.isSome = true

def CutText (udh : Bool) (text : Option (Nat × List Char)) : Prop :=
  ∃ alphabet ud, text = some (alphabet, ud) ∧ CutUdh udh ud

variable {ptr : List Char}

theorem userData_length {alphabet : Nat} (h : userData ptr = some (alphabet, ud)) :
    ud = ptr.drop 18 ∧ 20 ≤ ptr.length := by
  unfold userData at h
  by_cases hshort : ptr.length < 20
  · rw [if_pos hshort] at h
    cases h
  · rw [if_neg hshort] at h
    refine ⟨?_, Nat.not_lt.mp hshort⟩
    split at h
    · split at h
      · cases h
      · simp only [Option.some.injEq, Prod.mk.injEq] at h
        exact h.2.symm
    · cases h

theorem deliverBody_hex (h : Hex ptr) (hd : d.mText = none) :
    Settles (CutText d.mWithUdh (userData ptr)) (deliverBody ptr d) fun p =>
      BodyResult d.mWithUdh (userData ptr) p ∧ p.2.mNumber = d.mNumber := by
  cases hud : userData ptr with
  | none =>
    have hgood : ¬ CutText d.mWithUdh none := by
      rintro ⟨alphabet, ud, hsome, -⟩
      cases hsome
    rcases deliverBody_none hud d with ⟨alphabet, dcs, date, time, hrun⟩ | ⟨hlong, htz, -⟩
    · rw [hrun]
      exact ⟨hgood, ⟨by simp, by simp [Decoder.withFields, hd],
        fun hpos => absurd hpos (Int.lt_irrefl 0)⟩, rfl⟩
    · -- the time zone is there when the user data are
      have hshort := (octet2binCheck_eq_none (h.drop 16)).mp htz
      rw [length_drop] at hshort
      omega
  | some field =>
    obtain ⟨alphabet, ud⟩ := field
    obtain ⟨hdrop, hlong⟩ := userData_length hud
    have hhex : Hex ud := by
      rw [hdrop]
      exact h.drop 18
    have hlen : 2 ≤ ud.length := by
      rw [hdrop, length_drop]
      omega
    obtain ⟨dcs, date, time, hrun, -⟩ := deliverBody_some hud d
    have hcut : CutUdh d.mWithUdh ud ↔ CutText d.mWithUdh (some (alphabet, ud)) := by
      simp [CutText]
    rw [hrun]
    generalize hd' : d.withFields (if alphabet = 0 then -1 else alphabet) (some dcs) (some date)
      (some time) = d'
    have hresult : Settles (CutUdh d.mWithUdh ud)
        ((if alphabet = 0 then pdu2text ud d.mWithUdh else pdu2binary ud d.mWithUdh) d')
        (TextResult d.mWithUdh alphabet ud d') := by
      by_cases hzero : alphabet = 0
      · rw [hzero]
        exact pdu2text_hex hhex hlen _ d'
      · rw [if_neg hzero]
        exact pdu2binary_hex hhex hlen _ hzero d'
    refine hresult.imp hcut fun p hp => ⟨⟨?_, ?_, ?_⟩, ?_⟩
    · simp [hp.accepted]
    · rw [hp.text]
      rfl
    · intro _
      rw [hp.date, hp.time, ← hd']
      exact ⟨rfl, rfl⟩
    · rw [hp.number, ← hd']
      rfl

/-! ### The two types of messages -/

inductive Tpdu where
  | deliver (udh : Bool) (a : Address)
  | report (messageid : Nat) (a : Address)

def tpduOf (pdu : List Char) : Option Tpdu :=
  match firstOctet pdu with
  | none => none
  | some (tmp, ptr) =>
      if tmp &&& 3 = 0 then (deliverAddress ptr).map (.deliver (decide (0 < tmp &&& 0x40)))
      else if tmp &&& 3 = 2 then (reportAddress ptr).map fun field => .report field.1 field.2
      else none

namespace Tpdu

/-- The PDU ends where the script does not expect it: in the first pair of digits of the
    sender, in the header of the user data, or in the second time stamp of a report. -/
def Stops : Tpdu → Prop
  | .deliver udh a => (a.length ≠ 0 ∧ a.CutNumber) ∨ CutText udh a.text
  | .report _ a =>
      a.CutNumber ∨ (a.Readable hexOctet ∧ 14 ≤ a.behind.length ∧ a.behind.length < 26)

def Accepted : Tpdu → Prop
  | .deliver udh a => ∃ alphabet ud, a.text = some (alphabet, ud) ∧ TextFits udh alphabet ud
  | .report _ a => a.Readable hexOctet ∧ 30 ≤ a.behind.length

/-- `m_text` is set.  A name that cannot be decoded leaves its beginning there. -/
def HasText : Tpdu → Prop
  | .deliver _ a => a.text.isSome = true
  | .report _ a =>
      (a.Readable hexOctet ∧ 30 ≤ a.behind.length) ∨
        (¬ a.Readable hexOctet ∧ a.width ≤ a.ptr.length)

def Anonymous : Tpdu → Prop
  | .deliver _ a => a.length = 0
  | .report _ _ => False

structure Result (t : Tpdu) (p : Int × Decoder) : Prop where
  accepted : 0 < p.1 ↔ t.Accepted
  text : p.2.mText.isSome = true ↔ t.HasText
  stamp : 0 < p.1 → p.2.mDate.isSome = true ∧ p.2.mTime.isSome = true
  number : 0 < p.1 → (p.2.mNumber = none ↔ t.Anonymous)

end Tpdu

theorem deliverAddress_spec (h : deliverAddress ptr = some a) :
    a.ptr = ptr.drop 4 ∧ a.length ≤ maxNumber ∧ (a.length = 0 → a.addrType = 0) := by
  unfold deliverAddress at h
  split at h; · cases h
  split at h; · cases h
  split at h; · cases h
  next length _ hmax =>
  split at h
  · cases h
    exact ⟨rfl, Nat.zero_le _, fun _ => rfl⟩
  next hzero =>
  split at h; · cases h
  split at h; · cases h
  cases h
  exact ⟨rfl, Nat.not_lt.mp hmax, fun h0 => absurd h0 hzero⟩

theorem reportAddress_spec {messageid : Nat} (h : reportAddress ptr = some (messageid, a)) :
    a.ptr = ptr.drop 6 ∧ 1 ≤ a.length ∧ a.length ≤ maxNumber := by
  unfold reportAddress at h
  split at h
  · cases h
  · split at h
    · split at h
      · cases h
      · next hrange =>
        cases h
        simp only [not_or, Nat.not_lt] at hrange
        exact ⟨rfl, hrange.1, hrange.2.1⟩
    · cases h

theorem parseDeliver_hex (h : Hex ptr) (ha : deliverAddress ptr = some a) (hd : d.mText = none)
    (hn : d.mNumber = none) :
    Settles (Tpdu.deliver d.mWithUdh a).Stops (parseDeliver ptr d)
      (Tpdu.deliver d.mWithUdh a).Result := by
  obtain ⟨hptr, hmax, htype⟩ := deliverAddress_spec ha
  have hhex : Hex a.ptr := by
    rw [hptr]
    exact h.drop 4
  rw [parseDeliver_eq, ha]
  dsimp only
  by_cases hzero : a.length = 0
  · -- without an address the fields follow at once
    have hnamed : ¬ a.Named := by
      rw [Address.Named, htype hzero]
      decide
    have hcomplete : a.Complete := fun hna => absurd hna hnamed
    have htext : a.text = userData a.ptr := by
      rw [Address.text, if_pos hcomplete, Address.behind, Address.width, hzero]
      rfl
    rw [if_pos hzero]
    refine (deliverBody_hex hhex hd).imp ?_ fun p hp => ⟨?_, ?_, hp.1.stamp, fun _ => ?_⟩
    · rw [Tpdu.Stops, htext]
      exact ⟨.inr, fun hstop => hstop.resolve_left fun hcut => hcut.1 hzero⟩
    · rw [hp.1.accepted, Tpdu.Accepted, htext]
    · rw [hp.1.text, Tpdu.HasText, htext]
    · rw [hp.2, hn]
      exact iff_of_true rfl hzero
  · rw [if_neg hzero]
    have hoctet : (octet2binCheck (upperOctet (a.length * 4 / 7) ++ a.ptr)).isSome = true := by
      have hbound : a.length * 4 / 7 ≤ 36 := by
        rw [maxNumber] at hmax
        omega
      obtain ⟨htwo, hvalue, -⟩ := upperOctet_spec (a.length * 4 / 7) hbound
      rw [octet2binCheck_append (by omega), hvalue]
      rfl
    have hread := readable_iff_complete hhex hmax
    refine settles_bind (readAddress_hex (by omega) hoctet blankLines true hd)
      (fun hcut => .inl ⟨hzero, hcut⟩) fun hgood behind d' hp => ?_
    have hbehind := hp.behind
    dsimp only at hbehind
    by_cases hcomplete : a.Complete
    · rw [if_pos (hread.mpr hcomplete)] at hbehind
      have htext : a.text = userData a.behind := by rw [Address.text, if_pos hcomplete]
      have hnone : d'.mText = none := hp.text_eq_none (hread.mpr hcomplete)
      have hudh : d'.mWithUdh = d.mWithUdh := hp.udh
      rw [hbehind]
      have hbody := deliverBody_hex (hhex.drop a.width) hnone
      rw [hudh] at hbody
      refine hbody.imp ?_ fun q hq => ⟨?_, ?_, hq.1.stamp, fun _ => ?_⟩
      · rw [Tpdu.Stops, htext]
        exact ⟨.inr, fun hstop => hstop.resolve_left fun hcut => hgood hcut.2⟩
      · rw [hq.1.accepted, Tpdu.Accepted, htext]
        rfl
      · rw [hq.1.text, Tpdu.HasText, htext]
        rfl
      · rw [hq.2]
        have hsome := hp.number (hread.mpr hcomplete)
        exact iff_of_false (fun h0 => by rw [h0] at hsome; cases hsome) hzero
    · rw [if_neg fun hr => hcomplete (hread.mp hr)] at hbehind
      have htext : a.text = none := by rw [Address.text, if_neg hcomplete]
      rw [hbehind]
      refine ⟨?_, ?_, ?_, fun hpos => absurd hpos (Int.lt_irrefl 0),
        fun hpos => absurd hpos (Int.lt_irrefl 0)⟩
      · rw [Tpdu.Stops, htext]
        rintro (hcut | ⟨alphabet, ud, hsome, -⟩)
        · exact hgood hcut.2
        · cases hsome
      · rw [Tpdu.Accepted, htext]
        simp
      · rw [Tpdu.HasText, htext, hp.text]
        have hshort : ¬ a.width ≤ a.ptr.length := fun hw => hcomplete fun _ => hw
        simp [hshort]

theorem parseStatusReport_hex (h : Hex ptr) {messageid : Nat}
    (ha : reportAddress ptr = some (messageid, a)) (hd : d.mText = none) :
    Settles (Tpdu.report messageid a).Stops (parseStatusReport ptr d)
      (Tpdu.report messageid a).Result := by
  obtain ⟨hptr, hone, hmax⟩ := reportAddress_spec ha
  have hhex : Hex a.behind := by
    rw [Address.behind, hptr]
    exact (h.drop 6).drop _
  have hoctet : (octet2binCheck (hexOctet (a.length * 4 / 7) ++ a.ptr)).isSome = true := by
    obtain ⟨htwo, hvalue⟩ := hexOctet_spec (a.length * 4 / 7) (by rw [maxNumber] at hmax; omega)
    rw [octet2binCheck_append (by omega), hvalue]
  have hsome : ∀ i, (octet2binCheck (a.behind.drop i)).isSome = true ↔ i + 2 ≤ a.behind.length := by
    intro i
    rw [octet2binCheck_isSome (hhex.drop i), length_drop]
    omega
  rw [parseStatusReport_eq, ha]
  refine settles_bind (readAddress_hex hone hoctet id false hd) .inl fun hgood behind d' hp => ?_
  have hbehind := hp.behind
  dsimp only at hbehind
  by_cases hread : a.Readable hexOctet
  · rw [if_pos hread] at hbehind
    rw [hbehind]
    dsimp only
    by_cases hcut : 14 ≤ a.behind.length ∧ a.behind.length < 26
    · rw [reportBody_error hcut.1 hcut.2 ((hsome 12).mpr hcut.1)]
      exact .inr ⟨hread, hcut⟩
    · have hlen : a.behind.length < 14 ∨ 26 ≤ a.behind.length ∨
          octet2binCheck (a.behind.drop 12) = none := by omega
      obtain ⟨date, time, text, result, hrun, hcases, hlong, hshort⟩ :=
        reportBody_ok hlen messageid d'
      have hnone : d'.mText = none := hp.text_eq_none hread
      have hresult : 0 < result ↔ 30 ≤ a.behind.length := by
        constructor
        · intro hpos
          by_contra hlt
          omega
        · intro h30
          have := hlong h30 ((hsome 12).mpr (by omega)) ((hsome 26).mpr (by omega))
            ((hsome 28).mpr (by omega))
          omega
      rw [hrun]
      refine ⟨?_, ?_, ?_, fun hpos => ?_, fun _ => ?_⟩
      · rintro (hnumber | ⟨-, hrange⟩)
        · exact hgood hnumber
        · exact hcut hrange
      · rw [Tpdu.Accepted, hresult]
        simp [hread]
      · rw [Tpdu.HasText, ← hresult]
        rcases hcases with ⟨hzero, htext⟩ | ⟨hpos, -, -, htext⟩
        · simp [Decoder.withReport, htext, hnone, hzero, hread]
        · simp [Decoder.withReport, htext, hpos, hread]
      · rcases hcases with ⟨hzero, -⟩ | ⟨-, hdate, htime, -⟩
        · omega
        · exact ⟨congrArg Option.isSome hdate, congrArg Option.isSome htime⟩
      · have hnumber := hp.number hread
        exact iff_of_false (fun h0 => by
          rw [show d'.mNumber = none from h0] at hnumber
          cases hnumber) id
  · rw [if_neg hread] at hbehind
    rw [hbehind]
    refine ⟨?_, ?_, ?_, fun hpos => absurd hpos (Int.lt_irrefl 0),
      fun hpos => absurd hpos (Int.lt_irrefl 0)⟩
    · rintro (hnumber | ⟨hr, -⟩)
      · exact hgood hnumber
      · exact hread hr
    · simp [Tpdu.Accepted, hread]
    · rw [Tpdu.HasText, hp.text]
      simp [hread]

/-! ### A whole PDU -/

def Stops (pdu : List Char) : Prop := ∃ t, tpduOf pdu = some t ∧ t.Stops

def Accepted (pdu : List Char) : Prop := ∃ t, tpduOf pdu = some t ∧ t.Accepted

def HasText (pdu : List Char) : Prop := ∃ t, tpduOf pdu = some t ∧ t.HasText

def Anonymous (pdu : List Char) : Prop := ∃ t, tpduOf pdu = some t ∧ t.Anonymous

theorem parseSMSC_drop (h : parseSMSC pdu = .ok (some ptr)) : ∃ k, ptr = pdu.drop k := by
  unfold parseSMSC at h
  split at h; · cases h
  dsimp only at h
  split at h
  · cases h
    exact ⟨2, rfl⟩
  split at h; · cases h
  split at h; · cases h
  split at h; · cases h
  split at h; · cases h
  split at h; · cases h
  next smsc _ =>
  generalize all _ _ = digits at h
  cases digits with
  | false => cases h
  | true =>
    cases h
    exact ⟨_, by simp only [subFrom, drop_drop]; rfl⟩

theorem firstOctet_hex {tmp : Nat} (h : Hex pdu) (hfirst : firstOctet pdu = some (tmp, ptr)) :
    Hex ptr := by
  unfold firstOctet at hfirst
  split at hfirst
  · next ptr' hsmsc =>
    obtain ⟨k, rfl⟩ := parseSMSC_drop hsmsc
    simp only [Option.map_eq_some_iff] at hfirst
    obtain ⟨_, -, -, rfl⟩ := hfirst
    exact (h.drop k).subFrom 3
  · cases hfirst

structure ParseResult (pdu : List Char) (p : Int × Decoder) : Prop where
  accepted : 0 < p.1 ↔ Accepted pdu
  text : p.2.mText.isSome = true ↔ HasText pdu
  stamp : 0 < p.1 → p.2.mDate.isSome = true ∧ p.2.mTime.isSome = true
  number : 0 < p.1 → (p.2.mNumber = none ↔ Anonymous pdu)

theorem exists_some_iff {α : Type} {x : Option α} {a : α} (h : x = some a) (P : α → Prop) :
    (∃ b, x = some b ∧ P b) ↔ P a := by
  subst h
  simp

theorem Tpdu.Result.parseResult {t : Tpdu} (ht : tpduOf pdu = some t) {p : Int × Decoder}
    (h : t.Result p) : ParseResult pdu p where
  accepted := h.accepted.trans (exists_some_iff ht _).symm
  text := h.text.trans (exists_some_iff ht _).symm
  stamp := h.stamp
  number := fun hpos => (h.number hpos).trans (exists_some_iff ht _).symm

theorem settles_reject (ht : tpduOf pdu = none) (hd : d.mText = none) :
    Settles (Stops pdu) (.ok (0, d) : Except LuaError (Int × Decoder)) (ParseResult pdu) := by
  refine ⟨?_, ?_, ?_, fun hpos => absurd hpos (Int.lt_irrefl 0),
    fun hpos => absurd hpos (Int.lt_irrefl 0)⟩
  · simp [Stops, ht]
  · simp [Accepted, ht]
  · simp [HasText, ht, hd]

/-- **`parse` stops exactly on the PDUs that are cut at one of three places**; otherwise its
    outcome is a matter of the lengths of the fields. -/
theorem parse_hex (h : Hex pdu) (d : Decoder) :
    Settles (Stops pdu) (parse pdu d.reset) (ParseResult pdu) := by
  have hstops : ∀ {t}, tpduOf pdu = some t → (t.Stops ↔ Stops pdu) := fun ht =>
    (exists_some_iff ht _).symm
  rw [parse_eq]
  cases hfirst : firstOctet pdu with
  | none => exact settles_reject (by simp [tpduOf, hfirst]) rfl
  | some field =>
    obtain ⟨tmp, ptr⟩ := field
    have hptr : Hex ptr := firstOctet_hex h hfirst
    dsimp only
    unfold parseTpdu
    rw [run_modify_bind]
    generalize hd' : (if 0 < tmp &&& 64 then { d.reset with mWithUdh := true } else d.reset) = d'
    obtain ⟨hudh, htext, hnumber⟩ : d'.mWithUdh = decide (0 < tmp &&& 64) ∧ d'.mText = none ∧
        d'.mNumber = none := by
      rw [← hd']
      split
      · next hflag => simp [hflag, Decoder.reset]
      · next hflag => simp [hflag, Decoder.reset]
    split
    · next hdeliver =>
      cases ha : deliverAddress ptr with
      | none =>
        rw [parseDeliver_eq, ha]
        exact settles_reject (by simp [tpduOf, hfirst, hdeliver, ha]) htext
      | some a =>
        have ht : tpduOf pdu = some (.deliver d'.mWithUdh a) := by
          simp [tpduOf, hfirst, hdeliver, ha, hudh]
        refine settles_bind (parseDeliver_hex hptr ha htext hnumber) (hstops ht).mp
          fun hgood result d₁ hp => ⟨fun hs => hgood ((hstops ht).mpr hs), ?_⟩
        have hflag : 0 < (if result < 1 then (0 : Int) else 1) ↔ 0 < result := by
          split <;> omega
        refine Tpdu.Result.parseResult ht ⟨?_, hp.text, fun hpos => ?_, fun hpos => ?_⟩
        · rw [← hp.accepted]
          exact hflag
        · exact hp.stamp (hflag.mp hpos)
        · exact hp.number (hflag.mp hpos)
    · next hdeliver =>
      split
      · next hreport =>
        cases ha : reportAddress ptr with
        | none =>
          rw [parseStatusReport_eq, ha]
          exact settles_reject (by simp [tpduOf, hfirst, hreport, ha]) htext
        | some field =>
          obtain ⟨messageid, a⟩ := field
          have ht : tpduOf pdu = some (.report messageid a) := by
            simp [tpduOf, hfirst, hreport, ha]
          exact (parseStatusReport_hex hptr ha htext).imp (hstops ht) fun p hp =>
            hp.parseResult ht
      · next hreport =>
        exact settles_reject (by simp [tpduOf, hfirst, hdeliver, hreport]) htext

end Rooter.SmsRead
