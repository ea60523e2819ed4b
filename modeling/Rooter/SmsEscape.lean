import Mathlib.Data.List.Induction
import Rooter.SmsIndependence
import Rooter.SmsOutcome
import Rooter.SmsRoundTrip

/-!
# Escapes at the end of a header

`pdu2text` decodes the septets of a header together with those of the text and only leaves their
characters out.  An escape in the last septet of the header is still pending when the text
begins, and the first septet of the text is looked up in the extension table.

`decodeText` is the text that a string of septets gives from a table and a pending surrogate.
Two decodings that differ in the table alone agree for few texts (`Harmless`).
-/

namespace Rooter.SmsRead

open List LuaString Program

/-! ### The text of a string of septets -/

def decodeText (table : TableNbr) (surrogate : Nat) (xs : List Nat) : List Char :=
  (Writer.write 0 0 xs ⟨[], surrogate, table⟩).text

theorem text_write (xs : List Nat) (k : Nat) (w : Writer) :
    (Writer.write 0 k xs w).text = w.text ++ decodeText w.table w.surrogate xs := by
  have h := SmsEncode.write_append xs k w.text ⟨[], w.surrogate, w.table⟩
  rw [append_nil] at h
  exact congrArg Writer.text h

theorem write_skip (skip : Nat) (xs : List Nat) : ∀ (k : Nat) (w : Writer),
    (Writer.write skip k xs w).text
      = w.text ++ decodeText (escapeAfter (xs.take (skip - k)) w.table) w.surrogate
          (xs.drop (skip - k)) := by
  induction xs with
  | nil =>
    intro k w
    simp [Writer.write, decodeText]
  | cons x xs ih =>
    intro k w
    by_cases hk : k < skip
    · have hput : w.put (k < skip) x = { w with table := (gsm2byte x w.table).2 } := by
        simp [Writer.put, hk]
      rw [Writer.write, hput, ih, show skip - k = skip - (k + 1) + 1 by omega]
      rfl
    · have hzero : skip - k = 0 := by omega
      have hnext : skip - (k + 1) = 0 := by omega
      have hput : w.put (k < skip) x = w.put (0 < 0) x := by simp [hk]
      have hstart := text_write (x :: xs) 0 w
      rw [Writer.write, text_write] at hstart
      rw [Writer.write, hput, ih, hzero, hnext]
      exact hstart

/-! ### One septet -/

/-- The character of a septet in the default table and in the extension table. -/
def basicChar (x : Nat) : Nat := (gTable1 x).getD x

def extensionChar (x : Nat) : Nat := (gTable2 x).getD 63

theorem char_lt : ∀ x < 128, (x ≠ 27 → basicChar x < 0xD800 ∧ basicChar x ≠ 27) ∧
    extensionChar x < 0xD800 ∧ extensionChar x ≠ 27 := by
  decide +kernel

/-- What `word2utf8` appends for a character, with or without a surrogate before it. -/
def shownChar (surrogate c : Nat) : List Char := (word2utf8 c surrogate []).1

theorem word2utf8_shownChar {c : Nat} (hc : c < 0xD800) (surrogate : Nat) :
    word2utf8 c surrogate [] = (shownChar surrogate c, 0) := by
  rw [shownChar]
  unfold word2utf8
  split
  · split <;> rfl
  · rw [if_neg (by omega)]
    repeat' split
    all_goals simp; try omega

theorem shownChar_pending {surrogate c : Nat} (hs : 0 < surrogate) (hc : c < 0xD800) :
    shownChar surrogate c = replacement := by
  rw [shownChar, word2utf8, if_pos hs, if_neg (by omega), nil_append]

theorem decodeText_cons {table table' : TableNbr} {x c : Nat} (hx : gsm2byte x table = (c, table'))
    (hc : c < 0xD800 ∧ c ≠ 27) (surrogate : Nat) (xs : List Nat) :
    decodeText table surrogate (x :: xs) = shownChar surrogate c ++ decodeText table' 0 xs := by
  have hput : Writer.put (0 < 0) x ⟨[], surrogate, table⟩ = ⟨shownChar surrogate c, 0, table'⟩ := by
    simp [Writer.put, hx, hc.2, word2utf8_shownChar hc.1]
  rw [decodeText, Writer.write, hput, text_write]

theorem decodeText_basic {x : Nat} (hx : x < 128) (hne : x ≠ 27) (surrogate : Nat) (xs : List Nat) :
    decodeText .one surrogate (x :: xs)
      = shownChar surrogate (basicChar x) ++ decodeText .one 0 xs :=
  decodeText_cons (by simp [gsm2byte, hne, basicChar]) ((char_lt x hx).1 hne) surrogate xs

theorem decodeText_extension {x : Nat} (hx : x < 128) (surrogate : Nat) (xs : List Nat) :
    decodeText .two surrogate (x :: xs)
      = shownChar surrogate (extensionChar x) ++ decodeText .one 0 xs :=
  decodeText_cons (show gsm2byte x .two = (extensionChar x, .one) from rfl) (char_lt x hx).2
    surrogate xs

theorem decodeText_escape (surrogate : Nat) (xs : List Nat) :
    decodeText .one surrogate (27 :: xs) = decodeText .two surrogate xs := by
  rw [decodeText, Writer.write, text_write]
  rfl

theorem shownChar_zero : ∀ x < 128, 1 ≤ (shownChar 0 (basicChar x)).length ∧
    1 ≤ (shownChar 0 (extensionChar x)).length ∧
    (x ≠ 27 → 1 + (shownChar 0 (basicChar x)).length ≠ (shownChar 0 (extensionChar x)).length) ∧
    (x ≠ 27 → (shownChar 0 (extensionChar x) = shownChar 0 (basicChar x) ↔ x = 10 ∨ x = 63)) := by
  decide +kernel

/-! ### Texts that do not show a pending escape -/

def SameChar (surrogate x : Nat) : Prop := x ≠ 27 ∧ (0 < surrogate ∨ x = 10 ∨ x = 63)

instance (surrogate x : Nat) : Decidable (SameChar surrogate x) :=
  inferInstanceAs (Decidable (_ ∧ _))

/-- The text is shown in the same way from both tables: there is none, or the first septet behind
    pairs of escapes is such a septet. -/
def Harmless : Nat → List Nat → Prop
  | _, [] => True
  | surrogate, [x] => SameChar surrogate x
  | surrogate, x :: y :: ys => SameChar surrogate x ∨ (x = 27 ∧ y = 27 ∧ Harmless 0 ys)

instance instDecidableHarmless : ∀ (surrogate : Nat) (xs : List Nat),
    Decidable (Harmless surrogate xs)
  | _, [] => inferInstanceAs (Decidable True)
  | surrogate, [x] => inferInstanceAs (Decidable (SameChar surrogate x))
  | surrogate, x :: y :: ys =>
      let _ := instDecidableHarmless 0 ys
      inferInstanceAs (Decidable (SameChar surrogate x ∨ (x = 27 ∧ y = 27 ∧ Harmless 0 ys)))

theorem harmless_of_ne {x : Nat} (hx : x ≠ 27) (surrogate : Nat) (xs : List Nat) :
    Harmless surrogate (x :: xs) ↔ 0 < surrogate ∨ x = 10 ∨ x = 63 := by
  cases xs with
  | nil => simp [Harmless, SameChar, hx]
  | cons y ys => simp [Harmless, SameChar, hx]

theorem shownChar_eq_iff {x : Nat} (hx : x < 128) (hne : x ≠ 27) (surrogate : Nat) :
    shownChar surrogate (extensionChar x) = shownChar surrogate (basicChar x) ↔
      0 < surrogate ∨ x = 10 ∨ x = 63 := by
  obtain ⟨hbasic, hextension⟩ := char_lt x hx
  by_cases hs : 0 < surrogate
  · rw [shownChar_pending hs hextension.1, shownChar_pending hs (hbasic hne).1]
    exact iff_of_true rfl (.inl hs)
  · obtain rfl : surrogate = 0 := by omega
    rw [(shownChar_zero x hx).2.2.2 hne]
    simp

theorem length_shownChar_pos {c : Nat} (hc : c < 0xD800) (surrogate : Nat) :
    1 ≤ (shownChar surrogate c).length := by
  unfold shownChar word2utf8
  repeat' split
  all_goals simp [replacement]
  omega

theorem shownChar_question_ne {y : Nat} (hy : y < 128) (hne : y ≠ 27) (surrogate : Nat)
    (rest : List Char) :
    shownChar surrogate (extensionChar 27) ++ (shownChar 0 (basicChar y) ++ rest)
      ≠ shownChar surrogate (extensionChar y) ++ rest := by
  intro heq
  have hlen := congrArg length heq
  simp only [length_append] at hlen
  obtain ⟨hpos, -, hother, -⟩ := shownChar_zero y hy
  by_cases hs : 0 < surrogate
  · rw [shownChar_pending hs (char_lt 27 (by decide)).2.1,
      shownChar_pending hs (char_lt y hy).2.1] at hlen
    omega
  · obtain rfl : surrogate = 0 := by omega
    have hquestion : (shownChar 0 (extensionChar 27)).length = 1 := by decide
    omega

/-- **A pending escape shows** unless the text is harmless. -/
theorem decodeText_two_eq_iff : ∀ (xs : List Nat) (surrogate : Nat), (∀ x ∈ xs, x < 128) →
    (decodeText .two surrogate xs = decodeText .one surrogate xs ↔ Harmless surrogate xs)
  | [], surrogate, _ => iff_of_true rfl trivial
  | x :: xs, surrogate, hxs => by
    have hx := hxs x mem_cons_self
    rw [decodeText_extension hx]
    by_cases hescape : x = 27
    · subst hescape
      rw [decodeText_escape]
      match xs, hxs with
      | [], _ =>
        refine iff_of_false (fun heq => ?_) fun h => h.1 rfl
        have hpos := length_shownChar_pos (char_lt 27 (by decide)).2.1 surrogate
        have hempty : shownChar surrogate (extensionChar 27) = [] :=
          (append_eq_nil_iff.mp heq).1
        rw [hempty] at hpos
        cases hpos
      | y :: ys, hxs =>
        have hy := hxs y (by simp)
        rw [decodeText_extension hy]
        by_cases hpair : y = 27
        · -- the two decodings have changed places
          subst hpair
          rw [decodeText_escape]
          have ih := decodeText_two_eq_iff ys 0 fun z hz => hxs z (by simp [hz])
          simp [ih, Harmless, SameChar]
        · rw [decodeText_basic hy hpair]
          refine iff_of_false (shownChar_question_ne hy hpair surrogate _) ?_
          rintro (h | h)
          · exact h.1 rfl
          · exact hpair h.2.1
    · rw [harmless_of_ne hescape, decodeText_basic hx hescape, append_cancel_right_eq]
      exact shownChar_eq_iff hx hescape surrogate

/-! ### Escapes at the end of a string -/

def trailingEscapes (xs : List Nat) : Nat := (xs.reverse.takeWhile (· = 27)).length

/-- An escape is pending behind the septets: an odd number of escapes ends them, counting one that
    was pending before if there is nothing else. -/
def EscapePending (table : TableNbr) (xs : List Nat) : Prop :=
  (trailingEscapes xs + if table = .two ∧ trailingEscapes xs = xs.length then 1 else 0) % 2 = 1

instance (table : TableNbr) (xs : List Nat) : Decidable (EscapePending table xs) :=
  inferInstanceAs (Decidable (_ = _))

theorem trailingEscapes_append (xs : List Nat) (x : Nat) :
    trailingEscapes (xs ++ [x]) = if x = 27 then trailingEscapes xs + 1 else 0 := by
  by_cases hx : x = 27
  · simp [trailingEscapes, hx]
  · simp [trailingEscapes, hx]

theorem escapeAfter_eq_two_iff (table : TableNbr) (xs : List Nat) :
    escapeAfter xs table = .two ↔ EscapePending table xs := by
  induction xs using reverseRecOn with
  | nil =>
    cases table
    · simp [escapeAfter, EscapePending, trailingEscapes]
    · simp [escapeAfter, EscapePending, trailingEscapes]
  | append_singleton xs x ih =>
    have hstep : escapeAfter (xs ++ [x]) table = (gsm2byte x (escapeAfter xs table)).2 := by
      rw [escapeAfter_append]
      rfl
    rw [hstep, EscapePending, trailingEscapes_append, length_append, length_singleton]
    unfold EscapePending at ih
    by_cases hx : x = 27
    · -- an escape ends a pending one, or begins one
      subst hx
      rw [if_pos rfl]
      simp only [Nat.add_right_cancel_iff]
      generalize (if table = .two ∧ trailingEscapes xs = xs.length then 1 else 0) = before at ih ⊢
      cases htable : escapeAfter xs table with
      | one =>
        have heven : ¬ (trailingEscapes xs + before) % 2 = 1 := by simp [← ih, htable]
        exact iff_of_true rfl (by omega)
      | two =>
        have hodd := ih.mp htable
        exact iff_of_false (fun hone => by cases hone) (by omega)
    · have hone : (gsm2byte x (escapeAfter xs table)).2 = .one := by
        cases escapeAfter xs table
        · simp [gsm2byte, hx]
        · rfl
      rw [hone, if_neg hx]
      simp

/-! ### The header -/

/-- The septets that the header covers: eight sevenths of its octets, rounded up. -/
def boundary (ud : List Char) : Nat := (headerOctets true ud * 8 + 6) / 7

theorem skipCharacters_boundary {ud : List Char} (h : Hex ud) (hlen : 4 ≤ ud.length)
    (d : Decoder) : Settles (CutConcat ud) (skipCharacters ud true d) fun p =>
      p.1 = boundary ud ∧ ∃ c, p.2 = { d with mConcat := c } := by
  have hcut : ud.length ≤ 2 ∨ CutConcat ud ↔ CutConcat ud := or_iff_right (by omega)
  cases hskip : skipCharacters ud true d with
  | error e =>
    have hbad := skipCharacters_hex h true d
    rw [hskip] at hbad
    exact hcut.mp hbad.2
  | ok p =>
    obtain ⟨skip, d'⟩ := p
    have hgood := skipCharacters_hex h true d
    rw [hskip] at hgood
    refine ⟨fun hbad => hgood.1 ⟨rfl, hcut.mpr hbad⟩, ?_, skipCharacters_frame hskip⟩
    obtain ⟨udhl, hudhl⟩ := Option.isSome_iff_exists.mp
      ((octet2binCheck_isSome (h.drop 2)).mpr (by rw [length_drop]; omega))
    obtain ⟨udhsize, d₁, hread, hrest⟩ := run_bind_eq_ok.mp hskip
    obtain ⟨hsize, -⟩ := readUdh_frame hread
    rw [show subFrom ud 3 = ud.drop 2 from rfl, hudhl] at hsize
    subst hsize
    cases hrest
    rw [boundary, headerOctets, hudhl]
    rfl

/-- **A header leaks into the text** through an escape that it leaves pending. -/
theorem pdu2text_header_iff {ud : List Char} (h : Hex ud) (hcomplete : TextComplete ud)
    (hheader : 4 ≤ ud.length) (d : Decoder) :
    (∃ d', pdu2text ud true d = .ok (1, d') ∧
      d'.mText = some (decodeText .one d.surrogate ((textSeptets ud).drop (boundary ud)))) ↔
    ¬ CutConcat ud ∧ (¬ EscapePending d.gTableNbr ((textSeptets ud).take (boundary ud)) ∨
      Harmless d.surrogate ((textSeptets ud).drop (boundary ud))) := by
  have hskip := skipCharacters_boundary h hheader { d with mText := some [] }
  rw [pdu2text_run hcomplete]
  cases hrun : skipCharacters ud true { d with mText := some [] } with
  | error e =>
    rw [hrun] at hskip
    exact iff_of_false (fun ⟨d', hd', _⟩ => by cases hd') fun hgood => hgood.1 hskip
  | ok p =>
    obtain ⟨skip, d₁⟩ := p
    rw [hrun] at hskip
    obtain ⟨hgood, hboundary, c, hd₁⟩ := hskip
    subst hboundary hd₁
    dsimp only
    rw [if_pos hcomplete, write_skip, and_iff_right hgood, ← escapeAfter_eq_two_iff]
    have hiff := decodeText_two_eq_iff ((textSeptets ud).drop (boundary ud)) d.surrogate
      fun x hx => textSeptets_lt ud x (mem_of_mem_drop hx)
    rw [← hiff]
    cases escapeAfter ((textSeptets ud).take (boundary ud)) d.gTableNbr with
    | one => exact iff_of_true ⟨_, rfl, rfl⟩ (.inl (by decide))
    | two =>
      constructor
      · rintro ⟨d', hd', htext⟩
        cases hd'
        exact .inr (Option.some.inj htext)
      · rintro (hnot | hsame)
        · exact absurd rfl hnot
        · exact ⟨_, rfl, congrArg some hsame⟩

/-- The letter A behind the header of part 2 of 3. -/
theorem pdu2text_header_second : ∃ d', pdu2text "0805000301030282".toList true Decoder.initial
    = .ok (1, d') ∧ d'.mText = some "A".toList := by
  have hdecoded : decodeText .one 0 ((textSeptets "0805000301030282".toList).drop
      (boundary "0805000301030282".toList)) = "A".toList := by decide +kernel
  rw [← hdecoded]
  exact (pdu2text_header_iff (by decide) (by decide +kernel) (by decide) Decoder.initial).mpr
    (by decide +kernel)

/-- Part 108 of 112: the last septet of the header is an escape, and a question mark is shown. -/
theorem not_pdu2text_header : ¬ ∀ (ud : List Char) (d : Decoder), Hex ud → TextComplete ud →
    4 ≤ ud.length → d.gTableNbr = .one → ∃ d', pdu2text ud true d = .ok (1, d') ∧
      d'.mText = some (decodeText .one d.surrogate ((textSeptets ud).drop (boundary ud))) := by
  intro hclaim
  obtain ⟨d', hrun, htext⟩ := hclaim "0805000301706C82".toList Decoder.initial (by decide)
    (by decide +kernel) (by decide) rfl
  have hshown : (pdu2text "0805000301706C82".toList true Decoder.initial).toOption.bind
      (fun p => p.2.mText) = some "?".toList := by decide +kernel
  have hdecoded : decodeText .one 0 ((textSeptets "0805000301706C82".toList).drop
      (boundary "0805000301706C82".toList)) = "A".toList := by decide +kernel
  rw [hrun] at hshown
  simp only [Except.toOption, Option.bind_some] at hshown
  rw [hshown] at htext
  exact absurd ((Option.some.inj htext).trans hdecoded) (by decide)

end Rooter.SmsRead
