import Rooter.SmsOutcome

/-!
# Can one message stop the reading of the others?

An error in one message ends the script before the table is written, and all other messages
are lost.  Besides the cut points of `parse` there are two places where that happens.
`readpdu` joins the sender of an accepted PDU to a separator, and a DELIVER may come without
one.  For an unread message the loop looks into `m_text`, which a rejected PDU need not have
set, and compares it with a PIN that need not be configured.  A rejected PDU is also searched
for commands, so that its slot can be put on the list of slots to delete.

`Safe` is the condition on a message and on the state in which the loop comes to it that
excludes all this; the decoder may still be inside an escape sequence of the message before.
-/

namespace Rooter.SmsRead

open List LuaString Program

/-! ### One PDU line -/

/-- `m_text` after `readpdu`: the concatenation data of an accepted PDU stand before it. -/
def shownText (flag : Int) (d : Decoder) : Option (List Char) :=
  match d.mConcat with
  | none => d.mText
  | some concat => if 0 < flag then d.mText.map fun text => concat ++ '\n' :: text else d.mText

/-- `parse` accepts the PDU when it starts in state `d`. -/
def Accepts (d : Decoder) (pdu : List Char) : Prop :=
  ∃ flag d', parse pdu d = .ok (flag, d') ∧ 0 < flag

def messageText (d : Decoder) (pdu : List Char) : Option (List Char) :=
  match parse pdu d with
  | .ok (flag, d') => shownText flag d'
  | .error _ => none

def messageNumber (d : Decoder) (pdu : List Char) : Option (List Char) :=
  match parse pdu d with
  | .ok (_, d') => d'.mNumber
  | .error _ => none

def Entry.Whole (e : Entry) : Prop :=
  e.number.isSome = true ∧ e.date.isSome = true ∧ e.time.isSome = true ∧ e.text.isSome = true

/-- An accepted PDU adds its record, a rejected one leaves the table and the list of slots
    to delete as they are. -/
structure Kept (d : Decoder) (index pdu : List Char) (r r' : Reading) : Prop where
  accepted : Accepts d pdu → ∃ e, r'.t = r.t ++ [e] ∧ e.index = index ∧ e.Whole
  rejected : ¬ Accepts d pdu → r'.t = r.t ∧ r'.tptr = r.tptr ∧ r'.delslots = r.delslots

structure PduResult (index pdu : List Char) (r r' : Reading) : Prop where
  kept : Kept r.decoder.reset index pdu r r'
  text : r'.decoder.mText = messageText r.decoder.reset pdu
  number : r'.decoder.mNumber = messageNumber r.decoder.reset pdu

variable {pdu : List Char} {r : Reading}

theorem hasText_of_accepted (h : Accepted pdu) : HasText pdu := by
  obtain ⟨t, ht, hacc⟩ := h
  refine ⟨t, ht, ?_⟩
  cases t with
  | deliver udh a =>
    obtain ⟨alphabet, ud, htext, -⟩ := hacc
    rw [Tpdu.HasText, htext]
    rfl
  | report messageid a => exact .inl hacc

theorem shownText_isSome (flag : Int) (d : Decoder) :
    (shownText flag d).isSome = d.mText.isSome := by
  unfold shownText
  cases d.mConcat with
  | none => rfl
  | some concat =>
    dsimp only
    split
    · rw [Option.isSome_map]
    · rfl

theorem message_hex (h : Hex pdu) (hgood : ¬ Stops pdu) (d : Decoder) :
    (Accepts d.reset pdu ↔ Accepted pdu) ∧
      ((messageText d.reset pdu).isSome = true ↔ HasText pdu) := by
  obtain ⟨⟨flag, d'⟩, hrun, hp⟩ := (parse_hex h d).exists_ok hgood
  constructor
  · rw [← hp.accepted]
    constructor
    · rintro ⟨flag', d'', hrun', hpos⟩
      cases hrun.symm.trans hrun'
      exact hpos
    · exact fun hpos => ⟨flag, d', hrun, hpos⟩
  · simp only [messageText, hrun, shownText_isSome]
    exact hp.text

theorem append_spec (index read : List Char) {text number : List Char}
    (hnumber : r.decoder.mNumber = some number) (htext : r.decoder.mText = some text) :
    ∃ r', append index read r = .ok r' ∧
      r'.t = r.t ++ [⟨index, read, some number, r.decoder.mDate, r.decoder.mTime,
        shownText 1 r.decoder⟩] ∧
      r'.decoder.mText = shownText 1 r.decoder ∧ r'.decoder.mNumber = r.decoder.mNumber := by
  unfold append shownText
  rw [hnumber]
  simp only [decoder_ite_delete, t_ite_delete, htext]
  cases r.decoder.mConcat with
  | none => exact ⟨_, rfl, rfl, rfl, hnumber⟩
  | some concat => exact ⟨_, rfl, rfl, rfl, hnumber⟩

theorem readpdu_hex (h : Hex pdu) (index read : List Char) (r : Reading) :
    Settles (Stops pdu ∨ (Accepted pdu ∧ Anonymous pdu)) (readpdu index read pdu r)
      (PduResult index pdu r) := by
  unfold readpdu
  have hparse := parse_hex h r.decoder
  cases hrun : parse pdu r.decoder.reset with
  | error e =>
    rw [hrun] at hparse
    exact .inl hparse
  | ok p =>
    obtain ⟨flag, d⟩ := p
    rw [hrun] at hparse
    obtain ⟨hgood, hp⟩ := hparse
    rw [ok_bind]
    dsimp only
    by_cases hpos : 0 < flag
    · have hacc : Accepted pdu := hp.accepted.mp hpos
      have hyes : Accepts r.decoder.reset pdu := ⟨flag, d, hrun, hpos⟩
      rw [if_pos hpos]
      cases hnumber : d.mNumber with
      | none =>
        -- `gschar .. m_number` fails
        rw [append, hnumber]
        exact .inr ⟨hacc, (hp.number hpos).mp hnumber⟩
      | some number =>
        obtain ⟨text, htext⟩ := Option.isSome_iff_exists.mp (hp.text.mpr (hasText_of_accepted hacc))
        have hshown : shownText flag d = shownText 1 d := by simp [shownText, hpos]
        have hnumber₁ : { r with decoder := d }.decoder.mNumber = some number := hnumber
        obtain ⟨r', happend, ht, htext', hnumber'⟩ := append_spec index read hnumber₁ htext
        rw [happend]
        refine ⟨?_, ⟨fun _ => ⟨_, ht, rfl, rfl, (hp.stamp hpos).1, (hp.stamp hpos).2, ?_⟩,
          absurd hyes⟩, ?_, ?_⟩
        · rintro (hstop | ⟨-, hanon⟩)
          · exact hgood hstop
          · have := (hp.number hpos).mpr hanon
            rw [hnumber] at this
            cases this
        · rw [shownText_isSome, htext]
          rfl
        · simp only [htext', messageText, hrun, hshown]
        · simp only [hnumber', messageNumber, hrun]
    · have hno : ¬ Accepts r.decoder.reset pdu := by
        rintro ⟨flag', d', hrun', hpos'⟩
        cases hrun.symm.trans hrun'
        exact hpos hpos'
      rw [if_neg hpos]
      refine ⟨?_, ⟨fun hyes => absurd hyes hno, fun _ => ⟨rfl, rfl, rfl⟩⟩, ?_, ?_⟩
      · rintro (hstop | ⟨hacc, -⟩)
        · exact hgood hstop
        · exact hpos (hp.accepted.mpr hacc)
      · simp only [messageText, hrun, shownText, hpos]
        cases d.mConcat <;> rfl
      · simp only [messageNumber, hrun]

/-! ### Commands -/

/-- An unread message without a text, or one that begins with GPS but is more than that
    when no PIN is configured. -/
def Unanswerable (env : Env) (text : Option (List Char)) : Prop :=
  text = none ∨ ∃ s, text = some s ∧ s.take 3 = "GPS".toList ∧ s ≠ "GPS".toList ∧ env.gpspin = none

def Order (env : Env) (text number : Option (List Char)) : Prop :=
  ∃ s, text = some s ∧
    (s = "::reboot!!".toList ∨ s = "::restartzt!!".toList ∨ s = "::pwrtoggle!!".toList ∨
      ((s = "GPS".toList ∧ env.gpspin = none ∨
        ∃ pin, env.gpspin = some pin ∧ s = "GPS ".toList ++ pin) ∧
        ∃ n, number = some n ∧ env.isNumeral n = true))

structure CommandResult (env : Env) (r r' : Reading) : Prop where
  table : r'.t = r.t
  delslots : r'.delslots = r.delslots ↔ ¬ Order env r.decoder.mText r.decoder.mNumber

variable {env : Env}

theorem delete_ne (r : Reading) (index : List Char) : (r.delete index).delslots ≠ r.delslots := by
  intro h
  have hlen := congrArg length h
  simp only [Reading.delete, length_append, length_singleton] at hlen
  omega

theorem commandResult_delete {index : List Char} {q : Reading} (ht : q.t = r.t)
    (hslots : q.delslots = r.delslots) (horder : Order env r.decoder.mText r.decoder.mNumber) :
    CommandResult env r (q.delete index) where
  table := ht
  delslots := by
    rw [← hslots]
    exact iff_of_false (delete_ne q index) (not_not_intro horder)

theorem commandResult_same (horder : ¬ Order env r.decoder.mText r.decoder.mNumber) :
    CommandResult env r r where
  table := rfl
  delslots := iff_of_true rfl horder

theorem gpsRequest_spec {text : List Char} (htext : r.decoder.mText = some text)
    (hgps : text.take 3 = "GPS".toList) (index : List Char) :
    Settles (Unanswerable env r.decoder.mText) (gpsRequest env index text r)
      (CommandResult env r) := by
  -- the three other commands do not begin with GPS
  have hother : ∀ s : List Char, s.take 3 ≠ "GPS".toList → text ≠ s := by
    intro s hs heq
    exact hs (heq ▸ hgps)
  have horder : Order env r.decoder.mText r.decoder.mNumber ↔
      (text = "GPS".toList ∧ env.gpspin = none ∨
        ∃ pin, env.gpspin = some pin ∧ text = "GPS ".toList ++ pin) ∧
        ∃ n, r.decoder.mNumber = some n ∧ env.isNumeral n = true := by
    rw [Order, exists_some_iff htext]
    simp only [hother "::reboot!!".toList (by decide), hother "::restartzt!!".toList (by decide),
      hother "::pwrtoggle!!".toList (by decide), false_or]
  have hbad : Unanswerable env r.decoder.mText ↔ text ≠ "GPS".toList ∧ env.gpspin = none := by
    rw [Unanswerable, htext]
    simp [hgps]
  rw [hbad]
  -- the answer goes to a sender that is a number
  have hreply : (text = "GPS".toList ∧ env.gpspin = none ∨
      ∃ pin, env.gpspin = some pin ∧ text = "GPS ".toList ++ pin) →
      CommandResult env r (match r.decoder.mNumber with
        | none => r
        | some number =>
            if env.isNumeral number then (r.exec (.smsReply number)).delete index else r) := by
    intro hasked
    cases hnumber : r.decoder.mNumber with
    | none =>
      refine commandResult_same fun h => ?_
      obtain ⟨-, n, hn, -⟩ := horder.mp h
      rw [hnumber] at hn
      cases hn
    | some number =>
      dsimp only
      split
      · next hnumeral =>
        exact commandResult_delete rfl rfl (horder.mpr ⟨hasked, number, hnumber, hnumeral⟩)
      · next hnumeral =>
        refine commandResult_same fun h => ?_
        obtain ⟨-, n, hn, hnum⟩ := horder.mp h
        rw [hnumber] at hn
        cases hn
        exact hnumeral hnum
  unfold gpsRequest
  by_cases hplain : text = "GPS".toList ∧ env.gpspin = none
  · rw [if_pos hplain]
    exact ⟨fun h => h.1 hplain.1, hreply (.inl hplain)⟩
  · rw [if_neg hplain]
    cases hpin : env.gpspin with
    | none => exact ⟨fun heq => hplain ⟨heq, hpin⟩, rfl⟩
    | some pin =>
      refine ⟨fun h => Option.some_ne_none pin h.2, ?_⟩
      split
      · next hmatch =>
        exact hreply (.inr ⟨pin, hpin, hmatch⟩)
      · next hmatch =>
        refine commandResult_same fun h => ?_
        obtain ⟨hasked | ⟨pin', hpin', hmatch'⟩, -⟩ := horder.mp h
        · exact hplain hasked
        · cases hpin.symm.trans hpin'
          exact hmatch hmatch'

theorem unreadCommand_spec (env : Env) (index : List Char) (r : Reading) :
    Settles (Unanswerable env r.decoder.mText) (unreadCommand env index r)
      (CommandResult env r) := by
  unfold unreadCommand
  cases htext : r.decoder.mText with
  | none => exact .inl rfl
  | some text =>
    dsimp only
    rw [← htext]
    have hanswer : text.take 3 ≠ "GPS".toList → ¬ Unanswerable env r.decoder.mText := by
      rintro hno (hnone | ⟨s, hs, hgps, -⟩)
      · rw [htext] at hnone
        cases hnone
      · cases htext.symm.trans hs
        exact hno hgps
    split
    · next hreboot =>
      exact ⟨hanswer (by rw [hreboot]; decide),
        commandResult_delete rfl rfl ⟨text, htext, .inl hreboot⟩⟩
    · next hreboot =>
      split
      · next hzt =>
        refine ⟨hanswer (by rw [hzt]; decide), commandResult_delete ?_ ?_
          ⟨text, htext, .inr (.inl hzt)⟩⟩
        · split <;> rfl
        · split <;> rfl
      · next hzt =>
        split
        · next hpwr =>
          exact ⟨hanswer (by rw [hpwr]; decide),
            commandResult_delete rfl rfl ⟨text, htext, .inr (.inr (.inl hpwr))⟩⟩
        · next hpwr =>
          split
          · next hgps =>
            exact gpsRequest_spec htext hgps index
          · next hgps =>
            refine ⟨hanswer hgps, commandResult_same ?_⟩
            rw [Order, exists_some_iff htext]
            rintro (h | h | h | ⟨⟨h, -⟩ | ⟨pin, -, h⟩, -⟩)
            · exact hreboot h
            · exact hzt h
            · exact hpwr h
            · exact hgps (by rw [h]; rfl)
            · exact hgps (by rw [h]; rfl)

/-! ### One message -/

/-- The line is a header `+CMGL:` with an index and a state. -/
def IsHeader (header index mR : List Char) : Prop :=
  findText "+CPMS:".toList header = none ∧
    ∃ behind rest last, findText "+CMGL:".toList header = some behind ∧
      commaField behind = some (index, rest) ∧ commaField rest = some (mR, last)

/-- A message as it stands in `smsresult`: a header and a line of hexadecimal digits. -/
structure Stored where
  header : List Char
  index : List Char
  mR : List Char
  pdu : List Char
  isHeader : IsHeader header index mR
  hex : Hex pdu

def Stored.read (m : Stored) (env : Env) (r : Reading) : Except LuaError Reading :=
  readMessage env m.index m.mR m.pdu r

def Reading.start (r : Reading) : Decoder := { r.decoder with surrogate := 0 }.reset

/-- The message can be read in state `r` and does what it should. -/
structure Safe (env : Env) (m : Stored) (r : Reading) : Prop where
  whole : ¬ Stops m.pdu
  sender : Accepted m.pdu → ¬ Anonymous m.pdu
  text : m.mR = "0".toList → HasText m.pdu
  pin : m.mR = "0".toList → ∀ s, messageText r.start m.pdu = some s →
    s.take 3 = "GPS".toList → s = "GPS".toList ∨ env.gpspin ≠ none
  order : m.mR = "0".toList → ¬ Accepted m.pdu →
    ¬ Order env (messageText r.start m.pdu) (messageNumber r.start m.pdu)

theorem announce_spec (env : Env) (index mR : List Char) (r : Reading) :
    (announce env index mR r).decoder.reset = r.start ∧
      (announce env index mR r).t = r.t ∧ (announce env index mR r).delslots = r.delslots := by
  unfold announce
  split
  · split <;> exact ⟨rfl, rfl, rfl⟩
  · exact ⟨rfl, rfl, rfl⟩

theorem Kept.announce {d : Decoder} {index mR : List Char} {r' : Reading}
    (h : Kept d index pdu (announce env index mR r) r') : Kept d index pdu r r' := by
  obtain ⟨-, ht, hslots⟩ := announce_spec env index mR r
  constructor
  · intro hacc
    obtain ⟨e, he⟩ := h.accepted hacc
    rw [ht] at he
    exact ⟨e, he⟩
  · intro hrej
    have hsame := h.rejected hrej
    rw [Reading.tptr, Reading.tptr, ht, hslots] at hsame
    exact hsame

/-- **One message is read as it should exactly when it is safe.** -/
theorem read_iff (env : Env) (m : Stored) (r : Reading) :
    (∃ r', m.read env r = .ok r' ∧ Kept r.start m.index m.pdu r r') ↔ Safe env m r := by
  obtain ⟨hstart, -, -⟩ := announce_spec env m.index m.mR r
  have hpdu := readpdu_hex m.hex m.index (readMark env m.index m.mR) (announce env m.index m.mR r)
  unfold Stored.read readMessage
  constructor
  · rintro ⟨r', hrun, hkept⟩
    obtain ⟨r₁, hread, hrest⟩ := bind_eq_ok.mp hrun
    obtain ⟨hgood, hres⟩ := hpdu.of_ok hread
    have hwhole : ¬ Stops m.pdu := fun h => hgood (.inl h)
    obtain ⟨haccepts, hhas⟩ := message_hex m.hex hwhole { r.decoder with surrogate := 0 }
    have htext := hres.text
    have hnumber := hres.number
    rw [hstart] at htext hnumber
    have hcommand : m.mR = "0".toList → ¬ Unanswerable env r₁.decoder.mText ∧
        CommandResult env r₁ r' := by
      intro hunread
      rw [if_pos hunread] at hrest
      exact (unreadCommand_spec env m.index r₁).of_ok hrest
    refine ⟨hwhole, fun hacc hanon => hgood (.inr ⟨hacc, hanon⟩), fun hunread => ?_,
      fun hunread s hs hgps => ?_, fun hunread hrej => ?_⟩
    · have hanswer := (hcommand hunread).1
      rw [htext] at hanswer
      exact hhas.mp (Option.isSome_iff_ne_none.mpr fun hnone => hanswer (.inl hnone))
    · have hanswer := (hcommand hunread).1
      by_contra hno
      rw [not_or, not_not] at hno
      exact hanswer (.inr ⟨s, htext.trans hs, hgps, hno.1, hno.2⟩)
    · -- the slots are as before `readpdu`, and `readpdu` left them so
      have hreject : ¬ Accepts r.start m.pdu := fun h => hrej (haccepts.mp h)
      have hkept₁ := hres.kept
      rw [hstart] at hkept₁
      have hslots : r'.delslots = r₁.delslots :=
        (hkept.rejected hreject).2.2.trans (hkept₁.announce.rejected hreject).2.2.symm
      have hno := (hcommand hunread).2.delslots.mp hslots
      rw [htext, hnumber] at hno
      exact hno
  · intro hsafe
    have hgood : ¬ (Stops m.pdu ∨ Accepted m.pdu ∧ Anonymous m.pdu) := by
      rintro (h | ⟨hacc, hanon⟩)
      · exact hsafe.whole h
      · exact hsafe.sender hacc hanon
    obtain ⟨haccepts, hhas⟩ := message_hex m.hex hsafe.whole { r.decoder with surrogate := 0 }
    obtain ⟨r₁, hread, hres⟩ := hpdu.exists_ok hgood
    have htext := hres.text
    have hnumber := hres.number
    have hkept := hres.kept
    rw [hstart] at htext hnumber hkept
    rw [hread, ok_bind]
    by_cases hunread : m.mR = "0".toList
    · have hanswer : ¬ Unanswerable env r₁.decoder.mText := by
        rw [htext]
        rintro (hnone | ⟨s, hs, hgps, hmore, hpin⟩)
        · exact Option.isSome_iff_ne_none.mp (hhas.mpr (hsafe.text hunread)) hnone
        · rcases hsafe.pin hunread s hs hgps with h | h
          · exact hmore h
          · exact h hpin
      obtain ⟨r', hcmd, hres'⟩ := (unreadCommand_spec env m.index r₁).exists_ok hanswer
      rw [if_pos hunread]
      refine ⟨r', hcmd, ?_, ?_⟩
      · intro hacc
        obtain ⟨e, he, hrest⟩ := hkept.announce.accepted hacc
        exact ⟨e, hres'.table.trans he, hrest⟩
      · intro hrej
        obtain ⟨ht, -, hslots⟩ := hkept.announce.rejected hrej
        have hno := hsafe.order hunread fun h => hrej (haccepts.mpr h)
        rw [← htext, ← hnumber] at hno
        have htable : r'.t = r.t := hres'.table.trans ht
        exact ⟨htable, by rw [Reading.tptr, Reading.tptr, htable],
          (hres'.delslots.mpr hno).trans hslots⟩
    · rw [if_neg hunread]
      exact ⟨r₁, rfl, hkept.announce⟩

/-! ### The whole file -/

def fileLines (ms : List Stored) : List (List Char) := ms.flatMap fun m => [m.header, m.pdu]

theorem readLoop_fileLines (env : Env) (ms : List Stored) : ∀ fuel r, (fileLines ms).length ≤ fuel →
    readLoop env fuel (fileLines ms) r = ms.foldlM (fun r m => m.read env r) r := by
  induction ms with
  | nil =>
    intro fuel r _
    cases fuel <;> rfl
  | cons m ms ih =>
    intro fuel r hfuel
    have hlines : fileLines (m :: ms) = m.header :: m.pdu :: fileLines ms := rfl
    rw [hlines] at hfuel ⊢
    simp only [length_cons] at hfuel
    obtain ⟨fuel, rfl⟩ : ∃ k, fuel = k + 1 := ⟨fuel - 1, by omega⟩
    obtain ⟨hcpms, behind, rest, last, hcmgl, hindex, hmR⟩ := m.isHeader
    rw [readLoop, hcpms]
    unfold headerRound
    rw [hcmgl]
    dsimp only
    rw [hindex]
    dsimp only
    rw [hmR, foldlM_cons]
    dsimp only
    rw [Stored.read]
    cases readMessage env m.index m.mR m.pdu r with
    | error e => rfl
    | ok r' => exact ih fuel r' (by omega)

inductive WellRead (env : Env) : List Stored → Reading → Reading → Prop where
  | nil (r : Reading) : WellRead env [] r r
  | cons {m : Stored} {ms : List Stored} {r r' r'' : Reading} :
      m.read env r = .ok r' → Kept r.start m.index m.pdu r r' → WellRead env ms r' r'' →
      WellRead env (m :: ms) r r''

/-- Every message is safe in the state in which the loop comes to it. -/
def SafeRun (env : Env) : List Stored → Reading → Prop
  | [], _ => True
  | m :: ms, r => Safe env m r ∧ ∀ r', m.read env r = .ok r' → SafeRun env ms r'

theorem wellRead_iff (env : Env) (ms : List Stored) : ∀ r,
    (∃ r', ms.foldlM (fun r m => m.read env r) r = .ok r' ∧ WellRead env ms r r') ↔
      SafeRun env ms r := by
  induction ms with
  | nil =>
    intro r
    exact iff_of_true ⟨r, rfl, .nil r⟩ trivial
  | cons m ms ih =>
    intro r
    rw [SafeRun, ← read_iff]
    constructor
    · rintro ⟨r'', hrun, hwell⟩
      cases hwell with
      | cons hread hkept hrest =>
        next r' =>
        rw [foldlM_cons, hread] at hrun
        refine ⟨⟨r', hread, hkept⟩, fun q hq => ?_⟩
        cases hread.symm.trans hq
        exact (ih r').mp ⟨r'', hrun, hrest⟩
    · rintro ⟨⟨r', hread, hkept⟩, hsafe⟩
      obtain ⟨r'', hrun, hwell⟩ := (ih r').mpr (hsafe r' hread)
      refine ⟨r'', ?_, .cons hread hkept hwell⟩
      rw [foldlM_cons, hread]
      exact hrun

/-- **The file is read to its end, with one record for every accepted PDU and nothing for
    a rejected one, exactly when every message is safe** where the loop comes to it. -/
theorem readResult_iff (env : Env) (ms : List Stored) :
    (∃ r, readResult env (fileLines ms) = .ok r ∧ WellRead env ms .initial r) ↔
      SafeRun env ms .initial := by
  rw [readResult, readLoop_fileLines env ms _ _ (Nat.le_refl _)]
  exact wellRead_iff env ms .initial

def cutMessage : Stored where
  header := "+CMGL: 1,1,,3".toList
  index := "1".toList
  mR := "1".toList
  pdu := "00040281".toList
  isHeader := ⟨by decide +kernel, " 1,1,,3".toList, "1,,3".toList, ",3".toList, by decide +kernel,
    by decide +kernel, by decide +kernel⟩
  hex := by decide +kernel

def letterMessage : Stored where
  header := "+CMGL: 2,1,,15".toList
  index := "2".toList
  mR := "1".toList
  pdu := "00040281210000520101120000000141".toList
  isHeader := ⟨by decide +kernel, " 2,1,,15".toList, "1,,15".toList, ",15".toList,
    by decide +kernel, by decide +kernel, by decide +kernel⟩
  hex := by decide +kernel

def plainEnv : Env where
  slottab := fun _ => false
  gpspin := none
  zerotier := false
  isNumeral := fun _ => false

/-- The cut message stops the script, and the message behind it is never read. -/
theorem not_readResult_cutMessage :
    ¬ ∀ (env : Env) (ms : List Stored), ∃ r, readResult env (fileLines ms) = .ok r ∧
      WellRead env ms .initial r := by
  intro hclaim
  obtain ⟨r, hrun, -⟩ := hclaim plainEnv [cutMessage, letterMessage]
  have hstop : (readResult plainEnv (fileLines [cutMessage, letterMessage])).toBool = false := by
    decide +kernel
  rw [hrun] at hstop
  cases hstop

end Rooter.SmsRead
