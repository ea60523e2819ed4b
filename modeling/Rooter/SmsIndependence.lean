import Rooter.SmsLayout

/-!
# Does one message influence the next?

`reset` leaves three variables alone.  `m_dcs` is written but never read by the decoder,
so two runs that differ in it only agree (`Alike`, `respects_parse`).  `surrogate` is set
to 0 by the main loop.  The third is the table selector of `gsm2byte`: `pdu2text` declares
a local variable of the same name, which `gsm2byte` does not see, so the selector keeps the
value that the last septet gave it.

What a PDU appends depends on the state through that selector alone (`appended_congr`), and
the selector is a function of all septets decoded so far (`feed_table`): a message that
ends in an escape changes the first character of the next one.
-/

namespace Rooter.SmsRead

open LuaString Program

/-! ### What survives `reset` -/

/-- The same up to `m_dcs`. -/
def Alike (d d' : Decoder) : Prop := ∃ x, d' = { d with mDcs := x }

theorem respects_assign {f : Decoder → Decoder} (hf : ∀ d x, Alike (f d) (f { d with mDcs := x }))
    {α : Type} {m : Lua α} (hm : Respects Alike m) :
    Respects Alike (modify f >>= fun _ => m) := by
  refine respects_bind (respects_modify fun d d' h => ?_) fun _ => hm
  obtain ⟨x, rfl⟩ := h
  exact hf d x

theorem respects_readUdh (pdu : List Char) : Respects Alike (readUdh pdu) := by
  unfold readUdh
  dsimp only
  cases tonumber16 (sub (subFrom pdu 3) 1 2) with
  | none => exact respects_throw _
  | some udhl =>
    refine respects_get fun d d' h => ?_
    obtain ⟨x, rfl⟩ := h
    cases concatinfo (sub (subFrom pdu 3) 3 ((udhl + 1) * 2)) d.mConcat with
    | error e => rfl
    | ok mConcat => exact ⟨rfl, x, rfl⟩

section

variable (pdu : List Char) (withUdh : Bool)

include pdu withUdh

theorem respects_skipCharacters : Respects Alike (skipCharacters pdu withUdh) := by
  cases withUdh with
  | false => exact respects_pure 0
  | true =>
    refine respects_bind (respects_readUdh pdu) fun udhsize => ?_
    cases udhsize with
    | none => exact respects_pure 0
    | some n => exact respects_pure _

theorem respects_skipOctets : Respects Alike (skipOctets pdu withUdh) := by
  cases withUdh with
  | false => exact respects_pure _
  | true =>
    refine respects_bind (respects_readUdh pdu) fun udhsize => ?_
    cases udhsize with
    | none => exact respects_pure none
    | some n => exact respects_pure _

theorem respects_pdu2text : Respects Alike (pdu2text pdu withUdh) := by
  refine respects_assign (fun d x => ⟨x, rfl⟩) ?_
  cases octet2binCheck pdu with
  | none => exact respects_pure _
  | some septets =>
    refine respects_bind (respects_skipCharacters pdu withUdh) fun skip => ?_
    refine respects_get fun d d' h => ?_
    obtain ⟨x, rfl⟩ := h
    exact ⟨rfl, x, rfl⟩

theorem respects_pdu2binary : Respects Alike (pdu2binary pdu withUdh) := by
  refine respects_assign (fun d x => ⟨x, rfl⟩) ?_
  cases octet2binCheck pdu with
  | none => exact respects_pure _
  | some septets =>
    refine respects_bind (respects_skipOctets pdu withUdh) fun skip => ?_
    cases skip with
    | none => exact respects_pure _
    | some skip =>
      refine respects_get fun d d' h => ?_
      obtain ⟨x, rfl⟩ := h
      exact ⟨rfl, x, rfl⟩

end

theorem respects_readAddress (htmp : Nat → List Char) (clean : List Char → List Char) (plus : Bool)
    (length addrType : Nat) (ptr : List Char) :
    Respects Alike (readAddress htmp clean plus length addrType ptr) := by
  unfold readAddress
  by_cases hnamed : addrType &&& 112 = 80
  · rw [if_pos hnamed]
    split; · exact respects_pure none
    refine respects_bind (respects_pdu2text _ _) fun res => ?_
    split; · exact respects_pure none
    exact respects_assign (fun d x => ⟨x, rfl⟩) (respects_pure _)
  · rw [if_neg hnamed]
    cases swapchars (sub ptr 1 (length + length % 2 + 1)) with
    | none => exact respects_throw _
    | some number => exact respects_assign (fun d x => ⟨x, rfl⟩) (respects_pure _)

theorem respects_senderAddress (length : Nat) (ptr : List Char) :
    Respects Alike (senderAddress length ptr) := by
  unfold senderAddress
  dsimp only
  split; · exact respects_pure _
  split; · exact respects_pure none
  split; · exact respects_pure none
  exact respects_readAddress _ _ _ _ _ _

theorem respects_deliverBody (ptr : List Char) : Respects Alike (deliverBody ptr) := by
  unfold deliverBody
  dsimp only
  split; · exact respects_pure 0
  split; · exact respects_pure 0
  split; · exact respects_pure 0
  refine respects_assign (fun d x => ⟨x, rfl⟩) ?_
  split; · exact respects_pure 0
  refine respects_assign (fun d x => ⟨_, rfl⟩) ?_
  refine respects_bind (respects_lift _) fun _ => ?_
  refine respects_assign (fun d x => ⟨x, rfl⟩) ?_
  refine respects_bind (respects_lift _) fun _ => ?_
  refine respects_bind (respects_lift _) fun zone => ?_
  refine respects_assign (fun d x => ⟨x, rfl⟩) ?_
  split; · exact respects_pure 0
  refine respects_get fun d d' h => ?_
  obtain ⟨x, rfl⟩ := h
  split
  · exact respects_pdu2text _ _ d _ ⟨x, rfl⟩
  · exact respects_pdu2binary _ _ d _ ⟨x, rfl⟩

theorem respects_parseDeliver (ptr : List Char) : Respects Alike (parseDeliver ptr) := by
  unfold parseDeliver
  split; · exact respects_pure 0
  split; · exact respects_pure 0
  split; · exact respects_pure 0
  refine respects_bind (respects_senderAddress _ _) fun behind => ?_
  cases behind with
  | none => exact respects_pure 0
  | some ptr => exact respects_deliverBody ptr

theorem respects_reportBody (messageid : Nat) (ptr : List Char) :
    Respects Alike (reportBody messageid ptr) := by
  unfold reportBody
  dsimp only
  split; · exact respects_pure 0
  refine respects_bind (respects_lift _) fun _ => ?_
  refine respects_assign (fun d x => ⟨x, rfl⟩) ?_
  refine respects_bind (respects_lift _) fun _ => ?_
  refine respects_assign (fun d x => ⟨x, rfl⟩) ?_
  split; · exact respects_pure 0
  refine respects_bind (respects_lift _) fun _ => ?_
  refine respects_bind (respects_lift _) fun _ => ?_
  split; · exact respects_pure 0
  split; · exact respects_pure 0
  exact respects_assign (fun d x => ⟨x, rfl⟩) (respects_pure 1)

theorem respects_parseStatusReport (ptr : List Char) : Respects Alike (parseStatusReport ptr) := by
  unfold parseStatusReport
  dsimp only
  split; · exact respects_pure 0
  split; · exact respects_pure 0
  split; · exact respects_pure 0
  split; · exact respects_pure 0
  split; · exact respects_pure 0
  split; · exact respects_pure 0
  refine respects_bind (respects_readAddress _ _ _ _ _ _) fun behind => ?_
  cases behind with
  | none => exact respects_pure 0
  | some ptr => exact respects_reportBody _ ptr

theorem respects_parseTpdu (tmp : Nat) (ptr : List Char) : Respects Alike (parseTpdu tmp ptr) := by
  refine respects_assign (fun d x => ⟨x, by split <;> rfl⟩) ?_
  split
  · exact respects_bind (respects_parseDeliver _) fun result => respects_pure _
  · split
    · exact respects_parseStatusReport _
    · exact respects_pure 0

/-- **`parse` does not depend on `m_dcs`**, the one variable that is neither reset nor
    restored before a PDU, apart from the table selector. -/
theorem respects_parse (pdu : List Char) : Respects Alike (parse pdu) := by
  refine respects_bind (respects_lift _) fun behind => ?_
  cases behind with
  | none => exact respects_pure 0
  | some ptr =>
    dsimp only
    cases octet2binCheck ptr with
    | none => exact respects_pure 0
    | some tmp => exact respects_parseTpdu tmp _

/-! ### The record of a PDU -/

/-- A PDU line, with the index and the read mark that the header before it gave. -/
structure Line where
  index : List Char
  read : List Char
  pdu : List Char

def feedOne (r : Reading) (l : Line) : Except LuaError Reading :=
  readpdu l.index l.read l.pdu { r with decoder := { r.decoder with surrogate := 0 } }

def feed (lines : List Line) (r : Reading) : Except LuaError Reading := lines.foldlM feedOne r

structure Content where
  number : Option (List Char)
  date : Option (List Char)
  time : Option (List Char)
  text : Option (List Char)
deriving DecidableEq

def Entry.content (e : Entry) : Content := ⟨e.number, e.date, e.time, e.text⟩

def appended (r : Reading) (l : Line) : Except LuaError (List Content) :=
  (feedOne r l).map fun r' => (r'.t.drop r.t.length).map Entry.content

variable {r r' : Reading}

theorem appended_append {index read index' read' : List Char} (h : Alike r.decoder r'.decoder) :
    (append index read r).map (fun q => (q.t.drop r.t.length).map Entry.content)
      = (append index' read' r').map fun q => (q.t.drop r'.t.length).map Entry.content := by
  obtain ⟨usedMsg, maxMsg, t, delslots, commands, d⟩ := r
  obtain ⟨usedMsg', maxMsg', t', delslots', commands', d'⟩ := r'
  obtain ⟨x, hx⟩ := h
  subst hx
  unfold append
  cases d.mNumber with
  | none => rfl
  | some number =>
    simp only [decoder_ite_delete, t_ite_delete]
    cases d.mConcat with
    | none => simp [Except.map, Entry.content]
    | some concat =>
      cases d.mText with
      | none => simp [Except.map]
      | some text => simp [Except.map, Entry.content]

/-- **Only the table selector matters.** -/
theorem appended_congr (h : r.decoder.gTableNbr = r'.decoder.gTableNbr) {l l' : Line}
    (hpdu : l.pdu = l'.pdu) : appended r l = appended r' l' := by
  have hstart : Alike { r.decoder with surrogate := 0 }.reset
      { r'.decoder with surrogate := 0 }.reset :=
    ⟨r'.decoder.mDcs, by simp [Decoder.reset, h]⟩
  have hagree := respects_parse l.pdu _ _ hstart
  unfold appended feedOne readpdu
  rw [← hpdu]
  revert hagree
  generalize parse l.pdu { r.decoder with surrogate := 0 }.reset = x
  generalize parse l.pdu { r'.decoder with surrogate := 0 }.reset = y
  intro hagree
  rcases hagree.cases with ⟨e, rfl, rfl⟩ | ⟨flag, d, d', rfl, rfl, halike⟩
  · rfl
  · simp only [ok_bind]
    split
    · exact appended_append halike
    · simp [Except.map, pure, Except.pure]

/-! ### Where the table selector ends -/

namespace Address

variable (htmp : Nat → List Char) (a : Address)

def septets : List Nat :=
  if a.Named ∧ a.width ≤ a.ptr.length then textSeptets (htmp (a.length * 4 / 7) ++ a.ptr) else []

end Address

variable {d d' : Decoder}

theorem readAddress_table {htmp : Nat → List Char} {clean : List Char → List Char} {plus : Bool}
    {a : Address} {behind : Option (List Char)}
    (h : readAddress htmp clean plus a.length a.addrType a.ptr d = .ok (behind, d')) :
    d'.gTableNbr = escapeAfter (a.septets htmp) d.gTableNbr ∧
      behind = if a.Readable htmp then some a.behind else none := by
  by_cases hnamed : a.Named
  · rw [readAddress_named hnamed] at h
    by_cases hshort : a.ptr.length < a.width
    · rw [if_pos hshort] at h
      cases h
      simp [Address.septets, Address.Readable, hnamed, Nat.not_le.mpr hshort, escapeAfter]
    · rw [if_neg hshort] at h
      have hwidth : a.width ≤ a.ptr.length := Nat.not_lt.mp hshort
      obtain ⟨res, d₁, htext, hrest⟩ := run_bind_eq_ok.mp h
      have htable := pdu2text_table htext
      have hcomplete := (pdu2text_frame htext).1
      by_cases hres : res < 0
      · rw [if_pos hres] at hrest
        cases hrest
        have hno : ¬ TextComplete (htmp (a.length * 4 / 7) ++ a.ptr) := fun hc =>
          absurd (hcomplete.mpr hc) (by omega)
        simp [Address.septets, Address.Readable, hnamed, hwidth, htable, hno]
      · rw [if_neg hres] at hrest
        cases hrest
        have hyes := hcomplete.mp (Int.not_lt.mp hres)
        simp [Address.septets, Address.Readable, hnamed, hwidth, htable, hyes]
  · rw [readAddress_number hnamed] at h
    cases hswap : swapchars (a.ptr.take (a.width + 1)) with
    | none =>
      rw [hswap] at h
      cases h
    | some number =>
      simp only [hswap] at h
      cases h
      simp [Address.septets, Address.Readable, hnamed, escapeAfter]

def bodySeptets (ptr : List Char) : List Nat :=
  match userData ptr with
  | some (0, ud) => textSeptets ud
  | _ => []

theorem deliverBody_table {ptr : List Char} {result : Int}
    (h : deliverBody ptr d = .ok (result, d')) :
    d'.gTableNbr = escapeAfter (bodySeptets ptr) d.gTableNbr := by
  unfold bodySeptets
  cases hud : userData ptr with
  | none =>
    rcases deliverBody_none hud d with ⟨alphabet, dcs, date, time, hrun⟩ | ⟨-, -, e, hrun⟩
    · cases hrun.symm.trans h
      rfl
    · cases hrun.symm.trans h
  | some field =>
    obtain ⟨alphabet, ud⟩ := field
    obtain ⟨dcs, date, time, hrun, -⟩ := deliverBody_some hud d
    rw [hrun] at h
    cases alphabet with
    | zero =>
      rw [pdu2text_table h]
      rfl
    | succ n =>
      rw [pdu2binary_table h]
      rfl

theorem reportBody_table {messageid : Nat} {ptr : List Char} {result : Int}
    (h : reportBody messageid ptr d = .ok (result, d')) : d'.gTableNbr = d.gTableNbr := by
  by_cases hlen : ptr.length < 14 ∨ 26 ≤ ptr.length ∨ octet2binCheck (ptr.drop 12) = none
  · obtain ⟨date, time, text, result', hrun, -⟩ := reportBody_ok hlen messageid d
    cases hrun.symm.trans h
    rfl
  · have htz : (octet2binCheck (ptr.drop 12)).isSome = true :=
      Option.isSome_iff_ne_none.mpr fun hnone => hlen (.inr (.inr hnone))
    rw [reportBody_error (by omega) (by omega) htz] at h
    cases h

/-- The septets decoded from a PDU: those of an alphanumeric sender, then those of the text. -/
def septetsOf (pdu : List Char) : List Nat :=
  match firstOctet pdu with
  | none => []
  | some (tmp, ptr) =>
      if tmp &&& 3 = 0 then
        match deliverAddress ptr with
        | none => []
        | some a =>
            if a.length = 0 then bodySeptets a.ptr
            else if a.Readable upperOctet then a.septets upperOctet ++ bodySeptets a.behind
            else a.septets upperOctet
      else if tmp &&& 3 = 2 then
        match reportAddress ptr with
        | none => []
        | some (_, a) => a.septets hexOctet
      else []

theorem escapeAfter_append (xs ys : List Nat) (table : TableNbr) :
    escapeAfter (xs ++ ys) table = escapeAfter ys (escapeAfter xs table) := by
  simp [escapeAfter]

theorem parse_table {pdu : List Char} {flag : Int} (h : parse pdu d = .ok (flag, d')) :
    d'.gTableNbr = escapeAfter (septetsOf pdu) d.gTableNbr := by
  rw [parse_eq] at h
  unfold septetsOf
  cases hfirst : firstOctet pdu with
  | none =>
    rw [hfirst] at h
    cases h
    rfl
  | some field =>
    obtain ⟨tmp, ptr⟩ := field
    simp only [hfirst] at h
    unfold parseTpdu at h
    rw [run_bind_of_ok (run_modify _ d)] at h
    have hudh : (if 0 < tmp &&& 0x40 then { d with mWithUdh := true } else d).gTableNbr
        = d.gTableNbr := by
      split <;> rfl
    revert h
    generalize (if 0 < tmp &&& 0x40 then { d with mWithUdh := true } else d) = d₀ at hudh
    intro h
    rw [← hudh]
    dsimp only
    by_cases hdeliver : tmp &&& 3 = 0
    · rw [if_pos hdeliver] at h ⊢
      obtain ⟨result, d₁, hparse, hrest⟩ := run_bind_eq_ok.mp h
      cases hrest
      rw [parseDeliver_eq] at hparse
      cases haddr : deliverAddress ptr with
      | none =>
        rw [haddr] at hparse
        cases hparse
        rfl
      | some a =>
        simp only [haddr] at hparse
        by_cases hlen : a.length = 0
        · rw [if_pos hlen] at hparse
          simp only [if_pos hlen]
          exact deliverBody_table hparse
        · rw [if_neg hlen] at hparse
          obtain ⟨behind, d₂, hread, hbody⟩ := run_bind_eq_ok.mp hparse
          obtain ⟨htable, hbehind⟩ := readAddress_table hread
          simp only [if_neg hlen]
          by_cases hreadable : a.Readable upperOctet
          · rw [if_pos hreadable] at hbehind ⊢
            subst hbehind
            rw [deliverBody_table hbody, htable, escapeAfter_append]
          · rw [if_neg hreadable] at hbehind ⊢
            subst hbehind
            cases hbody
            exact htable
    · rw [if_neg hdeliver] at h ⊢
      by_cases hreport : tmp &&& 3 = 2
      · rw [if_pos hreport] at h ⊢
        rw [parseStatusReport_eq] at h
        cases haddr : reportAddress ptr with
        | none =>
          rw [haddr] at h
          cases h
          rfl
        | some field =>
          obtain ⟨messageid, a⟩ := field
          simp only [haddr] at h
          obtain ⟨behind, d₂, hread, hbody⟩ := run_bind_eq_ok.mp h
          obtain ⟨htable, hbehind⟩ := readAddress_table hread
          cases behind with
          | none =>
            cases hbody
            exact htable
          | some behind => rw [reportBody_table hbody, htable]
      · rw [if_neg hreport] at h ⊢
        cases h
        rfl

/-! ### A sequence of PDUs -/

theorem append_decoder {index read : List Char} (h : append index read r = .ok r') :
    r'.decoder.gTableNbr = r.decoder.gTableNbr := by
  unfold append at h
  cases hnumber : r.decoder.mNumber with
  | none => simp [hnumber] at h
  | some number =>
    simp only [hnumber, decoder_ite_delete] at h
    cases hconcat : r.decoder.mConcat with
    | none =>
      simp only [hconcat] at h
      cases h
      rfl
    | some concat =>
      cases htext : r.decoder.mText with
      | none => simp [hconcat, htext] at h
      | some text =>
        simp only [hconcat, htext] at h
        cases h
        rfl

theorem feedOne_table {l : Line} (h : feedOne r l = .ok r') :
    r'.decoder.gTableNbr = escapeAfter (septetsOf l.pdu) r.decoder.gTableNbr := by
  unfold feedOne at h
  obtain ⟨⟨flag, d⟩, hparse, hrest⟩ := bind_eq_ok.mp h
  have htable := parse_table hparse
  dsimp only at hrest
  split at hrest
  · rw [append_decoder hrest]
    exact htable
  · cases hrest
    exact htable

theorem feed_table (lines : List Line) : ∀ {r r' : Reading}, feed lines r = .ok r' →
    r'.decoder.gTableNbr
      = escapeAfter (lines.flatMap fun l => septetsOf l.pdu) r.decoder.gTableNbr := by
  induction lines with
  | nil =>
    intro r r' h
    cases h
    rfl
  | cons l lines ih =>
    intro r r' h
    obtain ⟨r₁, hone, hrest⟩ := bind_eq_ok.mp h
    rw [ih hrest, feedOne_table hone, List.flatMap_cons, escapeAfter_append]

def oneSeptet (septet : String) : Line :=
  ⟨"1".toList, " ".toList, "000402812100005201011200000001".toList ++ septet.toList⟩

theorem appended_letter (hr : r.decoder.gTableNbr = .two) :
    appended r (oneSeptet "41") ≠ appended .initial (oneSeptet "41") := by
  let r₂ : Reading := { Reading.initial with decoder := { Decoder.initial with gTableNbr := .two } }
  have hprobe : appended r (oneSeptet "41") = appended r₂ (oneSeptet "41") := appended_congr hr rfl
  intro hsame
  have htexts : (appended r₂ (oneSeptet "41")).toOption
      = (appended .initial (oneSeptet "41")).toOption := by
    rw [← hprobe, hsame]
  exact absurd htexts (by decide +kernel)

/-- **A PDU is decoded as if it were the only one exactly when the septets decoded before
    it do not end in an escape** that waits for its second septet. -/
theorem independent_iff (lines : List Line) (r : Reading) (hfeed : feed lines .initial = .ok r) :
    (∀ l, appended r l = appended .initial l) ↔
      escapeAfter (lines.flatMap fun l => septetsOf l.pdu) .one = .one := by
  have htable : r.decoder.gTableNbr
      = escapeAfter (lines.flatMap fun l => septetsOf l.pdu) .one := feed_table lines hfeed
  rw [← htable]
  constructor
  · intro hsame
    cases hr : r.decoder.gTableNbr with
    | one => rfl
    | two => exact absurd (hsame _) (appended_letter hr)
  · intro hone l
    exact appended_congr hone rfl

theorem exists_ok {α : Type} {x : Except LuaError α} (h : x.toBool = true) : ∃ a, x = .ok a := by
  cases x with
  | error e => cases h
  | ok a => exact ⟨a, rfl⟩

theorem independent_iff_hello : ∃ r, feed [oneSeptet "48"] .initial = .ok r ∧
    ∀ l, appended r l = appended .initial l := by
  obtain ⟨r, hr⟩ : ∃ r, feed [oneSeptet "48"] .initial = .ok r := exists_ok (by decide +kernel)
  exact ⟨r, hr, (independent_iff [oneSeptet "48"] r hr).mpr (by decide +kernel)⟩

/-- A message that ends in an escape turns the letter A of the next one into a question mark. -/
theorem not_independent : ¬ ∀ (before before' : List Line) (r r' : Reading) (l : Line),
    feed before .initial = .ok r → feed before' .initial = .ok r' →
      appended r l = appended r' l := by
  intro hclaim
  obtain ⟨r, hr⟩ : ∃ r, feed [oneSeptet "1B"] .initial = .ok r := exists_ok (by decide +kernel)
  have htable : r.decoder.gTableNbr = .two := (feed_table _ hr).trans (by decide +kernel)
  exact appended_letter htable (hclaim [oneSeptet "1B"] [] r .initial _ hr rfl)

end Rooter.SmsRead
