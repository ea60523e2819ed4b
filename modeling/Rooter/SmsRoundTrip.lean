import Rooter.SmsPack

/-!
# Reading back what the router wrote

A text goes through two tables, a packer and a length that both sides compute in their
own way: `sys2sms.lua` corrects the number of digits of the name by one or two,
`parseDeliver` takes four sevenths of the result for the number of septets.  The two
agree for names of up to fourteen septets.  The time stamp has to keep its width, for
which a negative time zone needs a tens digit below eight.
-/

namespace Rooter.SmsEncode

open List Numeral LuaString Program SmsRead

/-! ### Characters -/

def utf8 (c : Char) : List Char := (String.utf8EncodeChar c).map fun b => Char.ofNat b.toNat

def bytesOf (text : List Char) : List Char := text.flatMap utf8

def gsmAlphabet : List Char :=
  ((range 128).filterMap fun ch =>
      if ch = 27 then none else some (Char.ofNat ((gTable1 ch).getD ch)))
    ++ (range 128).filterMap fun ch => (gTable2 ch).map Char.ofNat

/-- The septets that `chktxt` writes for a character. -/
def septets (c : Char) : List Nat :=
  match g7t c.toNat with
  | some res => (digitPairs res).filterMap tonumber16
  | none => [c.toNat]

/-- The octets are those of a character that `chktxt` has in seven bits. -/
def Sequence (bytes : List Nat) (ch : Nat) : Prop :=
  match bytes with
  | [b] => b = ch ∧ ch ≤ 0x7F ∧ ch ≠ 0x60
  | [b, b₁] => (0xC0 ≤ b ∧ b < 0xE0) ∧ (b₁ &&& 0x3F) ||| (b &&& 0x3F) <<< 6 = ch ∧
      (g7t ch).isSome = true
  | [b, b₁, b₂] => (0xE0 ≤ b ∧ b < 0xF0) ∧
      (b₂ &&& 0x3F) ||| ((b₁ &&& 0x3F) <<< 6 ||| (b &&& 0xF) <<< 12) = ch ∧
      (g7t ch).isSome = true
  | _ => False

instance (bytes : List Nat) (ch : Nat) : Decidable (Sequence bytes ch) :=
  match bytes with
  | [] => inferInstanceAs (Decidable False)
  | [_] => inferInstanceAs (Decidable (_ ∧ _ ∧ _))
  | [_, _] => inferInstanceAs (Decidable ((_ ∧ _) ∧ _ ∧ _))
  | [_, _, _] => inferInstanceAs (Decidable ((_ ∧ _) ∧ _ ∧ _))
  | _ :: _ :: _ :: _ :: _ => inferInstanceAs (Decidable False)

structure Tabled (c : Char) : Prop where
  sequence : Sequence ((utf8 c).map Char.toNat) c.toNat
  nonempty : 1 ≤ (septets c).length
  septet : (septets c).all (· < 128) = true
  digits : (g7t c.toNat).getD (formatX 2 c.toNat) = (septets c).flatMap (formatX 2)
  decoded : Writer.write 0 0 (septets c) ⟨[], 0, .one⟩ = ⟨utf8 c, 0, .one⟩

instance (c : Char) : Decidable (Tabled c) :=
  decidable_of_iff (Sequence ((utf8 c).map Char.toNat) c.toNat ∧ 1 ≤ (septets c).length ∧
      (septets c).all (· < 128) = true ∧
      (g7t c.toNat).getD (formatX 2 c.toNat) = (septets c).flatMap (formatX 2) ∧
      Writer.write 0 0 (septets c) ⟨[], 0, .one⟩ = ⟨utf8 c, 0, .one⟩)
    ⟨fun ⟨h₁, h₂, h₃, h₄, h₅⟩ => ⟨h₁, h₂, h₃, h₄, h₅⟩,
      fun ⟨h₁, h₂, h₃, h₄, h₅⟩ => ⟨h₁, h₂, h₃, h₄, h₅⟩⟩

def Gsm (text : List Char) : Prop := ∀ c ∈ text, c ∈ gsmAlphabet

instance (text : List Char) : Decidable (Gsm text) := decidableBAll _ text

theorem tabled {c : Char} (hc : c ∈ gsmAlphabet) : Tabled c := by
  have hall : gsmAlphabet.all (fun c => decide (Tabled c)) = true := by decide +kernel
  exact of_decide_eq_true (all_eq_true.mp hall c hc)

/-! ### From characters to septets -/

theorem chktxtLoop_sequence {bytes : List Char} {ch : Nat}
    (h : Sequence (bytes.map Char.toNat) ch) (rest : List Char) (s : Scan) :
    chktxtLoop (bytes ++ rest) s = chktxtLoop rest
      ⟨s.unicode ++ formatX 4 ch, s.g7hex ++ (g7t ch).getD (formatX 2 ch), s.g7isok⟩ := by
  have hwide : (g7t ch).isSome = true → s.wide ch
      = ⟨s.unicode ++ formatX 4 ch, s.g7hex ++ (g7t ch).getD (formatX 2 ch), s.g7isok⟩ := by
    intro hsome
    obtain ⟨res, hres⟩ := Option.isSome_iff_exists.mp hsome
    rw [Scan.wide, hres]
    rfl
  match bytes, h with
  | [b], ⟨hb, hascii, htick⟩ =>
    rw [singleton_append, chktxtLoop.eq_def]
    dsimp only
    rw [hb, if_neg (by omega), if_neg (by omega), if_neg (by omega), if_neg htick, if_pos hascii]
    rfl
  | [b, b₁], ⟨hb, hch, hsome⟩ =>
    rw [cons_append, singleton_append, chktxtLoop_two hb.1 hb.2, hch, hwide hsome]
  | [b, b₁, b₂], ⟨hb, hch, hsome⟩ =>
    rw [cons_append, cons_append, singleton_append, chktxtLoop_three hb.1 hb.2, hch, hwide hsome]

section Text

variable {cs : List Char} (hcs : Gsm cs)
include hcs

theorem septets_lt : ∀ x ∈ cs.flatMap septets, x < 128 := by
  intro x hx
  obtain ⟨c, hc, hxc⟩ := mem_flatMap.mp hx
  exact of_decide_eq_true (all_eq_true.mp (tabled (hcs c hc)).septet x hxc)

theorem chktxtLoop_bytesOf : ∀ s : Scan, ∃ unicode, chktxtLoop (bytesOf cs) s
    = .ok ⟨unicode, s.g7hex ++ (cs.flatMap septets).flatMap (formatX 2), s.g7isok⟩ := by
  induction cs with
  | nil =>
    intro s
    exact ⟨s.unicode, by simp [bytesOf, chktxtLoop]⟩
  | cons c cs ih =>
    intro s
    have hc := tabled (hcs c mem_cons_self)
    obtain ⟨unicode, hrest⟩ := ih (fun x hx => hcs x (mem_cons_of_mem _ hx))
      ⟨s.unicode ++ formatX 4 c.toNat, s.g7hex ++ (g7t c.toNat).getD (formatX 2 c.toNat), s.g7isok⟩
    refine ⟨unicode, ?_⟩
    rw [bytesOf, flatMap_cons, chktxtLoop_sequence hc.sequence]
    rw [bytesOf] at hrest
    rw [hrest, hc.digits]
    simp only [flatMap_cons, flatMap_append, append_assoc]

theorem septets_pos (hlen : 1 ≤ (bytesOf cs).length) : 1 ≤ (cs.flatMap septets).length := by
  cases cs with
  | nil => exact absurd hlen (by decide)
  | cons c cs =>
    have hc := (tabled (hcs c mem_cons_self)).nonempty
    rw [flatMap_cons, length_append]
    omega

theorem length_hex : ((cs.flatMap septets).flatMap (formatX 2)).length
    = 2 * (cs.flatMap septets).length :=
  length_flatMap_formatX fun x hx => (septets_lt hcs x hx).trans (by decide)

/-- **A text of the alphabet is accepted when it has at most 160 septets.** -/
theorem chktxt_bytesOf (hne : bytesOf cs ≠ []) : ∃ r, chktxt (bytesOf cs) = .ok r ∧
    (r.msg = none ↔ (cs.flatMap septets).length ≤ 160) ∧
    (r.msg = none → r.dcs = "00".toList ∧ r.txt = (cs.flatMap septets).flatMap (formatX 2)) := by
  obtain ⟨unicode, hloop⟩ := chktxtLoop_bytesOf hcs ⟨[], [], true⟩
  rw [nil_append] at hloop
  refine ⟨_, by rw [chktxt, if_neg hne, hloop]; rfl, ?_⟩
  have hlen := length_hex hcs
  dsimp only
  rcases Scan.choose_cases ⟨unicode, (cs.flatMap septets).flatMap (formatX 2), true⟩ (bytesOf cs)
    with ⟨hseven, heq⟩ | ⟨hwide, -⟩ | ⟨hseven, -, msg, heq⟩
  · dsimp only at hseven
    rw [heq]
    exact ⟨iff_of_true rfl (by omega), fun _ => ⟨rfl, rfl⟩⟩
  · exact absurd rfl hwide.1
  · rw [heq]
    exact ⟨iff_of_false (Option.some_ne_none _) fun h => hseven ⟨rfl, by dsimp only; omega⟩,
      fun h => absurd h (Option.some_ne_none _)⟩

end Text

/-! ### From septets to characters -/

variable {os : List Nat}

theorem word2utf8_append (i surrogate : Nat) (txt : List Char) :
    word2utf8 i surrogate txt
      = (txt ++ (word2utf8 i surrogate []).1, (word2utf8 i surrogate []).2) := by
  unfold word2utf8
  repeat' split
  all_goals simp

theorem put_append (skipped : Bool) (septet : Nat) (text : List Char) (w : Writer) :
    Writer.put skipped septet { w with text := text ++ w.text }
      = { Writer.put skipped septet w with
          text := text ++ (Writer.put skipped septet w).text } := by
  unfold Writer.put
  dsimp only
  split
  · rw [word2utf8_append _ _ (text ++ w.text), word2utf8_append _ _ w.text]
    simp only [append_assoc]
  · rfl

/-- What is already there does not matter, and neither does the position when nothing is skipped. -/
theorem write_append (xs : List Nat) : ∀ (k : Nat) (text : List Char) (w : Writer),
    Writer.write 0 k xs { w with text := text ++ w.text }
      = { Writer.write 0 0 xs w with text := text ++ (Writer.write 0 0 xs w).text } := by
  induction xs with
  | nil =>
    intro k text w
    rfl
  | cons x xs ih =>
    intro k text w
    have hposition := ih (0 + 1) [] (w.put (decide (0 < 0)) x)
    simp only [nil_append] at hposition
    rw [Writer.write, Writer.write, hposition]
    simp only [Nat.not_lt_zero]
    rw [put_append, ih]

theorem write_flatMap (xs ys : List Nat) : ∀ (k : Nat) (w : Writer),
    Writer.write 0 k (xs ++ ys) w = Writer.write 0 (k + xs.length) ys (Writer.write 0 k xs w) := by
  induction xs with
  | nil =>
    intro k w
    rfl
  | cons x xs ih =>
    intro k w
    rw [cons_append, Writer.write, ih, length_cons]
    congr 1
    omega

/-- **The septets of a text are decoded to the text.** -/
theorem write_septets {cs : List Char} (hcs : Gsm cs) :
    ∀ (k : Nat) (text : List Char), Writer.write 0 k (cs.flatMap septets) ⟨text, 0, .one⟩
      = ⟨text ++ bytesOf cs, 0, .one⟩ := by
  induction cs with
  | nil =>
    intro k text
    simp [bytesOf, Writer.write]
  | cons c cs ih =>
    intro k text
    have hwrite := (tabled (hcs c mem_cons_self)).decoded
    have hone := write_append (septets c) k text ⟨[], 0, .one⟩
    rw [hwrite, append_nil] at hone
    rw [flatMap_cons, write_flatMap, hone,
      ih fun x hx => hcs x (mem_cons_of_mem _ hx)]
    simp [bytesOf]

theorem pdu2text_packed {cs : List Char} (hcs : Gsm cs) {header : List Char}
    (hlen : header.length = 2) (hvalue : octet2binCheck header = some (cs.flatMap septets).length)
    (hos : Carries os (cs.flatMap septets)) (rest : List Char) {d : Decoder}
    (hd : d.surrogate = 0 ∧ d.gTableNbr = .one) :
    pdu2text (header ++ (os.flatMap (formatX 2) ++ rest)) false d
      = .ok (1, { d with mText := some (bytesOf cs) }) := by
  have hn : octet2binCheck (header ++ (os.flatMap (formatX 2) ++ rest))
      = some (cs.flatMap septets).length := by
    rw [octet2binCheck_append (by omega), hvalue]
  have hseptets : textSeptets (header ++ (os.flatMap (formatX 2) ++ rest))
      = cs.flatMap septets := by
    rw [textSeptets, hn]
    dsimp only
    rw [drop_left' hlen, unpack_octets hos _ (septets_lt hcs)]
  have hcomplete : TextComplete (header ++ (os.flatMap (formatX 2) ++ rest)) := by
    rw [TextComplete, hn, hseptets]
  rw [pdu2text_run hn]
  simp only [skipCharacters, Bool.false_eq_true, if_false, run_pure, if_pos hcomplete, hseptets,
    hd.1, hd.2, write_septets hcs, nil_append]

/-! ### The time stamp -/

/-- What `os.date("%y%m%d%H%M%S%z")` can answer. -/
structure Clock where
  digits : List Char
  length_digits : digits.length = 12
  isDigit : digits.all Char.isDigit = true
  minus : Bool
  hours : Nat
  minutes : Nat
  hours_lt : hours < 100
  minutes_lt : minutes < 100

namespace Clock

variable (c : Clock)

def dtg : List Char :=
  c.digits ++ (if c.minus then '-' else '+') :: (format02d c.hours ++ format02d c.minutes)

def quarters : Nat := c.hours * 4 + c.minutes / 15

end Clock

variable {oaddr tz : List Char}

theorem format02d_spec : ∀ n < 100, (format02d n).length = 2 ∧ decimal? (format02d n) = some n := by
  decide +kernel

/-- The two digits of the time zone; the sign needs a tens digit below eight. -/
theorem zoneDigits_spec : ∀ q < 403,
    ((zoneDigits "+".toList q).toOption.any fun tz =>
      tz.length = 2 ∧ (octet2binCheck tz).isSome = true) = true ∧
    (¬ (80 ≤ q ∧ q ≤ 99) → ((zoneDigits "-".toList q).toOption.any fun tz =>
      tz.length = 2 ∧ (octet2binCheck tz).isSome = true) = true) := by
  decide +kernel

theorem zoneOctet_dtg (c : Clock) :
    zoneOctet c.dtg = zoneDigits [if c.minus then '-' else '+'] c.quarters := by
  obtain ⟨hhours, hvalue⟩ := format02d_spec c.hours c.hours_lt
  obtain ⟨hminutes, hvalue'⟩ := format02d_spec c.minutes c.minutes_lt
  have hlen : c.dtg.length - 4 = c.digits.length + 1 := by
    rw [Clock.dtg, length_append, length_cons, length_append]
    omega
  have hdrop : c.dtg.drop (c.dtg.length - 4) = format02d c.hours ++ format02d c.minutes := by
    rw [hlen, Clock.dtg, drop_length_add_append]
    rfl
  have hsign : sub c.dtg 13 13 = [if c.minus then '-' else '+'] := by
    rw [sub, show 13 - 1 = c.digits.length from c.length_digits.symm, Clock.dtg,
      drop_take, drop_left, c.length_digits]
    rfl
  have hfirst : sub (format02d c.hours ++ format02d c.minutes) 1 2 = format02d c.hours := by
    rw [sub, ← hhours, take_left]
    rfl
  have hsecond : sub (format02d c.hours ++ format02d c.minutes) 3 4 = format02d c.minutes := by
    rw [sub, take_of_length_le (by rw [length_append]; omega),
      show 3 - 1 = (format02d c.hours).length from hhours.symm, drop_left]
  unfold zoneOctet
  dsimp only
  rw [hdrop, hsign, hfirst, hsecond, hvalue, hvalue']
  rfl

theorem exists_zone (c : Clock) (h : c.minus = true → ¬ (80 ≤ c.quarters ∧ c.quarters ≤ 99)) :
    ∃ tz, zoneOctet c.dtg = .ok tz ∧ tz.length = 2 ∧ (octet2binCheck tz).isSome = true := by
  have hbound : c.quarters < 403 := by
    have h₁ := c.hours_lt
    have h₂ := c.minutes_lt
    rw [Clock.quarters]
    omega
  obtain ⟨hplus, hminus⟩ := zoneDigits_spec c.quarters hbound
  have hany : (zoneOctet c.dtg).toOption.any fun tz =>
      tz.length = 2 ∧ (octet2binCheck tz).isSome = true = true := by
    rw [zoneOctet_dtg]
    cases hm : c.minus with
    | false => exact hplus
    | true => exact hminus (h hm)
  cases hz : zoneOctet c.dtg with
  | error e =>
    rw [hz] at hany
    cases hany
  | ok tz =>
    rw [hz] at hany
    exact ⟨tz, rfl, of_decide_eq_true hany⟩

theorem length_dtgif (c : Clock) : (dtgif c.dtg).length = 12 := by
  have hlen : 12 ≤ c.dtg.length := by
    rw [Clock.dtg, length_append, c.length_digits]
    omega
  simp only [dtgif, sub, flatMap_cons, flatMap_nil, length_append,
    length_drop, length_take, length_nil]
  omega

/-! ### The PDU -/

/-- Up to fourteen septets the length that is written lets the reader find the number of
    septets, and the digits that hold them. -/
theorem addressLength_spec {m : Nat} (hlen : oaddr.length = 2 * m) (hpos : 1 ≤ m) (hmax : m ≤ 14) :
    1 ≤ addressLength oaddr ∧ addressLength oaddr ≤ maxNumber ∧
      addressLength oaddr * 4 / 7 = m ∧
      addressLength oaddr + addressLength oaddr % 2 = 2 * ((m * 7 + 7) / 8) := by
  unfold addressLength maxNumber
  split
  · omega
  · split
    · omega
    · omega

theorem firstOctet_deliver (rest : List Char) :
    firstOctet ("0004".toList ++ rest) = some (4, rest) := by
  simp [firstOctet, parseSMSC, octet2binCheck, isxdigit, digit2bin, subFrom]

theorem deliverAddress_named {n : Nat} (hpos : 1 ≤ n) (hmax : n ≤ maxNumber) (rest : List Char) :
    deliverAddress (formatX 2 n ++ ("D0".toList ++ rest)) = some ⟨n, 0xD0, rest⟩ := by
  obtain ⟨hlen, -, hvalue, -⟩ := formatX_spec n (hmax.trans_lt (by decide))
  have hlength : ¬ (formatX 2 n ++ ("D0".toList ++ rest)).length < 4 := by
    rw [length_append, length_append]
    have : "D0".toList.length = 2 := rfl
    omega
  have htype : octet2binCheck ("D0".toList ++ rest) = some 0xD0 := rfl
  have hrest : (formatX 2 n ++ ("D0".toList ++ rest)).drop 4 = rest := by
    rw [show 4 = (formatX 2 n).length + 2 by omega, drop_length_add_append]
    rfl
  unfold deliverAddress
  rw [if_neg hlength, octet2binCheck_append (by omega), hvalue]
  dsimp only
  rw [if_neg (by omega), if_neg (by omega), drop_left' hlen, hrest]
  rfl

theorem userData_sevenBit {stamp ud : List Char} (hstamp : stamp.length = 12)
    (htz : tz.length = 2 ∧ (octet2binCheck tz).isSome = true) (hud : 2 ≤ ud.length) :
    userData ("00".toList ++ ("00".toList ++ (stamp ++ (tz ++ ud)))) = some (0, ud) := by
  have hlength : ¬ ("00".toList ++ ("00".toList ++ (stamp ++ (tz ++ ud)))).length < 20 := by
    simp only [length_append]
    have : "00".toList.length = 2 := rfl
    omega
  have hdrop : ∀ i, ("00".toList ++ ("00".toList ++ (stamp ++ (tz ++ ud)))).drop (4 + i)
      = (stamp ++ (tz ++ ud)).drop i := by
    intro i
    rw [Nat.add_comm]
    rfl
  have hzone : ("00".toList ++ ("00".toList ++ (stamp ++ (tz ++ ud)))).drop 16 = tz ++ ud := by
    rw [hdrop 12, drop_left' hstamp]
  have hdata : ("00".toList ++ ("00".toList ++ (stamp ++ (tz ++ ud)))).drop 18 = ud := by
    rw [show 18 = 4 + (stamp.length + 2) by omega, hdrop, drop_length_add_append,
      drop_left' htz.1]
  have hpid : octet2binCheck ("00".toList ++ ("00".toList ++ (stamp ++ (tz ++ ud)))) = some 0 := rfl
  obtain ⟨n, hn⟩ := Option.isSome_iff_exists.mp htz.2
  unfold userData
  rw [if_neg hlength, hpid, hzone, hdata, octet2binCheck_append (by omega), hn]
  rfl

/-- The decoder is not inside an escape sequence and not between two surrogates. -/
def Ready (d : Decoder) : Prop := d.surrogate = 0 ∧ d.gTableNbr = .one

variable {name : List Char}

theorem readSender_packed (hname : Gsm name) {n : Nat} (hmax : n ≤ maxNumber)
    (hseptets : n * 4 / 7 = (name.flatMap septets).length) (hos : Carries os (name.flatMap septets))
    (hwidth : n + n % 2 = 2 * os.length) (rest : List Char) {d : Decoder} (hd : Ready d) :
    readSender ⟨n, 0xD0, os.flatMap (formatX 2) ++ rest⟩ d
      = .ok (some rest, { d with mNumber := some (blankLines (bytesOf name)), mText := none }) := by
  have hlen := length_flatMap_formatX hos.octet
  have hbound : n * 4 / 7 ≤ 36 := by
    rw [maxNumber] at hmax
    omega
  obtain ⟨htwo, hvalue, -⟩ := upperOctet_spec _ hbound
  let a : Address := ⟨n, 0xD0, os.flatMap (formatX 2) ++ rest⟩
  have hnamed : a.Named := show 0xD0 &&& 112 = 80 by decide
  have hbehind : a.behind = rest := drop_left' (by rw [hlen, ← hwidth]; rfl)
  have hfits : ¬ a.ptr.length < a.width := by
    rw [length_append, show a.width = n + n % 2 from rfl]
    omega
  rw [readSender, readAddress_named hnamed, if_neg hfits,
    run_bind_of_ok (pdu2text_packed hname htwo (by rw [hvalue, hseptets]) hos rest hd),
    if_neg (by decide), hbehind]
  rfl

/-- **The reader finds the sender and the text** in a PDU of this layout. -/
theorem parse_packed {text : List Char} (hname : Gsm name) (htext : Gsm text) {n : Nat}
    (hpos : 1 ≤ n) (hmax : n ≤ maxNumber) (hseptets : n * 4 / 7 = (name.flatMap septets).length)
    {os' : List Nat} (hos : Carries os (name.flatMap septets))
    (hwidth : n + n % 2 = 2 * os.length) (hos' : Carries os' (text.flatMap septets))
    (hlen : (text.flatMap septets).length < 256) {stamp : List Char} (hstamp : stamp.length = 12)
    (htz : tz.length = 2 ∧ (octet2binCheck tz).isSome = true) {d : Decoder} (hd : Ready d) :
    ∃ d', parse ("0004".toList ++ (formatX 2 n ++ ("D0".toList ++ (os.flatMap (formatX 2) ++
        ("00".toList ++ ("00".toList ++ (stamp ++ (tz ++ (formatX 2 (text.flatMap septets).length ++
          os'.flatMap (formatX 2)))))))))) d.reset = .ok (1, d') ∧
      d'.mNumber = some (blankLines (bytesOf name)) ∧ d'.mText = some (bytesOf text) := by
  obtain ⟨hheader, -, hvalue, -⟩ := formatX_spec _ hlen
  have hdata := fun d => pdu2text_packed (d := d) htext hheader hvalue hos' []
  simp only [append_nil] at hdata
  have hfits : 2 ≤ (formatX 2 (text.flatMap septets).length ++ os'.flatMap (formatX 2)).length := by
    rw [length_append]
    omega
  generalize formatX 2 (text.flatMap septets).length ++ os'.flatMap (formatX 2) = ud at *
  have hud := userData_sevenBit hstamp htz hfits
  generalize "00".toList ++ ("00".toList ++ (stamp ++ (tz ++ ud))) = fields at *
  have hsender := readSender_packed hname hmax hseptets hos hwidth fields
    (show Ready d.reset from hd)
  obtain ⟨dcs, date, time, hbody, -⟩ := deliverBody_some hud
    { d.reset with mNumber := some (blankLines (bytesOf name)), mText := none }
  have hdeliver := parseDeliver_eq (formatX 2 n ++ ("D0".toList ++ (os.flatMap (formatX 2) ++
    fields)))
  rw [deliverAddress_named hpos hmax] at hdeliver
  dsimp only at hdeliver
  rw [if_neg (by omega)] at hdeliver
  have hresult := (congrFun hdeliver d.reset).trans
    ((run_bind_of_ok hsender).trans (hbody.trans (hdata _ hd)))
  rw [parse_eq, firstOctet_deliver]
  dsimp only
  unfold parseTpdu
  rw [run_modify_bind, if_neg (show ¬ 0 < 4 &&& 0x40 by decide),
    if_pos (show 4 &&& 3 = 0 by decide), run_bind_of_ok hresult]
  exact ⟨_, rfl, rfl, rfl⟩

/-! ### The script -/

theorem senderName_eq (hne : oaddr ≠ []) (hblank : oaddr.getLast? ≠ some ' ') :
    senderName oaddr = oaddr := by
  have hother : ¬ (oaddr = [] ∨ oaddr = " ".toList) := by
    rintro (h | h)
    · exact hne h
    · exact hblank (by rw [h]; rfl)
  rw [senderName, if_neg hother, if_neg hblank]

theorem sys2sms_eq {clock : Clock} {text : List Char} (hname : Gsm name) (htext : Gsm text)
    (hlen : 1 ≤ (bytesOf name).length ∧ (bytesOf name).length ≤ 11)
    (hblank : (bytesOf name).getLast? ≠ some ' ') (hne : bytesOf text ≠ [])
    (hlong : (text.flatMap septets).length ≤ 160) (hshort : (name.flatMap septets).length ≤ 160)
    {ud : List Char} (hud : pack (formatX 2 (text.flatMap septets).length)
      ((text.flatMap septets).flatMap (formatX 2)) = .ok ud)
    (hoaddr : pack (formatX 2 (name.flatMap septets).length)
      ((name.flatMap septets).flatMap (formatX 2)) = .ok oaddr)
    (htz : zoneOctet clock.dtg = .ok tz) :
    ∃ out, sys2sms clock.dtg (bytesOf name) (bytesOf text) = .ok (some out) ∧
      out.pdu = "0004".toList ++ (formatX 2 (addressLength
        ((name.flatMap septets).flatMap (formatX 2))) ++ ("D0".toList ++ (oaddr ++
        ("00".toList ++ ("00".toList ++ (dtgif clock.dtg ++ (tz ++
          (formatX 2 (text.flatMap septets).length ++ ud)))))))) := by
  have hnameNe : bytesOf name ≠ [] := by
    intro h
    rw [h] at hlen
    exact absurd hlen.1 (by decide)
  obtain ⟨⟨msg, dcs, txt⟩, hchk, hok, hspec⟩ := chktxt_bytesOf htext hne
  obtain ⟨⟨msg', dcs', txt'⟩, hchk', hok', hspec'⟩ := chktxt_bytesOf hname hnameNe
  obtain rfl := hok.mpr hlong
  obtain rfl := hok'.mpr hshort
  obtain ⟨rfl, rfl⟩ := hspec rfl
  obtain ⟨rfl, rfl⟩ := hspec' rfl
  have hhalf : ∀ cs : List Char, Gsm cs →
      ((cs.flatMap septets).flatMap (formatX 2)).length / 2 = (cs.flatMap septets).length := by
    intro cs hcs
    rw [length_hex hcs]
    omega
  unfold sys2sms
  rw [if_neg (by omega)]
  dsimp only
  rw [if_neg hne, hchk, ok_bind]
  rw [hhalf text htext, hud, ok_bind, senderName_eq hnameNe hblank, hchk', ok_bind]
  dsimp only
  rw [hhalf name hname, hoaddr, htz]
  refine ⟨_, rfl, ?_⟩
  simp only [append_assoc]

/-- **Decoding undoes encoding.**  The sender is shown on one line: an end of line in the
    name comes back as a blank. -/
theorem parse_sys2sms (clock : Clock) (name text : List Char) (hname : Gsm name) (htext : Gsm text)
    (hlen : 1 ≤ (bytesOf name).length ∧ (bytesOf name).length ≤ 11)
    (hblank : (bytesOf name).getLast? ≠ some ' ')
    (haccepted : ∃ r, chktxt (bytesOf text) = .ok r ∧ r.msg = none)
    (hshort : (name.flatMap septets).length ≤ 14)
    (hzone : clock.minus = true → ¬ (80 ≤ clock.quarters ∧ clock.quarters ≤ 99)) :
    ∃ out d, sys2sms clock.dtg (bytesOf name) (bytesOf text) = .ok (some out) ∧
      parse out.pdu Decoder.initial.reset = .ok (1, d) ∧
      d.mNumber = some (blankLines (bytesOf name)) ∧ d.mText = some (bytesOf text) := by
  have hne : bytesOf text ≠ [] := by
    intro h
    obtain ⟨r, hr, -⟩ := haccepted
    rw [h] at hr
    cases hr
  have hlong : (text.flatMap septets).length ≤ 160 := by
    obtain ⟨r, hr, hmsg⟩ := haccepted
    obtain ⟨r', hr', hok, -⟩ := chktxt_bytesOf htext hne
    cases hr.symm.trans hr'
    exact hok.mp hmsg
  have hpos : 1 ≤ (name.flatMap septets).length := septets_pos hname hlen.1
  obtain ⟨os, hpack, hcount, hos⟩ := pack_spec (septets_lt hname) (by omega)
  obtain ⟨os', hpack', -, hos'⟩ := pack_spec (septets_lt htext) (by omega)
  obtain ⟨tz, htz, hdigits⟩ := exists_zone clock hzone
  obtain ⟨out, hout, hpdu⟩ := sys2sms_eq hname htext hlen hblank hne hlong
    (show (name.flatMap septets).length ≤ 160 by omega) hpack' hpack htz
  obtain ⟨hone, hmax, hseptets, hwidth⟩ := addressLength_spec (length_hex hname) hpos hshort
  rw [← hcount] at hwidth
  obtain ⟨d, hparse, hnumber, htext'⟩ := parse_packed hname htext hone hmax hseptets hos hwidth
    hos' (by omega) (length_dtgif clock) hdigits (show Ready Decoder.initial from ⟨rfl, rfl⟩)
  rw [← hpdu] at hparse
  exact ⟨out, d, hout, hparse, hnumber, htext'⟩

def noon : Clock where
  digits := "260101120000".toList
  length_digits := rfl
  isDigit := by decide
  minus := false
  hours := 2
  minutes := 0
  hours_lt := by decide
  minutes_lt := by decide

theorem parse_sys2sms_hello :
    ∃ out d, sys2sms noon.dtg (bytesOf "R[ter".toList) (bytesOf "5 €".toList) = .ok (some out) ∧
      parse out.pdu Decoder.initial.reset = .ok (1, d) ∧
      d.mNumber = some (blankLines (bytesOf "R[ter".toList)) ∧
      d.mText = some (bytesOf "5 €".toList) :=
  parse_sys2sms noon "R[ter".toList "5 €".toList (by decide +kernel) (by decide +kernel)
    (by decide +kernel) (by decide +kernel)
    ⟨⟨none, "00".toList, "35201B65".toList⟩, by decide +kernel, rfl⟩ (by decide +kernel)
    (by decide +kernel)

/-- A name on two lines comes back on one. -/
theorem not_parse_sys2sms_twoLines : ¬ ∀ (clock : Clock) (name text : List Char),
    Gsm name → Gsm text →
    1 ≤ (bytesOf name).length ∧ (bytesOf name).length ≤ 11 →
    (bytesOf name).getLast? ≠ some ' ' →
    (∃ r, chktxt (bytesOf name) = .ok r ∧ r.msg = none ∧ r.dcs = "00".toList) →
    (∃ r, chktxt (bytesOf text) = .ok r ∧ r.msg = none) →
    ∃ out d, sys2sms clock.dtg (bytesOf name) (bytesOf text) = .ok (some out) ∧
      parse out.pdu Decoder.initial.reset = .ok (1, d) ∧
      d.mNumber = some (bytesOf name) ∧ d.mText = some (bytesOf text) := by
  intro hclaim
  obtain ⟨out, d, hout, hparse, hnumber, -⟩ := hclaim noon "A\nB".toList "x".toList
    (by decide +kernel) (by decide +kernel) (by decide +kernel) (by decide +kernel)
    ⟨⟨none, "00".toList, "410A42".toList⟩, by decide +kernel, rfl, rfl⟩
    ⟨⟨none, "00".toList, "78".toList⟩, by decide +kernel, rfl⟩
  have hshown : ((sys2sms noon.dtg (bytesOf "A\nB".toList) (bytesOf "x".toList)).toOption.bind
      fun out => out.bind fun out => (parse out.pdu Decoder.initial.reset).toOption.bind
        fun p => p.2.mNumber) = some "A B".toList := by
    decide +kernel
  rw [hout] at hshown
  simp only [Except.toOption, Option.bind_some, hparse, hnumber] at hshown
  exact absurd hshown (by decide +kernel)

end Rooter.SmsEncode
