import Rooter.SmsRead

/-!
# Messages that the router writes itself

`sys2sms.lua` stores a text from the system itself as if it had come in: it builds a
DELIVER PDU with a name as the sender.  `utf8togsm.lua` chooses the alphabet and turns
the text into hexadecimal digits, two for a septet or four for a UTF-16 word;
`pack7bit.lua` packs septets into octets.  Strings are byte strings, and arithmetic
with `bitand`, `bitor`, `bitleft` and `bitright` is that of natural numbers.
-/

namespace Rooter.SmsEncode

open Numeral LuaString SmsRead

def formatX (width n : Nat) : List Char :=
  List.replicate (width - (upperHex n).length) '0' ++ upperHex n

/-! ### `utf8togsm.lua` -/

def g7t (ch : Nat) : Option (List Char) :=
  match ch with
  | 64 => some "00".toList | 163 => some "01".toList | 36 => some "02".toList
  | 165 => some "03".toList | 232 => some "04".toList | 233 => some "05".toList
  | 249 => some "06".toList | 236 => some "07".toList | 242 => some "08".toList
  | 199 => some "09".toList | 216 => some "0B".toList | 248 => some "0C".toList
  | 197 => some "0E".toList | 229 => some "0F".toList | 0x394 => some "10".toList
  | 95 => some "11".toList | 0x3A6 => some "12".toList | 0x393 => some "13".toList
  | 0x39B => some "14".toList | 0x3A9 => some "15".toList | 0x3A0 => some "16".toList
  | 0x3A8 => some "17".toList | 0x3A3 => some "18".toList | 0x398 => some "19".toList
  | 0x39E => some "1A".toList | 198 => some "1C".toList | 230 => some "1D".toList
  | 223 => some "1E".toList | 201 => some "1F".toList | 164 => some "24".toList
  | 161 => some "40".toList | 196 => some "5B".toList | 214 => some "5C".toList
  | 209 => some "5D".toList | 220 => some "5E".toList | 167 => some "5F".toList
  | 191 => some "60".toList | 228 => some "7B".toList | 246 => some "7C".toList
  | 241 => some "7D".toList | 252 => some "7E".toList | 224 => some "7F".toList
  | 94 => some "1B14".toList | 123 => some "1B28".toList | 125 => some "1B29".toList
  | 92 => some "1B2F".toList | 91 => some "1B3C".toList | 126 => some "1B3D".toList
  | 93 => some "1B3E".toList | 124 => some "1B40".toList | 0x20AC => some "1B65".toList
  | _ => none

structure Scan where
  unicode : List Char
  g7hex : List Char
  g7isok : Bool

/-- A character of two or three octets: only the table has it in seven bits. -/
def Scan.wide (s : Scan) (ch : Nat) : Scan :=
  match g7t ch with
  | none => ⟨s.unicode ++ formatX 4 ch, s.g7hex, false⟩
  | some res => ⟨s.unicode ++ formatX 4 ch, s.g7hex ++ res, s.g7isok⟩

def Scan.narrow (s : Scan) (ch : Nat) : Scan :=
  ⟨s.unicode ++ formatX 4 ch, s.g7hex ++ (g7t ch).getD (formatX 2 ch), s.g7isok⟩

/-- A character outside the basic plane, as two surrogates.  The subtraction may go below
    zero and `bitand` then sees the two's complement. -/
def Scan.surrogates (s : Scan) (ch : Nat) : Scan :=
  let ch := (ch + 0x100000 - 0x10000) % 0x100000
  let w1 := 0xD800 ||| (ch &&& 0xFFC00) >>> 10
  let w2 := 0xDC00 ||| ch &&& 0x3FF
  ⟨s.unicode ++ formatX 4 w1 ++ formatX 4 w2, s.g7hex, false⟩

/-- `repeat ... until k > j`; an octet that is missing is `nil`. -/
def chktxtLoop : List Char → Scan → Except LuaError Scan
  | [], s => .ok s
  | c :: rest, s =>
      let ch := c.toNat
      if 0xF0 ≤ ch then
        match rest with
        | c₁ :: c₂ :: c₃ :: rest =>
            chktxtLoop rest (s.surrogates ((c₃.toNat &&& 0x3F) ||| ((c₂.toNat &&& 0x3F) <<< 6 |||
              ((c₁.toNat &&& 0x3F) <<< 12 ||| (ch &&& 7) <<< 18))))
        | _ => .error .compareNil
      else if 0xE0 ≤ ch then
        match rest with
        | c₁ :: c₂ :: rest =>
            chktxtLoop rest (s.wide ((c₂.toNat &&& 0x3F) ||| ((c₁.toNat &&& 0x3F) <<< 6 |||
              (ch &&& 0xF) <<< 12)))
        | _ => .error .compareNil
      else if 0xC0 ≤ ch then
        match rest with
        | c₁ :: rest => chktxtLoop rest (s.wide ((c₁.toNat &&& 0x3F) ||| (ch &&& 0x3F) <<< 6))
        | _ => .error .compareNil
      else if ch = 0x60 then
        chktxtLoop rest ⟨s.unicode ++ "0060".toList, s.g7hex, false⟩
      else if ch ≤ 0x7F then chktxtLoop rest (s.narrow ch)
      else chktxtLoop rest ⟨s.unicode ++ "003F".toList, s.g7hex ++ "3F".toList, s.g7isok⟩

theorem chktxtLoop_two {c : Char} (hge : 0xC0 ≤ c.toNat) (hlt : c.toNat < 0xE0)
    (c₁ : Char) (rest : List Char) (s : Scan) :
    chktxtLoop (c :: c₁ :: rest) s =
      chktxtLoop rest (s.wide ((c₁.toNat &&& 0x3F) ||| (c.toNat &&& 0x3F) <<< 6)) := by
  rw [chktxtLoop.eq_def]
  dsimp only
  rw [if_neg (by omega), if_neg (by omega), if_pos hge]

theorem chktxtLoop_three {c : Char} (hge : 0xE0 ≤ c.toNat) (hlt : c.toNat < 0xF0)
    (c₁ c₂ : Char) (rest : List Char) (s : Scan) :
    chktxtLoop (c :: c₁ :: c₂ :: rest) s =
      chktxtLoop rest (s.wide ((c₂.toNat &&& 0x3F) ||| ((c₁.toNat &&& 0x3F) <<< 6 |||
        (c.toNat &&& 0xF) <<< 12))) := by
  rw [chktxtLoop.eq_def]
  dsimp only
  rw [if_neg (by omega), if_pos hge]

theorem chktxtLoop_four {c : Char} (hge : 0xF0 ≤ c.toNat) (c₁ c₂ c₃ : Char) (rest : List Char)
    (s : Scan) : chktxtLoop (c :: c₁ :: c₂ :: c₃ :: rest) s =
      chktxtLoop rest (s.surrogates ((c₃.toNat &&& 0x3F) ||| ((c₂.toNat &&& 0x3F) <<< 6 |||
        ((c₁.toNat &&& 0x3F) <<< 12 ||| (c.toNat &&& 7) <<< 18)))) := by
  rw [chktxtLoop.eq_def]
  dsimp only
  rw [if_pos hge]

structure Checked where
  msg : Option (List Char)
  dcs : List Char
  txt : List Char
deriving DecidableEq, Repr

/-- The end of `chktxt`: seven bits if they suffice, else sixteen. -/
def Scan.choose (s : Scan) (txt : List Char) : Checked :=
  if s.g7isok ∧ s.g7hex.length ≤ 320 then ⟨none, "00".toList, s.g7hex⟩
  else if s.g7isok then
    ⟨some ("Processed text length = ".toList ++ decimal (s.g7hex.length / 2) ++
      " 7-bit characters.\nCurrently ROOter supports 160 maximum per message.".toList), [], txt⟩
  else if s.unicode.length ≤ 280 then ⟨none, "08".toList, s.unicode⟩
  else
    ⟨some ("Processed text length = ".toList ++ decimal (s.unicode.length / 4) ++
      " 16-bit Unicode characters.\nCurrently ROOter supports 70 maximum per message.".toList),
      [], txt⟩

theorem Scan.choose_cases (s : Scan) (txt : List Char) :
    ((s.g7isok = true ∧ s.g7hex.length ≤ 320) ∧ s.choose txt = ⟨none, "00".toList, s.g7hex⟩) ∨
    ((¬ s.g7isok = true ∧ s.unicode.length ≤ 280) ∧
      s.choose txt = ⟨none, "08".toList, s.unicode⟩) ∨
    (¬ (s.g7isok = true ∧ s.g7hex.length ≤ 320) ∧
      ¬ (¬ s.g7isok = true ∧ s.unicode.length ≤ 280) ∧
      ∃ msg, s.choose txt = ⟨some msg, [], txt⟩) := by
  unfold Scan.choose
  by_cases hseven : s.g7isok = true ∧ s.g7hex.length ≤ 320
  · exact .inl ⟨hseven, if_pos hseven⟩
  · rw [if_neg hseven]
    split
    · next hok =>
      exact .inr (.inr ⟨hseven, fun h => h.1 hok, _, rfl⟩)
    · next hok =>
      by_cases hlen : s.unicode.length ≤ 280
      · exact .inr (.inl ⟨⟨hok, hlen⟩, if_pos hlen⟩)
      · rw [if_neg hlen]
        exact .inr (.inr ⟨hseven, fun h => hlen h.2, _, rfl⟩)

/-- `chktxt(txt)`; the first round of the loop compares the octet of an empty text. -/
def chktxt (txt : List Char) : Except LuaError Checked :=
  if txt = [] then .error .compareNil
  else (chktxtLoop txt ⟨[], [], true⟩).map fun s => s.choose txt

theorem chktxt_eq_ok {txt : List Char} {r : Checked} (h : chktxt txt = .ok r) :
    ∃ s, chktxtLoop txt ⟨[], [], true⟩ = .ok s ∧ s.choose txt = r := by
  unfold chktxt at h
  split at h
  · cases h
  · cases hloop : chktxtLoop txt ⟨[], [], true⟩ with
    | error e =>
      rw [hloop] at h
      cases h
    | ok s =>
      rw [hloop] at h
      cases h
      exact ⟨s, rfl, rfl⟩

/-! ### `pack7bit.lua` -/

/-- The branches 2 to 7: the low bits of a septet fill up the last octet, the high bits
    begin a new one.  `udtab` is kept with its last entry first, and `kk` is its length. -/
def spread (low left high right ch : Nat) : List Nat → List Nat
  | [] => [] -- `udtab[kk]` exists from the first round on
  | last :: udtab => ((ch &&& high) >>> right) :: ((ch &&& low) <<< left ||| last) :: udtab

def fillUp (ch : Nat) : List Nat → List Nat
  | [] => []
  | last :: udtab => (ch <<< 1 ||| last) :: udtab

structure Packing where
  ii : Nat
  udtab : List Nat

def Packing.add (p : Packing) (ch : Nat) : Packing :=
  match p.ii with
  | 1 => ⟨2, ch :: p.udtab⟩
  | 2 => ⟨3, spread 1 7 126 1 ch p.udtab⟩
  | 3 => ⟨4, spread 3 6 124 2 ch p.udtab⟩
  | 4 => ⟨5, spread 7 5 120 3 ch p.udtab⟩
  | 5 => ⟨6, spread 15 4 112 4 ch p.udtab⟩
  | 6 => ⟨7, spread 31 3 96 5 ch p.udtab⟩
  | 7 => ⟨8, spread 63 2 64 6 ch p.udtab⟩
  | _ => ⟨1, fillUp ch p.udtab⟩

/-- `txt:sub(jj, jj + 1)` for the odd `jj`. -/
def digitPairs : List Char → List (List Char)
  | c₁ :: c₂ :: rest => [c₁, c₂] :: digitPairs rest
  | [c] => [[c]]
  | [] => []

/-- `pack(udl, txt)`; entries behind `maxb` stay numbers and are printed in decimal. -/
def pack (udl txt : List Char) : Except LuaError (List Char) :=
  match tonumber16 udl, (digitPairs txt).mapM tonumber16 with
  | some udl, some chs =>
      let maxb := (udl * 7 + 7) / 8
      let udtab := (chs.foldl Packing.add ⟨1, []⟩).udtab.reverse
      if udtab.length < maxb then .error .badArgument
      else .ok ((udtab.take maxb).flatMap (formatX 2) ++ (udtab.drop maxb).flatMap decimal)
  | _, _ => .error .arithNil

/-! ### `sys2sms.lua` -/

def format02d (n : Nat) : List Char := if n < 10 then '0' :: decimal n else decimal n

def dtgif (dtg : List Char) : List Char :=
  [1, 3, 5, 7, 9, 11].flatMap fun j => sub dtg (j + 1) (j + 1) ++ sub dtg j j

/-- The quarters of an hour with swapped digits and the sign in the second one. -/
def zoneDigits (sign : List Char) (quarters : Nat) : Except LuaError (List Char) :=
  let tz := format02d quarters
  let tz := sub tz 2 2 ++ sub tz 1 1
  if sign = "-".toList then
    match decimal? (sub tz 2 2) with
    | some n => .ok (sub tz 1 1 ++ upperHex (n + 8))
    | none => .error .arithNil
  else .ok tz

def zoneOctet (dtg : List Char) : Except LuaError (List Char) :=
  let tz := dtg.drop (dtg.length - 4)
  match decimal? (sub tz 1 2), decimal? (sub tz 3 4) with
  | some hours, some minutes => zoneDigits (sub dtg 13 13) (hours * 4 + minutes / 15)
  | _, _ => .error .arithNil

def addressLength (oaddr : List Char) : Nat :=
  if 6 < oaddr.length ∧ oaddr.length < 16 then oaddr.length - 1
  else if 14 < oaddr.length then oaddr.length - 2
  else oaddr.length

/-- The sender as it is written: a default for none, and no trailing blank. -/
def senderName (oaddr : List Char) : List Char :=
  let oaddr := if oaddr = [] ∨ oaddr = " ".toList then "ROOter".toList else oaddr
  if oaddr.getLast? = some ' ' then oaddr.dropLast else oaddr

structure Output where
  pdul : List Char
  pdu : List Char

def usage : List Char := "Usage: /usr/lib/sms/sys2sms.sh 'from' 'text to write here'".toList

/-- The script with the arguments `oaddr` and `txt`; `dtg` is the answer of `os.date`.
    `none` is a run that writes nothing. -/
def sys2sms (dtg oaddr txt : List Char) : Except LuaError (Option Output) := do
  let (oaddr, txt) :=
    if 11 < oaddr.length then ("ROOter".toList, oaddr ++ ' ' :: txt) else (oaddr, txt)
  let txt := if txt = [] then usage else txt
  let text ← chktxt txt
  let udl := formatX 2 (text.txt.length / 2)
  let ud ← if text.msg = none ∧ text.dcs = "00".toList then pack udl text.txt else pure text.txt
  let name ← chktxt (senderName oaddr)
  let oaddrl := formatX 2 (addressLength name.txt)
  let oaddr ← pack (formatX 2 (name.txt.length / 2)) name.txt
  let tz ← zoneOctet dtg
  let pdu := "0004".toList ++ oaddrl ++ "D0".toList ++ oaddr ++ "00".toList ++ text.dcs ++
    dtgif dtg ++ tz ++ udl ++ ud
  let pdul := pdu.length / 2 - 1
  if text.msg = none ∧ name.dcs ≠ "08".toList then
    pure (some ⟨(if pdul < 100 then ['0'] else []) ++ format02d pdul, pdu⟩)
  else pure none

end Rooter.SmsEncode
