import Mathlib.Data.Nat.Bitwise
import Rooter.Numeral
import Rooter.LuaString

/-!
# The PDU decoder of `smsread.lua`

A PDU is a line of hexadecimal digits.  `parse` walks over it with a pointer and
leaves what it finds in module-level variables; `readpdu` calls `reset`, runs
`parse` and appends a record of six fields to the table `t` when `parse` accepts.

`Decoder` holds the module-level variables, without those that are only written
(`m_smsc`, `m_report`, `m_replace`, `m_flash`).
The pointer `m_pdu_ptr` is an argument.  A rejected PDU is not an error: `parse`
returns 0 and the variables keep what was stored so far.
-/

namespace Rooter.SmsRead

open Numeral LuaString

/-! ### Module-level variables -/

/-- The selector `g_table_nbr`.  It is `nil` before the first escape; the script only
    compares it with 2, so `nil` counts as 1. -/
inductive TableNbr where
  | one
  | two
deriving DecidableEq, Repr

structure Decoder where
  mWithUdh : Bool
  mNumber : Option (List Char)
  mAlphabet : Int
  mDcs : Option Nat
  mDate : Option (List Char)
  mTime : Option (List Char)
  mText : Option (List Char)
  mConcat : Option (List Char)
  surrogate : Nat
  gTableNbr : TableNbr
deriving DecidableEq, Repr

/-- A function of the script: it changes the variables and may stop with an error. -/
abbrev Lua (α : Type) := StateT Decoder (Except LuaError) α

def Decoder.initial : Decoder :=
  ⟨false, none, -1, none, none, none, none, none, 0, .one⟩

/-- `reset()`; it does not touch `m_dcs`, `surrogate` and `g_table_nbr`. -/
def Decoder.reset (d : Decoder) : Decoder :=
  { d with mWithUdh := false, mNumber := none, mAlphabet := -1, mDate := none, mTime := none,
           mText := none, mConcat := none }

/-! ### Octets -/

def isxdigit (c : Char) : Bool :=
  (48 ≤ c.toNat && c.toNat ≤ 57) || (97 ≤ c.toNat && c.toNat ≤ 102) ||
    (65 ≤ c.toNat && c.toNat ≤ 70)

/-- One digit in `octet2bin`, which knows no lower-case digits. -/
def digit2bin (c : Char) : Nat := if 57 < c.toNat then c.toNat - 55 else c.toNat - 48

/-- `octet2bin_check`; the negative results are `none`. -/
def octet2binCheck : List Char → Option Nat
  | c₁ :: c₂ :: _ =>
      if isxdigit c₁ && isxdigit c₂ then some (digit2bin c₁ * 16 + digit2bin c₂) else none
  | _ => none

def tonumber16 (s : List Char) : Option Nat :=
  if s = [] then none
  else (s.mapM hexValue?).map fun digits => digits.foldl (fun n digit => n * 16 + digit) 0

def swapPairs : List Char → List Char
  | c₁ :: c₂ :: rest => c₂ :: c₁ :: swapPairs rest
  | _ => []

/-- `swapchars`; `nil` when there is no pair. -/
def swapchars (s : List Char) : Option (List Char) :=
  if s.length < 2 then none else some (swapPairs s)

/-! ### Characters -/

def gTable1 (ch : Nat) : Option Nat :=
  match ch with
  | 0 => some 64
  | 1 => some 163 | 2 => some 36 | 3 => some 165 | 4 => some 232 | 5 => some 233
  | 6 => some 249 | 7 => some 236 | 8 => some 242 | 9 => some 199 | 10 => some 10
  | 11 => some 216 | 12 => some 248 | 13 => some 13 | 14 => some 197 | 15 => some 229
  | 16 => some 0x394 | 17 => some 95 | 18 => some 0x3A6 | 19 => some 0x393 | 20 => some 0x39B
  | 21 => some 0x3A9 | 22 => some 0x3A0 | 23 => some 0x3A8 | 24 => some 0x3A3
  | 25 => some 0x398 | 26 => some 0x39E
  | 28 => some 198 | 29 => some 230 | 30 => some 223 | 31 => some 201
  | 36 => some 164 | 64 => some 161
  | 91 => some 196 | 92 => some 214 | 93 => some 209 | 94 => some 220 | 95 => some 167
  | 96 => some 191
  | 123 => some 228 | 124 => some 246 | 125 => some 241 | 126 => some 252 | 127 => some 224
  | _ => none

def gTable2 (ch : Nat) : Option Nat :=
  match ch with
  | 10 => some 10 | 20 => some 94 | 40 => some 123 | 41 => some 125 | 47 => some 92
  | 60 => some 91 | 61 => some 126 | 62 => some 93 | 64 => some 124 | 101 => some 0x20AC
  | _ => none

def gsm2byte (ch : Nat) : TableNbr → Nat × TableNbr
  | .two => ((gTable2 ch).getD 63, .one)
  | .one => if ch = 27 then (27, .two) else ((gTable1 ch).getD ch, .one)

def replacement : List Char := [Char.ofNat 0xe2, Char.ofNat 0x96, Char.ofNat 0xa1]

/-- `word2utf8(i, txt)`: the text and the value of `surrogate` behind it. -/
def word2utf8 (i surrogate : Nat) (txt : List Char) : List Char × Nat :=
  if 0 < surrogate then
    if 0xDC00 ≤ i ∧ i ≤ 0xDFFF then
      let ii := 0x10000 + (i &&& 0x3FF) + (surrogate &&& 0x3FF) <<< 10
      (txt ++ [Char.ofNat (0xF0 ||| (ii &&& 0x1C0000) >>> 18),
        Char.ofNat (0x80 ||| (ii &&& 0x3F000) >>> 12),
        Char.ofNat (0x80 ||| (ii &&& 0xFC0) >>> 6), Char.ofNat (0x80 ||| (ii &&& 0x3F))], 0)
    else (txt ++ replacement, 0)
  else if 0xD800 ≤ i ∧ i ≤ 0xDBFF then (txt, i)
  else if 0xDC00 ≤ i ∧ i ≤ 0xDFFF then (txt ++ replacement, surrogate)
  else if i < 0x80 then (txt ++ [Char.ofNat i], surrogate)
  else if i < 0x800 then
    (txt ++ [Char.ofNat (0xC0 ||| (i &&& 0x7C0) >>> 6), Char.ofNat (0x80 ||| (i &&& 0x3F))],
      surrogate)
  else if i = 0x2029 then (txt ++ ['\n'], surrogate)
  else
    (txt ++ [Char.ofNat (0xE0 ||| (i &&& 0xF000) >>> 12),
      Char.ofNat (0x80 ||| (i &&& 0xFC0) >>> 6), Char.ofNat (0x80 ||| (i &&& 0x3F))], surrogate)

/-! ### The user data header -/

/-- The loop of `concatinfo`.  Every round takes at least four characters away, so the
    length of `x` bounds the number of rounds. -/
def concatLoop : Nat → List Char → Option (List Char) → Except LuaError (Option (List Char))
  | 0, _, mConcat => .ok mConcat
  | fuel + 1, x, mConcat =>
      if x.length ≤ 9 then .ok mConcat
      else if sub x 1 4 = "0003".toList then
        if sub x 7 10 = "0101".toList then .ok mConcat
        else concatText (sub x 5 6) (sub x 9 10) (sub x 7 8)
      else if sub x 1 4 = "0804".toList then
        if sub x 9 12 = "0101".toList then .ok mConcat
        else concatText (sub x 5 8) (sub x 11 12) (sub x 9 10)
      else
        match tonumber16 (sub x 3 4) with
        | none => .error .arithNil
        | some iel => concatLoop fuel (subFrom x (5 + iel * 2)) mConcat
where
  /-- `Msg# ref,part/total` from three hexadecimal fields. -/
  concatText (ref part total : List Char) : Except LuaError (Option (List Char)) :=
    match tonumber16 ref, tonumber16 part, tonumber16 total with
    | some ref, some part, some total =>
        .ok (some ("Msg# ".toList ++ decimal ref ++ [','] ++ decimal part ++ ['/'] ++
          decimal total))
    | _, _, _ => .error .concatNil

def concatinfo (x : List Char) (mConcat : Option (List Char)) :
    Except LuaError (Option (List Char)) :=
  concatLoop x.length x mConcat

/-- The header lines that `pdu2text` and `pdu2binary` share: `m_concat` is set, and the
    value is `udhsize`. -/
def readUdh (pdu : List Char) : Lua (Option Nat) := do
  let pdu2 := subFrom pdu 3
  match tonumber16 (sub pdu2 1 2) with
  | none => throw .arithNil
  | some udhl =>
      let d ← get
      let mConcat ← concatinfo (sub pdu2 3 ((udhl + 1) * 2)) d.mConcat
      set { d with mConcat := mConcat }
      pure (octet2binCheck pdu2)

/-! ### Septets -/

/-- The octet counter, the octets that are still to be read, and the current octet. -/
structure BitReader where
  remaining : Nat
  octetcounter : Nat
  binary : Nat

/-- `while (byteposition >= octetcounter) and (octetcounter < octets)`; `none` is the
    return of -2. -/
def fetch (pdu : List Char) (byteposition : Nat) : Nat → Nat → Nat → Option BitReader
  | 0, octetcounter, binary => some ⟨0, octetcounter, binary⟩
  | remaining + 1, octetcounter, binary =>
      if octetcounter ≤ byteposition then
        match octet2binCheck (subFrom pdu (octetcounter * 2 + 3)) with
        | none => none
        | some i => fetch pdu byteposition remaining (octetcounter + 1) i
      else some ⟨remaining + 1, octetcounter, binary⟩

def septetLoop (pdu : List Char) : Nat → Nat → Nat → BitReader → Option (Nat × BitReader)
  | 0, _, c, reader => some (c, reader)
  | n + 1, bitposition, c, reader =>
      match fetch pdu (bitposition / 8) reader.remaining reader.octetcounter reader.binary with
      | none => none
      | some reader =>
          let c := if 0 < reader.binary &&& 2 ^ (bitposition % 8) then c ||| 128 else c
          septetLoop pdu n (bitposition + 1) (c / 2 &&& 127) reader

/-- The text under construction, with the two variables its functions use. -/
structure Writer where
  text : List Char
  surrogate : Nat
  table : TableNbr
deriving DecidableEq, Repr

/-- One septet: `gsm2byte`, and `word2utf8` unless it is skipped or an escape. -/
def Writer.put (skipped : Bool) (septet : Nat) (w : Writer) : Writer :=
  let (c, table) := gsm2byte septet w.table
  if !skipped && c ≠ 27 then
    let (text, surrogate) := word2utf8 c w.surrogate w.text
    ⟨text, surrogate, table⟩
  else { w with table := table }

/-- `for charcounter=0,septets-1`; the flag says that no octet was missing. -/
def textLoop (pdu : List Char) (skip : Nat) : Nat → Nat → BitReader → Writer → Bool × Writer
  | 0, _, _, w => (true, w)
  | n + 1, charcounter, reader, w =>
      match septetLoop pdu 7 (charcounter * 7) 0 reader with
      | none => (false, w)
      | some (c, reader) =>
          textLoop pdu skip n (charcounter + 1) reader (w.put (charcounter < skip) c)

/-- The first part of `pdu2text`: the number of septets covered by the header. -/
def skipCharacters (pdu : List Char) (withUdh : Bool) : Lua Nat := do
  if withUdh then
    match ← readUdh pdu with
    | some udhsize => pure (((udhsize + 1) * 8 + 6) / 7)
    | none => pure 0 -- a negative `udhsize` gives a number that skips nothing
  else pure 0

def pdu2text (pdu : List Char) (withUdh : Bool) : Lua Int := do
  modify fun d => { d with mText := some [] }
  match octet2binCheck pdu with
  | none => pure (-1)
  | some septets =>
      let skip ← skipCharacters pdu withUdh
      let d ← get
      let (ok, w) := textLoop pdu skip septets 0 ⟨(septets * 7 + 7) / 8, 0, 0⟩
        ⟨[], d.surrogate, d.gTableNbr⟩
      set { d with mText := some w.text, surrogate := w.surrogate, gTableNbr := w.table }
      pure (if ok then 1 else -2)

/-! ### Octet strings -/

def binaryLoop (pdu : List Char) (skipOctets : Nat) (alphabet : Int) :
    Nat → Nat → Nat → List Char → Nat → Bool × List Char × Nat
  | 0, _, _, text, surrogate => (true, text, surrogate)
  | n + 1, octetcounter, lastI, text, surrogate =>
      match octet2binCheck (subFrom pdu (octetcounter * 2 + 3 + skipOctets * 2)) with
      | none => (false, text, surrogate)
      | some i =>
          if alphabet = 2 then
            if (2 + octetcounter) % 2 = 0 then
              binaryLoop pdu skipOctets alphabet n (octetcounter + 1) i text surrogate
            else
              let (text, surrogate) := word2utf8 (lastI <<< 8 ||| i) surrogate text
              binaryLoop pdu skipOctets alphabet n (octetcounter + 1) lastI text surrogate
          else
            let (text, surrogate) :=
              word2utf8 (if i < 32 ∨ 127 < i then 0x25A1 else i) surrogate text
            binaryLoop pdu skipOctets alphabet n (octetcounter + 1) lastI text surrogate

/-- The first part of `pdu2binary`: the octets of the header with its length octet. -/
def skipOctets (pdu : List Char) (withUdh : Bool) : Lua (Option Nat) := do
  if withUdh then
    match ← readUdh pdu with
    | some udhsize => pure (some (udhsize + 1))
    | none => pure none
  else pure (some 0)

def pdu2binary (pdu : List Char) (withUdh : Bool) : Lua Int := do
  modify fun d => { d with mText := some [] }
  match octet2binCheck pdu with
  | none => pure (-1)
  | some octets =>
      match ← skipOctets pdu withUdh with
      | none => pure (-1)
      | some skip =>
          let d ← get
          let (ok, text, surrogate) :=
            binaryLoop pdu skip d.mAlphabet (octets - skip) 0 0 [] d.surrogate
          set { d with mText := some text, surrogate := surrogate }
          pure (if ok then (octets : Int) - skip else -1)

end Rooter.SmsRead
