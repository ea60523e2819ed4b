import Rooter.SmsRead

/-!
# From PDU lines to records: `parse`, `readpdu` and the reading loop

`parse` takes a PDU apart: service centre, first octet, sender, time stamp, user
data.  The reading loop of `smsread.lua` walks over the answer of the modem, a
header line and a PDU line for each message, and treats unread messages with
certain texts as commands.
-/

namespace Rooter.SmsRead

open Numeral LuaString

/-! ### The service centre -/

def maxSmsc : Nat := 64
def maxNumber : Nat := 64

def isdigit (c : Char) : Bool := 48 ≤ c.toNat && c.toNat ≤ 57

/-- `parseSMSC()`: what stands behind the address; `none` is the return of -1. -/
def parseSMSC (pdu : List Char) : Except LuaError (Option (List Char)) :=
  match octet2binCheck pdu with
  | none => .ok none
  | some length =>
      if length = 0 then .ok (some (subFrom pdu 3))
      else if length < 2 ∨ maxSmsc < length then .ok none
      else
        let length := length * 2 - 2
        if pdu.length < length + 4 then .ok none
        else
          let ptr := subFrom pdu 3
          match octet2binCheck ptr with
          | none => .ok none
          | some addrType =>
              if addrType < 0x80 then .ok none
              else
                let ptr := subFrom ptr 3
                match swapchars (ptr.take length) with
                | none => .error .indexNil
                | some smsc =>
                    let smsc :=
                      if 0x90 ≤ addrType ∧ smsc[length - 1]? = some 'F' then smsc.take (length - 1)
                      else smsc
                    if smsc.all (if addrType < 0x90 then isxdigit else isdigit) then
                      .ok (some (subFrom ptr (length + 1)))
                    else .ok none

/-! ### Addresses and time stamps -/

/-- `string.format("%x", n)`, filled up to two digits. -/
def hexOctet (n : Nat) : List Char :=
  let htmp := Nat.toDigits 16 n
  if htmp.length < 2 then '0' :: htmp else htmp

def upperOctet (n : Nat) : List Char := (hexOctet n).map Char.toUpper

def blankLines (text : List Char) : List Char := text.map fun c => if c = '\n' then ' ' else c

/-- The address behind its length and type octets, as `parseDeliver` and
    `parseStatusReport` read it: they differ in the form of the length octet that is put
    before an alphanumeric address, in what they do to the name, and in the `+`. -/
def readAddress (htmp : Nat → List Char) (clean : List Char → List Char) (plus : Bool)
    (length addrType : Nat) (ptr : List Char) : Lua (Option (List Char)) := do
  let padding := length % 2
  if addrType &&& 112 = 80 then
    if ptr.length < length + padding then pure none
    else
      let res ← pdu2text (htmp (length * 4 / 7) ++ ptr) false
      if res < 0 then pure none
      else
        modify fun d => { d with mNumber := d.mText.map clean, mText := none }
        pure (some (subFrom ptr (length + padding + 1)))
  else
    match swapchars (sub ptr 1 (length + padding + 1)) with
    | none => throw .indexNil
    | some number =>
        let number :=
          if number[length + padding - 1]? = some 'F' then number.take (length + padding - 1)
          else number
        let number := if plus ∧ addrType = 145 then '+' :: number else number
        modify fun d => { d with mNumber := some number }
        pure (some (subFrom ptr (length + padding + 1)))

def swapThree (separator : Char) (ptr : List Char) : List Char :=
  sub ptr 2 2 ++ sub ptr 1 1 ++ separator :: (sub ptr 4 4 ++ sub ptr 3 3 ++ separator ::
    (sub ptr 6 6 ++ sub ptr 5 5))

/-- The test of six digits.  `isdigit` returns 0 or 1 and `not 0` is false in Lua, so no
    digit is refused; but `isdigit(nil)` stops the script. -/
def checkDigits (ptr : List Char) : Except LuaError Unit :=
  if ptr.length < 6 then .error .compareNil else .ok ()

/-- A quarter of `n`, printed. -/
def quarter (n : Nat) : List Char :=
  decimal (n / 4) ++
    match n % 4 with
    | 0 => []
    | 1 => ".25".toList
    | 2 => ".5".toList
    | _ => ".75".toList

/-- The time zone in hours; the two digits are joined as decimal numerals. -/
def timezone (ptr : List Char) : Except LuaError (List Char) :=
  match tonumber16 (sub ptr 8 8) with
  | none => .error .compareNil
  | some high =>
      match tonumber16 (sub ptr 7 7) with
      | none => .error .concatNil
      | some low =>
          let sign := if 7 < high then '-' else '+'
          let high := if 7 < high then high - 8 else high
          let zone := sign :: quarter (high * (if low < 10 then 10 else 100) + low)
          .ok (if zone.length = 2 then ' ' :: zone else zone)

/-! ### `parse` -/

/-- The sender address of `parseDeliver`: what stands behind it. -/
def senderAddress (length : Nat) (ptr : List Char) : Lua (Option (List Char)) :=
  if length = 0 then pure (some (subFrom ptr 5))
  else
    let ptr := subFrom ptr 3
    match octet2binCheck ptr with
    | none => pure none
    | some addrType =>
        if addrType < 0x80 then pure none
        else
          readAddress upperOctet blankLines true length addrType (subFrom ptr 3)

/-- `parseDeliver()` behind the sender address. -/
def deliverBody (ptr : List Char) : Lua Int := do
  if ptr.length < 20 then pure 0
  else
    match octet2binCheck ptr with
    | none => pure 0
    | some _ =>
        let ptr := subFrom ptr 3
        match octet2binCheck ptr with
        | none => pure 0
        | some byteBuf =>
            let alphabet : Int := ((byteBuf &&& 0x0C) / 4 : Nat)
            modify fun d => { d with mAlphabet := alphabet }
            if alphabet = 3 then pure 0
            else
              modify fun d => { d with mAlphabet := if alphabet = 0 then -1 else alphabet,
                                       mDcs := some byteBuf }
              let ptr := subFrom ptr 3
              checkDigits ptr
              modify fun d => { d with mDate := some (swapThree '-' ptr) }
              let ptr := subFrom ptr 7
              checkDigits ptr
              let zone ← timezone ptr
              modify fun d => { d with mTime := some (swapThree ':' ptr ++ ' ' :: zone ++ ['h']) }
              let ptr := subFrom ptr 7
              match octet2binCheck ptr with
              | none => pure 0
              | some _ =>
                  let ptr := subFrom ptr 3
                  let d ← get
                  if d.mAlphabet ≤ 0 then pdu2text ptr d.mWithUdh else pdu2binary ptr d.mWithUdh

def parseDeliver (ptr : List Char) : Lua Int := do
  if ptr.length < 4 then pure 0
  else
    match octet2binCheck ptr with
    | none => pure 0
    | some length =>
        if maxNumber < length then pure 0
        else
          match ← senderAddress length ptr with
          | none => pure 0
          | some ptr => deliverBody ptr

/-- `parseStatusReport()` behind the address. -/
def reportBody (messageid : Nat) (ptr : List Char) : Lua Int := do
  if ptr.length < 14 then pure 0
  else
    checkDigits ptr
    modify fun d => { d with mDate := some (swapThree '-' ptr) }
    let ptr := subFrom ptr 7
    checkDigits ptr
    modify fun d => { d with mTime := some (swapThree ':' ptr) }
    let ptr := subFrom ptr 7
    match octet2binCheck ptr with
    | none => pure 0
    | some _ =>
        let ptr := subFrom ptr 3
        checkDigits ptr
        let dDate := swapThree '-' ptr
        let ptr := subFrom ptr 7
        checkDigits ptr
        let dTime := swapThree ':' ptr
        let ptr := subFrom ptr 7
        match octet2binCheck ptr with
        | none => pure 0
        | some _ =>
            match octet2binCheck (subFrom ptr 3) with
            | none => pure 0
            | some status =>
                modify fun d => { d with
                  mText := some ("Discharge Timestamp: ".toList ++ dDate ++ ' ' :: dTime ++
                    "  Message ID: ".toList ++ decimal messageid ++
                    "  Status: ".toList ++ decimal status) }
                pure 1

def parseStatusReport (ptr : List Char) : Lua Int := do
  if ptr.length < 6 then pure 0
  else
    match octet2binCheck ptr with
    | none => pure 0
    | some messageid =>
        let ptr := subFrom ptr 3
        match octet2binCheck ptr with
        | none => pure 0
        | some length =>
            if length < 1 ∨ maxNumber < length then pure 0
            else
              let ptr := subFrom ptr 3
              match octet2binCheck ptr with
              | none => pure 0
              | some addrType =>
                  if addrType < 0x80 then pure 0
                  else
                    match ← readAddress hexOctet id false length addrType (subFrom ptr 3) with
                    | none => pure 0
                    | some ptr => reportBody messageid ptr

/-- `parse()` from the first octet on: the header flag and the message type. -/
def parseTpdu (tmp : Nat) (ptr : List Char) : Lua Int := do
  modify fun d => if 0 < tmp &&& 0x40 then { d with mWithUdh := true } else d
  if tmp &&& 3 = 0 then
    let result ← parseDeliver ptr
    pure (if result < 1 then 0 else 1)
  else if tmp &&& 3 = 2 then parseStatusReport ptr
  else pure 0

def parse (pdu : List Char) : Lua Int := do
  match ← (parseSMSC pdu : Except LuaError _) with
  | none => pure 0
  | some ptr =>
      match octet2binCheck ptr with
      | none => pure 0
      | some tmp => parseTpdu tmp (subFrom ptr 3)

/-! ### Records -/

/-- A plain search for a text: what stands behind its first occurrence. -/
def findText (pattern : List Char) : List Char → Option (List Char)
  | [] => if pattern = [] then some [] else none
  | c :: cs =>
      if pattern.isPrefixOf (c :: cs) then some ((c :: cs).drop pattern.length)
      else findText pattern cs

def senders2delete : List (List Char) := []
def deletebinaries : Bool := false

/-- The character that separates the numbers in `delsend`. -/
def gschar : Char := Char.ofNat 29

def delsend : List Char := gschar :: [gschar].intercalate senders2delete ++ [gschar]

structure Entry where
  index : List Char
  read : List Char
  number : Option (List Char)
  date : Option (List Char)
  time : Option (List Char)
  text : Option (List Char)
deriving DecidableEq, Repr

inductive Command where
  | stampTime
  | addSlot (index : List Char)
  | rebootModem
  | restartZerotier
  | pwrToggle
  | smsReply (number : List Char)

/-- What the reading loop works on.  `t` holds the records behind the two counters, so
    `tptr` is three plus six times its length. -/
structure Reading where
  usedMsg : List Char
  maxMsg : List Char
  t : List Entry
  delslots : List Char
  commands : List Command
  decoder : Decoder

def Reading.initial : Reading := ⟨"0".toList, "0".toList, [], [], [], .initial⟩

def Reading.tptr (r : Reading) : Nat := 3 + 6 * r.t.length

def Reading.delete (r : Reading) (index : List Char) : Reading :=
  { r with delslots := r.delslots ++ index ++ [' '] }

section Delete

variable (c : Prop) [Decidable c] (r : Reading) (index : List Char)

@[simp] theorem decoder_ite_delete :
    (if c then r.delete index else r).decoder = r.decoder := by
  split <;> rfl

@[simp] theorem t_ite_delete : (if c then r.delete index else r).t = r.t := by
  split <;> rfl

end Delete

/-- The part of `readpdu` behind an accepting `parse`. -/
def append (index read : List Char) (r : Reading) : Except LuaError Reading :=
  match r.decoder.mNumber with
  | none => .error .concatNil
  | some number =>
      let listed := (findText (gschar :: number ++ [gschar]) delsend).isSome
      let r :=
        if listed || (r.decoder.mDcs = some 245 && deletebinaries) then r.delete index else r
      match r.decoder.mConcat, r.decoder.mText with
      | some _, none => .error .concatNil
      | concat, text =>
          let text :=
            match concat with
            | none => text
            | some concat => text.map fun text => concat ++ '\n' :: text
          let entry : Entry := ⟨index, read, some number, r.decoder.mDate, r.decoder.mTime, text⟩
          .ok { r with t := r.t ++ [entry], decoder := { r.decoder with mText := text } }

/-- `readpdu(pdu)`; `m_index` and `m_read` are arguments. -/
def readpdu (index read pdu : List Char) (r : Reading) : Except LuaError Reading := do
  let (flag, decoder) ← parse pdu r.decoder.reset
  let r := { r with decoder := decoder }
  if 0 < flag then append index read r else pure r

/-! ### The reading loop -/

/-- What the loop asks the system for: the slots listed in `smsslots`, the PIN of
    `uci -q get modem.general.pin`, whether `/etc/init.d/zerotier` exists, and which
    strings `tonumber` takes for numerals. -/
structure Env where
  slottab : List Char → Bool
  gpspin : Option (List Char)
  zerotier : Bool
  isNumeral : List Char → Bool

def readMark (env : Env) (index mR : List Char) : List Char :=
  if mR = "0".toList then (word2utf8 0x2691 0 (word2utf8 0x2691 0 []).1).1
  else if env.slottab index then (word2utf8 0x2691 0 [' ']).1
  else (word2utf8 0x2713 0 [' ']).1

def Reading.exec (r : Reading) (command : Command) : Reading :=
  { r with commands := r.commands ++ [command] }

/-- `elseif m_text:sub(1, 3) == "GPS"` -/
def gpsRequest (env : Env) (index text : List Char) (r : Reading) : Except LuaError Reading :=
  let reply : Reading :=
    match r.decoder.mNumber with
    | none => r
    | some number => if env.isNumeral number then (r.exec (.smsReply number)).delete index else r
  if text = "GPS".toList ∧ env.gpspin = none then .ok reply
  else
    match env.gpspin with
    | none => .error .concatNil
    | some pin => .ok (if text = "GPS ".toList ++ pin then reply else r)

def unreadCommand (env : Env) (index : List Char) (r : Reading) : Except LuaError Reading :=
  match r.decoder.mText with
  | none => .error .indexNil
  | some text =>
      if text = "::reboot!!".toList then .ok ((r.exec .rebootModem).delete index)
      else if text = "::restartzt!!".toList then
        .ok ((if env.zerotier then r.exec .restartZerotier else r).delete index)
      else if text = "::pwrtoggle!!".toList then .ok ((r.exec .pwrToggle).delete index)
      else if text.take 3 = "GPS".toList then gpsRequest env index text r
      else .ok r

def announce (env : Env) (index mR : List Char) (r : Reading) : Reading :=
  let r := { r with decoder := { r.decoder with surrogate := 0 } }
  if mR = "0".toList then
    let r := r.exec .stampTime
    if env.slottab index then r else r.exec (.addSlot index)
  else r

def readMessage (env : Env) (index mR pdu : List Char) (r : Reading) : Except LuaError Reading := do
  let r ← readpdu index (readMark env index mR) pdu (announce env index mR r)
  if mR = "0".toList then unreadCommand env index r else pure r

def trim (s : List Char) : List Char :=
  ((s.dropWhile isSpace).reverse.dropWhile isSpace).reverse

def commaField (s : List Char) : Option (List Char × List Char) :=
  match s.dropWhile (· ≠ ',') with
  | [] => none
  | _ :: rest => some (trim (s.takeWhile (· ≠ ',')), rest)

def readCounters (behind : List Char) (r : Reading) : Reading :=
  match commaField behind with
  | none => r
  | some (used, rest) =>
      match commaField rest with
      | none => { r with usedMsg := used }
      | some (max, _) => { r with usedMsg := used, maxMsg := max }

/-- The lines that a round of the loop takes, from the line it looks at for `+CMGL:`;
    `none` is the `break`. -/
def headerRound (env : Env) (line : List Char) (rest : List (List Char)) (r : Reading) :
    Except LuaError (Option (List (List Char)) × Reading) :=
  match findText "+CMGL:".toList line with
  | none => .ok (some rest, r)
  | some behind =>
      match commaField behind with
      | none => .error .arithNil -- `ce` is `nil`
      | some (index, behind) =>
          match commaField behind with
          | none => .ok (none, r)
          | some (mR, _) =>
              match rest with
              | [] => .ok (none, announce env index mR r)
              | pdu :: rest => do
                  let r ← readMessage env index mR pdu r
                  .ok (some rest, r)

/-- `repeat ... until 1==0` over the lines of `smsresult`; every round takes a line. -/
def readLoop (env : Env) : Nat → List (List Char) → Reading → Except LuaError Reading
  | 0, _, r => .ok r
  | _, [], r => .ok r
  | fuel + 1, line :: rest, r => do
      let (next, r) ←
        match findText "+CPMS:".toList line with
        | none => headerRound env line rest r
        | some behind =>
            let r := readCounters behind r
            match rest with
            | [] => .ok (none, r)
            | line :: rest => headerRound env line rest r
      match next with
      | none => .ok r
      | some rest => readLoop env fuel rest r

def readResult (env : Env) (lines : List (List Char)) : Except LuaError Reading :=
  readLoop env lines.length lines .initial

end Rooter.SmsRead
