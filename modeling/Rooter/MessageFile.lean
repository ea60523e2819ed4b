import Mathlib.Data.List.TakeWhile
import Rooter.Numeral
import Rooter.LuaString

/-!
# The message file between `smsread.lua` and `merge.lua`

`smsread.lua` writes the decoded messages into a text file, one record of lines
for each message: slot, number, line count, the lines of the text, a preview line.
A part of a long message carries its concatenation data as a first text line
`Msg# r,s/t`.  `merge.lua` reads the file back and recovers the part data from
that line by a pattern search.

The pattern is not anchored and the sender of a message chooses its text, so a
text that contains such a line by itself is taken for a part.  `Faithful` says
which messages survive the trip.
-/

namespace Rooter.MessageFile

open List Numeral LuaString

/-! ### Decoded messages -/

/-- Concatenation data as `concatinfo` decodes it: a reference of one or two octets,
    part number and part count of one octet each. -/
structure PartInfo where
  ref : Nat
  seq : Nat
  total : Nat
  ref_lt : ref < 65536
  seq_lt : seq < 256
  total_lt : total < 256
deriving DecidableEq, Repr

/-- One entry of the table `t`.  The read mark, date and time are single lines by
    construction; number and text come from the network. -/
structure Decoded where
  slot : Nat
  read : List Char
  number : List Char
  date : List Char
  time : List Char
  part : Option PartInfo
  text : List Char
  read_safe : LineSafe read
  date_safe : LineSafe date
  time_safe : LineSafe time

def PartInfo.header (p : PartInfo) : List Char :=
  "Msg# ".toList ++ (decimal p.ref ++ ',' :: (decimal p.seq ++ '/' :: decimal p.total))

theorem PartInfo.header_def (p : PartInfo) : p.header =
    "Msg# ".toList ++ (decimal p.ref ++ ',' :: (decimal p.seq ++ '/' :: decimal p.total)) := rfl

/-- The text as it stands in `t`: behind the part header, if there is one. -/
def Decoded.mtxt (m : Decoded) : List Char :=
  match m.part with
  | none => m.text
  | some p => p.header ++ '\n' :: m.text

/-! ### The writer of `smsread.lua` -/

def ocount (x : List Char) : Nat := x.count '\n'

/-- The loop that collects the first characters of a text for the preview, a line
    end counting as a blank. -/
def shortLoop : Nat → List Char → List Char
  | 0, _ => []
  | _, [] => []
  | j + 1, c :: cs =>
      if c = '\n' ∨ c = '\r' then ' ' :: shortLoop j cs
      else if c.toNat < 127 then c :: shortLoop j cs
      else if c.toNat < 0xE0 then c :: (cs.take 1 ++ shortLoop j (cs.drop 1))
      else if c.toNat < 0xF0 then c :: (cs.take 2 ++ shortLoop j (cs.drop 2))
      else c :: (cs.take 3 ++ shortLoop j (cs.drop 3))

def shortText (mtxt : List Char) : List Char :=
  let stxt := shortLoop 20 mtxt
  if mtxt ≠ stxt then stxt ++ "  ...".toList else stxt

def Decoded.shortHead (m : Decoded) : List Char :=
  let mn := (m.number ++ replicate 20 ' ').take 20
  m.read ++ ' ' :: (mn ++ (m.date ++ ' ' :: (m.time ++ "  ".toList)))

def Decoded.short (m : Decoded) : List Char := m.shortHead ++ shortText m.mtxt

def writeRecord (m : Decoded) : List Char :=
  decimal m.slot ++ '\n' :: (m.number ++ '\n' :: (decimal (ocount m.mtxt + 1) ++ '\n' ::
    (m.mtxt ++ '\n' :: (m.short ++ ['\n']))))

/-- The whole file; nothing but the two counters when the modem counts no message. -/
def writeFile (used max : List Char) (messages : List Decoded) : List Char :=
  used ++ '\n' :: (max ++ '\n' ::
    (if decimal? used = some 0 then [] else messages.flatMap writeRecord))

/-! ### The patterns of `merge.lua` -/

/-- A non-empty run of digits and what stands behind it: `(%d+)`. -/
def digits (s : List Char) : Option (List Char × List Char) :=
  let run := s.takeWhile Char.isDigit
  if run = [] then none else some (run, s.dropWhile Char.isDigit)

def expect (c : Char) : List Char → Option (List Char)
  | [] => none
  | d :: rest => if d = c then some rest else none

structure Part where
  msgnum : List Char
  msgord : List Char
  msgmax : List Char
deriving DecidableEq, Repr

/-- `Msg# (%d+),(%d+)/` at the start of a text: the two numbers and the rest. -/
def matchHead (s : List Char) : Option (List Char × List Char × List Char) :=
  if "Msg# ".toList <+: s then do
    let (num, s) ← digits (s.drop 5)
    let s ← expect ',' s
    let (ord, s) ← digits s
    let s ← expect '/' s
    some (num, ord, s)
  else none

/-- `Msg# (%d+),(%d+)/(%d+)` at the start of a text. -/
def matchPartAt (s : List Char) : Option Part := do
  let (num, ord, s) ← matchHead s
  let (max, _) ← digits s
  some ⟨num, ord, max⟩

/-- `lines:match("(Msg# (%d+),(%d+)/(%d+))")`: the leftmost match. -/
def matchPart : List Char → Option Part
  | [] => none
  | c :: cs => (matchPartAt (c :: cs)).or (matchPart cs)

/-- `Msg# %d+,%d+/%d%s*` at the start of a text: what stands behind the match. -/
def matchShortAt (s : List Char) : Option (List Char) := do
  let (_, _, s) ← matchHead s
  match s with
  | d :: rest => if d.isDigit then some (rest.dropWhile isSpace) else none
  | [] => none

/-- `sht:match("((.*)Msg# %d+,%d+/%d%s*(.*))")`: the first `.*` is greedy, so the
    last match counts; the texts before and behind it. -/
def matchShort : List Char → Option (List Char × List Char)
  | [] => none
  | c :: cs =>
      match matchShort cs with
      | some (before, after) => some (c :: before, after)
      | none => (matchShortAt (c :: cs)).map fun after => ([], after)

/-! ### The reader of `merge.lua` -/

/-- One entry of `overall`.  `part` is `none` where the script has `"xxx"`; the field
    `numlines`, which no output depends on, is left out. -/
structure Message where
  slot : List Char
  phone : List Char
  nline : List Char
  part : Option Part
  msg : List Char
  short : List Char
deriving DecidableEq, Repr

/-- Reading a line inside a record.  At the end of the file the script goes on with
    `nil` and stops at its next use. -/
def readField (file : List Char) : Except LuaError (List Char × List Char) :=
  match readLine file with
  | (some line, rest) => .ok (line, rest)
  | (none, _) => .error .indexNil

def moreLines : Nat → List Char → List Char → Except LuaError (List Char × List Char)
  | 0, msg, file => .ok (msg, file)
  | n + 1, msg, file => do
      let (lines, file) ← readField file
      moreLines n (if lines = [] then msg ++ ['\n'] else msg ++ '\n' :: lines) file

/-- The text of a record of `nline` lines: the part data and the text behind it. -/
def readText (nline : Nat) (file : List Char) :
    Except LuaError (Option Part × List Char × List Char) := do
  let (lines, file) ← readField file
  match matchPart lines with
  | none =>
      let (msg, file) ← moreLines (nline + 1 - 2) lines file
      .ok (none, msg, file)
  | some part =>
      let (lines, file) ← readField file
      let (msg, file) ← moreLines (nline - 2) lines file
      .ok (some part, msg, file)

def stripShort (sht : List Char) : List Char :=
  match matchShort sht with
  | some (sht1, sht2) => sht1 ++ sht2
  | none => sht

/-- One record behind its slot line.  A slot that is no numeral stops the script at
    the comparison with `maxslot`. -/
def readRecord (slot file : List Char) : Except LuaError (Message × List Char) := do
  let (phone, file) ← readField file
  let (nline, file) ← readField file
  let some count := decimal? nline | .error .arithNil
  let (part, msg, file) ← readText count file
  let (sht, file) ← readField file
  let some _ := decimal? slot | .error .compareNil
  .ok (⟨slot, phone, nline, part, msg, stripShort sht⟩, file)

/-- The reading loop; every record takes at least one character, so the length of
    the file bounds the number of rounds. -/
def readRecords : Nat → List Char → Except LuaError (List Message)
  | 0, _ => .ok []
  | fuel + 1, file =>
      match readLine file with
      | (none, _) => .ok []
      | (some slot, file) => do
          let (message, file) ← readRecord slot file
          let messages ← readRecords fuel file
          .ok (message :: messages)

def readFile (file : List Char) :
    Except LuaError (Option (List Char) × Option (List Char) × List Message) :=
  match readLine file with
  | (none, _) => .ok (none, none, [])
  | (some maxused, file) => do
      let (maxslots, file) := readLine file
      let messages ← readRecords (file.length + 1) file
      .ok (some maxused, maxslots, messages)

/-! ### What survives the trip -/

def PartInfo.strings (p : PartInfo) : Part := ⟨decimal p.ref, decimal p.seq, decimal p.total⟩

/-- A part header as it may stand in a preview, with the blanks behind it. -/
def IsHeader (s : List Char) : Prop :=
  ∃ num ord : List Char, ∃ d : Char, ∃ blanks : List Char,
    s = "Msg# ".toList ++ (num ++ ',' :: (ord ++ '/' :: d :: blanks)) ∧
    (∀ c ∈ num, c.isDigit = true) ∧ (∀ c ∈ ord, c.isDigit = true) ∧ d.isDigit = true ∧
    ∀ c ∈ blanks, isSpace c = true

/-- `short` is the preview line `sht` with one part header cut out. -/
def CutHeader (sht short : List Char) : Prop :=
  ∃ before header after, sht = before ++ (header ++ after) ∧ short = before ++ after ∧
    IsHeader header ∧ LineSafe header

/-- The record read back is the message written.  The part header stands apart: it is recognised,
    and cut out of text and preview, for the parts of long messages and for nothing else. -/
structure Same (m : Decoded) (r : Message) : Prop where
  slot : r.slot = decimal m.slot
  phone : r.phone = m.number
  msg : r.msg = m.text
  part : r.part = m.part.map PartInfo.strings
  short_single : m.part = none → r.short = m.short
  short_part : m.part ≠ none → CutHeader m.short r.short

/-- No field breaks its line, and a message without concatenation data does not look
    like a part, neither in its first text line nor in its preview. -/
structure Faithful (m : Decoded) : Prop where
  number : LineSafe m.number
  text : ∀ c ∈ m.text, c.toNat ≠ 0
  short : LineSafe m.short
  single : m.part = none → matchPart (linesOf m.text).1 = none ∧ matchShort m.short = none

/-! ### Lines -/

variable {file rest run s text : List Char} {m : Decoded}

theorem readField_of_lineSafe {line : List Char} (hsafe : LineSafe line) (rest : List Char) :
    readField (line ++ '\n' :: rest) = .ok (line, rest) := by
  simp [readField, hsafe]

theorem lineSafe_of_readField {line : List Char} (h : readField file = .ok (line, rest)) :
    LineSafe line := by
  simp only [readField] at h
  split at h
  · next hread =>
    cases h
    exact lineSafe_of_readLine hread
  · cases h

/-- No control character, and nothing but ASCII. -/
def Visible (s : List Char) : Prop := ∀ c ∈ s, 31 < c.toNat ∧ c.toNat < 127

theorem Visible.lineSafe (h : Visible s) : LineSafe s := by
  intro c hc
  have hlow := (h c hc).1
  refine ⟨?_, by omega⟩
  rintro rfl
  exact absurd hlow (by decide)

theorem visible_decimal (n : Nat) : Visible (decimal n) := by
  intro c hc
  have hdigit := (isDigit_iff_toNat c).mp (isDigit_of_mem_decimal hc)
  omega

theorem lineSafe_decimal (n : Nat) : LineSafe (decimal n) := (visible_decimal n).lineSafe

theorem moreLines_lines (ls : List (List Char)) (hsafe : ∀ l ∈ ls, LineSafe l) :
    ∀ msg rest : List Char, moreLines ls.length msg (ls.flatMap (· ++ ['\n']) ++ rest)
      = .ok (msg ++ ls.flatMap ('\n' :: ·), rest) := by
  induction ls with
  | nil => intro msg rest; simp [moreLines]
  | cons l ls ih =>
    intro msg rest
    have hfile : (l :: ls).flatMap (· ++ ['\n']) ++ rest
        = l ++ '\n' :: (ls.flatMap (· ++ ['\n']) ++ rest) := by simp
    have hmsg : (if l = [] then msg ++ ['\n'] else msg ++ '\n' :: l) = msg ++ '\n' :: l := by
      split
      · next hl => simp [hl]
      · rfl
    rw [hfile, length_cons, moreLines, readField_of_lineSafe (hsafe l (by simp)), ok_bind]
    simp only [hmsg]
    rw [ih fun l' hl' => hsafe l' (by simp [hl'])]
    simp

theorem text_layout (text rest : List Char) :
    text ++ '\n' :: rest = (linesOf text).1 ++ '\n' ::
      ((linesOf text).2.flatMap (· ++ ['\n']) ++ rest) := by
  have hshift : ∀ ls : List (List Char),
      ls.flatMap ('\n' :: ·) ++ '\n' :: rest = '\n' :: (ls.flatMap (· ++ ['\n']) ++ rest) := by
    intro ls
    induction ls with
    | nil => rfl
    | cons l ls ih => simp [ih]
  conv_lhs => rw [← linesOf_join text]
  rw [append_assoc, hshift]

theorem moreLines_nulFree (n : Nat) : ∀ {msg file msg' rest : List Char},
    moreLines n msg file = .ok (msg', rest) → (∀ c ∈ msg, c.toNat ≠ 0) →
      ∀ c ∈ msg', c.toNat ≠ 0 := by
  induction n with
  | zero =>
    intro msg file msg' rest h hmsg
    cases h
    exact hmsg
  | succ n ih =>
    intro msg file msg' rest h hmsg
    rw [moreLines, bind_eq_ok] at h
    obtain ⟨⟨line, file'⟩, hread, hmore⟩ := h
    refine ih hmore fun c hc => ?_
    have hline := lineSafe_of_readField hread
    split at hc
    · rcases mem_append.mp hc with hc | hc
      · exact hmsg c hc
      · simp only [mem_singleton] at hc
        subst hc
        decide
    · rcases mem_append.mp hc with hc | hc
      · exact hmsg c hc
      · rcases mem_cons.mp hc with rfl | hc
        · decide
        · exact (hline c hc).2

/-! ### The part header -/

theorem digits_append (hne : run ≠ []) (hrun : ∀ c ∈ run, c.isDigit = true) {d : Char}
    (hd : d.isDigit = false) (rest : List Char) :
    digits (run ++ d :: rest) = some (run, d :: rest) := by
  have htake : (run ++ d :: rest).takeWhile Char.isDigit = run := by
    rw [takeWhile_append_of_pos hrun]
    simp [hd]
  have hdrop : (run ++ d :: rest).dropWhile Char.isDigit = d :: rest := by
    rw [dropWhile_append_of_pos hrun]
    simp [hd]
  simp only [digits, htake, hdrop, if_neg hne]

theorem digits_self (hne : run ≠ []) (hrun : ∀ c ∈ run, c.isDigit = true) :
    digits run = some (run, []) := by
  have htake : run.takeWhile Char.isDigit = run := takeWhile_eq_self_iff.mpr hrun
  have hdrop : run.dropWhile Char.isDigit = [] := dropWhile_eq_nil_iff.mpr hrun
  simp only [digits, htake, hdrop, if_neg hne]

theorem digits_eq_some (h : digits s = some (run, rest)) :
    s = run ++ rest ∧ ∀ c ∈ run, c.isDigit = true := by
  simp only [digits] at h
  split at h
  · cases h
  · cases h
    exact ⟨takeWhile_append_dropWhile.symm, fun c hc => mem_takeWhile_imp hc⟩

theorem expect_eq_some {c : Char} (h : expect c s = some rest) : s = c :: rest := by
  cases s with
  | nil => cases h
  | cons d s =>
    simp only [expect] at h
    split at h
    · next hd => cases h; rw [hd]
    · cases h

theorem matchHead_header (ref seq : Nat) (rest : List Char) :
    matchHead ("Msg# ".toList ++ (decimal ref ++ ',' :: (decimal seq ++ '/' :: rest)))
      = some (decimal ref, decimal seq, rest) := by
  have hdrop : ("Msg# ".toList ++ (decimal ref ++ ',' :: (decimal seq ++ '/' :: rest))).drop 5
      = decimal ref ++ ',' :: (decimal seq ++ '/' :: rest) := rfl
  rw [matchHead, hdrop,
    digits_append (decimal_ne_nil ref) (fun c => isDigit_of_mem_decimal) (by decide)]
  simp only [Option.bind_eq_bind, Option.bind_some, expect, if_true]
  rw [digits_append (decimal_ne_nil seq) (fun c => isDigit_of_mem_decimal) (by decide)]
  simp

theorem matchHead_eq_some {num ord : List Char} (h : matchHead s = some (num, ord, rest)) :
    s = "Msg# ".toList ++ (num ++ ',' :: (ord ++ '/' :: rest)) ∧
      (∀ c ∈ num, c.isDigit = true) ∧ ∀ c ∈ ord, c.isDigit = true := by
  rw [matchHead] at h
  split at h
  · next hpre =>
    obtain ⟨t, rfl⟩ := hpre
    have hdrop : ("Msg# ".toList ++ t).drop 5 = t := rfl
    simp only [hdrop, Option.bind_eq_bind, Option.bind_eq_some_iff, Option.some.injEq,
      Prod.mk.injEq] at h
    obtain ⟨⟨n, s1⟩, h1, s2, h2, ⟨o, s3⟩, h3, s4, h4, rfl, rfl, rfl⟩ := h
    obtain ⟨h1, hn⟩ := digits_eq_some h1
    obtain ⟨h3, ho⟩ := digits_eq_some h3
    have h2 : s1 = ',' :: s2 := expect_eq_some h2
    have h4 : s3 = '/' :: s4 := expect_eq_some h4
    rw [h1, h2, h3, h4]
    exact ⟨rfl, hn, ho⟩
  · cases h

theorem matchPart_header (p : PartInfo) : matchPart p.header = some p.strings := by
  have hdigits : digits (decimal p.total) = some (decimal p.total, []) :=
    digits_self (decimal_ne_nil p.total) fun c => isDigit_of_mem_decimal
  have hat : matchPartAt p.header = some p.strings := by
    have hhead : matchHead p.header = some (decimal p.ref, decimal p.seq, decimal p.total) :=
      matchHead_header _ _ _
    exact Option.bind_eq_some_iff.mpr ⟨_, hhead, Option.bind_eq_some_iff.mpr ⟨_, hdigits, rfl⟩⟩
  obtain ⟨rest, hcons⟩ : ∃ rest, p.header = 'M' :: rest := ⟨_, rfl⟩
  rw [hcons] at hat ⊢
  rw [matchPart, hat]
  rfl

theorem isHeader_of_matchShortAt {after : List Char} (h : matchShortAt s = some after) :
    ∃ header, s = header ++ after ∧ IsHeader header := by
  simp only [matchShortAt, Option.bind_eq_bind, Option.bind_eq_some_iff] at h
  obtain ⟨⟨num, ord, rest⟩, hhead, hrest⟩ := h
  obtain ⟨hs, hnum, hord⟩ := matchHead_eq_some hhead
  match rest, hrest with
  | d :: rest, hrest =>
    simp only at hrest
    split at hrest
    · next hd =>
      cases hrest
      refine ⟨"Msg# ".toList ++ (num ++ ',' :: (ord ++ '/' :: d :: rest.takeWhile isSpace)), ?_,
        num, ord, d, rest.takeWhile isSpace, rfl, hnum, hord, hd,
        fun c hc => mem_takeWhile_imp hc⟩
      rw [hs]
      simp only [append_assoc, cons_append, takeWhile_append_dropWhile]
    · cases hrest

theorem isHeader_of_matchShort : ∀ {before after : List Char},
    matchShort s = some (before, after) →
      ∃ header, s = before ++ (header ++ after) ∧ IsHeader header := by
  induction s with
  | nil => intro before after h; cases h
  | cons c cs ih =>
    intro before after h
    simp only [matchShort] at h
    split at h
    · next b a hcs =>
      cases h
      obtain ⟨header, heq, hh⟩ := ih hcs
      exact ⟨header, by rw [heq]; rfl, hh⟩
    · simp only [Option.map_eq_some_iff] at h
      obtain ⟨a, hat, rfl, rfl⟩ := h
      obtain ⟨header, heq, hh⟩ := isHeader_of_matchShortAt hat
      exact ⟨header, heq, hh⟩

theorem matchShort_append {t : List Char} (ht : (matchShort t).isSome = true) :
    (matchShort (s ++ t)).isSome = true := by
  induction s with
  | nil => exact ht
  | cons c cs ih =>
    obtain ⟨⟨b, a⟩, h⟩ := Option.isSome_iff_exists.mp ih
    simp [matchShort, h]

theorem IsHeader.length_pos (h : IsHeader s) : 0 < s.length := by
  obtain ⟨num, ord, d, blanks, rfl, -⟩ := h
  simp

theorem visible_header (p : PartInfo) : Visible p.header := by
  have hlit : ∀ c ∈ "Msg# ".toList, 31 < c.toNat ∧ c.toNat < 127 := by simp
  intro c hc
  simp only [PartInfo.header_def, mem_append, mem_cons] at hc
  rcases hc with hc | hc | rfl | hc | rfl | hc
  · exact hlit c hc
  · exact visible_decimal _ c hc
  · decide
  · exact visible_decimal _ c hc
  · decide
  · exact visible_decimal _ c hc

theorem length_header (p : PartInfo) : p.header.length ≤ 18 := by
  have hdecimal : ∀ {n k : Nat}, 0 < k → n < 10 ^ k → (decimal n).length ≤ k := fun hk =>
    (Nat.length_toDigits_le_iff (by decide) hk).mpr
  have hr := hdecimal (by decide) (show p.ref < 10 ^ 5 by have := p.ref_lt; omega)
  have hs := hdecimal (by decide) (show p.seq < 10 ^ 3 by have := p.seq_lt; omega)
  have ht := hdecimal (by decide) (show p.total < 10 ^ 3 by have := p.total_lt; omega)
  simp [PartInfo.header_def]
  omega

theorem shortLoop_visible (hs : Visible s) (rest : List Char) :
    ∀ j, s.length ≤ j → shortLoop j (s ++ rest) = s ++ shortLoop (j - s.length) rest := by
  induction s with
  | nil => intro j _; simp
  | cons c cs ih =>
    intro j hj
    obtain ⟨hlow, hlt⟩ := hs c (by simp)
    have hends : c ≠ '\n' ∧ c ≠ '\r' := by
      constructor <;> rintro rfl <;> exact absurd hlow (by decide)
    match j, hj with
    | j + 1, hj =>
      simp only [length_cons, Nat.add_le_add_iff_right] at hj
      simp [shortLoop, hends, hlt, ih (fun d hd => hs d (by simp [hd])) j hj]

theorem matchShort_short {p : PartInfo} (hp : m.part = some p) :
    (matchShort m.short).isSome = true := by
  have hlen := length_header p
  obtain ⟨j, hj⟩ : ∃ j, 20 - p.header.length = j + 1 := ⟨19 - p.header.length, by omega⟩
  have hloop : shortLoop 20 m.mtxt = p.header ++ ' ' :: shortLoop j m.text := by
    have hmtxt : m.mtxt = p.header ++ '\n' :: m.text := by simp [Decoded.mtxt, hp]
    rw [hmtxt, shortLoop_visible (visible_header p) _ 20 (by omega), hj]
    simp [shortLoop]
  obtain ⟨tail, htail⟩ : ∃ tail, shortText m.mtxt = p.header ++ ' ' :: tail := by
    simp only [shortText, hloop]
    split
    · exact ⟨shortLoop j m.text ++ "  ...".toList, by simp⟩
    · exact ⟨shortLoop j m.text, rfl⟩
  rw [Decoded.short, htail]
  apply matchShort_append
  obtain ⟨d, ds, hd⟩ : ∃ d ds, decimal p.total = d :: ds :=
    exists_cons_of_ne_nil (decimal_ne_nil p.total)
  have hdig : d.isDigit = true := isDigit_of_mem_decimal (by rw [hd]; simp)
  have hat : (matchShortAt (p.header ++ ' ' :: tail)).isSome = true := by
    have hassoc : p.header ++ ' ' :: tail = "Msg# ".toList ++ (decimal p.ref ++ ',' ::
        (decimal p.seq ++ '/' :: (decimal p.total ++ ' ' :: tail))) := by
      simp [PartInfo.header_def]
    rw [hassoc, matchShortAt, matchHead_header, hd]
    simp [hdig]
  have hcons : p.header ++ ' ' :: tail = 'M' :: (p.header ++ ' ' :: tail).drop 1 := rfl
  rw [hcons, matchShort]
  split
  · rfl
  · rw [← hcons]
    simpa using hat

/-! ### One record -/

theorem moreLines_linesOf (hnul : ∀ c ∈ text, c.toNat ≠ 0) (rest : List Char) :
    moreLines (text.count '\n') (linesOf text).1 ((linesOf text).2.flatMap (· ++ ['\n']) ++ rest) =
      .ok (text, rest) := by
  have hmore := moreLines_lines (linesOf text).2
    (fun l hl => lineSafe_linesOf hnul l (by simp [hl])) (linesOf text).1 rest
  rwa [linesOf_join, length_linesOf] at hmore

theorem readText_single (hnul : ∀ c ∈ text, c.toNat ≠ 0) (hpart : matchPart (linesOf text).1 = none)
    (rest : List Char) :
    readText (ocount text + 1) (text ++ '\n' :: rest) = .ok (none, text, rest) := by
  rw [readText, text_layout, readField_of_lineSafe (lineSafe_linesOf hnul _ (by simp)), ok_bind]
  simp only [hpart]
  rw [show ocount text + 1 + 1 - 2 = text.count '\n' from by simp [ocount],
    moreLines_linesOf hnul, ok_bind]

theorem readText_part (hnul : ∀ c ∈ text, c.toNat ≠ 0) (p : PartInfo) (rest : List Char) :
    readText (ocount (p.header ++ '\n' :: text) + 1) (p.header ++ '\n' :: text ++ '\n' :: rest)
      = .ok (some p.strings, text, rest) := by
  have hcount : ocount (p.header ++ '\n' :: text) + 1 - 2 = text.count '\n' := by
    have hzero : p.header.count '\n' = 0 :=
      count_eq_zero.mpr fun hmem => ((visible_header p).lineSafe _ hmem).1 rfl
    simp [ocount, hzero]
  rw [append_assoc, cons_append, readText, readField_of_lineSafe (visible_header p).lineSafe,
    ok_bind]
  simp only [matchPart_header]
  rw [text_layout, readField_of_lineSafe (lineSafe_linesOf hnul _ (by simp))]
  simp only [hcount, moreLines_linesOf hnul, ok_bind]

/-- The record of a message behind its slot line, with the rest of the file. -/
def recordTail (m : Decoded) (rest : List Char) : List Char :=
  m.number ++ '\n' :: (decimal (ocount m.mtxt + 1) ++ '\n' ::
    (m.mtxt ++ '\n' :: (m.short ++ '\n' :: rest)))

variable {sht : List Char}

theorem writeRecord_append (m : Decoded) (rest : List Char) :
    writeRecord m ++ rest = decimal m.slot ++ '\n' :: recordTail m rest := by
  simp [writeRecord, recordTail]

theorem readRecord_tail (hnumber : LineSafe m.number) (rest : List Char) :
    readRecord (decimal m.slot) (recordTail m rest) = (do
      let (part, msg, file) ←
        readText (ocount m.mtxt + 1) (m.mtxt ++ '\n' :: (m.short ++ '\n' :: rest))
      let (sht, file) ← readField file
      .ok (⟨decimal m.slot, m.number, decimal (ocount m.mtxt + 1), part, msg, stripShort sht⟩,
        file)) := by
  rw [readRecord, recordTail, readField_of_lineSafe hnumber]
  simp only [readField_of_lineSafe (lineSafe_decimal _), ok_bind, decimal?_decimal]

theorem readText_faithful (hnul : ∀ c ∈ m.text, c.toNat ≠ 0)
    (hpart : m.part = none → matchPart (linesOf m.text).1 = none) (rest : List Char) :
    readText (ocount m.mtxt + 1) (m.mtxt ++ '\n' :: rest)
      = .ok (m.part.map PartInfo.strings, m.text, rest) := by
  cases hp : m.part with
  | none =>
    have hmtxt : m.mtxt = m.text := by simp [Decoded.mtxt, hp]
    rw [hmtxt]
    exact readText_single hnul (hpart hp) rest
  | some p =>
    have hmtxt : m.mtxt = p.header ++ '\n' :: m.text := by simp [Decoded.mtxt, hp]
    rw [hmtxt]
    exact readText_part hnul p rest

theorem cutHeader_stripShort (hsafe : LineSafe sht) (hmatch : (matchShort sht).isSome = true) :
    CutHeader sht (stripShort sht) := by
  obtain ⟨⟨before, after⟩, h⟩ := Option.isSome_iff_exists.mp hmatch
  obtain ⟨header, heq, hheader⟩ := isHeader_of_matchShort h
  refine ⟨before, header, after, heq, by simp [stripShort, h], hheader, fun c hc => ?_⟩
  exact hsafe c (by rw [heq]; simp [hc])

/-- **A faithful record** is read back as the message, and reading goes on behind it. -/
theorem readRecord_of_faithful (hm : Faithful m) (rest : List Char) :
    ∃ r, readRecord (decimal m.slot) (recordTail m rest) = .ok (r, rest) ∧ Same m r := by
  rw [readRecord_tail hm.number, readText_faithful hm.text fun hp => (hm.single hp).1]
  simp only [readField_of_lineSafe hm.short, ok_bind]
  refine ⟨_, rfl, rfl, rfl, rfl, rfl, fun hp => ?_, fun hp => ?_⟩
  · simp [stripShort, (hm.single hp).2]
  · obtain ⟨p, hp⟩ := Option.ne_none_iff_exists'.mp hp
    exact cutHeader_stripShort hm.short (matchShort_short hp)

theorem readText_nulFree {n : Nat} {part : Option Part} {msg : List Char}
    (h : readText n file = .ok (part, msg, rest)) : ∀ c ∈ msg, c.toNat ≠ 0 := by
  rw [readText, bind_eq_ok] at h
  obtain ⟨⟨line, file1⟩, hread, h⟩ := h
  simp only at h
  split at h
  · obtain ⟨⟨msg', file2⟩, hmore, h⟩ := bind_eq_ok.mp h
    cases h
    exact moreLines_nulFree _ hmore fun c hc => (lineSafe_of_readField hread c hc).2
  · obtain ⟨⟨line2, file2⟩, hread2, h⟩ := bind_eq_ok.mp h
    obtain ⟨⟨msg', file3⟩, hmore, h⟩ := bind_eq_ok.mp h
    cases h
    exact moreLines_nulFree _ hmore fun c hc => (lineSafe_of_readField hread2 c hc).2

theorem lineSafe_stripShort (hsafe : LineSafe sht) : LineSafe (stripShort sht) := by
  simp only [stripShort]
  split
  · next b a h =>
    obtain ⟨header, heq, -⟩ := isHeader_of_matchShort h
    intro c hc
    refine hsafe c ?_
    rw [heq]
    rcases mem_append.mp hc with h | h <;> simp [h]
  · exact hsafe

theorem readText_matchPart (hnul : ∀ c ∈ text, c.toNat ≠ 0) {n : Nat} {part : Option Part}
    {msg : List Char} (h : readText n (text ++ '\n' :: rest) = .ok (part, msg, file)) :
    part = matchPart (linesOf text).1 := by
  rw [readText, text_layout, readField_of_lineSafe (lineSafe_linesOf hnul _ (by simp)),
    ok_bind] at h
  simp only at h
  split at h
  · next hp =>
    obtain ⟨_, _, h⟩ := bind_eq_ok.mp h
    cases h
    exact hp.symm
  · next q hp =>
    simp only [bind_eq_ok] at h
    obtain ⟨_, _, _, _, h⟩ := h
    cases h
    exact hp.symm

theorem matchShort_eq_none_of_stripShort (h : stripShort sht = sht) : matchShort sht = none := by
  cases hm : matchShort sht with
  | none => rfl
  | some found =>
    obtain ⟨before, after⟩ := found
    obtain ⟨header, heq, hheader⟩ := isHeader_of_matchShort hm
    have hpos := hheader.length_pos
    simp only [stripShort, hm] at h
    have hlen := congrArg length (h.trans heq)
    simp only [length_append] at hlen
    omega

theorem lineSafe_of_same {r : Message} {rest' : List Char}
    (hread : readRecord (decimal m.slot) (recordTail m rest) = .ok (r, rest')) (hsame : Same m r) :
    LineSafe m.number ∧ (∀ c ∈ m.text, c.toNat ≠ 0) ∧ LineSafe m.short := by
  rw [readRecord, bind_eq_ok] at hread
  obtain ⟨⟨phone, file1⟩, hphone, hread⟩ := hread
  obtain ⟨⟨nline, file2⟩, hnline, hread⟩ := bind_eq_ok.mp hread
  simp only at hread
  split at hread
  rotate_left
  · cases hread
  obtain ⟨⟨part, msg, file3⟩, htext, hread⟩ := bind_eq_ok.mp hread
  obtain ⟨⟨sht, file4⟩, hsht, hread⟩ := bind_eq_ok.mp hread
  simp only [decimal?_decimal] at hread
  cases hread
  have hshort : LineSafe (stripShort sht) := lineSafe_stripShort (lineSafe_of_readField hsht)
  refine ⟨hsame.phone ▸ lineSafe_of_readField hphone, hsame.msg ▸ readText_nulFree htext, ?_⟩
  cases hp : m.part with
  | none => exact hsame.short_single hp ▸ hshort
  | some p =>
    obtain ⟨before, header, after, heq, hcut, -, hheader⟩ :=
      hsame.short_part (by rw [hp]; simp)
    have hcut' : LineSafe (before ++ after) := hcut ▸ hshort
    rw [heq]
    intro c hc
    simp only [mem_append] at hc
    rcases hc with hc | hc | hc
    · exact hcut' c (by simp [hc])
    · exact hheader c hc
    · exact hcut' c (by simp [hc])

/-- **Only a faithful record** is read back as the message. -/
theorem faithful_of_same {r : Message} {rest' : List Char}
    (hread : readRecord (decimal m.slot) (recordTail m rest) = .ok (r, rest')) (hsame : Same m r) :
    Faithful m := by
  obtain ⟨hnumber, hnul, hpreview⟩ := lineSafe_of_same hread hsame
  refine ⟨hnumber, hnul, hpreview, fun hp => ?_⟩
  have hmtxt : m.mtxt = m.text := by simp [Decoded.mtxt, hp]
  rw [readRecord_tail hnumber] at hread
  -- with the number in order, the first text line decides about the part data
  have hpart : matchPart (linesOf m.text).1 = none := by
    rw [hmtxt, bind_eq_ok] at hread
    obtain ⟨⟨part, msg, file⟩, htext, hread⟩ := hread
    obtain ⟨⟨sht, file'⟩, -, hread⟩ := bind_eq_ok.mp hread
    cases hread
    rw [← readText_matchPart hnul htext]
    simpa [hp] using hsame.part
  -- then the preview is read where it was written
  rw [readText_faithful hnul fun _ => hpart] at hread
  simp only [readField_of_lineSafe hpreview, ok_bind] at hread
  cases hread
  exact ⟨hpart, matchShort_eq_none_of_stripShort (hsame.short_single hp)⟩

/-! ### The whole file -/

theorem readRecords_cons {fuel : Nat} :
    readRecords (fuel + 1) (writeRecord m ++ rest) = (do
      let (message, file) ← readRecord (decimal m.slot) (recordTail m rest)
      let messages ← readRecords fuel file
      .ok (message :: messages)) := by
  rw [writeRecord_append, readRecords, readLine_of_lineSafe (lineSafe_decimal _)]

/-- The records of faithful messages are read back one by one; a record that is not
    faithful is misread. -/
theorem readRecords_iff (messages : List Decoded) :
    ∀ fuel, messages.length < fuel →
      ((∃ rs, readRecords fuel (messages.flatMap writeRecord) = .ok rs ∧
        List.Forall₂ Same messages rs) ↔ ∀ m ∈ messages, Faithful m) := by
  induction messages with
  | nil =>
    intro fuel hfuel
    obtain ⟨fuel, rfl⟩ := Nat.exists_eq_add_one.mpr hfuel
    simp [readRecords, readLine, scanLine]
  | cons m messages ih =>
    intro fuel hfuel
    obtain ⟨fuel, rfl⟩ := Nat.exists_eq_add_one.mpr (Nat.zero_lt_of_lt hfuel)
    have hrest := ih fuel (by simpa using hfuel)
    rw [flatMap_cons, readRecords_cons]
    constructor
    · rintro ⟨rs, hread, hsame⟩
      obtain ⟨⟨r, file⟩, hrec, hread⟩ := bind_eq_ok.mp hread
      obtain ⟨rs', hrecs, hread⟩ := bind_eq_ok.mp hread
      cases hread
      obtain ⟨hm, hms⟩ := List.forall₂_cons.mp hsame
      have hfaith := faithful_of_same hrec hm
      obtain ⟨r', hrec', -⟩ := readRecord_of_faithful hfaith (messages.flatMap writeRecord)
      rw [hrec] at hrec'
      cases hrec'
      intro m' hm'
      rcases mem_cons.mp hm' with rfl | hm'
      · exact hfaith
      · exact hrest.mp ⟨rs', hrecs, hms⟩ m' hm'
    · intro hall
      obtain ⟨r, hrec, hm⟩ := readRecord_of_faithful (hall m (by simp))
        (messages.flatMap writeRecord)
      obtain ⟨rs, hrecs, hms⟩ := hrest.mpr fun m' hm' => hall m' (by simp [hm'])
      exact ⟨r :: rs, by rw [hrec]; simp only [hrecs, ok_bind], .cons hm hms⟩

theorem length_le_flatMap (messages : List Decoded) :
    messages.length ≤ (messages.flatMap writeRecord).length := by
  induction messages with
  | nil => simp
  | cons m messages ih =>
    have hpos : 0 < (writeRecord m).length := by
      simp only [writeRecord, length_append, length_cons]
      omega
    rw [flatMap_cons, length_append, length_cons]
    omega

/-- The file written for the messages is read back as exactly these messages. -/
def ReadsBack (used max : List Char) (messages : List Decoded) : Prop :=
  ∃ rs, readFile (writeFile used max messages) = .ok (some used, some max, rs) ∧
    List.Forall₂ Same messages rs

/-- **When the message file is unambiguous.**  For every list of decoded messages, the
    file is read back as the same list exactly when every message is faithful. -/
theorem readsBack_iff (used max : List Char) (messages : List Decoded) (hused : LineSafe used)
    (hmax : LineSafe max) (hcount : decimal? used ≠ some 0) :
    ReadsBack used max messages ↔ ∀ m ∈ messages, Faithful m := by
  have hlen := length_le_flatMap messages
  rw [← readRecords_iff messages ((messages.flatMap writeRecord).length + 1) (by omega)]
  simp only [ReadsBack, writeFile, if_neg hcount, readFile, readLine_of_lineSafe hused,
    readLine_of_lineSafe hmax, bind_eq_ok]
  constructor
  · rintro ⟨rs, ⟨rs', hread, heq⟩, hsame⟩
    cases heq
    exact ⟨rs, hread, hsame⟩
  · rintro ⟨rs, hread, hsame⟩
    exact ⟨rs, ⟨rs, hread, rfl⟩, hsame⟩

def received (slot : Nat) (part : Option PartInfo) (text : List Char) : Decoded where
  slot := slot
  read := "  ".toList
  number := "+491".toList
  date := "24-05-01".toList
  time := "10:20:30 +2h".toList
  part := part
  text := text
  read_safe := by decide
  date_safe := by decide
  time_safe := by decide

/-- A message of two lines, and another one in two parts. -/
def inbox : List Decoded :=
  [received 0 none "Hello\nworld".toList,
    received 1 (some ⟨9, 1, 2, by decide, by decide, by decide⟩) "one ".toList,
    received 2 (some ⟨9, 2, 2, by decide, by decide, by decide⟩) "two".toList]

theorem faithful_inbox : ∀ m ∈ inbox, Faithful m := by
  have hall : ∀ m ∈ inbox, LineSafe m.number ∧ (m.text.all fun c => c.toNat ≠ 0) = true ∧
      LineSafe m.short ∧
      (m.part = none → matchPart (linesOf m.text).1 = none ∧ matchShort m.short = none) := by
    decide +kernel
  intro m hm
  obtain ⟨hnumber, htext, hshort, hsingle⟩ := hall m hm
  exact ⟨hnumber, fun c hc => of_decide_eq_true (all_eq_true.mp htext c hc), hshort, hsingle⟩

theorem readsBack_iff_two_lines : ReadsBack "3".toList "20".toList inbox :=
  (readsBack_iff "3".toList "20".toList _ (by decide) (by decide) (by decide)).mpr faithful_inbox

/-- A text that consists of a part header alone: the reader takes the preview for the
    text and runs into the end of the file. -/
theorem not_readsBack_forged :
    ¬ ReadsBack "1".toList "20".toList [received 4 none "Msg# 1,2/3".toList] := by
  have herror : readFile (writeFile "1".toList "20".toList [received 4 none "Msg# 1,2/3".toList])
      = .error .indexNil := by decide +kernel
  rintro ⟨rs, hread, -⟩
  rw [herror] at hread
  cases hread

end Rooter.MessageFile
