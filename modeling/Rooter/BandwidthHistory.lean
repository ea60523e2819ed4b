import Mathlib.Data.List.Infix
import Rooter.Calendar
import Rooter.LuaNumber
import Rooter.LuaString
import Rooter.BubbleSort

/-!
# The history of daily amounts: `createdata.lua`

The script puts the amounts of a day (`daily.js`) into the history of the last days
(`monthly.data`).  The history has a line for each day, the newest day first, below the number
of these lines and the three amounts of all days together.  Dates are text; they are sorted as
strings, behind the string `first`.

On files that hold a history, a run is `refresh` (`createdata_text`): the newest 29 of the dates
are kept, the one of `daily.js` among them, each with the line that was read last for it, and the
amounts of the day are added to the ones printed before.
-/

namespace Rooter.BandwidthHistory

open List LuaString LuaNumber Numeral Calendar Loop
open BubbleSort

abbrev Text := List Char

/-! ### The program -/

def ltrim (s : Text) : Text := s.dropWhile isSpace

def calcTotal (total : ℚ) : Text :=
  if total < 1000000 then ltrim (fixed (double (total / 1000)) ++ " K".toList)
  else if total < 1000000000 then ltrim (fixed (double (total / 1000000)) ++ " MB".toList)
  else ltrim (fixed (double (total / 1000000000)) ++ " GB".toList)

/-- `ConBytes`; the index of the first blank is `nil` if there is none. -/
def conBytes (line : Text) : Except LuaError ℚ :=
  match line.dropWhile (· ≠ ' ') with
  | [] => .error .arithNil
  | _ :: rest =>
      match tonumber (line.takeWhile (· ≠ ' ')) with
      | none => .error .arithNil
      | some val =>
          if "K".toList <:+: rest then .ok (double (val * 1000))
          else if "MB".toList <:+: rest then .ok (double (val * 1000000))
          else .ok (double (val * 1000000000))

/-- `a < b` for strings, in the C locale. -/
def strLess : Text → Text → Bool
  | _, [] => false
  | [], _ :: _ => true
  | a :: s, b :: t => a.toNat < b.toNat || (a.toNat = b.toNat && strLess s t)

/-- The rounds that `bubblesort` is given. -/
def bound (a : List Text) : Nat := a.length * a.length + 1

/-- `bubblesort` of a table that starts at 0; `none` is a sort that has not ended. -/
def bubblesort (a : List Text) : Option (List Text) := loop (passStep strLess) (bound a) a

structure Totals where
  dwn : ℚ
  up : ℚ
  total : ℚ

/-- The argument of `calc`, which compares it. -/
def amount (line : Option Text) : Except LuaError ℚ :=
  match line.bind tonumber with
  | some val => .ok val
  | none => .error .compareNil

def readDaily (file : Text) : Except LuaError (Totals × Text) := do
  let (total, file) := readLine file
  let (dwn, file) := readLine file
  let (up, file) := readLine file
  let (lin, _) := readLine file
  let kdwn ← amount dwn
  let kup ← amount up
  let ktotal ← amount total
  match lin with
  | some lin => .ok (⟨kdwn, kup, ktotal⟩, lin)
  | none => .error .concatNil

def Totals.columns (k : Totals) : Text :=
  calcTotal k.dwn ++ '|' :: calcTotal k.up ++ '|' :: calcTotal k.total

def readBytes (file : Text) : Except LuaError (ℚ × Text) :=
  match readLine file with
  | (some line, file) => (conBytes line).map fun val => (val, file)
  | (none, _) => .error .indexNil

/-- The first lines of `monthly.data`; the number in the first one is only added to. -/
def readTotals (file : Text) : Except LuaError (Totals × Text) := do
  let (ksize, file) := readLine file
  let some _ := ksize.bind tonumber | .error .arithNil
  let (kdwn1, file) ← readBytes file
  let (kup1, file) ← readBytes file
  let (ktotal1, file) ← readBytes file
  .ok (⟨kdwn1, kup1, ktotal1⟩, file)

/-- The other lines with their dates; the length of the file bounds the number of rounds. -/
def readRows : Nat → Text → Except LuaError (List (Text × Text))
  | 0, _ => .ok []
  | fuel + 1, file =>
      match readLine file with
      | (none, _) => .ok []
      | (some line, file) =>
          if '|' ∈ line then do
            let rows ← readRows fuel file
            .ok ((line.takeWhile (· ≠ '|'), line) :: rows)
          else .error .arithNil

/-- `monline[lin]` after these assignments, the last of which counts; `nil` cannot be written. -/
def monline (assigned : List (Text × Text)) (lin : Text) : Except LuaError Text :=
  match assigned.reverse.lookup lin with
  | some dataline => .ok dataline
  | none => .error .badArgument

def unlines (lines : List Text) : Text := lines.flatMap (· ++ ['\n'])

/-- The new `monthly.data`, with the lines for `monlist[1]`, …, `monlist[k]`. -/
def writeData (monlist : List Text) (assigned : List (Text × Text)) (k : Nat) (sum : Totals) :
    Except LuaError Text := do
  let k := (if 30 < k then 30 else k) - 1
  let lines ← ((monlist.drop 1).take k).mapM (monline assigned)
  .ok (unlines ([decimal k, calcTotal sum.dwn, calcTotal sum.up, calcTotal sum.total] ++ lines))

/-- `createdata.lua` with a `daily.js`; `monthly.data` need not exist.  The result is what is
    written, `none` if the sort does not end. -/
def createdata (daily : Text) (monthly : Option Text) : Except LuaError (Option Text) := do
  let (day, lin) ← readDaily daily
  let dataline := lin ++ '|' :: day.columns
  match monthly with
  | none => (writeData ["first".toList, lin] [(lin, dataline)] 2 day).map some
  | some file => do
      let (old, file) ← readTotals file
      let rows ← readRows file.length file
      match bubblesort ("first".toList :: lin :: rows.map Prod.fst) with
      | none => .ok none
      | some monlist =>
          (writeData monlist ((lin, dataline) :: rows) (rows.length + 2)
            ⟨double (old.dwn + day.dwn), double (old.up + day.up),
              double (old.total + day.total)⟩).map some

/-! ### Dates -/

def digits : Nat → Nat → Text
  | 0, _ => []
  | width + 1, n => Nat.digitChar (n / 10 ^ width) :: digits width (n % 10 ^ width)

structure Day where
  date : Date
  year_lt : date.year < 10000

/-- A date as `bwmon.sh` writes it, in the formats `%Y`, `%m` and `%d`. -/
def Day.text (d : Day) : Text :=
  digits 4 d.date.year ++ '-' :: (digits 2 d.date.month ++ '-' :: digits 2 d.date.day)

theorem number_injective : Function.Injective fun d : Day => d.date.number := by
  rintro ⟨⟨y, m, d, hm, hm', hd, hd'⟩, hy⟩ ⟨⟨y', m', d', hn, hn', he, he'⟩, hy'⟩ heq
  have hlt := (Date.mk y m d hm hm' hd hd').day_lt
  have hlt' := (Date.mk y' m' d' hn hn' he he').day_lt
  simp only [Date.number, Date.monthIndex] at heq hlt hlt'
  obtain ⟨rfl, rfl, rfl⟩ : y = y' ∧ m = m' ∧ d = d' := by omega
  rfl

instance : LinearOrder Day := LinearOrder.lift' (fun d => d.date.number) number_injective

variable {c : Char}

theorem Day.lt_iff {a b : Day} : a < b ↔ a.date.number < b.date.number := Iff.rfl

theorem toNat_digitChar {n : Nat} (h : n < 10) : (Nat.digitChar n).toNat = n + 48 := by
  revert n
  decide

theorem div_pow_lt {width n : Nat} (h : n < 10 ^ (width + 1)) : n / 10 ^ width < 10 := by
  rw [Nat.div_lt_iff_lt_mul (Nat.pow_pos (by decide)), Nat.mul_comm]
  exact h

theorem strLess_digits_append (width : Nat) : ∀ {a b : Nat}, a < 10 ^ width → b < 10 ^ width →
    ∀ s t, strLess (digits width a ++ s) (digits width b ++ t) =
      (decide (a < b) || (decide (a = b) && strLess s t)) := by
  induction width with
  | zero =>
    intro a b ha hb s t
    obtain rfl : a = 0 := by omega
    obtain rfl : b = 0 := by omega
    simp [digits]
  | succ width ih =>
    intro a b ha hb s t
    have hpos : 0 < 10 ^ width := Nat.pow_pos (by decide)
    have hrest := ih (Nat.mod_lt a hpos) (Nat.mod_lt b hpos) s t
    have hsplit := Nat.div_add_mod a (10 ^ width)
    have hsplit' := Nat.div_add_mod b (10 ^ width)
    simp only [digits, cons_append, strLess, hrest, toNat_digitChar (div_pow_lt ha),
      toNat_digitChar (div_pow_lt hb)]
    rcases Nat.lt_trichotomy (a / 10 ^ width) (b / 10 ^ width) with h | h | h
    · have hlt : a < b := Nat.lt_of_div_lt_div h
      simp [h, hlt]
    · have hlt : a % 10 ^ width < b % 10 ^ width ↔ a < b := by
        rw [h] at hsplit
        omega
      have heq : a % 10 ^ width = b % 10 ^ width ↔ a = b := by
        rw [h] at hsplit
        omega
      simp [h, hlt, heq]
    · have hlt : b < a := Nat.lt_of_div_lt_div h
      simp [h.not_gt, h.ne', hlt.not_gt, hlt.ne']

theorem strLess_dash (s t : Text) : strLess ('-' :: s) ('-' :: t) = strLess s t := by
  simp [strLess]

theorem strLess_text (a b : Day) : strLess a.text b.text = decide (a < b) := by
  obtain ⟨a, ha⟩ := a
  obtain ⟨b, hb⟩ := b
  have hday (d : Date) : d.day < 10 ^ 2 := Nat.lt_of_lt_of_le d.day_lt (by decide)
  have hmonth (d : Date) : d.month < 10 ^ 2 := Nat.lt_of_le_of_lt d.month_le (by decide)
  have hend := strLess_digits_append 2 (hday a) (hday b) [] []
  simp only [append_nil] at hend
  rw [Day.text, Day.text, strLess_digits_append 4 ha hb, strLess_dash,
    strLess_digits_append 2 (hmonth a) (hmonth b), strLess_dash, hend]
  have hle := a.month_le
  have hle' := b.month_le
  have hpos := a.month_pos
  have hpos' := b.month_pos
  have hlt := a.day_lt
  have hlt' := b.day_lt
  rw [Bool.eq_iff_iff]
  simp only [Day.lt_iff, Date.number, Date.monthIndex, strLess, Bool.and_false, Bool.or_false,
    Bool.or_eq_true, Bool.and_eq_true, decide_eq_true_eq]
  omega

theorem strLess_self (s : Text) : strLess s s = false := by
  induction s with
  | nil => rfl
  | cons c s ih => simp [strLess, ih]

theorem text_injective : Function.Injective Day.text := by
  intro a b heq
  have hself := strLess_self a.text
  refine le_antisymm (not_lt.mp fun h => ?_) (not_lt.mp fun h => ?_)
  · have hless := strLess_text b a
    rw [← heq, hself] at hless
    simp [h] at hless
  · have hless := strLess_text a b
    rw [← heq, hself] at hless
    simp [h] at hless

theorem strLess_first (d : Day) : strLess "first".toList d.text = false := by
  have hdigit : (Nat.digitChar (d.date.year / 10 ^ 3)).toNat < 58 := by
    have hlt : d.date.year / 10 ^ 3 < 10 := div_pow_lt d.year_lt
    rw [toNat_digitChar hlt]
    omega
  obtain ⟨c, rest, htext, hc⟩ : ∃ c rest, d.text = c :: rest ∧ c.toNat < 58 :=
    ⟨_, _, rfl, hdigit⟩
  have hfirst : "first".toList = ['f', 'i', 'r', 's', 't'] := rfl
  have hf : 'f'.toNat = 102 := rfl
  simp only [htext, hfirst, strLess, Bool.or_eq_false_iff, Bool.and_eq_false_iff,
    decide_eq_false_iff_not]
  omega

/-- **The sort.**  Dates behind `first` are sorted from the newest to the oldest, and `first`
    stays where it is. -/
theorem loop_texts {rounds : Nat} {days : List Day} (h : days.length * days.length < rounds) :
    loop (passStep strLess) rounds ("first".toList :: days.map Day.text) =
      some ("first".toList :: (days.insertionSort (· ≥ ·)).map Day.text) := by
  have hfirst : ∀ a ∈ days.map Day.text, strLess "first".toList a = false := by
    intro a ha
    obtain ⟨d, -, rfl⟩ := mem_map.mp ha
    exact strLess_first d
  have hinv : inversions days < rounds := Nat.lt_of_le_of_lt (inversions_le days) h
  rw [loop_passStep_cons rounds _ hfirst, loop_passStep_map strLess_text, loop_passStep _ _ hinv]
  rfl

theorem bubblesort_texts (days : List Day) :
    bubblesort ("first".toList :: days.map Day.text) =
      some ("first".toList :: (days.insertionSort (· ≥ ·)).map Day.text) := by
  refine loop_texts ?_
  rw [bound, length_cons, length_map]
  exact Nat.lt_succ_of_le (Nat.mul_le_mul (Nat.le_succ _) (Nat.le_succ _))

/-! ### Files that hold a history -/

theorem lineSafe_of_le {s : Text} (h : ∀ c ∈ s, 32 ≤ c.toNat) : LineSafe s := by
  intro c hc
  have hle := h c hc
  constructor
  · rintro rfl
    exact absurd hle (by decide)
  · omega

theorem le_of_isDigit (h : c.isDigit = true) : 32 ≤ c.toNat := by
  have := (isDigit_iff_toNat c).mp h
  omega

theorem le_of_mem_integer {z : Int} (hc : c ∈ integer z) : 32 ≤ c.toNat := by
  rw [integer] at hc
  split_ifs at hc
  · rcases mem_cons.mp hc with rfl | hc
    · decide
    · exact le_of_isDigit (isDigit_of_mem_decimal hc)
  · exact le_of_isDigit (isDigit_of_mem_decimal hc)

theorem mem_digits {width : Nat} : ∀ {n : Nat}, n < 10 ^ width → ∀ c ∈ digits width n,
    c.isDigit = true := by
  induction width with
  | zero => exact fun _ c hc => absurd hc not_mem_nil
  | succ width ih =>
    intro n hn c hc
    rcases mem_cons.mp hc with rfl | hc
    · exact isDigit_digitChar (div_pow_lt hn)
    · exact ih (Nat.mod_lt n (Nat.pow_pos (by decide))) c hc

theorem mem_text {d : Day} (hc : c ∈ d.text) : c.isDigit = true ∨ c = '-' := by
  have hday : d.date.day < 10 ^ 2 := Nat.lt_of_lt_of_le d.date.day_lt (by decide)
  have hmonth : d.date.month < 10 ^ 2 := Nat.lt_of_le_of_lt d.date.month_le (by decide)
  simp only [Day.text, mem_append, mem_cons] at hc
  rcases hc with hc | rfl | hc | rfl | hc
  · exact .inl (mem_digits d.year_lt c hc)
  · exact .inr rfl
  · exact .inl (mem_digits hmonth c hc)
  · exact .inr rfl
  · exact .inl (mem_digits hday c hc)

theorem lineSafe_text (d : Day) : LineSafe d.text := by
  refine lineSafe_of_le fun c hc => ?_
  rcases mem_text hc with h | rfl
  · exact le_of_isDigit h
  · decide

theorem calcTotal_eq (x : ℚ) : ∃ q unit, calcTotal x = fixed q ++ ' ' :: unit ∧
    (unit = "K".toList ∨ unit = "MB".toList ∨ unit = "GB".toList) := by
  have htrim : ∀ q s, ltrim (fixed q ++ s) = fixed q ++ s := by
    intro q s
    have hne : fixed q ≠ [] := by simp [fixed]
    obtain ⟨c, cs, hcs⟩ := exists_cons_of_ne_nil hne
    have hspace : isSpace c = false := by
      rcases mem_fixed (hcs ▸ mem_cons_self) with h | rfl | rfl
      · have hle := (isDigit_iff_toNat c).mp h
        have hblank : c ≠ ' ' := by
          rintro rfl
          exact absurd hle.1 (by decide)
        have hhigh : ¬ c.toNat ≤ 13 := by omega
        simp [isSpace, hblank, hhigh]
      · decide
      · decide
    rw [hcs, ltrim, cons_append, dropWhile_cons_of_neg (by simp [hspace])]
  unfold calcTotal
  split_ifs
  · exact ⟨_, "K".toList, htrim _ _, .inl rfl⟩
  · exact ⟨_, "MB".toList, htrim _ _, .inr (.inl rfl)⟩
  · exact ⟨_, "GB".toList, htrim _ _, .inr (.inr rfl)⟩

theorem le_of_mem_calcTotal {x : ℚ} (hc : c ∈ calcTotal x) : 32 ≤ c.toNat := by
  obtain ⟨q, unit, heq, hunit⟩ := calcTotal_eq x
  rw [heq, mem_append, mem_cons] at hc
  rcases hc with hc | rfl | hc
  · rcases mem_fixed hc with h | rfl | rfl
    · exact le_of_isDigit h
    · decide
    · decide
  · decide
  · have hall : unit.all (fun c => decide (32 ≤ c.toNat)) = true := by
      rcases hunit with rfl | rfl | rfl <;> decide
    exact of_decide_eq_true (all_eq_true.mp hall c hc)

theorem exists_conBytes_calcTotal (x : ℚ) : ∃ bytes, conBytes (calcTotal x) = .ok bytes := by
  obtain ⟨q, unit, heq, -⟩ := calcTotal_eq x
  obtain ⟨val, hval⟩ := exists_tonumber_fixed q
  have hblank : ∀ c ∈ fixed q, decide (c ≠ ' ') = true := by
    intro c hc
    rcases mem_fixed hc with h | rfl | rfl
    · refine decide_eq_true ?_
      rintro rfl
      exact absurd h (by decide)
    · decide
    · decide
  have hdrop : (fixed q ++ ' ' :: unit).dropWhile (· ≠ ' ') = ' ' :: unit := by
    rw [dropWhile_append_of_pos hblank, dropWhile_cons_of_neg (by simp)]
  have htake : (fixed q ++ ' ' :: unit).takeWhile (· ≠ ' ') = fixed q := by
    rw [takeWhile_append_of_pos hblank, takeWhile_cons_of_neg (by simp), append_nil]
  rw [heq, conBytes, hdrop, htake]
  simp only [hval]
  split_ifs
  · exact ⟨_, rfl⟩
  · exact ⟨_, rfl⟩
  · exact ⟨_, rfl⟩

@[ext]
structure Amount where
  line : Text
  safe : LineSafe line
  readable : ∃ bytes, conBytes line = .ok bytes

def Amount.bytes (a : Amount) : ℚ :=
  match conBytes a.line with
  | .ok bytes => bytes
  | .error _ => 0

theorem conBytes_line (a : Amount) : conBytes a.line = .ok a.bytes := by
  obtain ⟨bytes, h⟩ := a.readable
  rw [Amount.bytes, h]

def printed (x : ℚ) : Amount where
  line := calcTotal x
  safe := lineSafe_of_le fun _ hc => le_of_mem_calcTotal hc
  readable := exists_conBytes_calcTotal x

@[ext]
structure Entry where
  date : Day
  columns : Text
  safe : LineSafe columns

def Entry.line (e : Entry) : Text := e.date.text ++ '|' :: e.columns

@[ext]
structure Monthly where
  count : Nat
  dwn : Amount
  up : Amount
  total : Amount
  entries : List Entry

def Monthly.dates (m : Monthly) : List Day := m.entries.map Entry.date

def Monthly.text (m : Monthly) : Text :=
  unlines ([decimal m.count, m.dwn.line, m.up.line, m.total.line] ++ m.entries.map Entry.line)

structure Daily where
  dwn : Int
  up : Int
  total : Int
  date : Day

def Daily.text (d : Daily) : Text :=
  unlines [integer d.total, integer d.dwn, integer d.up, d.date.text]

def Daily.totals (d : Daily) : Totals := ⟨double d.dwn, double d.up, double d.total⟩

def Daily.entry (d : Daily) : Entry where
  date := d.date
  columns := d.totals.columns
  safe := by
    refine lineSafe_of_le fun c hc => ?_
    simp only [Totals.columns, append_assoc, cons_append, mem_append, mem_cons] at hc
    rcases hc with hc | rfl | hc | rfl | hc
    · exact le_of_mem_calcTotal hc
    · decide
    · exact le_of_mem_calcTotal hc
    · decide
    · exact le_of_mem_calcTotal hc

def entryOf (entries : List Entry) (day : Day) : Option Entry :=
  entries.reverse.find? fun e => decide (e.date = day)

def refresh (d : Daily) : Option Monthly → Monthly
  | none => ⟨1, printed d.totals.dwn, printed d.totals.up, printed d.totals.total, [d.entry]⟩
  | some m =>
      let kept := (largest 29 (d.date :: m.dates)).filterMap (entryOf (d.entry :: m.entries))
      ⟨kept.length, printed (double (m.dwn.bytes + d.totals.dwn)),
        printed (double (m.up.bytes + d.totals.up)),
        printed (double (m.total.bytes + d.totals.total)), kept⟩

/-! ### A run -/

theorem unlines_cons (line : Text) (lines : List Text) :
    unlines (line :: lines) = line ++ '\n' :: unlines lines := by
  simp [unlines]

theorem readLine_unlines {line : Text} (h : LineSafe line) (lines : List Text) :
    readLine (unlines (line :: lines)) = (some line, unlines lines) := by
  rw [unlines_cons, readLine_of_lineSafe h]

theorem lineSafe_integer (z : Int) : LineSafe (integer z) :=
  lineSafe_of_le fun _ hc => le_of_mem_integer hc

theorem amount_integer (z : Int) : amount (some (integer z)) = .ok (double z) := by
  simp [amount, tonumber_integer]

theorem readDaily_text (d : Daily) : readDaily d.text = .ok (d.totals, d.date.text) := by
  simp only [readDaily, Daily.text, readLine_unlines (lineSafe_integer _),
    readLine_unlines (lineSafe_text _), amount_integer]
  rfl

theorem readBytes_unlines (a : Amount) (lines : List Text) :
    readBytes (unlines (a.line :: lines)) = .ok (a.bytes, unlines lines) := by
  simp only [readBytes, readLine_unlines a.safe, conBytes_line]
  rfl

theorem readTotals_text (m : Monthly) : readTotals m.text =
    .ok (⟨m.dwn.bytes, m.up.bytes, m.total.bytes⟩, unlines (m.entries.map Entry.line)) := by
  have hsafe : LineSafe (decimal m.count) :=
    lineSafe_of_le fun _ hc => le_of_isDigit (isDigit_of_mem_decimal hc)
  simp only [readTotals, Monthly.text, cons_append, nil_append,
    readLine_unlines hsafe, Option.bind_some, tonumber_decimal, readBytes_unlines, ok_bind]

theorem bar_notMem_text (d : Day) : ∀ c ∈ d.text, decide (c ≠ '|') = true := by
  intro c hc
  rcases mem_text hc with h | rfl
  · refine decide_eq_true ?_
    rintro rfl
    exact absurd h (by decide)
  · decide

theorem takeWhile_line (e : Entry) : e.line.takeWhile (· ≠ '|') = e.date.text := by
  rw [Entry.line, takeWhile_append_of_pos (bar_notMem_text e.date),
    takeWhile_cons_of_neg (by simp), append_nil]

theorem lineSafe_line (e : Entry) : LineSafe e.line := by
  refine (lineSafe_text e.date).append fun c hc => ?_
  rcases mem_cons.mp hc with rfl | hc
  · decide
  · exact e.safe c hc

def Entry.row (e : Entry) : Text × Text := (e.date.text, e.line)

variable {entries : List Entry}

theorem readRows_lines (entries : List Entry) : ∀ fuel, entries.length ≤ fuel →
    readRows fuel (unlines (entries.map Entry.line)) = .ok (entries.map Entry.row) := by
  induction entries with
  | nil =>
    intro fuel _
    cases fuel <;> rfl
  | cons e entries ih =>
    intro fuel hfuel
    cases fuel with
    | zero => cases hfuel
    | succ fuel =>
      have hbar : '|' ∈ e.line := by simp [Entry.line]
      simp only [map_cons, readRows, readLine_unlines (lineSafe_line e), if_pos hbar,
        ih fuel (Nat.le_of_succ_le_succ hfuel), takeWhile_line]
      rfl

theorem length_le_unlines (lines : List Text) : lines.length ≤ (unlines lines).length := by
  induction lines with
  | nil => exact Nat.zero_le _
  | cons line lines ih =>
    rw [unlines_cons, length_append, length_cons, length_cons]
    omega

theorem monline_rows (entries : List Entry) (day : Day) :
    monline (entries.map Entry.row) day.text =
      match entryOf entries day with
      | some e => .ok e.line
      | none => .error .badArgument := by
  have hlookup : ∀ l : List Entry, (l.map Entry.row).lookup day.text =
      (l.find? fun e => decide (e.date = day)).map Entry.line := by
    intro l
    induction l with
    | nil => rfl
    | cons e l ih =>
      by_cases h : e.date = day
      · subst h
        simp [Entry.row]
      · have hne : (day.text == e.date.text) = false :=
          beq_eq_false_iff_ne.mpr fun heq => h (text_injective heq).symm
        simp [Entry.row, lookup_cons, hne, h, ← ih]
  rw [monline, ← map_reverse, hlookup, entryOf]
  cases entries.reverse.find? fun e => decide (e.date = day) <;> rfl

theorem exists_entryOf {day : Day} (h : day ∈ entries.map Entry.date) :
    ∃ e, entryOf entries day = some e ∧ e ∈ entries ∧ e.date = day := by
  obtain ⟨e, he, rfl⟩ := mem_map.mp h
  obtain ⟨e', he'⟩ : ∃ e', entryOf entries e.date = some e' := by
    refine Option.isSome_iff_exists.mp (find?_isSome.mpr ⟨e, ?_, by simp⟩)
    exact mem_reverse.mpr he
  have hdate := find?_some he'
  exact ⟨e', he', mem_reverse.mp (mem_of_find?_eq_some he'), of_decide_eq_true hdate⟩

theorem mapM_monline (entries : List Entry) (days : List Day) :
    (∀ day ∈ days, day ∈ entries.map Entry.date) →
    (days.map Day.text).mapM (monline (entries.map Entry.row)) =
      .ok ((days.filterMap (entryOf entries)).map Entry.line) := by
  induction days with
  | nil => exact fun _ => rfl
  | cons day days ih =>
    intro h
    obtain ⟨e, he, -⟩ := exists_entryOf (h day mem_cons_self)
    rw [map_cons, mapM_cons, monline_rows, he]
    simp only [ih fun x hx => h x (mem_cons_of_mem _ hx),
      filterMap_cons_some he]
    rfl

theorem map_date_filterMap (days : List Day) :
    (∀ day ∈ days, day ∈ entries.map Entry.date) →
    (days.filterMap (entryOf entries)).map Entry.date = days := by
  induction days with
  | nil => exact fun _ => rfl
  | cons day days ih =>
    intro h
    obtain ⟨e, he, -, hdate⟩ := exists_entryOf (h day mem_cons_self)
    rw [filterMap_cons_some he, map_cons, hdate,
      ih fun x hx => h x (mem_cons_of_mem _ hx)]

theorem writeData_texts {days : List Day} (h : ∀ day ∈ days, day ∈ entries.map Entry.date)
    (sum : Totals) :
    writeData ("first".toList :: days.map Day.text) (entries.map Entry.row) (days.length + 1) sum =
      .ok (Monthly.text ⟨((days.take 29).filterMap (entryOf entries)).length, printed sum.dwn,
        printed sum.up, printed sum.total, (days.take 29).filterMap (entryOf entries)⟩) := by
  have htake : ∀ day ∈ days.take 29, day ∈ entries.map Entry.date :=
    fun day hday => h day (mem_of_mem_take hday)
  have hk : (if 30 < days.length + 1 then 30 else days.length + 1) - 1 = min 29 days.length := by
    split_ifs <;> omega
  have hmin : (days.map Day.text).take (min 29 days.length) = (days.take 29).map Day.text := by
    have hlen : days.length = (days.map Day.text).length := (length_map _).symm
    rw [hlen, map_take, ← take_eq_take_min]
  have hlength := congrArg length (map_date_filterMap _ htake)
  rw [length_map, length_take] at hlength
  simp only [writeData, hk, drop_one, tail_cons, hmin, mapM_monline entries _ htake, hlength]
  rfl

/-- **A run** on files that hold a history. -/
theorem createdata_text (d : Daily) (old : Option Monthly) :
    createdata d.text (old.map Monthly.text) = .ok (some (refresh d old).text) := by
  cases old with
  | none =>
    have hwrite := @writeData_texts [d.entry] [d.date] (by simp [Daily.entry]) d.totals
    have hone : ([d.date].take 29).filterMap (entryOf [d.entry]) = [d.entry] := by
      simp [entryOf, Daily.entry]
    rw [hone] at hwrite
    simp only [createdata, readDaily_text, ok_bind]
    exact congrArg (Except.map some) hwrite
  | some m =>
    have hrows := readRows_lines m.entries (unlines (m.entries.map Entry.line)).length
      (by simpa using length_le_unlines (m.entries.map Entry.line))
    have hsort : bubblesort
        ("first".toList :: d.date.text :: (m.entries.map Entry.row).map Prod.fst) =
          some ("first".toList :: ((d.date :: m.dates).insertionSort (· ≥ ·)).map Day.text) := by
      rw [← bubblesort_texts]
      simp [Monthly.dates, Entry.row, Function.comp_def]
    have hmem : ∀ day ∈ (d.date :: m.dates).insertionSort (· ≥ ·),
        day ∈ (d.entry :: m.entries).map Entry.date :=
      fun day hday => (mem_insertionSort _).mp hday
    have hlength : (m.entries.map Entry.row).length + 2 =
        ((d.date :: m.dates).insertionSort (· ≥ ·)).length + 1 := by
      rw [length_insertionSort, length_cons, Monthly.dates, length_map, length_map]
    simp only [Option.map_some, createdata, readDaily_text, readTotals_text, ok_bind, hrows, hsort,
      hlength]
    exact congrArg (Except.map some) (writeData_texts hmem _)

/-! ### The newest days -/

theorem mem_dates_of_mem_largest {d : Daily} {m : Monthly} :
    ∀ day ∈ largest 29 (d.date :: m.dates), day ∈ (d.entry :: m.entries).map Entry.date :=
  fun _ h => mem_of_mem_largest h

theorem dates_refresh (d : Daily) (m : Monthly) :
    (refresh d (some m)).dates = largest 29 (d.date :: m.dates) :=
  map_date_filterMap _ mem_dates_of_mem_largest

theorem mem_refresh {d : Daily} {m : Monthly} {e : Entry}
    (he : e ∈ (refresh d (some m)).entries) : e ∈ d.entry :: m.entries := by
  obtain ⟨day, -, hfind⟩ := mem_filterMap.mp he
  exact mem_reverse.mp (mem_of_find?_eq_some hfind)

/-- **The newest days are kept.**  The file lists the newest days of the history and the new
    one, 29 at most, from the newest to the oldest, each with its line; the number in front is
    the number of lines.  The sort ends, with `first` in front. -/
theorem createdata_keeps_newest (d : Daily) (m : Monthly) (hnodup : m.dates.Nodup)
    (hnew : d.date ∉ m.dates) :
    (∃ (kept : List Entry) (dwn up total : Amount),
      createdata d.text (some m.text) =
        .ok (some (Monthly.text ⟨kept.length, dwn, up, total, kept⟩)) ∧
      kept.length = min (m.entries.length + 1) 29 ∧
      (kept.map Entry.date).Pairwise (· > ·) ∧
      (∀ e ∈ kept, e = d.entry ∨ e ∈ m.entries) ∧
      ∀ e, e = d.entry ∨ e ∈ m.entries → e ∉ kept → ∀ e' ∈ kept, e.date < e'.date) ∧
    ∀ rounds, (m.entries.length + 1) * (m.entries.length + 1) < rounds →
      ∃ sorted, loop (passStep strLess) rounds
        ("first".toList :: d.date.text :: m.dates.map Day.text) =
          some ("first".toList :: sorted) := by
  have hdates : ((d.entry :: m.entries).map Entry.date).Nodup := nodup_cons.mpr ⟨hnew, hnodup⟩
  constructor
  · refine ⟨(refresh d (some m)).entries, _, _, _, createdata_text d (some m), ?_, ?_, ?_, ?_⟩
    · have hlength := congrArg length (dates_refresh d m)
      rw [Monthly.dates, length_map, length_largest] at hlength
      rw [hlength, Nat.min_comm]
      simp [Monthly.dates]
    · change (refresh d (some m)).dates.Pairwise _
      rw [dates_refresh]
      exact ((pairwise_largest 29 _).sortedGE.sortedGT_of_nodup (nodup_largest hdates)).pairwise
    · exact fun e he => mem_cons.mp (mem_refresh he)
    · intro e he hout e' he'
      have hmem : e ∈ d.entry :: m.entries := mem_cons.mpr he
      have hkept : e'.date ∈ largest 29 (d.date :: m.dates) := by
        rw [← dates_refresh]
        exact mem_map_of_mem he'
      have hdropped : e.date ∉ largest 29 (d.date :: m.dates) := by
        rw [← dates_refresh]
        intro hin
        obtain ⟨e₁, he₁, hdate⟩ := mem_map.mp hin
        exact hout (inj_on_of_nodup_map hdates (mem_refresh he₁) hmem hdate ▸ he₁)
      have hle := le_of_notMem_largest (mem_map_of_mem hmem) hdropped hkept
      exact lt_of_le_of_ne hle fun heq => hdropped (heq ▸ hkept)
  · intro rounds hrounds
    refine ⟨_, @loop_texts rounds (d.date :: m.dates) ?_⟩
    simpa [Monthly.dates] using hrounds

def november (day : Fin 30) : Day :=
  ⟨⟨2024, 11, day + 1, by decide, by decide, by omega, day.isLt⟩, (by decide : 2024 < 10000)⟩

/-- The days up to 29 November, as many as are kept. -/
def fullHistory : Monthly where
  count := 29
  dwn := printed 43500
  up := printed 14500
  total := printed 58000
  entries := (finRange 29).map fun day => Daily.entry ⟨1500, 500, 2000, november day.castSucc⟩

theorem createdata_keeps_newest_oneDay :
    ∃ (kept : List Entry) (dwn up total : Amount),
      createdata (Daily.text ⟨100, 200, 300, november 29⟩) (some fullHistory.text) =
        .ok (some (Monthly.text ⟨kept.length, dwn, up, total, kept⟩)) ∧ kept.length = 29 ∧
      (kept.map Entry.date).Pairwise (· > ·) := by
  obtain ⟨⟨kept, dwn, up, total, hrun, hlength, hsorted, -⟩, -⟩ :=
    createdata_keeps_newest ⟨100, 200, 300, november 29⟩ fullHistory (by decide +kernel)
      (by decide +kernel)
  exact ⟨kept, dwn, up, total, hrun, hlength, hsorted⟩

/-- **The history of many days**: whatever the order of their dates, the file lists the newest 29 of
    all days for which the script was run, and each line is that of one of them. -/
theorem createdata_days (days : List Daily) : ∃ old : Option Monthly,
    days.foldrM (fun d file => createdata d.text file) none = .ok (old.map Monthly.text) ∧
      (old.elim [] Monthly.entries).map Entry.date = largest 29 (days.map Daily.date) ∧
      ∀ e ∈ old.elim [] Monthly.entries, e ∈ days.map Daily.entry := by
  induction days with
  | nil => exact ⟨none, rfl, rfl, fun e he => he⟩
  | cons d days ih =>
    obtain ⟨old, hrun, hdates, hmem⟩ := ih
    refine ⟨some (refresh d old), ?_, ?_, fun e he => ?_⟩
    · rw [foldrM_cons, hrun]
      exact createdata_text d old
    · rw [map_cons, ← largest_cons_largest, ← hdates]
      cases old with
      | none => rfl
      | some m => exact dates_refresh d m
    · have hnew : e ∈ d.entry :: old.elim [] Monthly.entries := by
        cases old with
        | none => exact he
        | some m => exact mem_refresh he
      rw [map_cons, mem_cons]
      exact (mem_cons.mp hnew).imp_right (hmem e)

end Rooter.BandwidthHistory
