import Rooter.BandwidthHistory

/-!
# The history of daily amounts, refreshed

`allocate.sh` runs `createdata.lua` once more whenever the allowance is changed, with the
`daily.js` of the last change of the day.  The program is the same as for a new day: it takes in
the date and adds the amounts without looking whether the day is listed.  So a second run leaves
the file alone only where neither shows: the history is full of newer days, and the amounts are
too small for the digits of the totals (`refresh_refresh_iff`).
-/

namespace Rooter.BandwidthRefresh

open List LuaString LuaNumber Numeral BubbleSort BandwidthHistory

/-! ### Files and histories -/

theorem unlines_injective : ∀ {lines lines' : List Text}, (∀ l ∈ lines, LineSafe l) →
    (∀ l ∈ lines', LineSafe l) → unlines lines = unlines lines' → lines = lines' := by
  intro lines
  induction lines with
  | nil =>
    intro lines' _ _ heq
    cases lines' with
    | nil => rfl
    | cons l lines' =>
      simp [unlines] at heq
  | cons l lines ih =>
    intro lines' hsafe hsafe' heq
    cases lines' with
    | nil =>
      simp [unlines] at heq
    | cons l' lines' =>
      have hread := congrArg readLine heq
      rw [readLine_unlines (hsafe l (by simp)), readLine_unlines (hsafe' l' (by simp))] at hread
      simp only [Prod.mk.injEq, Option.some.injEq] at hread
      rw [hread.1, ih (fun x hx => hsafe x (by simp [hx])) (fun x hx => hsafe' x (by simp [hx]))
        hread.2]

theorem line_injective : Function.Injective Entry.line := by
  intro e e' heq
  have hdate := congrArg (fun l : Text => l.takeWhile (· ≠ '|')) heq
  simp only [takeWhile_line] at hdate
  have hdate' := text_injective hdate
  rw [Entry.line, Entry.line, hdate'] at heq
  refine Entry.ext hdate' ?_
  simpa using heq

theorem lineSafe_lines (m : Monthly) : ∀ l ∈ [decimal m.count, m.dwn.line, m.up.line,
    m.total.line] ++ m.entries.map Entry.line, LineSafe l := by
  intro l hl
  simp only [mem_append, mem_cons, not_mem_nil, or_false, mem_map] at hl
  rcases hl with (rfl | rfl | rfl | rfl) | ⟨e, -, rfl⟩
  · exact lineSafe_of_le fun _ hc => le_of_isDigit (isDigit_of_mem_decimal hc)
  · exact m.dwn.safe
  · exact m.up.safe
  · exact m.total.safe
  · exact lineSafe_line e

theorem monthly_text_injective : Function.Injective Monthly.text := by
  intro m m' heq
  have hlines := unlines_injective (lineSafe_lines m) (lineSafe_lines m') heq
  simp only [cons_append, cons.injEq] at hlines
  obtain ⟨hcount, hdwn, hup, htotal, hentries⟩ := hlines
  exact Monthly.ext (decimal_injective hcount) (Amount.ext hdwn) (Amount.ext hup)
    (Amount.ext htotal) (map_injective_iff.mpr line_injective hentries)

theorem printed_inj {x y : ℚ} : printed x = printed y ↔ calcTotal x = calcTotal y :=
  ⟨congrArg Amount.line, fun h => Amount.ext h⟩

/-! ### The second run -/

theorem entryOf_refresh {d : Daily} {m : Monthly} {day : Day}
    (h : day ∈ (refresh d (some m)).dates) :
    entryOf (d.entry :: (refresh d (some m)).entries) day = entryOf (d.entry :: m.entries) day := by
  obtain ⟨e, hfind, hmem, hdate⟩ := exists_entryOf h
  obtain ⟨day', -, hday'⟩ := mem_filterMap.mp hmem
  have hdate' := find?_some hday'
  rw [decide_eq_true_eq, hdate] at hdate'
  rw [hdate', hday', ← hdate', entryOf, reverse_cons, find?_append]
  rw [entryOf] at hfind
  rw [hfind]
  rfl

theorem entries_refresh_refresh_iff (d : Daily) (m : Monthly) :
    (refresh d (some (refresh d (some m)))).entries = (refresh d (some m)).entries ↔
      28 ≤ m.dates.countP fun day => decide (d.date ≤ day) := by
  rw [← largest_cons_largest_iff, ← dates_refresh d m, ← dates_refresh d (refresh d (some m))]
  constructor
  · exact congrArg (map Entry.date)
  · intro hdates
    change (largest 29 (d.date :: (refresh d (some m)).dates)).filterMap _ = _
    rw [← dates_refresh, hdates]
    change _ = (largest 29 (d.date :: m.dates)).filterMap _
    rw [← dates_refresh]
    exact filterMap_congr fun day hday => entryOf_refresh hday

/-- The amount of the day does not show when it is added to the printed total once more. -/
def Absorbed (total day : ℚ) : Prop :=
  calcTotal (double ((printed total).bytes + day)) = calcTotal total

/-- **The same day again.**  A second run changes nothing if and only if the history is full of
    days that are not older, and the amounts of the day are too small to show. -/
theorem refresh_refresh_iff (d : Daily) (m : Monthly) :
    refresh d (some (refresh d (some m))) = refresh d (some m) ↔
      28 ≤ m.dates.countP (fun day => decide (d.date ≤ day)) ∧
      Absorbed (double (m.dwn.bytes + d.totals.dwn)) d.totals.dwn ∧
      Absorbed (double (m.up.bytes + d.totals.up)) d.totals.up ∧
      Absorbed (double (m.total.bytes + d.totals.total)) d.totals.total := by
  rw [← entries_refresh_refresh_iff]
  constructor
  · intro heq
    exact ⟨congrArg Monthly.entries heq, printed_inj.mp (congrArg Monthly.dwn heq),
      printed_inj.mp (congrArg Monthly.up heq), printed_inj.mp (congrArg Monthly.total heq)⟩
  · rintro ⟨hentries, hdwn, hup, htotal⟩
    exact Monthly.ext (congrArg length hentries) (printed_inj.mpr hdwn) (printed_inj.mpr hup)
      (printed_inj.mpr htotal) hentries

/-- With the same `daily.js`, a second run leaves the file as the first one left it, in which no
    date is listed twice unless it was before. -/
def Idempotent (d : Daily) (old : Option Monthly) : Prop :=
  ∃ m : Monthly, createdata d.text (old.map Monthly.text) = .ok (some m.text) ∧
    createdata d.text (some m.text) = .ok (some m.text) ∧
    ((old.elim [] Monthly.dates).Nodup → m.dates.Nodup)

theorem idempotent_refresh (d : Daily) (old : Option Monthly) : Idempotent d old ↔
    refresh d (some (refresh d old)) = refresh d old ∧
      ((old.elim [] Monthly.dates).Nodup → (refresh d old).dates.Nodup) := by
  constructor
  · rintro ⟨m, hfirst, hsecond, hnodup⟩
    rw [createdata_text, Except.ok.injEq, Option.some.injEq] at hfirst
    obtain rfl := monthly_text_injective hfirst
    have hrun := createdata_text d (some (refresh d old))
    rw [Option.map_some, hsecond, Except.ok.injEq, Option.some.injEq] at hrun
    exact ⟨monthly_text_injective hrun.symm, hnodup⟩
  · rintro ⟨hrefresh, hnodup⟩
    refine ⟨refresh d old, createdata_text d old, ?_, hnodup⟩
    have hrun := createdata_text d (some (refresh d old))
    rw [hrefresh] at hrun
    exact hrun

/-- **A second run** with an unchanged `daily.js` leaves the file as it is if and only if the
    history was full of days newer than the one in `daily.js` (or as new, if days are listed
    twice) and the amounts are too small to show in the totals. -/
theorem createdata_idempotent_iff (d : Daily) (old : Option Monthly) : Idempotent d old ↔
    ∃ m, old = some m ∧
      28 ≤ m.dates.countP (fun day => decide (d.date ≤ day)) ∧
      (m.dates.Nodup → 28 ≤ m.dates.countP fun day => decide (d.date < day)) ∧
      Absorbed (double (m.dwn.bytes + d.totals.dwn)) d.totals.dwn ∧
      Absorbed (double (m.up.bytes + d.totals.up)) d.totals.up ∧
      Absorbed (double (m.total.bytes + d.totals.total)) d.totals.total := by
  rw [idempotent_refresh]
  cases old with
  | none =>
    constructor
    · rintro ⟨heq, -⟩
      have hlength := congrArg (fun m : Monthly => m.dates.length) heq
      simp only [dates_refresh, length_largest] at hlength
      simp [refresh, Monthly.dates] at hlength
    · rintro ⟨m, hm, -⟩
      cases hm
  | some m =>
    rw [refresh_refresh_iff, dates_refresh]
    constructor
    · rintro ⟨⟨hge, habsorbed⟩, hnodup⟩
      exact ⟨m, rfl, hge, fun h => (nodup_largest_cons_iff h hge).mp (hnodup h), habsorbed⟩
    · rintro ⟨m', hm', hge, hgt, habsorbed⟩
      cases hm'
      exact ⟨⟨hge, habsorbed⟩, fun h => (nodup_largest_cons_iff h hge).mpr (hgt h)⟩

/-- A day with 1500 bytes down and 500 up, on a device without a history: the second run lists
    the day twice and doubles the totals. -/
theorem not_createdata_idempotent :
    let daily := "2000\n1500\n500\n2024-11-29\n".toList
    let once := "1\n1.50 K\n0.50 K\n2.00 K\n2024-11-29|1.50 K|0.50 K|2.00 K\n".toList
    let twice := ("2\n3.00 K\n1.00 K\n4.00 K\n2024-11-29|1.50 K|0.50 K|2.00 K\n" ++
      "2024-11-29|1.50 K|0.50 K|2.00 K\n").toList
    createdata daily none = .ok (some once) ∧ createdata daily (some once) = .ok (some twice) ∧
      ¬ Idempotent ⟨1500, 500, 2000, november 28⟩ none := by
  intro daily once twice
  -- the literals are taken apart before anything is evaluated
  have hd : daily = _ := String.toList_ofList
  have ho : once = _ := String.toList_ofList
  have ht : twice = _ :=
    String.toList_append.trans (congrArg₂ _ String.toList_ofList String.toList_ofList)
  have hdaily : Daily.text ⟨1500, 500, 2000, november 28⟩ = daily := by
    rw [hd]
    decide +kernel
  have hfirst : createdata daily none = .ok (some once) := by
    rw [hd, ho]
    decide +kernel
  have hsecond : createdata daily (some once) = .ok (some twice) := by
    rw [hd, ho, ht]
    decide +kernel
  refine ⟨hfirst, hsecond, ?_⟩
  rintro ⟨m, hrun, hagain, -⟩
  rw [hdaily, Option.map_none, hfirst, Except.ok.injEq] at hrun
  rw [← hrun, hdaily, hsecond, Except.ok.injEq, ht, ho] at hagain
  exact absurd hagain (by decide)

end Rooter.BandwidthRefresh
