import Rooter.BandwidthMonitor

/-!
# The start of a billing period

`checkTime` keeps the number of the last day seen and of the month in which it last started
a new period.  It starts one when the day number changes to the rollover day, or to a later
day of a month other than the remembered one.

The dates seen may be any that do not go back.  From one to the next, a new period ought to
be started exactly when a rollover day lies behind the first and not behind the second.
When the previous periods were started in time, nothing is started too early; `Timely` says
when nothing is missed either.  It rules out the gaps that the two numbers cannot show: to
the same day number, to a day before the rollover day, to the same month of another year,
and any gap over the rollover day before the first period was started.
-/

namespace Rooter.BandwidthMonitor

open List Calendar

/-! ### The dates that `checkTime` sees -/

def Event.observes : Event → Option Input
  | .round i => some i
  | .restart i n _ _ => if 3 ≤ n then some i else none

def Event.seen (prev : Option Date) (e : Event) : Option Date :=
  match e.observes with
  | some i => some i.date
  | none => prev

/-- A condition on each two dates seen one after the other, the second one with the input
    and the state in which it is seen. -/
def Between (condition : Date → Input → Monitor → Prop) :
    Option Date → Monitor → List Event → Prop
  | _, _, [] => True
  | prev, s, e :: events =>
      (∀ i ∈ e.observes, ∀ d ∈ prev, condition d i s) ∧
        Between condition (e.seen prev) (exec s e) events

def Forward (d : Date) (i : Input) (_ : Monitor) : Prop := d ≤ i.date

def Monitor.withMonth (s : Monitor) (base offset curr : Bytes) : Monitor :=
  { s with basemon := base, monoffset := offset, currmon := curr }

/-- `checkTime` zeroes the month totals, whatever they are. -/
def ZeroesMonth (i : Input) (s : Monitor) : Prop :=
  ∀ base offset curr, let t := checkTime i (s.withMonth base offset curr)
    t.basemon = 0 ∧ t.monoffset = s.val ∧ t.currmon = 0

def KeepsMonth (i : Input) (s : Monitor) : Prop :=
  ∀ base offset curr, let t := checkTime i (s.withMonth base offset curr)
    t.basemon = base ∧ t.monoffset = offset ∧ t.currmon = curr

/-- The month totals are zeroed when a rollover day has come, and else they stay as they are. -/
def OnePerPeriod (r : Nat) (d : Date) (i : Input) (s : Monitor) : Prop :=
  (Passes r d i.date → ZeroesMonth i (checkreset i (update i s))) ∧
    (¬ Passes r d i.date → KeepsMonth i (checkreset i (update i s)))

/-- When a rollover day has come, the day number has changed and is not below the rollover
    day; and if it is above, a month is remembered and it is another one. -/
def Timely (r : Nat) (d : Date) (i : Input) (s : Monitor) : Prop :=
  Passes r d i.date →
    d.day ≠ i.date.day ∧ r ≤ i.date.day ∧
      (r < i.date.day → ∃ m, s.backup.rollmon = some m ∧ m ≠ i.date.month)

/-! ### What a step does to the two numbers -/

variable {s : Monitor}

theorem newMonth_iff {r : Nat} {i : Input} (hr : i.rollover.getD 1 = r) :
    newMonth i s = true ↔ s.cDate.day ≠ i.date.day ∧ (r = i.date.day ∨
      r < i.date.day ∧ ∃ m, s.backup.rollmon = some m ∧ m ≠ i.date.month) := by
  have hmonth : s.backup.rollmon.getD i.date.month ≠ i.date.month ↔
      ∃ m, s.backup.rollmon = some m ∧ m ≠ i.date.month := by
    cases hm : s.backup.rollmon with
    | none => simp
    | some m => simp
  simp only [newMonth, dayChange, rolld, hr, Bool.and_eq_true, Bool.or_eq_true,
    decide_eq_true_eq, hmonth]

theorem zeroesMonth (i : Input) (s : Monitor) (h : newMonth i s = true) : ZeroesMonth i s := by
  intro base offset curr
  obtain ⟨hcurr, hbase, hoffset, -⟩ := checkTime_newMonth i (s.withMonth base offset curr) h
  exact ⟨hbase, hoffset, hcurr⟩

theorem keepsMonth (i : Input) (s : Monitor) (h : ¬ newMonth i s = true) : KeepsMonth i s := by
  intro base offset curr
  obtain ⟨hcurr, hbase, hoffset, -⟩ := checkTime_sameMonth i (s.withMonth base offset curr) h
  exact ⟨hbase, hoffset, hcurr⟩

theorem onePerPeriod_iff_newMonth {r : Nat} {d : Date} {i : Input} :
    OnePerPeriod r d i s ↔ (newMonth i s = true ↔ Passes r d i.date) := by
  rw [← newMonth_checkreset i]
  have hone : (⟨1, 0, 0⟩ : Bytes) ≠ 0 := by decide
  constructor
  · rintro ⟨hzero, hkeep⟩
    refine ⟨fun hnew => ?_, fun hpasses => ?_⟩
    · by_contra hnone
      exact hone ((hkeep hnone ⟨1, 0, 0⟩ 0 0).1.symm.trans (zeroesMonth i _ hnew ⟨1, 0, 0⟩ 0 0).1)
    · by_contra hold
      exact hone ((keepsMonth i _ hold ⟨1, 0, 0⟩ 0 0).1.symm.trans (hzero hpasses ⟨1, 0, 0⟩ 0 0).1)
  · intro hiff
    exact ⟨fun hpasses => zeroesMonth i _ (hiff.mpr hpasses),
      fun hnone => keepsMonth i _ fun hnew => hnone (hiff.mp hnew)⟩

/-- The date and the remembered month, with the date saved so that a restart keeps it. -/
structure Clock (s : Monitor) (date : Date) (rollmon : Option Nat) : Prop where
  cDate : s.cDate = date
  rollmon : s.backup.rollmon = rollmon
  saved : s.backup.date = some date

section Steps

variable {s : Monitor} {date : Date} {rollmon : Option Nat}

theorem Clock.checkreset (h : Clock s date rollmon) (i : Input) :
    Clock (checkreset i (update i s)) date rollmon := by
  unfold BandwidthMonitor.checkreset
  split
  · exact ⟨h.cDate, h.rollmon, h.saved⟩
  · exact ⟨h.cDate, h.rollmon, h.saved⟩

theorem Clock.checkBackup (h : Clock s date rollmon) (i : Input) :
    Clock (checkBackup i s) date rollmon := by
  unfold BandwidthMonitor.checkBackup
  split
  · exact ⟨h.cDate, h.rollmon, congrArg some h.cDate⟩
  · exact h

theorem Clock.createAmt (h : Clock s date rollmon) (today : Date) (time : Int) :
    Clock (createAmt s.backup today time) date rollmon := by
  refine ⟨?_, h.rollmon, ?_⟩
  · change s.backup.date.getD today = date
    rw [h.saved]
    rfl
  · change some (s.backup.date.getD today) = some date
    rw [h.saved]
    rfl

def Clock.nextDate (i : Input) (date : Date) : Date :=
  if date.day ≠ i.date.day then i.date else date

def Clock.nextRollmon (i : Input) (s : Monitor) : Option Nat :=
  if newMonth i s then some i.date.month else s.backup.rollmon

theorem Clock.checkTime (h : Clock s date rollmon) (i : Input) :
    Clock (checkTime i s) (Clock.nextDate i date) (Clock.nextRollmon i s) := by
  have hrollmon : (BandwidthMonitor.checkTime i s).backup.rollmon = Clock.nextRollmon i s := by
    by_cases hmonth : newMonth i s = true
    · rw [Clock.nextRollmon, if_pos hmonth]
      exact (checkTime_newMonth i s hmonth).2.2.2
    · rw [Clock.nextRollmon, if_neg hmonth]
      exact (checkTime_sameMonth i s hmonth).2.2.2
  by_cases hday : dayChange i s = true
  · obtain ⟨-, hcDate, -, -, hsaved⟩ := checkTime_day i s hday
    have hnext : Clock.nextDate i date = i.date := by
      rw [Clock.nextDate, if_pos]
      simpa [dayChange, h.cDate] using hday
    exact ⟨hcDate.trans hnext.symm, hrollmon, hsaved.trans (congrArg some hnext.symm)⟩
  · have hnext : Clock.nextDate i date = date := by
      rw [Clock.nextDate, if_neg]
      simpa [dayChange, h.cDate] using hday
    have hsame := checkTime_same i s hday
    exact ⟨(congrArg Monitor.cDate hsame).trans (h.cDate.trans hnext.symm), hrollmon,
      by rw [hsame, hnext]; exact h.saved⟩

theorem Clock.observed_checkTime (h : Clock s date rollmon) (i : Input) :
    Clock (BandwidthMonitor.checkTime i (BandwidthMonitor.checkreset i (update i s)))
      (Clock.nextDate i date) (Clock.nextRollmon i s) := by
  have hnext : Clock.nextRollmon i (BandwidthMonitor.checkreset i (update i s)) =
      Clock.nextRollmon i s := by
    rw [Clock.nextRollmon, Clock.nextRollmon, newMonth_checkreset, (h.checkreset i).rollmon,
      h.rollmon]
  rw [← hnext]
  exact (h.checkreset i).checkTime i

/-- **An event that runs `checkTime`.** -/
theorem Clock.observed (h : Clock s date rollmon) {e : Event} {i : Input}
    (he : e.observes = some i) :
    Clock (exec s e) (Clock.nextDate i date) (Clock.nextRollmon i s) := by
  cases e with
  | round j =>
    cases he
    exact (h.observed_checkTime i).checkBackup i
  | restart j n today time =>
    simp only [Event.observes] at he
    split at he
    · next hn =>
      cases he
      match n, hn with
      | 3, _ => exact (h.observed_checkTime i).createAmt today time
      | n + 4, _ =>
        have hround : cutRound i (n + 4) s = round i s := by simp [cutRound, procedures, round]
        rw [exec, hround]
        exact ((h.observed_checkTime i).checkBackup i).createAmt today time
    · cases he

theorem Clock.unobserved (h : Clock s date rollmon) {e : Event} (he : e.observes = none) :
    Clock (exec s e) date rollmon := by
  cases e with
  | round j => cases he
  | restart j n today time =>
    have hn : n < 3 := by
      by_contra hge
      simp [Event.observes, Nat.not_lt.mp hge] at he
    match n, hn with
    | 0, _ => exact h.createAmt today time
    | 1, _ => exact Clock.createAmt ⟨h.cDate, h.rollmon, h.saved⟩ today time
    | 2, _ => exact (h.checkreset j).createAmt today time

end Steps

/-! ### Whole runs -/

/-- Behind a date that was seen, its day number is known, and the month in which its
    period began if any period was started at all. -/
def Remembers (r : Nat) : Option Date → Monitor → Prop
  | none, s => s.backup.rollmon = none
  | some d, s => s.cDate.day = d.day ∧
      ∀ m, s.backup.rollmon = some m → m = monthOf (period r d)

section Step

variable {r : Nat} {d : Date} {i : Input} {s : Monitor}

section

variable (hr : 1 ≤ r ∧ r ≤ 28) (hmem : Remembers r (some d) s) (hroll : i.rollover.getD 1 = r)
  (hle : d ≤ i.date)

include hr hmem hroll hle

theorem not_newMonth_of_not_passes (hnone : ¬ Passes r d i.date) : ¬ newMonth i s = true := by
  have hperiod := (not_passes_iff hr hle).mp hnone
  rw [newMonth_iff hroll, hmem.1]
  rintro ⟨hday, heq | ⟨hlt, m, hm, hne⟩⟩
  · -- both dates lie in the period that begins on the second one, so they are the same day
    rw [period_of_le (Nat.le_of_eq heq)] at hperiod
    rw [Date.le_iff] at hle
    unfold period at hperiod
    have hpos := monthIndex_pos d
    split at hperiod <;> omega
  · apply hne
    rw [hmem.2 m hm, hperiod, period_of_le (by omega), monthOf_monthIndex]

theorem onePerPeriod_iff : OnePerPeriod r d i s ↔ Timely r d i s := by
  rw [onePerPeriod_iff_newMonth]
  constructor
  · intro hone hpasses
    obtain ⟨hday, hcase⟩ := (newMonth_iff hroll).mp (hone.mpr hpasses)
    rw [hmem.1] at hday
    refine ⟨hday, ?_, fun hlt => ?_⟩
    · rcases hcase with heq | ⟨hlt, -⟩ <;> omega
    · rcases hcase with heq | ⟨-, hm⟩
      · omega
      · exact hm
  · intro htimely
    constructor
    · intro hnew
      by_contra hnone
      exact not_newMonth_of_not_passes hr hmem hroll hle hnone hnew
    · intro hpasses
      obtain ⟨hday, hday', hlater⟩ := htimely hpasses
      rw [newMonth_iff hroll, hmem.1]
      rcases Nat.eq_or_lt_of_le hday' with heq | hlt
      · exact ⟨hday, .inl heq⟩
      · exact ⟨hday, .inr ⟨hlt, hlater hlt⟩⟩

end

/-- A new period is started on the rollover day or on a later day of its month. -/
theorem monthOf_of_newMonth (hroll : i.rollover.getD 1 = r) (hnew : newMonth i s = true) :
    i.date.month = monthOf (period r i.date) := by
  obtain ⟨-, hcase⟩ := (newMonth_iff hroll).mp hnew
  have hle : r ≤ i.date.day := by rcases hcase with heq | ⟨hlt, -⟩ <;> omega
  rw [period_of_le hle, monthOf_monthIndex]

theorem day_nextDate (i : Input) (date : Date) : (Clock.nextDate i date).day = i.date.day := by
  unfold Clock.nextDate
  split
  · rfl
  · next hsame => exact not_not.mp hsame

end Step

theorem Remembers.observed {r : Nat} (hr : 1 ≤ r ∧ r ≤ 28) {prev : Option Date}
    (hmem : Remembers r prev s) (hsaved : s.backup.date = some s.cDate) {e : Event} {i : Input}
    (he : e.observes = some i) (hroll : i.rollover.getD 1 = r)
    (hforward : ∀ d ∈ prev, Forward d i s) (hone : ∀ d ∈ prev, OnePerPeriod r d i s) :
    Remembers r (some i.date) (exec s e) := by
  have hclock : Clock (exec s e) _ _ := Clock.observed ⟨rfl, rfl, hsaved⟩ he
  refine ⟨by rw [hclock.cDate, day_nextDate], fun m hm => ?_⟩
  rw [hclock.rollmon, Clock.nextRollmon] at hm
  split at hm
  · next hnew =>
    cases hm
    exact monthOf_of_newMonth hroll hnew
  · next hold =>
    cases prev with
    | none =>
      have hnone : s.backup.rollmon = none := hmem
      rw [hnone] at hm
      cases hm
    | some d =>
      -- the period has not changed
      have hpasses : ¬ Passes r d i.date := fun h =>
        hold ((onePerPeriod_iff_newMonth.mp (hone d rfl)).mpr h)
      rw [hmem.2 m hm, (not_passes_iff hr (hforward d rfl)).mp hpasses]

theorem Remembers.unobserved {r : Nat} {prev : Option Date} (hmem : Remembers r prev s)
    (hsaved : s.backup.date = some s.cDate) {e : Event} (he : e.observes = none) :
    Remembers r prev (exec s e) := by
  have hclock : Clock (exec s e) s.cDate s.backup.rollmon := Clock.unobserved ⟨rfl, rfl, hsaved⟩ he
  cases prev with
  | none => exact hclock.rollmon.trans hmem
  | some d => exact ⟨by rw [hclock.cDate]; exact hmem.1, by rw [hclock.rollmon]; exact hmem.2⟩

theorem saved_exec (hsaved : s.backup.date = some s.cDate) (e : Event) :
    (exec s e).backup.date = some (exec s e).cDate := by
  have hclock : Clock s s.cDate s.backup.rollmon := ⟨rfl, rfl, hsaved⟩
  cases he : e.observes with
  | none =>
    have hnext := hclock.unobserved he
    rw [hnext.saved, hnext.cDate]
  | some i =>
    have hnext := hclock.observed he
    rw [hnext.saved, hnext.cDate]

theorem between_onePerPeriod_iff {r : Nat} (hr : 1 ≤ r ∧ r ≤ 28) (events : List Event) :
    ∀ (prev : Option Date) (s : Monitor), Remembers r prev s → s.backup.date = some s.cDate →
      (∀ e ∈ events, ∀ i ∈ e.observes, i.rollover.getD 1 = r) → Between Forward prev s events →
      (Between (OnePerPeriod r) prev s events ↔ Between (Timely r) prev s events) := by
  induction events with
  | nil => exact fun _ _ _ _ _ _ => Iff.rfl
  | cons e events ih =>
    intro prev s hmem hsaved hroll hforward
    have hroll' : ∀ e' ∈ events, ∀ i ∈ e'.observes, i.rollover.getD 1 = r :=
      fun e' he' => hroll e' (mem_cons_of_mem _ he')
    have hhere : (∀ i ∈ e.observes, ∀ d ∈ prev, OnePerPeriod r d i s) ↔
        ∀ i ∈ e.observes, ∀ d ∈ prev, Timely r d i s := by
      refine forall₂_congr fun i hi => forall₂_congr fun d hd => ?_
      obtain rfl : prev = some d := hd
      exact onePerPeriod_iff hr hmem (hroll e mem_cons_self i hi) (hforward.1 i hi d rfl)
    have hrest : (∀ i ∈ e.observes, ∀ d ∈ prev, OnePerPeriod r d i s) →
        (Between (OnePerPeriod r) (e.seen prev) (exec s e) events ↔
          Between (Timely r) (e.seen prev) (exec s e) events) := by
      intro hone
      refine ih _ _ ?_ (saved_exec hsaved e) hroll' hforward.2
      cases he : e.observes with
      | none =>
        have hseen : e.seen prev = prev := by rw [Event.seen, he]
        rw [hseen]
        exact hmem.unobserved hsaved he
      | some i =>
        have hseen : e.seen prev = some i.date := by rw [Event.seen, he]
        rw [hseen]
        exact hmem.observed hr hsaved he (hroll e mem_cons_self i he)
          (hforward.1 i he) (hone i he)
    constructor
    · intro h
      exact ⟨hhere.mp h.1, (hrest h.1).mp h.2⟩
    · intro h
      have hone := hhere.mpr h.1
      exact ⟨hone, (hrest hone).mpr h.2⟩

/-- **One new period for each rollover day.**  From an installation that has not yet started
    a period, through rounds, gaps and restarts at any place, the month totals are zeroed
    between two dates seen one after the other exactly when a rollover day has come, in all
    of the run, if and only if all of the run is timely. -/
theorem onePerPeriod_iff_timely (r : Nat) (hr : 1 ≤ r ∧ r ≤ 28) (b : Backup)
    (hb : b.rollmon = none) (date : Date) (time : Int) (events : List Event)
    (hroll : ∀ e ∈ events, ∀ i ∈ e.observes, i.rollover.getD 1 = r)
    (hforward : Between Forward none (createAmt b date time) events) :
    Between (OnePerPeriod r) none (createAmt b date time) events ↔
      Between (Timely r) none (createAmt b date time) events :=
  between_onePerPeriod_iff hr events none (createAmt b date time) hb rfl hroll hforward

/-- A round on the given date, with the rollover day `r`. -/
def seeing (r : Nat) (date : Date) : Event :=
  .round ⟨0, fun _ => ⟨false, 0, 0⟩, none, date, 0, some r, 30, false⟩

def installed : Backup := ⟨(0 : Bytes).store, (0 : Bytes).store, none, none⟩

def january (day : Nat) (hday : 1 ≤ day ∧ day ≤ 31) : Date :=
  ⟨2024, 1, day, by decide, by decide, hday.1, hday.2⟩

/-- The days around a rollover day, each of them seen. -/
theorem onePerPeriod_iff_timely_daily :
    Between (OnePerPeriod 10) none (createAmt installed (january 9 (by decide)) 0)
      [seeing 10 (january 9 (by decide)), seeing 10 (january 10 (by decide)),
        seeing 10 (january 11 (by decide))] := by
  refine (onePerPeriod_iff_timely 10 (by decide) installed rfl _ 0 _ ?_ ?_).mpr ?_
  · intro e he i hi
    rcases mem_cons.mp he with rfl | he
    · cases hi; rfl
    · rcases mem_cons.mp he with rfl | he
      · cases hi; rfl
      · obtain rfl := mem_singleton.mp he
        cases hi
        rfl
  · refine ⟨by simp, ?_, ?_, trivial⟩
    · intro i hi d hd
      cases hi
      cases hd
      show Date.number _ ≤ Date.number _
      decide
    · intro i hi d hd
      cases hi
      cases hd
      show Date.number _ ≤ Date.number _
      decide
  · refine ⟨by simp, ?_, ?_, trivial⟩
    · intro i hi d hd _
      cases hi
      cases hd
      exact ⟨by decide, by decide, fun hlt => absurd hlt (by decide)⟩
    · intro i hi d hd hpasses
      cases hi
      cases hd
      exact absurd ((passes_iff (by decide)).mp hpasses) (by decide)

def february15 : Date where
  year := 2024
  month := 2
  day := 15

/-- **A missed period.**  The router is off from the 15th of January to the 15th of
    February; the 1st of February has come, but the day number has not changed. -/
theorem not_onePerPeriod :
    Between Forward none (createAmt installed (january 15 (by decide)) 0)
        [seeing 1 (january 15 (by decide)), seeing 1 february15] ∧
      ¬ Between (OnePerPeriod 1) none (createAmt installed (january 15 (by decide)) 0)
        [seeing 1 (january 15 (by decide)), seeing 1 february15] := by
  constructor
  · refine ⟨by simp, ?_, trivial⟩
    intro i hi d hd
    cases hi
    cases hd
    show Date.number _ ≤ Date.number _
    decide
  · intro hclaim
    have hone := hclaim.2.1 _ rfl _ rfl
    have hpasses : Passes 1 (january 15 (by decide)) february15 :=
      (passes_iff (by decide)).mpr (by decide)
    exact absurd ((onePerPeriod_iff_newMonth.mp hone).mpr hpasses) (by decide)

end Rooter.BandwidthMonitor
