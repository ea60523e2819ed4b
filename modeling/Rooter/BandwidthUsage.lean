import Mathlib.Algebra.Order.BigOperators.Group.List
import Rooter.BandwidthMonitor
import Rooter.Execution

/-!
# What the bandwidth monitor counts

The records written at the ends of the days and the figure of the current day add up to
what the counters have counted, and each figure is the sum of its two directions, through
resets, new months and restarts.

The figure of the month follows the sum of the interfaces' readings.  An interface that
is down is read as 0, so the bytes it has counted leave the figure together with it; the
figure keeps all usage exactly as long as nothing leaves it in this way.

The saved figures are those of the last `update`.  A reset or a day change in the same
round has by then moved offsets and bases, and the figures do not belong to them.  A day or
a month that ends in a round without a backup leaves its usage in the last one, under the
new date.
-/

namespace Rooter.BandwidthMonitor

open List Calendar Execution

/-! ### One figure and its two directions -/

def Bytes.Split (b : Bytes) : Prop := b.total = b.rx + b.tx

theorem Bytes.split_zero : (0 : Bytes).Split := rfl

theorem Bytes.Split.add {a b : Bytes} (ha : a.Split) (hb : b.Split) : (a + b).Split := by
  unfold Bytes.Split at *
  simp only [Bytes.total_add, Bytes.rx_add, Bytes.tx_add]
  omega

theorem Bytes.Split.sub {a b : Bytes} (ha : a.Split) (hb : b.Split) : (a - b).Split := by
  unfold Bytes.Split at *
  simp only [Bytes.total_sub, Bytes.rx_sub, Bytes.tx_sub]
  omega

theorem Input.split_sample (i : Input) : i.sample.Split := rfl

theorem split_newbw (newbw : Int) : (⟨newbw, newbw, 0⟩ : Bytes).Split :=
  (Int.add_zero newbw).symm

structure Balanced (s : Monitor) : Prop where
  basedaily : s.basedaily.Split
  basemon : s.basemon.Split
  dailyoffset : s.dailyoffset.Split
  monoffset : s.monoffset.Split
  val : s.val.Split
  currdaily : s.currdaily.Split
  currmon : s.currmon.Split
  savedDaily : s.backup.daily.load.Split
  savedMon : s.backup.mon.load.Split

theorem balanced_createAmt {b : Backup} (hdaily : b.daily.load.Split) (hmon : b.mon.load.Split)
    (date : Date) (time : Int) : Balanced (createAmt b date time) :=
  ⟨hdaily, hmon, Bytes.split_zero, Bytes.split_zero, Bytes.split_zero, Bytes.split_zero,
    Bytes.split_zero, hdaily, hmon⟩

section Procedures

variable {s : Monitor} (h : Balanced s) (i : Input)

include h i

theorem Balanced.update : Balanced (update i s) where
  basedaily := h.basedaily
  basemon := h.basemon
  dailyoffset := h.dailyoffset
  monoffset := h.monoffset
  val := i.split_sample
  currdaily := (i.split_sample.sub h.dailyoffset).add h.basedaily
  currmon := (i.split_sample.sub h.monoffset).add h.basemon
  savedDaily := h.savedDaily
  savedMon := h.savedMon

theorem Balanced.checkreset : Balanced (checkreset i s) := by
  unfold BandwidthMonitor.checkreset
  split
  · exact h
  · next newbw _ =>
    exact ⟨Bytes.split_zero, split_newbw newbw, h.val, h.val, h.val, h.currdaily, h.currmon,
      Bytes.split_zero, split_newbw newbw⟩

theorem Balanced.checkTime : Balanced (checkTime i s) := by
  unfold BandwidthMonitor.checkTime
  split
  · dsimp only
    split
    · exact ⟨Bytes.split_zero, Bytes.split_zero, h.val, h.val, h.val, h.currdaily,
        Bytes.split_zero, h.savedDaily, h.savedMon⟩
    · exact ⟨Bytes.split_zero, h.basemon, h.val, h.monoffset, h.val, h.currdaily, h.currmon,
        h.savedDaily, h.savedMon⟩
  · exact h

theorem Balanced.checkBackup : Balanced (checkBackup i s) := by
  unfold BandwidthMonitor.checkBackup
  split
  · exact ⟨h.basedaily, h.basemon, h.dailyoffset, h.monoffset, h.val, h.currdaily, h.currmon,
      h.currdaily, h.currmon⟩
  · exact h

theorem Balanced.cutRound (n : Nat) : Balanced (cutRound i n s) := by
  rcases cutRound_cases i n s with heq | heq | heq | heq | heq <;> rw [heq]
  · exact h
  · exact h.update i
  · exact (h.update i).checkreset i
  · exact ((h.update i).checkreset i).checkTime i
  · exact (((h.update i).checkreset i).checkTime i).checkBackup i

end Procedures

variable {s : Monitor}

theorem Balanced.exec (h : Balanced s) (e : Event) : Balanced (exec s e) := by
  cases e with
  | round i => exact h.cutRound i 4
  | restart i n date time =>
    have hcut := h.cutRound i n
    exact balanced_createAmt hcut.savedDaily hcut.savedMon date time

theorem Balanced.run (events : List Event) :
    ∀ {s : Monitor}, Balanced s → Balanced (run s events) := by
  induction events with
  | nil => exact fun h => h
  | cons e events ih => exact fun h => ih (h.exec e)

/-! ### The records of the days -/

def written (s : Monitor) : Bytes := (s.dailies.map Daily.bytes).sum

/-- What is not yet written: the base of the day less its offset completes the records to
    the base loaded at the start. -/
def Carries (load : Bytes) (s : Monitor) : Prop := written s + s.basedaily - s.dailyoffset = load

variable {load : Bytes} {i : Input}

theorem carries_createAmt (b : Backup) (date : Date) (time : Int) :
    Carries b.daily.load (createAmt b date time) := by
  simp [Carries, written, createAmt]

theorem written_add_currdaily (h : Carries load s) (i : Input) :
    written (update i s) + (update i s).currdaily = (update i s).val + load := by
  rw [← h]
  change written s + (i.sample - s.dailyoffset + s.basedaily) = i.sample + _
  ext <;> simp <;> omega

theorem Carries.checkTime (h : Carries load s)
    (hcurr : s.currdaily = s.val - s.dailyoffset + s.basedaily) (i : Input) :
    Carries load (checkTime i s) := by
  by_cases hday : dayChange i s = true
  · -- the record closes the day, and offset and base start the new one
    obtain ⟨hdailies, -, hbase, hoffset, -⟩ := checkTime_day i s hday
    rw [Carries, written, hdailies, hbase, hoffset, ← h, written, map_append,
      sum_append, map_singleton, hcurr]
    ext <;> simp <;> omega
  · rw [checkTime_same i s hday]
    exact h

theorem Carries.checkBackup (h : Carries load s) (i : Input) : Carries load (checkBackup i s) := by
  obtain ⟨backup, bstartime, heq, -⟩ := checkBackup_eq i s
  rw [heq]
  exact h

theorem checkreset_of_none (hreset : i.bwreset = none) (s : Monitor) : checkreset i s = s := by
  rw [checkreset, hreset]

theorem round_of_none (hreset : i.bwreset = none) (s : Monitor) :
    round i s = checkBackup i (checkTime i (update i s)) := by
  rw [round, checkreset_of_none hreset]

theorem Carries.round (h : Carries load s) (hreset : i.bwreset = none) :
    Carries load (round i s) := by
  rw [round_of_none hreset]
  have hupdate : Carries load (BandwidthMonitor.update i s) := h
  exact (hupdate.checkTime rfl i).checkBackup i

theorem Carries.rounds (rounds : List Input) :
    ∀ {s : Monitor}, Carries load s → (∀ j ∈ rounds, j.bwreset = none) →
      Carries load (rounds.foldl (fun s j => BandwidthMonitor.round j s) s) := by
  induction rounds with
  | nil => exact fun h _ => h
  | cons j rounds ih =>
    intro s h hreset
    exact ih (h.round (hreset j mem_cons_self))
      fun j' hj' => hreset j' (mem_cons_of_mem _ hj')

/-- What belongs to the current day at the end of a round.  The script has no such variable: behind
    a day change `currdaily` still holds the figure of the finished day, until the next `update`. -/
def today (i : Input) (s : Monitor) : Bytes :=
  if dayChange i s then 0 else (round i s).currdaily

theorem written_add_today (h : Carries load s) (hreset : i.bwreset = none) :
    written (round i s) + today i s = (round i s).val + load := by
  obtain ⟨backup, bstartime, heq, -⟩ := checkBackup_eq i (checkTime i (update i s))
  rw [today, round_of_none hreset, heq]
  change written (checkTime i (update i s)) +
    (if dayChange i s then 0 else (checkTime i (update i s)).currdaily) =
      (checkTime i (update i s)).val + load
  by_cases hday : dayChange i s = true
  · obtain ⟨-, -, hbase, hoffset, -⟩ := checkTime_day i (update i s) hday
    have hupdate : Carries load (update i s) := h
    have hclosed := hupdate.checkTime rfl i
    rw [Carries, hbase, hoffset] at hclosed
    rw [if_pos hday, ← hclosed]
    ext <;> simp
  · rw [if_neg hday, checkTime_same i (update i s) hday]
    exact written_add_currdaily h i

/-- **The daily records add up.**  In a run without restart and reset the records written
    so far and the figure of the current day are the counters and the base loaded at the
    start, behind every `update` and at the end of every round.  And in every state of
    every run, through resets, new months and restarts at any place, each figure is the sum
    of its two directions if the figures of the first backup are. -/
theorem dailies_add_up (b : Backup) (date : Date) (time : Int) :
    (∀ (rounds : List Input) (i : Input), (∀ j ∈ rounds, j.bwreset = none) →
      let s := rounds.foldl (fun s j => round j s) (createAmt b date time)
      written (update i s) + (update i s).currdaily = (update i s).val + b.daily.load ∧
      (i.bwreset = none → written (round i s) + today i s = (round i s).val + b.daily.load)) ∧
    (b.daily.load.Split → b.mon.load.Split → ∀ (events : List Event) (i : Input) (n : Nat),
      let s := cutRound i n (run (createAmt b date time) events)
      s.currdaily.Split ∧ s.currmon.Split ∧ s.backup.daily.load.Split ∧
        s.backup.mon.load.Split) := by
  constructor
  · intro rounds i hreset
    have hcarries := (carries_createAmt b date time).rounds rounds hreset
    exact ⟨written_add_currdaily hcarries i, written_add_today hcarries⟩
  · intro hdaily hmon events i n
    have hbalanced := ((balanced_createAmt hdaily hmon date time).run events).cutRound i n
    exact ⟨hbalanced.currdaily, hbalanced.currmon, hbalanced.savedDaily, hbalanced.savedMon⟩

def finding (rx tx : Nat) (date : Date) (bwreset : Option Int) (currtime : Int) : Input where
  maxmodem := 1
  net name := if name = "wan1".toList then ⟨true, rx, tx⟩ else ⟨false, 0, 0⟩
  bwreset := bwreset
  date := date
  currtime := currtime
  rollover := none
  backupMinutes := 30
  enabled := true

def noBackup : Backup := ⟨(0 : Bytes).store, (0 : Bytes).store, none, none⟩

def june9 : Date where
  year := 2024
  month := 6
  day := 9

def june10 : Date where
  year := 2024
  month := 6
  day := 10

/-- 100 bytes on the first day and 50 on the second. -/
theorem dailies_add_up_two_days :
    let s := [finding 60 40 june9 none 0, finding 60 40 june10 none 10].foldl
      (fun s j => round j s) (createAmt noBackup june9 0)
    let t := update (finding 90 60 june10 none 20) s
    written t = ⟨100, 60, 40⟩ ∧ t.currdaily = ⟨50, 30, 20⟩ ∧
      written t + t.currdaily = t.val + noBackup.daily.load ∧ t.currmon.Split := by
  have hadd := dailies_add_up noBackup june9 0
  refine ⟨by decide, by decide, ?_, ?_⟩
  · exact (hadd.1 [finding 60 40 june9 none 0, finding 60 40 june10 none 10]
      (finding 90 60 june10 none 20) (by decide)).1
  · exact (hadd.2 rfl rfl [.round (finding 60 40 june9 none 0),
      .round (finding 60 40 june10 none 10)] (finding 90 60 june10 none 20) 1).2.1

/-! ### Backups -/

def Event.input : Event → Input
  | .round i => i
  | .restart i _ _ _ => i

/-- How many procedures of the round are run. -/
def Event.count : Event → Nat
  | .round _ => 4
  | .restart _ n _ _ => n

def step (s : Monitor) (e : Event) : Option Monitor := some (exec s e)

section

variable (i : Input) (n : Nat) (s : Monitor)

def saves : Bool := 4 ≤ n && fires i s

/-- The figures of the day start anew: by a reset or with a new day. -/
def clearsDay : Bool := (2 ≤ n && i.bwreset.isSome) || (3 ≤ n && dayChange i s)

def clearsMon : Bool := (2 ≤ n && i.bwreset.isSome) || (3 ≤ n && newMonth i s)

/-- What a restart behind the first `n` procedures of a round takes up.  It is what the offsets and
    bases in force give if it was just saved; figures that start anew are those of the new base, and
    not what was cleared or belongs to a finished day; else it is what it was before the round. -/
structure Restores : Prop where
  daily : ∀ date time, (createAmt (cutRound i n s).backup date time).basedaily =
    let t := cutRound i n s
    if saves i n s then t.val - t.dailyoffset + t.basedaily
    else if clearsDay i n s then t.basedaily
    else (createAmt s.backup date time).basedaily
  mon : ∀ date time, (createAmt (cutRound i n s).backup date time).basemon =
    let t := cutRound i n s
    if saves i n s then t.val - t.monoffset + t.basemon
    else if clearsMon i n s then t.basemon
    else (createAmt s.backup date time).basemon
  date : (cutRound i n s).backup.date =
    if saves i n s || 3 ≤ n && dayChange i s then some (cutRound i n s).cDate else s.backup.date

/-! #### When it does -/

/-- The figures of the day and of the month when the round begins. -/
def usedToday : Bytes := i.sample - s.dailyoffset + s.basedaily

def usedMonth : Bytes := i.sample - s.monoffset + s.basemon

/-- What the backup holds when `checkTime` is reached. -/
def heldDaily : Bytes := if i.bwreset.isSome then 0 else s.backup.daily.load

def heldMon : Bytes := (i.bwreset.map fun newbw => ⟨newbw, newbw, 0⟩).getD s.backup.mon.load

/-- In a round that saves, no figure is cleared that is not as the reset or the new day leaves it
    anyway; in one that does not, no day and no month begins while the backup holds usage. -/
structure Calm : Prop where
  savedDaily : saves i n s = true → clearsDay i n s = true → usedToday i s = 0
  savedMon : saves i n s = true → newMonth i s = false →
    ∀ newbw, i.bwreset = some newbw → usedMonth i s = ⟨newbw, newbw, 0⟩
  heldDaily : saves i n s = false → 3 ≤ n → dayChange i s = true → heldDaily i s = 0
  heldMon : saves i n s = false → 3 ≤ n → newMonth i s = true → heldMon i s = 0

end

/-! #### The figures behind `checkTime` -/

section Figures

variable (i : Input) (s : Monitor)

theorem behindReset_daily : let u := checkreset i (update i s)
    u.backup.daily.load = heldDaily i s ∧ u.currdaily = usedToday i s ∧
      u.val - u.dailyoffset + u.basedaily = (if i.bwreset.isSome then 0 else usedToday i s) ∧
      (i.bwreset.isSome = true → u.basedaily = 0) := by
  unfold checkreset heldDaily
  cases i.bwreset with
  | none => exact ⟨rfl, rfl, rfl, fun h => absurd h Bool.false_ne_true⟩
  | some newbw => exact ⟨rfl, rfl, by simp, fun _ => rfl⟩

theorem behindReset_mon : let u := checkreset i (update i s)
    u.backup.mon.load = heldMon i s ∧ u.currmon = usedMonth i s ∧
      u.val - u.monoffset + u.basemon =
        (i.bwreset.map fun newbw => (⟨newbw, newbw, 0⟩ : Bytes)).getD (usedMonth i s) ∧
      (i.bwreset.isSome = true → u.basemon = heldMon i s) := by
  unfold checkreset heldMon
  cases i.bwreset with
  | none => exact ⟨rfl, rfl, rfl, fun h => absurd h Bool.false_ne_true⟩
  | some newbw => exact ⟨rfl, rfl, by simp, fun _ => rfl⟩

theorem behindTime_daily : let t := checkTime i (checkreset i (update i s))
    t.backup.daily.load = heldDaily i s ∧ t.currdaily = usedToday i s ∧
      t.val - t.dailyoffset + t.basedaily = (if clearsDay i 3 s then 0 else usedToday i s) ∧
      (clearsDay i 3 s = true → t.basedaily = 0) := by
  obtain ⟨hheld, hcurr, hfigure, hbase⟩ := behindReset_daily i s
  obtain ⟨hcurr', hbackup, -⟩ := checkTime_held i (checkreset i (update i s))
  refine ⟨(congrArg Stored.load hbackup).trans hheld, hcurr'.trans hcurr, ?_⟩
  by_cases hday : dayChange i s = true
  · obtain ⟨-, -, hzero, hoffset, -⟩ := checkTime_day i (checkreset i (update i s))
      ((dayChange_checkreset i s).trans hday)
    rw [val_checkTime, hzero, hoffset]
    simp [clearsDay, hday]
  · rw [checkTime_same i _ (by rwa [dayChange_checkreset])]
    simpa [clearsDay, hday] using ⟨hfigure, hbase⟩

theorem behindTime_mon : let t := checkTime i (checkreset i (update i s))
    t.backup.mon.load = heldMon i s ∧ t.currmon = (if newMonth i s then 0 else usedMonth i s) ∧
      t.val - t.monoffset + t.basemon = (if newMonth i s then 0 else
        (i.bwreset.map fun newbw => (⟨newbw, newbw, 0⟩ : Bytes)).getD (usedMonth i s)) ∧
      (clearsMon i 3 s = true → t.basemon = if newMonth i s then 0 else heldMon i s) := by
  obtain ⟨hheld, hcurr, hfigure, hbase⟩ := behindReset_mon i s
  obtain ⟨-, -, hbackup, -⟩ := checkTime_held i (checkreset i (update i s))
  refine ⟨(congrArg Stored.load hbackup).trans hheld, ?_⟩
  by_cases hmonth : newMonth i s = true
  · obtain ⟨hzero, hbase', hoffset, -⟩ := checkTime_newMonth i (checkreset i (update i s))
      ((newMonth_checkreset i s).trans hmonth)
    rw [val_checkTime, hzero, hbase', hoffset]
    simp [hmonth]
  · obtain ⟨hsame, hbase', hoffset, -⟩ := checkTime_sameMonth i (checkreset i (update i s))
      (by rwa [newMonth_checkreset])
    rw [val_checkTime, hsame, hbase', hoffset]
    simpa [clearsMon, hmonth] using ⟨hcurr, hfigure, hbase⟩

theorem fires_behindTime : fires i (checkTime i (checkreset i (update i s))) = fires i s := by
  have hstart : (checkreset i (update i s)).bstartime = s.bstartime := by
    unfold checkreset
    split <;> rfl
  unfold fires
  rw [(checkTime_held i _).2.2.2, hstart]

theorem cutRound_of_three_le {n : Nat} (hn : 3 ≤ n) :
    let t := checkTime i (checkreset i (update i s))
    ∃ bstartime, cutRound i n s =
      { t with
        bstartime := bstartime
        backup := if saves i n s then
            { t.backup with
              daily := t.currdaily.store, mon := t.currmon.store, date := some t.cDate }
          else t.backup } := by
  match n, hn with
  | 3, _ => exact ⟨_, rfl⟩
  | n + 4, _ =>
    have hsaves : saves i (n + 4) s = fires i (checkTime i (checkreset i (update i s))) := by
      rw [fires_behindTime]
      simp [saves]
    have hround : cutRound i (n + 4) s = round i s := by simp [cutRound, procedures, round]
    rw [hround, round, checkBackup, hsaves]
    split
    · exact ⟨_, rfl⟩
    · exact ⟨_, rfl⟩

theorem date_cutRound {n : Nat} (hn : 3 ≤ n) : (cutRound i n s).backup.date =
    if saves i n s || 3 ≤ n && dayChange i s then some (cutRound i n s).cDate
    else s.backup.date := by
  obtain ⟨bstartime, hcut⟩ := cutRound_of_three_le i s hn
  rw [hcut]
  by_cases hchange : dayChange i s = true
  · obtain ⟨-, hcDate, -, -, hsaved⟩ := checkTime_day i (checkreset i (update i s))
      ((dayChange_checkreset i s).trans hchange)
    cases hsaves : saves i n s <;> simp [hn, hchange, hcDate, hsaved]
  · rw [checkTime_same i _ (by rwa [dayChange_checkreset])]
    have hkeep : (checkreset i (update i s)).backup.date = s.backup.date := by
      unfold checkreset
      split <;> rfl
    cases hsaves : saves i n s <;> simp [hchange, hkeep]

theorem clearsDay_of_three_le {n : Nat} (hn : 3 ≤ n) : clearsDay i n s = clearsDay i 3 s := by
  simp [clearsDay, hn, show 2 ≤ n by omega]

theorem clearsMon_of_three_le {n : Nat} (hn : 3 ≤ n) : clearsMon i n s = clearsMon i 3 s := by
  simp [clearsMon, hn, show 2 ≤ n by omega]

end Figures

/-! #### Each kind of round -/

section Rounds

variable {i : Input} {n : Nat} {s : Monitor}

/-- Up to a reset nothing can go wrong: it sets bases and backup to the same figures. -/
theorem restores_of_lt_three (hn : n < 3) : Restores i n s := by
  match n, hn with
  | 0, _ => exact ⟨fun _ _ => rfl, fun _ _ => rfl, rfl⟩
  | 1, _ => exact ⟨fun _ _ => rfl, fun _ _ => rfl, rfl⟩
  | 2, _ =>
    have hcut : cutRound i 2 s = checkreset i (update i s) := rfl
    unfold checkreset at hcut
    cases hreset : i.bwreset <;> rw [hreset] at hcut
    · exact ⟨by simp [hcut, saves, clearsDay, hreset, createAmt, update],
        by simp [hcut, saves, clearsMon, hreset, createAmt, update],
        by simp [hcut, saves, update]⟩
    · exact ⟨fun _ _ => by simp [hcut, saves, clearsDay, hreset, createAmt, update]; rfl,
        fun _ _ => by simp [hcut, saves, clearsMon, hreset, createAmt, update]; rfl,
        by simp [hcut, saves, update]⟩

/-- A round that does not save leaves the usage before it in the backup, also behind `checkTime`. -/
theorem restores_iff_of_held (hn : 3 ≤ n) (hsaves : saves i n s = false) :
    Restores i n s ↔ Calm i n s := by
  obtain ⟨bstartime, hcut⟩ := cutRound_of_three_le i s hn
  obtain ⟨hheld, -, -, hbase⟩ := behindTime_daily i s
  obtain ⟨hheldMon, -, -, hbaseMon⟩ := behindTime_mon i s
  have hdaily : ∀ date time, (createAmt (cutRound i n s).backup date time).basedaily =
      heldDaily i s := by
    intro date time
    rw [hcut, hsaves]
    exact hheld
  have hmonth : ∀ date time, (createAmt (cutRound i n s).backup date time).basemon =
      heldMon i s := by
    intro date time
    rw [hcut, hsaves]
    exact hheldMon
  refine ⟨fun h => ⟨by simp [hsaves], by simp [hsaves], fun _ _ hchange => ?_, fun _ _ hnew => ?_⟩,
    fun h => ⟨fun date time => ?_, fun date time => ?_, date_cutRound i s hn⟩⟩
  · have hclears : clearsDay i 3 s = true := by simp [clearsDay, hchange]
    have hrestored := h.daily s.cDate 0
    rw [hdaily, hsaves, clearsDay_of_three_le i s hn, hclears, hcut] at hrestored
    exact hrestored.trans (hbase hclears)
  · have hclears : clearsMon i 3 s = true := by simp [clearsMon, hnew]
    have hrestored := h.mon s.cDate 0
    rw [hmonth, hsaves, clearsMon_of_three_le i s hn, hclears, hcut] at hrestored
    exact hrestored.trans ((hbaseMon hclears).trans (if_pos hnew))
  · rw [hdaily, hsaves, clearsDay_of_three_le i s hn, hcut]
    by_cases hclears : clearsDay i 3 s = true
    · by_cases hchange : dayChange i s = true
      · simp [hclears, hbase hclears, h.heldDaily hsaves hn hchange]
      · have hreset : i.bwreset.isSome = true := by simpa [clearsDay, hchange] using hclears
        simp [hclears, hbase hclears, heldDaily, hreset]
    · have hreset : i.bwreset.isSome = false := by
        simp only [clearsDay, Bool.or_eq_true, not_or] at hclears
        simpa using hclears.1
      simp [hclears, heldDaily, hreset, createAmt]
  · rw [hmonth, hsaves, clearsMon_of_three_le i s hn, hcut]
    by_cases hclears : clearsMon i 3 s = true
    · by_cases hnew : newMonth i s = true
      · simp [hclears, hbaseMon hclears, hnew, h.heldMon hsaves hn hnew]
      · simp [hclears, hbaseMon hclears, hnew]
    · have hreset : i.bwreset = none := by
        simp only [clearsMon, Bool.or_eq_true, not_or] at hclears
        simpa using hclears.1
      simp [hclears, heldMon, hreset, createAmt]

/-- A round that saves stores the figures computed by `update`, before anything was cleared. -/
theorem restores_iff_of_saves (hn : 3 ≤ n) (hsaves : saves i n s = true) :
    Restores i n s ↔ Calm i n s := by
  obtain ⟨bstartime, hcut⟩ := cutRound_of_three_le i s hn
  obtain ⟨-, hcurr, hfigure, -⟩ := behindTime_daily i s
  obtain ⟨-, hcurrMon, hfigureMon, -⟩ := behindTime_mon i s
  have hday := clearsDay_of_three_le i s hn
  have hdaily : ∀ date time, (createAmt (cutRound i n s).backup date time).basedaily =
      usedToday i s := by
    intro date time
    rw [hcut, hsaves]
    exact hcurr
  have hmonth : ∀ date time, (createAmt (cutRound i n s).backup date time).basemon =
      if newMonth i s then 0 else usedMonth i s := by
    intro date time
    rw [hcut, hsaves]
    exact hcurrMon
  refine ⟨fun h => ⟨fun _ hclears => ?_, fun _ hnew newbw hreset => ?_, by simp [hsaves],
    by simp [hsaves]⟩,
    fun h => ⟨fun date time => ?_, fun date time => ?_, date_cutRound i s hn⟩⟩
  · have hrestored := h.daily s.cDate 0
    rw [hdaily, hsaves, hcut] at hrestored
    exact hrestored.trans (hfigure.trans (if_pos (hday ▸ hclears)))
  · have hrestored := h.mon s.cDate 0
    rw [hmonth, hsaves, hcut, if_neg (by simp [hnew])] at hrestored
    refine hrestored.trans (hfigureMon.trans ?_)
    simp [hnew, hreset]
  · rw [hdaily, hsaves, hcut]
    refine Eq.trans ?_ hfigure.symm
    split
    next hclears => exact h.savedDaily hsaves (hday ▸ hclears)
    · rfl
  · rw [hmonth, hsaves, hcut]
    refine Eq.trans ?_ hfigureMon.symm
    split
    · rfl
    next hnew =>
      rcases hreset : i.bwreset with _ | newbw
      · rfl
      · exact h.savedMon hsaves (Bool.eq_false_iff.mpr hnew) newbw hreset

end Rounds

/-- A restart behind any procedure takes up what it should exactly if the round is calm. -/
theorem restores_iff_calm (i : Input) (n : Nat) (s : Monitor) : Restores i n s ↔ Calm i n s := by
  rcases Nat.lt_or_ge n 3 with hn | hn
  · have hno : saves i n s = false := by simp [saves]; omega
    exact iff_of_true (restores_of_lt_three hn)
      ⟨by simp [hno], by simp [hno], fun _ h => absurd h (by omega), fun _ h => absurd h (by omega)⟩
  · cases hsaves : saves i n s
    · exact restores_iff_of_held hn hsaves
    · exact restores_iff_of_saves hn hsaves

/-- **Restarts of calm rounds.**  In every run, with restarts at any place, a restart takes up the
    figures in force when they were saved, and nothing that was cleared since, exactly if every
    round of the run is calm. -/
theorem saves_consistently (b : Backup) (date : Date) (time : Int) (events : List Event) :
    Admitted step (fun s e => Restores e.input e.count s) (createAmt b date time) events ↔
      Admitted step (fun s e => Calm e.input e.count s) (createAmt b date time) events :=
  ⟨Admitted.imp (fun _ _ h => (restores_iff_calm _ _ _).mp h) events _,
    Admitted.imp (fun _ _ h => (restores_iff_calm _ _ _).mpr h) events _⟩

def july1 : Date where
  year := 2024
  month := 7
  day := 1
  day_pos := Nat.one_pos

/-- **Cleared usage is revived.**  A reset in the round of the backup; a new day in the round of the
    backup; and a new day and month in a round behind it: a restart finds the 100 bytes that were
    saved on 9 June, as those of 1 July and of the new month. -/
theorem not_savesConsistently :
    ¬ Restores (finding 60 40 june9 (some 0) 1801) 4 (createAmt noBackup june9 0) ∧
      ¬ Restores (finding 60 40 june10 none 1801) 4 (createAmt noBackup june9 0) ∧
      let s := round (finding 60 40 june9 none 1801) (createAmt noBackup june9 0)
      let t := round (finding 60 40 july1 none 1811) s
      ¬ Restores (finding 60 40 july1 none 1811) 4 s ∧ (createAmt t.backup july1 0).cDate = july1 ∧
        (createAmt t.backup july1 0).basedaily = ⟨100, 60, 40⟩ ∧
        (createAmt t.backup july1 0).basemon = ⟨100, 60, 40⟩ := by
  refine ⟨fun h => ?_, fun h => ?_, fun h => ?_, rfl, by decide, by decide⟩
  · exact absurd (h.daily june9 0) (by decide)
  · exact absurd (h.daily june9 0) (by decide)
  · exact absurd (h.daily june9 0) (by decide)

/-! ### Usage -/

/-- What happens to an interface between two samples.  Its counters grow while it is up;
    when it comes up again they may have been restarted. -/
inductive LinkEvent where
  | transfer (rx tx : Nat)
  | down
  | up (restart : Bool)

namespace Interface

def after (i : Interface) : LinkEvent → Interface
  | .transfer rx tx => if i.up then ⟨true, i.rxBytes + rx, i.txBytes + tx⟩ else i
  | .down => { i with up := false }
  | .up restart =>
      if i.up then i else if restart then ⟨true, 0, 0⟩ else { i with up := true }

def reading (i : Interface) : Int := if i.up then i.rxBytes + i.txBytes else 0

def transferredBy (i : Interface) : LinkEvent → Int
  | .transfer rx tx => if i.up then rx + tx else 0
  | _ => 0

/-- The counted bytes that the monitor ceases to read when the interface goes down, less
    those that it reads again when the interface comes up with its counters kept. -/
def droppedBy (i : Interface) : LinkEvent → Int
  | .down => i.reading
  | .up false => if i.up then 0 else -(i.rxBytes + i.txBytes)
  | _ => 0

theorem reading_after (i : Interface) (e : LinkEvent) :
    (i.after e).reading = i.reading + i.transferredBy e - i.droppedBy e := by
  cases e with
  | transfer rx tx =>
    cases hup : i.up
    · simp [after, transferredBy, droppedBy, hup]
    · simp only [after, reading, transferredBy, droppedBy, hup, if_true]
      omega
  | down => simp [after, reading, transferredBy, droppedBy]
  | up restart =>
    cases hup : i.up <;> cases restart <;> simp [after, reading, transferredBy, droppedBy, hup]

def along (quantity : Interface → LinkEvent → Int) : Interface → List LinkEvent → Int
  | _, [] => 0
  | i, e :: events => quantity i e + along quantity (i.after e) events

theorem reading_foldl (events : List LinkEvent) : ∀ i : Interface,
    (events.foldl after i).reading =
      i.reading + along transferredBy i events - along droppedBy i events := by
  induction events with
  | nil => intro i; simp [along]
  | cons e events ih =>
    intro i
    rw [foldl_cons, ih (i.after e), reading_after i e, along, along]
    omega

theorem along_transferredBy_nonneg (events : List LinkEvent) : ∀ i : Interface,
    0 ≤ along transferredBy i events := by
  induction events with
  | nil => intro i; exact Int.le_refl 0
  | cons e events ih =>
    intro i
    have hone : 0 ≤ i.transferredBy e := by
      cases e with
      | transfer rx tx =>
        simp only [transferredBy]
        split <;> omega
      | down => exact Int.le_refl 0
      | up restart => exact Int.le_refl 0
    have hrest := ih (i.after e)
    rw [along]
    omega

end Interface

structure World where
  maxmodem : Nat
  net : List Char → Interface
  monitor : Monitor

/-- The traffic up to the next sample, and what else the round finds. -/
structure Turn where
  traffic : List Char → List LinkEvent
  input : Input

namespace World

def input (w : World) (t : Turn) : Input :=
  { t.input with
    maxmodem := w.maxmodem
    net := fun name => (t.traffic name).foldl Interface.after (w.net name) }

def turn (w : World) (t : Turn) : World :=
  { w with net := (w.input t).net, monitor := round (w.input t) w.monitor }

def currmontotal (w : World) (t : Turn) : Int := (update (w.input t) w.monitor).currmon.total

def overall (w : World) (quantity : Interface → LinkEvent → Int) (t : Turn) : Int :=
  ((interfaces w.maxmodem).map fun name =>
    Interface.along quantity (w.net name) (t.traffic name)).sum

def transferred (w : World) (t : Turn) : Int := w.overall Interface.transferredBy t

def dropped (w : World) (t : Turn) : Int := w.overall Interface.droppedBy t

def Uninterrupted (w : World) (t : Turn) : Prop :=
  t.input.bwreset = none ∧ newMonth (w.input t) w.monitor = false

/-- From sample to sample the total does not decrease, and it increases at least by what
    was transferred. -/
def KeepsUsage : World → List Turn → Prop
  | w, a :: b :: turns =>
      (w.Uninterrupted a → w.currmontotal a ≤ (w.turn a).currmontotal b ∧
        w.currmontotal a + (w.turn a).transferred b ≤ (w.turn a).currmontotal b) ∧
      KeepsUsage (w.turn a) (b :: turns)
  | _, _ => True

/-- From sample to sample the interfaces that go down take no more bytes out of the
    readings than others bring back. -/
def NothingDropped : World → List Turn → Prop
  | w, a :: b :: turns =>
      (w.Uninterrupted a → (w.turn a).dropped b ≤ 0) ∧ NothingDropped (w.turn a) (b :: turns)
  | _, _ => True

end World

theorem deviceGetStats_add (i : Interface) :
    (deviceGetStats i Interface.rxBytes : Int) + deviceGetStats i Interface.txBytes =
      i.reading := by
  cases hup : i.up <;> simp [deviceGetStats, Interface.reading, hup]

theorem Input.total_sample (i : Input) :
    i.sample.total = ((interfaces i.maxmodem).map fun name => (i.net name).reading).sum := by
  change i.sum Interface.rxBytes + i.sum Interface.txBytes = _
  rw [Input.sum, Input.sum, ← sum_map_add]
  simp only [deviceGetStats_add]

namespace World

variable (w : World) (a b : Turn)

/-- From sample to sample the sum of the readings grows by what was transferred and falls
    by what was dropped. -/
theorem total_sample_input :
    (w.input b).sample.total =
      ((interfaces w.maxmodem).map fun name => (w.net name).reading).sum +
        w.transferred b - w.dropped b := by
  have hsum : (w.input b).sample.total + w.dropped b =
      ((interfaces w.maxmodem).map fun name => (w.net name).reading).sum + w.transferred b := by
    rw [Input.total_sample, transferred, dropped, overall, overall]
    change ((interfaces w.maxmodem).map _).sum + _ = _
    rw [← sum_map_add, ← sum_map_add]
    refine congrArg sum (map_congr_left fun name _ => ?_)
    have hone := Interface.reading_foldl (b.traffic name) (w.net name)
    change ((b.traffic name).foldl Interface.after (w.net name)).reading + _ = _
    omega
  omega

theorem total_sample_turn :
    ((w.turn a).input b).sample.total =
      (w.input a).sample.total + (w.turn a).transferred b - (w.turn a).dropped b := by
  rw [total_sample_input, Input.total_sample (w.input a)]
  rfl

/-- An uninterrupted round leaves the base and the offset of the month as they are. -/
theorem Uninterrupted.mon {w : World} {a : Turn} (h : w.Uninterrupted a) :
    (w.turn a).monitor.basemon = w.monitor.basemon ∧
      (w.turn a).monitor.monoffset = w.monitor.monoffset := by
  obtain ⟨hnone, hmonth⟩ := h
  have hreset : (w.input a).bwreset = none := hnone
  obtain ⟨backup, bstartime, heq, -⟩ :=
    checkBackup_eq (w.input a) (checkTime (w.input a) (update (w.input a) w.monitor))
  have hround : (w.turn a).monitor = _ := (round_of_none hreset w.monitor).trans heq
  have hsame := checkTime_sameMonth (w.input a) (update (w.input a) w.monitor)
    (by rw [Bool.not_eq_true]; exact hmonth)
  rw [hround]
  exact ⟨hsame.2.1, hsame.2.2.1⟩

theorem Uninterrupted.currmontotal {w : World} {a : Turn} (h : w.Uninterrupted a) (b : Turn) :
    (w.turn a).currmontotal b =
      w.currmontotal a + (w.turn a).transferred b - (w.turn a).dropped b := by
  obtain ⟨hbase, hoffset⟩ := h.mon
  change (((w.turn a).input b).sample - (w.turn a).monitor.monoffset +
      (w.turn a).monitor.basemon).total =
    ((w.input a).sample - w.monitor.monoffset + w.monitor.basemon).total + _ - _
  rw [hbase, hoffset]
  simp only [Bytes.total_add, Bytes.total_sub, total_sample_turn]
  omega

theorem transferred_nonneg : 0 ≤ w.transferred b := by
  refine sum_nonneg fun x hx => ?_
  obtain ⟨name, -, rfl⟩ := mem_map.mp hx
  exact Interface.along_transferredBy_nonneg _ _

/-- **When no usage is lost.**  In every run of the loop the month's total keeps all usage,
    from sample to sample between resets and new months, exactly when the interfaces that
    go down take no more counted bytes with them than interfaces bring back that come up
    with their counters kept. -/
theorem keepsUsage_iff (turns : List Turn) : ∀ w : World,
    w.KeepsUsage turns ↔ w.NothingDropped turns := by
  induction turns with
  | nil => exact fun _ => Iff.rfl
  | cons a turns ih =>
    intro w
    cases turns with
    | nil => exact Iff.rfl
    | cons b turns =>
      refine and_congr (imp_congr_right fun hquiet => ?_) (ih (w.turn a))
      have hcurr := hquiet.currmontotal b
      have hnonneg := (w.turn a).transferred_nonneg b
      omega

end World

def modemTraffic (events : List LinkEvent) (name : List Char) : List LinkEvent :=
  if name = "wan1".toList then events else []

def freshModem : World where
  maxmodem := 1
  net name := ⟨name = "wan1".toList, 0, 0⟩
  monitor := createAmt noBackup june9 0

def turnOn (date : Date) (events : List LinkEvent) : Turn :=
  ⟨modemTraffic events, finding 0 0 date none 0⟩

/-- **Usage is lost.**  The modem has transferred 100 bytes when its link goes down; the
    month's total falls back to zero. -/
theorem not_keepsUsage :
    ¬ freshModem.KeepsUsage [turnOn june9 [.transfer 60 40], turnOn june9 [.down]] := by
  intro hkeeps
  exact absurd (hkeeps.1 ⟨rfl, by decide⟩).1 (by decide)

end Rooter.BandwidthMonitor
