import Mathlib.Algebra.Ring.Int.Defs
import Mathlib.Algebra.BigOperators.Group.List.Basic
import Rooter.Calendar
import Rooter.Numeral

/-!
# The bandwidth monitor

Model of `bwmon.sh`.  The script keeps six totals: what was transferred today and in the
current billing period, in both directions, in one and in the other.  Each is the sum of the
interfaces' byte counters less an offset plus a base.  Both are set anew when a day or a
period ends and when the user resets the figures; from time to time the totals are saved, and
after a restart they are the new bases.

A round of the loop is `update; checkreset; checkTime; checkBackup`.  The shell's numbers
are integers without bound here.  All interfaces and the date are sampled at one moment.
-/

namespace Rooter.BandwidthMonitor

open Calendar Numeral

/-! ### Totals -/

@[ext]
structure Bytes where
  total : Int
  rx : Int
  tx : Int
deriving DecidableEq, Repr

namespace Bytes

instance : Zero Bytes := ⟨⟨0, 0, 0⟩⟩

instance : Add Bytes := ⟨fun a b => ⟨a.total + b.total, a.rx + b.rx, a.tx + b.tx⟩⟩

instance : Sub Bytes := ⟨fun a b => ⟨a.total - b.total, a.rx - b.rx, a.tx - b.tx⟩⟩

instance : Neg Bytes := ⟨fun a => ⟨-a.total, -a.rx, -a.tx⟩⟩

@[simp] theorem total_zero : (0 : Bytes).total = 0 := rfl
@[simp] theorem rx_zero : (0 : Bytes).rx = 0 := rfl
@[simp] theorem tx_zero : (0 : Bytes).tx = 0 := rfl
@[simp] theorem total_add (a b : Bytes) : (a + b).total = a.total + b.total := rfl
@[simp] theorem rx_add (a b : Bytes) : (a + b).rx = a.rx + b.rx := rfl
@[simp] theorem tx_add (a b : Bytes) : (a + b).tx = a.tx + b.tx := rfl
@[simp] theorem total_sub (a b : Bytes) : (a - b).total = a.total - b.total := rfl
@[simp] theorem rx_sub (a b : Bytes) : (a - b).rx = a.rx - b.rx := rfl
@[simp] theorem tx_sub (a b : Bytes) : (a - b).tx = a.tx - b.tx := rfl
@[simp] theorem total_neg (a : Bytes) : (-a).total = -a.total := rfl
@[simp] theorem rx_neg (a : Bytes) : (-a).rx = -a.rx := rfl
@[simp] theorem tx_neg (a : Bytes) : (-a).tx = -a.tx := rfl

instance : AddCommGroup Bytes where
  add_assoc a b c := by ext <;> simp [add_assoc]
  zero_add a := by ext <;> simp
  add_zero a := by ext <;> simp
  add_comm a b := by ext <;> simp [add_comm]
  sub_eq_add_neg a b := by ext <;> simp [sub_eq_add_neg]
  neg_add_cancel a := by ext <;> simp
  nsmul := nsmulRec
  zsmul := zsmulRec

end Bytes

/-- Three options of the uci section `bwmon.backup`; an option may be missing. -/
structure Stored where
  total : Option Int
  rx : Option Int
  tx : Option Int

/-- `createAmt` takes a missing option for zero. -/
def Stored.load (s : Stored) : Bytes := ⟨s.total.getD 0, s.rx.getD 0, s.tx.getD 0⟩

def Bytes.store (b : Bytes) : Stored := ⟨some b.total, some b.rx, some b.tx⟩

/-- The section `bwmon.backup`; `date` is absent while its `year` is 0. -/
structure Backup where
  daily : Stored
  mon : Stored
  date : Option Date
  rollmon : Option Nat

/-- What the script writes to `daily.js` at the end of a day. -/
structure Daily where
  bytes : Bytes
  date : Date

/-- The variables of the script, with the section it saves to and the records it has
    written to `daily.js` since its start. -/
structure Monitor where
  backup : Backup
  dailies : List Daily
  cDate : Date
  basedaily : Bytes
  basemon : Bytes
  dailyoffset : Bytes
  monoffset : Bytes
  val : Bytes
  currdaily : Bytes
  currmon : Bytes
  bstartime : Int

/-! ### Interfaces -/

/-- What `ubus` reports of an interface and of its device. -/
structure Interface where
  up : Bool
  rxBytes : Nat
  txBytes : Nat

def deviceGetStats (i : Interface) (counter : Interface → Nat) : Nat :=
  if i.up then counter i else 0

def interfaces (maxmodem : Nat) : List (List Char) :=
  (List.range maxmodem).map (fun i => "wan".toList ++ decimal (i + 1)) ++
    ["wan".toList, "wwan2".toList, "wwan5".toList]

/-- What a round of the loop finds: the network, the file `/tmp/bwreset`, the clock and
    the configuration. -/
structure Input where
  maxmodem : Nat
  net : List Char → Interface
  bwreset : Option Int
  date : Date
  currtime : Int
  rollover : Option Nat
  backupMinutes : Int
  enabled : Bool

def Input.sum (i : Input) (counter : Interface → Nat) : Int :=
  ((interfaces i.maxmodem).map fun name => (deviceGetStats (i.net name) counter : Int)).sum

def Input.sample (i : Input) : Bytes :=
  ⟨i.sum Interface.rxBytes + i.sum Interface.txBytes, i.sum Interface.rxBytes,
    i.sum Interface.txBytes⟩

/-! ### The procedures -/

/-- `createAmt`, with the start of the backup timer.  The totals are unset until the
    first `update`. -/
def createAmt (backup : Backup) (date : Date) (time : Int) : Monitor where
  backup := { backup with date := some (backup.date.getD date) }
  dailies := []
  cDate := backup.date.getD date
  basedaily := backup.daily.load
  basemon := backup.mon.load
  dailyoffset := 0
  monoffset := 0
  val := 0
  currdaily := 0
  currmon := 0
  bstartime := time

def update (i : Input) (s : Monitor) : Monitor :=
  let val := i.sample
  { s with
    val := val
    currdaily := val - s.dailyoffset + s.basedaily
    currmon := val - s.monoffset + s.basemon }

def checkreset (i : Input) (s : Monitor) : Monitor :=
  match i.bwreset with
  | none => s
  | some newbw =>
      { s with
        backup := { s.backup with daily := (0 : Bytes).store, mon := Bytes.store ⟨newbw, newbw, 0⟩ }
        basedaily := 0
        basemon := ⟨newbw, newbw, 0⟩
        dailyoffset := s.val
        monoffset := s.val }

def rolld (i : Input) (s : Monitor) : Bool :=
  let roll := i.rollover.getD 1
  roll = i.date.day ||
    (roll < i.date.day && s.backup.rollmon.getD i.date.month ≠ i.date.month)

def dayChange (i : Input) (s : Monitor) : Bool := s.cDate.day ≠ i.date.day

/-- The start of a new month, as far as `checkTime` reaches it. -/
def newMonth (i : Input) (s : Monitor) : Bool := dayChange i s && rolld i s

def checkTime (i : Input) (s : Monitor) : Monitor :=
  if dayChange i s then
    let s :=
      { s with
        dailies := s.dailies ++ [⟨s.currdaily, s.cDate⟩]
        cDate := i.date
        basedaily := 0
        dailyoffset := s.val }
    let s :=
      if rolld i s then
        { s with
          backup := { s.backup with rollmon := some i.date.month }
          basemon := 0
          monoffset := s.val
          currmon := 0 }
      else s
    { s with backup := { s.backup with date := some i.date } }
  else s

def fires (i : Input) (s : Monitor) : Bool :=
  i.enabled && i.currtime - s.bstartime > i.backupMinutes * 60

def checkBackup (i : Input) (s : Monitor) : Monitor :=
  if fires i s then
    { s with
      bstartime := i.currtime
      backup :=
        { s.backup with
          daily := s.currdaily.store
          mon := s.currmon.store
          date := some s.cDate } }
  else s

/-! ### What the procedures change -/

section Fields

variable (i : Input) (s : Monitor)

@[simp] theorem val_checkTime : (checkTime i s).val = s.val := by
  unfold checkTime
  split
  · dsimp only
    split <;> rfl
  · rfl

theorem checkTime_day (hday : dayChange i s = true) :
    (checkTime i s).dailies = s.dailies ++ [⟨s.currdaily, s.cDate⟩] ∧
      (checkTime i s).cDate = i.date ∧ (checkTime i s).basedaily = 0 ∧
      (checkTime i s).dailyoffset = s.val ∧ (checkTime i s).backup.date = some i.date := by
  rw [checkTime, if_pos hday]
  dsimp only
  split <;> exact ⟨rfl, rfl, rfl, rfl, rfl⟩

theorem checkTime_same (hday : ¬ dayChange i s = true) : checkTime i s = s := by
  rw [checkTime, if_neg hday]

theorem checkTime_newMonth (hmonth : newMonth i s = true) :
    (checkTime i s).currmon = 0 ∧ (checkTime i s).basemon = 0 ∧
      (checkTime i s).monoffset = s.val ∧
      (checkTime i s).backup.rollmon = some i.date.month := by
  obtain ⟨hday, hroll⟩ := Bool.and_eq_true_iff.mp hmonth
  rw [checkTime, if_pos hday]
  dsimp only
  split
  · exact ⟨rfl, rfl, rfl, rfl⟩
  · next hno => exact absurd hroll hno

theorem checkTime_sameMonth (hmonth : ¬ newMonth i s = true) :
    (checkTime i s).currmon = s.currmon ∧ (checkTime i s).basemon = s.basemon ∧
      (checkTime i s).monoffset = s.monoffset ∧
      (checkTime i s).backup.rollmon = s.backup.rollmon := by
  unfold checkTime
  split
  · next hday =>
    dsimp only
    split
    · next hroll => exact absurd (Bool.and_eq_true_iff.mpr ⟨hday, hroll⟩) hmonth
    · exact ⟨rfl, rfl, rfl, rfl⟩
  · exact ⟨rfl, rfl, rfl, rfl⟩

theorem checkTime_held : (checkTime i s).currdaily = s.currdaily ∧
    (checkTime i s).backup.daily = s.backup.daily ∧ (checkTime i s).backup.mon = s.backup.mon ∧
      (checkTime i s).bstartime = s.bstartime := by
  unfold checkTime
  split
  · dsimp only
    split <;> exact ⟨rfl, rfl, rfl, rfl⟩
  · exact ⟨rfl, rfl, rfl, rfl⟩

theorem dayChange_checkreset : dayChange i (checkreset i (update i s)) = dayChange i s := by
  unfold checkreset
  split <;> rfl

theorem newMonth_checkreset : newMonth i (checkreset i (update i s)) = newMonth i s := by
  unfold checkreset
  split <;> rfl

theorem checkBackup_eq : ∃ (backup : Backup) (bstartime : Int),
    checkBackup i s = { s with backup := backup, bstartime := bstartime } ∧
      backup.rollmon = s.backup.rollmon := by
  unfold checkBackup
  split
  · exact ⟨_, _, rfl, rfl⟩
  · exact ⟨_, _, rfl, rfl⟩

end Fields

/-! ### Runs -/

def procedures (i : Input) : List (Monitor → Monitor) :=
  [update i, checkreset i, checkTime i, checkBackup i]

/-- The first `n` procedures of a round. -/
def cutRound (i : Input) (n : Nat) (s : Monitor) : Monitor :=
  ((procedures i).take n).foldl (fun s procedure => procedure s) s

def round (i : Input) (s : Monitor) : Monitor :=
  checkBackup i (checkTime i (checkreset i (update i s)))

/-- A round, or a round that is cut short behind its first `n` procedures because the
    script ends and is started again. -/
inductive Event where
  | round (i : Input)
  | restart (i : Input) (n : Nat) (date : Date) (time : Int)

def exec (s : Monitor) : Event → Monitor
  | .round i => round i s
  | .restart i n date time => createAmt (cutRound i n s).backup date time

def run (s : Monitor) (events : List Event) : Monitor := events.foldl exec s

theorem cutRound_cases (i : Input) (n : Nat) (s : Monitor) :
    cutRound i n s = s ∨ cutRound i n s = update i s ∨
      cutRound i n s = checkreset i (update i s) ∨
      cutRound i n s = checkTime i (checkreset i (update i s)) ∨
      cutRound i n s = round i s := by
  match n with
  | 0 => exact .inl rfl
  | 1 => exact .inr (.inl rfl)
  | 2 => exact .inr (.inr (.inl rfl))
  | 3 => exact .inr (.inr (.inr (.inl rfl)))
  | n + 4 =>
    refine .inr (.inr (.inr (.inr ?_)))
    simp [cutRound, procedures, round]

end Rooter.BandwidthMonitor
