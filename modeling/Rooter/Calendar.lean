/-!
# Calendar dates

Dates of the Gregorian calendar in the order of time, and the question whether the day
with a given number in its month has come between two dates.  For a number that every
month has, the days with this number cut time into periods, and the question is whether
the two dates lie in different periods.
-/

namespace Rooter.Calendar

def isLeap (year : Nat) : Bool := year % 4 = 0 && (year % 100 ≠ 0 || year % 400 = 0)

def daysInMonth (year month : Nat) : Nat :=
  if month = 2 then if isLeap year then 29 else 28
  else if month = 4 ∨ month = 6 ∨ month = 9 ∨ month = 11 then 30
  else 31

theorem daysInMonth_ge (year month : Nat) : 28 ≤ daysInMonth year month := by
  unfold daysInMonth
  split
  · split <;> omega
  · split <;> omega

theorem daysInMonth_le (year month : Nat) : daysInMonth year month ≤ 31 := by
  unfold daysInMonth
  split
  · split <;> omega
  · split <;> omega

structure Date where
  year : Nat
  month : Nat
  day : Nat
  month_pos : 1 ≤ month := by decide
  month_le : month ≤ 12 := by decide
  day_pos : 1 ≤ day := by decide
  day_le : day ≤ daysInMonth year month := by decide
deriving DecidableEq

namespace Date

def monthIndex (d : Date) : Nat := 12 * d.year + d.month

/-- No month has more than 31 days, so these numbers are in the order of time. -/
def number (d : Date) : Nat := 32 * d.monthIndex + d.day

instance : LT Date := ⟨fun a b => a.number < b.number⟩

instance : LE Date := ⟨fun a b => a.number ≤ b.number⟩

theorem day_lt (d : Date) : d.day < 32 := by
  have hday := d.day_le
  have hmax := daysInMonth_le d.year d.month
  omega

theorem lt_iff {a b : Date} :
    a < b ↔ a.monthIndex < b.monthIndex ∨ a.monthIndex = b.monthIndex ∧ a.day < b.day := by
  have ha := a.day_lt
  have hb := b.day_lt
  change a.number < b.number ↔ _
  unfold number
  omega

theorem le_iff {a b : Date} :
    a ≤ b ↔ a.monthIndex < b.monthIndex ∨ a.monthIndex = b.monthIndex ∧ a.day ≤ b.day := by
  have ha := a.day_lt
  have hb := b.day_lt
  change a.number ≤ b.number ↔ _
  unfold number
  omega

def inMonth (index r : Nat) (hr : 1 ≤ r ∧ r ≤ 28) : Date where
  year := (index - 1) / 12
  month := (index - 1) % 12 + 1
  day := r
  month_pos := by omega
  month_le := by omega
  day_pos := hr.1
  day_le := Nat.le_trans hr.2 (daysInMonth_ge _ _)

theorem monthIndex_inMonth (index r : Nat) (hindex : 1 ≤ index) (hr : 1 ≤ r ∧ r ≤ 28) :
    (inMonth index r hr).monthIndex = index := by
  simp only [monthIndex, inMonth]
  omega

end Date

/-! ### Periods -/

/-- A day with number `r` lies after the first date and not after the second. -/
def Passes (r : Nat) (a b : Date) : Prop := ∃ x : Date, x.day = r ∧ a < x ∧ x ≤ b

def period (r : Nat) (d : Date) : Nat := if r ≤ d.day then d.monthIndex else d.monthIndex - 1

theorem monthIndex_pos (d : Date) : 1 ≤ d.monthIndex := by
  have hmonth := d.month_pos
  unfold Date.monthIndex
  omega

theorem period_of_le {r : Nat} {d : Date} (h : r ≤ d.day) : period r d = d.monthIndex := by
  rw [period, if_pos h]

theorem period_mono {r : Nat} {a b : Date} (hab : a ≤ b) : period r a ≤ period r b := by
  rw [Date.le_iff] at hab
  unfold period
  split <;> split <;> omega

/-- **A day with number `r` has come exactly when a new period has begun.** -/
theorem passes_iff {r : Nat} (hr : 1 ≤ r ∧ r ≤ 28) {a b : Date} :
    Passes r a b ↔ period r a < period r b := by
  have ha := monthIndex_pos a
  have hb := monthIndex_pos b
  constructor
  · rintro ⟨x, hx, hax, hxb⟩
    rw [Date.lt_iff] at hax
    rw [Date.le_iff] at hxb
    unfold period
    split <;> split <;> omega
  · intro hlt
    have hindex : 1 ≤ period r b := Nat.one_le_of_lt hlt
    refine ⟨.inMonth (period r b) r hr, rfl, ?_, ?_⟩
    · rw [Date.lt_iff, Date.monthIndex_inMonth _ _ hindex]
      change _ ∨ _ ∧ a.day < r
      unfold period at hlt ⊢
      split at hlt <;> split at hlt <;> split <;> omega
    · rw [Date.le_iff, Date.monthIndex_inMonth _ _ hindex]
      change _ ∨ _ ∧ r ≤ b.day
      unfold period
      split <;> omega

theorem not_passes_iff {r : Nat} (hr : 1 ≤ r ∧ r ≤ 28) {a b : Date} (hab : a ≤ b) :
    ¬ Passes r a b ↔ period r a = period r b := by
  rw [passes_iff hr]
  have hmono := period_mono (r := r) hab
  omega

def monthOf (index : Nat) : Nat := (index - 1) % 12 + 1

theorem monthOf_monthIndex (d : Date) : monthOf d.monthIndex = d.month := by
  have hpos := d.month_pos
  have hle := d.month_le
  unfold monthOf Date.monthIndex
  omega

end Rooter.Calendar
