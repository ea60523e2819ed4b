import Mathlib.Data.Rat.Floor
import Rooter.Loop

/-!
# Usage alerts: `datainc.lua` and `checkamt` of `textbw.sh`

A text message is sent whenever the data used has grown by another increment.  The mark is the
amount for which the last message was sent; `datainc.lua` moves it up by whole increments as far
as the amount used allows, and `checkamt` keeps it from one poll to the next.  Amounts are
rational numbers.
-/

namespace Rooter.DataIncrement

open List Loop

/-! ### The programs -/

structure Increment where
  prev : ℚ
  runn : Bool

def raiseStep (incr used current : ℚ) : Next ℚ ℚ :=
  if current + incr ≤ used then .again (current + incr) else .leave current

/-- `datainc.lua` with its three arguments, the last one in bytes; `none` is a loop that has
    not ended after `fuel` rounds. -/
def datainc (fuel : Nat) (prev incr used : ℚ) : Option Increment :=
  let used := used / 1000000000
  let current := prev + incr
  if current ≤ used then
    (loop (raiseStep incr used) fuel current).map fun current => ⟨current, true⟩
  else some ⟨prev, false⟩

/-- What a poll meets: whether it is the time for messages, and the bytes used. -/
structure Poll where
  istime : Bool
  used : ℚ

/-- `checkamt`: the new value of `custom.texting.used`, and `running`. -/
def checkamt (fuel : Nat) (incr : ℚ) (mark : Option ℚ) (poll : Poll) :
    Option (Option ℚ × Bool) :=
  if poll.istime then
    (datainc fuel (mark.getD 0) incr poll.used).map fun written => (some written.prev, written.runn)
  else some (mark, false)

def alerts (fuel : Nat) (incr : ℚ) : Option ℚ → List Poll → Option (List Bool)
  | _, [] => some []
  | mark, poll :: polls => do
      let (mark, running) ← checkamt fuel incr mark poll
      let later ← alerts fuel incr mark polls
      some (running :: later)

/-! ### One run of `datainc.lua` -/

def steps (incr prev used : ℚ) : Nat := ⌊(used - prev) / incr⌋₊

section Steps

variable {incr : ℚ} (hincr : 0 < incr) (prev used : ℚ)

include hincr

theorem le_steps_iff {k : Nat} (hk : 1 ≤ k) :
    k ≤ steps incr prev used ↔ prev + incr * k ≤ used := by
  rw [steps, Nat.le_floor_iff' (by omega), le_div_iff₀ hincr]
  constructor <;> intro h <;> linarith

theorem lt_add_steps : used < prev + incr * (steps incr prev used + 1) := by
  have hlt := Nat.lt_floor_add_one ((used - prev) / incr)
  rw [div_lt_iff₀ hincr] at hlt
  unfold steps
  linarith

theorem loop_raiseStep (extra : Nat) : ∀ (d : Nat) (current : ℚ), current + incr * d ≤ used →
    used < current + incr * (d + 1) →
    loop (raiseStep incr used) (extra + d + 1) current = some (current + incr * d) := by
  intro d
  induction d with
  | zero =>
    intro current _ hlt
    have hstep : raiseStep incr used current = .leave current :=
      if_neg (not_le.mpr (by simpa using hlt))
    rw [loop_leave hstep]
    simp
  | succ d ih =>
    intro current hle hlt
    push_cast at hle hlt
    have hnonneg : 0 ≤ incr * d := by positivity
    have hstep : raiseStep incr used current = .again (current + incr) :=
      if_pos (by linarith)
    have hrec := ih (current + incr) (by linarith) (by linarith)
    rw [loop_again hstep]
    refine hrec.trans ?_
    push_cast
    rw [mul_add, mul_one, add_assoc, add_comm incr]

/-- **One run**: the mark is raised by the whole increments. -/
theorem datainc_eq {bytes : ℚ} {fuel : Nat} (hfuel : steps incr prev (bytes / 1000000000) ≤ fuel) :
    datainc fuel prev incr bytes =
      some ⟨prev + incr * steps incr prev (bytes / 1000000000),
        decide (0 < steps incr prev (bytes / 1000000000))⟩ := by
  have hlt := lt_add_steps hincr prev (bytes / 1000000000)
  have hle := fun k (hk : 1 ≤ k) => le_steps_iff hincr prev (bytes / 1000000000) hk
  unfold datainc
  generalize steps incr prev (bytes / 1000000000) = count at hfuel hlt hle
  rcases count with _ | d
  · have hnot : ¬ prev + incr ≤ bytes / 1000000000 := not_le.mpr (by simpa using hlt)
    simp [hnot]
  · -- the first increment is tested before the loop, the others by it
    have hfirst : prev + incr ≤ bytes / 1000000000 := by
      simpa using (hle 1 (by omega)).mp (by omega)
    have hlast := (hle (d + 1) (by omega)).mp (by omega)
    push_cast at hlast hlt
    obtain ⟨extra, rfl⟩ := Nat.exists_eq_add_of_le' hfuel
    have hloop := loop_raiseStep hincr (bytes / 1000000000) extra d (prev + incr) (by linarith)
      (by linarith)
    rw [Nat.add_assoc] at hloop
    simp only [if_pos hfirst, hloop, Option.map_some, Nat.zero_lt_succ, decide_true]
    push_cast
    rw [mul_add, mul_one, add_assoc, add_comm incr]

theorem steps_add (m : Nat) : steps incr (prev + incr * m) used = steps incr prev used - m := by
  have hdiv : (used - (prev + incr * m)) / incr = (used - prev) / incr - m := by
    field_simp
    ring
  rw [steps, hdiv, Nat.floor_sub_natCast, steps]

end Steps

/-! ### Sequences of polls -/

/-- The increments that a poll finds used, counted from the first mark. -/
def Poll.steps (incr prev : ℚ) (poll : Poll) : Nat :=
  DataIncrement.steps incr prev (poll.used / 1000000000)

/-- The polls that find a new increment used, when `m` of them have been found before. -/
def newSteps (incr prev : ℚ) : Nat → List Poll → List Bool
  | _, [] => []
  | m, poll :: polls =>
      if poll.istime then
        decide (m < poll.steps incr prev) :: newSteps incr prev (max m (poll.steps incr prev)) polls
      else false :: newSteps incr prev m polls

section Polls

variable {incr prev : ℚ} {polls : List Poll}

/-- **One poll** raises the mark to the increments it finds. -/
theorem checkamt_of_istime (hincr : 0 < incr) {fuel m : Nat} {mark : Option ℚ} {poll : Poll}
    (hmark : mark.getD 0 = prev + incr * m) (htime : poll.istime = true)
    (hfuel : poll.steps incr prev ≤ fuel) :
    checkamt fuel incr mark poll =
      some (some (prev + incr * (max m (poll.steps incr prev) : Nat)),
        decide (m < poll.steps incr prev)) := by
  have hsteps : DataIncrement.steps incr (prev + incr * m) (poll.used / 1000000000) =
      poll.steps incr prev - m := steps_add hincr prev (poll.used / 1000000000) m
  have hrun := datainc_eq hincr (prev + incr * m)
    (hsteps.trans_le (Nat.le_trans (Nat.sub_le _ m) hfuel))
  have hmax : m + (poll.steps incr prev - m) = max m (poll.steps incr prev) := by omega
  rw [checkamt, if_pos htime, hmark, hrun, hsteps, Option.map_some, ← hmax,
    decide_eq_decide.mpr Nat.sub_pos_iff_lt]
  push_cast
  rw [mul_add, add_assoc]

theorem alerts_cons {fuel : Nat} {mark mark' : Option ℚ} {poll : Poll} {running : Bool}
    {later : List Bool} (hpoll : checkamt fuel incr mark poll = some (mark', running))
    (hlater : alerts fuel incr mark' polls = some later) :
    alerts fuel incr mark (poll :: polls) = some (running :: later) := by
  simp [alerts, hpoll, hlater]

/-- **A sequence of polls.** -/
theorem alerts_eq (hincr : 0 < incr) {fuel : Nat} (polls : List Poll) :
    ∀ (mark : Option ℚ) (m : Nat), mark.getD 0 = prev + incr * m →
    (∀ poll ∈ polls, poll.steps incr prev ≤ fuel) →
    alerts fuel incr mark polls = some (newSteps incr prev m polls) := by
  induction polls with
  | nil => exact fun _ _ _ _ => rfl
  | cons poll polls ih =>
    intro mark m hmark hfuel
    have hrest := fun p hp => hfuel p (mem_cons_of_mem poll hp)
    by_cases htime : poll.istime = true
    · rw [newSteps, if_pos htime]
      exact alerts_cons (checkamt_of_istime hincr hmark htime (hfuel poll (by simp)))
        (ih _ (max m (poll.steps incr prev)) rfl hrest)
    · rw [newSteps, if_neg htime]
      exact alerts_cons (if_neg htime) (ih mark m hmark hrest)

theorem count_newSteps_le {bound : Nat} (polls : List Poll) : ∀ m ≤ bound,
    (∀ poll ∈ polls, poll.steps incr prev ≤ bound) →
    (newSteps incr prev m polls).count true + m ≤ bound := by
  induction polls with
  | nil =>
    intro m hm _
    simpa [newSteps] using hm
  | cons poll polls ih =>
    intro m hm hbound
    have hrest := fun p hp => hbound p (mem_cons_of_mem poll hp)
    have hpoll := hbound poll (by simp)
    by_cases htime : poll.istime = true
    · have hlater := ih (max m (poll.steps incr prev)) (by omega) hrest
      by_cases hnew : m < poll.steps incr prev
      · simp only [newSteps, htime, if_true, hnew, decide_true, count_cons_self]
        omega
      · simp [newSteps, htime, hnew]
        omega
    · have hlater := ih m hm hrest
      simpa [newSteps, htime] using hlater

theorem forall_before_cons {p : Poll → Prop} {first : Poll} {i : Nat} :
    (∀ j < i + 1, ∀ before, (first :: polls)[j]? = some before → p before) ↔
      p first ∧ ∀ j < i, ∀ before, polls[j]? = some before → p before := by
  constructor
  · intro h
    exact ⟨h 0 (by omega) first rfl, fun j hj => h (j + 1) (by omega)⟩
  · rintro ⟨hfirst, h⟩ j hj before hbefore
    cases j with
    | zero =>
      cases hbefore
      exact hfirst
    | succ j => exact h j (by omega) before hbefore

theorem getElem?_newSteps_iff (polls : List Poll) : ∀ (m i : Nat) (poll : Poll),
    polls[i]? = some poll →
    ((newSteps incr prev m polls)[i]? = some true ↔
      poll.istime = true ∧ m < poll.steps incr prev ∧
        ∀ j < i, ∀ before, polls[j]? = some before → before.istime = true →
          before.steps incr prev < poll.steps incr prev) := by
  induction polls with
  | nil =>
    intro m i poll hi
    simp at hi
  | cons first polls ih =>
    intro m i poll hi
    cases i with
    | zero =>
      have hfirst : first = poll := by simpa using hi
      subst hfirst
      by_cases htime : first.istime = true <;> simp [newSteps, htime]
    | succ i =>
      rw [forall_before_cons]
      by_cases htime : first.istime = true
      · rw [newSteps, if_pos htime, getElem?_cons_succ,
          ih (max m (first.steps incr prev)) i poll hi, max_lt_iff]
        constructor
        · rintro ⟨hpoll, ⟨hm, hfirst⟩, hall⟩
          exact ⟨hpoll, hm, fun _ => hfirst, hall⟩
        · rintro ⟨hpoll, hm, hfirst, hall⟩
          exact ⟨hpoll, ⟨hm, hfirst htime⟩, hall⟩
      · rw [newSteps, if_neg htime, getElem?_cons_succ, ih m i poll hi]
        constructor
        · rintro ⟨hpoll, hm, hall⟩
          exact ⟨hpoll, hm, fun h => absurd h htime, hall⟩
        · rintro ⟨hpoll, hm, -, hall⟩
          exact ⟨hpoll, hm, hall⟩

/-- With usage that does not go down, the last poll finds the most increments. -/
theorem steps_le_of_mem {last : Poll} (hincr : 0 < incr)
    (hmono : (polls ++ [last]).Pairwise fun a b => a.used ≤ b.used) :
    ∀ poll ∈ polls ++ [last], poll.steps incr prev ≤ last.steps incr prev := by
  intro poll hpoll
  rcases mem_append.mp hpoll with hpoll | hpoll
  · have hle := (pairwise_append.mp hmono).2.2 poll hpoll last (by simp)
    unfold Poll.steps DataIncrement.steps
    gcongr
  · rw [mem_singleton.mp hpoll]

end Polls

/-! ### Alerts -/

theorem cast_steps {incr prev used : ℚ} :
    (steps incr prev used : ℚ) = ((max 0 ⌊(used - prev) / incr⌋ : Int) : ℚ) := by
  rw [steps, ← Int.floor_toNat, ← Int.cast_natCast, Int.toNat_eq_max, max_comm]

/-- **Alerts fire once per step.**  One run moves the mark to the last multiple reached and
    asks for a message exactly when it moves; in a sequence of polls there are no more messages
    than multiples crossed, and each one is for a multiple that no poll before has met. -/
theorem alert_once_per_step (incr prev : ℚ) (hincr : 0 < incr) :
    (∀ used : ℚ, ∃ bound, ∀ fuel ≥ bound, ∃ written : Increment,
      datainc fuel prev incr (used * 1000000000) = some written ∧
      written.prev = prev + incr * ((max 0 ⌊(used - prev) / incr⌋ : Int) : ℚ) ∧
      (written.runn = true ↔ prev < written.prev)) ∧
    ∀ (polls : List Poll) (last : Poll),
      ((polls ++ [last]).Pairwise fun a b => a.used ≤ b.used) →
      ∃ bound, ∀ fuel ≥ bound, ∃ running : List Bool,
        alerts fuel incr (some prev) (polls ++ [last]) = some running ∧
        running.count true ≤ steps incr prev (last.used / 1000000000) ∧
        ∀ (i : Nat) (poll : Poll), (polls ++ [last])[i]? = some poll → running[i]? = some true →
          ∃ k : Nat, 1 ≤ k ∧ prev + incr * k ≤ poll.used / 1000000000 ∧
            ∀ j < i, ∀ before, (polls ++ [last])[j]? = some before → before.istime = true →
              before.used / 1000000000 < prev + incr * k := by
  refine ⟨fun used => ?_, fun polls last hmono => ?_⟩
  · refine ⟨steps incr prev used, fun fuel hfuel => ?_⟩
    have hused : used * 1000000000 / 1000000000 = used := by simp
    have hbound : steps incr prev (used * 1000000000 / 1000000000) ≤ fuel := by rwa [hused]
    have hrun := datainc_eq hincr prev hbound
    rw [hused] at hrun
    refine ⟨_, hrun, by rw [cast_steps], ?_⟩
    simp [hincr]
  · refine ⟨last.steps incr prev, fun fuel hfuel => ?_⟩
    have hle : ∀ poll ∈ polls ++ [last], poll.steps incr prev ≤ last.steps incr prev :=
      steps_le_of_mem hincr hmono
    have hmark : (some prev).getD 0 = prev + incr * 0 := by simp
    have hrun := alerts_eq hincr (polls ++ [last]) (some prev) 0 hmark
      fun poll hpoll => Nat.le_trans (hle poll hpoll) hfuel
    refine ⟨_, hrun, ?_, fun i poll hi halert => ?_⟩
    · exact count_newSteps_le (polls ++ [last]) 0 (Nat.zero_le _) hle
    · obtain ⟨-, hnew, hfirst⟩ := (getElem?_newSteps_iff _ 0 i poll hi).mp halert
      refine ⟨poll.steps incr prev, hnew, (le_steps_iff hincr _ _ hnew).mp (Nat.le_refl _), ?_⟩
      intro j hj before hb htime
      by_contra hnot
      have hback := (le_steps_iff hincr _ _ hnew).mpr (not_lt.mp hnot)
      exact absurd (hfirst j hj before hb htime) (Nat.not_lt.mpr hback)

/-- Half a gigabyte at a time, with two gigabytes more than the mark, at once and in three polls. -/
theorem alert_once_per_step_half : (0 : ℚ) < 1 / 2 ∧
    (∃ bound, ∀ fuel ≥ bound,
      ∃ written : Increment, datainc fuel 1 (1 / 2) (3 * 1000000000) = some written ∧
        written.prev = 1 + 1 / 2 * ((max 0 ⌊((3 : ℚ) - 1) / (1 / 2)⌋ : Int) : ℚ) ∧
        (written.runn = true ↔ 1 < written.prev)) ∧
    ∃ bound, ∀ fuel ≥ bound, ∃ running : List Bool,
      alerts fuel (1 / 2) (some 1) [⟨true, 1600000000⟩, ⟨false, 2000000000⟩, ⟨true, 3000000000⟩] =
        some running ∧ running.count true ≤ steps (1 / 2) 1 (3000000000 / 1000000000) := by
  obtain ⟨honce, hpolls⟩ := alert_once_per_step (1 / 2) 1 (by norm_num)
  obtain ⟨bound, hbound⟩ :=
    hpolls [⟨true, 1600000000⟩, ⟨false, 2000000000⟩] ⟨true, 3000000000⟩ (by norm_num)
  refine ⟨by norm_num, honce 3, bound, fun fuel hfuel => ?_⟩
  obtain ⟨running, hrun, hcount, -⟩ := hbound fuel hfuel
  exact ⟨running, hrun, hcount⟩

end Rooter.DataIncrement
