import Mathlib.Data.Fintype.Card
import Rooter.Loop
import Rooter.Streak

/-!
# The ping test of `conmon.sh`

`pingtest` pings the tracked hosts round after round.  Two scores count down, one in the rounds
in which at least `RELIAB` hosts answer and one in the other rounds, and each of them starts
again when a round is counted by the other.  The test ends when one of them is used up.

The answers are a function of the round and of the host, so that a sequence of outcomes never
ends; `fuel` bounds the number of rounds.
-/

namespace Rooter.PingTest

open List Loop Streak

structure Settings where
  up : Nat
  down : Nat
  reliab : Nat

/-- How `pingtest` ends: with a value of `RESTART`, or by `exit` with "Missing Tracking IP". -/
inductive Outcome where
  | restart (value : Nat)
  | missing

structure Test where
  round : Nat
  hostUpCount : Nat
  scoreUp : Int
  scoreDwn : Int

section Script

variable {n : Nat} (settings : Settings) (answers : Nat → Fin n → Bool)

/-- `for track_ip in $track_ips`: the hosts that answer are counted. -/
def pingHosts (answer : Fin n → Bool) (hostUpCount : Nat) : Nat :=
  (finRange n).foldl (fun count host => if answer host then count + 1 else count) hostUpCount

def pingRound (s : Test) : Next Test Outcome :=
  if n = 0 then .leave .missing
  else
    let hostUpCount := pingHosts (answers s.round) s.hostUpCount
    if hostUpCount < settings.reliab then
      let scoreDwn := s.scoreDwn - 1
      if scoreDwn = 0 then .leave (.restart 1)
      else .again
        { round := s.round + 1, hostUpCount := 0, scoreUp := settings.up, scoreDwn := scoreDwn }
    else
      let scoreUp := s.scoreUp - 1
      if scoreUp = 0 then .leave (.restart 0)
      else .again
        { round := s.round + 1, hostUpCount := 0, scoreUp := scoreUp, scoreDwn := settings.down }

def Settings.start : Test where
  round := 0
  hostUpCount := 0
  scoreUp := settings.up
  scoreDwn := settings.down

/-- `pingtest`, stopped after `fuel` rounds. -/
def pingtest (fuel : Nat) : Option Outcome :=
  loop (pingRound settings answers) fuel settings.start

/-! ### Rounds -/

/-- At least `RELIAB` hosts are up in the round. -/
def HostsUp (r : Nat) : Prop :=
  settings.reliab ≤ (Finset.univ.filter fun host => answers r host = true).card

instance : DecidablePred (HostsUp settings answers) := fun _ => Nat.decLe _ _

def HostsDown (r : Nat) : Prop := ¬ HostsUp settings answers r

instance : DecidablePred (HostsDown settings answers) := fun _ => instDecidableNot

end Script

section Rounds

variable {n : Nat} {settings : Settings} {answers : Nat → Fin n → Bool}

theorem foldl_count {α : Type} (answer : α → Bool) (hosts : List α) (count : Nat) :
    hosts.foldl (fun count host => if answer host then count + 1 else count) count =
      count + hosts.countP answer := by
  induction hosts generalizing count with
  | nil => rfl
  | cons host hosts ih =>
    rw [foldl_cons, ih, countP_cons]
    split_ifs <;> omega

theorem pingHosts_eq (answer : Fin n → Bool) (hostUpCount : Nat) :
    pingHosts answer hostUpCount =
      hostUpCount + (Finset.univ.filter fun host => answer host = true).card := by
  have hcard : (Finset.univ.filter fun host => answer host = true).card =
      (finRange n).countP answer := by
    rw [countP_eq_length_filter, Finset.card_def]
    simp [Finset.univ, Fintype.elems]
  rw [pingHosts, foldl_count, hcard]

/-- The variables at the start of round `r`: each score is short of its setting by the rounds
    that have just been counted by it. -/
def testAt (settings : Settings) (answers : Nat → Fin n → Bool) (r : Nat) : Test where
  round := r
  hostUpCount := 0
  scoreUp := settings.up - run (HostsUp settings answers) r
  scoreDwn := settings.down - run (HostsDown settings answers) r

/-- How the test ends in round `r`, if it does. -/
def verdict (settings : Settings) (answers : Nat → Fin n → Bool) (r : Nat) : Option Outcome :=
  if run (HostsDown settings answers) (r + 1) = settings.down then some (.restart 1)
  else if run (HostsUp settings answers) (r + 1) = settings.up then some (.restart 0)
  else none

theorem pingHosts_lt_iff {s : Test} (hs : s.hostUpCount = 0) :
    pingHosts (answers s.round) s.hostUpCount < settings.reliab ↔
      HostsDown settings answers s.round := by
  rw [pingHosts_eq, hs, Nat.zero_add]
  exact Nat.not_le.symm

theorem pingRound_of_down (hn : n ≠ 0) {s : Test} (hs : s.hostUpCount = 0)
    (h : HostsDown settings answers s.round) : pingRound settings answers s =
      if s.scoreDwn - 1 = 0 then .leave (.restart 1)
      else .again { round := s.round + 1, hostUpCount := 0, scoreUp := settings.up,
                    scoreDwn := s.scoreDwn - 1 } := by
  rw [pingRound, if_neg hn]
  exact if_pos ((pingHosts_lt_iff hs).mpr h)

theorem pingRound_of_up (hn : n ≠ 0) {s : Test} (hs : s.hostUpCount = 0)
    (h : HostsUp settings answers s.round) : pingRound settings answers s =
      if s.scoreUp - 1 = 0 then .leave (.restart 0)
      else .again { round := s.round + 1, hostUpCount := 0, scoreUp := s.scoreUp - 1,
                    scoreDwn := settings.down } := by
  rw [pingRound, if_neg hn]
  exact if_neg (mt (pingHosts_lt_iff hs).mp fun hdown => hdown h)

/-- **One round.** -/
theorem pingRound_testAt (hn : n ≠ 0) (hup : 1 ≤ settings.up) (hdown : 1 ≤ settings.down)
    (r : Nat) : pingRound settings answers (testAt settings answers r) =
      Next.ofRound (testAt settings answers) r (verdict settings answers r) := by
  by_cases hround : HostsUp settings answers r
  · have hrun := run_succ_of_pos hround
    have hzero : run (HostsDown settings answers) (r + 1) = 0 :=
      run_succ_of_neg fun hnot => hnot hround
    refine (pingRound_of_up hn (s := testAt settings answers r) rfl hround).trans ?_
    by_cases hlast : run (HostsUp settings answers) r + 1 = settings.up
    · have hscore : (settings.up : Int) - run (HostsUp settings answers) r - 1 = 0 := by omega
      simp [verdict, testAt, hzero, hrun, hlast, hscore, Nat.ne_of_lt hdown, Next.ofRound]
    · have hscore : (settings.up : Int) - (run (HostsUp settings answers) r + 1) ≠ 0 := by omega
      simp [verdict, testAt, hzero, hrun, hlast, hscore, Nat.ne_of_lt hdown, Next.ofRound,
        Int.sub_sub]
  · have hrun : run (HostsDown settings answers) (r + 1) =
        run (HostsDown settings answers) r + 1 := run_succ_of_pos hround
    have hzero := run_succ_of_neg hround
    refine (pingRound_of_down hn (s := testAt settings answers r) rfl hround).trans ?_
    by_cases hlast : run (HostsDown settings answers) r + 1 = settings.down
    · have hscore : (settings.down : Int) - run (HostsDown settings answers) r - 1 = 0 := by omega
      simp [verdict, testAt, hrun, hlast, hscore, Next.ofRound]
    · have hscore : (settings.down : Int) - (run (HostsDown settings answers) r + 1) ≠ 0 := by
        omega
      simp [verdict, testAt, hzero, hrun, hlast, hscore, Nat.ne_of_lt hup, Next.ofRound,
        Int.sub_sub]

theorem start_eq_testAt (answers : Nat → Fin n → Bool) :
    settings.start = testAt settings answers 0 := by
  simp [Settings.start, testAt, run]

theorem pingtest_eq_some_iff (hn : n ≠ 0) (hup : 1 ≤ settings.up) (hdown : 1 ≤ settings.down)
    (outcome : Outcome) : (∃ fuel, pingtest settings answers fuel = some outcome) ↔
      ∃ t, verdict settings answers t = some outcome ∧
        ∀ t' < t, verdict settings answers t' = none := by
  have hloop : ∀ fuel, pingtest settings answers fuel = some outcome ↔
      ∃ t < fuel, verdict settings answers t = some outcome ∧
        ∀ t' < t, verdict settings answers t' = none := by
    intro fuel
    rw [pingtest, start_eq_testAt answers, loop_eq_some_iff_first (pingRound_testAt hn hup hdown)]
    simp only [Nat.zero_add]
  constructor
  · rintro ⟨fuel, h⟩
    obtain ⟨t, -, ht⟩ := (hloop fuel).mp h
    exact ⟨t, ht⟩
  · rintro ⟨t, ht⟩
    exact ⟨t + 1, (hloop (t + 1)).mpr ⟨t, Nat.lt_succ_self t, ht⟩⟩

theorem verdict_eq_none_iff (r : Nat) : verdict settings answers r = none ↔
    run (HostsDown settings answers) (r + 1) ≠ settings.down ∧
      run (HostsUp settings answers) (r + 1) ≠ settings.up := by
  unfold verdict
  split_ifs with hdown hup <;> simp [*]

theorem verdict_eq_restart_one_iff (r : Nat) : verdict settings answers r = some (.restart 1) ↔
    run (HostsDown settings answers) (r + 1) = settings.down := by
  unfold verdict
  split_ifs with hdown hup <;> simp [*]

theorem verdict_eq_restart_zero_iff (hup : 1 ≤ settings.up) (hdown : 1 ≤ settings.down) (r : Nat) :
    verdict settings answers r = some (.restart 0) ↔
      run (HostsUp settings answers) (r + 1) = settings.up := by
  unfold verdict
  split_ifs with hlow hhigh
  · have hnot : HostsDown settings answers r := of_run_eq hdown hlow
    have hne : run (HostsUp settings answers) (r + 1) ≠ settings.up := fun hrun =>
      hnot (of_run_eq hup hrun)
    simp [hne]
  · simp [hhigh]
  · simp [hhigh]

end Rounds

/-! ### Verdicts -/

/-- **Verdicts follow consecutive rounds.**  With a tracked host the test ends with `RESTART=1`
    or `RESTART=0` according to which of the two streaks is completed first, and it goes on for
    ever if none is; without one it is left before the first round. -/
theorem pingtest_restart_iff {n : Nat} (settings : Settings) (answers : Nat → Fin n → Bool)
    (hup : 1 ≤ settings.up) (hdown : 1 ≤ settings.down) :
    (0 < n →
      ((∃ fuel, pingtest settings answers fuel = some (.restart 1)) ↔
        Before (HostsDown settings answers) settings.down (HostsUp settings answers) settings.up) ∧
      ((∃ fuel, pingtest settings answers fuel = some (.restart 0)) ↔
        Before (HostsUp settings answers) settings.up
          (HostsDown settings answers) settings.down)) ∧
    (n = 0 → ∀ fuel, pingtest settings answers (fuel + 1) = some .missing) := by
  refine ⟨fun hn => ⟨?_, ?_⟩, fun hn fuel => ?_⟩
  · rw [pingtest_eq_some_iff (by omega) hup hdown,
      ← first_run_iff (fun r hnot h => hnot h) hdown hup]
    simp only [verdict_eq_restart_one_iff, verdict_eq_none_iff]
  · rw [pingtest_eq_some_iff (by omega) hup hdown,
      ← first_run_iff (fun r h hnot => hnot h) hup hdown]
    simp only [verdict_eq_restart_zero_iff hup hdown, verdict_eq_none_iff, and_comm]
  · exact loop_leave (if_pos hn)

/-- Two hosts that never answer: after three rounds of them the modem is restarted. -/
theorem pingtest_restart_iff_silent :
    1 ≤ (⟨5, 3, 1⟩ : Settings).up ∧ 1 ≤ (⟨5, 3, 1⟩ : Settings).down ∧
    ∃ fuel, pingtest ⟨5, 3, 1⟩ (fun _ (_ : Fin 2) => false) fuel = some (.restart 1) := by
  refine ⟨by decide, by decide, ?_⟩
  refine ((pingtest_restart_iff ⟨5, 3, 1⟩ (fun _ _ => false) (by decide)
    (by decide)).1 (by decide)).1.mpr ⟨2, ⟨by decide, fun i _ => by simp [HostsDown, HostsUp]⟩, ?_⟩
  rintro t' - ⟨-, hall⟩
  exact absurd (hall 0 (by decide)) (by simp [HostsUp])

/-- Without a tracked host no round is counted, so there is no verdict. -/
theorem not_pingtest_restart_iff : ¬ ∀ (n : Nat) (settings : Settings)
    (answers : Nat → Fin n → Bool), 1 ≤ settings.up → 1 ≤ settings.down →
    ((∃ fuel, pingtest settings answers fuel = some (.restart 1)) ↔
      Before (HostsDown settings answers) settings.down
        (HostsUp settings answers) settings.up) := by
  intro h
  have hiff := h 0 ⟨1, 1, 1⟩ (fun _ _ => true) (by decide) (by decide)
  have hbefore : Before (HostsDown ⟨1, 1, 1⟩ fun _ (_ : Fin 0) => true) 1
      (HostsUp ⟨1, 1, 1⟩ fun _ (_ : Fin 0) => true) 1 := by
    refine ⟨0, ⟨by decide, fun i _ => by simp [HostsDown, HostsUp]⟩, ?_⟩
    rintro t' - ⟨-, hall⟩
    exact absurd (hall 0 (by decide)) (by simp [HostsUp])
  obtain ⟨fuel, hfuel⟩ := hiff.mpr hbefore
  rcases fuel with _ | fuel
  · cases hfuel
  · have hmissing : pingtest ⟨1, 1, 1⟩ (fun _ _ => true) (fuel + 1) = some .missing :=
      loop_leave (if_pos rfl)
    cases hfuel

end Rooter.PingTest
