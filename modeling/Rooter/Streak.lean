import Mathlib.Order.Nat

/-!
# Streaks

A property of the rounds of a process holds for a number of rounds in a row.  `run` counts how
many rounds in a row it has held so far; `Completed` says that a number of rounds in a row has
just been completed, and `Before` that this happens for one property before it happens for
another.  `first_run_iff` connects the two views.
-/

namespace Rooter.Streak

variable {p q : Nat → Prop} {k m t : Nat}

/-- The property holds in the `k` rounds up to round `t`. -/
def Completed (p : Nat → Prop) (k t : Nat) : Prop := k ≤ t + 1 ∧ ∀ i < k, p (t - i)

/-- `k` rounds in a row with the one property come before `m` rounds in a row with the other. -/
def Before (p : Nat → Prop) (k : Nat) (q : Nat → Prop) (m : Nat) : Prop :=
  ∃ t, Completed p k t ∧ ∀ t' ≤ t, ¬ Completed q m t'

theorem completed_iff_of_neg (h : ¬ p t) : Completed p k t ↔ k ≤ 0 := by
  constructor
  · rintro ⟨-, hall⟩
    by_contra hk
    exact h (hall 0 (by omega))
  · intro hk
    exact ⟨Nat.le_trans hk (Nat.zero_le _), fun i hi => absurd hi (by omega)⟩

/-- How many of the rounds just before round `r` have had the property. -/
def run (p : Nat → Prop) [DecidablePred p] : Nat → Nat
  | 0 => 0
  | r + 1 => if p r then run p r + 1 else 0

section Run

variable [DecidablePred p] [DecidablePred q]

theorem run_succ_of_pos (h : p t) : run p (t + 1) = run p t + 1 := if_pos h

theorem run_succ_of_neg (h : ¬ p t) : run p (t + 1) = 0 := if_neg h

theorem completed_iff_le_run : Completed p k t ↔ k ≤ run p (t + 1) := by
  induction t generalizing k with
  | zero =>
    by_cases hp : p 0
    · rw [run_succ_of_pos hp]
      exact ⟨fun h => h.1, fun h => ⟨h, fun i hi => by rwa [Nat.zero_sub]⟩⟩
    · rw [run_succ_of_neg hp, completed_iff_of_neg hp]
  | succ t ih =>
    by_cases hp : p (t + 1)
    · rw [run_succ_of_pos hp]
      rcases k with _ | k
      · exact ⟨fun _ => Nat.zero_le _, fun _ => ⟨Nat.zero_le _, fun i hi => by omega⟩⟩
      · rw [Nat.succ_le_succ_iff, ← ih]
        constructor
        · rintro ⟨hle, hall⟩
          refine ⟨Nat.le_of_succ_le_succ hle, fun i hi => ?_⟩
          have hi' := hall (i + 1) (by omega)
          rwa [Nat.add_sub_add_right] at hi'
        · rintro ⟨hle, hall⟩
          refine ⟨Nat.succ_le_succ hle, fun i hi => ?_⟩
          rcases i with _ | i
          · exact hp
          · rw [Nat.add_sub_add_right]
            exact hall i (by omega)
    · rw [run_succ_of_neg hp, completed_iff_of_neg hp]

theorem exists_run_eq (hk : 1 ≤ k) (h : k ≤ run p (t + 1)) : ∃ t' ≤ t, run p (t' + 1) = k := by
  induction t with
  | zero =>
    by_cases hp : p 0
    · rw [run_succ_of_pos hp] at h
      exact ⟨0, Nat.le_refl 0, by rw [run_succ_of_pos hp]; exact Nat.le_antisymm hk h⟩
    · rw [run_succ_of_neg hp] at h
      omega
  | succ t ih =>
    by_cases hp : p (t + 1)
    · rcases Nat.lt_or_ge (run p (t + 1)) k with hlt | hge
      · refine ⟨t + 1, Nat.le_refl _, ?_⟩
        rw [run_succ_of_pos hp] at h ⊢
        omega
      · obtain ⟨t', ht', heq⟩ := ih hge
        exact ⟨t', Nat.le_succ_of_le ht', heq⟩
    · rw [run_succ_of_neg hp] at h
      omega

theorem of_run_eq (hk : 1 ≤ k) (h : run p (t + 1) = k) : p t := by
  by_contra hp
  rw [run_succ_of_neg hp] at h
  omega

/-- **The race between two streaks.**  One comes before the other when its run reaches its
    length in the first round in which one of the runs does. -/
theorem first_run_iff (hpq : ∀ r, p r → ¬ q r) (hk : 1 ≤ k) (hm : 1 ≤ m) :
    (∃ t, run p (t + 1) = k ∧ ∀ t' < t, run p (t' + 1) ≠ k ∧ run q (t' + 1) ≠ m) ↔
      Before p k q m := by
  constructor
  · rintro ⟨t, ht, hfirst⟩
    refine ⟨t, completed_iff_le_run.mpr (by omega), fun t' ht' hq => ?_⟩
    obtain ⟨u, hu, hrun⟩ := exists_run_eq hm (completed_iff_le_run.mp hq)
    rcases Nat.lt_or_ge u t with hlt | hge
    · exact (hfirst u hlt).2 hrun
    · have heq : u = t := by omega
      subst heq
      exact hpq u (of_run_eq hk ht) (of_run_eq hm hrun)
  · rintro ⟨t, hp, hq⟩
    obtain ⟨u, hu, hrun⟩ := exists_run_eq hk (completed_iff_le_run.mp hp)
    -- the first round in which the run has the length
    have hex : ∃ v, run p (v + 1) = k := ⟨u, hrun⟩
    classical
    refine ⟨Nat.find hex, Nat.find_spec hex, fun t' ht' => ⟨Nat.find_min hex ht', fun hrun' => ?_⟩⟩
    have hle : t' ≤ t := by
      have := Nat.find_min' hex hrun
      omega
    exact hq t' hle (completed_iff_le_run.mpr (by omega))

end Run

end Rooter.Streak
