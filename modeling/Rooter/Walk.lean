import Mathlib.Data.Finset.Card
import Rooter.Loop

/-!
# Loops over places

A loop whose state has a place below a bound, such as an offset in a buffer, and where the next
place depends on the place alone.  Such a loop ends if and only if no place comes back
(`ends_iff`), and then it ends after as many rounds as there are places.
-/

namespace Rooter.Walk

open Loop Relation

variable {σ ρ : Type}

def Goes (step : σ → Next σ ρ) (s t : σ) : Prop := step s = .again t

def Reaches (step : σ → Next σ ρ) : σ → σ → Prop := ReflTransGen (Goes step)

def Ends (step : σ → Next σ ρ) (s : σ) : Prop := ∃ n, (loop step n s).isSome = true

variable {step : σ → Next σ ρ} {s t : σ}

theorem ends_of_goes (h : Goes step s t) : Ends step s ↔ Ends step t := by
  constructor
  · rintro ⟨n, hn⟩
    cases n with
    | zero => cases hn
    | succ n =>
      rw [loop_again h] at hn
      exact ⟨n, hn⟩
  · rintro ⟨n, hn⟩
    exact ⟨n + 1, by rwa [loop_again h]⟩

theorem ends_of_reaches (h : Reaches step s t) (hends : Ends step s) : Ends step t := by
  induction h with
  | refl => exact hends
  | tail _ hgoes ih => exact (ends_of_goes hgoes).mp ih

theorem loop_of_goes_self (h : Goes step s s) (n : Nat) : loop step n s = none := by
  induction n with
  | zero => rfl
  | succ n ih => rwa [loop_again h]

theorem not_ends_of_goes_self (h : Goes step s s) : ¬ Ends step s := by
  rintro ⟨n, hn⟩
  rw [loop_of_goes_self h n] at hn
  cases hn

section Chain

variable {π : Type} (place : σ → π) {next : π → π} {passes : π → Prop}

/-- A loop that goes along a chain ends where it cannot pass. -/
theorem ends_of_chain (hgoes : ∀ s t, Goes step s t → passes (place s) ∧ place t = next (place s))
    {k : Nat} (hstop : ¬ passes (next^[k] (place s))) : Ends step s := by
  induction k generalizing s with
  | zero =>
    cases hstep : step s with
    | again t => exact absurd (hgoes s t hstep).1 hstop
    | leave r => exact ⟨1, by rw [loop_leave hstep]; rfl⟩
  | succ k ih =>
    cases hstep : step s with
    | again t =>
      refine (ends_of_goes hstep).mpr (ih ?_)
      rwa [(hgoes s t hstep).2]
    | leave r => exact ⟨1, by rw [loop_leave hstep]; rfl⟩

theorem not_ends_of_chain
    (hpass : ∀ s, passes (place s) → ∃ t, Goes step s t ∧ place t = next (place s))
    (hall : ∀ k, passes (next^[k] (place s))) : ¬ Ends step s := by
  rintro ⟨n, hn⟩
  induction n generalizing s with
  | zero => cases hn
  | succ n ih =>
    obtain ⟨t, hgoes, hplace⟩ := hpass s (hall 0)
    rw [loop_again hgoes] at hn
    refine ih (fun k => ?_) hn
    rw [hplace]
    exact hall (k + 1)

/-- A chain of places below a bound comes to an end if and only if, as long as it passes, no place
    comes back. -/
theorem exists_not_passes_iff {next : Nat → Nat} {passes : Nat → Prop} {bound : Nat}
    (hbound : ∀ p, passes p → p < bound) (start : Nat) :
    (∃ k, ¬ passes (next^[k] start)) ↔
      ∀ i j, i < j → (∀ k < j, passes (next^[k] start)) → next^[i] start ≠ next^[j] start := by
  constructor
  · rintro ⟨n, hstop⟩ i j hij hpass heq
    -- the places from `j` on are those from `i` on
    refine hstop (Nat.strongRecOn n fun k ih => ?_)
    rcases Nat.lt_or_ge k j with hk | hk
    · exact hpass k hk
    · have hback : next^[k] start = next^[k - j + i] start := by
        rw [Function.iterate_add_apply, heq, ← Function.iterate_add_apply, Nat.sub_add_cancel hk]
      rw [hback]
      exact ih _ (by omega)
  · intro hne
    by_contra hall
    rw [not_exists] at hall
    have hpass := fun k => not_not.mp (hall k)
    obtain ⟨i, -, j, -, hij, heq⟩ := Finset.exists_ne_map_eq_of_card_lt_of_maps_to
      (s := Finset.range (bound + 1)) (t := Finset.range bound) (f := fun k => next^[k] start)
      (by simp) (fun k _ => by simpa using hbound _ (hpass k))
    rcases Nat.lt_or_gt_of_ne hij with hlt | hlt
    · exact hne i j hlt (fun k _ => hpass k) heq
    · exact hne j i hlt (fun k _ => hpass k) heq.symm

end Chain

section Places

variable {place : σ → Nat} {bound : Nat}

/-- A loop that ends does not come back to a place: it would go on from there as before. -/
theorem place_ne_of_ends
    (hplace : ∀ s s' t, place s = place s' → Goes step s t →
      ∃ t', Goes step s' t' ∧ place t = place t')
    (hends : Ends step s) : ∀ t, TransGen (Goes step) s t → place t ≠ place s := by
  obtain ⟨n, hn⟩ := hends
  induction n generalizing s with
  | zero => cases hn
  | succ n ih =>
    intro t hst heq
    obtain ⟨s₁, hs₁, hs₁t⟩ := TransGen.head'_iff.mp hst
    obtain ⟨t₁, ht₁, hplaces⟩ := hplace s t s₁ heq.symm hs₁
    rw [loop_again hs₁] at hn
    exact ih hn t₁ (TransGen.tail' hs₁t ht₁) hplaces.symm

open Classical in
/-- With each round there is one place less to come. -/
theorem ends_of_place_ne (hbound : ∀ s t, Goes step s t → place s < bound)
    (hne : ∀ t u, Reaches step s t → TransGen (Goes step) t u → place u ≠ place t) :
    ∃ r, loop step (bound + 1) s = some r := by
  refine exists_loop_eq
    (fun s => ∀ t u, Reaches step s t → TransGen (Goes step) t u → place u ≠ place t)
    (fun s => ((Finset.range bound).filter fun p => ∃ t, Reaches step s t ∧ place t = p).card)
    (fun s t hs hstep => ⟨fun u v hu => hs u v (ReflTransGen.head hstep hu), ?_⟩)
    (bound + 1) s hne ?_
  · refine Finset.card_lt_card ((Finset.ssubset_iff_of_subset ?_).mpr ⟨place s, ?_, fun hmem => ?_⟩)
    · exact Finset.monotone_filter_right _
        fun p _ ⟨u, hu, hp⟩ => ⟨u, ReflTransGen.head hstep hu, hp⟩
    · exact Finset.mem_filter.mpr ⟨Finset.mem_range.mpr (hbound s t hstep), s, .refl, rfl⟩
    · obtain ⟨-, u, hu, heq⟩ := Finset.mem_filter.mp hmem
      exact hs s u .refl (TransGen.head' hstep hu) heq
  · exact Nat.lt_succ_of_le ((Finset.card_filter_le _ _).trans_eq (Finset.card_range bound))

/-- **The end of a loop over places.** -/
theorem ends_iff
    (hplace : ∀ s s' t, place s = place s' → Goes step s t →
      ∃ t', Goes step s' t' ∧ place t = place t')
    (hbound : ∀ s t, Goes step s t → place s < bound) (s : σ) :
    Ends step s ↔ ∀ t u, Reaches step s t → TransGen (Goes step) t u → place u ≠ place t := by
  constructor
  · intro hends t u hst
    exact place_ne_of_ends hplace (ends_of_reaches hst hends) u
  · intro hne
    exact ⟨bound + 1, Option.isSome_iff_exists.mpr (ends_of_place_ne hbound hne)⟩

end Places

end Rooter.Walk
