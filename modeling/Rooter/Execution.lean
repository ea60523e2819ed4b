import Mathlib.Logic.Relation

/-!
# Runs of a transition function

A system is a partial function `step` from states and actions to states.  `Steps`
is reachability through actions that meet a condition on the state they are taken
in; with the trivial condition it is plain reachability.
-/

namespace Rooter.Execution

open List

variable {σ α : Type}

/-- A property of the state in which a run ends can be tested. -/
instance decidableEnds (x : Option σ) (post : σ → Prop) [DecidablePred post] :
    Decidable (∃ s, x = some s ∧ post s) :=
  decidable_of_iff (∃ s ∈ x, post s) Iff.rfl

/-- The states reached from a state by actions that meet `ok`. -/
def Steps (step : σ → α → Option σ) (ok : σ → α → Prop) : σ → σ → Prop :=
  Relation.ReflTransGen fun s t => ∃ a, ok s a ∧ step s a = some t

variable {step : σ → α → Option σ} {ok : σ → α → Prop} {s t : σ}

/-- **Invariant rule.**  What every admitted step preserves holds in every state reached. -/
theorem Steps.invariant {inv : σ → Prop} (hrun : Steps step ok s t) (hinit : inv s)
    (hstep : ∀ s a t, inv s → ok s a → step s a = some t → inv t) : inv t := by
  induction hrun with
  | refl => exact hinit
  | tail _ hlast ih =>
    obtain ⟨a, hok, hs⟩ := hlast
    exact hstep _ a _ ih hok hs

/-- Every action of the list meets `ok` in the state it is taken in. -/
def Admitted (step : σ → α → Option σ) (ok : σ → α → Prop) : σ → List α → Prop
  | _, [] => True
  | s, a :: actions => ok s a ∧ ∀ t, step s a = some t → Admitted step ok t actions

instance Admitted.decidable [∀ s a, Decidable (ok s a)] :
    ∀ s (actions : List α), Decidable (Admitted step ok s actions)
  | _, [] => isTrue trivial
  | s, a :: actions =>
      match hs : step s a with
      | none => decidable_of_iff (ok s a)
          ⟨fun h => ⟨h, fun _ ht => nomatch hs.symm.trans ht⟩, fun h => h.1⟩
      | some t =>
          have := Admitted.decidable t actions
          decidable_of_iff (ok s a ∧ Admitted step ok t actions)
            ⟨fun h => ⟨h.1, fun _ ht => Option.some.inj (hs.symm.trans ht) ▸ h.2⟩,
              fun h => ⟨h.1, h.2 t hs⟩⟩

/-- A list of admitted actions that can be taken one after the other is a run. -/
theorem Steps.of_foldlM (actions : List α) :
    ∀ s, Admitted step ok s actions → actions.foldlM step s = some t → Steps step ok s t := by
  induction actions with
  | nil =>
    intro s _ hfold
    cases hfold
    exact Relation.ReflTransGen.refl
  | cons a actions ih =>
    intro s hadm hfold
    rw [foldlM_cons, Option.bind_eq_bind, Option.bind_eq_some_iff] at hfold
    obtain ⟨u, hstep, hrest⟩ := hfold
    exact Relation.ReflTransGen.head ⟨a, hadm.1, hstep⟩ (ih u (hadm.2 u hstep) hrest)

theorem Admitted.imp {ok' : σ → α → Prop} (himp : ∀ s a, ok s a → ok' s a) (actions : List α) :
    ∀ s, Admitted step ok s actions → Admitted step ok' s actions := by
  induction actions with
  | nil => exact fun _ h => h
  | cons a actions ih => exact fun s h => ⟨himp s a h.1, fun t hs => ih t (h.2 t hs)⟩

/-- **Exactness rule.**  Where an action is admitted just when it can be taken and keeps `inv`,
    a list is admitted just when each of its beginnings leads to a state with `inv`. -/
theorem admitted_iff {inv : σ → Prop}
    (hexact : ∀ s a, inv s → (ok s a ↔ ∃ t, step s a = some t ∧ inv t)) (actions : List α) :
    ∀ s, inv s → (Admitted step ok s actions ↔
      ∀ taken, taken <+: actions → ∃ t, taken.foldlM step s = some t ∧ inv t) := by
  induction actions with
  | nil =>
    intro s hs
    refine ⟨fun _ taken htaken => ?_, fun _ => trivial⟩
    rw [prefix_nil.mp htaken]
    exact ⟨s, rfl, hs⟩
  | cons a actions ih =>
    intro s hs
    constructor
    · rintro ⟨hok, hrest⟩ taken htaken
      obtain ⟨t, hstep, ht⟩ := (hexact s a hs).mp hok
      rcases taken with _ | ⟨b, taken⟩
      · exact ⟨s, rfl, hs⟩
      · obtain ⟨rfl, hbehind⟩ := cons_prefix_cons.mp htaken
        obtain ⟨u, hfold, hu⟩ := (ih t ht).mp (hrest t hstep) taken hbehind
        exact ⟨u, by rw [foldlM_cons, hstep]; exact hfold, hu⟩
    · intro hall
      have hone : [a] <+: a :: actions := cons_prefix_cons.mpr ⟨rfl, nil_prefix⟩
      obtain ⟨t, hfold, ht⟩ := hall [a] hone
      have hstep : step s a = some t := by simpa using hfold
      refine ⟨(hexact s a hs).mpr ⟨t, hstep, ht⟩, fun t' hstep' => ?_⟩
      cases Option.some.inj (hstep.symm.trans hstep')
      refine (ih t ht).mpr fun taken htaken => ?_
      obtain ⟨u, hfold, hu⟩ := hall (a :: taken) (cons_prefix_cons.mpr ⟨rfl, htaken⟩)
      rw [foldlM_cons, hstep] at hfold
      exact ⟨u, hfold, hu⟩

theorem admitted_true (actions : List α) : ∀ s, Admitted step (fun _ _ => True) s actions := by
  induction actions with
  | nil => intro s; exact trivial
  | cons a actions ih => intro s; exact ⟨trivial, fun t _ => ih t⟩

end Rooter.Execution
