import Rooter.Execution

/-!
# Loops

A loop repeats a step that either goes on in a new state or leaves with a result.  The
number of repetitions is bounded by an argument, so that loops can be run.  A quantity that
decreases with each repetition shows that the bound is never met: then the loop leaves, and
a larger bound leads to the same result.
-/

namespace Rooter.Loop

variable {σ ρ : Type}

inductive Next (σ ρ : Type) where
  | again (s : σ)
  | leave (r : ρ)

def loop (step : σ → Next σ ρ) : Nat → σ → Option ρ
  | 0, _ => none
  | n + 1, s =>
      match step s with
      | .again t => loop step n t
      | .leave r => some r

variable {step : σ → Next σ ρ}

theorem loop_again {n : Nat} {s t : σ} (h : step s = .again t) :
    loop step (n + 1) s = loop step n t := by
  rw [loop, h]

theorem loop_leave {n : Nat} {s : σ} {r : ρ} (h : step s = .leave r) :
    loop step (n + 1) s = some r := by
  rw [loop, h]

/-- **Invariant rule.**  What the step preserves holds when the loop is left, and `post`
    follows from it for the result. -/
theorem loop_invariant (inv : σ → Prop) (post : ρ → Prop)
    (hagain : ∀ s t, inv s → step s = .again t → inv t)
    (hleave : ∀ s r, inv s → step s = .leave r → post r) :
    ∀ (n : Nat) (s : σ) (r : ρ), inv s → loop step n s = some r → post r := by
  intro n
  induction n with
  | zero =>
    intro s r _ h
    cases h
  | succ n ih =>
    intro s r hs h
    cases hstep : step s with
    | again t =>
      rw [loop_again hstep] at h
      exact ih t r (hagain s t hs hstep) h
    | leave r' =>
      rw [loop_leave hstep] at h
      cases h
      exact hleave s r hs hstep

def Next.map {σ' ρ' : Type} (f : σ → σ') (g : ρ → ρ') : Next σ ρ → Next σ' ρ'
  | .again s => .again (f s)
  | .leave r => .leave (g r)

/-- **Simulation rule.**  Steps that correspond make loops that correspond. -/
theorem loop_map {σ' ρ' : Type} {step' : σ' → Next σ' ρ'} {f : σ → σ'} {g : ρ → ρ'}
    (inv : σ → Prop) (hagain : ∀ s t, inv s → step s = .again t → inv t)
    (hstep : ∀ s, inv s → step' (f s) = (step s).map f g) :
    ∀ (n : Nat) (s : σ), inv s → loop step' n (f s) = (loop step n s).map g := by
  intro n
  induction n with
  | zero => exact fun _ _ => rfl
  | succ n ih =>
    intro s hs
    have hsim := hstep s hs
    cases hnext : step s with
    | again t =>
      rw [hnext] at hsim
      rw [loop_again hnext, loop_again hsim, ih t (hagain s t hs hnext)]
    | leave r =>
      rw [hnext] at hsim
      rw [loop_leave hnext, loop_leave hsim, Option.map_some]

def Next.Satisfies (inv : σ → Prop) (post : ρ → Prop) : Next σ ρ → Prop
  | .again s => inv s
  | .leave r => post r

theorem loop_satisfies (inv : σ → Prop) (post : ρ → Prop)
    (h : ∀ s, inv s → (step s).Satisfies inv post) :
    ∀ (n : Nat) (s : σ) (r : ρ), inv s → loop step n s = some r → post r := by
  refine loop_invariant inv post (fun s t hs hstep => ?_) fun s r hs hstep => ?_
  · have hsat := h s hs
    rwa [hstep] at hsat
  · have hsat := h s hs
    rwa [hstep] at hsat

/-- **Termination rule.**  A bound above the decreasing quantity is never met. -/
theorem exists_loop_eq (inv : σ → Prop) (size : σ → Nat)
    (hagain : ∀ s t, inv s → step s = .again t → inv t ∧ size t < size s) :
    ∀ (n : Nat) (s : σ), inv s → size s < n → ∃ r, loop step n s = some r := by
  intro n
  induction n with
  | zero =>
    intro s _ h
    exact absurd h (by omega)
  | succ n ih =>
    intro s hs hn
    cases hstep : step s with
    | again t =>
      obtain ⟨ht, hlt⟩ := hagain s t hs hstep
      rw [loop_again hstep]
      exact ih t ht (by omega)
    | leave r => exact ⟨r, loop_leave hstep⟩

/-- What a round of a numbered loop does: it leaves with a result, or the next round follows. -/
def Next.ofRound (state : Nat → σ) (r : Nat) : Option ρ → Next σ ρ
  | some v => .leave v
  | none => .again (state (r + 1))

/-- **Numbered rounds.**  Where the state of each round is known, the loop leaves in the first
    round that has a result. -/
theorem loop_eq_some_iff_first {state : Nat → σ} {result : Nat → Option ρ}
    (h : ∀ r, step (state r) = Next.ofRound state r (result r)) (v : ρ) :
    ∀ n r : Nat, loop step n (state r) = some v ↔
      ∃ t < n, result (r + t) = some v ∧ ∀ t' < t, result (r + t') = none := by
  intro n
  induction n with
  | zero => simp [loop]
  | succ n ih =>
    intro r
    have hstep := h r
    cases hres : result r with
    | some w =>
      rw [hres] at hstep
      rw [loop_leave hstep]
      constructor
      · intro heq
        exact ⟨0, Nat.succ_pos n, by rw [Nat.add_zero, hres, heq], fun t' ht' => by omega⟩
      · rintro ⟨t, -, hv, hnone⟩
        rcases Nat.eq_zero_or_pos t with rfl | hpos
        · rw [← hv, Nat.add_zero, hres]
        · have hzero := hnone 0 hpos
          rw [Nat.add_zero, hres] at hzero
          cases hzero
    | none =>
      rw [hres] at hstep
      rw [loop_again hstep, ih (r + 1)]
      constructor
      · rintro ⟨t, ht, hv, hnone⟩
        refine ⟨t + 1, Nat.succ_lt_succ ht, by rw [← hv]; congr 1; omega, fun t' ht' => ?_⟩
        rcases t' with _ | t'
        · exact hres
        · rw [← hnone t' (by omega)]
          congr 1
          omega
      · rintro ⟨t, ht, hv, hnone⟩
        rcases t with _ | t
        · rw [Nat.add_zero, hres] at hv
          cases hv
        · refine ⟨t, Nat.lt_of_succ_lt_succ ht, by rw [← hv]; congr 1; omega, fun t' ht' => ?_⟩
          rw [← hnone (t' + 1) (by omega)]
          congr 1
          omega

end Rooter.Loop
