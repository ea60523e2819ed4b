import Mathlib.Data.Finset.Card

/-!
# Growing edges

In a graph with finitely many nodes some of the edges are growing.  A walk takes at most as many
growing edges as there are nodes if no cycle with one can be reached; the number of nodes that
can still be reached goes down with each of them.  If such a cycle can be reached, a walk takes
any number of them.
-/

namespace Rooter.Growth

open Relation

variable {α : Type} {edge grow : α → α → Prop} {a b : α}

def Bounded (edge grow : α → α → Prop) (a : α) : Prop :=
  ∀ b c, ReflTransGen edge a b → grow b c → ¬ ReflTransGen edge c b

theorem Bounded.of_edge (h : Bounded edge grow a) (hab : edge a b) : Bounded edge grow b :=
  fun c d hbc hgrow => h c d (ReflTransGen.head hab hbc) hgrow

theorem Bounded.mono {edge' grow' : α → α → Prop} (h : Bounded edge grow a)
    (hedge : ∀ b c, edge' b c → edge b c) (hgrow : ∀ b c, grow' b c → grow b c) :
    Bounded edge' grow' a :=
  fun b c hab hbc hcb => h b c (ReflTransGen.mono hedge _ _ hab) (hgrow b c hbc)
    (ReflTransGen.mono hedge _ _ hcb)

section Rank

open Classical

noncomputable def rank (nodes : Finset α) (edge : α → α → Prop) (a : α) : Nat :=
  (nodes.filter fun b => ReflTransGen edge a b).card

variable {nodes : Finset α}

theorem rank_le_card : rank nodes edge a ≤ nodes.card := Finset.card_filter_le _ _

theorem rank_le_of_edge (h : edge a b) : rank nodes edge b ≤ rank nodes edge a := by
  apply Finset.card_le_card
  exact Finset.monotone_filter_right _ fun c _ hc => ReflTransGen.head h hc

theorem rank_mono {edge' : α → α → Prop} (h : ∀ b c, edge' b c → edge b c) :
    rank nodes edge' a ≤ rank nodes edge a := by
  apply Finset.card_le_card
  exact Finset.monotone_filter_right _ fun c _ hc => ReflTransGen.mono h _ _ hc

theorem rank_lt_of_grow (ha : a ∈ nodes) (hbounded : Bounded edge grow a) (hedge : edge a b)
    (hgrow : grow a b) : rank nodes edge b < rank nodes edge a := by
  apply Finset.card_lt_card
  refine Finset.ssubset_iff_of_subset ?_ |>.mpr ⟨a, ?_, ?_⟩
  · exact Finset.monotone_filter_right _ fun c _ hc => ReflTransGen.head hedge hc
  · simp only [Finset.mem_filter]
    exact ⟨ha, ReflTransGen.refl⟩
  · simp only [Finset.mem_filter, not_and]
    exact fun _ => hbounded a b ReflTransGen.refl hgrow

end Rank

/-! ### Levels -/

section Level

variable {S : α → Prop} {level : α → Nat} (hedge : ∀ b c, S b → edge b c → S c ∧ level c ≤ level b)

include hedge

theorem level_le_of_reflTransGen (ha : S a) (h : ReflTransGen edge a b) :
    S b ∧ level b ≤ level a := by
  induction h with
  | refl => exact ⟨ha, Nat.le_refl _⟩
  | tail _ hstep ih =>
    obtain ⟨hc, hle⟩ := hedge _ _ ih.1 hstep
    exact ⟨hc, Nat.le_trans hle ih.2⟩

/-- No growing edge lies on a cycle if the edges do not go up, and the growing ones go down. -/
theorem bounded_of_level (hgrow : ∀ b c, S b → grow b c → S c ∧ level c < level b) (ha : S a) :
    Bounded edge grow a := by
  intro b c hab hbc hcb
  obtain ⟨hb, -⟩ := level_le_of_reflTransGen hedge ha hab
  obtain ⟨hc, hlt⟩ := hgrow b c hb hbc
  obtain ⟨-, hle⟩ := level_le_of_reflTransGen hedge hc hcb
  omega

end Level

/-! ### Weights -/

section Weight

variable {β : Type} {W : β → Prop} {node : β → α} {weight : β → Nat}

theorem exists_of_reflTransGen
    (hstep : ∀ x c, W x → edge (node x) c → ∃ y, W y ∧ node y = c ∧ weight x ≤ weight y)
    {x : β} (hx : W x) (h : ReflTransGen edge (node x) b) :
    ∃ y, W y ∧ node y = b ∧ weight x ≤ weight y := by
  induction h with
  | refl => exact ⟨x, hx, rfl, Nat.le_refl _⟩
  | tail _ hedge ih =>
    obtain ⟨y, hy, rfl, hle⟩ := ih
    obtain ⟨z, hz, hnode, hle'⟩ := hstep y _ hy hedge
    exact ⟨z, hz, hnode, Nat.le_trans hle hle'⟩

/-- A set that follows the edges, with a weight that the growing ones raise, has no bound on the
    weight if a cycle with a growing edge can be reached. -/
theorem bounded_of_weight_le {limit : Nat} (hlimit : ∀ x, W x → weight x ≤ limit)
    (hstep : ∀ x c, W x → edge (node x) c → ∃ y, W y ∧ node y = c ∧ weight x ≤ weight y)
    (hgrow : ∀ x c, W x → grow (node x) c → ∃ y, W y ∧ node y = c ∧ weight x < weight y)
    {x : β} (hx : W x) : Bounded edge grow (node x) := by
  intro b c hreach hbc hback
  -- by the number of turns of the cycle
  have hlong : ∀ n, ∃ y, W y ∧ node y = b ∧ n ≤ weight y := by
    intro n
    induction n with
    | zero =>
      obtain ⟨y, hy, hnode, -⟩ := exists_of_reflTransGen hstep hx hreach
      exact ⟨y, hy, hnode, Nat.zero_le _⟩
    | succ n ih =>
      obtain ⟨y, hy, rfl, hn⟩ := ih
      obtain ⟨z, hz, rfl, hlt⟩ := hgrow y c hy hbc
      obtain ⟨u, hu, hnode, hle⟩ := exists_of_reflTransGen hstep hz hback
      exact ⟨u, hu, hnode, by omega⟩
  obtain ⟨y, hy, -, hn⟩ := hlong (limit + 1)
  exact absurd (hlimit y hy) (by omega)

end Weight

end Rooter.Growth
