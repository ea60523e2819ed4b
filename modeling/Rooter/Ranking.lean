import Mathlib.Data.List.Nodup
import Mathlib.Data.Set.Function

/-!
# Elements ordered by a condition

`ranked p l` is the list `l` with the elements that meet `p` first, each part in its old
order.  A map that sends the elements of a list, one after the other, to its ranking is a
bijection.  `demote` tells what becomes of the ranking when one element no longer meets the
condition: those behind it move up by one place.  An interval of numbers can be told from the
places that one of its numbers gets under all conditions.
-/

namespace Rooter.Ranking

open List

variable {α : Type} {p : α → Bool} {l : List α}

def ranked (p : α → Bool) (l : List α) : List α := l.filter p ++ l.filter fun a => !p a

theorem ranked_perm (p : α → Bool) (l : List α) : (ranked p l).Perm l :=
  filter_append_perm p l

theorem length_ranked (p : α → Bool) (l : List α) : (ranked p l).length = l.length :=
  (ranked_perm p l).length_eq

theorem ranked_congr {q : α → Bool} (h : ∀ a ∈ l, p a = q a) : ranked p l = ranked q l := by
  unfold ranked
  rw [filter_congr h, filter_congr fun a ha => congrArg Bool.not (h a ha)]

theorem getElem?_ranked_of_lt {k : Nat} (hk : k < (l.filter p).length) :
    (ranked p l)[k]? = (l.filter p)[k]? :=
  getElem?_append_left hk

theorem getElem?_ranked_of_le {k : Nat} (hk : (l.filter p).length ≤ k) :
    (ranked p l)[k]? = (l.filter fun a => !p a)[k - (l.filter p).length]? :=
  getElem?_append_right hk

theorem bijOn_of_map_eq {f : α → α} (hl : l.Nodup) (h : l.map f = ranked p l) :
    Set.BijOn f {a | a ∈ l} {a | a ∈ l} := by
  have hmem : ∀ b, b ∈ l.map f ↔ b ∈ l := fun b => by rw [h, (ranked_perm p l).mem_iff]
  refine ⟨?_, ?_, ?_⟩
  · intro a ha
    exact (hmem (f a)).mp (mem_map_of_mem ha)
  · intro a ha b hb heq
    have hnodup : (l.map f).Nodup := by
      rw [h, (ranked_perm p l).nodup_iff]
      exact hl
    exact inj_on_of_nodup_map hnodup ha hb heq
  · intro b hb
    obtain ⟨a, ha, heq⟩ := mem_map.mp ((hmem b).mpr hb)
    exact ⟨a, ha, heq⟩

/-! ### Taking the condition from an element -/

section Demote

variable [DecidableEq α]

/-- The condition without `x`. -/
def demote (p : α → Bool) (x : α) (a : α) : Bool := p a && a != x

variable {x : α} {k : Nat} (hl : l.Nodup) (hk : (l.filter p)[k]? = some x)

include hl hk

theorem filter_demote : l.filter (demote p x) = (l.filter p).eraseIdx k := by
  obtain ⟨hlt, hx⟩ := List.getElem?_eq_some_iff.mp hk
  have hnodup : (l.filter p).Nodup := hl.filter p
  rw [← hnodup.erase_getElem k hlt, hx, hnodup.erase_eq_filter, filter_filter]
  refine filter_congr fun a _ => ?_
  exact Bool.and_comm _ _

theorem length_filter_demote : (l.filter (demote p x)).length + 1 = (l.filter p).length := by
  obtain ⟨hlt, -⟩ := List.getElem?_eq_some_iff.mp hk
  rw [filter_demote hl hk, length_eraseIdx_of_lt hlt]
  omega

theorem ranked_demote_of_lt {i : Nat} (hi : i < k) :
    (ranked (demote p x) l)[i]? = (ranked p l)[i]? := by
  obtain ⟨hlt, -⟩ := List.getElem?_eq_some_iff.mp hk
  have hlen := length_filter_demote hl hk
  rw [getElem?_ranked_of_lt (by omega), getElem?_ranked_of_lt (by omega), filter_demote hl hk,
    getElem?_eraseIdx_of_lt hi]

theorem ranked_demote_self (hnext : k + 1 < (l.filter p).length) :
    (ranked (demote p x) l)[k]? = (ranked p l)[k + 1]? := by
  have hlen := length_filter_demote hl hk
  rw [getElem?_ranked_of_lt (by omega), getElem?_ranked_of_lt hnext, filter_demote hl hk,
    getElem?_eraseIdx_of_ge (Nat.le_refl k)]

theorem ranked_demote_last (hlast : k + 1 = (l.filter p).length) :
    (ranked (demote p x) l)[k]? = l.find? fun a => !demote p x a := by
  have hlen := length_filter_demote hl hk
  rw [getElem?_ranked_of_le (by omega), show k - (l.filter (demote p x)).length = 0 by omega,
    ← head?_eq_getElem?, head?_filter]

end Demote

/-! ### Intervals -/

section Interval

/-- Where `b` goes if the condition is `p` and the interval is from `s` to `e - 1`. -/
def place (p : Nat → Bool) (s e b : Nat) : Option Nat := (ranked p (range' s (e - s)))[b - s]?

variable {s e t b : Nat}

theorem place_congr {p q : Nat → Bool} (h : ∀ a, s ≤ a → a < e → p a = q a) :
    place p s e b = place q s e b := by
  unfold place
  rw [ranked_congr fun a ha => ?_]
  have hmem := mem_range'_1.mp ha
  exact h a hmem.1 (by omega)

theorem exists_place (p : Nat → Bool) (hs : s ≤ b) (he : b < e) : ∃ x, place p s e b = some x := by
  have hlt : b - s < (ranked p (range' s (e - s))).length := by
    rw [length_ranked, length_range']
    omega
  exact ⟨_, getElem?_eq_getElem hlt⟩

theorem mem_of_place {p : Nat → Bool} {x : Nat} (h : place p s e b = some x) : s ≤ x ∧ x < e := by
  have hmem := mem_range'_1.mp ((ranked_perm _ _).mem_iff.mp (mem_of_getElem? h))
  omega

theorem exists_of_place (p : Nat → Bool) {x : Nat} (hs : s ≤ x) (he : x < e) :
    ∃ b, s ≤ b ∧ b < e ∧ place p s e b = some x := by
  have hmem : x ∈ ranked p (range' s (e - s)) :=
    (ranked_perm p _).mem_iff.mpr (mem_range'_1.mpr ⟨hs, by omega⟩)
  obtain ⟨k, hk⟩ := mem_iff_getElem?.mp hmem
  obtain ⟨hlt, -⟩ := List.getElem?_eq_some_iff.mp hk
  rw [length_ranked, length_range'] at hlt
  refine ⟨s + k, Nat.le_add_right s k, by omega, ?_⟩
  unfold place
  rwa [Nat.add_sub_cancel_left]

theorem place_singleton (p : Nat → Bool) : place p b (b + 1) b = some b := by
  unfold place ranked
  cases hb : p b <;> simp [hb]

/-- Under the condition that a number is not below `t` the interval is cut at `t` and its two
    parts change places. -/
theorem ranked_not_lt (hst : s ≤ t) (hte : t ≤ e) :
    ranked (fun a => !decide (a < t)) (range' s (e - s)) =
      range' t (e - t) ++ range' s (t - s) := by
  have hcut : range' s (e - s) = range' s (t - s) ++ range' t (e - t) := by
    have happ := @range'_append_1 s (t - s) (e - t)
    rw [show s + (t - s) = t by omega, show t - s + (e - t) = e - s by omega] at happ
    exact happ.symm
  have hlow : ∀ a ∈ range' s (t - s), a < t := by
    intro a ha
    have hmem := mem_range'_1.mp ha
    omega
  have hhigh : ∀ a ∈ range' t (e - t), ¬a < t := by
    intro a ha
    have hmem := mem_range'_1.mp ha
    omega
  unfold ranked
  rw [hcut, filter_append, filter_append,
    filter_eq_nil_iff.mpr fun a ha => by simp [hlow a ha],
    filter_eq_self.mpr fun a ha => by simp [Nat.le_of_not_lt (hhigh a ha)],
    filter_eq_self.mpr fun a ha => by simp [hlow a ha],
    filter_eq_nil_iff.mpr fun a ha => by simp [hhigh a ha],
    nil_append, append_nil]

theorem place_of_le (ht : t ≤ s) (hs : s ≤ b) (he : b < e) :
    place (fun a => !decide (a < t)) s e b = some b := by
  have hsame : ranked (fun a => !decide (a < t)) (range' s (e - s)) =
      ranked (fun a => !decide (a < s)) (range' s (e - s)) := by
    refine ranked_congr fun a ha => ?_
    have hmem := mem_range'_1.mp ha
    rw [decide_eq_false (by omega), decide_eq_false (by omega)]
  unfold place
  rw [hsame, ranked_not_lt (Nat.le_refl s) (by omega), Nat.sub_self, range'_zero,
    append_nil, getElem?_range' (by omega), Nat.one_mul, Nat.add_sub_cancel' hs]

theorem place_of_lt (hst : s ≤ t) (hs : s ≤ b) (h : b + (t - s) < e) :
    place (fun a => !decide (a < t)) s e b = some (b + (t - s)) := by
  unfold place
  rw [ranked_not_lt hst (by omega), getElem?_append_left (by rw [length_range']; omega),
    getElem?_range' (by omega)]
  exact congrArg some (by omega)

theorem place_of_ge (hte : t ≤ e) (he : b < e) (h : e ≤ b + (t - s)) (hs : s ≤ b) :
    place (fun a => !decide (a < t)) s e b = some (b + t - e) := by
  unfold place
  rw [ranked_not_lt (by omega) hte, getElem?_append_right (by rw [length_range']; omega),
    length_range', getElem?_range' (by omega)]
  exact congrArg some (by omega)

variable {s' e' : Nat}

theorem start_le_of_place (hs : s ≤ b) (he : b < e) (hs' : s' ≤ b) (he' : b < e')
    (h : ∀ p, place p s e b = place p s' e' b) : s ≤ s' := by
  refine Nat.le_of_not_lt fun hlt => ?_
  have hcut := h fun a => !decide (a < s' + 1)
  rw [place_of_le hlt hs he] at hcut
  by_cases hin : b + 1 < e'
  · rw [place_of_lt (by omega) hs' (by omega)] at hcut
    have hb := Option.some.inj hcut
    omega
  · rw [place_of_ge (by omega) he' (by omega) hs'] at hcut
    have hb := Option.some.inj hcut
    omega

theorem stop_le_of_place (hs : s ≤ b) (he' : b < e')
    (h : ∀ p, place p s e b = place p s e' b) : e ≤ e' := by
  refine Nat.le_of_not_lt fun hlt => ?_
  have hcut := h fun a => !decide (a < s + e' - b)
  rw [place_of_lt (by omega) hs (by omega), place_of_ge (by omega) he' (by omega) hs] at hcut
  have hb := Option.some.inj hcut
  omega

theorem ends_eq_of_place (hs : s ≤ b) (he : b < e) (hs' : s' ≤ b) (he' : b < e')
    (h : ∀ p, place p s e b = place p s' e' b) : s = s' ∧ e = e' := by
  obtain rfl : s = s' := Nat.le_antisymm (start_le_of_place hs he hs' he' h)
    (start_le_of_place hs' he' hs he fun p => (h p).symm)
  exact ⟨rfl, Nat.le_antisymm (stop_le_of_place hs he' h)
    (stop_le_of_place hs he fun p => (h p).symm)⟩

end Interval

end Rooter.Ranking
