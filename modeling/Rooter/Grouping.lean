import Mathlib.Data.List.Range
import Mathlib.Data.List.Nodup

/-!
# Grouping numbered items by a key

Items sit at some of the positions 0, 1, 2, ...; an item may have a key.  Items of
one key form a group, an item without key is a group of its own.  The *head* of a
group is its first member.  Walking over the positions in increasing order and
taking out each group at its head visits every item exactly once.
-/

namespace Rooter.Grouping

open List

variable {α κ : Type} (item : Nat → Option α) (key : α → Option κ)

def keyAt (i : Nat) : Option κ := (item i).bind key

def Linked (i j : Nat) : Prop := (keyAt item key i).isSome ∧ keyAt item key i = keyAt item key j

def IsHead (i : Nat) : Prop := (item i).isSome ∧ ∀ h < i, ¬ Linked item key h i

section Decidable

variable [DecidableEq κ]

instance (i j : Nat) : Decidable (Linked item key i j) := inferInstanceAs (Decidable (_ ∧ _))

instance (i : Nat) : Decidable (IsHead item key i) := inferInstanceAs (Decidable (_ ∧ _))

/-- The members of a group behind its head, among the first `n` positions. -/
def followers (n h : Nat) : List Nat :=
  (range n).filter fun j => h < j ∧ Linked item key h j

def members (n h : Nat) : List Nat := h :: followers item key n h

def heads (n : Nat) : List Nat := (range n).filter fun i => IsHead item key i

end Decidable

variable {item key}

theorem Linked.symm {i j : Nat} (h : Linked item key i j) : Linked item key j i :=
  ⟨h.2 ▸ h.1, h.2.symm⟩

theorem Linked.trans {i j k : Nat} (hij : Linked item key i j) (hjk : Linked item key j k) :
    Linked item key i k :=
  ⟨hij.1, hij.2.trans hjk.2⟩

theorem Linked.isSome {i j : Nat} (h : Linked item key i j) : (item j).isSome = true := by
  have hsome := h.2 ▸ h.1
  cases hj : item j with
  | none => simp [keyAt, hj] at hsome
  | some a => rfl

variable (key) in
theorem exists_head (j : Nat) (hj : (item j).isSome = true) :
    ∃ h ≤ j, IsHead item key h ∧ (h = j ∨ Linked item key h j) := by
  induction j using Nat.strong_induction_on with
  | _ j ih =>
    by_cases hhead : IsHead item key j
    · exact ⟨j, le_refl j, hhead, .inl rfl⟩
    · obtain ⟨i, hi, hlink⟩ : ∃ i, i < j ∧ Linked item key i j := by
        by_contra hnone
        exact hhead ⟨hj, fun i hi hlink => hnone ⟨i, hi, hlink⟩⟩
      obtain ⟨h, hle, hh, hhi⟩ := ih i hi hlink.symm.isSome
      refine ⟨h, by omega, hh, .inr ?_⟩
      rcases hhi with rfl | hhi
      · exact hlink
      · exact hhi.trans hlink

theorem IsHead.eq_of_linked {h h' : Nat} (hh : IsHead item key h) (hh' : IsHead item key h')
    (hlink : Linked item key h h') : h = h' := by
  rcases Nat.lt_trichotomy h h' with hlt | heq | hgt
  · exact absurd hlink (hh'.2 h hlt)
  · exact heq
  · exact absurd hlink.symm (hh.2 h' hgt)

section Walk

variable [DecidableEq κ]

theorem mem_followers {n h j : Nat} :
    j ∈ followers item key n h ↔ j < n ∧ h < j ∧ Linked item key h j := by
  simp [followers]

theorem mem_members {n h j : Nat} :
    j ∈ members item key n h ↔ j = h ∨ (j < n ∧ h < j ∧ Linked item key h j) := by
  rw [members, mem_cons, mem_followers]

theorem mem_heads {n h : Nat} : h ∈ heads item key n ↔ h < n ∧ IsHead item key h := by
  simp [heads]

theorem head_unique {n h h' j : Nat} (hh : IsHead item key h) (hh' : IsHead item key h')
    (hj : j ∈ members item key n h) (hj' : j ∈ members item key n h') : h = h' := by
  rw [mem_members] at hj hj'
  rcases hj with rfl | ⟨-, -, hlink⟩
  · rcases hj' with rfl | ⟨-, -, hlink'⟩
    · rfl
    · exact (hh'.eq_of_linked hh hlink').symm
  · rcases hj' with rfl | ⟨-, -, hlink'⟩
    · exact hh.eq_of_linked hh' hlink
    · exact hh.eq_of_linked hh' (hlink.trans hlink'.symm)

theorem nodup_members (n h : Nat) : (members item key n h).Nodup := by
  rw [members, nodup_cons]
  refine ⟨fun hmem => ?_, nodup_range.filter _⟩
  have := (mem_followers.mp hmem).2.1
  omega

theorem heads_sorted (n : Nat) : (heads item key n).Pairwise (· < ·) :=
  pairwise_lt_range.filter _

variable (key) in
theorem exists_head_members {n j : Nat} (hn : j < n) (hj : (item j).isSome = true) :
    ∃ h ≤ j, IsHead item key h ∧ j ∈ members item key n h := by
  obtain ⟨h, hle, hh, hlink⟩ := exists_head key j hj
  refine ⟨h, hle, hh, mem_members.mpr ?_⟩
  rcases hlink with rfl | hlink
  · exact .inl rfl
  · rcases Nat.lt_or_eq_of_le hle with hlt | rfl
    · exact .inr ⟨hn, hlt, hlink⟩
    · exact .inl rfl

theorem mem_flatMap_members {n j : Nat} :
    j ∈ (heads item key n).flatMap (members item key n) ↔ j < n ∧ (item j).isSome = true := by
  simp only [mem_flatMap, mem_heads]
  constructor
  · rintro ⟨h, ⟨hn, hh⟩, hj⟩
    rcases mem_members.mp hj with rfl | ⟨hjn, -, hlink⟩
    · exact ⟨hn, hh.1⟩
    · exact ⟨hjn, hlink.isSome⟩
  · rintro ⟨hjn, hj⟩
    obtain ⟨h, hle, hh, hmem⟩ := exists_head_members key hjn hj
    exact ⟨h, ⟨by omega, hh⟩, hmem⟩

/-- **No item is visited twice.** -/
theorem nodup_flatMap_members (n : Nat) :
    ((heads item key n).flatMap (members item key n)).Nodup := by
  rw [nodup_flatMap]
  refine ⟨fun h _ => nodup_members n h, ?_⟩
  have hnodup : (heads item key n).Nodup := nodup_range.filter _
  refine hnodup.pairwise_of_forall_ne fun h hh h' hh' hne j hj hj' => hne ?_
  exact head_unique (mem_heads.mp hh).2 (mem_heads.mp hh').2 hj hj'

end Walk

end Rooter.Grouping
