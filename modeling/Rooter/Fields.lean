import Mathlib.Data.List.Count

/-!
# Fields of a line

A line is cut into fields by a separator.  What is put in behind a number of separators does
not change the fields in front of it; `field_substitute` says so for the replacement of a text
by a longer one that starts with it.
-/

namespace Rooter.Fields

open List

variable {α : Type} [DecidableEq α]

/-! ### Fields -/

def rest (sep : α) (l : List α) : List α := (l.dropWhile (· ≠ sep)).drop 1

def field (sep : α) : Nat → List α → List α
  | 0, l => l.takeWhile (· ≠ sep)
  | n + 1, l => field sep n (rest sep l)

section Fields

variable {sep : α} {a : List α}

theorem ne_of_notMem (ha : sep ∉ a) : ∀ x ∈ a, decide (x ≠ sep) = true := fun _ hx =>
  decide_eq_true fun heq => ha (heq ▸ hx)

theorem rest_append_cons (ha : sep ∉ a) (b : List α) : rest sep (a ++ sep :: b) = b := by
  unfold rest
  rw [dropWhile_append_of_pos (ne_of_notMem ha), dropWhile_cons_of_neg (by simp)]
  rfl

theorem field_zero_append_cons (ha : sep ∉ a) (b : List α) : field sep 0 (a ++ sep :: b) = a := by
  unfold field
  rw [takeWhile_append_of_pos (ne_of_notMem ha), takeWhile_cons_of_neg (by simp), append_nil]

theorem field_succ_append_cons (ha : sep ∉ a) (b : List α) (n : Nat) :
    field sep (n + 1) (a ++ sep :: b) = field sep n b :=
  congrArg (field sep n) (rest_append_cons ha b)

theorem field_append {n : Nat} {l : List α} (h : n < l.count sep) (l' : List α) :
    field sep n (l ++ l') = field sep n l := by
  induction n generalizing l with
  | zero =>
    obtain ⟨a, b, rfl, ha⟩ := eq_append_cons_of_mem (count_pos_iff.mp h)
    rw [append_assoc, cons_append, field_zero_append_cons ha, field_zero_append_cons ha]
  | succ n ih =>
    obtain ⟨a, b, rfl, ha⟩ := eq_append_cons_of_mem
      (count_pos_iff.mp (Nat.lt_of_le_of_lt (Nat.zero_le _) h))
    rw [count_append, count_eq_zero.mpr ha, count_cons_self] at h
    rw [append_assoc, cons_append, field_succ_append_cons ha, field_succ_append_cons ha]
    exact ih (by omega)

theorem field_zero_of_notMem (ha : sep ∉ a) : field sep 0 a = a := by
  have htake : (a ++ []).takeWhile (· ≠ sep) = a ++ [].takeWhile (· ≠ sep) :=
    takeWhile_append_of_pos (ne_of_notMem ha)
  simpa [field] using htake

theorem field_intercalate {parts : List (List α)} (h : ∀ part ∈ parts, sep ∉ part) {n : Nat}
    (hn : n < parts.length) : field sep n ([sep].intercalate parts) = parts[n] := by
  induction n generalizing parts with
  | zero =>
    rcases parts with _ | ⟨part, _ | ⟨next, parts⟩⟩
    · exact absurd hn (Nat.not_lt_zero 0)
    · rw [intercalate_singleton]
      exact field_zero_of_notMem (h part (by simp))
    · exact field_zero_append_cons (h part (by simp)) _
  | succ n ih =>
    rcases parts with _ | ⟨part, _ | ⟨next, parts⟩⟩
    · exact absurd hn (Nat.not_lt_zero _)
    · exact absurd (Nat.lt_of_succ_lt_succ hn) (Nat.not_lt_zero n)
    · rw [intercalate_cons_cons, append_assoc, singleton_append,
        field_succ_append_cons (h part (by simp))]
      exact ih (fun q hq => h q (mem_cons_of_mem part hq)) (Nat.lt_of_succ_lt_succ hn)

end Fields

/-! ### Putting in a text -/

/-- Put `ins` behind every occurrence of `pat`.  The number says how much of an occurrence is
    still to be left out. -/
def substitute (pat ins : List α) : Nat → List α → List α
  | _, [] => []
  | 0, x :: l =>
    if pat.isPrefixOf (x :: l) then pat ++ ins ++ substitute pat ins (pat.length - 1) l
    else x :: substitute pat ins 0 l
  | skip + 1, _ :: l => substitute pat ins skip l

section Substitute

variable {sep : α} {pat ins : List α}

theorem substitute_skip (n : Nat) (l : List α) :
    substitute pat ins n l = substitute pat ins 0 (l.drop n) := by
  induction l generalizing n with
  | nil =>
    cases n <;> rfl
  | cons x l ih =>
    cases n with
    | zero => rfl
    | succ n => exact ih n

theorem substitute_of_notMem (hpat : sep ∈ pat) {l : List α} (hl : sep ∉ l) :
    substitute pat ins 0 l = l := by
  induction l with
  | nil => rfl
  | cons x l ih =>
    have hnot : ¬pat.isPrefixOf (x :: l) = true := fun hpre =>
      hl ((List.isPrefixOf_iff_prefix.mp hpre).subset hpat)
    rw [substitute, if_neg hnot, ih fun hmem => hl (mem_cons_of_mem _ hmem)]

/-- If the line has no more separators than the text, the text occurs once at most. -/
theorem substitute_cases {l : List α} (hpos : sep ∈ pat) (hle : l.count sep ≤ pat.count sep) :
    substitute pat ins 0 l = l ∨
      ∃ a b, l = a ++ pat ++ b ∧ substitute pat ins 0 l = a ++ pat ++ (ins ++ b) := by
  induction l with
  | nil => exact .inl rfl
  | cons x l ih =>
    rw [substitute]
    split
    next hpre =>
      obtain ⟨b, hb⟩ := List.isPrefixOf_iff_prefix.mp hpre
      have hfree : sep ∉ b := by
        rw [← hb, count_append] at hle
        exact count_eq_zero.mp (by omega)
      have hdrop : l.drop (pat.length - 1) = b := by
        have hlen := length_pos_of_mem hpos
        rw [show l = (x :: l).drop 1 from rfl, drop_drop, ← hb,
          show 1 + (pat.length - 1) = pat.length by omega, drop_left]
      refine .inr ⟨[], b, hb.symm, ?_⟩
      rw [substitute_skip, hdrop, substitute_of_notMem hpos hfree, append_assoc]
      rfl
    next =>
      rw [count_cons] at hle
      rcases ih (by omega) with heq | ⟨a, b, heq, hsub⟩
      · rw [heq]
        exact .inl rfl
      · exact .inr ⟨x :: a, b, congrArg _ heq, congrArg _ hsub⟩

theorem field_substitute {n : Nat} {l : List α} (hn : n < pat.count sep)
    (hle : l.count sep ≤ pat.count sep) : field sep n (substitute pat ins 0 l) = field sep n l := by
  have hpos : sep ∈ pat := count_pos_iff.mp (by omega)
  rcases substitute_cases hpos hle with heq | ⟨a, b, rfl, hsub⟩
  · rw [heq]
  · have hcount : n < (a ++ pat).count sep := by
      rw [count_append]
      omega
    rw [hsub, field_append hcount, field_append hcount]

theorem count_substitute {l : List α} (hpos : sep ∈ pat) (hins : sep ∉ ins)
    (hle : l.count sep ≤ pat.count sep) : (substitute pat ins 0 l).count sep = l.count sep := by
  rcases substitute_cases hpos hle with heq | ⟨a, b, rfl, hsub⟩
  · rw [heq]
  · rw [hsub, count_append, count_append, count_append, count_append,
      count_append, count_eq_zero.mpr hins, Nat.zero_add]

end Substitute

end Rooter.Fields
