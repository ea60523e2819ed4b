import Mathlib.Data.List.Sort
import Rooter.Loop

/-!
# Bubble sort

A bubble sort into decreasing order: passes through the list that exchange neighbours, until a
pass exchanges none.  Each exchange takes away an inversion, so that the passes come to an end,
and what is left is the sorted list (`loop_passStep`).  An element in front that is below none
of the others stays there (`loop_passStep_cons`).  The second part is about the largest elements
of a list: `largest_cons_largest_iff` says when taking in an element once more changes nothing.
-/

namespace Rooter.BubbleSort

open List Loop

variable {α β : Type}

/-- A pass with the element that was met last: it goes behind the next one if it is less.  The
    flag says whether neighbours have been exchanged. -/
def passFrom (less : α → α → Bool) (x : α) : List α → List α × Bool
  | [] => ([x], false)
  | y :: rest =>
      if less x y then (y :: (passFrom less x rest).1, true)
      else (x :: (passFrom less y rest).1, (passFrom less y rest).2)

def pass (less : α → α → Bool) : List α → List α × Bool
  | [] => ([], false)
  | x :: rest => passFrom less x rest

/-- The list with which the passes go on, or the result if nothing was exchanged. -/
def passStep (less : α → α → Bool) (l : List α) : Next (List α) (List α) :=
  if (pass less l).2 then .again (pass less l).1 else .leave (pass less l).1

/-! ### Other types, and an element in front -/

section Map

variable {less : α → α → Bool} {less' : β → β → Bool} {f : α → β}
  (h : ∀ a b, less' (f a) (f b) = less a b)

include h

theorem passFrom_map (l : List α) :
    ∀ x, passFrom less' (f x) (l.map f) =
      ((passFrom less x l).1.map f, (passFrom less x l).2) := by
  induction l with
  | nil => exact fun _ => rfl
  | cons y rest ih =>
    intro x
    cases hxy : less x y <;> simp [passFrom, h, hxy, ih]

theorem pass_map (l : List α) :
    pass less' (l.map f) = ((pass less l).1.map f, (pass less l).2) := by
  cases l with
  | nil => rfl
  | cons x rest => exact passFrom_map h rest x

theorem passStep_map (l : List α) :
    passStep less' (l.map f) = (passStep less l).map (map f) (map f) := by
  simp only [passStep, pass_map h]
  split_ifs <;> rfl

theorem loop_passStep_map (n : Nat) (l : List α) :
    loop (passStep less') n (l.map f) = (loop (passStep less) n l).map (map f) :=
  loop_map (fun _ => True) (fun _ _ _ _ => trivial) (fun l _ => passStep_map h l) n l trivial

end Map

variable {less : α → α → Bool}

theorem perm_passFrom (less : α → α → Bool) (l : List α) :
    ∀ x, (passFrom less x l).1.Perm (x :: l) := by
  induction l with
  | nil => exact fun _ => List.Perm.refl _
  | cons y rest ih =>
    intro x
    rw [passFrom]
    split_ifs
    · exact ((ih x).cons y).trans (List.Perm.swap x y rest)
    · exact (ih y).cons x

theorem perm_pass (less : α → α → Bool) (l : List α) : (pass less l).1.Perm l := by
  cases l with
  | nil => exact List.Perm.refl _
  | cons x rest => exact perm_passFrom less rest x

theorem pass_cons {top : α} {l : List α} (h : ∀ a ∈ l, less top a = false) :
    pass less (top :: l) = (top :: (pass less l).1, (pass less l).2) := by
  cases l with
  | nil => rfl
  | cons x rest => simp [pass, passFrom, h x (by simp)]

theorem passStep_cons {top : α} {l : List α} (h : ∀ a ∈ l, less top a = false) :
    passStep less (top :: l) = (passStep less l).map (top :: ·) (top :: ·) := by
  simp only [passStep, pass_cons h]
  split_ifs <;> rfl

theorem perm_of_passStep {l t : List α} (h : passStep less l = .again t) : t.Perm l := by
  unfold passStep at h
  split_ifs at h
  cases h
  exact perm_pass less l

theorem loop_passStep_cons {top : α} (n : Nat) (l : List α) (h : ∀ a ∈ l, less top a = false) :
    loop (passStep less) n (top :: l) = (loop (passStep less) n l).map (top :: ·) :=
  loop_map (fun l => ∀ a ∈ l, less top a = false)
    (fun _ _ hs ht a ha => hs a ((perm_of_passStep ht).mem_iff.mp ha))
    (fun _ hs => passStep_cons hs) n l h

/-! ### Inversions -/

section Order

variable [LinearOrder α]

def inversions : List α → Nat
  | [] => 0
  | x :: rest => rest.countP (fun y => decide (x < y)) + inversions rest

variable {l : List α}

theorem insertionSort_congr {l' : List α} (h : l.Perm l') :
    l.insertionSort (· ≥ ·) = l'.insertionSort (· ≥ ·) := by
  refine List.Perm.eq_of_sortedGE sortedGE_insertionSort sortedGE_insertionSort ?_
  exact ((perm_insertionSort _ l).trans h).trans (perm_insertionSort _ l').symm

/-- A pass takes away inversions if it exchanges neighbours, and else finds the list sorted. -/
theorem passFrom_cases (l : List α) : ∀ x,
    ((passFrom (fun a b => decide (a < b)) x l).2 = true ∧
      inversions (passFrom (fun a b => decide (a < b)) x l).1 < inversions (x :: l)) ∨
    ((passFrom (fun a b => decide (a < b)) x l).2 = false ∧
      (passFrom (fun a b => decide (a < b)) x l).1 = x :: l ∧
      (x :: l).Pairwise (· ≥ ·)) := by
  induction l with
  | nil => exact fun x => .inr ⟨rfl, rfl, by simp⟩
  | cons y rest ih =>
    intro x
    by_cases hxy : x < y
    · left
      have hcount : (passFrom (fun a b => decide (a < b)) x rest).1.countP
          (fun a => decide (y < a)) = rest.countP fun a => decide (y < a) := by
        rw [(perm_passFrom _ rest x).countP_eq, countP_cons_of_neg]
        simpa using hxy.le
      have hle : inversions (passFrom (fun a b => decide (a < b)) x rest).1 ≤
          inversions (x :: rest) := by
        rcases ih x with ⟨-, hlt⟩ | ⟨-, heq, -⟩
        · exact hlt.le
        · rw [heq]
      refine ⟨by simp [passFrom, hxy], ?_⟩
      simp only [passFrom, hxy, decide_true, if_true, inversions, countP_cons_of_pos]
        at hle ⊢
      omega
    · rcases ih y with ⟨hswap, hlt⟩ | ⟨hswap, heq, hsorted⟩
      · left
        refine ⟨by simp [passFrom, hxy, hswap], ?_⟩
        have hcount := (perm_passFrom (fun a b => decide (a < b)) rest y).countP_eq
          fun a => decide (x < a)
        simp only [passFrom, hxy, decide_false, Bool.false_eq_true, if_false, inversions] at hlt ⊢
        omega
      · right
        refine ⟨by simp [passFrom, hxy, hswap], by simp [passFrom, hxy, heq], ?_⟩
        rw [pairwise_cons]
        refine ⟨fun a ha => ?_, hsorted⟩
        rcases mem_cons.mp ha with rfl | ha
        · exact not_lt.mp hxy
        · exact ((pairwise_cons.mp hsorted).1 a ha).trans (not_lt.mp hxy)

theorem pass_cases (l : List α) :
    ((pass (fun a b => decide (a < b)) l).2 = true ∧
      inversions (pass (fun a b => decide (a < b)) l).1 < inversions l) ∨
    ((pass (fun a b => decide (a < b)) l).2 = false ∧
      (pass (fun a b => decide (a < b)) l).1 = l ∧ l.Pairwise (· ≥ ·)) := by
  cases l with
  | nil => exact .inr ⟨rfl, rfl, Pairwise.nil⟩
  | cons x rest => exact passFrom_cases rest x

/-- **Bubble sort** ends with the elements in decreasing order. -/
theorem loop_passStep : ∀ (n : Nat) (l : List α), inversions l < n →
    loop (passStep fun a b => decide (a < b)) n l = some (l.insertionSort (· ≥ ·)) := by
  intro n
  induction n with
  | zero => exact fun l h => absurd h (by omega)
  | succ n ih =>
    intro l h
    rcases pass_cases l with ⟨hswap, hlt⟩ | ⟨hswap, heq, hsorted⟩
    · have hstep : passStep (fun a b => decide (a < b)) l =
          .again (pass (fun a b => decide (a < b)) l).1 := by simp [passStep, hswap]
      rw [loop_again hstep, ih _ (by omega)]
      exact congrArg some (insertionSort_congr (perm_pass _ l))
    · have hstep : passStep (fun a b => decide (a < b)) l = .leave l := by
        simp [passStep, hswap, heq]
      rw [loop_leave hstep, hsorted.insertionSort_eq]

theorem inversions_le (l : List α) : inversions l ≤ l.length * l.length := by
  induction l with
  | nil => exact Nat.zero_le _
  | cons x rest ih =>
    have hcount := countP_le_length (p := fun y => decide (x < y)) (l := rest)
    rw [inversions, length_cons, Nat.succ_mul, Nat.mul_succ]
    omega

/-! ### The largest elements -/

def largest (k : Nat) (l : List α) : List α := (l.insertionSort (· ≥ ·)).take k

variable {k : Nat}

theorem length_largest (k : Nat) (l : List α) : (largest k l).length = min k l.length := by
  rw [largest, length_take, length_insertionSort]

theorem pairwise_largest (k : Nat) (l : List α) : (largest k l).Pairwise (· ≥ ·) :=
  sortedGE_insertionSort.pairwise.sublist (take_sublist k _)

theorem mem_of_mem_largest {a : α} (h : a ∈ largest k l) : a ∈ l :=
  (mem_insertionSort _).mp (mem_of_mem_take h)

theorem nodup_largest (h : l.Nodup) : (largest k l).Nodup :=
  ((perm_insertionSort _ l).nodup_iff.mpr h).sublist (take_sublist k _)

theorem le_of_notMem_largest {a b : α} (ha : a ∈ l) (hout : a ∉ largest k l) (hb : b ∈ largest k l)
    : a ≤ b := by
  have hsorted := sortedGE_insertionSort (l := l).pairwise
  rw [← take_append_drop k (l.insertionSort _)] at hsorted
  refine (pairwise_append.mp hsorted).2.2 b hb a ?_
  have hmem := (mem_insertionSort (· ≥ ·)).mpr ha
  rw [← take_append_drop k (l.insertionSort _), mem_append] at hmem
  exact hmem.resolve_left hout

theorem take_orderedInsert (d : α) (l : List α) : ∀ k,
    ((l.take k).orderedInsert (· ≥ ·) d).take k = (l.orderedInsert (· ≥ ·) d).take k := by
  induction l with
  | nil => simp
  | cons a l ih =>
    intro k
    cases k with
    | zero => rfl
    | succ k =>
      rw [take_succ_cons, orderedInsert_cons, orderedInsert_cons]
      split
      · cases k <;> simp [take_take]
      · rw [take_succ_cons, take_succ_cons, ih k]

/-- Elements that were dropped are not missed later. -/
theorem largest_cons_largest (k : Nat) (d : α) (l : List α) :
    largest k (d :: largest k l) = largest k (d :: l) := by
  rw [largest, insertionSort_cons, (pairwise_largest k l).insertionSort_eq]
  exact take_orderedInsert d _ k

theorem countP_take {p : α → Bool} (hp : ∀ a b, a ≤ b → p a → p b) (l : List α) :
    l.Pairwise (· ≥ ·) → ∀ k, (l.take k).countP p = min k (l.countP p) := by
  induction l with
  | nil => simp
  | cons a l ih =>
    intro hl k
    obtain ⟨hle, hl⟩ := pairwise_cons.mp hl
    cases k with
    | zero => simp
    | succ k =>
      rw [take_succ_cons]
      cases ha : p a with
      | true =>
        rw [countP_cons_of_pos ha, countP_cons_of_pos ha, ih hl k]
        omega
      | false =>
        have hnone : l.countP p = 0 := by
          refine countP_eq_zero.mpr fun b hb hpb => ?_
          rw [hp b a (hle b hb) hpb] at ha
          cases ha
        have hneg : ¬p a = true := by simp [ha]
        rw [countP_cons_of_neg hneg, countP_cons_of_neg hneg, ih hl k, hnone,
          Nat.min_zero, Nat.min_zero]

theorem countP_largest {p : α → Bool} (hp : ∀ a b, a ≤ b → p a → p b) (k : Nat) (l : List α) :
    (largest k l).countP p = min k (l.countP p) := by
  rw [largest, countP_take hp _ sortedGE_insertionSort.pairwise, (perm_insertionSort _ l).countP_eq]

theorem countP_ge_largest (k : Nat) (l : List α) (d : α) :
    (largest k l).countP (fun a => decide (d ≤ a)) = min k (l.countP fun a => decide (d ≤ a)) :=
  countP_largest (fun _ _ hab ha => by simpa using (of_decide_eq_true ha).trans hab) k l

theorem countP_gt_largest (k : Nat) (l : List α) (d : α) :
    (largest k l).countP (fun a => decide (d < a)) = min k (l.countP fun a => decide (d < a)) :=
  countP_largest (fun _ _ hab ha => by simpa using (of_decide_eq_true ha).trans_le hab) k l

/-- Taking in an element for the second time changes nothing if and only if the places are
    filled with elements that are at least as large. -/
theorem largest_cons_largest_iff {d : α} :
    largest (k + 1) (d :: largest (k + 1) (d :: l)) = largest (k + 1) (d :: l) ↔
      k ≤ l.countP fun a => decide (d ≤ a) := by
  have hcount := countP_ge_largest (k + 1) (d :: l) d
  rw [countP_cons_of_pos (by simp)] at hcount
  have hlength := length_largest (k + 1) (d :: l)
  generalize hkept : largest (k + 1) (d :: l) = kept at hcount hlength ⊢
  have hsorted : kept.Pairwise (· ≥ ·) := hkept ▸ pairwise_largest _ _
  constructor
  · intro heq
    have hfull : kept.length = k + 1 := by
      have h := congrArg length heq
      rw [length_largest, length_cons] at h
      omega
    -- the whole list of `k + 2` elements is `kept` with one element behind it, which is `d`
    have hall : ∀ a ∈ kept, d ≤ a := by
      intro a ha
      have hwhole : kept ++ ((d :: kept).insertionSort (· ≥ ·)).drop (k + 1) =
          (d :: kept).insertionSort (· ≥ ·) :=
        (congrArg (· ++ _) heq).symm.trans (take_append_drop (k + 1) _)
      have hperm := perm_insertionSort (· ≥ ·) (d :: kept)
      have hge := sortedGE_insertionSort (l := d :: kept).pairwise
      rw [← hwhole] at hperm hge
      have hlast := (perm_append_left_iff kept).mp
        (hperm.trans (perm_append_singleton d kept).symm)
      exact (pairwise_append.mp hge).2.2 a ha d (hlast.mem_iff.mpr (by simp))
    rw [countP_eq_length.mpr fun a ha => decide_eq_true (hall a ha)] at hcount
    omega
  · intro hle
    have hfull : kept.length = k + 1 := by
      have h := countP_le_length (p := fun a => decide (d ≤ a)) (l := kept)
      omega
    have hevery : kept.countP (fun a => decide (d ≤ a)) = kept.length := by omega
    have hall : ∀ a ∈ kept, d ≤ a := fun a ha =>
      of_decide_eq_true (countP_eq_length.mp hevery a ha)
    have hwhole : (kept ++ [d]).Pairwise (· ≥ ·) := by
      rw [pairwise_append]
      exact ⟨hsorted, by simp, fun a ha b hb => by
        rw [mem_singleton.mp hb]
        exact hall a ha⟩
    rw [largest, insertionSort_congr (perm_append_singleton d kept).symm,
      hwhole.insertionSort_eq, take_left' hfull]

/-- If the places are filled with elements at least as large as the new one, it is listed once
    more exactly if it gets two of them. -/
theorem nodup_largest_cons_iff {d : α} (hl : l.Nodup) (hge : k ≤ l.countP fun a => decide (d ≤ a)) :
    (largest (k + 1) (d :: l)).Nodup ↔ k ≤ l.countP fun a => decide (d < a) := by
  have hcount := countP_gt_largest (k + 1) (d :: l) d
  rw [countP_cons_of_neg (by simp)] at hcount
  have hcount' := countP_ge_largest (k + 1) (d :: l) d
  rw [countP_cons_of_pos (by simp)] at hcount'
  have hsub : (largest (k + 1) (d :: l)).Subperm (d :: l) :=
    (take_sublist _ _).subperm.trans (perm_insertionSort _ _).subperm
  generalize largest (k + 1) (d :: l) = kept at hcount hcount' hsub ⊢
  have hsplit : kept.countP (fun a => decide (d ≤ a)) =
      kept.countP (fun a => decide (d < a)) + kept.count d := by
    clear hcount hcount' hsub
    induction kept with
    | nil => rfl
    | cons a kept ih =>
      simp only [countP_cons, ih]
      rcases lt_trichotomy d a with h | h | h
      · simp [h, h.le, h.ne']
        omega
      · simp [h]
        omega
      · simp [h.not_ge, h.not_gt, h.ne]
  constructor
  · intro hnodup
    have := nodup_iff_count_le_one.mp hnodup d
    omega
  · intro hgt
    refine nodup_iff_count_le_one.mpr fun a => ?_
    by_cases ha : a = d
    · subst ha
      omega
    · refine (hsub.count_le a).trans ?_
      rw [count_cons_of_ne (Ne.symm ha)]
      exact nodup_iff_count_le_one.mp hl a

end Order

end Rooter.BubbleSort
