import Mathlib.Data.List.Basic
import Mathlib.Data.Nat.Basic

/-!
# Cutting a list into padded blocks

A list is cut into blocks of `n` elements; the last one is filled up with a given element.
The blocks are described by what the first one is, so that a program that takes one block
after the other from a stream can be followed.
-/

namespace Rooter.PaddedBlocks

open List

variable {α : Type} (n : Nat) (a : α)

def blocksOf (l : List α) : List (List α) :=
  (range ((l.length + n - 1) / n)).map fun i => ((l.drop (n * i)).take n).rightpad n a

def padded (l : List α) : List α := l ++ replicate ((n - l.length % n) % n) a

variable {n a} {l : List α}

theorem length_rightpad_of_le (h : l.length ≤ n) : (l.rightpad n a).length = n := by
  simp [h]

theorem rightpad_of_length_eq (h : l.length = n) : l.rightpad n a = l := by
  simp [h]

@[simp]
theorem blocksOf_nil : blocksOf n a [] = [] := by
  rcases Nat.eq_zero_or_pos n with rfl | hn
  · simp [blocksOf]
  · have hlt : n - 1 < n := Nat.sub_one_lt_of_lt hn
    simp [blocksOf, hlt]

theorem blocksOf_of_ne_nil (hn : 0 < n) (h : l ≠ []) :
    blocksOf n a l = (l.take n).rightpad n a :: blocksOf n a (l.drop n) := by
  have hlen : 0 < l.length := length_pos_iff.mpr h
  have hcount : (l.length + n - 1) / n = (l.length - n + n - 1) / n + 1 := by
    rcases Nat.le_total n l.length with hle | hle
    · rw [Nat.sub_add_cancel hle, ← Nat.add_div_right _ hn]
      congr 1
      omega
    · rw [Nat.sub_eq_zero_of_le hle, Nat.zero_add, Nat.div_eq_of_lt (Nat.sub_one_lt_of_lt hn)]
      exact Nat.div_eq_of_lt_le (by omega) (by omega)
  unfold blocksOf
  rw [hcount, range_succ_eq_map, map_cons, map_map, length_drop]
  congr 1
  refine map_congr_left fun i _ => ?_
  simp [Nat.mul_succ, Nat.add_comm]

theorem length_of_mem_blocksOf {b : List α} (h : b ∈ blocksOf n a l) : b.length = n := by
  obtain ⟨i, -, rfl⟩ := mem_map.mp h
  exact length_rightpad_of_le (length_take_le _ _)

theorem blocksOf_append (hn : 0 < n) {b : List α} (hne : b ≠ []) (hle : b.length ≤ n)
    (h : b.length = n ∨ l = []) : blocksOf n a (b ++ l) = b.rightpad n a :: blocksOf n a l := by
  rw [blocksOf_of_ne_nil hn (by simp [hne])]
  rcases h with h | rfl
  · rw [take_left' h, drop_left' h]
  · rw [append_nil, take_of_length_le hle, drop_of_length_le hle]

theorem flatten_blocksOf (hn : 0 < n) (l : List α) : (blocksOf n a l).flatten = padded n a l := by
  induction hl : l.length using Nat.strongRecOn generalizing l with
  | ind len ih =>
    rcases eq_or_ne l [] with rfl | hne
    · simp [padded]
    · have hpos : 0 < l.length := length_pos_iff.mpr hne
      rw [blocksOf_of_ne_nil hn hne, flatten_cons,
        ih (l.drop n).length (by rw [length_drop]; omega) (l.drop n) rfl]
      rcases Nat.le_total n l.length with hle | hle
      · have hmod : (l.length - n) % n = l.length % n := by
          rw [Nat.mod_eq_sub_mod hle]
        rw [rightpad_of_length_eq (length_take_of_le hle)]
        simp only [padded, length_drop, hmod]
        rw [← append_assoc, take_append_drop]
      · rw [take_of_length_le hle, drop_of_length_le hle]
        rcases Nat.lt_or_eq_of_le hle with hlt | heq
        · simp [padded, Nat.mod_eq_of_lt hlt, Nat.mod_eq_of_lt (Nat.sub_lt hn hpos)]
        · simp [padded, heq]

theorem length_padded (hn : 0 < n) (l : List α) :
    (padded n a l).length = n * (blocksOf n a l).length := by
  have hlen : (blocksOf n a l).map length = (blocksOf n a l).map fun _ => n :=
    map_congr_left fun b hb => length_of_mem_blocksOf hb
  rw [← flatten_blocksOf hn, length_flatten, hlen]
  simp [Nat.mul_comm]

theorem dvd_length_padded (hn : 0 < n) (l : List α) : n ∣ (padded n a l).length :=
  ⟨_, length_padded hn l⟩

theorem padded_of_dvd (h : n ∣ l.length) : padded n a l = l := by
  rw [padded, Nat.mod_eq_zero_of_dvd h, Nat.sub_zero, Nat.mod_self, replicate_zero, append_nil]

theorem padded_append {b : List α} (h : n ∣ b.length) (l : List α) :
    padded n a (b ++ l) = b ++ padded n a l := by
  have hmod : (b.length + l.length) % n = l.length % n := by
    rw [Nat.add_mod, Nat.mod_eq_zero_of_dvd h, Nat.zero_add, Nat.mod_mod]
  rw [padded, padded, length_append, hmod, append_assoc]

theorem length_padded_le (hn : 0 < n) {m : Nat} (hm : n ∣ m) (h : l.length ≤ m) :
    (padded n a l).length ≤ m := by
  obtain ⟨k, hk⟩ := dvd_length_padded hn l
  obtain ⟨j, rfl⟩ := hm
  have hlt : (padded n a l).length < n * (j + 1) := by
    have hmod := Nat.mod_lt (n - l.length % n) hn
    rw [padded, length_append, length_replicate, Nat.mul_succ]
    omega
  rw [hk] at hlt ⊢
  exact Nat.mul_le_mul_left n (Nat.le_of_lt_succ (Nat.lt_of_mul_lt_mul_left hlt))

end Rooter.PaddedBlocks
