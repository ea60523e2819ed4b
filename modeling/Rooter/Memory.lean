import Mathlib.Data.List.Basic

/-!
# Memory

A memory gives a cell for each address.  `store` puts a list of cells at an address, `fill` the
same cell many times, `load` reads a list back.  The lemmas say what a load finds after a store:
what was stored if it is about the same addresses, and what was there before if it is about
others.  Cells of flash memory are octets whose bits can only be cleared (`program`).
-/

namespace Rooter.Memory

open List

variable {β : Type}

def store (mem : Nat → β) (i : Nat) (l : List β) : Nat → β := fun a =>
  if a < i then mem a else (l[a - i]?).getD (mem a)

def fill (mem : Nat → β) (i n : Nat) (b : β) : Nat → β := fun a =>
  if i ≤ a ∧ a < i + n then b else mem a

def load (mem : Nat → β) (i : Nat) : Nat → List β
  | 0 => []
  | n + 1 => mem i :: load mem (i + 1) n

variable {mem mem' : Nat → β} {i n a : Nat} {l l' : List β} {b : β}

/-! ### Cells -/

variable {k : Nat}

theorem store_of_lt (h : a < i) : store mem i l a = mem a := if_pos h

theorem store_of_le (h : i + l.length ≤ a) : store mem i l a = mem a := by
  unfold store
  split
  · rfl
  · rw [getElem?_eq_none (by omega)]
    rfl

theorem store_out (h : a < i ∨ i + l.length ≤ a) : store mem i l a = mem a :=
  h.elim store_of_lt store_of_le

theorem store_in (h : l[k]? = some b) : store mem i l (i + k) = b := by
  unfold store
  rw [if_neg (by omega), Nat.add_sub_cancel_left, h]
  rfl

theorem fill_out (h : a < i ∨ i + n ≤ a) : fill mem i n b a = mem a := if_neg (by omega)

theorem fill_in (h : i ≤ a) (h' : a < i + n) : fill mem i n b a = b := if_pos ⟨h, h'⟩

theorem store_store : store (store mem i l) (i + l.length) l' = store mem i (l ++ l') := by
  funext a
  by_cases hlt : a < i
  · rw [store_of_lt (by omega), store_of_lt hlt, store_of_lt hlt]
  · unfold store
    rw [if_neg hlt, if_neg hlt]
    split
    · rw [getElem?_append_left (by omega)]
    · rw [getElem?_append_right (by omega), Nat.sub_sub,
        show l[a - i]? = none from getElem?_eq_none (by omega)]
      rfl

theorem store_nil : store mem i [] = mem := by
  funext a
  exact store_out (by simp; omega)

/-! ### Lists of cells -/

@[simp] theorem length_load (mem : Nat → β) (i n : Nat) : (load mem i n).length = n := by
  induction n generalizing i with
  | zero => rfl
  | succ n ih => rw [load, length_cons, ih]

theorem getElem?_load (h : k < n) : (load mem i n)[k]? = some (mem (i + k)) := by
  induction n generalizing i k with
  | zero => omega
  | succ n ih =>
    rw [load]
    cases k with
    | zero => rfl
    | succ k =>
      rw [getElem?_cons_succ, ih (by omega), Nat.add_right_comm, Nat.add_assoc]

theorem load_congr (h : ∀ k < n, mem' (i + k) = mem (i + k)) : load mem' i n = load mem i n := by
  refine ext_getElem? fun k => ?_
  by_cases hk : k < n
  · rw [getElem?_load hk, getElem?_load hk, h k hk]
  · rw [getElem?_eq_none (by simp; omega), getElem?_eq_none (by simp; omega)]

theorem load_eq_cons (h : load mem i n = b :: l) : mem i = b ∧ load mem (i + 1) (n - 1) = l := by
  cases n with
  | zero => cases h
  | succ n => exact cons.inj h

theorem load_add (mem : Nat → β) (i m n : Nat) :
    load mem i (m + n) = load mem i m ++ load mem (i + m) n := by
  induction m generalizing i with
  | zero => rw [Nat.zero_add]; rfl
  | succ m ih =>
    rw [Nat.add_right_comm, load, load, ih, cons_append, Nat.add_assoc, Nat.add_comm 1]

theorem load_store_self : load (store mem i l) i l.length = l := by
  refine ext_getElem? fun k => ?_
  by_cases hk : k < l.length
  · rw [getElem?_load hk, store_in (getElem?_eq_getElem hk), getElem?_eq_getElem hk]
  · rw [getElem?_eq_none (by simp; omega), getElem?_eq_none (by omega)]

theorem load_store_out {j : Nat} (h : j + n ≤ i ∨ i + l.length ≤ j) :
    load (store mem i l) j n = load mem j n :=
  load_congr fun k hk => store_out (by omega)

theorem store_load_self (mem : Nat → β) (i n : Nat) : store mem i (load mem i n) = mem := by
  funext a
  by_cases hout : a < i ∨ i + n ≤ a
  · exact store_out (by simpa using hout)
  · have hin := @store_in _ mem i (load mem i n) _ (a - i) (getElem?_load (by omega))
    rwa [show i + (a - i) = a by omega] at hin

theorem store_same (mem : Nat → β) (h : l.length = l'.length) :
    store (store mem i l) i l' = store mem i l' := by
  funext a
  by_cases hout : a < i ∨ i + l'.length ≤ a
  · rw [store_out hout, store_out hout, store_out (by omega)]
  · have hlt : a - i < l'.length := by omega
    have ha : a = i + (a - i) := by omega
    rw [ha, store_in (getElem?_eq_getElem hlt), store_in (getElem?_eq_getElem hlt)]

theorem take_load (mem : Nat → β) (h : k ≤ n) : (load mem i n).take k = load mem i k := by
  have hsplit : n = k + (n - k) := by omega
  rw [hsplit, load_add, take_left' (length_load _ _ _)]

theorem drop_load (mem : Nat → β) (h : k ≤ n) :
    (load mem i n).drop k = load mem (i + k) (n - k) := by
  have hsplit : n = k + (n - k) := by omega
  rw [hsplit, load_add, drop_left' (length_load _ _ _), Nat.add_sub_cancel_left]

theorem load_fill_out {j m : Nat} (h : j + m ≤ i ∨ i + n ≤ j) :
    load (fill mem i n b) j m = load mem j m :=
  load_congr fun k hk => fill_out (by omega)

/-- A copy that is changed and stored back changes the original in the same place. -/
theorem store_copy (mem copy : Nat → β) {j : Nat} (h : j + l.length ≤ n) :
    store mem i (load (store (store copy 0 (load mem i n)) j l) 0 n) = store mem (i + j) l := by
  funext a
  by_cases hout : a < i ∨ i + n ≤ a
  · rw [store_out (by simpa using hout), store_out (by omega)]
  · obtain ⟨k, rfl⟩ : ∃ k, a = i + k := ⟨a - i, by omega⟩
    have hk : k < n := by omega
    rw [store_in (getElem?_load hk), Nat.zero_add]
    by_cases hin : j ≤ k ∧ k < j + l.length
    · obtain ⟨m, rfl⟩ := Nat.exists_eq_add_of_le hin.1
      have hm : l[m]? = some l[m] := getElem?_eq_getElem (by omega)
      rw [store_in hm, ← Nat.add_assoc, store_in hm]
    · have hcopy := @store_in _ copy 0 (load mem i n) _ k (getElem?_load hk)
      rw [Nat.zero_add] at hcopy
      rw [store_out (by omega), hcopy, store_out (by omega)]

theorem load_copy (mem copy : Nat → β) {j : Nat} (h : j + k ≤ n) :
    load (store copy 0 (load mem i n)) j k = load mem (i + j) k := by
  refine ext_getElem? fun m => ?_
  by_cases hm : m < k
  · have hcopy := @store_in _ copy 0 (load mem i n) _ (j + m) (getElem?_load (by omega))
    rw [Nat.zero_add] at hcopy
    rw [getElem?_load hm, getElem?_load hm, hcopy, Nat.add_assoc]
  · rw [getElem?_eq_none (by simpa using hm), getElem?_eq_none (by simpa using hm)]

/-! ### Programming -/

def program (mem : Nat → UInt8) (i : Nat) (bytes : List UInt8) : Nat → UInt8 := fun a =>
  if a < i then mem a
  else
    match bytes[a - i]? with
    | some byte => mem a &&& byte
    | none => mem a

section Program

variable {mem : Nat → UInt8} {i a : Nat} {bytes : List UInt8}

theorem program_out (h : a < i ∨ i + bytes.length ≤ a) : program mem i bytes a = mem a := by
  unfold program
  split
  · rfl
  · rw [getElem?_eq_none (by omega)]

theorem program_in {k : Nat} {b : UInt8} (h : bytes[k]? = some b) :
    program mem i bytes (i + k) = mem (i + k) &&& b := by
  unfold program
  rw [if_neg (by omega), Nat.add_sub_cancel_left, h]

theorem program_nil : program mem i [] = mem := by
  funext a
  exact program_out (by simp; omega)

theorem load_program_blank (h : ∀ k < bytes.length, mem (i + k) = 0xff) :
    load (program mem i bytes) i bytes.length = bytes := by
  refine ext_getElem? fun k => ?_
  by_cases hk : k < bytes.length
  · rw [getElem?_load hk, program_in (getElem?_eq_getElem hk), h k hk, getElem?_eq_getElem hk]
    exact congrArg some UInt8.neg_one_and
  · rw [getElem?_eq_none (by simpa using hk), getElem?_eq_none (by omega)]

theorem load_program_out {j : Nat} (h : j + n ≤ i ∨ i + bytes.length ≤ j) :
    load (program mem i bytes) j n = load mem j n :=
  load_congr fun k hk => program_out (by omega)

end Program

end Rooter.Memory
