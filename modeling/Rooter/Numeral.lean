import Mathlib.Data.List.Basic
import Mathlib.Data.Nat.Basic

/-!
# Numerals as character lists

The scripts pass numbers around as text: decimal arguments, hexadecimal masks,
hexadecimal octets.  This module fixes the decimal reading and printing (`decimal?`,
`decimal`), which undo each other, and the hexadecimal digits (`hexValue?`, `upperHex`).
Strings are lists of characters, one character for each byte.
-/

namespace Rooter.Numeral

open List

/-! ### Decimal numerals -/

/-- The shortest decimal numeral of `n`. -/
def decimal (n : Nat) : List Char := Nat.toDigits 10 n

def decimal? (s : List Char) : Option Nat :=
  if s ≠ [] ∧ s.all Char.isDigit = true then some (Nat.ofDigitChars 10 s 0) else none

theorem isDigit_iff_toNat (c : Char) : c.isDigit = true ↔ 48 ≤ c.toNat ∧ c.toNat ≤ 57 := by
  simp only [Char.isDigit, Bool.and_eq_true, decide_eq_true_eq]
  rfl

theorem decimal_ne_nil (n : Nat) : decimal n ≠ [] := Nat.toDigits_ne_nil

theorem isDigit_of_mem_decimal {n : Nat} {c : Char} (hc : c ∈ decimal n) : c.isDigit = true :=
  Nat.isDigit_of_mem_toDigits (by decide) (by decide) hc

@[simp] theorem decimal?_decimal (n : Nat) : decimal? (decimal n) = some n := by
  have hall : (decimal n).all Char.isDigit = true :=
    all_eq_true.mpr fun c hc => isDigit_of_mem_decimal hc
  simp only [decimal?, if_pos (And.intro (decimal_ne_nil n) hall)]
  exact congrArg some Nat.ofDigitChars_ten_toDigits

theorem decimal?_leftpad (width n : Nat) : decimal? ((decimal n).leftpad width '0') = some n := by
  have hread := decimal?_decimal n
  unfold leftpad
  generalize width - (decimal n).length = k
  induction k with
  | zero => exact hread
  | succ k ih =>
    unfold decimal? at ih ⊢
    rw [replicate_succ, cons_append]
    split at ih
    · next hdigits =>
      have hall : ('0' :: (replicate k '0' ++ decimal n)).all Char.isDigit = true := by
        rw [all_cons, hdigits.2]
        rfl
      rw [if_pos ⟨cons_ne_nil _ _, hall⟩]
      exact ih
    · cases ih

theorem decimal_injective : Function.Injective decimal := by
  intro m n heq
  have hread := congrArg decimal? heq
  simpa using hread

/-! ### Hexadecimal digits -/

def hexValue? (c : Char) : Option Nat :=
  if '0' ≤ c ∧ c ≤ '9' then some (c.toNat - 48)
  else if 'A' ≤ c ∧ c ≤ 'F' then some (c.toNat - 55)
  else if 'a' ≤ c ∧ c ≤ 'f' then some (c.toNat - 87)
  else none

theorem hexValue?_eq (c : Char) : hexValue? c =
    if 48 ≤ c.toNat ∧ c.toNat ≤ 57 then some (c.toNat - 48)
    else if 65 ≤ c.toNat ∧ c.toNat ≤ 70 then some (c.toNat - 55)
    else if 97 ≤ c.toNat ∧ c.toNat ≤ 102 then some (c.toNat - 87)
    else none := rfl

theorem isDigit_digitChar {n : Nat} (h : n < 10) : (Nat.digitChar n).isDigit = true := by
  revert n
  decide

def upperHexDigit (n : Nat) : Char := (Nat.digitChar n).toUpper

def upperHex (n : Nat) : List Char := (Nat.toDigits 16 n).map Char.toUpper

theorem upperHex_of_lt {n : Nat} (h : n < 16) : upperHex n = [upperHexDigit n] := by
  simp only [upperHex, Nat.toDigits_of_lt_base h, upperHexDigit, map_cons, map_nil]

theorem upperHex_append {n : Nat} (h : 16 ≤ n) :
    upperHex n = upperHex (n / 16) ++ [upperHexDigit (n % 16)] := by
  rw [upperHex, Nat.toDigits_of_base_le (by decide) h, map_append]
  rfl

theorem flatMap_upperHex {vs : List Nat} (h : ∀ v ∈ vs, v < 16) :
    vs.flatMap upperHex = vs.map upperHexDigit := by
  rw [map_eq_flatMap]
  exact flatMap_congr fun v hv => upperHex_of_lt (h v hv)

end Rooter.Numeral
