import Mathlib.Algebra.Order.Ring.Rat
import Rooter.Numeral

/-!
# Lua numbers

The numbers of Lua 5.1 are doubles.  A finite double is a rational number here, and an operation
is the operation on rationals, rounded to 53 significant bits (`double`); the bounds of the
exponent are left out.  Numbers are read from decimal numerals (`tonumber`) and printed with two
digits behind the point (`fixed`).
-/

namespace Rooter.LuaNumber

open List Numeral

/-! ### Rounding -/

/-- The natural number nearest to `n / d`, the even one of two. -/
def halfEven (n d : Nat) : Nat :=
  if 2 * (n % d) < d ∨ 2 * (n % d) = d ∧ n / d % 2 = 0 then n / d else n / d + 1

def exponent (n d : Nat) : Int :=
  if n * 2 ^ d.log2 < d * 2 ^ n.log2 then (n.log2 : Int) - d.log2 - 1 else n.log2 - d.log2

def nearest (n d : Nat) : ℚ :=
  match exponent n d - 52 with
  | .ofNat e => (halfEven n (d * 2 ^ e) * 2 ^ e : Nat)
  | .negSucc e => halfEven (n * 2 ^ (e + 1)) d / (2 ^ (e + 1) : Nat)

def double (q : ℚ) : ℚ :=
  if q < 0 then -nearest q.num.natAbs q.den else nearest q.num.natAbs q.den

theorem double_zero : double 0 = 0 := by decide +kernel

theorem double_neg (q : ℚ) : double (-q) = -double q := by
  have hnum : (-q).num.natAbs = q.num.natAbs := by rw [Rat.num_neg_eq_neg_num, Int.natAbs_neg]
  have hden : (-q).den = q.den := Rat.den_neg_eq_den q
  rcases lt_trichotomy q 0 with h | rfl | h
  · have hpos : ¬ -q < 0 := not_lt.mpr (neg_nonneg.mpr h.le)
    simp only [double, hnum, hden, if_pos h, if_neg hpos, neg_neg]
  · rw [neg_zero, double_zero, neg_zero]
  · simp only [double, hnum, hden, if_pos (neg_lt_zero.mpr h), if_neg h.not_gt]

/-! ### Reading -/

/-- A numeral without a sign, with digits on both sides of its point if it has one. -/
def unsigned (s : List Char) : Option ℚ :=
  match s.dropWhile (· ≠ '.') with
  | [] => (decimal? s).map fun n : Nat => double n
  | _ :: fraction => do
      let whole ← decimal? (s.takeWhile (· ≠ '.'))
      let digits ← decimal? fraction
      some (double (whole + digits / (10 ^ fraction.length : Nat)))

/-- `tonumber(s)` for decimal numerals; `none` is `nil`.  The other numerals of Lua (with blanks
    around them, in hexadecimal, with an exponent) are not read. -/
def tonumber (s : List Char) : Option ℚ :=
  if s.head? = some '-' then (unsigned s.tail).map Neg.neg else unsigned s

def integer (z : Int) : List Char :=
  if z < 0 then '-' :: decimal z.natAbs else decimal z.natAbs

theorem ne_of_mem_decimal {n : Nat} {c d : Char} (hc : c ∈ decimal n) (hd : d.isDigit = false) :
    c ≠ d := by
  rintro rfl
  rw [isDigit_of_mem_decimal hc] at hd
  cases hd

theorem head?_decimal_append_ne (n : Nat) (s : List Char) : (decimal n ++ s).head? ≠ some '-' := by
  obtain ⟨c, cs, hcs⟩ := exists_cons_of_ne_nil (decimal_ne_nil n)
  have hc : c ≠ '-' := ne_of_mem_decimal (hcs ▸ mem_cons_self) (by decide)
  rw [hcs]
  simpa using hc

theorem dropWhile_decimal (n : Nat) (s : List Char) :
    (decimal n ++ s).dropWhile (· ≠ '.') = s.dropWhile (· ≠ '.') := by
  rw [dropWhile_append_of_pos]
  intro c hc
  simpa using ne_of_mem_decimal hc (by decide)

theorem takeWhile_decimal (n : Nat) (s : List Char) :
    (decimal n ++ '.' :: s).takeWhile (· ≠ '.') = decimal n := by
  rw [takeWhile_append_of_pos, takeWhile_cons_of_neg (by simp), append_nil]
  intro c hc
  simpa using ne_of_mem_decimal hc (by decide)

theorem unsigned_decimal (n : Nat) : unsigned (decimal n) = some (double n) := by
  have hdrop := dropWhile_decimal n []
  rw [append_nil, dropWhile_nil] at hdrop
  simp only [unsigned, hdrop, decimal?_decimal, Option.map_some]

theorem tonumber_decimal (n : Nat) : tonumber (decimal n) = some (double n) := by
  have hhead := head?_decimal_append_ne n []
  rw [append_nil] at hhead
  rw [tonumber, if_neg hhead, unsigned_decimal]

theorem tonumber_integer (z : Int) : tonumber (integer z) = some (double z) := by
  by_cases hz : z < 0
  · have hnat : z.natAbs = -(z : ℚ) := by
      rw [← Int.cast_natCast, Int.ofNat_natAbs_of_nonpos hz.le, Int.cast_neg]
    rw [integer, if_pos hz, tonumber, head?_cons, if_pos rfl, tail_cons,
      unsigned_decimal, hnat, double_neg, Option.map_some, neg_neg]
  · have hnat : (z.natAbs : ℚ) = z := by
      rw [← Int.cast_natCast, Int.natAbs_of_nonneg (not_lt.mp hz)]
    rw [integer, if_neg hz, tonumber_decimal, hnat]

/-! ### Printing -/

def fixed (q : ℚ) : List Char :=
  let hundredths := halfEven (100 * q.num.natAbs) q.den
  (if q < 0 then ['-'] else []) ++ decimal (hundredths / 100) ++
    ['.', Nat.digitChar (hundredths / 10 % 10), Nat.digitChar (hundredths % 10)]

theorem mem_fixed {q : ℚ} {c : Char} (hc : c ∈ fixed q) : c.isDigit = true ∨ c = '.' ∨ c = '-' := by
  simp only [fixed, mem_append, mem_cons, not_mem_nil, or_false] at hc
  rcases hc with (hc | hc) | rfl | rfl | rfl
  · split at hc
    · exact .inr (.inr (mem_singleton.mp hc))
    · cases hc
  · exact .inl (isDigit_of_mem_decimal hc)
  · exact .inr (.inl rfl)
  · exact .inl (isDigit_digitChar (Nat.mod_lt _ (by decide)))
  · exact .inl (isDigit_digitChar (Nat.mod_lt _ (by decide)))

theorem exists_unsigned_fixed (n : Nat) {a b : Nat} (ha : a < 10) (hb : b < 10) :
    ∃ x, unsigned (decimal n ++ ['.', Nat.digitChar a, Nat.digitChar b]) = some x := by
  have hdigits : decimal? [Nat.digitChar a, Nat.digitChar b] =
      some (Nat.ofDigitChars 10 [Nat.digitChar a, Nat.digitChar b] 0) :=
    if_pos ⟨cons_ne_nil _ _, by simp [isDigit_digitChar ha, isDigit_digitChar hb]⟩
  have hdrop : (decimal n ++ ['.', Nat.digitChar a, Nat.digitChar b]).dropWhile (· ≠ '.') =
      ['.', Nat.digitChar a, Nat.digitChar b] := by
    rw [dropWhile_decimal, dropWhile_cons_of_neg (by simp)]
  refine ⟨double (n + Nat.ofDigitChars 10 [Nat.digitChar a, Nat.digitChar b] 0 /
    10 ^ 2), ?_⟩
  simp only [unsigned, hdrop, takeWhile_decimal, decimal?_decimal, hdigits]
  rfl

theorem exists_tonumber_fixed (q : ℚ) : ∃ x, tonumber (fixed q) = some x := by
  obtain ⟨x, hx⟩ := exists_unsigned_fixed (halfEven (100 * q.num.natAbs) q.den / 100)
    (Nat.mod_lt (halfEven (100 * q.num.natAbs) q.den / 10) (by decide))
    (Nat.mod_lt (halfEven (100 * q.num.natAbs) q.den) (by decide))
  by_cases hq : q < 0
  · refine ⟨-x, ?_⟩
    simp only [fixed, if_pos hq, cons_append, nil_append]
    rw [tonumber, head?_cons, if_pos rfl, tail_cons, hx, Option.map_some]
  · refine ⟨x, ?_⟩
    simp only [fixed, if_neg hq, nil_append]
    rw [tonumber, if_neg (head?_decimal_append_ne _ _), hx]

end Rooter.LuaNumber
