import Mathlib.Data.List.Basic
import Mathlib.Data.List.Count

/-!
# Lua strings and text files

Lua strings are byte strings; a byte is a character with a code below 256.  The
library functions are the ones of Lua 5.1.  A program that can stop with a
runtime error returns `Except LuaError`.
-/

namespace Rooter.LuaString

open List

inductive LuaError where
  | indexNil
  | concatNil
  | arithNil
  | compareNil
  | badArgument
deriving DecidableEq, Repr

theorem bind_eq_ok {α β : Type} {x : Except LuaError α} {f : α → Except LuaError β} {r : β} :
    (x >>= f) = .ok r ↔ ∃ a, x = .ok a ∧ f a = .ok r := by
  cases x with
  | error e => simp [bind, Except.bind]
  | ok a => simp [bind, Except.bind]

@[simp] theorem ok_bind {α β : Type} (a : α) (f : α → Except LuaError β) :
    ((Except.ok a : Except LuaError α) >>= f) = f a := rfl

/-! ### Substrings -/

/-- `s:sub(i)` for `i` counted from the front. -/
def subFrom (s : List Char) (i : Nat) : List Char := s.drop (i - 1)

/-- `s:sub(i, j)` for `i` and `j` counted from the front. -/
def sub (s : List Char) (i j : Nat) : List Char := (s.take j).drop (i - 1)

def isSpace (c : Char) : Bool := c = ' ' || (9 ≤ c.toNat && c.toNat ≤ 13)

/-! ### Reading lines -/

/-- The scan behind `file:read("*l")`.  A line is fetched with `fgets` and measured
    with `strlen`: a NUL hides the rest of its line, the end of line included, and
    the scan goes on with the next one.  `hidden` says that a NUL was met. -/
def scanLine : Bool → List Char → List Char × List Char × Bool
  | _, [] => ([], [], false)
  | false, c :: cs =>
      if c = '\n' then ([], cs, true)
      else if c.toNat = 0 then scanLine true cs
      else
        let (line, rest, ended) := scanLine false cs
        (c :: line, rest, ended)
  | true, c :: cs => if c = '\n' then scanLine false cs else scanLine true cs

/-- `file:read("*l")`: the line and the rest of the file; `none` is `nil`. -/
def readLine (file : List Char) : Option (List Char) × List Char :=
  match scanLine false file with
  | (line, rest, ended) => (if ended || line ≠ [] then some line else none, rest)

/-- A text that `readLine` gives back as one line. -/
def LineSafe (s : List Char) : Prop := ∀ c ∈ s, c ≠ '\n' ∧ c.toNat ≠ 0

instance (s : List Char) : Decidable (LineSafe s) := decidableBAll _ s

theorem LineSafe.append {xs ys : List Char} (hx : LineSafe xs) (hy : LineSafe ys) :
    LineSafe (xs ++ ys) := by
  intro c hc
  rcases mem_append.mp hc with h | h
  · exact hx c h
  · exact hy c h

theorem lineSafe_scanLine (file : List Char) :
    ∀ hidden : Bool, LineSafe (scanLine hidden file).1 := by
  induction file with
  | nil =>
    intro hidden c hc
    cases hidden <;> simp [scanLine] at hc
  | cons c cs ih =>
    intro hidden
    cases hidden with
    | false =>
      simp only [scanLine]
      split
      · intro d hd; cases hd
      · split
        · exact ih true
        · next hnl hnul =>
          intro d hd
          rcases mem_cons.mp hd with h | h
          · exact h ▸ ⟨hnl, hnul⟩
          · exact ih false d h
    | true =>
      simp only [scanLine]
      split
      · exact ih false
      · exact ih true

theorem lineSafe_of_readLine {file line rest : List Char}
    (h : readLine file = (some line, rest)) : LineSafe line := by
  have hsafe := lineSafe_scanLine file false
  simp only [readLine] at h
  split at h
  · cases h; exact hsafe
  · cases h

theorem scanLine_of_lineSafe {line : List Char} (hsafe : LineSafe line) (rest : List Char) :
    scanLine false (line ++ '\n' :: rest) = (line, rest, true) := by
  induction line with
  | nil => simp [scanLine]
  | cons c cs ih =>
    have hc := hsafe c (by simp)
    have hcs : LineSafe cs := fun d hd => hsafe d (by simp [hd])
    simp [scanLine, hc.1, hc.2, ih hcs]

@[simp] theorem readLine_of_lineSafe {line : List Char} (hsafe : LineSafe line)
    (rest : List Char) : readLine (line ++ '\n' :: rest) = (some line, rest) := by
  simp [readLine, scanLine_of_lineSafe hsafe]

/-! ### The lines of a text -/

def linesOf : List Char → List Char × List (List Char)
  | [] => ([], [])
  | c :: cs =>
      let (first, more) := linesOf cs
      if c = '\n' then ([], first :: more) else (c :: first, more)

theorem linesOf_join (text : List Char) :
    (linesOf text).1 ++ (linesOf text).2.flatMap ('\n' :: ·) = text := by
  induction text with
  | nil => rfl
  | cons c cs ih =>
    simp only [linesOf]
    split
    · next hc => simpa [hc] using ih
    · simpa using ih

theorem length_linesOf (text : List Char) : (linesOf text).2.length = text.count '\n' := by
  induction text with
  | nil => rfl
  | cons c cs ih =>
    simp only [linesOf]
    split
    · next hc => simp [hc, ih]
    · next hc => simp [hc, ih]

/-- The lines of a text contain no line end, and only characters of the text. -/
theorem mem_linesOf (text : List Char) :
    ∀ line ∈ (linesOf text).1 :: (linesOf text).2, ∀ c ∈ line, c ≠ '\n' ∧ c ∈ text := by
  induction text with
  | nil => intro line hl c hc; simp [linesOf] at hl; subst hl; cases hc
  | cons d ds ih =>
    intro line hl c hc
    simp only [linesOf] at hl
    split at hl
    · simp only [mem_cons] at hl
      rcases hl with rfl | hl
      · cases hc
      · obtain ⟨h1, h2⟩ := ih line (by simpa using hl) c hc
        exact ⟨h1, mem_cons_of_mem _ h2⟩
    · next hd =>
      simp only [mem_cons] at hl
      rcases hl with rfl | hl
      · rcases mem_cons.mp hc with rfl | hc
        · exact ⟨hd, mem_cons_self⟩
        · obtain ⟨h1, h2⟩ := ih _ mem_cons_self c hc
          exact ⟨h1, mem_cons_of_mem _ h2⟩
      · obtain ⟨h1, h2⟩ := ih line (mem_cons_of_mem _ hl) c hc
        exact ⟨h1, mem_cons_of_mem _ h2⟩

theorem lineSafe_linesOf {text : List Char} (hnul : ∀ c ∈ text, c.toNat ≠ 0) :
    ∀ line ∈ (linesOf text).1 :: (linesOf text).2, LineSafe line := by
  intro line hl c hc
  obtain ⟨h1, h2⟩ := mem_linesOf text line hl c hc
  exact ⟨h1, hnul c h2⟩

end Rooter.LuaString
