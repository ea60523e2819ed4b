import Mathlib.Data.List.Infix
import Mathlib.Data.Bool.Basic

/-!
# Text processing of the shell

The unquoted expansion `echo $X"quoted"`, which squeezes blanks, and `grep -o`,
which cuts the non-overlapping matches out of a line from left to right.

A piece of text that contains no blank survives `echo` unchanged, and the text
around it stays free of whatever characters it was free of.
-/

namespace Rooter.ShellText

open List

/-! ### Unquoted expansion -/

def isBlank (c : Char) : Bool := c = ' ' || c = '\t' || c = '\n'

/-- `echo $X"quoted"`: words of `$X` separated by one blank each, then the quoted part.  `started`
    says that a word was printed, `pending` that blanks were passed since. -/
def echo (quoted : List Char) : Bool → Bool → List Char → List Char
  | started, pending, [] =>
      if quoted = [] then [] else if started && pending then ' ' :: quoted else quoted
  | started, pending, c :: cs =>
      if isBlank c then echo quoted started true cs
      else if started && pending then ' ' :: c :: echo quoted true false cs
      else c :: echo quoted true false cs

def Free (p : Char → Bool) (text : List Char) : Prop := ∀ c ∈ text, p c = false

instance (p : Char → Bool) (text : List Char) : Decidable (Free p text) := decidableBAll _ text

theorem Free.append {p : Char → Bool} {xs ys : List Char} (hx : Free p xs) (hy : Free p ys) :
    Free p (xs ++ ys) := by
  intro c hc
  rcases mem_append.mp hc with h | h
  · exact hx c h
  · exact hy c h

theorem Free.cons {p : Char → Bool} {c : Char} {xs : List Char} (hc : p c = false)
    (hx : Free p xs) : Free p (c :: xs) := by
  intro d hd
  rcases mem_cons.mp hd with h | h
  · exact h ▸ hc
  · exact hx d h

theorem Free.nil (p : Char → Bool) : Free p [] := by
  intro c hc
  cases hc

variable {p : Char → Bool}

theorem free_echo {quoted : List Char} (hq : Free p quoted) (hblank : p ' ' = false) :
    ∀ (text : List Char), Free p text → ∀ started pending : Bool,
      Free p (echo quoted started pending text) := by
  intro text
  induction text with
  | nil =>
    intro _ started pending
    simp only [echo]
    split_ifs
    · exact Free.nil p
    · exact Free.cons hblank hq
    · exact hq
  | cons c cs ih =>
    intro htext started pending
    have hc : p c = false := htext c (by simp)
    have hcs : Free p cs := fun d hd => htext d (by simp [hd])
    simp only [echo]
    split_ifs
    · exact ih hcs started true
    · exact Free.cons hblank (Free.cons hc (ih hcs true false))
    · exact Free.cons hc (ih hcs true false)

theorem echo_append (quoted before after : List Char) (hblank : p ' ' = false)
    (hbefore : Free p before) : ∀ started pending : Bool,
      ∃ out started' pending', Free p out ∧
        echo quoted started pending (before ++ after)
          = out ++ echo quoted started' pending' after := by
  induction before with
  | nil => intro started pending; exact ⟨[], started, pending, Free.nil p, rfl⟩
  | cons c cs ih =>
    intro started pending
    have hc : p c = false := hbefore c (by simp)
    have hcs : Free p cs := fun d hd => hbefore d (by simp [hd])
    simp only [cons_append, echo]
    split_ifs
    · exact ih hcs started true
    · obtain ⟨out, s', p', hout, heq⟩ := ih hcs true false
      exact ⟨' ' :: c :: out, s', p', Free.cons hblank (Free.cons hc hout), by rw [heq]; rfl⟩
    · obtain ⟨out, s', p', hout, heq⟩ := ih hcs true false
      exact ⟨c :: out, s', p', Free.cons hc hout, by rw [heq]; rfl⟩

theorem echo_word (quoted after : List Char) {word : List Char} (hne : word ≠ [])
    (hword : Free isBlank word) (hblank : p ' ' = false) :
    ∀ started pending : Bool, ∃ out, Free p out ∧
      echo quoted started pending (word ++ after)
        = out ++ (word ++ echo quoted true false after) := by
  have hrest : ∀ w : List Char, Free isBlank w →
      echo quoted true false (w ++ after) = w ++ echo quoted true false after := by
    intro w hw
    induction w with
    | nil => rfl
    | cons c cs ih =>
      have hc : isBlank c = false := hw c (by simp)
      have hcs : Free isBlank cs := fun d hd => hw d (by simp [hd])
      simp [echo, hc, ih hcs]
  intro started pending
  match word, hne, hword with
  | c :: cs, _, hword =>
    have hc : isBlank c = false := hword c (by simp)
    have hcs : Free isBlank cs := fun d hd => hword d (by simp [hd])
    simp only [cons_append, echo, hc, hrest cs hcs, Bool.false_eq_true, if_false]
    split_ifs
    · exact ⟨[' '], Free.cons hblank (Free.nil p), rfl⟩
    · exact ⟨[], Free.nil p, rfl⟩

/-! ### grep -o -/

/-- The matches of a pattern in one line, from left to right.  The pattern is
    given by the length of its longest match at the start of a text, 0 for none;
    the second argument counts the characters that still belong to a match. -/
def grepO (pattern : List Char → Nat) : Nat → List Char → List (List Char)
  | _, [] => []
  | skip + 1, _ :: cs => grepO pattern skip cs
  | 0, c :: cs =>
      let n := pattern (c :: cs)
      if n = 0 then grepO pattern 0 cs
      else (c :: cs).take n :: grepO pattern (n - 1) cs

/-- A pattern that can only start at a character satisfying `p`. -/
def StartsAt (p : Char → Bool) (pattern : List Char → Nat) : Prop :=
  ∀ c cs, p c = false → pattern (c :: cs) = 0

theorem grepO_free {pattern : List Char → Nat} (hstart : StartsAt p pattern)
    (before after : List Char) (hbefore : Free p before) :
    grepO pattern 0 (before ++ after) = grepO pattern 0 after := by
  induction before with
  | nil => rfl
  | cons c cs ih =>
    have hc : p c = false := hbefore c (by simp)
    have hcs : Free p cs := fun d hd => hbefore d (by simp [hd])
    simp [grepO, hstart c _ hc, ih hcs]

theorem grepO_skip (pattern : List Char → Nat) (word after : List Char) :
    grepO pattern word.length (word ++ after) = grepO pattern 0 after := by
  induction word with
  | nil => rfl
  | cons c cs ih => simpa [grepO] using ih

theorem grepO_match {pattern : List Char → Nat} {word after : List Char} (hne : word ≠ [])
    (hlen : pattern (word ++ after) = word.length) :
    grepO pattern 0 (word ++ after) = word :: grepO pattern 0 after := by
  match word, hne, hlen with
  | c :: cs, _, hlen =>
    rw [cons_append] at hlen ⊢
    rw [grepO]
    simp only [hlen, length_cons, Nat.add_sub_cancel, grepO_skip]
    simp

end Rooter.ShellText
