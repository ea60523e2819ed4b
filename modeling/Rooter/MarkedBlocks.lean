import Mathlib.Data.List.Infix

/-!
# Text files with marked blocks

A text file is a list of lines, the last of which may lack its newline.  An editor deletes the
lines from one that contains a text up to the next one that contains another text
(`deleteRange`), and puts lines behind the last one (`append`), which are glued to a line
without a newline.

Where the two texts mark the beginning and the end of blocks, and the blocks are nested well,
the deletion takes out the blocks and nothing else (`deleteRange_render`).
-/

namespace Rooter.MarkedBlocks

open List

abbrev Text := List Char

structure Line where
  text : Text
  newline : Bool

def ofTexts (texts : List Text) : List Line := texts.map fun text => ⟨text, true⟩

/-- Delete from a line with the text `start` to the next line with the text `stop`; the flag
    says that such a range is open. -/
def deleteRange (start stop : Text) : Bool → List Line → List Line
  | _, [] => []
  | false, line :: lines =>
      if start <:+: line.text then deleteRange start stop true lines
      else line :: deleteRange start stop false lines
  | true, line :: lines =>
      if stop <:+: line.text then deleteRange start stop false lines
      else deleteRange start stop true lines

def rangeAfter (start stop : Text) : Bool → List Line → Bool
  | inside, [] => inside
  | false, line :: lines => rangeAfter start stop (decide (start <:+: line.text)) lines
  | true, line :: lines => rangeAfter start stop (!decide (stop <:+: line.text)) lines

def append (lines : List Line) (text : Text) : List Line :=
  match lines.getLast? with
  | none => [⟨text, true⟩]
  | some last =>
      if last.newline then lines ++ [⟨text, true⟩]
      else lines.dropLast ++ [⟨last.text ++ text, true⟩]

/-! ### Deleting and appending -/

section Lines

variable {start stop : Text} {lines : List Line}

theorem map_text_ofTexts (texts : List Text) : (ofTexts texts).map Line.text = texts := by
  simp [ofTexts, Function.comp_def]

theorem ofTexts_cons (text : Text) (texts : List Text) :
    ofTexts (text :: texts) = ⟨text, true⟩ :: ofTexts texts := rfl

theorem ofTexts_append (texts later : List Text) :
    ofTexts (texts ++ later) = ofTexts texts ++ ofTexts later := map_append

theorem map_text_deleteRange (lines : List Line) : ∀ inside : Bool,
    (deleteRange start stop inside lines).map Line.text =
      (deleteRange start stop inside (ofTexts (lines.map Line.text))).map Line.text := by
  induction lines with
  | nil => intro inside; cases inside <;> rfl
  | cons line lines ih =>
    intro inside
    cases inside
    · by_cases h : start <:+: line.text
      · simpa [deleteRange, ofTexts, h] using ih true
      · simpa [deleteRange, ofTexts, h] using ih false
    · by_cases h : stop <:+: line.text
      · simpa [deleteRange, ofTexts, h] using ih false
      · simpa [deleteRange, ofTexts, h] using ih true

theorem deleteRange_append (lines later : List Line) : ∀ inside : Bool,
    deleteRange start stop inside (lines ++ later) = deleteRange start stop inside lines ++
      deleteRange start stop (rangeAfter start stop inside lines) later := by
  induction lines with
  | nil => intro inside; cases inside <;> rfl
  | cons line lines ih =>
    intro inside
    cases inside
    · by_cases h : start <:+: line.text <;> simp [deleteRange, rangeAfter, h, ih]
    · by_cases h : stop <:+: line.text <;> simp [deleteRange, rangeAfter, h, ih]

theorem rangeAfter_append (lines later : List Line) : ∀ inside : Bool,
    rangeAfter start stop inside (lines ++ later) =
      rangeAfter start stop (rangeAfter start stop inside lines) later := by
  induction lines with
  | nil => intro inside; cases inside <;> rfl
  | cons line lines ih => intro inside; cases inside <;> exact ih _

theorem not_found_of_mem_deleteRange {line : Line} : ∀ {inside : Bool},
    line ∈ deleteRange start stop inside lines → line ∈ lines ∧ ¬ start <:+: line.text := by
  induction lines with
  | nil => intro inside h; cases inside <;> simp [deleteRange] at h
  | cons first lines ih =>
    intro inside h
    cases inside
    · by_cases hin : start <:+: first.text
      · rw [deleteRange, if_pos hin] at h
        exact ⟨mem_cons_of_mem first (ih h).1, (ih h).2⟩
      · rw [deleteRange, if_neg hin] at h
        rcases mem_cons.mp h with rfl | h
        · exact ⟨by simp, hin⟩
        · exact ⟨mem_cons_of_mem first (ih h).1, (ih h).2⟩
    · by_cases hin : stop <:+: first.text
      · rw [deleteRange, if_pos hin] at h
        exact ⟨mem_cons_of_mem first (ih h).1, (ih h).2⟩
      · rw [deleteRange, if_neg hin] at h
        exact ⟨mem_cons_of_mem first (ih h).1, (ih h).2⟩

theorem eq_ofTexts (h : ∀ line ∈ lines, line.newline = true) :
    lines = ofTexts (lines.map Line.text) := by
  induction lines with
  | nil => rfl
  | cons line lines ih =>
    rw [map_cons, ofTexts_cons, ← ih fun l hl => h l (mem_cons_of_mem line hl),
      ← h line (by simp)]

theorem deleteRange_ofTexts (texts : List Text) (inside : Bool) :
    deleteRange start stop inside (ofTexts texts) =
      ofTexts ((deleteRange start stop inside (ofTexts texts)).map Line.text) := by
  apply eq_ofTexts
  intro line hline
  obtain ⟨text, -, rfl⟩ := mem_map.mp (not_found_of_mem_deleteRange hline).1
  rfl

theorem deleteRange_eq_self (h : ∀ line ∈ lines, ¬ start <:+: line.text) :
    deleteRange start stop false lines = lines := by
  induction lines with
  | nil => rfl
  | cons line lines ih =>
    rw [deleteRange, if_neg (h line (by simp)), ih fun l hl => h l (mem_cons_of_mem line hl)]

/-- A range that is open at the beginning of some lines without its end stays open. -/
theorem deleteRange_inside (h : ∀ line ∈ lines, ¬ stop <:+: line.text) (rest : List Line) :
    deleteRange start stop true (lines ++ rest) = deleteRange start stop true rest := by
  induction lines with
  | nil => rfl
  | cons line lines ih =>
    rw [cons_append, deleteRange, if_neg (h line (by simp)),
      ih fun l hl => h l (mem_cons_of_mem line hl)]

theorem append_ofTexts (texts : List Text) (text : Text) :
    append (ofTexts texts) text = ofTexts (texts ++ [text]) := by
  rcases eq_nil_or_concat texts with rfl | ⟨before, last, rfl⟩
  · rfl
  · simp [append, ofTexts]

theorem foldl_append_ofTexts (added : List Text) : ∀ texts : List Text,
    added.foldl append (ofTexts texts) = ofTexts (texts ++ added) := by
  induction added with
  | nil => intro texts; simp
  | cons text added ih =>
    intro texts
    rw [foldl_cons, append_ofTexts, ih, append_assoc, singleton_append]

theorem append_glued (texts : List Text) (last text : Text) :
    append (ofTexts texts ++ [⟨last, false⟩]) text = ofTexts (texts ++ [last ++ text]) := by
  simp [append, ofTexts]

end Lines

/-! ### Blocks -/

/-- Lines and blocks, one behind the other; a block has a kind and contains lines and blocks. -/
inductive Blocks (κ : Type) where
  | nil
  | line (text : Text) (rest : Blocks κ)
  | block (kind : κ) (body rest : Blocks κ)

/-- The lines that begin and end the blocks of each kind.  They begin with a character that does
    not come again in them, and none of them is the beginning of another. -/
structure Markers (κ : Type) where
  start : κ → Text
  stop : κ → Text
  mark : Char
  start_eq_cons : ∀ k, ∃ tail, start k = mark :: tail ∧ mark ∉ tail
  stop_eq_cons : ∀ k, ∃ tail, stop k = mark :: tail ∧ mark ∉ tail
  start_prefix_inj : ∀ k k', start k <+: start k' → k = k'
  stop_prefix_inj : ∀ k k', stop k <+: stop k' → k = k'
  not_start_prefix_stop : ∀ k k', ¬ start k <+: stop k'
  not_stop_prefix_start : ∀ k k', ¬ stop k <+: start k'

/-- A text that begins with a character is found only where that character stands. -/
theorem found_at_start {a : Char} {tail tail' : Text} (h : a ∉ tail')
    (hin : a :: tail <:+: a :: tail') : a :: tail <+: a :: tail' := by
  obtain ⟨u, v, heq⟩ := hin
  rcases u with _ | ⟨b, u⟩
  · exact ⟨v, heq⟩
  · exact absurd ((cons.inj heq).2 ▸ by simp) h

namespace Markers

variable {κ : Type} (M : Markers κ) {k k' : κ}

theorem start_infix_start (h : M.start k <:+: M.start k') : k = k' := by
  obtain ⟨tail, heq, -⟩ := M.start_eq_cons k
  obtain ⟨tail', heq', hmark⟩ := M.start_eq_cons k'
  apply M.start_prefix_inj
  rw [heq, heq'] at h ⊢
  exact found_at_start hmark h

theorem stop_infix_stop (h : M.stop k <:+: M.stop k') : k = k' := by
  obtain ⟨tail, heq, -⟩ := M.stop_eq_cons k
  obtain ⟨tail', heq', hmark⟩ := M.stop_eq_cons k'
  apply M.stop_prefix_inj
  rw [heq, heq'] at h ⊢
  exact found_at_start hmark h

variable (k k')

theorem not_start_infix_stop : ¬ M.start k <:+: M.stop k' := by
  intro h
  obtain ⟨tail, heq, -⟩ := M.start_eq_cons k
  obtain ⟨tail', heq', hmark⟩ := M.stop_eq_cons k'
  apply M.not_start_prefix_stop k k'
  rw [heq, heq'] at h ⊢
  exact found_at_start hmark h

theorem not_stop_infix_start : ¬ M.stop k <:+: M.start k' := by
  intro h
  obtain ⟨tail, heq, -⟩ := M.stop_eq_cons k
  obtain ⟨tail', heq', hmark⟩ := M.start_eq_cons k'
  apply M.not_stop_prefix_start k k'
  rw [heq, heq'] at h ⊢
  exact found_at_start hmark h

end Markers

namespace Blocks

variable {κ : Type}

def join : Blocks κ → Blocks κ → Blocks κ
  | nil, later => later
  | line text rest, later => line text (rest.join later)
  | block kind body rest, later => block kind body (rest.join later)

def ofLines : List Text → Blocks κ
  | [] => nil
  | text :: texts => line text (ofLines texts)

def Has (k : κ) : Blocks κ → Prop
  | nil => False
  | line _ rest => rest.Has k
  | block kind body rest => kind = k ∨ body.Has k ∨ rest.Has k

def drop (p : κ → Bool) : Blocks κ → Blocks κ
  | nil => nil
  | line text rest => line text (rest.drop p)
  | block kind body rest =>
      if p kind then rest.drop p else block kind (body.drop p) (rest.drop p)

def render (M : Markers κ) : Blocks κ → List Text
  | nil => []
  | line text rest => text :: rest.render M
  | block kind body rest => M.start kind :: (body.render M ++ M.stop kind :: rest.render M)

def Plain (M : Markers κ) (text : Text) : Prop :=
  ∀ k, ¬ M.start k <:+: text ∧ ¬ M.stop k <:+: text

/-- The markers occur as whole blocks only, and no block contains one of its own kind. -/
def Nested (M : Markers κ) : Blocks κ → Prop
  | nil => True
  | line text rest => Plain M text ∧ rest.Nested M
  | block kind body rest => ¬ body.Has kind ∧ body.Nested M ∧ rest.Nested M

variable {M : Markers κ} {blocks : Blocks κ}

theorem render_join (blocks later : Blocks κ) :
    (blocks.join later).render M = blocks.render M ++ later.render M := by
  induction blocks with
  | nil => rfl
  | line text rest ih => simp [join, render, ih]
  | block kind body rest _ ih => simp [join, render, ih]

theorem render_ofLines (texts : List Text) : (ofLines texts : Blocks κ).render M = texts := by
  induction texts with
  | nil => rfl
  | cons text texts ih => rw [ofLines, render, ih]

theorem nested_ofLines {texts : List Text} (h : ∀ text ∈ texts, Plain M text) :
    (ofLines texts : Blocks κ).Nested M := by
  induction texts with
  | nil => trivial
  | cons text texts ih =>
    exact ⟨h text (by simp), ih fun t ht => h t (mem_cons_of_mem text ht)⟩

theorem nested_join {later : Blocks κ} (h : blocks.Nested M) (h' : later.Nested M) :
    (blocks.join later).Nested M := by
  induction blocks with
  | nil => exact h'
  | line text rest ih => exact ⟨h.1, ih h.2⟩
  | block kind body rest _ ih => exact ⟨h.1, h.2.1, ih h.2.2⟩

theorem not_has_ofLines (k : κ) (texts : List Text) : ¬ (ofLines texts : Blocks κ).Has k := by
  induction texts with
  | nil => exact id
  | cons text texts ih => exact ih

/-! ### What `drop` leaves -/

theorem has_of_has_drop {k : κ} {p : κ → Bool} (h : (blocks.drop p).Has k) :
    blocks.Has k ∧ p k = false := by
  induction blocks with
  | nil => exact h.elim
  | line text rest ih => exact ih h
  | block kind body rest ihbody ih =>
    by_cases hp : p kind = true
    · rw [drop, if_pos hp] at h
      exact ⟨.inr (.inr (ih h).1), (ih h).2⟩
    · rw [drop, if_neg hp] at h
      rcases h with rfl | h | h
      · exact ⟨.inl rfl, by simpa using hp⟩
      · exact ⟨.inr (.inl (ihbody h).1), (ihbody h).2⟩
      · exact ⟨.inr (.inr (ih h).1), (ih h).2⟩

theorem nested_drop (h : blocks.Nested M) (p : κ → Bool) : (blocks.drop p).Nested M := by
  induction blocks with
  | nil => trivial
  | line text rest ih => exact ⟨h.1, ih h.2⟩
  | block kind body rest ihbody ih =>
    by_cases hp : p kind = true
    · rw [drop, if_pos hp]
      exact ih h.2.2
    · rw [drop, if_neg hp]
      exact ⟨fun hhas => h.1 (has_of_has_drop hhas).1, ihbody h.2.1, ih h.2.2⟩

theorem drop_drop (p q : κ → Bool) (blocks : Blocks κ) :
    (blocks.drop p).drop q = blocks.drop fun k => p k || q k := by
  induction blocks with
  | nil => rfl
  | line text rest ih => simp [drop, ih]
  | block kind body rest ihbody ih =>
    by_cases hp : p kind = true
    · simp [drop, hp, ih]
    · by_cases hq : q kind = true <;> simp [drop, hp, ih, ihbody]

theorem drop_join (p : κ → Bool) (blocks later : Blocks κ) :
    (blocks.join later).drop p = (blocks.drop p).join (later.drop p) := by
  induction blocks with
  | nil => rfl
  | line text rest ih => simp [join, drop, ih]
  | block kind body rest _ ih =>
    by_cases hp : p kind = true <;> simp [join, drop, hp, ih]

theorem drop_ofLines (p : κ → Bool) (texts : List Text) :
    (ofLines texts : Blocks κ).drop p = ofLines texts := by
  induction texts with
  | nil => rfl
  | cons text texts ih => rw [ofLines, drop, ih]

theorem join_nil (blocks : Blocks κ) : blocks.join nil = blocks := by
  induction blocks with
  | nil => rfl
  | line text rest ih => rw [join, ih]
  | block kind body rest _ ih => rw [join, ih]

theorem join_assoc (a b c : Blocks κ) : (a.join b).join c = a.join (b.join c) := by
  induction a with
  | nil => rfl
  | line text rest ih => rw [join, join, join, ih]
  | block kind body rest _ ih => rw [join, join, join, ih]

/-! ### The lines of well nested blocks -/

theorem mem_render (h : blocks.Nested M) {text : Text} (ht : text ∈ blocks.render M) :
    (∃ k, blocks.Has k ∧ (text = M.start k ∨ text = M.stop k)) ∨ Plain M text := by
  induction blocks with
  | nil => simp [render] at ht
  | line t rest ih =>
    rcases mem_cons.mp ht with rfl | ht
    · exact .inr h.1
    · exact ih h.2 ht
  | block kind body rest ihbody ih =>
    rcases mem_cons.mp ht with rfl | ht
    · exact .inl ⟨kind, .inl rfl, .inl rfl⟩
    rcases mem_append.mp ht with ht | ht
    · rcases ihbody h.2.1 ht with ⟨k, hk, heq⟩ | hplain
      · exact .inl ⟨k, .inr (.inl hk), heq⟩
      · exact .inr hplain
    rcases mem_cons.mp ht with rfl | ht
    · exact .inl ⟨kind, .inl rfl, .inr rfl⟩
    · rcases ih h.2.2 ht with ⟨k, hk, heq⟩ | hplain
      · exact .inl ⟨k, .inr (.inr hk), heq⟩
      · exact .inr hplain

theorem has_of_start_found (h : blocks.Nested M) {k : κ} {text : Text} (ht : text ∈ blocks.render M)
    (hstart : M.start k <:+: text) : blocks.Has k := by
  rcases mem_render h ht with ⟨k', hk', rfl | rfl⟩ | hplain
  · exact M.start_infix_start hstart ▸ hk'
  · exact absurd hstart (M.not_start_infix_stop k k')
  · exact absurd hstart (hplain k).1

theorem has_of_stop_found (h : blocks.Nested M) {k : κ} {text : Text} (ht : text ∈ blocks.render M)
    (hstop : M.stop k <:+: text) : blocks.Has k := by
  rcases mem_render h ht with ⟨k', hk', rfl | rfl⟩ | hplain
  · exact absurd hstop (M.not_stop_infix_start k k')
  · exact M.stop_infix_stop hstop ▸ hk'
  · exact absurd hstop (hplain k).2

theorem start_mem_render {k : κ} (h : blocks.Has k) : M.start k ∈ blocks.render M := by
  induction blocks with
  | nil => exact h.elim
  | line text rest ih => exact mem_cons_of_mem _ (ih h)
  | block kind body rest ihbody ih =>
    rcases h with rfl | h | h
    · simp [render]
    · simp [render, ihbody h]
    · simp [render, ih h]

/-- **The deletion takes out the blocks** of the kind, and nothing else. -/
theorem deleteRange_render [DecidableEq κ] (k : κ) (h : blocks.Nested M) :
    ∀ rest : List Line,
    deleteRange (M.start k) (M.stop k) false (ofTexts (blocks.render M) ++ rest) =
      ofTexts ((blocks.drop (· = k)).render M) ++
        deleteRange (M.start k) (M.stop k) false rest := by
  induction blocks with
  | nil => exact fun _ => rfl
  | line text blocks ih =>
    intro rest
    simp only [render, drop, ofTexts_cons, cons_append, deleteRange, if_neg (h.1 k).1, ih h.2 rest]
  | block kind body blocks ihbody ih =>
    intro rest
    by_cases hk : kind = k
    · subst hk
      have hbody : ∀ line ∈ ofTexts (body.render M), ¬ M.stop kind <:+: line.text := by
        intro line hline hstop
        obtain ⟨text, ht, rfl⟩ := mem_map.mp hline
        exact h.1 (has_of_stop_found h.2.1 ht hstop)
      simp only [render, drop, ofTexts_append, ofTexts_cons, cons_append, append_assoc,
        deleteRange, infix_rfl, if_true, decide_true, deleteRange_inside hbody, ih h.2.2 rest]
    · have hstart : ¬ M.start k <:+: M.start kind := fun hin => hk (M.start_infix_start hin).symm
      simp only [render, drop, hk, ofTexts_append, ofTexts_cons, cons_append,
        append_assoc, deleteRange, if_neg hstart, if_neg (M.not_start_infix_stop k kind),
        decide_false, Bool.false_eq_true, if_false, ihbody h.2.1, ih h.2.2 rest]

theorem rangeAfter_render [DecidableEq κ] (k : κ) (h : blocks.Nested M) :
    rangeAfter (M.start k) (M.stop k) false (ofTexts (blocks.render M)) = false := by
  obtain ⟨tail, htail, -⟩ := M.start_eq_cons k
  have hempty : ¬ M.start k <:+: [] := by simp [htail]
  -- an empty line behind the blocks is left
  have hline := deleteRange_render k h [⟨[], true⟩]
  have hnone := deleteRange_render k h []
  rw [deleteRange_append] at hline
  rw [append_nil] at hnone
  by_contra hopen
  rw [Bool.not_eq_false] at hopen
  rw [hopen, hnone] at hline
  simp [deleteRange, hempty] at hline

theorem rangeAfter_of_last [DecidableEq κ] (k : κ) (h : blocks.Nested M) {texts : List Text}
    {last : Text} (hrender : blocks.render M = texts ++ [last]) :
    (rangeAfter (M.start k) (M.stop k) false (ofTexts texts) = false ∧ ¬ M.start k <:+: last) ∨
      rangeAfter (M.start k) (M.stop k) false (ofTexts texts) = true ∧ last = M.stop k := by
  have hclosed := rangeAfter_render k h
  rw [hrender, ofTexts_append, rangeAfter_append] at hclosed
  cases hrange : rangeAfter (M.start k) (M.stop k) false (ofTexts texts) with
  | false =>
    rw [hrange] at hclosed
    exact .inl ⟨rfl, by simpa [ofTexts, rangeAfter] using hclosed⟩
  | true =>
    rw [hrange] at hclosed
    have hstop : M.stop k <:+: last := by simpa [ofTexts, rangeAfter] using hclosed
    refine .inr ⟨rfl, ?_⟩
    have hlast : last ∈ blocks.render M := by simp [hrender]
    rcases mem_render h hlast with ⟨k', -, rfl | rfl⟩ | hplain
    · exact absurd hstop (M.not_stop_infix_start k k')
    · rw [M.stop_infix_stop hstop]
    · exact absurd hstop (hplain k).2

section Last

variable [DecidableEq κ] (k : κ) {blocks : Blocks κ} (h : blocks.Nested M) {texts : List Text}
  {last : Text} (hrender : blocks.render M = texts ++ [last])

include h hrender

theorem deleteRange_complete :
    deleteRange (M.start k) (M.stop k) false (ofTexts texts) ++
      deleteRange (M.start k) (M.stop k)
        (rangeAfter (M.start k) (M.stop k) false (ofTexts texts)) [⟨last, true⟩] =
      ofTexts ((blocks.drop (· = k)).render M) := by
  have hall := deleteRange_render k h []
  rw [hrender, append_nil, ofTexts_append, deleteRange_append] at hall
  exact hall.trans (append_nil _)

theorem deleteRange_of_stop (hstop : last = M.stop k) :
    deleteRange (M.start k) (M.stop k) false (ofTexts texts ++ [⟨last, false⟩]) =
      ofTexts ((blocks.drop (· = k)).render M) := by
  have hcomplete := deleteRange_complete k h hrender
  rw [deleteRange_append]
  rcases rangeAfter_of_last k h hrender with ⟨hrange, hnot⟩ | ⟨hrange, -⟩
  · -- it would be left in the complete file too, where no marker of the kind is left
    rw [hrange, deleteRange, if_neg hnot] at hcomplete
    have hmem : last ∈ (blocks.drop (· = k)).render M := by
      rw [← map_text_ofTexts ((blocks.drop (· = k)).render M), ← hcomplete]
      simp
    have hfound : M.stop k <:+: last := by rw [hstop]
    have hhas := has_of_stop_found (nested_drop h _) hmem hfound
    exact absurd (has_of_has_drop hhas).2 (by simp)
  · rw [← hcomplete, hrange]
    by_cases hfound : M.stop k <:+: last <;> simp [deleteRange]

theorem deleteRange_of_ne (hne : last ≠ M.stop k) :
    ∃ left, deleteRange (M.start k) (M.stop k) false (ofTexts texts ++ [⟨last, false⟩]) =
        ofTexts left ++ [⟨last, false⟩] ∧
      (blocks.drop (· = k)).render M = left ++ [last] := by
  have hcomplete := deleteRange_complete k h hrender
  rcases rangeAfter_of_last k h hrender with ⟨hrange, hnot⟩ | ⟨-, hstop⟩
  · refine ⟨(deleteRange (M.start k) (M.stop k) false (ofTexts texts)).map Line.text, ?_, ?_⟩
    · rw [deleteRange_append, hrange, ← deleteRange_ofTexts, deleteRange, if_neg hnot]
      rfl
    · rw [hrange, deleteRange, if_neg hnot] at hcomplete
      rw [← map_text_ofTexts ((blocks.drop (· = k)).render M), ← hcomplete]
      simp [deleteRange]
  · exact absurd hstop hne

end Last

end Blocks

/-! ### Lines glued to a marker -/

theorem not_start_infix_append {κ : Type} {M : Markers κ} {k k' : κ} (hk : k ≠ k') {text : Text}
    (h : ¬ M.start k <:+: text) : ¬ M.start k <:+: text ++ M.start k' := by
  rintro ⟨u, v, heq⟩
  obtain ⟨tail, htail, hmark⟩ := M.start_eq_cons k
  obtain ⟨tail', htail', -⟩ := M.start_eq_cons k'
  rw [append_assoc] at heq
  rcases append_eq_append_iff.mp heq with ⟨w, htext, hw⟩ | ⟨w, -, hw⟩
  · -- the marker begins in the text
    rcases append_eq_append_iff.mp hw with ⟨w', hw', -⟩ | ⟨w', hstart, hw'⟩
    · exact h ⟨u, w', by rw [htext, hw', append_assoc]⟩
    · rcases w with _ | ⟨x, w⟩
      · exact hk (M.start_infix_start ⟨[], v, by rw [hw', hstart]; rfl⟩)
      · -- and would contain its first character again
        rcases w' with _ | ⟨y, w'⟩
        · exact h ⟨u, [], by rw [htext, hstart]; simp⟩
        · have hy : y = M.mark := by
            rw [htail'] at hw'
            exact (cons.inj hw').1.symm
          rw [htail] at hstart
          exact hmark ((cons.inj hstart).2 ▸ by simp [hy])
  · exact hk (M.start_infix_start ⟨w, v, by rw [hw, append_assoc]⟩)

/-- A marker glued to the last line leaves the ranges of the other kinds closed. -/
theorem Blocks.rangeAfter_glued {κ : Type} [DecidableEq κ] {M : Markers κ} {k k' : κ} (hk : k ≠ k')
    {blocks : Blocks κ} (h : blocks.Nested M) {texts : List Text} {last : Text}
    (hrender : blocks.render M = texts ++ [last]) :
    rangeAfter (M.start k) (M.stop k) false (ofTexts (texts ++ [last ++ M.start k'])) = false := by
  rw [ofTexts_append, rangeAfter_append]
  rcases Blocks.rangeAfter_of_last k h hrender with ⟨hrange, hnot⟩ | ⟨hrange, rfl⟩
  · rw [hrange]
    simp [ofTexts, rangeAfter, not_start_infix_append hk hnot]
  · have hstop : M.stop k <:+: M.stop k ++ M.start k' := (prefix_append _ _).isInfix
    rw [hrange]
    simp [ofTexts, rangeAfter, hstop]

end Rooter.MarkedBlocks
