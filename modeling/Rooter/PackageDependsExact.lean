import Mathlib.Data.Finset.Lattice.Fold
import Rooter.Fields
import Rooter.PackageDependsTermination

/-!
# `mconf_depends` returns only then

In metadata of the usual form the condition on the calls is exact: from a call with a condition
every entry that was not seen without one is followed, and a cycle that adds to the condition is
followed for ever.  Two packages that select each other are enough for such a cycle.
-/

namespace Rooter.PackageDepends

open List Growth

/-! ### Metadata in which texts are not mistaken for others -/

/-- The conditions are names without colons, none of them `0` and none of them the text of an
    entry; the texts have no blanks; and an entry has a `+` wherever it stands, or nowhere.  The
    last does not hold for all packages: `zlib` occurs in both ways. -/
structure Plain (m : Metadata) (pkgname : Text) (depends : List Text) : Prop where
  label_colon : ∀ entry ∈ entries m depends, '+' ∈ flagsOf entry →
    ∀ label ∈ labels m pkgname (textOf entry), ':' ∉ label
  label_truthy : ∀ entry ∈ entries m depends, '+' ∈ flagsOf entry →
    ∀ label ∈ labels m pkgname (textOf entry), truthy label = true
  label_ne : ∀ entry ∈ entries m depends, '+' ∈ flagsOf entry →
    ∀ label ∈ labels m pkgname (textOf entry), ∀ other ∈ entries m depends,
      '+' ∈ flagsOf other → label ≠ textOf other
  text_blank : ∀ entry ∈ entries m depends, '+' ∈ flagsOf entry → ' ' ∉ textOf entry
  flags_agree : ∀ entry ∈ entries m depends, ∀ other ∈ entries m depends,
    textOf entry = textOf other → '+' ∈ flagsOf entry → '+' ∈ flagsOf other

/-- A condition that such entries build: one label, or several with blanks between them. -/
structure Built (m : Metadata) (pkgname : Text) (depends : List Text) (condition : Text) : Prop
    where
  colon : ':' ∉ condition
  isTrue : truthy condition = true
  parts : ' ' ∈ condition ∨ ∃ entry ∈ entries m depends, '+' ∈ flagsOf entry ∧
    condition ∈ labels m pkgname (textOf entry)

variable {m : Metadata} {pkgname : Text} {depends : List Text} {condition : Text}

theorem Built.ne_nil (h : Built m pkgname depends condition) : condition ≠ [] := by
  rintro rfl
  exact absurd h.isTrue (by decide)

theorem Built.ne_textOf (h : Built m pkgname depends condition) (hplain : Plain m pkgname depends)
    {entry : Text} (hentry : entry ∈ entries m depends) (hplus : '+' ∈ flagsOf entry) :
    condition ≠ textOf entry := by
  rcases h.parts with hblank | ⟨other, hother, hflags, hlabel⟩
  · rintro rfl
    exact hplain.text_blank entry hentry hplus hblank
  · exact hplain.label_ne other hother hflags condition hlabel entry hentry hplus

section

variable (h : truthy condition = true)

include h

theorem andCondition_of_truthy (label : Text) :
    andCondition condition label = condition ++ " && ".toList ++ label := if_pos h

theorem truthy_andCondition (label : Text) : truthy (andCondition condition label) = true := by
  rw [andCondition_of_truthy h]
  rcases condition with _ | ⟨c, rest⟩
  · cases h
  · simp [truthy]

theorem length_lt_andCondition (label : Text) :
    condition.length < (andCondition condition label).length := by
  rw [andCondition_of_truthy h]
  simp

theorem length_le_foldl (labels : List Text) :
    condition.length ≤ (labels.foldl andCondition condition).length := by
  induction labels generalizing condition with
  | nil => exact Nat.le_refl _
  | cons label labels ih =>
    have hone := length_lt_andCondition h label
    have hrest := ih (truthy_andCondition h label)
    simp only [foldl_cons]
    omega

theorem length_lt_foldl {labels : List Text} (hne : labels ≠ []) :
    condition.length < (labels.foldl andCondition condition).length := by
  obtain ⟨label, labels, rfl⟩ := exists_cons_of_ne_nil hne
  have hone := length_lt_andCondition h label
  have hrest := length_le_foldl (truthy_andCondition h label) labels
  simp only [foldl_cons]
  omega

end

section Labels

variable {entry : Text} (hplain : Plain m pkgname depends) (hentry : entry ∈ entries m depends)
  (hplus : '+' ∈ flagsOf entry)
include hplain hentry hplus

variable {condition : Text}

theorem built_label {label : Text} (hlabel : label ∈ labels m pkgname (textOf entry)) :
    Built m pkgname depends label :=
  ⟨hplain.label_colon entry hentry hplus label hlabel,
    hplain.label_truthy entry hentry hplus label hlabel,
    .inr ⟨entry, hentry, hplus, hlabel⟩⟩

section

variable (h : Built m pkgname depends condition)

include h

theorem Built.andCondition {label : Text} (hlabel : label ∈ labels m pkgname (textOf entry)) :
    Built m pkgname depends (andCondition condition label) := by
  have hcolon := hplain.label_colon entry hentry hplus label hlabel
  refine ⟨?_, truthy_andCondition h.isTrue label, .inl ?_⟩
  · rw [andCondition_of_truthy h.isTrue]
    simp [h.colon, hcolon]
  · rw [andCondition_of_truthy h.isTrue]
    simp

theorem Built.foldl {added : List Text} (hadded : added ⊆ labels m pkgname (textOf entry)) :
    Built m pkgname depends (added.foldl PackageDepends.andCondition condition) := by
  induction added generalizing condition with
  | nil => exact h
  | cons label added ih =>
    obtain ⟨hlabel, hadded⟩ := cons_subset.mp hadded
    exact ih (h.andCondition hplain hentry hplus hlabel) hadded

theorem Built.conditionAfter :
    Built m pkgname depends (conditionAfter m pkgname condition (textOf entry)) :=
  h.foldl hplain hentry hplus (Subset.refl _)

end

theorem built_conditionAfter_nil :
    conditionAfter m pkgname [] (textOf entry) = [] ∨
      Built m pkgname depends (conditionAfter m pkgname [] (textOf entry)) := by
  unfold PackageDepends.conditionAfter
  rcases hlabels : labels m pkgname (textOf entry) with _ | ⟨label, added⟩
  · exact .inl rfl
  · right
    have hlabel : label ∈ labels m pkgname (textOf entry) := by simp [hlabels]
    have hadded : added ⊆ labels m pkgname (textOf entry) := by simp [hlabels]
    exact (built_label hplain hentry hplus hlabel).foldl hplain hentry hplus hadded

end Labels

/-! ### Keys -/

theorem key_inj {condition' text text' : Text} (h : ':' ∉ condition) (h' : ':' ∉ condition')
    (heq : key condition text = key condition' text') : condition = condition' ∧ text = text' := by
  constructor
  · have hfield := congrArg (Fields.field ':' 0) heq
    rwa [key, key, Fields.field_zero_append_cons h, Fields.field_zero_append_cons h'] at hfield
  · have hrest := congrArg (Fields.rest ':') heq
    rwa [key, key, Fields.rest_append_cons h, Fields.rest_append_cons h'] at hrest

/-- A call with known entries, and with a condition that they build or none. -/
structure Tidy (m : Metadata) (pkgname : Text) (depends : List Text) (f : Frame) : Prop where
  known : f.depends ⊆ entries m depends
  condition : f.condition = [] ∨ Built m pkgname depends f.condition

theorem Tidy.colon {f : Frame} (h : Tidy m pkgname depends f) : ':' ∉ f.condition := by
  rcases h.condition with hnil | hbuilt
  · simp [hnil]
  · exact hbuilt.colon

def Within (seen seen' : List Text) : Prop := ∀ text, key [] text ∈ seen → key [] text ∈ seen'

theorem Within.trans {seen seen' seen'' : List Text} (h : Within seen seen')
    (h' : Within seen' seen'') : Within seen seen'' := fun text htext => h' text (h text htext)

theorem within_of_subset {seen seen' : List Text} (h : seen ⊆ seen') : Within seen seen' :=
  fun _ htext => h htext

theorem within_step {s : State} {f : Frame} {rest : List Frame} (hstack : s.stack = f :: rest)
    (hf : Tidy m pkgname depends f) (hne : f.condition ≠ []) :
    Within (step m pkgname s).seen s.seen := by
  intro text htext
  rw [step_seen hstack] at htext
  rcases mem_foldl_seen htext with hin | ⟨entry, -, heq, -⟩
  · exact hin
  · exact absurd (key_inj not_mem_nil hf.colon heq).1.symm hne

theorem iterate_run (l n : Nat) :
    (step m pkgname)^[l] (run m pkgname depends n) = run m pkgname depends (l + n) :=
  (Function.iterate_add_apply _ l n _).symm

theorem seen_subset_run {i n : Nat} (h : i ≤ n) :
    (run m pkgname depends i).seen ⊆ (run m pkgname depends n).seen := by
  induction h with
  | refl => exact Subset.refl _
  | @step n _ ih =>
    apply Subset.trans ih
    rw [run_succ]
    exact seen_subset_step _

theorem run_of_stack_nil {n k : Nat} (h : (run m pkgname depends n).stack = []) (hle : n ≤ k) :
    run m pkgname depends k = run m pkgname depends n := by
  obtain ⟨l, rfl⟩ := Nat.exists_eq_add_of_le' hle
  rw [← iterate_run]
  exact Function.iterate_fixed (step_nil h) l

section Plain

variable (hplain : Plain m pkgname depends)
include hplain

theorem Tidy.of_asks {f g : Frame} {entry : Text} (hf : Tidy m pkgname depends f)
    (hentry : entry ∈ f.depends) (hasks : Asks m pkgname f entry g) :
    Tidy m pkgname depends g ∧ (f.condition ≠ [] → g.condition ≠ []) := by
  have hknown := hf.known hentry
  have hplus := hasks.1
  have hdepends : g.depends ⊆ entries m depends := hasks.known
  obtain ⟨-, depends', -, rfl⟩ := hasks
  rcases hf.condition with hnil | hbuilt
  · refine ⟨⟨hdepends, ?_⟩, absurd hnil⟩
    rw [hnil]
    exact built_conditionAfter_nil hplain hknown hplus
  · have hafter := hbuilt.conditionAfter hplain hknown hplus
    exact ⟨⟨hdepends, .inr hafter⟩, fun _ => hafter.ne_nil⟩

theorem Tidy.of_mem_loop {f g : Frame} (hf : Tidy m pkgname depends f) {seen : List Text}
    {dep : List (Text × Kind)} (hg : g ∈ (loop m pkgname f seen dep).stack) :
    Tidy m pkgname depends g ∧ (f.condition ≠ [] → g.condition ≠ []) := by
  rcases mem_foldl_stack hg with hg | ⟨entry, hentry, hasks, -⟩
  · cases hg
  · exact hf.of_asks hplain hentry hasks

theorem tidy_step {s : State} (hs : ∀ f ∈ s.stack, Tidy m pkgname depends f) :
    ∀ f ∈ (step m pkgname s).stack, Tidy m pkgname depends f := by
  rcases hstack : s.stack with _ | ⟨f, rest⟩
  · rwa [step_nil hstack]
  · intro g hg
    rw [step_stack hstack, mem_append] at hg
    rcases hg with hg | hg
    · exact ((hs f (by simp [hstack])).of_mem_loop hplain hg).1
    · exact hs g (by simp [hstack, hg])

theorem tidy_run (n : Nat) : ∀ f ∈ (run m pkgname depends n).stack, Tidy m pkgname depends f := by
  induction n with
  | zero =>
    intro f hf
    cases mem_singleton.mp hf
    exact ⟨subset_append_right _ _, .inl rfl⟩
  | succ n ih =>
    rw [run_succ]
    exact tidy_step hplain ih

/-! ### Calls with a condition -/

/-- The calls with a condition on top of the stack are made one after the other, before anything
    is marked as seen without a condition. -/
theorem exists_head {s : State} {front rest : List Frame}
    (hs : ∀ f ∈ s.stack, Tidy m pkgname depends f) (hstack : s.stack = front ++ rest)
    (hfront : ∀ f ∈ front, f.condition ≠ []) {n : Nat}
    (hend : ((step m pkgname)^[n] s).stack = []) {g : Frame} (hg : g ∈ front) :
    ∃ l, ((step m pkgname)^[l] s).stack.head? = some g ∧
      Within ((step m pkgname)^[l] s).seen s.seen := by
  -- by the number of steps that are left
  induction n generalizing s front with
  | zero =>
    rw [Function.iterate_zero_apply, hstack, append_eq_nil_iff] at hend
    rw [hend.1] at hg
    cases hg
  | succ n ih =>
    rcases front with _ | ⟨f, front⟩
    · cases hg
    · rw [cons_append] at hstack
      rcases mem_cons.mp hg with rfl | hg
      · exact ⟨0, by simp [hstack], fun _ htext => htext⟩
      · have hf := hs f (by simp [hstack])
        have hne := hfront f mem_cons_self
        have hnext : (step m pkgname s).stack =
            (loop m pkgname f s.seen s.dep).stack ++ front ++ rest := by
          rw [step_stack hstack, append_assoc]
        have hconditions : ∀ h ∈ (loop m pkgname f s.seen s.dep).stack ++ front,
            h.condition ≠ [] := by
          intro h hh
          rcases mem_append.mp hh with hh | hh
          · exact (hf.of_mem_loop hplain hh).2 hne
          · exact hfront h (mem_cons_of_mem _ hh)
        obtain ⟨l, hhead, hwithin⟩ := ih (tidy_step hplain hs) hnext hconditions hend
          (mem_append_right _ hg)
        exact ⟨l + 1, hhead, hwithin.trans (within_step hstack hf hne)⟩

/-- A key is in the table because of a call with this condition that has the entry. -/
theorem exists_of_key_mem {condition text : Text} (hcolon : ':' ∉ condition) {n : Nat}
    (h : key condition text ∈ (run m pkgname depends n).seen) :
    ∃ i < n, ∃ f rest, (run m pkgname depends i).stack = f :: rest ∧ f.condition = condition ∧
      ∃ entry ∈ f.depends, textOf entry = text ∧ ∀ g, Asks m pkgname f entry g →
        g ∈ (loop m pkgname f (run m pkgname depends i).seen
          (run m pkgname depends i).dep).stack := by
  induction n with
  | zero => cases h
  | succ n ih =>
    rw [run_succ] at h
    rcases hstack : (run m pkgname depends n).stack with _ | ⟨f, rest⟩
    · rw [step_nil hstack] at h
      obtain ⟨i, hi, hfound⟩ := ih h
      exact ⟨i, Nat.lt_succ_of_lt hi, hfound⟩
    · rw [step_seen hstack] at h
      rcases mem_foldl_seen h with h | ⟨entry, hentry, heq, hcalls⟩
      · obtain ⟨i, hi, hfound⟩ := ih h
        exact ⟨i, Nat.lt_succ_of_lt hi, hfound⟩
      · have hf := tidy_run hplain n f (by simp [hstack])
        obtain ⟨rfl, rfl⟩ := key_inj hcolon hf.colon heq
        exact ⟨n, Nat.lt_succ_self n, f, rest, hstack, rfl, entry, hentry, rfl, hcalls⟩

end Plain

/-! ### A run that ends -/

/-- The calls with a condition that are made before anything else is marked as seen without one. -/
def Visited (m : Metadata) (pkgname : Text) (depends : List Text) (k : Nat) (f : Frame) : Prop :=
  f.condition ≠ [] ∧ ∃ j, (run m pkgname depends j).stack.head? = some f ∧
    Within (run m pkgname depends j).seen (run m pkgname depends k).seen

theorem Visited.built {k : Nat} {f : Frame} (hf : Visited m pkgname depends k f)
    (hplain : Plain m pkgname depends) : Built m pkgname depends f.condition := by
  obtain ⟨hne, j, hhead, -⟩ := hf
  exact (tidy_run hplain j f (mem_of_mem_head? hhead)).condition.resolve_left hne

theorem exists_length_le {k n : Nat} (hend : (run m pkgname depends n).stack = []) :
    ∃ limit, ∀ f, Visited m pkgname depends k f → f.condition.length ≤ limit := by
  refine ⟨(Finset.range n).sup fun j =>
    (run m pkgname depends j).stack.head?.elim 0 fun f => f.condition.length, ?_⟩
  rintro f ⟨-, j, hhead, -⟩
  have hlt : j < n := by
    by_contra hle
    rw [run_of_stack_nil hend (by omega), hend] at hhead
    cases hhead
  have hle := @Finset.le_sup _ _ _ _ (Finset.range n) (fun j =>
    (run m pkgname depends j).stack.head?.elim 0 fun f => f.condition.length) j
    (Finset.mem_range.mpr hlt)
  simpa only [hhead, Option.elim_some] using hle

section Ends

variable {k n : Nat} (hplain : Plain m pkgname depends)
  (hend : (run m pkgname depends n).stack = [])
include hplain hend

theorem visited_of_mem_loop {i : Nat} {f g : Frame} {rest : List Frame}
    (hstack : (run m pkgname depends i).stack = f :: rest) (hne : f.condition ≠ [])
    (hwithin : Within (run m pkgname depends i).seen (run m pkgname depends k).seen)
    (hg : g ∈ (loop m pkgname f (run m pkgname depends i).seen
      (run m pkgname depends i).dep).stack) : Visited m pkgname depends k g := by
  have hf := tidy_run hplain i f (by simp [hstack])
  have hnext := @step_stack m pkgname f _ rest hstack
  have hempty : ((step m pkgname)^[n] (run m pkgname depends (i + 1))).stack = [] := by
    rw [iterate_run, run_of_stack_nil hend (by omega), hend]
  rw [← run_succ] at hnext
  obtain ⟨l, hhead, hmarks⟩ := exists_head hplain (tidy_run hplain (i + 1)) hnext
    (fun h hh => (hf.of_mem_loop hplain hh).2 hne) hempty hg
  rw [iterate_run] at hhead hmarks
  refine ⟨(hf.of_mem_loop hplain hg).2 hne, l + i + 1, hhead, hmarks.trans ?_⟩
  rw [run_succ]
  exact (within_step hstack hf hne).trans hwithin

/-- Every entry that was not seen without a condition is followed from them. -/
theorem Visited.of_selects {f : Frame} {text : Text} {depends' : List Text}
    (hf : Visited m pkgname depends k f)
    (hselects : Selects m pkgname (run m pkgname depends k).seen text f.depends depends') :
    Visited m pkgname depends k
      ⟨depends', conditionAfter m pkgname f.condition text, true⟩ := by
  have hbuilt := hf.built hplain
  obtain ⟨hne, j, hhead, hwithin⟩ := hf
  obtain ⟨⟨entry, hentry, hplus, rfl⟩, hunseen, hlookup⟩ := hselects
  obtain ⟨rest, hstack⟩ := head?_eq_some_iff.mp hhead
  have htidy := tidy_run hplain j f (by simp [hstack])
  have hknown := htidy.known hentry
  -- the entry is marked by this call, or was by an earlier one with the same condition
  have hkey : key f.condition (textOf entry) ∈ (run m pkgname depends (j + 1)).seen := by
    rw [run_succ]
    rcases key_mem_step hstack hentry (hbuilt.ne_textOf hplain hknown hplus) with hkey | hkey
    · exact hkey
    · exact absurd (hwithin _ (within_step hstack htidy hne _ hkey)) hunseen
  obtain ⟨i, hi, g, rest', hstack', hcondition, other, hother, htext, hcalls⟩ :=
    exists_of_key_mem hplain hbuilt.colon hkey
  have hplus' : '+' ∈ flagsOf other :=
    hplain.flags_agree entry hknown other
      ((tidy_run hplain i g (by simp [hstack'])).known hother) htext.symm hplus
  -- that one asked for the call, which is then made
  rw [← htext] at hlookup ⊢
  rw [← hcondition] at hne ⊢
  have hearlier := within_of_subset (@seen_subset_run m pkgname depends i j (by omega))
  exact visited_of_mem_loop hplain hend hstack' hne (hearlier.trans hwithin)
    (hcalls _ ⟨hplus', depends', hlookup, rfl⟩)

theorem harmless_of_stack_nil : Harmless m pkgname (run m pkgname depends k) := by
  unfold Harmless
  split
  · trivial
  · next f rest hstack =>
    by_cases hnil : f.condition = []
    · exact .inl hnil
    · right
      obtain ⟨limit, hlimit⟩ := exists_length_le hend
      have hf : Visited m pkgname depends k f := ⟨hnil, k, by simp [hstack], fun _ h => h⟩
      apply bounded_of_weight_le hlimit _ _ hf
      · rintro g depends' hg ⟨text, hselects⟩
        refine ⟨_, hg.of_selects hplain hend hselects, rfl, ?_⟩
        exact length_le_foldl (hg.built hplain).isTrue _
      · rintro g depends' hg ⟨text, hselects, hlabels⟩
        refine ⟨_, hg.of_selects hplain hend hselects, rfl, ?_⟩
        exact length_lt_foldl (hg.built hplain).isTrue hlabels

end Ends

theorem harmless_of_terminates (hplain : Plain m pkgname depends) (h : Terminates m pkgname depends)
    (k : Nat) : Harmless m pkgname (run m pkgname depends k) := by
  obtain ⟨n, hend⟩ := h
  exact harmless_of_stack_nil hplain hend

/-! ### When the function returns -/

/-- The function returns if each of its calls is harmless, and in metadata of the usual form only
    then. -/
theorem mconfDepends_returns (m : Metadata) (pkgname : Text) (depends : List Text) :
    ((∀ n, Harmless m pkgname (run m pkgname depends n)) → Terminates m pkgname depends) ∧
    (Plain m pkgname depends → Terminates m pkgname depends →
      ∀ n, Harmless m pkgname (run m pkgname depends n)) :=
  ⟨terminates_of_harmless, harmless_of_terminates⟩

/-- Two packages that select each other, and a package that selects the first one under a
    condition; the first one selects the second under the condition `X`, or under none. -/
def circle (conditional : Bool) : Metadata where
  package :=
    [("p".toList, ["+C:a".toList]),
     ("a".toList, [if conditional then "+X:b".toList else "+b".toList]),
     ("b".toList, ["+a".toList])]
  vpackage :=
    [("p".toList, [{ name := "p".toList }]), ("a".toList, [{ name := "a".toList }]),
     ("b".toList, [{ name := "b".toList }])]

theorem circle_plain (conditional : Bool) :
    Plain (circle conditional) "p".toList ["+C:a".toList] where
  label_colon := by cases conditional <;> decide +kernel
  label_truthy := by cases conditional <;> decide +kernel
  label_ne := by cases conditional <;> decide +kernel
  text_blank := by cases conditional <;> decide +kernel
  flags_agree := by cases conditional <;> decide +kernel

/-- A cycle that adds nothing to the condition does no harm. -/
theorem mconfDepends_returns_circle :
    Plain (circle false) "p".toList ["+C:a".toList] ∧
    Terminates (circle false) "p".toList ["+C:a".toList] ∧
    ∀ n, Harmless (circle false) "p".toList (run (circle false) "p".toList ["+C:a".toList] n) := by
  have hleveled : Leveled (circle false) "p".toList
      fun node => if node = ["+C:a".toList] then 1 else 0 := by decide +kernel
  obtain ⟨hsufficient, hnecessary⟩ :=
    mconfDepends_returns (circle false) "p".toList ["+C:a".toList]
  have hreturns := hsufficient (harmless_of_leveled hleveled)
  exact ⟨circle_plain false, hreturns, hnecessary (circle_plain false) hreturns⟩

/-- The condition of `a` becomes `C`, `C && X`, `C && X && X` and so on. -/
theorem not_terminates_small : ¬ Terminates (circle true) "p".toList ["+C:a".toList] := by
  intro h
  have hharmless := harmless_of_terminates (circle_plain true) h 1
  have hstate : run (circle true) "p".toList ["+C:a".toList] 1 =
      ⟨[":C:a".toList], [("PACKAGE_a if C".toList, .select)],
        [⟨["+X:b".toList], "C".toList, true⟩]⟩ := by decide +kernel
  rcases hharmless with hnil | hbounded
  · exact absurd hnil (by decide +kernel)
  · apply hbounded ["+X:b".toList] ["+a".toList] Relation.ReflTransGen.refl
    · refine ⟨"X:b".toList, ⟨⟨_, mem_singleton_self _, ?_⟩, ?_, ?_⟩, ?_⟩
      all_goals decide +kernel
    · refine Relation.ReflTransGen.single ⟨"a".toList, ⟨_, mem_singleton_self _, ?_⟩, ?_, ?_⟩
      all_goals decide +kernel

end Rooter.PackageDepends
