import Rooter.Growth

/-!
# `package-metadata.pl`: `mconf_depends`

The dependencies of a package become lines of a menu.  An entry with `+` selects another package,
whose own dependencies are added as well, under the condition of the entry; an entry may have
a condition, `COND:name`, and a name with several providers adds one.  The conditions on the
way are joined to a text.  A table of the pairs of a condition and an entry keeps what was seen,
so that an entry is expanded once for each condition, and not at all if it was seen without a
condition.

A call of the function works through its entries and then makes the calls that they ask for.
Nothing that others can see follows, so that the calls still to be made are kept as a stack.
-/

namespace Rooter.PackageDepends

open List

abbrev Text := List Char

/-! ### The metadata -/

structure Provider where
  name : Text
  buildonly : Bool := false
  variantDefault : Bool := false

/-- `%package`, as far as the dependencies go, and `%vpackage`. -/
structure Metadata where
  package : List (Text × List Text)
  vpackage : List (Text × List Provider)

/-! ### Entries -/

def isFlag (c : Char) : Bool := c == '@' || c == '+'

/-- `s/^([@\+]+)//` -/
def flagsOf (entry : Text) : Text := entry.takeWhile isFlag
def textOf (entry : Text) : Text := entry.dropWhile isFlag

def lastColon : Text → Option (Text × Text)
  | [] => none
  | c :: rest =>
      match lastColon rest with
      | some (front, behind) => some (c :: front, behind)
      | none => if c = ':' ∧ rest ≠ [] then some ([], rest) else none

/-- `/^(.+):(.+)$/` -/
def splitCondition : Text → Option (Text × Text)
  | [] => none
  | c :: rest => (lastColon rest).map fun split => (c :: split.1, split.2)

def truthy (value : Text) : Bool := value ≠ [] && value ≠ ['0']

def andCondition (condition added : Text) : Text :=
  if truthy condition then condition ++ " && ".toList ++ added else added

def packageSymbol (name : Text) : Text := "PACKAGE_".toList ++ name

def key (condition depend : Text) : Text := condition ++ ':' :: depend

/-- The condition of an entry, if it adds one, and the name behind it. -/
def conditionOf (pkgname text : Text) : List Text × Text :=
  match splitCondition text with
  | some (condition, name) =>
      (if condition ≠ packageSymbol pkgname then [condition] else [], name)
  | none => ([], text)

def vdeps (providers : List Provider) : List Text :=
  providers.foldl (fun names v =>
    if v.buildonly then names else if v.variantDefault then v.name :: names
    else names ++ [v.name]) []

/-- The package that is selected by a name, and the condition that the other providers add. -/
def selected (m : Metadata) (pkgname name : Text) : Text × List Text :=
  match m.vpackage.lookup name with
  | none => (name, [])
  | some providers =>
      match vdeps providers with
      | [] => ([], [])
      | first :: [] => (first, [])
      | first :: others =>
          (first, [intercalate "&&".toList
            (others.map fun other => packageSymbol other ++ '<' :: packageSymbol pkgname)])

/-! ### The function -/

inductive Kind where
  | select
  | dependsOn
deriving DecidableEq, Repr

/-- A call: the entries, the condition of the caller, and whether only what they depend on
    counts. -/
structure Frame where
  depends : List Text
  condition : Text
  onlyDep : Bool
deriving DecidableEq, Repr

/-- The tables `%$seen` and `%$dep`, and the calls that are to be made. -/
structure State where
  seen : List Text
  dep : List (Text × Kind)
  stack : List Frame
deriving DecidableEq, Repr

/-- `$dep->{$depend} =~ /select/ or $dep->{$depend} = $m` -/
def setDep (dep : List (Text × Kind)) (depend : Text) (kind : Kind) : List (Text × Kind) :=
  if dep.lookup depend = some .select then dep
  else (depend, kind) :: dep.filter fun entry => entry.1 ≠ depend

def addSelect (dep : List (Text × Kind)) (flags target condition : Text) : List (Text × Kind) :=
  let depend := if '@' ∈ flags then target else packageSymbol target
  if truthy condition then
    if depend = condition then dep else setDep dep (depend ++ " if ".toList ++ condition) .select
  else setDep dep depend .select

def addDepends (m : Metadata) (dep : List (Text × Kind)) (flags name condition : Text) :
    List (Text × Kind) :=
  let depend :=
    match m.vpackage.lookup name with
    | some (v :: vdep) =>
        intercalate "||".toList ((v :: vdep).map fun v => packageSymbol v.name)
    | _ => if '@' ∈ flags then name else packageSymbol name
  if truthy condition then
    if (dep.lookup (depend ++ " if ".toList ++ condition)).isSome then dep
    else if dep.lookup condition = some .select then setDep dep depend .dependsOn
    else setDep dep ("!(".toList ++ condition ++ ") || ".toList ++ depend) .dependsOn
  else setDep dep depend .dependsOn

variable (m : Metadata) (pkgname : Text)

/-- The body of the loop; here `stack` is `@t_depends`. -/
def entryStep (f : Frame) (s : State) (entry : Text) : State :=
  let flags := flagsOf entry
  let text := textOf entry
  if f.condition = text ∨ s.seen.contains (key f.condition text) ∨ s.seen.contains (key [] text)
  then s
  else
    let seen := key f.condition text :: s.seen
    let (added, name) := conditionOf pkgname text
    let condition := added.foldl andCondition f.condition
    if '+' ∈ flags then
      let (target, others) := selected m pkgname name
      let condition := others.foldl andCondition condition
      let calls :=
        match m.package.lookup target with
        | some depends => [⟨depends, condition, true⟩]
        | none => []
      let dep := if f.onlyDep then s.dep else addSelect s.dep flags target condition
      ⟨seen, dep, s.stack ++ calls⟩
    else ⟨seen, addDepends m s.dep flags name condition, s.stack⟩

def loop (f : Frame) (seen : List Text) (dep : List (Text × Kind)) : State :=
  f.depends.foldl (entryStep m pkgname f) ⟨seen, dep, []⟩

def step (s : State) : State :=
  match s.stack with
  | [] => s
  | f :: rest =>
      let t := loop m pkgname f s.seen s.dep
      { t with stack := t.stack ++ rest }

/-- `mconf_depends($pkgname, $depends, 0)` after a number of calls -/
def run (depends : List Text) (n : Nat) : State :=
  (step m pkgname)^[n] ⟨[], [], [⟨depends, [], false⟩]⟩

def Terminates (depends : List Text) : Prop := ∃ n, (run m pkgname depends n).stack = []

/-! ### The condition -/

def target (text : Text) : Text := (selected m pkgname (conditionOf pkgname text).2).1

def labels (text : Text) : List Text :=
  (conditionOf pkgname text).1 ++ (selected m pkgname (conditionOf pkgname text).2).2

def conditionAfter (condition text : Text) : Text :=
  (labels m pkgname text).foldl andCondition condition

/-- An entry of one package selects another one, and was not seen without a condition. -/
def Selects (seen : List Text) (text : Text) (depends depends' : List Text) : Prop :=
  (∃ entry ∈ depends, '+' ∈ flagsOf entry ∧ textOf entry = text) ∧ key [] text ∉ seen ∧
    m.package.lookup (target m pkgname text) = some depends'

def Edge (seen : List Text) (depends depends' : List Text) : Prop :=
  ∃ text, Selects m pkgname seen text depends depends'

def Grow (seen : List Text) (depends depends' : List Text) : Prop :=
  ∃ text, Selects m pkgname seen text depends depends' ∧ labels m pkgname text ≠ []

/-- The next call has no condition, or no cycle that adds to the condition can be reached from its
    entries, through entries that were not seen without a condition. -/
def Harmless (s : State) : Prop :=
  match s.stack with
  | [] => True
  | f :: _ => f.condition = [] ∨
      Growth.Bounded (Edge m pkgname s.seen) (Grow m pkgname s.seen) f.depends

/-! ### What a call does -/

variable {m pkgname}

/-- An entry is passed over, or marked as seen; then one with `+` asks for a call. -/
theorem entryStep_cases (f : Frame) (s : State) (entry : Text) :
    ((f.condition = textOf entry ∨ key f.condition (textOf entry) ∈ s.seen ∨
        key [] (textOf entry) ∈ s.seen) ∧ entryStep m pkgname f s entry = s) ∨
    ((f.condition ≠ textOf entry ∧ key f.condition (textOf entry) ∉ s.seen ∧
        key [] (textOf entry) ∉ s.seen) ∧
      (entryStep m pkgname f s entry).seen = key f.condition (textOf entry) :: s.seen ∧
      (entryStep m pkgname f s entry).stack = s.stack ++
        if '+' ∈ flagsOf entry then
          match m.package.lookup (target m pkgname (textOf entry)) with
          | some depends => [⟨depends, conditionAfter m pkgname f.condition (textOf entry), true⟩]
          | none => []
        else []) := by
  unfold entryStep
  simp only [contains_iff_mem]
  by_cases hskip : f.condition = textOf entry ∨ key f.condition (textOf entry) ∈ s.seen ∨
      key [] (textOf entry) ∈ s.seen
  · left
    simp [hskip]
  · right
    refine ⟨by simpa using hskip, ?_⟩
    simp only [if_neg hskip]
    split
    · simp only [target, conditionAfter, labels, foldl_append, and_self]
    · simp

def Asks (m : Metadata) (pkgname : Text) (f : Frame) (entry : Text) (g : Frame) : Prop :=
  '+' ∈ flagsOf entry ∧ ∃ depends,
    m.package.lookup (target m pkgname (textOf entry)) = some depends ∧
    g = ⟨depends, conditionAfter m pkgname f.condition (textOf entry), true⟩

variable {f : Frame} {s : State} {entry : Text}

theorem mem_entryStep_stack {g : Frame} :
    g ∈ (entryStep m pkgname f s entry).stack → g ∈ s.stack ∨ Asks m pkgname f entry g ∧
      key f.condition (textOf entry) ∉ s.seen ∧ key [] (textOf entry) ∉ s.seen ∧
      key f.condition (textOf entry) ∈ (entryStep m pkgname f s entry).seen := by
  intro hg
  rcases entryStep_cases f s entry with ⟨-, heq⟩ | ⟨⟨-, hkey, hplain⟩, hseen, hstack⟩
  · rw [heq] at hg
    exact .inl hg
  · rw [hstack, mem_append] at hg
    rcases hg with hg | hg
    · exact .inl hg
    · right
      split at hg
      · next hplus =>
        split at hg
        · next depends hlookup =>
          cases mem_singleton.mp hg
          exact ⟨⟨hplus, depends, hlookup, rfl⟩, hkey, hplain, by simp [hseen]⟩
        · cases hg
      · cases hg

theorem mem_entryStep_seen {x : Text} (h : x ∈ (entryStep m pkgname f s entry).seen) : x ∈ s.seen ∨
      x = key f.condition (textOf entry) ∧
        ∀ g, Asks m pkgname f entry g → g ∈ (entryStep m pkgname f s entry).stack := by
  rcases entryStep_cases f s entry with ⟨-, heq⟩ | ⟨-, hseen, hstack⟩
  · rw [heq] at h
    exact .inl h
  · rw [hseen, mem_cons] at h
    rcases h with rfl | h
    · refine .inr ⟨rfl, ?_⟩
      rintro g ⟨hplus, depends, hlookup, rfl⟩
      simp [hstack, hplus, hlookup]
    · exact .inl h

theorem entryStep_mono (f : Frame) (s : State) (entry : Text) :
    s.seen ⊆ (entryStep m pkgname f s entry).seen ∧
      s.stack ⊆ (entryStep m pkgname f s entry).stack := by
  rcases entryStep_cases f s entry with ⟨-, heq⟩ | ⟨-, hseen, hstack⟩
  · rw [heq]
    exact ⟨Subset.refl _, Subset.refl _⟩
  · rw [hseen, hstack]
    exact ⟨subset_cons_self _ _, subset_append_left _ _⟩

/-! ### The loop over the entries -/

section Loop

variable {f : Frame} {entries : List Text}

theorem foldl_mono (entries : List Text) (s : State) :
    s.seen ⊆ (entries.foldl (entryStep m pkgname f) s).seen ∧
      s.stack ⊆ (entries.foldl (entryStep m pkgname f) s).stack := by
  induction entries generalizing s with
  | nil => exact ⟨Subset.refl _, Subset.refl _⟩
  | cons entry entries ih =>
    have hone := @entryStep_mono m pkgname f s entry
    have hrest := ih (entryStep m pkgname f s entry)
    exact ⟨Subset.trans hone.1 hrest.1, Subset.trans hone.2 hrest.2⟩

theorem mem_foldl_stack {s : State} {g : Frame}
    (h : g ∈ (entries.foldl (entryStep m pkgname f) s).stack) : g ∈ s.stack ∨
      ∃ entry ∈ entries, Asks m pkgname f entry g ∧
        key f.condition (textOf entry) ∉ s.seen ∧ key [] (textOf entry) ∉ s.seen ∧
        key f.condition (textOf entry) ∈ (entries.foldl (entryStep m pkgname f) s).seen := by
  induction entries generalizing s with
  | nil => exact .inl h
  | cons entry entries ih =>
    have hmono := (@entryStep_mono m pkgname f s entry).1
    rcases ih h with hg | ⟨other, hother, hasks, hkey, hplain, hin⟩
    · rcases mem_entryStep_stack hg with hg | ⟨hasks, hkey, hplain, hin⟩
      · exact .inl hg
      · exact .inr ⟨entry, mem_cons_self, hasks, hkey, hplain, (foldl_mono entries _).1 hin⟩
    · exact .inr ⟨other, mem_cons_of_mem _ hother, hasks, fun h => hkey (hmono h),
        fun h => hplain (hmono h), hin⟩

theorem mem_foldl_seen {s : State} {x : Text}
    (h : x ∈ (entries.foldl (entryStep m pkgname f) s).seen) : x ∈ s.seen ∨
      ∃ entry ∈ entries, x = key f.condition (textOf entry) ∧
        ∀ g, Asks m pkgname f entry g → g ∈ (entries.foldl (entryStep m pkgname f) s).stack := by
  induction entries generalizing s with
  | nil => exact .inl h
  | cons entry entries ih =>
    rcases ih h with hx | ⟨other, hother, hx, hcalls⟩
    · rcases mem_entryStep_seen hx with hx | ⟨hx, hcalls⟩
      · exact .inl hx
      · exact .inr ⟨entry, mem_cons_self, hx,
          fun g hg => (foldl_mono entries _).2 (hcalls g hg)⟩
    · exact .inr ⟨other, mem_cons_of_mem _ hother, hx, hcalls⟩

theorem key_mem_foldl {s : State} {entry : Text} (h : entry ∈ entries)
    (hne : f.condition ≠ textOf entry) :
    key f.condition (textOf entry) ∈ (entries.foldl (entryStep m pkgname f) s).seen ∨
      key [] (textOf entry) ∈ (entries.foldl (entryStep m pkgname f) s).seen := by
  induction entries generalizing s with
  | nil => cases h
  | cons first entries ih =>
    rcases mem_cons.mp h with rfl | h
    · have hmono := (@foldl_mono m pkgname f entries (entryStep m pkgname f s entry)).1
      have hstep := (@entryStep_mono m pkgname f s entry).1
      rcases entryStep_cases f s entry with ⟨hskip, -⟩ | ⟨-, hseen, -⟩
      · rcases hskip with heq | hkey | hplain
        · exact absurd heq hne
        · exact .inl (hmono (hstep hkey))
        · exact .inr (hmono (hstep hplain))
      · have hmarked : key f.condition (textOf entry) ∈ (entryStep m pkgname f s entry).seen := by
          rw [hseen]
          exact mem_cons_self
        exact .inl (hmono hmarked)
    · exact ih h

end Loop

/-! ### A step -/

variable {rest : List Frame}

theorem step_stack (h : s.stack = f :: rest) :
    (step m pkgname s).stack = (loop m pkgname f s.seen s.dep).stack ++ rest := by
  simp [step, h]

theorem step_seen (h : s.stack = f :: rest) :
    (step m pkgname s).seen = (loop m pkgname f s.seen s.dep).seen := by
  simp [step, h]

theorem step_nil (h : s.stack = []) : step m pkgname s = s := by
  simp [step, h]

theorem seen_subset_step (s : State) : s.seen ⊆ (step m pkgname s).seen := by
  rcases hstack : s.stack with _ | ⟨f, rest⟩
  · rw [step_nil hstack]
    exact Subset.refl _
  · rw [step_seen hstack]
    exact (@foldl_mono m pkgname f f.depends ⟨s.seen, s.dep, []⟩).1

theorem run_succ (depends : List Text) (n : Nat) :
    run m pkgname depends (n + 1) = step m pkgname (run m pkgname depends n) :=
  Function.iterate_succ_apply' _ _ _

theorem key_mem_step (h : s.stack = f :: rest) (hentry : entry ∈ f.depends)
    (hne : f.condition ≠ textOf entry) :
    key f.condition (textOf entry) ∈ (step m pkgname s).seen ∨
      key [] (textOf entry) ∈ (step m pkgname s).seen := by
  rw [step_seen h]
  exact key_mem_foldl hentry hne

end Rooter.PackageDepends
