import Rooter.Numeral

/-!
# The configuration as shell variables

Model of `config`, `option`, `list` and `config_get` of `functions.sh`.  The value of an option
is kept in the variable `CONFIG_<section>_<option>`.  A list has its values there too, with
blanks between them, and one by one in `CONFIG_<section>_<option>_ITEM<n>`; how many there are
is in `CONFIG_<section>_<option>_LENGTH`.

The variables of the shell are a function from names to texts: one that is not set and an empty
one are the same to every expansion in these functions.  A function has no result if the script
ends in it, which a variable name with other characters makes it do.
-/

namespace Rooter.ShellConfig

open List Numeral

abbrev Text := List Char

abbrev Env := Text → Text

def wordChar (c : Char) : Bool := c.isAlphanum || c == '_'

/-- What the functions ask of the shell's numbers: `$((x + 1))` for a variable with a text in
    it, which may be an error, and `[ $x = 0 ]`.  They are the expected ones for a number, and
    adding one never gives back the text. -/
structure Arithmetic where
  plusOne : Text → Option Text
  isZero : Text → Bool
  plusOne_decimal : ∀ n, plusOne (decimal n) = some (decimal (n + 1))
  isZero_decimal : ∀ n, isZero (decimal n) = decide (n = 0)
  plusOne_ne : ∀ {t t' : Text}, plusOne t = some t' → t' ≠ t

/-! ### Variables -/

def configVar (sec opt : Text) : Text :=
  "CONFIG_".toList ++ (sec ++ '_' :: opt)

def configNumSections : Text := "CONFIG_NUM_SECTIONS".toList

def configSections : Text := "CONFIG_SECTIONS".toList

def configSection : Text := "CONFIG_SECTION".toList

def configListState : Text := "CONFIG_LIST_STATE".toList

def typeOption : Text := "TYPE".toList

def lengthOption (opt : Text) : Text := opt ++ "_LENGTH".toList

def itemOption (opt len : Text) : Text := opt ++ ("_ITEM".toList ++ len)

def listSep : Text := [' ']

def Env.export (env : Env) (name value : Text) : Option Env :=
  if name.all wordChar then some (Function.update env name value) else none

/-- The text that `append` puts into a variable. -/
def appended (old value sep : Text) : Text :=
  if old = [] then value else old ++ (if value = [] then [] else sep) ++ value

def append (env : Env) (var value sep : Text) : Option Env :=
  env.export var (appended (env var) value (if sep = [] then [' '] else sep))

def configSet (env : Env) (sec opt value : Text) : Option Env :=
  env.export (configVar sec opt) value

/-- The expansion of a variable with `:-` and a default. -/
def orDefault (value default : Text) : Text := if value = [] then default else value

/-- A dash with some of the letters of the options of `echo` behind it. -/
def isEchoOption : Text → Bool
  | '-' :: letters => !letters.isEmpty && letters.all ['n', 'e', 'E'].contains
  | _ => false

/-- What `echo` prints for one argument; options are obeyed, not printed. -/
def echo (arg : Text) : Text :=
  if isEchoOption arg then if arg.contains 'n' then [] else ['\n'] else arg ++ ['\n']

inductive Got where
  | nothing
  | assigned (value : Text)
  | printed (text : Text)
  deriving DecidableEq

/-- `config_get`: with a variable, a section and an option it assigns, with a section and an
    option only it prints.  The fourth argument is a default for both. -/
def configGet (env : Env) (one two three four : Text) : Got :=
  if (two ++ orDefault three one).all wordChar then
    if three = [] then .printed (echo (orDefault (env (configVar one two)) four))
    else .assigned (orDefault (env (configVar two three)) four)
  else .nothing

def Got.value? : Got → Option Text
  | .assigned value => some value
  | _ => none

/-! ### The functions that define the configuration -/

section Define

variable (a : Arithmetic) (env : Env)

def config (cfgtype name : Text) : Option Env := do
  let num ← a.plusOne (env configNumSections)
  let env ← env.export configNumSections num
  let name := if name = [] then ['c', 'f', 'g'] ++ num else name
  let env ← append env configSections name []
  let env ← env.export configSection name
  configSet env name typeOption cfgtype

def star (args : List Text) : Text := [' '].intercalate args

def option (varname : Text) (args : List Text) : Option Env :=
  configSet env (env configSection) varname (star args)

/-- `[ $len = 0 ] && append CONFIG_LIST_STATE ...`. -/
def appendListState (len name : Text) : Option Env :=
  if a.isZero len then append env configListState name [] else some env

def list (varname : Text) (args : List Text) : Option Env := do
  let sec := env configSection
  let len ← (configGet env ['l', 'e', 'n'] sec (lengthOption varname) ['0']).value?
  let env ← appendListState a env len (sec ++ '_' :: varname)
  let len ← a.plusOne len
  let env ← configSet env sec (itemOption varname len) (star args)
  let env ← configSet env sec (lengthOption varname) len
  append env (configVar sec varname) (star args) listSep

end Define

inductive Call where
  | config (cfgtype name : Text)
  | option (varname : Text) (args : List Text)
  | list (varname : Text) (args : List Text)
  deriving DecidableEq

def Call.run (a : Arithmetic) (env : Env) : Call → Option Env
  | .config cfgtype name => ShellConfig.config a env cfgtype name
  | .option varname args => ShellConfig.option env varname args
  | .list varname args => ShellConfig.list a env varname args

def run (a : Arithmetic) (env : Env) (calls : List Call) : Option Env :=
  calls.foldlM (Call.run a) env

/-- The variables as `uci_load` prepares them in a shell that has loaded nothing yet. -/
def start : Env := Function.update (fun _ => []) configNumSections ['0']

/-! ### What is defined -/

abbrev Key := Text × Text

/-- The number of sections so far, and the section that options belong to. -/
structure Cursor where
  count : Nat
  sec : Text

/-- An option and the value it is given, or a list and the value it gets in addition. -/
structure Definition where
  key : Key
  isList : Bool
  value : Text

def Cursor.next (p : Cursor) : Call → Cursor
  | .config _ name =>
    ⟨p.count + 1, if name = [] then ['c', 'f', 'g'] ++ decimal (p.count + 1) else name⟩
  | .option _ _ => p
  | .list _ _ => p

def Call.definition (sec : Text) : Call → Definition
  | .config cfgtype _ => ⟨(sec, typeOption), false, cfgtype⟩
  | .option varname args => ⟨(sec, varname), false, star args⟩
  | .list varname args => ⟨(sec, varname), true, star args⟩

def definitions (p : Cursor) : List Call → List Definition
  | [] => []
  | c :: calls => c.definition (p.next c).sec :: definitions (p.next c) calls

def Cursor.after (p : Cursor) (calls : List Call) : Cursor := calls.foldl Cursor.next p

def Cursor.start : Cursor := ⟨0, []⟩

/-- The values an option has: the last one it was given, and those a list got after it. -/
def valuesOf (q : Key) (defs : List Definition) : List Text :=
  defs.foldl (fun values d =>
    if d.key = q then if d.isList then values ++ [d.value] else [d.value] else values) []

def joined (values : List Text) : Text := listSep.intercalate (values.filter (· ≠ []))

def given (defs : List Definition) : List Key := defs.map Definition.key

def listed (defs : List Definition) : List Key := (defs.filter Definition.isList).map Definition.key

/-! #### Sections and options one after another -/

section Definitions

variable {p : Cursor} {calls rest : List Call}

theorem definitions_append :
    definitions p (calls ++ rest) = definitions p calls ++ definitions (p.after calls) rest := by
  induction calls generalizing p with
  | nil => rfl
  | cons c calls ih => exact congrArg _ ih

theorem exists_of_mem_definitions {d : Definition} (h : d ∈ definitions p calls) :
    ∃ front c rest, calls = front ++ c :: rest ∧
      d = c.definition ((p.after front).next c).sec := by
  induction calls generalizing p with
  | nil => exact absurd h not_mem_nil
  | cons c calls ih =>
    rcases mem_cons.mp h with heq | hmem
    · exact ⟨[], c, calls, rfl, heq⟩
    · obtain ⟨front, c', rest, rfl, hd⟩ := ih hmem
      exact ⟨c :: front, c', rest, rfl, hd⟩

theorem given_append (defs defs' : List Definition) :
    given (defs ++ defs') = given defs ++ given defs' :=
  map_append

theorem listed_append (defs defs' : List Definition) :
    listed (defs ++ defs') = listed defs ++ listed defs' := by
  unfold listed
  rw [filter_append, map_append]

theorem mem_given_of_mem_listed {defs : List Definition} {q : Key} (h : q ∈ listed defs) :
    q ∈ given defs := by
  obtain ⟨d, hd, hq⟩ := mem_map.mp h
  exact mem_map.mpr ⟨d, mem_of_mem_filter hd, hq⟩

theorem valuesOf_concat (q : Key) (defs : List Definition) (d : Definition) :
    valuesOf q (defs ++ [d]) = if d.key = q then
      if d.isList then valuesOf q defs ++ [d.value] else [d.value] else valuesOf q defs := by
  unfold valuesOf
  rw [foldl_append]
  rfl

theorem valuesOf_concat_of_ne {q : Key} {defs : List Definition} {d : Definition}
    (h : d.key ≠ q) : valuesOf q (defs ++ [d]) = valuesOf q defs := by
  rw [valuesOf_concat, if_neg h]

end Definitions

/-! ### Joining values -/

section Joined

variable {values : List Text}

theorem intercalate_concat (sep v : Text) (h : values ≠ []) :
    sep.intercalate (values ++ [v]) = sep.intercalate values ++ sep ++ v := by
  induction values with
  | nil => exact absurd rfl h
  | cons w values ih =>
    cases values with
    | nil =>
      rw [singleton_append, intercalate_cons_cons, intercalate_singleton, intercalate_singleton]
    | cons w' values =>
      rw [cons_append, cons_append, intercalate_cons_cons, ← cons_append,
        ih (cons_ne_nil _ _), intercalate_cons_cons]
      simp only [append_assoc]

theorem joined_eq_nil (h : joined values = []) : values.filter (· ≠ []) = [] := by
  unfold joined at h
  generalize hf : values.filter (· ≠ []) = l at h ⊢
  have hne : ∀ v ∈ l, v ≠ [] := fun v hv => by
    rw [← hf] at hv
    exact of_decide_eq_true (mem_filter.mp hv).2
  cases l with
  | nil => rfl
  | cons v l =>
    have hv := hne v mem_cons_self
    cases l with
    | nil => exact absurd (intercalate_singleton.symm.trans h) hv
    | cons w l =>
      exact absurd (append_eq_nil_iff.mp h).1 hv

theorem appended_nil (old sep : Text) : appended old [] sep = old := by
  unfold appended
  split
  next h => exact h.symm
  next => rw [if_pos rfl, append_nil, append_nil]

theorem joined_concat (values : List Text) (v : Text) :
    joined (values ++ [v]) = appended (joined values) v listSep := by
  by_cases hv : v = []
  · have hfilter : (values ++ [v]).filter (· ≠ []) = values.filter (· ≠ []) := by
      rw [filter_append, hv]
      exact append_nil _
    rw [hv, appended_nil, ← hv]
    exact congrArg listSep.intercalate hfilter
  · have hfilter : (values ++ [v]).filter (· ≠ []) = values.filter (· ≠ []) ++ [v] := by
      rw [filter_append]
      exact congrArg _ (filter_cons_of_pos (decide_eq_true hv))
    unfold appended
    split
    next h =>
      unfold joined
      rw [hfilter, joined_eq_nil h]
      exact intercalate_singleton
    next h =>
      have hne : values.filter (· ≠ []) ≠ [] := fun hnil => h (congrArg listSep.intercalate hnil)
      unfold joined
      rw [hfilter, intercalate_concat _ _ hne]

theorem joined_singleton (v : Text) : joined [v] = v :=
  joined_concat [] v

theorem length_lt_appended (old sep : Text) {v : Text} (hv : v ≠ []) :
    old.length < (appended old v sep).length := by
  have hpos := length_pos_of_ne_nil hv
  unfold appended
  split
  next h => rwa [h]
  next =>
    rw [length_append, length_append]
    omega

theorem length_le_appended (old v sep : Text) : v.length ≤ (appended old v sep).length := by
  unfold appended
  split
  · exact Nat.le_refl _
  · rw [length_append]
    exact Nat.le_add_left _ _

/-- What an option has is at least as long as the value it has just been given. -/
theorem length_le_joined (defs : List Definition) (d : Definition) :
    d.value.length ≤ (joined (valuesOf d.key (defs ++ [d]))).length := by
  rw [valuesOf_concat, if_pos rfl]
  split
  · rw [joined_concat]
    exact length_le_appended _ _ _
  · rw [joined_singleton]

end Joined

end Rooter.ShellConfig
