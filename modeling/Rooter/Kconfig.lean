import Mathlib.Data.Char
import Mathlib.Data.List.AList
import Mathlib.Data.List.Lex
import Mathlib.Data.List.Sort
import Rooter.LuaString

/-!
# `kconfig.pl`

The script combines kernel configurations: `+` lays one over another, `>` is what has to be
laid over the first to get the second.  A configuration is a hash from symbols to values, where
a symbol that is not set has the value `#undef`; the order of its entries is any.  The prefix of
the symbols is one without special characters, as the pattern takes it for itself.
-/

namespace Rooter.Kconfig

open List LuaString

abbrev Text := List Char

abbrev Config := AList fun _ : Text => Text

/-! ### The script -/

def undef : Text := "#undef".toList

def setConfig (config : Config) (idx newval : Text) (modPlus : Bool) : Config :=
  match config.lookup idx with
  | none => config.insert idx newval
  | some old =>
      if !modPlus ∨ old = undef ∨ newval = "y".toList then config.insert idx newval else config

/-- `/^$PREFIX(.+?)=(.+)/`: the name has a character at least, and ends at the next `=`. -/
def matchAssign (pfx line : Text) : Option (Text × Text) :=
  if pfx.isPrefixOf line then
    match line.drop pfx.length with
    | [] => none
    | c :: rest =>
        match rest.dropWhile (· ≠ '=') with
        | _ :: v :: value => some (c :: rest.takeWhile (· ≠ '='), v :: value)
        | _ => none
  else none

/-- `(.+?)` in front of `stop`. -/
def nameBefore (stop : Text) : Text → Option Text
  | [] => none
  | c :: rest => if stop.isPrefixOf rest then some [c] else (nameBefore stop rest).map (c :: ·)

/-- `/^# $PREFIX(.+?) is not set/` -/
def matchUnset (pfx line : Text) : Option Text :=
  if ("# ".toList ++ pfx).isPrefixOf line then
    nameBefore " is not set".toList (line.drop ("# ".toList ++ pfx).length)
  else none

def loadLine (pfx : Text) (modPlus : Bool) (config : Config) (line : Text) : Config :=
  match matchAssign pfx line with
  | some (name, value) => setConfig config name value modPlus
  | none =>
      match matchUnset pfx line with
      | some name => setConfig config name undef modPlus
      | none => config -- a comment, or a line with a warning

/-- `load_config`; the empty line behind the last line end does nothing. -/
def loadConfig (pfx : Text) (file : Text) (modPlus : Bool) : Config :=
  ((linesOf file).1 :: (linesOf file).2).foldl (loadLine pfx modPlus) ∅

def truthy (value : Text) : Bool := value ≠ [] && value ≠ ['0']

def addEntry (modPlus : Bool) (config : Config) (entry : Sigma fun _ : Text => Text) : Config :=
  match config.lookup entry.1 with
  | none => config.insert entry.1 entry.2
  | some old =>
      if modPlus ∧ truthy old ∧ (old = "y".toList ∨ entry.2 = undef) then config
      else config.insert entry.1 entry.2

def configAdd (cfg1 cfg2 : Config) (modPlus : Bool) : Config :=
  cfg2.entries.foldl (addEntry modPlus) (cfg1.entries.foldl (addEntry modPlus) ∅)

def differs (cfg1 : Config) (newOnly : Bool) (entry : Sigma fun _ : Text => Text) : Bool :=
  match cfg1.lookup entry.1 with
  | none => !(newOnly && entry.2 = undef)
  | some old => old ≠ entry.2

def configDiff (cfg1 cfg2 : Config) (newOnly : Bool) : Config :=
  cfg2.entries.foldl (fun config entry =>
    if differs cfg1 newOnly entry then config.insert entry.1 entry.2 else config) ∅

/-- `print_cfgline` without the line end -/
def cfgline (pfx name val : Text) : Text :=
  if val = undef ∨ val = ['n'] then "# ".toList ++ pfx ++ (name ++ " is not set".toList)
  else pfx ++ (name ++ '=' :: val)

def sortedEntries (cfg : Config) : List (Sigma fun _ : Text => Text) :=
  cfg.entries.insertionSort fun a b => a.1 ≤ b.1

def dumpConfig (pfx : Text) (cfg : Config) : Text :=
  (sortedEntries cfg).flatMap fun entry => cfgline pfx entry.1 entry.2 ++ ['\n']

/-! ### Entries laid over a configuration -/

def insertAll (entries : List (Sigma fun _ : Text => Text)) (config : Config) : Config :=
  entries.foldl (fun config entry => config.insert entry.1 entry.2) config

/-- The value of a symbol behind `config_add`, from its values in the two configurations. -/
def added (modPlus : Bool) : Option Text → Option Text → Option Text
  | none, new => new
  | old, none => old
  | some old, some new =>
      some (if modPlus ∧ truthy old ∧ (old = "y".toList ∨ new = undef) then old else new)

theorem added_none (modPlus : Bool) (old : Option Text) : added modPlus old none = old := by
  cases old <;> rfl

theorem lookup_addEntry (modPlus : Bool) (config : Config) (name value key : Text) :
    (addEntry modPlus config ⟨name, value⟩).lookup key =
      added modPlus (config.lookup key) (if key = name then some value else none) := by
  unfold addEntry
  by_cases hkey : key = name
  · subst hkey
    rw [if_pos rfl]
    split
    next hnone => rw [hnone, AList.lookup_insert, added]
    next old hold =>
      rw [hold, added]
      split
      · exact hold
      · rw [AList.lookup_insert]
  · rw [if_neg hkey, added_none]
    split
    · rw [AList.lookup_insert_ne hkey]
    · split
      · rfl
      · rw [AList.lookup_insert_ne hkey]

variable {entries : List (Sigma fun _ : Text => Text)}

theorem lookup_foldl_addEntry (h : entries.NodupKeys) (modPlus : Bool) (config : Config)
    (key : Text) : (entries.foldl (addEntry modPlus) config).lookup key =
      added modPlus (config.lookup key) (entries.dlookup key) := by
  induction entries generalizing config with
  | nil => exact (added_none modPlus _).symm
  | cons entry entries ih =>
    obtain ⟨name, value⟩ := entry
    obtain ⟨hname, hrest⟩ := nodupKeys_cons.mp h
    rw [foldl_cons, ih hrest, lookup_addEntry]
    by_cases hkey : key = name
    · subst hkey
      rw [if_pos rfl, dlookup_eq_none.mpr hname, added_none, dlookup_cons_eq]
    · rw [if_neg hkey, added_none, dlookup_cons_ne _ _ hkey]

theorem lookup_empty (key : Text) : (∅ : Config).lookup key = none := rfl

theorem lookup_configAdd_added (cfg1 cfg2 : Config) (modPlus : Bool) (key : Text) :
    (configAdd cfg1 cfg2 modPlus).lookup key =
      added modPlus (cfg1.lookup key) (cfg2.lookup key) := by
  rw [configAdd, lookup_foldl_addEntry cfg2.nodupKeys, lookup_foldl_addEntry cfg1.nodupKeys]
  rfl

theorem added_false (old new : Option Text) : added false old new = new.or old := by
  cases old <;> cases new <;> rfl

theorem lookup_configAdd (cfg1 cfg2 : Config) (key : Text) :
    (configAdd cfg1 cfg2 false).lookup key = (cfg2.lookup key).or (cfg1.lookup key) := by
  rw [lookup_configAdd_added, added_false]

theorem lookup_insertAll (h : entries.NodupKeys) (config : Config) (key : Text) :
    (insertAll entries config).lookup key = (entries.dlookup key).or (config.lookup key) := by
  have hstep : addEntry false = fun config entry => config.insert entry.1 entry.2 := by
    funext config entry
    unfold addEntry
    split
    · rfl
    · rw [if_neg (by simp)]
  rw [insertAll, ← hstep, lookup_foldl_addEntry h, added_false]

theorem lookup_filter (config : Config) (p : (Sigma fun _ : Text => Text) → Bool)
    (key value : Text) : (insertAll (config.entries.filter p) ∅).lookup key = some value ↔
      config.lookup key = some value ∧ p ⟨key, value⟩ = true := by
  have hnodup : (config.entries.filter p).NodupKeys :=
    NodupKeys.sublist filter_sublist config.nodupKeys
  rw [lookup_insertAll hnodup, lookup_empty, Option.or_none, ← Option.mem_def,
    ← Option.mem_def, mem_dlookup_iff hnodup, mem_filter, AList.mem_lookup_iff]

def diffEntries (cfg1 cfg2 : Config) (newOnly : Bool) : List (Sigma fun _ : Text => Text) :=
  cfg2.entries.filter (differs cfg1 newOnly)

theorem configDiff_eq (cfg1 cfg2 : Config) (newOnly : Bool) :
    configDiff cfg1 cfg2 newOnly = insertAll (diffEntries cfg1 cfg2 newOnly) ∅ := by
  rw [insertAll, diffEntries, foldl_filter]
  rfl

theorem lookup_configDiff (cfg1 cfg2 : Config) (newOnly : Bool) (key value : Text) :
    (configDiff cfg1 cfg2 newOnly).lookup key = some value ↔
      cfg2.lookup key = some value ∧ differs cfg1 newOnly ⟨key, value⟩ = true := by
  rw [configDiff_eq, diffEntries, lookup_filter]

end Rooter.Kconfig
