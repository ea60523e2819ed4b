import Rooter.KconfigPatch

/-!
# Common values and merged fragments

`&` should keep what two configurations agree on.  It asks whether the value of the second one
is true, which `0` is not to Perl, and so such a value is left out.

`m+` gives a symbol the highest of its values, and loading a file does the same by another
rule.  That rule is associative, so a file may be cut into fragments between any two lines.
-/

namespace Rooter.Kconfig

open List

/-! ### `config_and` -/

def shared (cfg2 : Config) (entry : Sigma fun _ : Text => Text) : Bool :=
  match cfg2.lookup entry.1 with
  | none => false
  | some val2 => truthy val2 && entry.2 = val2

def configAnd (cfg1 cfg2 : Config) : Config :=
  cfg1.entries.foldl (fun config entry =>
    if shared cfg2 entry then config.insert entry.1 entry.2 else config) ∅

theorem lookup_configAnd (cfg1 cfg2 : Config) (key value : Text) :
    (configAnd cfg1 cfg2).lookup key = some value ↔
      cfg1.lookup key = some value ∧ cfg2.lookup key = some value ∧ truthy value = true := by
  have heq : configAnd cfg1 cfg2 = insertAll (cfg1.entries.filter (shared cfg2)) ∅ := by
    rw [insertAll, foldl_filter]
    rfl
  rw [heq, lookup_filter]
  refine and_congr_right fun _ => ?_
  unfold shared
  cases hval2 : cfg2.lookup key with
  | none => simp
  | some val2 =>
    rw [Bool.and_eq_true, decide_eq_true_iff, Option.some.injEq]
    constructor
    · rintro ⟨htrue, rfl⟩
      exact ⟨rfl, htrue⟩
    · rintro ⟨rfl, htrue⟩
      exact ⟨htrue, rfl⟩

/-- **The intersection is exact**, and has the laws of one, for a configuration without a value
    that is false to Perl, and for no other. -/
theorem configAnd_exact_iff (cfg1 cfg2 cfg3 : Config) :
    ((∀ key value, (configAnd cfg1 cfg2).lookup key = some value ↔
        cfg1.lookup key = some value ∧ cfg2.lookup key = some value) ∧
      (∀ key, (configAnd cfg1 cfg2).lookup key = (configAnd cfg2 cfg1).lookup key) ∧
      (∀ key, (configAnd (configAnd cfg1 cfg2) cfg3).lookup key =
        (configAnd cfg1 (configAnd cfg2 cfg3)).lookup key) ∧
      ∀ key, (configAnd cfg1 cfg1).lookup key = cfg1.lookup key) ↔
    ∀ key value, cfg1.lookup key = some value → truthy value = true := by
  constructor
  · rintro ⟨-, -, -, hsame⟩ key value hvalue
    exact ((lookup_configAnd cfg1 cfg1 key value).mp ((hsame key).trans hvalue)).2.2
  · intro htrue
    refine ⟨fun key value => ?_, fun key => Option.ext fun value => ?_,
      fun key => Option.ext fun value => ?_, fun key => Option.ext fun value => ?_⟩
    · rw [lookup_configAnd, ← and_assoc, and_iff_left_iff_imp]
      exact fun h => htrue key value h.1
    · rw [lookup_configAnd, lookup_configAnd, and_left_comm]
    · simp only [lookup_configAnd]
      tauto
    · rw [lookup_configAnd, and_iff_left_iff_imp]
      exact fun h => ⟨h, htrue key value h⟩

theorem not_configAnd_exact :
    let cfg := loadConfig "CONFIG_".toList "CONFIG_HZ=0\n".toList false
    cfg.lookup "HZ".toList = some "0".toList ∧ (configAnd cfg cfg).lookup "HZ".toList = none := by
  decide +kernel

/-! ### The highest value -/

def levels : List (Option Text) := [none, some undef, some "m".toList, some "y".toList]

def top (y m undefined : Bool) : Option Text :=
  if y then some "y".toList
  else if m then some "m".toList
  else if undefined then some undef
  else none

/-- The highest of the values, in the order of `levels`. -/
def highest (values : List (Option Text)) : Option Text :=
  top (some "y".toList ∈ values) (some "m".toList ∈ values) (some undef ∈ values)

theorem highest_mem (values : List (Option Text)) : highest values ∈ levels := by
  have htop : ∀ y m undefined, top y m undefined ∈ levels := by decide
  exact htop _ _ _

theorem highest_append (l r : List (Option Text)) :
    highest (l ++ r) = highest [highest l, highest r] := by
  have htop : ∀ y m u y' m' u', top (y || y') (m || m') (u || u') =
    highest [top y m u, top y' m' u'] := by decide
  unfold highest
  simp only [mem_append, Bool.decide_or]
  exact htop _ _ _ _ _ _

theorem highest_perm {l l' : List (Option Text)} (h : l.Perm l') : highest l = highest l' := by
  unfold highest
  simp only [h.mem_iff]

theorem highest_singleton : ∀ value ∈ levels, highest [value] = value := by
  decide

/-- What `set_config` with `mod_plus` makes of the value before and of a new one. -/
def settled : Option Text → Option Text → Option Text
  | none, new => new
  | old, none => old
  | some old, some new => some (if old = undef ∨ new = "y".toList then new else old)

theorem settled_none (old : Option Text) : settled old none = old := by
  cases old <;> rfl

theorem settled_assoc (a b c : Option Text) :
    settled (settled a b) c = settled a (settled b c) := by
  have hne : undef ≠ "y".toList := by decide
  rcases a with _ | a
  · rfl
  rcases b with _ | b
  · rfl
  rcases c with _ | c
  · rfl
  simp only [settled]
  grind

/-- For the four levels both rules are the same. -/
theorem added_settled : ∀ a ∈ levels, ∀ b ∈ levels,
    added true a b = highest [a, b] ∧ settled a b = highest [a, b] := by
  decide

/-! ### Merging -/

def Tristate (config : Config) : Prop := ∀ key, config.lookup key ∈ levels

/-- An expression of `m+`. -/
inductive Merging where
  | single (config : Config)
  | add (l r : Merging)

namespace Merging

def result : Merging → Config
  | single config => config
  | add l r => configAdd l.result r.result true

def fragments : Merging → List Config
  | single config => [config]
  | add l r => l.fragments ++ r.fragments

theorem lookup_result (t : Merging) (h : ∀ config ∈ t.fragments, Tristate config) (key : Text) :
    t.result.lookup key = highest (t.fragments.map (AList.lookup key)) := by
  induction t with
  | single config => exact (highest_singleton _ (h config mem_cons_self key)).symm
  | add l r ihl ihr =>
    have hl := ihl fun config hmem => h config (mem_append_left _ hmem)
    have hr := ihr fun config hmem => h config (mem_append_right _ hmem)
    rw [result, lookup_configAdd_added, hl, hr, fragments, map_append, highest_append]
    exact (added_settled _ (highest_mem _) _ (highest_mem _)).1

end Merging

/-! ### Fragments of a file -/

/-- A text file: lines with a line end each. -/
structure Fragment where
  lines : List Text
  noEnd : ∀ line ∈ lines, '\n' ∉ line

def Fragment.text (f : Fragment) : Text := f.lines.flatMap (· ++ ['\n'])

variable {pfx : Text}

theorem lookup_setConfig (config : Config) (name value key : Text) :
    (setConfig config name value true).lookup key =
      settled (config.lookup key) (if key = name then some value else none) := by
  unfold setConfig
  by_cases hkey : key = name
  · subst hkey
    rw [if_pos rfl]
    split
    next hnone => rw [hnone, AList.lookup_insert, settled]
    next old hold =>
      rw [hold, settled]
      by_cases hnew : old = undef ∨ value = "y".toList
      · rw [if_pos (.inr hnew), if_pos hnew, AList.lookup_insert]
      · rw [if_neg (not_or.mpr ⟨by decide, hnew⟩), if_neg hnew, hold]
  · rw [if_neg hkey, settled_none]
    split
    · rw [AList.lookup_insert_ne hkey]
    · split
      · rw [AList.lookup_insert_ne hkey]
      · rfl

theorem lookup_loadLine (config : Config) (line key : Text) :
    (loadLine pfx true config line).lookup key =
      settled (config.lookup key) ((loadLine pfx true ∅ line).lookup key) := by
  unfold loadLine
  split
  · rw [lookup_setConfig, lookup_setConfig]
    rfl
  · split
    · rw [lookup_setConfig, lookup_setConfig]
      rfl
    · exact (settled_none _).symm

theorem lookup_foldl_loadLine (lines : List Text) (config : Config) (key : Text) :
    (lines.foldl (loadLine pfx true) config).lookup key =
      settled (config.lookup key) ((lines.foldl (loadLine pfx true) ∅).lookup key) := by
  induction lines generalizing config with
  | nil => exact (settled_none _).symm
  | cons line lines ih =>
    rw [foldl_cons, foldl_cons, ih, ih (loadLine pfx true ∅ line), lookup_loadLine, settled_assoc]

/-- Loading fragments one behind the other. -/
theorem lookup_loadConfig_flatMap (files : List Fragment) (key : Text) :
    (loadConfig pfx (files.flatMap Fragment.text) true).lookup key =
      (files.map fun f => (loadConfig pfx f.text true).lookup key).foldr settled none := by
  have hload : ∀ files : List Fragment, loadConfig pfx (files.flatMap Fragment.text) true =
      (files.flatMap Fragment.lines).foldl (loadLine pfx true) ∅ := by
    intro files
    refine Eq.trans ?_ (foldl_linesOf (fun line hline => ?_) true ∅)
    · rw [flatMap_assoc]
      rfl
    · obtain ⟨f, -, hmem⟩ := mem_flatMap.mp hline
      exact f.noEnd line hmem
  induction files with
  | nil => rw [hload, flatMap_nil, foldl_nil, lookup_empty, map_nil, foldr_nil]
  | cons f files ih =>
    have hfirst := hload [f]
    rw [flatMap_singleton, flatMap_singleton] at hfirst
    rw [map_cons, foldr_cons, ← ih, hload, hload, hfirst, flatMap_cons, foldl_append,
      lookup_foldl_loadLine]

theorem foldr_settled {values : List (Option Text)} (h : ∀ value ∈ values, value ∈ levels) :
    values.foldr settled none = highest values := by
  induction values with
  | nil => rfl
  | cons value values ih =>
    obtain ⟨hvalue, hrest⟩ := forall_mem_cons.mp h
    have hfirst := highest_append [value] values
    rw [highest_singleton value hvalue] at hfirst
    rw [foldr_cons, ih hrest, (added_settled _ hvalue _ (highest_mem _)).2]
    exact hfirst.symm

/-- **Merging takes the highest value**, in any order and grouping, and so does reading the
    fragments one behind the other. -/
theorem merging_highest (t : Merging) (h : ∀ config ∈ t.fragments, Tristate config) :
    (∀ key, t.result.lookup key = highest (t.fragments.map (AList.lookup key))) ∧
    (∀ t' : Merging, t'.fragments.Perm t.fragments → ∀ key,
      t'.result.lookup key = t.result.lookup key) ∧
    ∀ pfx (files : List Fragment),
      t.fragments = files.map (fun f => loadConfig pfx f.text true) → ∀ key,
        (loadConfig pfx (files.flatMap Fragment.text) true).lookup key = t.result.lookup key := by
  refine ⟨t.lookup_result h, fun t' hperm key => ?_, fun pfx files hfiles key => ?_⟩
  · rw [t.lookup_result h, t'.lookup_result fun config hmem => h config (hperm.mem_iff.mp hmem)]
    exact highest_perm (hperm.map _)
  · rw [t.lookup_result h, lookup_loadConfig_flatMap, hfiles, map_map, foldr_settled]
    · rfl
    · intro value hvalue
      obtain ⟨f, hf, rfl⟩ := mem_map.mp hvalue
      exact h _ (hfiles ▸ mem_map_of_mem hf) key

theorem tristate_singleton (name : Text) {value : Text} (h : some value ∈ levels) :
    Tristate (AList.insert name value ∅) := by
  intro key
  by_cases hkey : key = name
  · rwa [hkey, AList.lookup_insert]
  · rw [AList.lookup_insert_ne hkey]
    exact mem_cons_self

theorem merging_highest_usb :
    let module : Config := AList.insert "USB".toList "m".toList ∅
    let builtin : Config := AList.insert "USB".toList "y".toList ∅
    (Tristate module ∧ Tristate builtin) ∧
      (configAdd builtin module true).lookup "USB".toList = some "y".toList := by
  intro module builtin
  have hmodule : Tristate module := tristate_singleton _ (by decide)
  have hbuiltin : Tristate builtin := tristate_singleton _ (by decide)
  refine ⟨⟨hmodule, hbuiltin⟩, ?_⟩
  exact (merging_highest (.add (.single builtin) (.single module)) (by
    simpa [Merging.fragments] using ⟨hbuiltin, hmodule⟩)).1 _

end Rooter.Kconfig
