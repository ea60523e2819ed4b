import Mathlib.Data.List.TakeWhile
import Rooter.Kconfig

/-!
# Differences of configurations are patches

Laying the difference of two configurations over the first one gives the second one where it
has a value.  The same holds when the difference goes through a file in between: a line that
`print_cfgline` writes is read back as the symbol and the value it was written for, except that
`n` comes back as `#undef`.
-/

namespace Rooter.Kconfig

open List LuaString

/-! ### Lines -/

def isWord (c : Char) : Bool := c.isAlphanum || c = '_'

def Word (s : Text) : Prop := ∀ c ∈ s, isWord c = true

instance (s : Text) : Decidable (Word s) := decidable_of_iff (s.all isWord) List.all_eq_true

/-- What `load_config` makes of a value that `print_cfgline` wrote. -/
def readBack (value : Text) : Text := if value = ['n'] then undef else value

variable {name pfx value : Text}

theorem Word.not_mem {s : Text} (h : Word s) {c : Char} (hc : isWord c = false) : c ∉ s := by
  intro hmem
  rw [h c hmem] at hc
  cases hc

theorem isPrefixOf_append (s t : Text) : s.isPrefixOf (s ++ t) = true := by
  rw [List.isPrefixOf_iff_prefix]
  exact prefix_append s t

theorem matchAssign_eq_none {line : Text} (h : '=' ∉ line) : matchAssign pfx line = none := by
  unfold matchAssign
  split
  · cases hdrop : line.drop pfx.length with
    | nil => rfl
    | cons c rest =>
      have hrest : ∀ d ∈ rest, d ≠ '=' := by
        intro d hd heq
        have hmem : d ∈ line.drop pfx.length := by rw [hdrop]; exact mem_cons_of_mem c hd
        exact h (heq ▸ mem_of_mem_drop hmem)
      have hnil : rest.dropWhile (· ≠ '=') = [] := by
        apply dropWhile_eq_nil_iff.mpr
        intro d hd
        simpa using hrest d hd
      simp only [hnil]
  · rfl

theorem matchAssign_cfgline (hname : Word name) (hne : name ≠ []) (hvalue : value ≠ []) :
    matchAssign pfx (pfx ++ (name ++ '=' :: value)) = some (name, value) := by
  obtain ⟨c, rest, rfl⟩ := exists_cons_of_ne_nil hne
  obtain ⟨v, vs, rfl⟩ := exists_cons_of_ne_nil hvalue
  have hall : ∀ d ∈ rest, decide (d ≠ '=') = true := by
    intro d hd
    have hword : '=' ∉ c :: rest := hname.not_mem (by decide)
    simp only [decide_eq_true_eq]
    rintro rfl
    exact hword (mem_cons_of_mem c hd)
  have htake : (rest ++ '=' :: v :: vs).takeWhile (· ≠ '=') = rest := by
    rw [takeWhile_append_of_pos hall, takeWhile_cons_of_neg (by decide), append_nil]
  have hdrop : (rest ++ '=' :: v :: vs).dropWhile (· ≠ '=') = '=' :: v :: vs := by
    rw [dropWhile_append_of_pos hall, dropWhile_cons_of_neg (by decide)]
  rw [matchAssign, if_pos (isPrefixOf_append _ _), drop_left, cons_append]
  simp only [hdrop, htake]

theorem nameBefore_append (hname : Word name) (hne : name ≠ []) (stop : Text) :
    nameBefore (' ' :: stop) (name ++ ' ' :: stop) = some name := by
  induction name with
  | nil => exact absurd rfl hne
  | cons c rest ih =>
    rw [cons_append, nameBefore]
    cases rest with
    | nil =>
      rw [if_pos (by simp)]
    | cons d rest =>
      have hblank : d ≠ ' ' := by
        rintro rfl
        exact hname.not_mem (show isWord ' ' = false by decide) (by simp)
      rw [if_neg (by simp [Ne.symm hblank]),
        ih (fun x hx => hname x (mem_cons_of_mem c hx)) (by simp)]
      rfl

theorem matchUnset_cfgline (hname : Word name) (hne : name ≠ []) :
    matchUnset pfx ("# ".toList ++ pfx ++ (name ++ " is not set".toList)) = some name := by
  rw [matchUnset, if_pos (isPrefixOf_append _ _), drop_left]
  exact nameBefore_append hname hne _

/-- **A line that was printed is read back.** -/
theorem loadLine_cfgline (hpfx : Word pfx) (hname : Word name) (hne : name ≠ [])
    (hvalue : value ≠ []) (modPlus : Bool) (config : Config) :
    loadLine pfx modPlus config (cfgline pfx name value)
      = setConfig config name (readBack value) modPlus := by
  unfold loadLine cfgline
  by_cases hunset : value = undef ∨ value = ['n']
  · have hequals : '=' ∉ "# ".toList ++ pfx ++ (name ++ " is not set".toList) := by
      have hpfx' : '=' ∉ pfx := hpfx.not_mem (by decide)
      have hname' : '=' ∉ name := hname.not_mem (by decide)
      simp [hpfx', hname']
    have hback : readBack value = undef := by
      unfold readBack
      split
      · rfl
      · next hn => exact hunset.resolve_right hn
    rw [if_pos hunset, matchAssign_eq_none hequals, matchUnset_cfgline hname hne, hback]
  · have hback : readBack value = value := if_neg fun h => hunset (.inr h)
    rw [if_neg hunset, matchAssign_cfgline hname hne hvalue, hback]

/-! ### Files -/

def WellFormed (entries : List (Sigma fun _ : Text => Text)) : Prop :=
  ∀ entry ∈ entries, (Word entry.1 ∧ entry.1 ≠ []) ∧ entry.2 ≠ [] ∧ '\n' ∉ entry.2

theorem linesOf_append {line : Text} (h : '\n' ∉ line) (rest : Text) :
    linesOf (line ++ '\n' :: rest) = (line, (linesOf rest).1 :: (linesOf rest).2) := by
  induction line with
  | nil => simp [linesOf]
  | cons c line ih =>
    have hc : c ≠ '\n' := fun heq => h (heq ▸ mem_cons_self)
    have hline : '\n' ∉ line := fun hmem => h (mem_cons_of_mem c hmem)
    rw [cons_append, linesOf, ih hline]
    simp [hc]

theorem not_mem_cfgline (hpfx : Word pfx) (hname : Word name) (hvalue : '\n' ∉ value) :
    '\n' ∉ cfgline pfx name value := by
  have hpfx' : '\n' ∉ pfx := hpfx.not_mem (by decide)
  have hname' : '\n' ∉ name := hname.not_mem (by decide)
  unfold cfgline
  split
  · simp [hpfx', hname']
  · simp [hpfx', hname', hvalue]

theorem loadLine_nil (modPlus : Bool) (config : Config) :
    loadLine pfx modPlus config [] = config := by
  have hunset : matchUnset pfx [] = none := by
    rw [matchUnset, if_neg (by simp)]
  rw [loadLine, matchAssign_eq_none (by simp), hunset]

def readEntries (entries : List (Sigma fun _ : Text => Text)) : List (Sigma fun _ : Text => Text) :=
  entries.map fun entry => ⟨entry.1, readBack entry.2⟩

theorem keys_readEntries (entries : List (Sigma fun _ : Text => Text)) :
    (readEntries entries).keys = entries.keys := by
  simp [readEntries, keys]

theorem foldl_linesOf {lines : List Text} (h : ∀ line ∈ lines, '\n' ∉ line) (modPlus : Bool)
    (config : Config) :
    let file := lines.flatMap (· ++ ['\n'])
    ((linesOf file).1 :: (linesOf file).2).foldl (loadLine pfx modPlus) config =
      lines.foldl (loadLine pfx modPlus) config := by
  induction lines generalizing config with
  | nil => exact loadLine_nil modPlus config
  | cons line lines ih =>
    obtain ⟨hline, hrest⟩ := forall_mem_cons.mp h
    dsimp only at ih ⊢
    rw [flatMap_cons, append_assoc, singleton_append, linesOf_append hline]
    exact ih hrest _

theorem foldl_loadLine (hpfx : Word pfx) (modPlus : Bool)
    {entries : List (Sigma fun _ : Text => Text)} (hwf : WellFormed entries)
    (hnodup : entries.NodupKeys) (config : Config) (hnew : ∀ key ∈ entries.keys, key ∉ config) :
    (entries.map fun entry => cfgline pfx entry.1 entry.2).foldl (loadLine pfx modPlus) config
      = insertAll (readEntries entries) config := by
  induction entries generalizing config with
  | nil => rfl
  | cons entry entries ih =>
    obtain ⟨name, value⟩ := entry
    obtain ⟨hname, hrest⟩ := nodupKeys_cons.mp hnodup
    obtain ⟨⟨⟨hword, hne⟩, hvalue, -⟩, hwf⟩ := forall_mem_cons.mp hwf
    have hfresh : config.lookup name = none := AList.lookup_eq_none.mpr (hnew name (by simp))
    have hnew' : ∀ key ∈ entries.keys, key ∉ config.insert name (readBack value) := by
      intro key hkey hmem
      rcases (AList.mem_insert _).mp hmem with rfl | hmem
      · exact hname hkey
      · exact hnew key (by simp [hkey]) hmem
    rw [map_cons, foldl_cons, loadLine_cfgline hpfx hword hne hvalue, setConfig, hfresh]
    exact ih hwf hrest _ hnew'

theorem dlookup_readEntries (entries : List (Sigma fun _ : Text => Text)) (key : Text) :
    (readEntries entries).dlookup key = (entries.dlookup key).map readBack := by
  induction entries with
  | nil => rfl
  | cons entry entries ih =>
    obtain ⟨name, value⟩ := entry
    rw [readEntries, map_cons]
    by_cases hkey : key = name
    · subst hkey
      rw [dlookup_cons_eq, dlookup_cons_eq]
      rfl
    · rw [dlookup_cons_ne _ _ hkey, dlookup_cons_ne _ _ hkey]
      exact ih

/-- **A configuration is read back from its file**, with `#undef` for `n`. -/
theorem lookup_loadConfig_dumpConfig (hpfx : Word pfx) {config : Config}
    (hwf : WellFormed config.entries) (modPlus : Bool) (key : Text) :
    (loadConfig pfx (dumpConfig pfx config) modPlus).lookup key
      = (config.lookup key).map readBack := by
  have hperm : (sortedEntries config).Perm config.entries := perm_insertionSort _ _
  have hnodup : (sortedEntries config).NodupKeys := (perm_nodupKeys hperm).mpr config.nodupKeys
  have hwf' : WellFormed (sortedEntries config) :=
    fun entry hentry => hwf entry (hperm.mem_iff.mp hentry)
  have hlines : ∀ line ∈ (sortedEntries config).map fun entry => cfgline pfx entry.1 entry.2,
      '\n' ∉ line := by
    rintro _ hline
    obtain ⟨entry, hentry, rfl⟩ := mem_map.mp hline
    exact not_mem_cfgline hpfx (hwf' entry hentry).1.1 (hwf' entry hentry).2.2
  have hload := (foldl_linesOf hlines modPlus ∅).trans
    (foldl_loadLine hpfx modPlus hwf' hnodup ∅ (by simp))
  rw [flatMap_map] at hload
  have hread : (readEntries (sortedEntries config)).NodupKeys := by
    rw [NodupKeys, keys_readEntries]
    exact hnodup
  have hlookup : (sortedEntries config).dlookup key = config.entries.dlookup key :=
    perm_dlookup key hnodup hperm
  rw [loadConfig, dumpConfig, hload, lookup_insertAll hread, dlookup_readEntries, hlookup,
    lookup_empty, Option.or_none]
  rfl

/-! ### Patches -/

def overlay (cfg1 cfg2 : Config) (key : Text) : Option Text :=
  (cfg2.lookup key).or (cfg1.lookup key)

/-- A symbol that `>+` leaves out: it is new, and not set. -/
def NewUnset (cfg1 cfg2 : Config) (key : Text) : Prop :=
  cfg1.lookup key = none ∧ cfg2.lookup key = some undef

variable {cfg1 cfg2 : Config}

/-- Where the difference has no value, the first configuration is already right. -/
theorem overlay_of_configDiff_eq_none {newOnly : Bool} {key : Text}
    (hkeep : newOnly = true → ¬ NewUnset cfg1 cfg2 key)
    (hnone : (configDiff cfg1 cfg2 newOnly).lookup key = none) :
    overlay cfg1 cfg2 key = cfg1.lookup key := by
  unfold overlay
  cases hvalue : cfg2.lookup key with
  | none => rfl
  | some value =>
    have hsame : differs cfg1 newOnly ⟨key, value⟩ = false := by
      by_contra hdiffers
      have hsome := (lookup_configDiff cfg1 cfg2 newOnly key value).mpr
        ⟨hvalue, (Bool.not_eq_false _).mp hdiffers⟩
      rw [hnone] at hsome
      cases hsome
    unfold differs at hsame
    cases hold : cfg1.lookup key with
    | none =>
      simp only [hold, Bool.not_eq_false', Bool.and_eq_true, decide_eq_true_eq] at hsame
      exact absurd ⟨hold, hsame.2 ▸ hvalue⟩ (hkeep hsame.1)
    | some old =>
      simp only [hold, decide_not, Bool.not_eq_false', decide_eq_true_eq] at hsame
      rw [hsame]
      rfl

theorem overlay_of_configDiff_eq_some {newOnly : Bool} {key : Text}
    (hsome : (configDiff cfg1 cfg2 newOnly).lookup key = some value) :
    overlay cfg1 cfg2 key = some value := by
  rw [overlay, ((lookup_configDiff cfg1 cfg2 newOnly key value).mp hsome).1]
  rfl

theorem wellFormed_configDiff (hwf : WellFormed cfg2.entries) (newOnly : Bool) :
    WellFormed (configDiff cfg1 cfg2 newOnly).entries := by
  intro entry hentry
  have hlookup := AList.mem_lookup_iff.mpr hentry
  have hmem := ((lookup_configDiff cfg1 cfg2 newOnly entry.1 entry.2).mp hlookup).1
  exact hwf entry (AList.mem_lookup_iff.mp hmem)

/-- **Configuration diffs are patches**: laid over the first configuration they give the second
    one where it has a value; with `>+` symbols may be left out that are new and not set; and
    through a file the value `n` becomes `#undef`. -/
theorem configDiff_patch (cfg1 cfg2 : Config) :
    (∀ key, (configAdd cfg1 (configDiff cfg1 cfg2 false) false).lookup key
      = overlay cfg1 cfg2 key) ∧
    (∀ key, ¬ NewUnset cfg1 cfg2 key →
      (configAdd cfg1 (configDiff cfg1 cfg2 true) false).lookup key = overlay cfg1 cfg2 key) ∧
    (∀ pfx, Word pfx → WellFormed cfg2.entries → ∀ newOnly modPlus key,
      (newOnly = true → ¬ NewUnset cfg1 cfg2 key) →
      let file := dumpConfig pfx (configDiff cfg1 cfg2 newOnly)
      let result := (configAdd cfg1 (loadConfig pfx file modPlus) false).lookup key
      result = overlay cfg1 cfg2 key ∨
        overlay cfg1 cfg2 key = some ['n'] ∧ result = some undef) := by
  have hdirect : ∀ newOnly key, (newOnly = true → ¬ NewUnset cfg1 cfg2 key) →
      (configAdd cfg1 (configDiff cfg1 cfg2 newOnly) false).lookup key
        = overlay cfg1 cfg2 key := by
    intro newOnly key hkeep
    rw [lookup_configAdd]
    cases hdiff : (configDiff cfg1 cfg2 newOnly).lookup key with
    | none =>
      rw [overlay_of_configDiff_eq_none hkeep hdiff]
      rfl
    | some value =>
      rw [overlay_of_configDiff_eq_some hdiff]
      rfl
  refine ⟨fun key => hdirect false key fun h => absurd h (by decide),
    fun key hkeep => hdirect true key fun _ => hkeep, ?_⟩
  intro pfx hpfx hwf newOnly modPlus key hkeep file result
  have hresult : result = (((configDiff cfg1 cfg2 newOnly).lookup key).map readBack).or
      (cfg1.lookup key) := by
    rw [← lookup_loadConfig_dumpConfig hpfx (wellFormed_configDiff hwf newOnly) modPlus key]
    exact lookup_configAdd _ _ _
  rw [hresult]
  cases hdiff : (configDiff cfg1 cfg2 newOnly).lookup key with
  | none =>
    left
    rw [overlay_of_configDiff_eq_none hkeep hdiff]
    rfl
  | some value =>
    rw [overlay_of_configDiff_eq_some hdiff]
    by_cases hn : value = ['n']
    · right
      subst hn
      exact ⟨rfl, rfl⟩
    · left
      have hback : readBack value = value := if_neg hn
      rw [Option.map_some, hback]
      rfl

/-- A symbol that is set, one that is switched off and a new one, also by way of the file. -/
theorem configDiff_patch_example :
    let cfg1 := insertAll [⟨"USB".toList, "y".toList⟩, ⟨"NET".toList, "m".toList⟩] ∅
    let cfg2 := insertAll [⟨"NET".toList, "n".toList⟩, ⟨"CMD".toList, "\"a=b\"".toList⟩] ∅
    let file := dumpConfig "CONFIG_".toList (configDiff cfg1 cfg2 true)
    file = "CONFIG_CMD=\"a=b\"\n# CONFIG_NET is not set\n".toList ∧
    (configAdd cfg1 (configDiff cfg1 cfg2 true) false).lookup "NET".toList = some "n".toList ∧
    (configAdd cfg1 (loadConfig "CONFIG_".toList file false) false).lookup "CMD".toList =
      some "\"a=b\"".toList := by
  intro cfg1 cfg2 file
  obtain ⟨-, hdirect, hfile⟩ := configDiff_patch cfg1 cfg2
  refine ⟨by decide +kernel, (hdirect "NET".toList ?_).trans (by decide +kernel), ?_⟩
  · unfold NewUnset
    decide +kernel
  · have hwell : WellFormed cfg2.entries := by
      unfold WellFormed
      decide +kernel
    rcases hfile "CONFIG_".toList (by decide +kernel) hwell true false "CMD".toList
        (fun _ => by unfold NewUnset; decide +kernel) with h | ⟨h, -⟩
    · exact h.trans (by decide +kernel)
    · exact absurd h (by decide +kernel)

end Rooter.Kconfig
