import Rooter.ShellConfig

/-!
# What a line of the configuration does

Which names of variables can be the same, and what `config`, `option` and `list` do to each
variable.  The number of sections and the lengths of the lists are right after a call if they
were before, unless an option is kept in their place (`Counts.step`).
-/

namespace Rooter.ShellConfig

open List Numeral Function

/-! ### Names of variables -/

def var (q : Key) : Text := configVar q.1 q.2

def lengthVar (q : Key) : Text := configVar q.1 (lengthOption q.2)

def itemVar (q : Key) (len : Text) : Text := configVar q.1 (itemOption q.2 len)

/-- The option that is kept in `CONFIG_NUM_SECTIONS`. -/
def numKey : Key := ("NUM".toList, "SECTIONS".toList)

/-- The option that is kept in `CONFIG_LIST_STATE`. -/
def stateKey : Key := ("LIST".toList, "STATE".toList)

section Names

variable {q : Key}

theorem configVar_append (sec opt t : Text) :
    configVar sec (opt ++ t) = configVar sec opt ++ t := by
  unfold configVar
  rw [← cons_append, ← append_assoc sec, ← append_assoc]

theorem lengthVar_eq (q : Key) : lengthVar q = var q ++ "_LENGTH".toList :=
  configVar_append _ _ _

theorem itemVar_eq (q : Key) (len : Text) :
    itemVar q len = var q ++ ("_ITEM".toList ++ len) :=
  configVar_append _ _ _

theorem getLast?_lengthVar (q : Key) : (lengthVar q).getLast? = some 'H' := by
  rw [lengthVar_eq, getLast?_append]
  rfl

theorem lengthVar_ne {x : Text} (h : x.getLast? ≠ some 'H') : lengthVar q ≠ x := by
  rintro rfl
  exact h (getLast?_lengthVar q)

theorem getLast?_itemVar (q : Key) (n : Nat) :
    ∃ c, (itemVar q (decimal n)).getLast? = some c ∧ c.isDigit = true := by
  refine ⟨(decimal n).getLast (decimal_ne_nil n), ?_, ?_⟩
  · rw [itemVar_eq, getLast?_append, getLast?_append, getLast?_eq_some_getLast (decimal_ne_nil n)]
    rfl
  · exact isDigit_of_mem_decimal (getLast_mem _)

theorem lengthVar_ne_itemVar (q q' : Key) (n : Nat) : lengthVar q ≠ itemVar q' (decimal n) := by
  obtain ⟨c, hlast, hdigit⟩ := getLast?_itemVar q' n
  apply lengthVar_ne
  rw [hlast]
  rintro ⟨⟩
  exact absurd hdigit (by decide)

theorem itemVar_ne {n : Nat} {x : Text} {c : Char} (hx : x.getLast? = some c)
    (hc : c.isDigit = false) : itemVar q (decimal n) ≠ x := by
  obtain ⟨c', hlast, hdigit⟩ := getLast?_itemVar q n
  rintro rfl
  cases hx.symm.trans hlast
  exact absurd (hdigit.symm.trans hc) Bool.noConfusion

theorem var_ne_lengthVar (q : Key) : var q ≠ lengthVar q := by
  rw [lengthVar_eq]
  intro h
  exact cons_ne_nil _ _ (append_right_eq_self.mp h.symm)

theorem var_ne_itemVar (q : Key) (len : Text) : var q ≠ itemVar q len := by
  rw [itemVar_eq]
  intro h
  exact cons_ne_nil _ _ (append_right_eq_self.mp h.symm)

theorem lengthVar_inj {q' : Key} (h : lengthVar q = lengthVar q') : var q = var q' := by
  rw [lengthVar_eq, lengthVar_eq] at h
  exact append_cancel_right h

theorem eq_of_underscore {sec opt a b : Text} (ha : '_' ∉ a) (hb : '_' ∉ b)
    (h : sec ++ '_' :: opt = a ++ '_' :: b) : sec = a ∧ opt = b := by
  rcases append_eq_append_iff.mp h with ⟨m, hm, hrest⟩ | ⟨m, hm, hrest⟩
  · cases m with
    | nil =>
      rw [append_nil] at hm
      exact ⟨hm.symm, (cons.inj hrest).2⟩
    | cons c m =>
      cases (cons.inj hrest).1
      exact absurd (hm ▸ mem_append_right _ mem_cons_self) ha
  · cases m with
    | nil =>
      rw [append_nil] at hm
      exact ⟨hm, (cons.inj hrest).2.symm⟩
    | cons c m =>
      have hb' := (cons.inj hrest).2
      exact absurd (hb' ▸ mem_append_right _ mem_cons_self) hb

theorem var_eq_iff {q' : Key} (h₁ : '_' ∉ q'.1) (h₂ : '_' ∉ q'.2) : var q = var q' ↔ q = q' := by
  constructor
  · intro h
    obtain ⟨hsec, hopt⟩ := eq_of_underscore h₁ h₂ (append_cancel_left h)
    exact Prod.ext hsec hopt
  · exact congrArg var

theorem var_eq_numSections : var q = configNumSections ↔ q = numKey :=
  @var_eq_iff q numKey (by decide) (by decide)

theorem var_eq_listState : var q = configListState ↔ q = stateKey :=
  @var_eq_iff q stateKey (by decide) (by decide)

theorem var_ne_of_underscore {t : Text} (h : '_' ∉ t) :
    var q ≠ "CONFIG_".toList ++ t := by
  intro heq
  have htail : q.1 ++ '_' :: q.2 = t := append_cancel_left heq
  exact h (htail ▸ mem_append_right _ mem_cons_self)

theorem ne_numSections_of_underscore {sec opt : Text} (h : '_' ∈ opt) :
    configVar sec opt ≠ configNumSections := by
  intro heq
  cases var_eq_numSections (q := (sec, opt)).mp heq
  exact absurd h (by decide)

theorem lengthVar_ne_numSections (q : Key) : lengthVar q ≠ configNumSections :=
  ne_numSections_of_underscore (mem_append_right _ mem_cons_self)

theorem lengthVar_eq_var (q : Key) : lengthVar q = var (q.1, lengthOption q.2) :=
  rfl

theorem lengthKey_ne_numKey (q : Key) : (q.1, lengthOption q.2) ≠ numKey := fun h =>
  lengthVar_ne_numSections q (var_eq_numSections.mpr h)

theorem itemVar_ne_numSections (q : Key) (len : Text) : itemVar q len ≠ configNumSections :=
  ne_numSections_of_underscore (mem_append_right _ mem_cons_self)

theorem var_ne_section (q : Key) : var q ≠ configSection :=
  var_ne_of_underscore (by decide)

theorem var_ne_sections (q : Key) : var q ≠ configSections :=
  var_ne_of_underscore (by decide)

end Names

/-! ### What a call does -/

section Step

variable {a : Arithmetic} {env env' : Env} {p : Cursor}

theorem word_configVar {sec : Text} (hsec : sec.all wordChar = true) (opt : Text) :
    (configVar sec opt).all wordChar = opt.all wordChar := by
  unfold configVar
  rw [all_append, all_append, hsec]
  rfl

theorem word_lengthOption {opt : Text} (hopt : opt.all wordChar = true) :
    (lengthOption opt).all wordChar = true := by
  unfold lengthOption
  rw [all_append, hopt]
  rfl

theorem word_itemOption {opt : Text} (hopt : opt.all wordChar = true) (len : Text) :
    (itemOption opt len).all wordChar = len.all wordChar := by
  unfold itemOption
  rw [all_append, hopt]
  rfl

theorem word_decimal (n : Nat) : (decimal n).all wordChar = true := by
  rw [all_eq_true]
  intro c hc
  unfold wordChar Char.isAlphanum
  rw [isDigit_of_mem_decimal hc, Bool.or_true, Bool.true_or]

theorem export_of_word {name : Text} (h : name.all wordChar = true) (value : Text) :
    env.export name value = some (update env name value) :=
  if_pos h

theorem configSet_of_word {sec : Text} (hsec : sec.all wordChar = true) (opt value : Text) :
    configSet env sec opt value =
      if opt.all wordChar then some (update env (configVar sec opt) value) else none := by
  unfold configSet Env.export
  rw [word_configVar hsec]

structure Follows (env : Env) (p : Cursor) : Prop where
  count : env configNumSections = decimal p.count
  sec : env configSection = p.sec

/-- What `list` takes for the length. -/
def lengthOf (env : Env) (q : Key) : Text := orDefault (env (lengthVar q)) ['0']

def stateOf (a : Arithmetic) (env : Env) (q : Key) : Text :=
  if a.isZero (lengthOf env q) then appended (env configListState) (q.1 ++ '_' :: q.2) [' ']
  else env configListState

def setList (env : Env) (state : Text) (q : Key) (len value : Text) : Env :=
  let env := update env configListState state
  let env' := update (update env (itemVar q len) value) (lengthVar q) len
  update env' (var q) (appended (env (var q)) value listSep)

theorem run_config (hf : Follows env p) {cfgtype name : Text}
    (hname : (p.next (.config cfgtype name)).sec.all wordChar = true) :
    ∃ names, Call.run a env (.config cfgtype name) = some (update (update
      (update (update env configNumSections (decimal (p.count + 1)))
        configSections names) configSection (p.next (.config cfgtype name)).sec)
          (var ((p.next (.config cfgtype name)).sec, typeOption)) cfgtype) := by
  refine ⟨appended (update env configNumSections (decimal (p.count + 1)) configSections)
    (p.next (.config cfgtype name)).sec [' '], ?_⟩
  have hnum : configNumSections.all wordChar = true := by decide
  have hsections : configSections.all wordChar = true := by decide
  have hsection : configSection.all wordChar = true := by decide
  change config a env cfgtype name = _
  unfold config append
  simp only [hf.count, a.plusOne_decimal, Option.bind_eq_bind, Option.bind_some,
    export_of_word hnum, export_of_word hsections, export_of_word hsection]
  exact (configSet_of_word hname _ _).trans (if_pos rfl)

theorem run_option (hf : Follows env p) (hsec : p.sec.all wordChar = true) {varname : Text}
    (hname : varname.all wordChar = true) (args : List Text) :
    Call.run a env (.option varname args) =
      some (update env (var (p.sec, varname)) (star args)) := by
  change option env varname args = _
  unfold option
  rw [hf.sec, configSet_of_word hsec, if_pos hname]
  rfl

theorem run_list (hf : Follows env p) (hsec : p.sec.all wordChar = true) {varname : Text}
    (hname : varname.all wordChar = true) (args : List Text) :
    Call.run a env (.list varname args) =
      (a.plusOne (lengthOf env (p.sec, varname))).bind fun len =>
        if len.all wordChar then
          some (setList env (stateOf a env (p.sec, varname)) (p.sec, varname) len (star args))
        else none := by
  have hget : configGet env ['l', 'e', 'n'] p.sec (lengthOption varname) ['0'] =
      .assigned (lengthOf env (p.sec, varname)) := by
    have hne : lengthOption varname ≠ [] := fun h => cons_ne_nil _ _ (append_eq_nil_iff.mp h).2
    rw [configGet, orDefault, if_neg hne, if_neg hne, all_append, hsec, word_lengthOption hname]
    rfl
  have hstate : appendListState a env (lengthOf env (p.sec, varname)) (p.sec ++ '_' :: varname) =
      some (update env configListState (stateOf a env (p.sec, varname))) := by
    unfold appendListState stateOf
    split
    · exact export_of_word (by decide) _
    · rw [update_eq_self]
  change list a env varname args = _
  unfold list
  simp only [hf.sec, hget, Got.value?, Option.bind_eq_bind, Option.bind_some, hstate]
  refine congrArg _ (funext fun len => ?_)
  rw [configSet_of_word hsec, word_itemOption hname]
  split
  next =>
    have hold : update (update (update env configListState
        (stateOf a env (p.sec, varname))) (itemVar (p.sec, varname) len) (star args))
        (lengthVar (p.sec, varname)) len (var (p.sec, varname)) =
          update env configListState (stateOf a env (p.sec, varname))
            (var (p.sec, varname)) := by
      rw [update_of_ne (var_ne_lengthVar _), update_of_ne (var_ne_itemVar _ _)]
    rw [Option.bind_some, configSet_of_word hsec, if_pos (word_lengthOption hname)]
    unfold setList
    dsimp only
    rw [← hold]
    exact export_of_word ((word_configVar hsec _).trans hname) _
  next => rfl

/-! #### The variables after `list` -/

section SetList

variable {state value len : Text} {q : Key}

theorem setList_var : setList env state q len value (var q) =
    appended (update env configListState state (var q)) value listSep :=
  update_self _ _ _

theorem setList_length : setList env state q len value (lengthVar q) = len := by
  unfold setList
  rw [update_of_ne (var_ne_lengthVar q).symm, update_self]

theorem setList_item (n : Nat) :
    setList env state q (decimal n) value (itemVar q (decimal n)) = value := by
  unfold setList
  rw [update_of_ne (var_ne_itemVar q _).symm,
    update_of_ne (lengthVar_ne_itemVar q q n).symm, update_self]

/-- An empty value leaves the variable of the list as it is, also if it is this one. -/
theorem setList_listState (n : Nat) :
    setList env state q (decimal n) [] configListState = state := by
  have hlength : configListState ≠ lengthVar q := (lengthVar_ne (by decide)).symm
  have hitem : configListState ≠ itemVar q (decimal n) := (itemVar_ne rfl (by decide)).symm
  unfold setList
  by_cases hvar : configListState = var q
  · rw [← hvar, update_self, update_self, appended_nil]
  · rw [update_of_ne hvar, update_of_ne hlength, update_of_ne hitem, update_self]

theorem setList_of_ne {x : Text} (hstate : x ≠ configListState) (hitem : x ≠ itemVar q len)
    (hlength : x ≠ lengthVar q) (hvar : x ≠ var q) : setList env state q len value x = env x := by
  unfold setList
  rw [update_of_ne hvar, update_of_ne hlength, update_of_ne hitem, update_of_ne hstate]

end SetList

/-! #### The number of sections, and the lengths of the lists -/

def Call.Valid : Call → Prop
  | .config _ name => name.all wordChar = true
  | .option varname _ => varname ≠ [] ∧ varname.all wordChar = true
  | .list varname _ => varname ≠ [] ∧ varname.all wordChar = true

instance : DecidablePred Call.Valid
  | .config _ name => inferInstanceAs (Decidable (name.all wordChar = true))
  | .option varname _ => inferInstanceAs (Decidable (varname ≠ [] ∧ varname.all wordChar = true))
  | .list varname _ => inferInstanceAs (Decidable (varname ≠ [] ∧ varname.all wordChar = true))

def lengthText (n : Nat) : Text := if n = 0 then [] else decimal n

structure Counts (lists : List Key) (env : Env) (p : Cursor) (defs : List Definition) :
    Prop where
  follows : Follows env p
  word : p.sec.all wordChar = true
  lengths : ∀ l ∈ lists, env (lengthVar l) = lengthText ((listed defs).count l)

theorem Counts.lengthOf {lists : List Key} {defs : List Definition} {l : Key}
    (h : Counts lists env p defs) (hl : l ∈ lists) :
    lengthOf env l = decimal ((listed defs).count l) := by
  unfold ShellConfig.lengthOf
  rw [h.lengths l hl]
  unfold lengthText
  split
  next hzero =>
    rw [hzero]
    rfl
  next => exact if_neg (decimal_ne_nil _)

theorem word_next {c : Call} (hword : p.sec.all wordChar = true) (hc : c.Valid) :
    (p.next c).sec.all wordChar = true := by
  cases c with
  | config cfgtype name =>
    unfold Cursor.next
    dsimp only
    split
    · rw [all_append, word_decimal]
      rfl
    · exact hc
  | option varname args => exact hword
  | list varname args => exact hword

theorem Follows.step {c : Call} (hf : Follows env p) (hword : p.sec.all wordChar = true)
    (hc : c.Valid) (hkey : (c.definition (p.next c).sec).key ≠ numKey)
    (h : c.run a env = some env') : Follows env' (p.next c) := by
  have hnum : configNumSections ≠ var (c.definition (p.next c).sec).key := fun heq =>
    hkey (var_eq_numSections.mp heq.symm)
  cases c with
  | config cfgtype name =>
    obtain ⟨names, hrun⟩ := run_config hf (word_next hword hc)
    cases hrun.symm.trans h
    change configNumSections ≠ var (_, typeOption) at hnum
    constructor
    · rw [update_of_ne hnum, update_of_ne (by decide), update_of_ne (by decide)]
      rfl
    · rw [update_of_ne (var_ne_section _).symm, update_self]
  | option varname args =>
    cases (run_option hf hword hc.2 args).symm.trans h
    change configNumSections ≠ var (p.sec, varname) at hnum
    constructor
    · rw [update_of_ne hnum]
      exact hf.count
    · rw [update_of_ne (var_ne_section _).symm]
      exact hf.sec
  | list varname args =>
    change configNumSections ≠ var (p.sec, varname) at hnum
    rw [run_list hf hword hc.2] at h
    obtain ⟨len, -, hset⟩ := Option.bind_eq_some_iff.mp h
    split at hset
    · cases hset
      constructor
      · rw [setList_of_ne (by decide) (itemVar_ne_numSections _ _).symm
          (lengthVar_ne_numSections _).symm hnum]
        exact hf.count
      · rw [setList_of_ne (by decide) (var_ne_section (_, itemOption _ _)).symm
          (var_ne_section (_, lengthOption _)).symm (var_ne_section _).symm]
        exact hf.sec
    · cases hset

theorem run_of_not_list {c : Call} (hf : Follows env p) (hword : p.sec.all wordChar = true)
    (hc : c.Valid) (hlist : (c.definition (p.next c).sec).isList = false)
    (h : c.run a env = some env') {q : Key} (hq : q ≠ numKey) :
    env' (var q) = if var q = var (c.definition (p.next c).sec).key then
      (c.definition (p.next c).sec).value else env (var q) := by
  cases c with
  | config cfgtype name =>
    obtain ⟨names, hrun⟩ := run_config hf (word_next hword hc)
    cases hrun.symm.trans h
    rw [update_apply, update_of_ne (var_ne_section q), update_of_ne (var_ne_sections q),
      update_of_ne (mt var_eq_numSections.mp hq)]
    rfl
  | option varname args =>
    cases (run_option hf hword hc.2 args).symm.trans h
    rw [update_apply]
    rfl
  | list varname args => cases hlist

section Lists

variable {lists : List Key} {defs : List Definition} {c : Call}

theorem listed_concat (d : Definition) :
    listed (defs ++ [d]) = if d.isList then listed defs ++ [d.key] else listed defs := by
  rw [listed_append]
  unfold listed
  cases hd : d.isList with
  | false =>
    rw [filter_cons_of_neg (Bool.eq_false_iff.mp hd)]
    exact append_nil _
  | true =>
    rw [filter_cons_of_pos hd]
    rfl

variable (hcounts : Counts lists env p defs) (hc : c.Valid)

include hcounts hc

theorem Counts.exists_run (hlist : (c.definition (p.next c).sec).isList = true →
      (c.definition (p.next c).sec).key ∈ lists) : ∃ env', c.run a env = some env' := by
  have hf := hcounts.follows
  have hword := hcounts.word
  cases c with
  | config cfgtype name =>
    obtain ⟨names, hrun⟩ := run_config hf (word_next hword hc)
    exact ⟨_, hrun⟩
  | option varname args => exact ⟨_, run_option hf hword hc.2 args⟩
  | list varname args =>
    have hmem : (p.sec, varname) ∈ lists := hlist rfl
    rw [run_list hf hword hc.2, hcounts.lengthOf hmem, a.plusOne_decimal, Option.bind_some,
      if_pos (word_decimal _)]
    exact ⟨_, rfl⟩

theorem Counts.run_list (hlist : (c.definition (p.next c).sec).isList = true)
    (hmem : (c.definition (p.next c).sec).key ∈ lists) (h : c.run a env = some env') :
    env' = setList env (stateOf a env (c.definition (p.next c).sec).key)
      (c.definition (p.next c).sec).key
      (decimal ((listed defs).count (c.definition (p.next c).sec).key + 1))
      (c.definition (p.next c).sec).value := by
  cases c with
  | config cfgtype name => cases hlist
  | option varname args => cases hlist
  | list varname args =>
    change (p.sec, varname) ∈ lists at hmem
    rw [ShellConfig.run_list hcounts.follows hcounts.word hc.2, hcounts.lengthOf hmem,
      a.plusOne_decimal, Option.bind_some, if_pos (word_decimal _)] at h
    exact Option.some.inj h.symm

/-- A call keeps the lengths, if it does not define a variable with a length. -/
theorem Counts.step (hkey : (c.definition (p.next c).sec).key ≠ numKey)
    (hlength : ∀ l ∈ lists, var (c.definition (p.next c).sec).key ≠ lengthVar l)
    (hlist : (c.definition (p.next c).sec).isList = true →
      (c.definition (p.next c).sec).key ∈ lists ∧
        ∀ l ∈ lists, var (c.definition (p.next c).sec).key = var l →
          (c.definition (p.next c).sec).key = l) (h : c.run a env = some env') :
    Counts lists env' (p.next c) (defs ++ [c.definition (p.next c).sec]) := by
  have hf := hcounts.follows
  have hword := hcounts.word
  refine ⟨hf.step hword hc hkey h, word_next hword hc, fun l hl => ?_⟩
  rw [listed_concat]
  cases hd : (c.definition (p.next c).sec).isList with
  | false =>
    rw [lengthVar_eq_var, run_of_not_list hf hword hc hd h (lengthKey_ne_numKey l),
      ← lengthVar_eq_var, if_neg (hlength l hl).symm]
    exact hcounts.lengths l hl
  | true =>
    obtain ⟨hmem, hinj⟩ := hlist hd
    rw [hcounts.run_list hc hd hmem h, if_pos rfl, count_append, count_singleton]
    by_cases heq : (c.definition (p.next c).sec).key = l
    · rw [heq, setList_length, if_pos (beq_self_eq_true l)]
      exact (if_neg (by omega)).symm
    · rw [if_neg fun hl' => heq (eq_of_beq hl'), setList_of_ne (lengthVar_ne (by decide))
        (lengthVar_ne_itemVar _ _ _) (fun hl' => heq (hinj l hl (lengthVar_inj hl').symm))
        (hlength l hl).symm]
      exact hcounts.lengths l hl

end Lists

end Step

end Rooter.ShellConfig
