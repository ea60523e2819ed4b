import Rooter.ShellConfigStep

/-!
# What `config_get` returns

Two names with an underscore between them can be read in more than one way, and a list has
variables of its own that may be those of another option.  The results are about the names for
which the configuration is nevertheless kept exactly, whatever the values are.
-/

namespace Rooter.ShellConfig

open List Numeral

/-! ### Names that do not get in each other's way -/

/-- The options that are given a value or `asked` for have variables that are not those of other
    options, nor those the functions read. -/
structure Distinct (asked : List Key) (defs : List Definition) : Prop where
  apart : ∀ p ∈ given defs, ∀ q ∈ asked ++ given defs, var p = var q → p = q
  count : numKey ∉ asked ++ given defs
  length : ∀ l ∈ listed defs, ∀ q ∈ asked ++ given defs, var q ≠ lengthVar l

structure Separate (asked : List Key) (defs : List Definition) : Prop
    extends Distinct asked defs where
  item : ∀ l ∈ listed defs, ∀ n < (listed defs).count l, ∀ q ∈ asked ++ given defs,
    var q ≠ itemVar l (decimal (n + 1))
  state : listed defs ≠ [] → stateKey ∉ asked ++ given defs

/-- The value that was given to exactly this section and option. -/
def valueAfter (front : List Call) (q : Key) (default : Text) : Text :=
  orDefault (joined (valuesOf q (definitions .start front))) default

abbrev keys (asked : List Key) (calls : List Call) : List Key :=
  asked ++ given (definitions .start calls)

/-- At every point of the calls, `config_get` assigns the value that was given. -/
def Exact (a : Arithmetic) (asked : List Key) (calls : List Call) : Prop :=
  ∀ front rest, calls = front ++ rest → ∃ env, run a start front = some env ∧
    ∀ q ∈ keys asked calls, ∀ name default,
      configGet env name q.1 q.2 default = .assigned (valueAfter front q default)

/-- At every point of the calls, `config_get` without a variable prints the value. -/
def Prints (a : Arithmetic) (asked : List Key) (calls : List Call) (default : Text) : Prop :=
  ∀ n ≤ calls.length, ∃ env, run a start (calls.take n) = some env ∧
    ∀ q ∈ keys asked calls,
      configGet env q.1 q.2 [] default = .printed (valueAfter (calls.take n) q default ++ ['\n'])

section Sufficient

variable {a : Arithmetic} {env env' : Env} {p : Cursor} {asked : List Key}
  {all defs more : List Definition} {c : Call}

theorem mem_given_of_eq {d : Definition} (hall : all = defs ++ d :: more) : d.key ∈ given all := by
  rw [hall, given_append]
  exact mem_append_right _ mem_cons_self

theorem listed_of_eq {d : Definition} (hall : all = defs ++ d :: more) (hd : d.isList = true) :
    listed all = listed defs ++ d.key :: listed more := by
  rw [hall, listed_append]
  unfold listed
  rw [filter_cons_of_pos hd]
  rfl

theorem Distinct.counts_step (hsep : Distinct asked all)
    (hall : all = defs ++ c.definition (p.next c).sec :: more)
    (hcounts : Counts (listed all) env p defs) (hc : c.Valid) (h : c.run a env = some env') :
    Counts (listed all) env' (p.next c) (defs ++ [c.definition (p.next c).sec]) := by
  have hgiven := mem_given_of_eq hall
  have hkeys := mem_append_right asked hgiven
  refine hcounts.step hc (fun hnum => hsep.count (hnum ▸ hkeys))
    (fun l hl => hsep.length l hl _ hkeys) (fun hd => ⟨?_, fun l hl => ?_⟩) h
  · rw [listed_of_eq hall hd]
    exact mem_append_right _ mem_cons_self
  · exact hsep.apart _ hgiven l (mem_append_right _ (mem_given_of_mem_listed hl))

variable (defs) in
theorem Distinct.counts_run (hsep : Distinct asked all) {calls : List Call}
    (hcalls : ∀ c ∈ calls, c.Valid) (hall : all = defs ++ (definitions p calls ++ more))
    (hcounts : Counts (listed all) env p defs) (h : run a env calls = some env') :
    Counts (listed all) env' (p.after calls) (defs ++ definitions p calls) := by
  induction calls generalizing env p defs with
  | nil =>
    cases h
    rw [show definitions p [] = [] from rfl, append_nil]
    exact hcounts
  | cons c calls ih =>
    obtain ⟨env₁, hrun, hrest⟩ := Option.bind_eq_some_iff.mp h
    have hall' : all = defs ++ c.definition (p.next c).sec ::
      (definitions (p.next c) calls ++ more) := hall
    have hc := hcalls c mem_cons_self
    have hstep := ih _ (fun c' hc' => hcalls c' (mem_cons_of_mem _ hc'))
      (hall'.trans (append_cons _ _ _)) (hsep.counts_step hall' hcounts hc hrun) hrest
    rw [← append_cons] at hstep
    exact hstep

theorem Separate.values_step (hsep : Separate asked all)
    (hall : all = defs ++ c.definition (p.next c).sec :: more)
    (hcounts : Counts (listed all) env p defs) (hc : c.Valid)
    (hvalues : ∀ q ∈ asked ++ given all, env (var q) = joined (valuesOf q defs))
    (h : c.run a env = some env') {q : Key} (hq : q ∈ asked ++ given all) :
    env' (var q) = joined (valuesOf q (defs ++ [c.definition (p.next c).sec])) := by
  have hapart := hsep.apart _ (mem_given_of_eq hall) q hq
  rw [valuesOf_concat]
  cases hd : (c.definition (p.next c).sec).isList with
  | false =>
    rw [run_of_not_list hcounts.follows hcounts.word hc hd h fun hnum => hsep.count (hnum ▸ hq)]
    by_cases heq : (c.definition (p.next c).sec).key = q
    · rw [if_pos heq, if_pos (congrArg var heq.symm)]
      exact (joined_singleton _).symm
    · rw [if_neg heq, if_neg fun hvar => heq (hapart hvar.symm)]
      exact hvalues q hq
  | true =>
    have hlisted := listed_of_eq hall hd
    have hmem : (c.definition (p.next c).sec).key ∈ listed all := by
      rw [hlisted]
      exact mem_append_right _ mem_cons_self
    have hstate : var q ≠ configListState := fun hvar =>
      hsep.state (ne_nil_of_mem hmem) (var_eq_listState.mp hvar ▸ hq)
    rw [hcounts.run_list hc hd hmem h]
    by_cases heq : (c.definition (p.next c).sec).key = q
    · rw [if_pos heq, heq, setList_var, Function.update_of_ne hstate, hvalues q hq]
      exact (joined_concat _ _).symm
    · have hcount : (listed defs).count (c.definition (p.next c).sec).key <
          (listed all).count (c.definition (p.next c).sec).key := by
        rw [hlisted, count_append, count_cons_self]
        omega
      rw [if_neg heq, setList_of_ne hstate (hsep.item _ hmem _ hcount q hq)
        (hsep.length _ hmem q hq) fun hvar => heq (hapart hvar.symm)]
      exact hvalues q hq

variable (defs) in
theorem Separate.exists_run (hsep : Separate asked all) {calls : List Call}
    (hcalls : ∀ c ∈ calls, c.Valid) (hall : all = defs ++ (definitions p calls ++ more))
    (hcounts : Counts (listed all) env p defs)
    (hvalues : ∀ q ∈ asked ++ given all, env (var q) = joined (valuesOf q defs)) :
    ∃ env', run a env calls = some env' ∧ ∀ q ∈ asked ++ given all,
      env' (var q) = joined (valuesOf q (defs ++ definitions p calls)) := by
  induction calls generalizing env p defs with
  | nil =>
    refine ⟨env, rfl, fun q hq => ?_⟩
    rw [hvalues q hq, show definitions p [] = [] from rfl, append_nil]
  | cons c calls ih =>
    have hc := hcalls c mem_cons_self
    have hall' : all = defs ++ c.definition (p.next c).sec ::
      (definitions (p.next c) calls ++ more) := hall
    obtain ⟨env₁, hrun⟩ := hcounts.exists_run (a := a) hc fun hd => by
      rw [listed_of_eq hall' hd]
      exact mem_append_right _ mem_cons_self
    obtain ⟨env', hrest, hvalues'⟩ := ih _ (fun c' hc' => hcalls c' (mem_cons_of_mem _ hc'))
      (hall'.trans (append_cons _ _ _)) (hsep.counts_step hall' hcounts hc hrun)
      (fun q hq => hsep.values_step hall' hcounts hc hvalues hrun hq)
    refine ⟨env', ?_, fun q hq => ?_⟩
    · unfold run
      rw [foldlM_cons, hrun]
      exact hrest
    · rw [hvalues' q hq, ← append_cons]
      rfl

theorem follows_start : Follows start .start := ⟨by decide, by decide⟩

theorem counts_start (lists : List Key) : Counts lists start .start [] := by
  refine ⟨follows_start, rfl, fun l _ => ?_⟩
  exact Function.update_of_ne (lengthVar_ne_numSections l) _ _

/-! #### Looking up a value -/

def ValidKey (q : Key) : Prop :=
  q.2 ≠ [] ∧ q.1.all wordChar = true ∧ q.2.all wordChar = true

variable {calls : List Call}

theorem configGet_of_valid {q : Key} (hq : ValidKey q) (name default : Text) :
    configGet env name q.1 q.2 default = .assigned (orDefault (env (var q)) default) := by
  rw [configGet, orDefault, if_neg hq.1, if_neg hq.1, all_append, hq.2.1, hq.2.2]
  rfl

theorem configGet_nil {q : Key} (hq : ValidKey q) (default : Text) :
    configGet env q.1 q.2 [] default = .printed (echo (orDefault (env (var q)) default)) := by
  rw [configGet, orDefault, if_pos rfl, if_pos rfl, all_append, hq.2.1, hq.2.2]
  rfl

theorem echo_eq_iff (t : Text) : echo t = t ++ ['\n'] ↔ isEchoOption t = false := by
  unfold echo
  cases hoption : isEchoOption t with
  | false => simp
  | true =>
    have hne : t ≠ [] := fun hnil => by
      rw [hnil] at hoption
      cases hoption
    rw [if_pos rfl]
    split <;> simp [hne]

theorem orDefault_nil (t : Text) : orDefault t [] = t := by
  unfold orDefault
  split
  next h => exact h.symm
  next => rfl

theorem validKey_definition (hword : p.sec.all wordChar = true) (hc : c.Valid) :
    ValidKey (c.definition (p.next c).sec).key := by
  have hnext := word_next hword hc
  cases c with
  | config cfgtype name => exact ⟨cons_ne_nil _ _, hnext, rfl⟩
  | option varname args => exact ⟨hc.1, hnext, hc.2⟩
  | list varname args => exact ⟨hc.1, hnext, hc.2⟩

theorem validKey_of_mem_given (hcalls : ∀ c ∈ calls, c.Valid) (hword : p.sec.all wordChar = true)
    {q : Key} (hq : q ∈ given (definitions p calls)) : ValidKey q := by
  induction calls generalizing p with
  | nil => exact absurd hq not_mem_nil
  | cons c calls ih =>
    have hc := hcalls c mem_cons_self
    rcases mem_cons.mp hq with heq | hmem
    · rw [heq]
      exact validKey_definition hword hc
    · exact ih (fun c' hc' => hcalls c' (mem_cons_of_mem _ hc')) (word_next hword hc) hmem

theorem validKey_of_mem (hcalls : ∀ c ∈ calls, c.Valid) (hasked : ∀ q ∈ asked, ValidKey q) {q : Key}
    (hq : q ∈ keys asked calls) : ValidKey q := by
  rcases mem_append.mp hq with hmem | hmem
  · exact hasked q hmem
  · exact validKey_of_mem_given hcalls rfl hmem

theorem Separate.exact (hsep : Separate asked (definitions .start calls))
    (hcalls : ∀ c ∈ calls, c.Valid) (hasked : ∀ q ∈ asked, ValidKey q) : Exact a asked calls := by
  rintro front rest rfl
  have hfront : ∀ c ∈ front, c.Valid := fun c hc => hcalls c (mem_append_left _ hc)
  obtain ⟨env, hrun, hvalues⟩ := hsep.exists_run [] hfront definitions_append
    (counts_start _) fun q hq => Function.update_of_ne
      (fun hvar => hsep.count (var_eq_numSections.mp hvar ▸ hq)) _ _
  refine ⟨env, hrun, fun q hq name default => ?_⟩
  rw [configGet_of_valid (validKey_of_mem hcalls hasked hq), hvalues q hq, nil_append]
  rfl

/-- What is printed is what is assigned, if `echo` does not take it for options. -/
theorem Exact.prints_iff (h : Exact a asked calls) (hcalls : ∀ c ∈ calls, c.Valid)
    (hasked : ∀ q ∈ asked, ValidKey q) (default : Text) :
    Prints a asked calls default ↔ ∀ n ≤ calls.length, ∀ q ∈ keys asked calls,
      isEchoOption (valueAfter (calls.take n) q default) = false := by
  refine forall₂_congr fun n _ => ?_
  obtain ⟨env, hrun, hvalues⟩ := h _ _ (take_append_drop n calls).symm
  simp only [hrun, Option.some.injEq, exists_eq_left']
  refine forall₂_congr fun q hq => ?_
  have hvalid := validKey_of_mem hcalls hasked hq
  have hvalue := hvalues q hq [] default
  rw [configGet_of_valid hvalid] at hvalue
  rw [configGet_nil hvalid, Got.assigned.inj hvalue, Got.printed.injEq, echo_eq_iff]

end Sufficient

/-! #### The same calls with other values -/

def Definition.withValue (v : Text) (d : Definition) : Definition := { d with value := v }

def Call.withValue (v : Text) : Call → Call
  | .config _ name => .config v name
  | .option varname _ => .option varname [v]
  | .list varname _ => .list varname [v]

def SameNames (calls calls' : List Call) : Prop :=
  calls.map (Call.withValue []) = calls'.map (Call.withValue [])

section SameNames

variable {p : Cursor} {c : Call} {calls calls' : List Call}

theorem definition_withValue (sec v : Text) :
    (c.withValue v).definition sec = (c.definition sec).withValue v := by
  cases c with
  | config cfgtype name => rfl
  | option varname args => exact congrArg _ intercalate_singleton
  | list varname args => exact congrArg _ intercalate_singleton

theorem next_withValue (v : Text) : p.next (c.withValue v) = p.next c := by
  cases c <;> rfl

theorem valid_withValue (v : Text) : (c.withValue v).Valid ↔ c.Valid := by
  cases c <;> rfl

theorem definitions_withValue (v : Text) : definitions p (calls.map (Call.withValue v)) =
    (definitions p calls).map (Definition.withValue v) := by
  induction calls generalizing p with
  | nil => rfl
  | cons c calls ih =>
    rw [map_cons, definitions, definitions, next_withValue, definition_withValue, ih, map_cons]

theorem given_withValue (defs : List Definition) (v : Text) :
    given (defs.map (Definition.withValue v)) = given defs := by
  unfold given
  rw [map_map]
  rfl

theorem listed_withValue (defs : List Definition) (v : Text) :
    listed (defs.map (Definition.withValue v)) = listed defs := by
  unfold listed
  rw [filter_map, map_map]
  rfl

section

variable (h : SameNames calls calls')

include h

theorem SameNames.given : given (definitions p calls) = given (definitions p calls') := by
  rw [← given_withValue (definitions p calls) [], ← definitions_withValue, h,
    definitions_withValue, given_withValue]

theorem SameNames.listed : listed (definitions p calls) = listed (definitions p calls') := by
  rw [← listed_withValue (definitions p calls) [], ← definitions_withValue, h,
    definitions_withValue, listed_withValue]

theorem SameNames.valid (hcalls : ∀ c ∈ calls', c.Valid) : ∀ c ∈ calls, c.Valid := by
  intro c hc
  have hmem : c.withValue [] ∈ calls'.map (Call.withValue []) := h ▸ mem_map_of_mem hc
  obtain ⟨c', hc', heq⟩ := mem_map.mp hmem
  rw [← valid_withValue [], ← heq, valid_withValue]
  exact hcalls c' hc'

theorem SameNames.separate {asked : List Key} (hsep : Separate asked (definitions p calls')) :
    Separate asked (definitions p calls) := by
  obtain ⟨⟨hapart, hcount, hlength⟩, hitem, hstate⟩ := hsep
  rw [← h.given] at hapart hlength hitem hcount hstate
  rw [← h.listed] at hlength hitem hstate
  exact ⟨⟨hapart, hcount, hlength⟩, hitem, hstate⟩

end

theorem sameNames_withValue (front rest : List Call) (v : Text) :
    SameNames (front ++ c.withValue v :: rest) (front ++ c :: rest) := by
  unfold SameNames
  rw [map_append, map_append]
  refine congrArg (fun x => _ ++ x :: _) ?_
  cases c <;> rfl

end SameNames

section Necessary

variable {a : Arithmetic} {asked : List Key} {calls : List Call}

theorem Follows.run {env env' : Env} {p : Cursor} (hf : Follows env p)
    (hword : p.sec.all wordChar = true) (hcalls : ∀ c ∈ calls, c.Valid)
    (hnum : numKey ∉ given (definitions p calls)) (h : run a env calls = some env') :
    Follows env' (p.after calls) ∧ (p.after calls).sec.all wordChar = true := by
  induction calls generalizing env p with
  | nil =>
    cases h
    exact ⟨hf, hword⟩
  | cons c calls ih =>
    obtain ⟨env₁, hrun, hrest⟩ := Option.bind_eq_some_iff.mp h
    have hc := hcalls c mem_cons_self
    refine ih (hf.step hword hc (fun hkey => hnum ?_) hrun) (word_next hword hc)
      (fun c' hc' => hcalls c' (mem_cons_of_mem _ hc'))
      (fun hmem => hnum (mem_cons_of_mem _ hmem)) hrest
    rw [← hkey]
    exact mem_cons_self

theorem exists_list_call {p : Cursor} {l : Key} {n : Nat}
    (h : n < (listed (definitions p calls)).count l) :
    ∃ front c rest d, calls = front ++ c :: rest ∧
      d = c.definition ((p.after front).next c).sec ∧ d.isList = true ∧ d.key = l ∧
        (listed (definitions p front)).count l = n := by
  induction calls generalizing p n with
  | nil => exact absurd h (Nat.not_lt_zero n)
  | cons c calls ih =>
    have hcons : ∀ calls, listed (definitions p (c :: calls)) =
        listed [c.definition (p.next c).sec] ++ listed (definitions (p.next c) calls) :=
      fun calls => listed_append [c.definition (p.next c).sec] (definitions (p.next c) calls)
    rw [hcons, count_append] at h
    by_cases hn : n < (listed [c.definition (p.next c).sec]).count l
    · have hmem := count_pos_iff.mp (Nat.lt_of_le_of_lt (Nat.zero_le n) hn)
      obtain ⟨d, hd, hkey⟩ := mem_map.mp hmem
      obtain ⟨hdmem, hlist⟩ := mem_filter.mp hd
      have hle : (listed [c.definition (p.next c).sec]).count l ≤ 1 := by
        refine Nat.le_trans count_le_length ?_
        unfold listed
        rw [length_map]
        exact length_filter_le _ _
      refine ⟨[], c, calls, d, rfl, mem_singleton.mp hdmem, hlist, hkey, ?_⟩
      exact (Nat.lt_one_iff.mp (Nat.lt_of_lt_of_le hn hle)).symm
    · obtain ⟨front, c', rest, d, rfl, hd, hlist, hkey, hcount⟩ :=
        ih (p := p.next c) (n := n - (listed [c.definition (p.next c).sec]).count l) (by omega)
      refine ⟨c :: front, c', rest, d, rfl, hd, hlist, hkey, ?_⟩
      rw [hcons, count_append]
      omega

section Conditions

variable (hcalls : ∀ c ∈ calls, c.Valid) (hasked : ∀ q ∈ asked, ValidKey q)
  (hall : ∀ calls', SameNames calls' calls → Exact a asked calls')
include hcalls hasked hall

theorem exists_step {front rest : List Call} {c : Call} {d : Definition}
    (heq : calls = front ++ c :: rest)
    (hd : d = c.definition ((Cursor.start.after front).next c).sec) (v : Text) :
    ∃ env env', run a start front = some env ∧ (c.withValue v).run a env = some env' ∧
      (∀ q ∈ keys asked calls, env (var q) = joined (valuesOf q (definitions .start front))) ∧
      ∀ q ∈ keys asked calls,
        env' (var q) = joined (valuesOf q (definitions .start front ++ [d.withValue v])) := by
  have hsame : SameNames (front ++ c.withValue v :: rest) calls := heq ▸ sameNames_withValue _ _ v
  have hexact := hall _ hsame
  unfold Exact keys at hexact
  rw [hsame.given] at hexact
  have hget : ∀ {env : Env} {q : Key} {t : Text}, q ∈ keys asked calls →
      configGet env [] q.1 q.2 [] = .assigned (orDefault t []) → env (var q) = t := by
    intro env q t hq hget
    rw [configGet_of_valid (validKey_of_mem hcalls hasked hq), orDefault_nil, orDefault_nil] at hget
    exact Got.assigned.inj hget
  obtain ⟨env, hrun, hvalues⟩ := hexact front _ rfl
  obtain ⟨env', hrun', hvalues'⟩ := hexact (front ++ [c.withValue v]) rest (append_cons _ _ _)
  have hstep : (c.withValue v).run a env = some env' := by
    unfold run at hrun hrun'
    rw [foldlM_append, hrun] at hrun'
    exact (bind_pure _).symm.trans hrun'
  refine ⟨env, env', hrun, hstep, fun q hq => hget hq (hvalues q hq [] []), fun q hq => ?_⟩
  have hvalue := hget hq (hvalues' q hq [] [])
  rw [definitions_append, definitions, next_withValue, definition_withValue, ← hd] at hvalue
  exact hvalue

/-- The other option would have the value too, and it is longer than what it has. -/
theorem apart_of_exact {p q : Key} (hp : p ∈ given (definitions .start calls))
    (hq : q ∈ keys asked calls) (hvar : var p = var q) : p = q := by
  obtain ⟨d, hmem, rfl⟩ := mem_map.mp hp
  obtain ⟨front, c, rest, heq, hd⟩ := exists_of_mem_definitions hmem
  by_contra hne
  obtain ⟨-, env', -, -, -, hvalues⟩ := exists_step hcalls hasked hall heq hd
    ('x' :: joined (valuesOf q (definitions .start front)))
  have hle := length_le_joined (definitions .start front)
    (d.withValue ('x' :: joined (valuesOf q (definitions .start front))))
  have hsame := (hvalues _ (mem_append_right _ hp)).symm.trans
    ((congrArg env' hvar).trans (hvalues q hq))
  have hother : ∀ v, (d.withValue v).key ≠ q := fun _ => hne
  rw [valuesOf_concat_of_ne (hother _)] at hsame
  exact absurd (hsame ▸ hle) (Nat.not_succ_le_self _)

omit hcalls hasked in
theorem count_of_exact : numKey ∉ keys asked calls := by
  intro hmem
  obtain ⟨env, hrun, hvalues⟩ := hall calls rfl [] calls rfl
  cases hrun
  have hget := hvalues numKey hmem [] []
  exact absurd hget (by decide)

theorem length_of_exact {l q : Key} (hl : l ∈ listed (definitions .start calls))
    (hq : q ∈ keys asked calls) : var q ≠ lengthVar l := by
  intro hvar
  obtain ⟨front, c, rest, d, heq, hd, hlist, hkey, -⟩ :=
    exists_list_call (count_pos_iff.mpr hl)
  obtain ⟨env, env', hrun, hstep, hbefore, hafter⟩ := exists_step hcalls hasked hall heq hd []
  have hnum : numKey ∉ given (definitions .start front) := fun hmem => by
    refine count_of_exact hall (mem_append_right _ ?_)
    rw [heq, definitions_append, given_append]
    exact mem_append_left _ hmem
  have hfront : ∀ c ∈ front, c.Valid := fun c hc => hcalls c (heq ▸ mem_append_left _ hc)
  have hc : c.Valid := hcalls c (heq ▸ mem_append_right _ mem_cons_self)
  obtain ⟨hf, hword⟩ := follows_start.run rfl hfront hnum hrun
  have hne : (d.withValue []).key ≠ q := fun hkq =>
    var_ne_lengthVar l ((congrArg var (hkey.symm.trans hkq)).trans hvar)
  have hsame : env' (lengthVar l) = env (lengthVar l) := by
    rw [← hvar, hbefore q hq, hafter q hq, valuesOf_concat_of_ne hne]
  cases c with
  | config cfgtype name => cases hd ▸ hlist
  | option varname args => cases hd ▸ hlist
  | list varname args =>
    rw [hd] at hkey
    change ((Cursor.start.after front).sec, varname) = l at hkey
    change Call.run a env (.list varname [[]]) = some env' at hstep
    rw [run_list hf hword hc.2, hkey] at hstep
    obtain ⟨len, hlen, hset⟩ := Option.bind_eq_some_iff.mp hstep
    split at hset
    · cases hset
      rw [setList_length] at hsame
      subst hsame
      unfold lengthOf orDefault at hlen
      split at hlen
      next hnil =>
        rw [hnil, show ['0'] = decimal 0 from rfl, a.plusOne_decimal] at hlen
        exact decimal_ne_nil _ (Option.some.inj hlen)
      next => exact a.plusOne_ne hlen rfl
    · cases hset

theorem distinct_of_exact : Distinct asked (definitions .start calls) :=
  ⟨fun _ hp _ hq => apart_of_exact hcalls hasked hall hp hq, count_of_exact hall,
    fun _ hl _ hq => length_of_exact hcalls hasked hall hl hq⟩

/-- The variables in front of the call for the value number `n + 1` of a list, and after it. -/
theorem exists_list_step {l : Key} {n : Nat} (hn : n < (listed (definitions .start calls)).count l)
    (v : List Definition → Text) : ∃ (env : Env) (front : List Definition) (d : Definition),
      d.isList = true ∧ d.key = l ∧ lengthOf env l = decimal n ∧
      (∀ q ∈ keys asked calls, env (var q) = joined (valuesOf q front)) ∧
      ∀ q ∈ keys asked calls,
        setList env (stateOf a env l) l (decimal (n + 1)) (v front) (var q) =
          joined (valuesOf q (front ++ [d.withValue (v front)])) := by
  have hmem : l ∈ listed (definitions .start calls) :=
    count_pos_iff.mp (by omega)
  obtain ⟨front, c, rest, d, heq, hd, hlist, hkey, hcount⟩ := exists_list_call hn
  obtain ⟨env, env', hrun, hstep, hbefore, hafter⟩ :=
    exists_step hcalls hasked hall heq hd (v (definitions .start front))
  have hfront : ∀ c ∈ front, c.Valid := fun c hc => hcalls c (heq ▸ mem_append_left _ hc)
  have hc : c.Valid := hcalls c (heq ▸ mem_append_right _ mem_cons_self)
  have hcounts := (distinct_of_exact hcalls hasked hall).counts_run [] hfront
    (by rw [heq, definitions_append]; rfl) (counts_start _) hrun
  have hdef : ∀ v, (c.withValue v).definition
      ((Cursor.start.after front).next (c.withValue v)).sec = d.withValue v := fun v => by
    rw [next_withValue, definition_withValue, hd]
  have hset := hcounts.run_list ((valid_withValue _).mpr hc) (by rw [hdef]; exact hlist)
    (by rw [hdef]; exact hkey ▸ hmem) hstep
  rw [hdef] at hset
  change env' = setList env (stateOf a env d.key) d.key (decimal ((listed _).count d.key + 1)) _
    at hset
  rw [hkey, nil_append, hcount] at hset
  refine ⟨env, definitions .start front, d, hlist, hkey, ?_, hbefore, hset ▸ hafter⟩
  rw [hcounts.lengthOf hmem, nil_append, hcount]

theorem item_of_exact {l q : Key} {n : Nat} (hn : n < (listed (definitions .start calls)).count l)
    (hq : q ∈ keys asked calls) : var q ≠ itemVar l (decimal (n + 1)) := by
  intro hvar
  obtain ⟨env, front, d, -, hkey, -, -, hafter⟩ := exists_list_step hcalls hasked hall hn
    fun front => 'x' :: joined (valuesOf q front)
  have hne : ∀ v, (d.withValue v).key ≠ q := fun _ hkq =>
    var_ne_itemVar l _ ((congrArg var (hkey.symm.trans hkq)).trans hvar)
  have hvalue := hafter q hq
  rw [valuesOf_concat_of_ne (hne _), hvar, setList_item] at hvalue
  exact cons_ne_self _ _ hvalue

theorem state_of_exact (hlists : listed (definitions .start calls) ≠ []) :
    stateKey ∉ keys asked calls := by
  intro hmem
  obtain ⟨l, hl⟩ := exists_mem_of_ne_nil _ hlists
  obtain ⟨env, front, d, hlist, -, hlength, hbefore, hafter⟩ := exists_list_step hcalls hasked hall
    (count_pos_iff.mpr hl) fun _ => []
  have hsame : joined (valuesOf stateKey (front ++ [d.withValue []])) =
      joined (valuesOf stateKey front) := by
    rw [valuesOf_concat]
    split
    · rw [if_pos (show (d.withValue []).isList = true from hlist), joined_concat]
      exact appended_nil _ _
    · rfl
  have hstate := hafter stateKey hmem
  rw [hsame, ← hbefore stateKey hmem, var_eq_listState.mpr rfl, setList_listState] at hstate
  unfold stateOf at hstate
  rw [hlength, a.isZero_decimal, if_pos (decide_eq_true rfl)] at hstate
  have hlt := length_lt_appended (env configListState) [' ']
    (show l.1 ++ '_' :: l.2 ≠ [] from append_ne_nil_of_right_ne_nil _ (cons_ne_nil _ _))
  rw [hstate] at hlt
  exact Nat.lt_irrefl _ hlt

end Conditions

end Necessary

/-- **Values are kept exactly**, whatever they are, for names that are separate and for no
    others.  For such names they are also printed, except those that `echo` takes for options. -/
theorem exact_iff (a : Arithmetic) {asked : List Key} {calls : List Call}
    (hcalls : ∀ c ∈ calls, c.Valid) (hasked : ∀ q ∈ asked, ValidKey q) :
    ((∀ calls', SameNames calls' calls → Exact a asked calls') ↔
      Separate asked (definitions .start calls)) ∧
    (Separate asked (definitions .start calls) → ∀ default,
      (Prints a asked calls default ↔ ∀ n ≤ calls.length, ∀ q ∈ keys asked calls,
        isEchoOption (valueAfter (calls.take n) q default) = false)) := by
  refine ⟨⟨fun hall => ?_, fun hsep calls' hsame => ?_⟩, fun hsep => ?_⟩
  · exact ⟨distinct_of_exact hcalls hasked hall,
      fun l _ n hn q hq => item_of_exact hcalls hasked hall hn hq,
      state_of_exact hcalls hasked hall⟩
  · exact (hsame.separate hsep).exact (hsame.valid hcalls) hasked
  · exact (hsep.exact hcalls hasked).prints_iff hcalls hasked

def plain : Arithmetic where
  plusOne t := (decimal? t).map fun n => decimal (n + 1)
  isZero t := t == decimal 0
  plusOne_decimal n := by rw [decimal?_decimal, Option.map_some]
  isZero_decimal n := by
    rw [Bool.eq_iff_iff, beq_iff_eq, decide_eq_true_iff]
    exact ⟨fun h => decimal_injective h, congrArg decimal⟩
  plusOne_ne := by
    rintro t t' h rfl
    obtain ⟨n, hn, heq⟩ := Option.map_eq_some_iff.mp h
    rw [← heq, decimal?_decimal] at hn
    exact absurd (Option.some.inj hn) (by omega)

def lanCalls : List Call := [
  .config ['i', 'f'] ['l', 'a', 'n'],
  .option ['i', 'p'] ["10.0.0.1".toList],
  .list ['d', 'n', 's'] [['a']],
  .list ['d', 'n', 's'] [['b']],
  .config ['i', 'f'] []]

theorem exact_lanCalls : Separate [] (definitions .start lanCalls) ∧
    (∀ calls', SameNames calls' lanCalls → Exact plain [] calls') ∧
    Prints plain [] lanCalls [] := by
  have hsep : Separate [] (definitions .start lanCalls) :=
    ⟨⟨by decide +kernel, by decide +kernel, by decide +kernel⟩, by decide +kernel,
      by decide +kernel⟩
  have hcalls : ∀ c ∈ lanCalls, c.Valid := by decide +kernel
  obtain ⟨hexact, hprints⟩ := exact_iff plain hcalls fun q hq => absurd hq (@not_mem_nil _ q)
  exact ⟨hsep, hexact.mpr hsep, (hprints hsep []).mpr (by decide +kernel)⟩

/-- The option `b_c` of the section `a`, and the option `c` of the section `a_b`. -/
def clashingCalls : List Call := [
  .config ['t'] ['a'],
  .option ['b', '_', 'c'] [['x']],
  .config ['t'] ['a', '_', 'b'],
  .option ['c'] [['y']]]

/-- The option `b` of the section `a` is `-n`. -/
def dashCalls : List Call := [.config ['t'] ['a'], .option ['b'] [['-', 'n']]]

theorem not_exact_clashingCalls : (∀ c ∈ clashingCalls ++ dashCalls, c.Valid) ∧
    valueAfter clashingCalls (['a'], ['b', '_', 'c']) [] = ['x'] ∧
    (∃ env, run plain start clashingCalls = some env ∧
      configGet env ['v'] ['a'] ['b', '_', 'c'] [] = .assigned ['y']) ∧
    ¬Exact plain [] clashingCalls ∧
    valueAfter dashCalls (['a'], ['b']) [] = ['-', 'n'] ∧
    ∃ env, run plain start dashCalls = some env ∧
      configGet env ['v'] ['a'] ['b'] [] = .assigned ['-', 'n'] ∧
      configGet env ['a'] ['b'] [] [] = .printed [] := by
  obtain ⟨env, hrun, hget⟩ : ∃ env ∈ run plain start clashingCalls,
      configGet env ['v'] ['a'] ['b', '_', 'c'] [] = .assigned ['y'] := by decide +kernel
  have hdash : ∃ env ∈ run plain start dashCalls,
      configGet env ['v'] ['a'] ['b'] [] = .assigned ['-', 'n'] ∧
      configGet env ['a'] ['b'] [] [] = .printed [] := by decide +kernel
  refine ⟨by decide +kernel, by decide +kernel, ⟨env, hrun, hget⟩, fun hexact => ?_,
    by decide +kernel, hdash⟩
  obtain ⟨env', hrun', hvalues⟩ := hexact clashingCalls [] (append_nil _).symm
  cases hrun.symm.trans hrun'
  have hsame := hvalues (['a'], ['b', '_', 'c']) (by decide +kernel) ['v'] []
  rw [hget] at hsame
  exact absurd hsame (by decide +kernel)

end Rooter.ShellConfig
