import Rooter.Numeral

/-!
# Choosing a connection profile: `get_profile.sh`

`do_custom` is run for each custom profile in the order of the configuration, until one of them
matches.  A profile is chosen by one property of the modem, and by a second one if it has
another selection than "None".  The script is followed with the variable `imei`, which is not
local to `do_custom`: it keeps the value of the last profile that was selected by IMEI, and the
second test by IMEI reads it in the place of `imei1`.

An option that is not set is an empty text.  The settings that are copied from the profile are
left out.
-/

namespace Rooter.ProfileSelect

open List Numeral

abbrev Text := List Char

structure Modem where
  idV : Text
  idP : Text
  imei : Text
  model : Text
  imsi : Text
  iccid : Text

structure Values where
  vid : Text
  pid : Text
  imei : Text
  model : Text
  imsi : Text
  iccid : Text

/-- A custom profile: `select` with its values, and `select1` with the values `vid1` to `iccid1`. -/
structure Section where
  enabled : Text
  select : Text
  first : Values
  select1 : Text
  second : Values

/-! ### The script -/

/-- The five selections by `case`.  The words of `[ $idV = $vid -a $idP = $pid ]` are not
    quoted: of a comparison of two empty words the `=` is left, a text that is not empty and
    so true, and with one empty word the test ends with an error. -/
def criterion (modem : Modem) (select : Text) (values : Values) : Bool :=
  if select = ['0'] then decide (modem.idV = values.vid ∧ modem.idP = values.pid)
  else if select = ['1'] then values.imei.isPrefixOf modem.imei
  else if select = ['2'] then decide (modem.model = values.model)
  else if select = ['3'] then values.imsi.isPrefixOf modem.imsi
  else if select = ['4'] then values.iccid.isPrefixOf modem.iccid
  else false

/-- `[ $enabled -eq 1 ]`, where a profile without the option is enabled. -/
def Section.isEnabled (profile : Section) : Bool :=
  decide (profile.enabled = [] ∨ decimal? profile.enabled = some 1)

/-- `[ $select1 -ne 10 ]`, false where there is no number. -/
def Section.hasSecond (profile : Section) : Bool :=
  match decimal? profile.select1 with
  | some n => decide (n ≠ 10)
  | none => false

/-- The variables that survive a call of `do_custom`: the profile for which `MATCH` was set, by
    its number, and `imei`. -/
structure Search where
  applied : Option Nat
  imei : Text

/-- `config_get imei $1 imei`, reached by an enabled profile that is selected by IMEI. -/
def readImei (imei : Text) (profile : Section) : Text :=
  if profile.isEnabled = true ∧ profile.select = ['1'] then profile.first.imei else imei

def doCustom (modem : Modem) (search : Search) (i : Nat) (profile : Section) : Search :=
  if search.applied = none then
    if profile.isEnabled then
      let imei := readImei search.imei profile
      if criterion modem profile.select profile.first then
        if profile.hasSecond then
          -- `imei1` is read, but `imei` is compared
          if criterion modem profile.select1 { profile.second with imei := imei } then
            { applied := some i, imei := imei }
          else { applied := none, imei := imei }
        else { applied := some i, imei := imei }
      else { applied := none, imei := imei }
    else search
  else search

def configForeach (modem : Modem) : Nat → List Section → Search → Search
  | _, [], search => search
  | i, profile :: rest, search =>
      configForeach modem (i + 1) rest (doCustom modem search i profile)

/-- What else the script looks at: `profile.disable.autoapn`, the file of access points,
    `profile.disable.enabled` and the configuration of the provider. -/
structure Switches where
  autoapn : Bool
  apd : Bool
  autod : Bool
  isp : Bool

inductive Profile where
  | custom (i : Nat)
  | isp
  | default
deriving DecidableEq, Repr

def getProfile (switches : Switches) (modem : Modem) (profiles : List Section) : Profile :=
  if switches.autoapn && switches.apd then .default
  else if switches.autod then (if switches.isp then .isp else .default)
  else
    match (configForeach modem 0 profiles { applied := none, imei := [] }).applied with
    | some i => .custom i
    | none => .default

/-! ### The intended choice -/

/-- Both criteria hold of the modem, each with the values of its own. -/
def Section.applies (modem : Modem) (profile : Section) : Bool :=
  profile.isEnabled && criterion modem profile.select profile.first &&
    (!profile.hasSecond || criterion modem profile.select1 profile.second)

def Switches.customs (switches : Switches) : Bool :=
  !(switches.autoapn && switches.apd) && !switches.autod

/-- The first profile that applies, or else the default profile.  Custom profiles that are
    switched off are passed over. -/
def firstProfile (switches : Switches) (modem : Modem) (profiles : List Section) : Profile :=
  if switches.customs then
    match profiles.findIdx? (Section.applies modem) with
    | some i => .custom i
    | none => .default
  else if switches.autod && !(switches.autoapn && switches.apd) && switches.isp then .isp
  else .default

/-! ### One profile -/

/-- What `do_custom` decides with a value of `imei`. -/
def Section.decided (modem : Modem) (imei : Text) (profile : Section) : Bool :=
  profile.isEnabled && criterion modem profile.select profile.first &&
    (!profile.hasSecond ||
      criterion modem profile.select1 { profile.second with imei := readImei imei profile })

theorem doCustom_of_none (modem : Modem) (imei : Text) (i : Nat) (profile : Section) :
    doCustom modem ⟨none, imei⟩ i profile =
      ⟨if profile.decided modem imei then some i else none, readImei imei profile⟩ := by
  unfold doCustom Section.decided
  by_cases henabled : profile.isEnabled = true
  · by_cases hfirst : criterion modem profile.select profile.first = true
    · by_cases hsecond : profile.hasSecond = true
      · simp only [henabled, hfirst, hsecond, if_true, Bool.true_and, Bool.not_true, Bool.false_or]
        split_ifs <;> rfl
      · simp [henabled, hfirst, hsecond]
    · simp [henabled, hfirst]
  · simp [henabled, readImei]

theorem configForeach_of_some (modem : Modem) (j : Nat) (imei : Text) (profiles : List Section) :
    ∀ i, configForeach modem i profiles ⟨some j, imei⟩ = ⟨some j, imei⟩ := by
  induction profiles with
  | nil => exact fun _ => rfl
  | cons profile rest ih =>
    intro i
    rw [configForeach, show doCustom modem ⟨some j, imei⟩ i profile = ⟨some j, imei⟩ from rfl, ih]

/-- **One profile of the loop.** -/
theorem configForeach_cons (modem : Modem) (imei : Text) (i : Nat) (profile : Section)
    (rest : List Section) : (configForeach modem i (profile :: rest) ⟨none, imei⟩).applied =
      if profile.decided modem imei then some i
      else (configForeach modem (i + 1) rest ⟨none, readImei imei profile⟩).applied := by
  rw [configForeach, doCustom_of_none]
  split_ifs
  · rw [configForeach_of_some]
  · rfl

theorem le_of_applied (modem : Modem) (profiles : List Section) : ∀ (imei : Text) (i j : Nat),
    (configForeach modem i profiles ⟨none, imei⟩).applied = some j → i ≤ j := by
  induction profiles with
  | nil =>
    intro imei i j h
    cases h
  | cons profile rest ih =>
    intro imei i j h
    rw [configForeach_cons] at h
    split_ifs at h
    · exact Nat.le_of_eq (Option.some.inj h)
    · exact Nat.le_of_succ_le (ih _ _ _ h)

/-! ### The loop against the intended choice -/

/-- The decisions are the intended ones up to the first profile that applies. -/
def Clean (modem : Modem) (imei : Text) (profiles : List Section) : Prop :=
  ∀ before profile after, profiles = before ++ profile :: after →
    (∀ b ∈ before, b.applies modem = false) →
    profile.decided modem (before.foldl readImei imei) = profile.applies modem

theorem clean_nil (modem : Modem) (imei : Text) : Clean modem imei [] := by
  intro before profile after h
  simp at h

theorem clean_cons (modem : Modem) (imei : Text) (profile : Section) (rest : List Section) :
    Clean modem imei (profile :: rest) ↔
      profile.decided modem imei = profile.applies modem ∧
        (profile.applies modem = false → Clean modem (readImei imei profile) rest) := by
  constructor
  · intro h
    refine ⟨h [] profile rest rfl (by simp), fun hnot before later after heq hbefore => ?_⟩
    refine h (profile :: before) later after (by rw [heq]; rfl) fun b hb => ?_
    rcases mem_cons.mp hb with rfl | hb
    · exact hnot
    · exact hbefore b hb
  · rintro ⟨hfirst, hrest⟩ before later after heq hbefore
    rcases before with _ | ⟨b, before⟩
    · obtain ⟨rfl, rfl⟩ := cons.inj heq
      exact hfirst
    · obtain ⟨rfl, htail⟩ := cons.inj heq
      exact hrest (hbefore profile (by simp)) before later after htail
        fun b hb => hbefore b (mem_cons_of_mem _ hb)

/-- The loop finds the first profile that applies exactly when its decisions are clean: the
    first one that is not takes a profile too early or passes over the right one. -/
theorem configForeach_eq_iff (modem : Modem) (profiles : List Section) :
    ∀ (imei : Text) (i : Nat),
    (configForeach modem i profiles ⟨none, imei⟩).applied =
        (profiles.findIdx? (Section.applies modem)).map (· + i) ↔
      Clean modem imei profiles := by
  induction profiles with
  | nil =>
    intro imei i
    exact ⟨fun _ => clean_nil modem imei, fun _ => rfl⟩
  | cons profile rest ih =>
    intro imei i
    rw [configForeach_cons, clean_cons, findIdx?_cons]
    cases hdec : profile.decided modem imei <;> cases happ : profile.applies modem
    · -- the profile is rightly passed over
      have hshift : (Option.map (fun i => i + 1) (rest.findIdx? (Section.applies modem))).map
          (· + i) = (rest.findIdx? (Section.applies modem)).map (· + (i + 1)) := by
        rw [Option.map_map]
        congr 1
        funext k
        simp only [Function.comp_apply]
        omega
      simp [hshift, ih]
    · -- it is wrongly passed over: what is found comes later
      simp only [Bool.false_eq_true, if_true, Option.map_some, Nat.zero_add, false_and, iff_false]
      intro h
      exact absurd (le_of_applied modem rest _ _ _ h) (by omega)
    · -- it is wrongly taken: what applies comes later
      simp only [if_true, Bool.false_eq_true, if_false, Bool.true_eq_false, false_and, iff_false]
      cases hidx : rest.findIdx? (Section.applies modem) with
      | none => simp
      | some k =>
        simp only [Option.map_some, Option.some.injEq]
        omega
    · simp

/-- The decision on a profile is the intended one unless the second test is by IMEI. -/
theorem decided_eq_applies_iff (modem : Modem) (imei : Text) (profile : Section) :
    profile.decided modem imei = profile.applies modem ↔
      (profile.isEnabled = true → criterion modem profile.select profile.first = true →
        profile.select1 = ['1'] →
        (readImei imei profile).isPrefixOf modem.imei =
          profile.second.imei.isPrefixOf modem.imei) := by
  unfold Section.decided Section.applies
  by_cases henabled : profile.isEnabled = true
  · by_cases hfirst : criterion modem profile.select profile.first = true
    · by_cases himei : profile.select1 = ['1']
      · have hsecond : profile.hasSecond = true := by
          rw [Section.hasSecond, himei]
          decide
        have hby : ∀ values : Values,
            criterion modem ['1'] values = values.imei.isPrefixOf modem.imei := fun _ => rfl
        simp [henabled, hfirst, himei, hsecond, hby]
      · have hsame : criterion modem profile.select1
            { profile.second with imei := readImei imei profile } =
            criterion modem profile.select1 profile.second := by
          simp [criterion, himei]
        simp [hsame, himei]
    · simp [hfirst]
  · simp [henabled]

/-! ### The profile that is applied -/

/-- No second test by IMEI that the loop reaches is decided by the value of another option: the
    last `imei` that was read and `imei1` are both the beginning of the modem's IMEI or both not. -/
def ImeiCurrent (modem : Modem) (profiles : List Section) : Prop :=
  ∀ before profile after, profiles = before ++ profile :: after →
    (∀ b ∈ before, b.applies modem = false) → profile.isEnabled = true →
    criterion modem profile.select profile.first = true → profile.select1 = ['1'] →
    ((before ++ [profile]).foldl readImei []).isPrefixOf modem.imei =
      profile.second.imei.isPrefixOf modem.imei

theorem clean_iff_imeiCurrent (modem : Modem) (profiles : List Section) :
    Clean modem [] profiles ↔ ImeiCurrent modem profiles := by
  simp only [Clean, ImeiCurrent, decided_eq_applies_iff, foldl_append, foldl_cons, foldl_nil]

/-- A profile for one IMEI, and behind it one for a model with a given IMEI. -/
def staleProfiles : List Section :=
  [ { enabled := [], select := ['1'], select1 := "10".toList
      first := { vid := [], pid := [], imei := "86".toList, model := [], imsi := [], iccid := [] }
      second := { vid := [], pid := [], imei := [], model := [], imsi := [], iccid := [] } },
    { enabled := ['1'], select := ['2'], select1 := ['1']
      first := { vid := [], pid := [], imei := [], model := "EC25".toList, imsi := [], iccid := [] }
      second := { vid := [], pid := [], imei := "35".toList, model := [], imsi := [],
                  iccid := [] } } ]

def staleModem : Modem where
  idV := "2c7c".toList
  idP := "0125".toList
  imei := "356938035643809".toList
  model := "EC25".toList
  imsi := "310260000000000".toList
  iccid := "8901260000000000000".toList

end Rooter.ProfileSelect
