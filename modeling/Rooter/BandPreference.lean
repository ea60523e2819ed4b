import Rooter.BandMask
import Rooter.Loop
import Rooter.Fields

/-!
# The band preference of `lock.sh`

A modem that is locked with `AT^BAND_PREF` takes the selected bands as a list to enable (`2,`)
or, when there are many of them, as the list of the supported bands to disable (`1,`).  The
second list is found by a search through the selected bands, once for each supported band; a
zero put behind the selected bands ends the search.  The script has three copies of it, for
the bands of LTE, of 5G with millimetre waves and of 5G without.
-/

namespace Rooter.BandPreference

open List Numeral Loop Fields BandMask

/-! ### The script -/

def bandText (bands : List Nat) : List Char := [','].intercalate (bands.map decimal)

/-- `cut -d, -f$j`; a line without a comma is printed as it is. -/
def cut (j : Nat) (line : List Char) : List Char :=
  if ',' ∈ line then field ',' (j - 1) line else line

/-- `[ "$bn" -gt "$i" ]`, false with a message where `bn` is not a number. -/
def greater (bn : List Char) (i : Nat) : Bool :=
  match decimal? bn with
  | some n => decide (i < n)
  | none => false

/-- One round of `while [ 1=1 ]`: the search is left with `true` when band `i` goes onto the
    list to disable. -/
def searchStep (bnds : List Char) (i j : Nat) : Next Nat Bool :=
  let bn := cut j bnds
  if bn = ['0'] ∨ greater bn i = true then .leave true
  else if bn = decimal i then .leave false
  else .again (j + 1)

/-- `dis=$i` or `dis=$dis","$i`. -/
def addDisabled (dis : List Char) (i : Nat) : List Char :=
  if dis = [] then decimal i else dis ++ ',' :: decimal i

def disableLoop (fuel : Nat) (bnds : List Char) : List Nat → List Char → Option (List Char)
  | [], dis => some dis
  | i :: rest, dis => do
      let disable ← loop (searchStep bnds i) fuel 1
      disableLoop fuel bnds rest (if disable then addDisabled dis i else dis)

inductive Copy where
  | lte
  | millimetre
  | nr5g
deriving DecidableEq, Repr

def Copy.supported : Copy → List Nat
  | .lte => [1, 2, 3, 4, 5, 7, 8, 12, 13, 14, 17, 18, 19, 20, 25, 26, 28, 29, 30, 32, 34, 38, 39,
      40, 41, 42, 46, 48, 66, 71]
  | .millimetre => [1, 2, 3, 5, 7, 8, 12, 20, 28, 38, 41, 66, 71, 77, 78, 79, 257, 258, 260, 261]
  | .nr5g => [1, 2, 3, 5, 7, 8, 12, 20, 28, 38, 41, 66, 71, 77, 78, 79]

/-- From this number of bands on nothing is sent: all of them are selected. -/
def Copy.limit : Copy → Nat
  | .lte => 30
  | .millimetre => 20
  | .nr5g => 16

/-- What is put behind `AT^BAND_PREF=LTE,` or `AT^BAND_PREF=NR5G,` for the list `lst` of
    `fibdecode`.  The outer `none` is a search that has not ended, the inner one says that no
    command is sent. -/
def bandPref (fuel : Nat) (copy : Copy) (lst : List Char) : Option (Option (List Char)) :=
  let bnds := lst ++ ",0".toList
  let enc := bnds.count ','
  if enc < copy.limit then
    if 15 < enc then
      (disableLoop fuel bnds copy.supported []).map fun dis => some ("1,".toList ++ dis)
    else some (some ("2,".toList ++ lst))
  else some none

/-! ### What a command asks for -/

def bandsOf (text : List Char) : List Nat := (text.splitOn ',').filterMap decimal?

def allowed (supported : List Nat) (command : List Char) : List Nat :=
  if command.take 2 = "1,".toList then
    supported.filter fun b => decide (b ∉ bandsOf (command.drop 2))
  else supported.filter fun b => decide (b ∈ bandsOf (command.drop 2))

/-! ### Lists of bands as texts -/

variable {bands : List Nat}

theorem comma_notMem_decimal (n : Nat) : ',' ∉ decimal n := fun h =>
  absurd (isDigit_of_mem_decimal h) (by decide)

theorem comma_notMem_of_mem : ∀ part ∈ bands.map decimal, ',' ∉ part := by
  intro part hpart
  obtain ⟨b, -, rfl⟩ := mem_map.mp hpart
  exact comma_notMem_decimal b

theorem decimal_eq_zero {n : Nat} : decimal n = ['0'] ↔ n = 0 :=
  decimal_injective.eq_iff' (show decimal 0 = ['0'] from rfl)

theorem bandText_append_cons (h : bands ≠ []) (b : Nat) (rest : List Nat) :
    bandText (bands ++ b :: rest) = bandText bands ++ ',' :: bandText (b :: rest) := by
  induction bands with
  | nil => exact absurd rfl h
  | cons a bands ih =>
    by_cases hnil : bands = []
    · subst hnil
      simp [bandText]
    · have hne : (bands ++ b :: rest).map decimal ≠ [] := by simp
      have hmap : bands.map decimal ≠ [] := by simpa using hnil
      unfold bandText at ih ⊢
      rw [cons_append, map_cons, map_cons, intercalate_cons_of_ne_nil hne,
        intercalate_cons_of_ne_nil hmap, ih hnil]
      simp

theorem bandText_ne_nil (h : bands ≠ []) : bandText bands ≠ [] := by
  rcases bands with _ | ⟨b, _ | ⟨b', bands⟩⟩
  · exact absurd rfl h
  · simp [bandText, decimal_ne_nil]
  · simp [bandText]

theorem cut_bandText {k : Nat} (hk : k < bands.length) :
    cut (k + 1) (bandText bands) = decimal bands[k] := by
  have hfield : field ',' k (bandText bands) = decimal bands[k] := by
    refine (field_intercalate comma_notMem_of_mem (by simpa using hk)).trans ?_
    simp
  unfold cut
  split_ifs with hcomma
  · exact hfield
  · -- without a comma there is one field, the whole line
    rcases bands with _ | ⟨b, _ | ⟨b', bands⟩⟩
    · exact absurd hk (Nat.not_lt_zero k)
    · have hzero : k = 0 := Nat.lt_one_iff.mp hk
      simp [bandText]
    · exact absurd (by simp [bandText]) hcomma

theorem bandsOf_bandText (bands : List Nat) : bandsOf (bandText bands) = bands := by
  by_cases hnil : bands = []
  · subst hnil
    decide
  · unfold bandsOf bandText
    rw [splitOn_intercalate ',' comma_notMem_of_mem (by simpa using hnil)]
    simp

theorem addDisabled_bandText (bands : List Nat) (i : Nat) :
    addDisabled (bandText bands) i = bandText (bands ++ [i]) := by
  by_cases hnil : bands = []
  · subst hnil
    simp [addDisabled, bandText]
  · rw [addDisabled, if_neg (bandText_ne_nil hnil), bandText_append_cons hnil]
    simp [bandText]

theorem count_comma_bandText (h : bands ≠ []) : (bandText bands).count ',' = bands.length - 1 := by
  induction bands with
  | nil => exact absurd rfl h
  | cons a bands ih =>
    rcases bands with _ | ⟨b, bands⟩
    · simp [bandText, count_eq_zero.mpr (comma_notMem_decimal a)]
    · rw [show a :: b :: bands = [a] ++ b :: bands from rfl,
        bandText_append_cons (cons_ne_nil a []), count_append, count_cons_self,
        ih (cons_ne_nil b bands)]
      simp [bandText, count_eq_zero.mpr (comma_notMem_decimal a)]

/-! ### The search -/

theorem searchStep_zero {bnds : List Char} {i j : Nat} (h : cut j bnds = decimal 0) :
    searchStep bnds i j = .leave true := by
  simp only [searchStep, h, decimal_eq_zero.mpr rfl, true_or, if_true]

theorem searchStep_band {bnds : List Char} {i j b : Nat} (h : cut j bnds = decimal b)
    (hb : b ≠ 0) : searchStep bnds i j =
      if i < b then .leave true else if b = i then .leave false else .again (j + 1) := by
  have hgreater : greater (decimal b) i = decide (i < b) := by
    rw [greater, decimal?_decimal]
  simp only [searchStep, h, hgreater, decimal_eq_zero, hb, false_or, decide_eq_true_eq,
    decimal_injective.eq_iff]

section Search

variable {selected : List Nat}

/-- **The search.**  Behind the fields that are smaller than band `i` it finds out whether the
    band is among the selected ones, at the latest at the zero. -/
theorem loop_searchStep (rest : List Nat) (i extra : Nat) : ∀ todo before : List Nat,
    before ++ todo = selected → todo.Pairwise (· < ·) → 0 ∉ todo →
    loop (searchStep (bandText (selected ++ 0 :: rest)) i) (extra + todo.length + 1)
      (before.length + 1) = some (decide (i ∉ todo)) := by
  intro todo
  induction todo with
  | nil =>
    intro before hsel _ _
    have hcut : cut (before.length + 1) (bandText (selected ++ 0 :: rest)) = decimal 0 := by
      rw [cut_bandText (by simp [← hsel])]
      simp [← hsel]
    rw [loop_leave (searchStep_zero hcut)]
    simp
  | cons b todo ih =>
    intro before hsel hsorted hzero
    have hcut : cut (before.length + 1) (bandText (selected ++ 0 :: rest)) = decimal b := by
      rw [cut_bandText (by simp [← hsel])]
      simp [← hsel]
    have hb : b ≠ 0 := fun heq => hzero (by simp [heq])
    have hstep := searchStep_band (i := i) hcut hb
    obtain ⟨hlater, hsorted⟩ := pairwise_cons.mp hsorted
    by_cases hlt : i < b
    · -- all the bands from here on are larger
      rw [if_pos hlt] at hstep
      have hnot : i ∉ b :: todo := by
        intro hmem
        rcases mem_cons.mp hmem with heq | hmem
        · exact absurd hlt (by simp [heq])
        · exact absurd (hlater i hmem) (by omega)
      rw [loop_leave hstep]
      simp [hnot]
    · by_cases heq : b = i
      · rw [if_neg hlt, if_pos heq] at hstep
        rw [loop_leave hstep]
        simp [heq]
      · rw [if_neg hlt, if_neg heq] at hstep
        have hrec := ih (before ++ [b]) (by simpa using hsel) hsorted
          fun hmem => hzero (mem_cons_of_mem b hmem)
        rw [length_append] at hrec
        have hne : i ≠ b := fun h => heq h.symm
        rw [loop_again hstep]
        refine hrec.trans ?_
        simp [hne]

variable (hsorted : selected.Pairwise (· < ·)) (hpos : 0 ∉ selected)

include hsorted hpos in
/-- **The list to disable**: the search is made for each supported band. -/
theorem disableLoop_eq (rest : List Nat) {fuel : Nat} (hfuel : selected.length < fuel)
    (supported : List Nat) :
    ∀ dis : List Nat, disableLoop fuel (bandText (selected ++ 0 :: rest)) supported (bandText dis)
      = some (bandText (dis ++ supported.filter fun b => decide (b ∉ selected))) := by
  obtain ⟨extra, rfl⟩ := Nat.exists_eq_add_of_le' hfuel
  induction supported with
  | nil =>
    intro dis
    simp [disableLoop]
  | cons i supported ih =>
    intro dis
    have hsearch : loop (searchStep (bandText (selected ++ 0 :: rest)) i)
        (extra + (selected.length + 1)) 1 = some (decide (i ∉ selected)) :=
      loop_searchStep rest i extra selected [] rfl hsorted hpos
    rw [disableLoop, hsearch, Option.bind_eq_bind, Option.bind_some]
    by_cases hmem : i ∈ selected
    · simp only [hmem, not_true_eq_false, decide_false, Bool.false_eq_true, if_false, ih,
        filter_cons]
    · simp only [hmem, not_false_eq_true, decide_true, if_true, addDisabled_bandText, ih,
        filter_cons, append_assoc, singleton_append]

end Search

/-! ### The two forms -/

variable {selected : List Nat}

theorem allowed_disable (supported dis : List Nat) :
    allowed supported ("1,".toList ++ bandText dis) =
      supported.filter fun b => decide (b ∉ dis) := by
  simp [allowed, bandsOf_bandText]

theorem allowed_enable (supported selected : List Nat) :
    allowed supported ("2,".toList ++ bandText selected) =
      supported.filter fun b => decide (b ∈ selected) := by
  simp [allowed, bandsOf_bandText]

/-- Disabling the supported bands that are not selected leaves the selected ones. -/
theorem allowed_disable_filter (supported selected : List Nat) :
    allowed supported
        ("1,".toList ++ bandText (supported.filter fun b => decide (b ∉ selected))) =
      supported.filter fun b => decide (b ∈ selected) := by
  rw [allowed_disable]
  apply filter_congr
  intro b hb
  simp [hb]

theorem pairwise_supported (copy : Copy) : copy.supported.Pairwise (· < ·) := by
  cases copy <;> decide

/-- **Both forms ask for the same bands.**  The searches in a list of selected bands with a
    zero behind it end, and the supported bands that are not selected are disabled. -/
theorem disable_form_eq_enable_form (copy : Copy) (selected rest : List Nat)
    (hsorted : selected.Pairwise (· < ·)) (hpos : 0 ∉ selected) {fuel : Nat}
    (hfuel : selected.length < fuel) :
    ∃ dis : List Nat,
      disableLoop fuel (bandText (selected ++ 0 :: rest)) copy.supported [] = some (bandText dis) ∧
      dis.Pairwise (· < ·) ∧ (∀ b, b ∈ dis ↔ b ∈ copy.supported ∧ b ∉ selected) ∧
      (∀ b, b ∈ copy.supported ∧ b ∉ dis ↔ b ∈ selected ∧ b ∈ copy.supported) ∧
      allowed copy.supported ("1,".toList ++ bandText dis) =
        allowed copy.supported ("2,".toList ++ bandText selected) := by
  refine ⟨copy.supported.filter fun b => decide (b ∉ selected),
    disableLoop_eq hsorted hpos rest hfuel copy.supported [],
    (pairwise_supported copy).filter _, ?_, ?_, ?_⟩
  · intro b
    simp
  · intro b
    simp only [mem_filter, decide_eq_true_eq]
    tauto
  · rw [allowed_disable_filter, allowed_enable]

/-- Bands 1 to 20, of which LTE has 14, and band 300, which it does not have. -/
theorem disable_form_eq_enable_form_lte :
    ((range 20).map (· + 1) ++ [300]).Pairwise (· < ·) ∧
    ∃ dis : List Nat,
      disableLoop 22 (bandText (((range 20).map (· + 1) ++ [300]) ++ 0 :: []))
        Copy.lte.supported [] = some (bandText dis) ∧
      dis.Pairwise (· < ·) ∧
      (∀ b, b ∈ dis ↔ b ∈ Copy.lte.supported ∧ b ∉ (range 20).map (· + 1) ++ [300]) ∧
      (∀ b, b ∈ Copy.lte.supported ∧ b ∉ dis ↔
        b ∈ (range 20).map (· + 1) ++ [300] ∧ b ∈ Copy.lte.supported) ∧
      allowed Copy.lte.supported ("1,".toList ++ bandText dis) =
        allowed Copy.lte.supported
          ("2,".toList ++ bandText ((range 20).map (· + 1) ++ [300])) :=
  ⟨by decide, disable_form_eq_enable_form .lte _ [] (by decide) (by decide) (by decide)⟩

/-! ### The command -/

theorem count_comma_sentinel (h : selected ≠ []) :
    (bandText selected ++ ",0".toList).count ',' = selected.length := by
  rw [count_append, count_comma_bandText h]
  have hpos := length_pos_iff.mpr h
  simp
  omega

theorem bandText_sentinel (h : selected ≠ []) :
    bandText selected ++ ",0".toList = bandText (selected ++ 0 :: []) := by
  rw [bandText_append_cons h]
  simp [bandText, decimal_eq_zero.mpr]

/-- Whichever form is sent, the modem is left with the supported bands among the selected. -/
theorem bandPref_allowed (copy : Copy) (hne : selected ≠ []) (hsorted : selected.Pairwise (· < ·))
    (hpos : 0 ∉ selected) (hlimit : selected.length < copy.limit) {fuel : Nat}
    (hfuel : selected.length < fuel) :
    ∃ command, bandPref fuel copy (bandText selected) = some (some command) ∧
      allowed copy.supported command =
        copy.supported.filter fun b => decide (b ∈ selected) := by
  simp only [bandPref, count_comma_sentinel hne, if_pos hlimit]
  split_ifs with hmany
  · have hdis := disableLoop_eq hsorted hpos [] hfuel copy.supported []
    rw [bandText_sentinel hne]
    exact ⟨_, congrArg (Option.map _) hdis, allowed_disable_filter _ _⟩
  · exact ⟨_, rfl, allowed_enable _ _⟩

end Rooter.BandPreference
