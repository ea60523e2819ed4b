import Rooter.ShellText
import Rooter.BandMask

/-!
# Locking a Fibocom modem and reading the lock back

`lock.sh` sends one comma-separated list to a Fibocom modem: a few numbers for
the radio access, then 100 + b for each LTE band b, then 500 + b or 5000 + b for
each NR band b.  The `fibomask` function of the `bandmask` script reads the same
list back and sorts the numbers into the two groups by pattern searches over the
whole reply, without looking at the commas.

The searches never see a number of the wrong group: no three digits `1dd` stand
inside an NR number, and no `50d` inside an LTE number.
-/

namespace Rooter.FibocomBands

open List hiding reverse
open Numeral ShellText BandMask

/-! ### lock.sh: the vendors 8087, 2cb7 and 0e8d -/

/-- The USB vendor ids of the Fibocom branch of `lock.sh`. -/
inductive Vendor where
  | v8087
  | v2cb7
  | v0e8d
deriving DecidableEq, Repr

/-- `FM150` is only looked up for the vendor 2cb7. -/
def isFm150 (uVid : Vendor) (fm150 : Bool) : Bool := uVid = .v2cb7 && fm150

def sendsNr (uVid : Vendor) (fm150 : Bool) : Bool := isFm150 uVid fm150 || uVid = .v0e8d

def lteList (mask : List Char) : List Char :=
  if mask = [] then [] else ',' :: fibdecode mask 1 0

def nrList (mask5g : List Char) : List Char :=
  if mask5g = [] then [] else ',' :: fibdecode mask5g 5 0

/-- The variable `L1`: the radio access numbers in front of the lists. -/
def access (uVid : Vendor) (fm150 : Bool) (lte mask5g : List Char) : List Char :=
  if uVid = .v0e8d then
    if mask5g = [] then "4,3,3".toList else "17,3,6".toList
  else if isFm150 uVid fm150 then
    if mask5g = [] then "4,3,".toList
    else if lte = [] then "14,,".toList else "17,6,".toList
  else "4,2,1".toList

def lockArgs (uVid : Vendor) (fm150 : Bool) (mask mask5g : List Char) : List Char :=
  let lte := lteList mask
  let lst := if sendsNr uVid fm150 then nrList mask5g else []
  access uVid fm150 lte mask5g ++ (lte ++ lst)

/-! ### bandmask: fibomask -/

/-- `+GTACT:[^)]\+` -/
def testPattern (text : List Char) : Nat :=
  if "+GTACT:".toList <+: text then
    let n := ((text.drop 7).takeWhile (· ≠ ')')).length
    if n = 0 then 0 else 7 + n
  else 0

/-- `[0-9]\{2\}` -/
def ratPattern : List Char → Nat
  | a :: b :: _ => if a.isDigit && b.isDigit then 2 else 0
  | _ => 0

/-- `1[0-9]\{2\}` -/
def ltePattern : List Char → Nat
  | a :: b :: c :: _ => if a = '1' && b.isDigit && c.isDigit then 3 else 0
  | _ => 0

/-- `50[0-9]\{1,3\}` -/
def nrPattern : List Char → Nat
  | a :: b :: rest =>
      if a = '5' && b = '0' then
        let n := ((rest.take 3).takeWhile Char.isDigit).length
        if n = 0 then 0 else 2 + n
      else 0
  | _ => 0

/-- What the modem answers to the three queries of `fibomask`, and its ids. -/
structure Modem where
  idV : List Char
  idP : List Char
  gtactTest : List Char
  gtactRead : List Char
  xactRead : List Char

/-- `$(echo $OX | grep -o "+GTACT:[^)]\+")`, printed again on one line. -/
def testMatch (m : Modem) : List Char :=
  intercalate [' '] (grepO testPattern 0 (echo [] false false m.gtactTest))

def fm190w (m : Modem) : Bool := m.idV = "2cb7".toList && m.idP = "0104".toList

/-- Whether the lock is read with `AT+GTACT?` (else with `AT+XACT?`). -/
def readsGtact (m : Modem) : Bool := testMatch m ≠ [] || fm190w m

def nrSupport (m : Modem) : Bool :=
  if testMatch m ≠ [] then
    (grepO ratPattern 0 (echo [] false false (testMatch m))).any fun rat =>
      rat = "14".toList || rat = "16".toList || rat = "17".toList || rat = "20".toList
  else fm190w m

/-- `echo $OX" " | grep "+TAG:" | tr -d '"' | tr " " ","` -/
def cleanReply (tag reply : List Char) : List Char :=
  let line := echo [' '] false false reply
  if tag <:+: line then (line.filter (· ≠ '"')).map fun c => if c = ' ' then ',' else c
  else []

def bandReply (m : Modem) : List Char :=
  if readsGtact m then cleanReply "+GTACT:".toList m.gtactRead
  else
    let ox := cleanReply "+XACT:".toList m.xactRead
    if ox = [] then "No AT command found to read bands".toList else ox

def lteBand (bandval : List Char) : List Char :=
  decimal (Nat.ofDigitChars 10 bandval 0 - 100)

/-- The masks `0x$L1` and `$L5` stored by `fibomask`. -/
def fibomask (m : Modem) : List Char × List Char :=
  let ox := bandReply m
  let lteBands := (grepO ltePattern 0 ox).map lteBand
  let nrBands := (grepO nrPattern 0 ox).map (drop 2)
  let l1 := if lteBands = [] then ['0'] else encodemask lteBands
  let l5 :=
    if nrBands = [] then (if nrSupport m then "0x0".toList else [])
    else "0x".toList ++ encodemask nrBands
  ("0x".toList ++ l1, l5)

/-- The bit string mask.sh writes for `L5`; a modem without the mask gets an x. -/
def maskLine (l5 : List Char) : List Char := if l5 = [] then ['x'] else reverse l5

/-! ### The numbers of the list -/

def EndsNumber (text : List Char) : Prop := ∀ c ∈ text.head?, c.isDigit = false

theorem EndsNumber.cases {text : List Char} (h : EndsNumber text) :
    text = [] ∨ ∃ c cs, text = c :: cs ∧ c.isDigit = false := by
  cases text with
  | nil => exact .inl rfl
  | cons c cs => exact .inr ⟨c, cs, rfl, h c (by simp)⟩

theorem EndsNumber.of_free {text : List Char} (h : Free Char.isDigit text) : EndsNumber text :=
  fun c hc => h c (mem_of_mem_head? hc)

theorem ltePattern_startsAt : StartsAt Char.isDigit ltePattern := by
  intro c cs hc
  have hne : c ≠ '1' := by rintro rfl; exact absurd hc (by decide)
  match cs with
  | [] => rfl
  | [_] => rfl
  | _ :: _ :: _ => simp [ltePattern, hne]

theorem nrPattern_startsAt : StartsAt Char.isDigit nrPattern := by
  intro c cs hc
  have hne : c ≠ '5' := by rintro rfl; exact absurd hc (by decide)
  match cs with
  | [] => rfl
  | _ :: _ => simp [nrPattern, hne]

theorem decimal_lte : ∀ i < 99, decimal (bandNumber 1 101 i)
    = ['1', Nat.digitChar ((i + 1) / 10), Nat.digitChar ((i + 1) % 10)] := by
  decide +kernel

theorem decimal_nr : ∀ i < 99, decimal (bandNumber 5 101 i) = '5' :: '0' :: decimal (i + 1) := by
  decide +kernel

theorem length_decimal_le_two {n : Nat} (h : n < 100) : (decimal n).length ≤ 2 :=
  (Nat.length_toDigits_le_iff (by decide) (by decide)).mpr h

theorem decimal_two_cases {n : Nat} (h : n < 100) :
    ∃ x : Char, x.isDigit = true ∧ (decimal n = [x] ∨ ∃ y : Char, y.isDigit = true ∧
      decimal n = [x, y]) := by
  have hlen := length_decimal_le_two h
  have hdigit : ∀ c ∈ decimal n, c.isDigit = true := fun c hc => isDigit_of_mem_decimal hc
  match hd : decimal n with
  | [] => exact absurd hd (decimal_ne_nil n)
  | [x] => exact ⟨x, hdigit x (by simp [hd]), .inl rfl⟩
  | [x, y] => exact ⟨x, hdigit x (by simp [hd]), .inr ⟨y, hdigit y (by simp [hd]), rfl⟩⟩
  | _ :: _ :: _ :: _ => rw [hd] at hlen; simp at hlen

section Searches

variable {after : List Char}

theorem grepO_lte_lte {i : Nat} (hi : i < 99) :
    grepO ltePattern 0 (decimal (bandNumber 1 101 i) ++ after)
      = decimal (bandNumber 1 101 i) :: grepO ltePattern 0 after := by
  have hx : (Nat.digitChar ((i + 1) / 10)).isDigit = true := isDigit_digitChar (by omega)
  have hy : (Nat.digitChar ((i + 1) % 10)).isDigit = true := isDigit_digitChar (by omega)
  apply grepO_match (decimal_ne_nil _)
  simp [decimal_lte i hi, ltePattern, hx, hy]

/-- The search for LTE bands passes over an NR number: behind its 50 there are at
    most two digits. -/
theorem grepO_lte_nr {i : Nat} (hi : i < 99) (hafter : EndsNumber after) :
    grepO ltePattern 0 (decimal (bandNumber 5 101 i) ++ after) = grepO ltePattern 0 after := by
  rw [decimal_nr i hi]
  obtain ⟨x, -, hd | ⟨y, -, hd⟩⟩ := decimal_two_cases (n := i + 1) (by omega) <;>
    rcases hafter.cases with rfl | ⟨c, cs, rfl, hc⟩
  · simp [hd, grepO, ltePattern]
  · cases cs <;> simp [hd, grepO, ltePattern, hc]
  · simp [hd, grepO, ltePattern]
  · cases cs <;> simp [hd, grepO, ltePattern, hc]

/-- The search for NR bands passes over an LTE number: a 50 can only stand at its end. -/
theorem grepO_nr_lte {i : Nat} (hi : i < 99) (hafter : EndsNumber after) :
    grepO nrPattern 0 (decimal (bandNumber 1 101 i) ++ after) = grepO nrPattern 0 after := by
  rw [decimal_lte i hi]
  rcases hafter.cases with rfl | ⟨c, cs, rfl, hc⟩
  · simp [grepO, nrPattern]
  · have hzero : c ≠ '0' := by rintro rfl; exact absurd hc (by decide)
    simp [grepO, nrPattern, hc, hzero]

theorem grepO_nr_nr {i : Nat} (hi : i < 99) (hafter : EndsNumber after) :
    grepO nrPattern 0 (decimal (bandNumber 5 101 i) ++ after)
      = decimal (bandNumber 5 101 i) :: grepO nrPattern 0 after := by
  apply grepO_match (decimal_ne_nil _)
  rw [decimal_nr i hi]
  obtain ⟨x, hx, hd | ⟨y, hy, hd⟩⟩ := decimal_two_cases (n := i + 1) (by omega) <;>
    rcases hafter.cases with rfl | ⟨c, cs, rfl, hc⟩
  · simp [hd, nrPattern, hx]
  · simp [hd, nrPattern, hx, hc]
  · simp [hd, nrPattern, hx, hy]
  · simp [hd, nrPattern, hx, hy, hc]

end Searches

/-! ### The list inside the reply -/

def commaList (number : Nat → Nat) (l : List Nat) : List Char :=
  l.flatMap fun i => ',' :: decimal (number i)

variable {after s : List Char}

theorem endsNumber_commaList (number : Nat → Nat) (l : List Nat) (hafter : EndsNumber after) :
    EndsNumber (commaList number l ++ after) := by
  cases l with
  | nil => exact hafter
  | cons i l =>
    intro c hc
    have hcomma : c = ',' := by simpa [commaList, eq_comm] using hc
    subst hcomma
    decide

theorem grepO_commaList {pattern : List Char → Nat} (hstart : StartsAt Char.isDigit pattern)
    {number : Nat → Nat} (found : Nat → List (List Char)) (l : List Nat) (hafter : EndsNumber after)
    (hfind : ∀ i ∈ l, ∀ rest, EndsNumber rest →
      grepO pattern 0 (decimal (number i) ++ rest) = found i ++ grepO pattern 0 rest) :
    grepO pattern 0 (commaList number l ++ after) = l.flatMap found ++ grepO pattern 0 after := by
  induction l with
  | nil => rfl
  | cons i l ih =>
    have hrest := endsNumber_commaList number l hafter
    have hcomma : Free Char.isDigit [','] := Free.cons (by decide) (Free.nil _)
    have hsplit : commaList number (i :: l) ++ after
        = [','] ++ (decimal (number i) ++ (commaList number l ++ after)) := by
      simp [commaList]
    rw [hsplit, grepO_free hstart _ _ hcomma, hfind i (by simp) _ hrest,
      ih fun j hj => hfind j (by simp [hj]), flatMap_cons, append_assoc]

theorem ltePattern_startsAt_one : StartsAt (· == '1') ltePattern := by
  intro c cs hc
  match cs with
  | [] => rfl
  | [_] => rfl
  | _ :: _ :: _ => simp [ltePattern, beq_eq_false_iff_ne.mp hc]

theorem nrPattern_startsAt_five : StartsAt (· == '5') nrPattern := by
  intro c cs hc
  match cs with
  | [] => rfl
  | _ :: _ => simp [nrPattern, beq_eq_false_iff_ne.mp hc]

theorem grepO_lte_short (hafter : EndsNumber after) :
    grepO ltePattern 0 ('1' :: after) = grepO ltePattern 0 after ∧
    ∀ d, grepO ltePattern 0 ('1' :: d :: after) = grepO ltePattern 0 (d :: after) := by
  rcases hafter.cases with rfl | ⟨c, cs, rfl, hc⟩
  · exact ⟨rfl, fun _ => rfl⟩
  · refine ⟨?_, fun d => ?_⟩
    · cases cs <;> simp [grepO, ltePattern, hc]
    · simp only [grepO, ltePattern, hc]
      simp

theorem grepO_access (uVid : Vendor) (fm150 : Bool) (lte mask5g : List Char)
    (hafter : EndsNumber after) :
    grepO ltePattern 0 (access uVid fm150 lte mask5g ++ after) = grepO ltePattern 0 after ∧
    grepO nrPattern 0 (access uVid fm150 lte mask5g ++ after) = grepO nrPattern 0 after := by
  have hcomma : ∀ text, EndsNumber (',' :: text) := fun text c hc => by
    cases Option.mem_some.mp hc
    decide
  constructor
  · unfold access
    split_ifs
    · exact grepO_free ltePattern_startsAt_one "4,3,3".toList _ (by decide)
    · exact ((grepO_lte_short (hcomma _)).2 '7').trans
        (grepO_free ltePattern_startsAt_one "7,3,6".toList _ (by decide))
    · exact grepO_free ltePattern_startsAt_one "4,3,".toList _ (by decide)
    · exact ((grepO_lte_short (hcomma _)).2 '4').trans
        (grepO_free ltePattern_startsAt_one "4,,".toList _ (by decide))
    · exact ((grepO_lte_short (hcomma _)).2 '7').trans
        (grepO_free ltePattern_startsAt_one "7,6,".toList _ (by decide))
    · exact (grepO_free ltePattern_startsAt_one "4,2,".toList _ (by decide)).trans
        (grepO_lte_short hafter).1
  · apply grepO_free nrPattern_startsAt_five
    unfold access
    split_ifs <;> decide

/-! ### What is sent -/

theorem encode_ne_nil (hs : IsBits s) (hlen : s.length ≤ 272) (hone : '1' ∈ s) : encode s ≠ [] := by
  intro hnil
  obtain ⟨i, hi⟩ := getElem?_of_mem hone
  have hmem : i ∈ onesFrom 0 s := mem_onesFrom.mpr ⟨Nat.zero_le i, by simpa using hi⟩
  rw [← onesFrom_nibbleLoop_encode hs hlen, hnil] at hmem
  simp [nibbleLoop, onesFrom] at hmem

/-- The list `fibdecode` makes for a selection, behind a comma; nothing for the empty selection. -/
theorem list_encode (hs : IsBits s) (hlen : s.length ≤ 272) (tdec : Nat) :
    (if encode s = [] then [] else ',' :: fibdecode (encode s) tdec 0)
      = commaList (bandNumber tdec 101) (onesFrom 0 s) := by
  by_cases hone : '1' ∈ s
  · rw [if_neg (encode_ne_nil hs hlen hone), fibdecode_encode hs hlen hone]
    cases hones : onesFrom 0 s with
    | nil =>
      obtain ⟨i, hi⟩ := getElem?_of_mem hone
      have hmem : i ∈ onesFrom 0 s := mem_onesFrom.mpr ⟨Nat.zero_le i, by simpa using hi⟩
      simp [hones] at hmem
    | cons i l =>
      have hjoin := intercalate_cons_flatMap (fun i => decimal (bandNumber tdec 101 i)) ',' i l
      simpa [commaList] using hjoin
  · have hnone : onesFrom 0 s = [] := onesFrom_eq_nil (fun c hc heq => hone (heq ▸ hc)) 0
    rw [if_pos (encode_eq_nil hone), hnone]
    rfl

theorem lockArgs_encode (uVid : Vendor) (fm150 : Bool) {lte nr : List Char} (hlte : IsBits lte)
    (hnr : IsBits nr) (hltelen : lte.length ≤ 272) (hnrlen : nr.length ≤ 272) :
    lockArgs uVid fm150 (encode lte) (encode nr)
      = access uVid fm150 (lteList (encode lte)) (encode nr)
        ++ (commaList (bandNumber 1 101) (onesFrom 0 lte)
          ++ commaList (bandNumber 5 101) (if sendsNr uVid fm150 then onesFrom 0 nr else [])) := by
  have h1 : lteList (encode lte) = commaList (bandNumber 1 101) (onesFrom 0 lte) :=
    list_encode hlte hltelen 1
  have h5 : nrList (encode nr) = commaList (bandNumber 5 101) (onesFrom 0 nr) :=
    list_encode hnr hnrlen 5
  simp only [lockArgs]
  rw [h5, h1]
  cases sendsNr uVid fm150 <;> rfl

def isArgChar (c : Char) : Bool := c.isDigit || c = ','

theorem free_commaList (number : Nat → Nat) (l : List Nat) :
    Free (fun c => !isArgChar c) (commaList number l) := by
  intro c hc
  simp only [commaList, mem_flatMap, mem_cons] at hc
  obtain ⟨i, -, rfl | hd⟩ := hc
  · decide
  · simp [isArgChar, isDigit_of_mem_decimal hd]

theorem free_access (uVid : Vendor) (fm150 : Bool) (lte mask5g : List Char) :
    Free (fun c => !isArgChar c) (access uVid fm150 lte mask5g) := by
  unfold access
  split_ifs <;> decide

theorem access_ne_nil (uVid : Vendor) (fm150 : Bool) (lte mask5g : List Char) :
    access uVid fm150 lte mask5g ≠ [] := by
  unfold access
  split_ifs <;> decide

/-! ### What is read back -/

/-- The reply to the read command carries `args` behind its tag; around them there are no digits. -/
def Reports (tag reply args : List Char) : Prop :=
  ∃ before mid after, Free Char.isDigit before ∧ Free Char.isDigit mid ∧
    Free Char.isDigit after ∧ reply = before ++ (tag ++ (mid ++ (args ++ after)))

/-- The modem reports `args` to the command that `fibomask` uses. -/
def ReportsLock (m : Modem) (args : List Char) : Prop :=
  if readsGtact m then Reports "+GTACT:".toList m.gtactRead args
  else Reports "+XACT:".toList m.xactRead args

theorem not_isBlank_of_isArgChar {c : Char} (h : isArgChar c = true) :
    isBlank c = false ∧ c ≠ '"' ∧ c ≠ ' ' := by
  refine ⟨?_, ?_, ?_⟩
  · rcases hb : isBlank c with _ | _
    · rfl
    · simp only [isBlank, Bool.or_eq_true, decide_eq_true_eq] at hb
      rcases hb with (rfl | rfl) | rfl <;> exact absurd h (by decide)
  · rintro rfl; exact absurd h (by decide)
  · rintro rfl; exact absurd h (by decide)

/-- **The arguments survive the clean-up of the reply.** -/
theorem cleanReply_reports {tag reply args : List Char} (hreport : Reports tag reply args)
    (htag : Free isBlank tag) (htagdigit : Free Char.isDigit tag) (htagne : tag ≠ [])
    (hargs : Free (fun c => !isArgChar c) args) (hne : args ≠ []) :
    ∃ before after, Free Char.isDigit before ∧ Free Char.isDigit after ∧
      cleanReply tag reply = before ++ (args ++ after) := by
  obtain ⟨pre, mid, post, hpre, hmid, hpost, rfl⟩ := hreport
  have hargchar : ∀ c ∈ args, isArgChar c = true := fun c hc => by simpa using hargs c hc
  have hblank : Free isBlank args := fun c hc => (not_isBlank_of_isArgChar (hargchar c hc)).1
  have hspace : Char.isDigit ' ' = false := by decide
  -- the line contains the tag
  have hline : tag <:+: echo [' '] false false (pre ++ (tag ++ (mid ++ (args ++ post)))) := by
    obtain ⟨out, s1, p1, -, h1⟩ := echo_append [' '] pre
      (tag ++ (mid ++ (args ++ post))) rfl (fun _ _ => rfl) false false
    obtain ⟨out2, -, h2⟩ := echo_word (p := fun _ => false) [' '] (mid ++ (args ++ post))
      htagne htag rfl s1 p1
    rw [h1, h2]
    exact ⟨out ++ out2, echo [' '] true false (mid ++ args ++ post), by simp⟩
  -- the line is the arguments between two texts without digits
  obtain ⟨out, s1, p1, hout, h1⟩ := echo_append [' '] (pre ++ (tag ++ mid)) (args ++ post) hspace
    (hpre.append (htagdigit.append hmid)) false false
  obtain ⟨out2, hout2, h2⟩ := echo_word [' '] post hne hblank hspace s1 p1
  have hquoted : Free Char.isDigit [' '] := Free.cons hspace (Free.nil _)
  have hend : Free Char.isDigit (echo [' '] true false post) :=
    free_echo hquoted hspace post hpost true false
  have hassoc : pre ++ (tag ++ (mid ++ (args ++ post)))
      = pre ++ (tag ++ mid) ++ (args ++ post) := by
    simp
  rw [cleanReply, if_pos hline, hassoc, h1, h2]
  have hclean : ∀ text : List Char, Free Char.isDigit text →
      Free Char.isDigit ((text.filter (· ≠ '"')).map fun c => if c = ' ' then ',' else c) := by
    intro text htext c hc
    obtain ⟨d, hd, rfl⟩ := mem_map.mp hc
    have hd' := htext d (mem_of_mem_filter hd)
    split_ifs
    · decide
    · exact hd'
  have hkeep : (args.filter (· ≠ '"')).map (fun c => if c = ' ' then ',' else c) = args := by
    rw [filter_eq_self.mpr]
    · conv_rhs => rw [← map_id args]
      refine map_congr_left fun c hc => ?_
      simp [(not_isBlank_of_isArgChar (hargchar c hc)).2.2]
    · intro c hc
      simpa using (not_isBlank_of_isArgChar (hargchar c hc)).2.1
  refine ⟨_, _, hclean _ (hout.append hout2), hclean _ hend, ?_⟩
  simp only [filter_append, map_append, hkeep, append_assoc]

theorem bandReply_reports {m : Modem} {args : List Char} (hreport : ReportsLock m args)
    (hargs : Free (fun c => !isArgChar c) args) (hne : args ≠ []) :
    ∃ before after, Free Char.isDigit before ∧ Free Char.isDigit after ∧
      bandReply m = before ++ (args ++ after) := by
  rw [ReportsLock] at hreport
  rw [bandReply]
  by_cases hread : readsGtact m = true
  · rw [if_pos hread] at hreport ⊢
    exact cleanReply_reports hreport (by decide) (by decide)
      (by decide) hargs hne
  · rw [if_neg hread] at hreport ⊢
    obtain ⟨before, after, hb, ha, heq⟩ := cleanReply_reports hreport (by decide)
      (by decide) (by decide) hargs hne
    refine ⟨before, after, hb, ha, ?_⟩
    have hcne : before ++ (args ++ after) ≠ [] := by simp [hne]
    simp only [heq, if_neg hcne]

theorem grepO_bandReply (uVid : Vendor) (fm150 : Bool) (lteArg mask5g : List Char)
    {ltes nrs : List Nat} (hlte : ∀ i ∈ ltes, i < 99) (hnr : ∀ i ∈ nrs, i < 99) {before : List Char}
    (hbefore : Free Char.isDigit before) (hafter : Free Char.isDigit after) :
    let text := before ++ ((access uVid fm150 lteArg mask5g ++ (commaList (bandNumber 1 101) ltes
      ++ commaList (bandNumber 5 101) nrs)) ++ after)
    grepO ltePattern 0 text = ltes.map (fun i => decimal (bandNumber 1 101 i)) ∧
    grepO nrPattern 0 text = nrs.map (fun i => decimal (bandNumber 5 101 i)) := by
  have hend : EndsNumber after := EndsNumber.of_free hafter
  have hnrs : EndsNumber (commaList (bandNumber 5 101) nrs ++ after) :=
    endsNumber_commaList _ _ hend
  have hltes := endsNumber_commaList (bandNumber 1 101) ltes hnrs
  have hnone : ∀ {pattern : List Char → Nat}, StartsAt Char.isDigit pattern →
      grepO pattern 0 after = [] := by
    intro pattern hstart
    have h := grepO_free hstart after [] hafter
    simpa [grepO] using h
  simp only [append_assoc]
  constructor
  · rw [grepO_free ltePattern_startsAt _ _ hbefore, (grepO_access uVid fm150 _ _ hltes).1,
      grepO_commaList ltePattern_startsAt (fun i => [decimal _]) ltes hnrs fun i hi rest _ =>
        grepO_lte_lte (hlte i hi),
      grepO_commaList ltePattern_startsAt (fun _ => []) nrs hend fun i hi rest =>
        grepO_lte_nr (hnr i hi), hnone ltePattern_startsAt]
    simp [map_eq_flatMap]
  · rw [grepO_free nrPattern_startsAt _ _ hbefore, (grepO_access uVid fm150 _ _ hltes).2,
      grepO_commaList nrPattern_startsAt (fun _ => []) ltes hnrs fun i hi rest =>
        grepO_nr_lte (hlte i hi),
      grepO_commaList nrPattern_startsAt (fun i => [decimal _]) nrs hend fun i hi rest =>
        grepO_nr_nr (hnr i hi), hnone nrPattern_startsAt]
    simp [map_eq_flatMap]

theorem lteBand_map :
    ((onesFrom 0 s).map fun i => decimal (bandNumber 1 101 i)).map lteBand
      = (onesFrom 1 s).map decimal := by
  rw [onesFrom_shift s 0 1, map_map, map_map]
  refine map_congr_left fun i _ => ?_
  have hread : Nat.ofDigitChars 10 (decimal (bandNumber 1 101 i)) 0 = i + 101 :=
    Nat.ofDigitChars_ten_toDigits
  simp [lteBand, hread]

theorem nrBand_map (hs : ∀ i ∈ onesFrom 0 s, i < 99) :
    ((onesFrom 0 s).map fun i => decimal (bandNumber 5 101 i)).map (drop 2)
      = (onesFrom 1 s).map decimal := by
  rw [onesFrom_shift s 0 1, map_map, map_map]
  refine map_congr_left fun i hi => ?_
  simp [decimal_nr i (hs i hi)]

theorem reverse_encodemask (hs : IsBits s) (hlen : s.length ≤ 272) (i : Nat) :
    (reverse ("0x".toList ++ encodemask ((onesFrom 1 s).map decimal)))[i]? = some '1'
      ↔ s[i]? = some '1' := by
  have hdrop : ("0x".toList ++ encodemask ((onesFrom 1 s).map decimal)).drop 2
      = encodemask ((onesFrom 1 s).map decimal) := rfl
  have hget : ∀ l : List Char, l[i]? = some '1' ↔ l[i]?.getD '0' = '1' := by
    intro l
    cases l[i]? <;> simp
  rw [hget, hget s, reverse, hdrop, nibbleLoop_encodemask hs hlen, getD_append_zeros,
    getD_append_zeros]

def BandsBelow100 (s : List Char) : Prop := ∀ i : Nat, s[i]? = some '1' → i < 99

theorem BandsBelow100.onesFrom (h : BandsBelow100 s) : ∀ i ∈ onesFrom 0 s, i < 99 := by
  intro i hi
  exact h i (by simpa using (mem_onesFrom.mp hi).2)

theorem onesFrom_one_eq_nil_iff :
    (onesFrom 1 s).map decimal = [] ↔ ∀ i : Nat, s[i]? ≠ some '1' := by
  rw [map_eq_nil_iff]
  constructor
  · intro h i hi
    have hmem : i + 1 ∈ onesFrom 1 s := mem_onesFrom.mpr ⟨by omega, by simpa using hi⟩
    rw [h] at hmem
    cases hmem
  · intro h
    apply eq_nil_iff_forall_not_mem.mpr
    intro b hb
    exact h _ (mem_onesFrom.mp hb).2

theorem reverse_zero (i : Nat) : (reverse "0x0".toList)[i]? ≠ some '1' := by
  have hz : reverse "0x0".toList = replicate 98 '0' := by decide
  rw [hz, getElem?_replicate]
  split_ifs <;> simp

/-- **Read-back of a Fibocom lock is faithful.**  If the modem reports the list that
    `lock.sh` sent for a selection of LTE and NR bands below 100, the stored masks
    have their ones exactly at the LTE bands and at the NR bands sent. -/
theorem fibomask_reads_lock (uVid : Vendor) (fm150 : Bool) (lte nr : List Char)
    (hlte : IsBits lte) (hnr : IsBits nr) (hltelen : lte.length ≤ 272) (hnrlen : nr.length ≤ 272)
    (hlte99 : BandsBelow100 lte) (hnr99 : BandsBelow100 nr) (m : Modem)
    (hreport : ReportsLock m (lockArgs uVid fm150 (encode lte) (encode nr))) (i : Nat) :
    ((reverse (fibomask m).1)[i]? = some '1' ↔ lte[i]? = some '1') ∧
    ((maskLine (fibomask m).2)[i]? = some '1'
      ↔ sendsNr uVid fm150 = true ∧ nr[i]? = some '1') := by
  -- only the NR bands that are sent can come back
  obtain ⟨sent, hsent, hsentbits, hsentlen, hsent99, hsentiff⟩ : ∃ sent : List Char,
      (if sendsNr uVid fm150 then onesFrom 0 nr else []) = onesFrom 0 sent ∧ IsBits sent ∧
      sent.length ≤ 272 ∧ BandsBelow100 sent ∧
      ∀ j : Nat, sent[j]? = some '1' ↔ sendsNr uVid fm150 = true ∧ nr[j]? = some '1' := by
    by_cases hs : sendsNr uVid fm150 = true
    · exact ⟨nr, by simp [hs], hnr, hnrlen, hnr99, by simp [hs]⟩
    · refine ⟨[], by simp [hs, onesFrom], ?_, by simp, ?_, by simp [hs]⟩
      · intro c hc
        cases hc
      · intro j hj
        simp at hj
  rw [lockArgs_encode uVid fm150 hlte hnr hltelen hnrlen, hsent] at hreport
  have hargs := (free_access uVid fm150 (lteList (encode lte)) (encode nr)).append
    ((free_commaList (bandNumber 1 101) (onesFrom 0 lte)).append
      (free_commaList (bandNumber 5 101) (onesFrom 0 sent)))
  have hne := access_ne_nil uVid fm150 (lteList (encode lte)) (encode nr)
  obtain ⟨before, after, hbefore, hafter, hbr⟩ :=
    bandReply_reports hreport hargs (by simp [hne])
  obtain ⟨hfindlte, hfindnr⟩ := grepO_bandReply uVid fm150 (lteList (encode lte)) (encode nr)
    hlte99.onesFrom hsent99.onesFrom hbefore hafter
  rw [← hbr] at hfindlte hfindnr
  simp only [fibomask, hfindlte, hfindnr, lteBand_map, nrBand_map hsent99.onesFrom]
  constructor
  · by_cases hnil : (onesFrom 1 lte).map decimal = []
    · have hno := onesFrom_one_eq_nil_iff.mp hnil i
      simpa [hnil, hno] using reverse_zero i
    · rw [if_neg hnil]
      exact reverse_encodemask hlte hltelen i
  · rw [← hsentiff]
    by_cases hnil : (onesFrom 1 sent).map decimal = []
    · have hno := onesFrom_one_eq_nil_iff.mp hnil i
      rw [if_pos hnil]
      cases nrSupport m
      · cases i <;> simp [maskLine, hno]
      · simpa [maskLine, hno] using reverse_zero i
    · rw [if_neg hnil, maskLine]
      exact reverse_encodemask hsentbits hsentlen i

/-- An FM150 that was locked to the LTE bands 1 and 3 and the NR bands 5 and 10. -/
def lockedFm150 : Modem where
  idV := "2cb7".toList
  idP := "0104".toList
  gtactTest := "AT+GTACT=? +GTACT: (1,2,4,10,14,16,17,20),(2,3,6)".toList
  gtactRead := "AT+GTACT?\n+GTACT: 17,6,,101,103,505,5010\n\nOK".toList
  xactRead := "ERROR".toList

theorem fibomask_reads_lock_fm150 :
    lockArgs .v2cb7 true (encode "101".toList) (encode "0000100001".toList)
      = "17,6,,101,103,505,5010".toList ∧
    ∀ i : Nat, ((reverse (fibomask lockedFm150).1)[i]? = some '1' ↔ ("101".toList)[i]? = some '1') ∧
      ((maskLine (fibomask lockedFm150).2)[i]? = some '1'
        ↔ sendsNr .v2cb7 true = true ∧ ("0000100001".toList)[i]? = some '1') := by
  have hargs : lockArgs .v2cb7 true (encode "101".toList) (encode "0000100001".toList)
      = "17,6,,101,103,505,5010".toList := by decide +kernel
  have hread : readsGtact lockedFm150 = true := by decide +kernel
  have hbelow : ∀ s : List Char, s.length ≤ 99 → BandsBelow100 s := by
    intro s hlen i hi
    have := (List.getElem?_eq_some_iff.mp hi).1
    omega
  refine ⟨hargs, fibomask_reads_lock .v2cb7 true "101".toList "0000100001".toList
    (by decide +kernel) (by decide +kernel) (by decide +kernel) (by decide +kernel)
    (hbelow _ (by decide +kernel)) (hbelow _ (by decide +kernel)) lockedFm150 ?_⟩
  rw [ReportsLock, if_pos hread]
  exact ⟨"AT+GTACT?\n".toList, [' '], "\n\nOK".toList, by decide +kernel,
    by decide +kernel, by decide +kernel, by decide +kernel⟩

/-- A modem of vendor 8087 that was locked to the same LTE bands. -/
def locked8087 : Modem where
  idV := "8087".toList
  idP := "095a".toList
  gtactTest := "ERROR".toList
  gtactRead := "ERROR".toList
  xactRead := "AT+XACT?\n+XACT: 4,2,1,101,103\n\nOK".toList

/-- For this vendor NR bands are not sent, and so a selected one does not come back. -/
theorem not_fibomask_reads_lock :
    ReportsLock locked8087 (lockArgs .v8087 false (encode "101".toList) (encode "00001".toList)) ∧
      (maskLine (fibomask locked8087).2)[4]? ≠ some '1' ∧ ("00001".toList)[4]? = some '1' := by
  have hread : ¬ readsGtact locked8087 = true := by decide +kernel
  refine ⟨?_, by decide +kernel, rfl⟩
  rw [ReportsLock, if_neg hread]
  exact ⟨"AT+XACT?\n".toList, [' '], "\n\nOK".toList, by decide +kernel,
    by decide +kernel, by decide +kernel, by decide +kernel⟩

end Rooter.FibocomBands
