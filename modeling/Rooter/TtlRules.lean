import Mathlib.Data.Fintype.Prod
import Mathlib.Data.List.TakeWhile
import Rooter.Numeral
import Rooter.MarkedBlocks

/-!
# The rules of `handlettl.sh`

`handlettl.sh` keeps the rules that set the TTL and the hop limit of a modem's packets in
`/etc/firewall.user`, each in a block of lines between two markers with the number of the
modem.  It takes out the modem's blocks with `sed` and puts new ones behind the last line with
`echo`; the texts of the rules, for the hop limit too, are put together where the TTL is set.

A value of `TTL` or `HL` is a number or the text `TTL-INC 1` of the page.
-/

namespace Rooter.TtlRules

open List Numeral MarkedBlocks

/-! ### Settings -/

/-- A value of `TTL` or `HL`.  The custom ones are free texts; covered are decimal numbers and
    `TTL-INC 1`. -/
inductive Value where
  | num (n : Nat)
  | inc
deriving DecidableEq, Repr

def Value.text : Value → Text
  | num n => decimal n
  | inc => "TTL-INC 1".toList

/-- `ttloption`: the values 0 and 1, and any other. -/
inductive TtlOption where
  | both
  | post
  | icmp
deriving DecidableEq, Repr

structure Section where
  ttl : Option Value
  cttl : Option Value
  hl : Option Value
  chl : Option Value
  ttloption : Option TtlOption

structure Setting where
  ttl : Value
  cttl : Value
  hl : Value
  chl : Value
  ttloption : TtlOption

/-- The section with the defaults of the script; that of `ttl` is not the same for both. -/
def Section.read (sec : Section) (ttl : Value) : Setting where
  ttl := sec.ttl.getD ttl
  cttl := sec.cttl.getD (.num 65)
  hl := sec.hl.getD (.num 0)
  chl := sec.chl.getD (.num 65)
  ttloption := sec.ttloption.getD .both

/-- What the script reads: `modem.modeminfo$CURRMODEM`, `ttl.ttl.enabled`, `ttl.ttl`, the
    interface of the modem, whether the release is one with `iptables`, and `$2`. -/
structure Config where
  modem : Section
  enabled : Bool
  common : Section
  interface : Text
  iptables : Bool
  hostless : Bool
  plain : ∀ c ∈ interface, c ≠ '#' ∧ c ≠ '\n'

/-- The setting of the modem or, where it says "Use Current Value", the common one; there is
    none when that is switched off. -/
def Config.setting (cfg : Config) : Option Setting :=
  let setting := cfg.modem.read (.num 0)
  if setting.ttl = .num 0 then
    if cfg.enabled then some (cfg.common.read (.num 1)) else none
  else some setting

/-- The variables `TTL`, `HL` and `TTLOPTION`. -/
structure Vars where
  ttl : Value
  hl : Value
  ttloption : TtlOption

def Setting.vars (setting : Setting) : Vars :=
  let ttl := if setting.ttl = .num 2 then setting.cttl else setting.ttl
  let hl := if setting.hl = .num 0 then ttl else setting.hl
  let hl := if hl = .num 2 then setting.chl else hl
  { ttl := ttl, hl := hl, ttloption := setting.ttloption }

/-- `let HL=$HL+1`: in `let HL=TTL-INC 1+1` the first word is the value of `TTL`. -/
def letHl (ttl : Nat) : Value → Value
  | .num n => .num (n + 1)
  | .inc => .num ttl

/-- The variables where rules for the TTL are made: `TTL-INC 1` stands for 64, and for a
    hostless modem one more is set. -/
def Vars.adjust (hostless : Bool) (v : Vars) : Vars :=
  let ttl := match v.ttl with
    | .num n => n
    | .inc => 64
  let ttloption := if v.ttl = .inc then .both else v.ttloption
  if hostless then
    { ttl := .num (ttl + 1), hl := letHl (ttl + 1) v.hl, ttloption := ttloption }
  else { ttl := .num ttl, hl := v.hl, ttloption := ttloption }

/-! ### Rules -/

/-- The variables `r1` to `r6`, which are empty at first. -/
structure Rules where
  r1 : Text := []
  r2 : Text := []
  r3 : Text := []
  r4 : Text := []
  r5 : Text := []
  r6 : Text := []

def rules (iptables : Bool) (iface ttl hl : Text) : Rules :=
  if iptables then
    { r1 := "iptables -t mangle -I POSTROUTING -o ".toList ++ iface ++
        " -j TTL --ttl-set ".toList ++ ttl
      r2 := "iptables -t mangle -I PREROUTING -i ".toList ++ iface ++
        " -j TTL --ttl-set ".toList ++ ttl
      r3 := "iptables -t mangle -I POSTROUTING -p icmp -o ".toList ++ iface ++
        " -j TTL --ttl-set ".toList ++ ttl
      r4 := "ip6tables -t mangle -I POSTROUTING ! -p icmpv6 -o ".toList ++ iface ++
        " -j HL --hl-set ".toList ++ hl
      r5 := "ip6tables -t mangle -I PREROUTING ! -p icmpv6 -i ".toList ++ iface ++
        " -j HL --hl-set ".toList ++ hl
      r6 := "ip6tables -t mangle -I POSTROUTING ! -p icmpv6 -o ".toList ++ iface ++
        " -j HL --hl-set ".toList ++ hl }
  else
    { r1 := "nft add rule inet fw4 mangle_postrouting oifname ".toList ++ iface ++
        " ip ttl set ".toList ++ ttl
      r2 := "nft add rule inet fw4 mangle_prerouting oifname ".toList ++ iface ++
        " ip ttl set ".toList ++ ttl
      r3 := "nft add rule inet fw4 mangle_postrouting protocol icmp oifname ".toList ++ iface ++
        " ip ttl set ".toList ++ ttl
      r4 := "nft add rule inet fw4 mangle_postrouting oifname ".toList ++ iface ++
        " ip6 hoplimit set ".toList ++ hl
      r5 := "nft add rule inet fw4 mangle_prerouting oifname ".toList ++ iface ++
        " ip6 hoplimit set ".toList ++ hl
      r6 := "nft add rule inet fw4 mangle_postrouting protocol icmp oifname ".toList ++ iface ++
        " ip6 hoplimit set ".toList ++ hl }

def Rules.ttl (r : Rules) : TtlOption → List Text
  | .both => [r.r1, r.r2]
  | .post => [r.r1]
  | .icmp => [r.r3]

def Rules.hl (r : Rules) : TtlOption → List Text
  | .both => [r.r4, r.r5]
  | .post => [r.r4]
  | .icmp => [r.r6]

/-! ### The file -/

inductive Kind where
  | ttl
  | hl
deriving DecidableEq, Repr

instance : Fintype Kind := ⟨{.ttl, .hl}, fun k => by cases k <;> decide⟩

def Kind.text : Kind → Text
  | .ttl => "TTL".toList
  | .hl => "HL".toList

def startMarker (k : Kind × Fin 10) : Text :=
  "#start".toList ++ k.1.text ++ [Nat.digitChar k.2]

def stopMarker (k : Kind × Fin 10) : Text :=
  "#end".toList ++ k.1.text ++ [Nat.digitChar k.2]

/-- `delTTL` and `delHL` -/
def delete (kind : Kind) (modem : Fin 10) (file : List Line) : List Line :=
  deleteRange (startMarker (kind, modem)) (stopMarker (kind, modem)) false file

/-- A block of lines put behind the file by `echo`. -/
def echoBlock (kind : Kind) (modem : Fin 10) (lines : List Text) (file : List Line) : List Line :=
  (startMarker (kind, modem) :: (lines ++ [stopMarker (kind, modem)])).foldl append file

def checkHL (modem : Fin 10) (hl : Value) (ttloption : TtlOption) (r : Rules)
    (file : List Line) : List Line :=
  if hl = .num 1 then delete .hl modem file
  else echoBlock .hl modem (r.hl ttloption) (delete .hl modem file)

def Config.iface (cfg : Config) (modem : Fin 10) : Text :=
  if modem = 0 then "wan".toList else cfg.interface

/-- `handlettl.sh` for a modem, as what it makes of `/etc/firewall.user`. -/
def handlettl (cfg : Config) (modem : Fin 10) (file : List Line) : List Line :=
  match cfg.setting with
  | none => delete .hl modem (delete .ttl modem file)
  | some setting =>
      let v := setting.vars
      if v.ttl = .num 1 then checkHL modem v.hl v.ttloption {} (delete .ttl modem file)
      else
        let v := v.adjust cfg.hostless
        let r := rules cfg.iptables (cfg.iface modem) v.ttl.text v.hl.text
        checkHL modem v.hl v.ttloption r
          (echoBlock .ttl modem (r.ttl v.ttloption) (delete .ttl modem file))

/-! ### Markers -/

def markers : Markers (Kind × Fin 10) where
  start := startMarker
  stop := stopMarker
  mark := '#'
  start_eq_cons k := ⟨_, rfl, by revert k; decide +kernel⟩
  stop_eq_cons k := ⟨_, rfl, by revert k; decide +kernel⟩
  start_prefix_inj := by decide +kernel
  stop_prefix_inj := by decide +kernel
  not_start_prefix_stop := by decide +kernel
  not_stop_prefix_start := by decide +kernel

/-! ### What is asked of the script -/

/-- The variables `HL` and `TTLOPTION` at "Checking HL". -/
def Config.hopLimit (cfg : Config) : Option (Value × TtlOption) :=
  cfg.setting.map fun setting =>
    let v := setting.vars
    if v.ttl = .num 1 then (v.hl, v.ttloption)
    else ((v.adjust cfg.hostless).hl, (v.adjust cfg.hostless).ttloption)

def Config.hopLimitRules (cfg : Config) (modem : Fin 10) (hl : Value) (ttloption : TtlOption) :
    List Text :=
  (rules cfg.iptables (cfg.iface modem) [] hl.text).hl ttloption

def blockLines (start stop : Text) (texts : List Text) : List Text :=
  ((texts.dropWhile (· ≠ start)).drop 1).takeWhile (· ≠ stop)

/-- A text file: all its lines but the last have their newline, and a last line without one is
    not empty. -/
def IsFile (file : List Line) : Prop :=
  ∃ texts, file = ofTexts texts ∨ ∃ last, last ≠ [] ∧ file = ofTexts texts ++ [⟨last, false⟩]

def isOwn (modem : Fin 10) (k : Kind × Fin 10) : Bool := k.2 = modem

/-- Only the blocks of the modem are touched: what is outside of them stays as it is, there is
    not more than one of each kind, nothing changes in a second run, and a hop limit that is
    to be set has its rules in the block for it. -/
structure OwnBlocksOnly (cfg : Config) (modem : Fin 10) (blocks : Blocks (Kind × Fin 10))
    (file : List Line) : Prop where
  outside : ∃ left : Blocks (Kind × Fin 10), left.Nested markers ∧
    (handlettl cfg modem file).map Line.text = left.render markers ∧
    left.drop (isOwn modem) = blocks.drop (isOwn modem)
  once : ∀ kind, ((handlettl cfg modem file).map Line.text).count (startMarker (kind, modem)) ≤ 1
  again : handlettl cfg modem (handlettl cfg modem file) = handlettl cfg modem file
  rules : ∀ hl ttloption, cfg.hopLimit = some (hl, ttloption) → hl ≠ .num 1 →
    ∀ rule ∈ cfg.hopLimitRules modem hl ttloption,
      rule ∈ blockLines (startMarker (.hl, modem)) (stopMarker (.hl, modem))
        ((handlettl cfg modem file).map Line.text)

/-- When that is so: if rules for the TTL are written, the file has to end with a newline or with
    the modem's own TTL block; if not, no hop limit may be set. -/
def Config.Sound (cfg : Config) (modem : Fin 10) (file : List Line) : Prop :=
  ∀ setting, cfg.setting = some setting →
    if setting.vars.ttl = .num 1 then setting.vars.hl = .num 1
    else ∀ last ∈ file.getLast?, last.newline = true ∨ last.text = stopMarker (.ttl, modem)

/-! ### Rules contain no marker -/

variable {cfg : Config} {setting : Setting} {modem : Fin 10} {blocks : Blocks (Kind × Fin 10)}
  {hlLines lines texts ttlLines : List Text} {file : List Line} {hl : Value} {kind : Kind}

def PlainLines (texts : List Text) : Prop := ∀ text ∈ texts, Blocks.Plain markers text

theorem plain_of_notMem {text : Text} (h : '#' ∉ text) : Blocks.Plain markers text := by
  intro k
  obtain ⟨tail, heq, -⟩ := markers.start_eq_cons k
  obtain ⟨tail', heq', -⟩ := markers.stop_eq_cons k
  constructor
  · intro hin
    exact h (hin.subset (by rw [heq]; exact mem_cons_self))
  · intro hin
    exact h (hin.subset (by rw [heq']; exact mem_cons_self))

theorem hash_notMem_decimal (n : Nat) : '#' ∉ decimal n := fun h =>
  absurd (isDigit_of_mem_decimal h) (by decide)

theorem hash_notMem_text (v : Value) : '#' ∉ v.text := by
  cases v with
  | num n => exact hash_notMem_decimal n
  | inc => decide

theorem hash_notMem_iface (cfg : Config) (modem : Fin 10) : '#' ∉ cfg.iface modem := by
  unfold Config.iface
  split_ifs
  · decide
  · exact fun h => (cfg.plain '#' h).1 rfl

theorem hash_notMem_rule {iface value before between : Text} (hiface : '#' ∉ iface)
    (hvalue : '#' ∉ value) (hfixed : '#' ∉ before ++ between) :
    '#' ∉ (String.ofList before).toList ++ iface ++ (String.ofList between).toList ++ value := by
  rw [mem_append] at hfixed
  simp [hfixed, hiface, hvalue]

theorem plain_rules {iface ttl hl : Text} (hiface : '#' ∉ iface) (httl : '#' ∉ ttl)
    (hhl : '#' ∉ hl) (iptables : Bool) (ttloption : TtlOption) :
    let r := rules iptables iface ttl hl
    PlainLines (r.ttl ttloption ++ r.hl ttloption) := by
  intro r rule h
  have hall : ∀ rule ∈ [r.r1, r.r2, r.r3, r.r4, r.r5, r.r6], '#' ∉ rule := by
    simp only [forall_mem_cons]
    cases iptables <;>
      refine ⟨hash_notMem_rule hiface httl ?_, hash_notMem_rule hiface httl ?_,
        hash_notMem_rule hiface httl ?_, hash_notMem_rule hiface hhl ?_,
        hash_notMem_rule hiface hhl ?_, hash_notMem_rule hiface hhl ?_, forall_mem_nil _⟩ <;> decide
  refine plain_of_notMem (hall rule ?_)
  cases ttloption <;> simp only [Rules.ttl, Rules.hl, cons_append, nil_append, mem_cons] at h ⊢ <;>
    tauto

theorem rules_hl_eq (iptables : Bool) (iface ttl hl : Text) (ttloption : TtlOption) :
    (rules iptables iface ttl hl).hl ttloption = (rules iptables iface [] hl).hl ttloption := by
  cases iptables <;> cases ttloption <;> rfl

/-- **A run that sets the TTL** writes rules without a marker, and the ones for the hop limit are
    the right ones. -/
theorem handlettl_of_ttl (hsetting : cfg.setting = some setting) (hon : setting.vars.ttl ≠ .num 1)
    (modem : Fin 10) :
    ∃ (r : Rules) (hl : Value) (ttloption : TtlOption),
      cfg.hopLimit = some (hl, ttloption) ∧
      r.hl ttloption = cfg.hopLimitRules modem hl ttloption ∧
      PlainLines (r.ttl ttloption) ∧ PlainLines (r.hl ttloption) ∧
      ∀ file, handlettl cfg modem file = checkHL modem hl ttloption r
        (echoBlock .ttl modem (r.ttl ttloption) (delete .ttl modem file)) := by
  have hiface := hash_notMem_iface cfg modem
  let v := setting.vars.adjust cfg.hostless
  have hplain := plain_rules hiface (hash_notMem_text v.ttl) (hash_notMem_text v.hl) cfg.iptables
    v.ttloption
  refine ⟨rules cfg.iptables (cfg.iface modem) v.ttl.text v.hl.text, v.hl, v.ttloption, ?_,
    rules_hl_eq _ _ _ _ _, fun text h => hplain text (mem_append_left _ h),
    fun text h => hplain text (mem_append_right _ h), fun file => ?_⟩
  · simp only [Config.hopLimit, hsetting, Option.map_some, if_neg hon, v]
  · simp only [handlettl, hsetting, if_neg hon, v]

/-! ### A file that ends with a newline where rules are written -/

def hlBlock (modem : Fin 10) (hl : Value) (lines : List Text) : Blocks (Kind × Fin 10) :=
  if hl = .num 1 then .nil else .block (.hl, modem) (.ofLines lines) .nil

def ownBlocks (modem : Fin 10) (ttlLines : List Text) (hl : Value) (hlLines : List Text) :
    Blocks (Kind × Fin 10) :=
  .block (.ttl, modem) (.ofLines ttlLines) (hlBlock modem hl hlLines)

theorem drop_own (modem : Fin 10) (blocks : Blocks (Kind × Fin 10)) :
    (blocks.drop (· = (.ttl, modem))).drop (· = (.hl, modem)) = blocks.drop (isOwn modem) := by
  rw [Blocks.drop_drop]
  congr 1
  funext ⟨kind, m⟩
  cases kind <;> simp [isOwn]

section Complete

variable (hblocks : blocks.Nested markers)

include hblocks

theorem delete_render (kind : Kind) : delete kind modem (ofTexts (blocks.render markers)) =
    ofTexts ((blocks.drop (· = (kind, modem))).render markers) := by
  have h := Blocks.deleteRange_render (kind, modem) hblocks []
  simpa [delete, markers, deleteRange] using h

omit hblocks in
theorem echoBlock_render (kind : Kind) (lines : List Text) :
    echoBlock kind modem lines (ofTexts (blocks.render markers)) =
      ofTexts ((blocks.join (.block (kind, modem) (.ofLines lines) .nil)).render markers) := by
  rw [echoBlock, foldl_append_ofTexts, Blocks.render_join, Blocks.render, Blocks.render_ofLines]
  rfl

theorem checkHL_render (hl : Value) (ttloption : TtlOption) (r : Rules) :
    checkHL modem hl ttloption r (ofTexts (blocks.render markers)) =
      ofTexts (((blocks.drop (· = (.hl, modem))).join
        (hlBlock modem hl (r.hl ttloption))).render markers) := by
  rw [checkHL, delete_render hblocks, hlBlock]
  split_ifs
  · rw [Blocks.join_nil]
  · rw [echoBlock_render]

/-- The rules for the TTL and the hop limit stand behind what is outside of the modem's blocks. -/
theorem checkHL_echoBlock {r : Rules} {ttloption : TtlOption} (httl : PlainLines (r.ttl ttloption))
    (hfile : delete .ttl modem file = ofTexts ((blocks.drop (· = (.ttl, modem))).render markers))
    (hl : Value) :
    checkHL modem hl ttloption r
        (echoBlock .ttl modem (r.ttl ttloption) (delete .ttl modem file)) =
      ofTexts (((blocks.drop (isOwn modem)).join
        (ownBlocks modem (r.ttl ttloption) hl (r.hl ttloption))).render markers) := by
  have hnested : ((blocks.drop (· = (.ttl, modem))).join
      (.block (.ttl, modem) (.ofLines (r.ttl ttloption)) .nil)).Nested markers :=
    Blocks.nested_join (Blocks.nested_drop hblocks _)
      ⟨Blocks.not_has_ofLines _ _, Blocks.nested_ofLines httl, trivial⟩
  rw [hfile, echoBlock_render, checkHL_render hnested, Blocks.drop_join, drop_own,
    Blocks.join_assoc]
  simp [ownBlocks, Blocks.drop, Blocks.drop_ofLines, Blocks.join]

end Complete

theorem not_has_drop_own : ¬ (blocks.drop (isOwn modem)).Has (kind, modem) := fun h => by
  have hnot := (Blocks.has_of_has_drop h).2
  simp [isOwn] at hnot

theorem startMarker_notMem (hblocks : blocks.Nested markers) :
    startMarker (kind, modem) ∉ (blocks.drop (isOwn modem)).render markers := fun h =>
  not_has_drop_own (Blocks.has_of_start_found (Blocks.nested_drop hblocks _) h infix_rfl)

theorem drop_own_ownBlocks : (ownBlocks modem ttlLines hl hlLines).drop (isOwn modem) = .nil := by
  unfold ownBlocks hlBlock
  split_ifs <;> simp [Blocks.drop, isOwn]

theorem nested_ownBlocks (httl : PlainLines ttlLines) (hhl : PlainLines hlLines) :
    (ownBlocks modem ttlLines hl hlLines).Nested markers := by
  unfold ownBlocks hlBlock
  split_ifs
  · exact ⟨Blocks.not_has_ofLines _ _, Blocks.nested_ofLines httl, trivial⟩
  · exact ⟨Blocks.not_has_ofLines _ _, Blocks.nested_ofLines httl,
      Blocks.not_has_ofLines _ _, Blocks.nested_ofLines hhl, trivial⟩

theorem startMarker_notMem_of_plain {k : Kind × Fin 10} (h : PlainLines texts) :
    startMarker k ∉ texts := fun hmem => (h _ hmem k).1 infix_rfl

theorem stopMarker_notMem_of_plain {k : Kind × Fin 10} (h : PlainLines texts) :
    stopMarker k ∉ texts := fun hmem => (h _ hmem k).2 infix_rfl

theorem startMarker_ne_startMarker : startMarker (.ttl, modem) ≠ startMarker (.hl, modem) := by
  intro heq
  have hfound : startMarker (.ttl, modem) <:+: startMarker (.hl, modem) := by rw [heq]
  have hkind := @Markers.start_infix_start _ markers (.ttl, modem) (.hl, modem) hfound
  simp at hkind

theorem stopMarker_ne_startMarker (k k' : Kind × Fin 10) : stopMarker k ≠ startMarker k' := by
  intro heq
  have hfound : stopMarker k <:+: startMarker k' := by rw [heq]
  exact markers.not_stop_infix_start k k' hfound

theorem count_ownBlocks_le (httl : PlainLines ttlLines) (hhl : PlainLines hlLines) :
    ((ownBlocks modem ttlLines hl hlLines).render markers).count (startMarker (kind, modem)) ≤
      1 := by
  have hcount : ∀ {texts}, PlainLines texts → texts.count (startMarker (kind, modem)) = 0 :=
    fun h => count_eq_zero.mpr (startMarker_notMem_of_plain h)
  have hkinds := @startMarker_ne_startMarker modem
  have hrender : (ownBlocks modem ttlLines hl hlLines).render markers =
      startMarker (.ttl, modem) :: ttlLines ++ stopMarker (.ttl, modem) ::
        if hl = .num 1 then [] else
          startMarker (.hl, modem) :: hlLines ++ [stopMarker (.hl, modem)] := by
    unfold ownBlocks hlBlock
    split_ifs <;> simp [Blocks.render, Blocks.render_ofLines, markers]
  rw [hrender]
  cases kind <;> split_ifs <;>
    simp [hcount httl, hcount hhl, hkinds, hkinds.symm, stopMarker_ne_startMarker]

theorem blockLines_append {start stop : Text} {before : List Text} (after : List Text)
    (hstart : start ∉ before) (hstop : stop ∉ lines) :
    blockLines start stop (before ++ start :: (lines ++ stop :: after)) = lines := by
  have hbefore : ∀ text ∈ before, decide (text ≠ start) = true := fun text ht =>
    decide_eq_true fun heq => hstart (heq ▸ ht)
  have hlines : ∀ text ∈ lines, decide (text ≠ stop) = true := fun text ht =>
    decide_eq_true fun heq => hstop (heq ▸ ht)
  unfold blockLines
  rw [dropWhile_append_of_pos hbefore, dropWhile_cons_of_neg (by simp), drop_succ_cons, drop_zero,
    takeWhile_append_of_pos hlines, takeWhile_cons_of_neg (by simp), append_nil]

theorem blockLines_of_notMem {start : Text} (stop : Text) (h : start ∉ texts) :
    blockLines start stop texts = [] := by
  have hall : texts.dropWhile (· ≠ start) = [] :=
    dropWhile_eq_nil_iff.mpr fun text ht => decide_eq_true fun heq => h (heq ▸ ht)
  unfold blockLines
  rw [hall]
  rfl

theorem blockLines_ownBlocks {before : List Text} (httl : PlainLines ttlLines)
    (hhl : PlainLines hlLines) (hne : hl ≠ .num 1) (hbefore : startMarker (.hl, modem) ∉ before) :
    blockLines (startMarker (.hl, modem)) (stopMarker (.hl, modem))
      (before ++ (ownBlocks modem ttlLines hl hlLines).render markers) = hlLines := by
  have hnot : startMarker (.hl, modem) ∉ before ++
      startMarker (.ttl, modem) :: ttlLines ++ [stopMarker (.ttl, modem)] := by
    simp [hbefore, startMarker_notMem_of_plain httl, startMarker_ne_startMarker.symm,
      (stopMarker_ne_startMarker _ _).symm]
  have hblock := blockLines_append [] hnot (stopMarker_notMem_of_plain (k := (.hl, modem)) hhl)
  simpa [ownBlocks, hlBlock, hne, Blocks.render, Blocks.render_ofLines, markers] using hblock

theorem map_text_delete {file' : List Line} (h : file.map Line.text = file'.map Line.text) :
    (delete kind modem file).map Line.text = (delete kind modem file').map Line.text := by
  rw [delete, map_text_deleteRange, h, ← map_text_deleteRange, delete]

section Ttl

variable (hblocks : blocks.Nested markers)

include hblocks

theorem ownBlocksOnly_of_ttl (hsetting : cfg.setting = some setting)
    (hon : setting.vars.ttl ≠ .num 1)
    (hfile : delete .ttl modem file = ofTexts ((blocks.drop (· = (.ttl, modem))).render markers)) :
    OwnBlocksOnly cfg modem blocks file := by
  obtain ⟨r, hl, ttloption, hhop, hrules, httl, hhl, hrun⟩ := handlettl_of_ttl hsetting hon modem
  have hleft := Blocks.nested_join (Blocks.nested_drop hblocks (isOwn modem))
    (@nested_ownBlocks modem _ _ hl httl hhl)
  have hdrop : ((blocks.drop (isOwn modem)).join (ownBlocks modem (r.ttl ttloption) hl
      (r.hl ttloption))).drop (isOwn modem) = blocks.drop (isOwn modem) := by
    rw [Blocks.drop_join, drop_own_ownBlocks, Blocks.join_nil, Blocks.drop_drop]
    simp
  have hlines := (hrun file).trans (checkHL_echoBlock hblocks httl hfile hl)
  have htexts : (handlettl cfg modem file).map Line.text = ((blocks.drop (isOwn modem)).join
      (ownBlocks modem (r.ttl ttloption) hl (r.hl ttloption))).render markers := by
    rw [hlines, map_text_ofTexts]
  refine ⟨⟨_, hleft, htexts, hdrop⟩, fun kind => ?_, ?_, ?_⟩
  · rw [htexts, Blocks.render_join, count_append,
      count_eq_zero.mpr (startMarker_notMem hblocks), Nat.zero_add]
    exact count_ownBlocks_le httl hhl
  · rw [hlines, hrun, checkHL_echoBlock hleft httl (delete_render hleft .ttl), hdrop]
  · intro hl' ttloption' hhop' hne rule hrule
    cases hhop.symm.trans hhop'
    rw [htexts, Blocks.render_join, blockLines_ownBlocks httl hhl hne
      (startMarker_notMem hblocks), hrules]
    exact hrule

theorem ownBlocksOnly_of_delete (htexts : file.map Line.text = blocks.render markers)
    (hrun : ∀ file, handlettl cfg modem file = delete .hl modem (delete .ttl modem file))
    (hhop : ∀ hl ttloption, cfg.hopLimit = some (hl, ttloption) → hl = .num 1) :
    OwnBlocksOnly cfg modem blocks file := by
  have hleft : (handlettl cfg modem file).map Line.text =
      (blocks.drop (isOwn modem)).render markers := by
    have hsame : file.map Line.text = (ofTexts (blocks.render markers)).map Line.text := by
      rw [htexts, map_text_ofTexts]
    rw [hrun, map_text_delete (map_text_delete hsame), delete_render hblocks,
      delete_render (Blocks.nested_drop hblocks _), map_text_ofTexts, drop_own]
  refine ⟨⟨_, Blocks.nested_drop hblocks _, hleft, ?_⟩, fun kind => ?_, ?_, ?_⟩
  · rw [Blocks.drop_drop]
    simp
  · rw [hleft, count_eq_zero.mpr (startMarker_notMem hblocks)]
    exact Nat.zero_le 1
  · -- no marker of the modem is left for a second run
    have hself : ∀ kind, delete kind modem (handlettl cfg modem file) =
        handlettl cfg modem file := by
      intro kind
      apply deleteRange_eq_self
      intro line hline hfound
      have hmem : line.text ∈ (blocks.drop (isOwn modem)).render markers :=
        hleft ▸ mem_map_of_mem hline
      exact not_has_drop_own
        (Blocks.has_of_start_found (Blocks.nested_drop hblocks _) hmem hfound)
    rw [hrun (handlettl cfg modem file), hself, hself]
  · intro hl ttloption h hne
    exact absurd (hhop hl ttloption h) hne

end Ttl

/-! ### A hop limit without a TTL -/

theorem hopLimitRules_ne_nil (cfg : Config) (modem : Fin 10) (hl : Value) (ttloption : TtlOption) :
    ∃ rule ∈ cfg.hopLimitRules modem hl ttloption, rule ≠ [] := by
  have hne : hl.text ≠ [] := by
    cases hl with
    | num n => exact decimal_ne_nil n
    | inc => decide
  unfold Config.hopLimitRules
  cases cfg.iptables <;> cases ttloption <;>
    exact ⟨_, mem_cons_self, append_ne_nil_of_right_ne_nil _ hne⟩

theorem eq_nil_of_mem_empty_hl {text : Text} {ttloption : TtlOption}
    (h : text ∈ ({} : Rules).hl ttloption) : text = [] := by
  cases ttloption <;> simpa [Rules.hl] using h

theorem isFile_delete (h : IsFile file) : IsFile (delete kind modem file) := by
  obtain ⟨texts, rfl | ⟨last, hlast, rfl⟩⟩ := h
  · exact ⟨_, .inl (deleteRange_ofTexts texts false)⟩
  · rw [delete, deleteRange_append]
    obtain ⟨left, hleft⟩ : ∃ left, deleteRange (startMarker (kind, modem))
        (stopMarker (kind, modem)) false (ofTexts texts) = ofTexts left :=
      ⟨_, deleteRange_ofTexts _ _⟩
    rw [hleft]
    refine ⟨left, ?_⟩
    cases rangeAfter (startMarker (kind, modem)) (stopMarker (kind, modem)) false (ofTexts texts)
    · by_cases hfound : startMarker (kind, modem) <:+: last
      · exact .inl (by simp [deleteRange, hfound])
      · exact .inr ⟨last, hlast, by simp [deleteRange, hfound]⟩
    · exact .inl (by by_cases hfound : stopMarker (kind, modem) <:+: last <;>
        simp [deleteRange])

/-- A block put behind a file without its marker: its lines are found, or the marker is glued to
    the last line and nothing is found. -/
theorem blockLines_echoBlock (hfile : IsFile file)
    (hnot : startMarker (kind, modem) ∉ file.map Line.text)
    (hstart : startMarker (kind, modem) ∉ lines) (hstop : stopMarker (kind, modem) ∉ lines) :
    blockLines (startMarker (kind, modem)) (stopMarker (kind, modem))
        ((echoBlock kind modem lines file).map Line.text) = lines ∨
      blockLines (startMarker (kind, modem)) (stopMarker (kind, modem))
        ((echoBlock kind modem lines file).map Line.text) = [] := by
  obtain ⟨texts, rfl | ⟨last, hlast, rfl⟩⟩ := hfile
  · left
    rw [echoBlock, foldl_append_ofTexts, map_text_ofTexts]
    rw [map_text_ofTexts] at hnot
    exact blockLines_append [] hnot hstop
  · right
    apply blockLines_of_notMem
    have hglued : last ++ startMarker (kind, modem) ≠ startMarker (kind, modem) := by
      simpa using hlast
    rw [map_append, map_text_ofTexts] at hnot
    rw [echoBlock, foldl_cons, append_glued, foldl_append_ofTexts, map_text_ofTexts]
    simp only [mem_append, mem_singleton, not_or] at hnot ⊢
    exact ⟨⟨hnot.1, hglued.symm⟩, hstart, (stopMarker_ne_startMarker _ _).symm⟩

theorem not_ownBlocksOnly_of_hl (hfile : IsFile file) (hsetting : cfg.setting = some setting)
    (hoff : setting.vars.ttl = .num 1) (hhl : setting.vars.hl ≠ .num 1) :
    ¬ OwnBlocksOnly cfg modem blocks file := by
  intro hown
  obtain ⟨rule, hrule, hne⟩ :=
    hopLimitRules_ne_nil cfg modem setting.vars.hl setting.vars.ttloption
  have hin := hown.rules setting.vars.hl setting.vars.ttloption
    (by simp [Config.hopLimit, hsetting, hoff]) hhl rule hrule
  have hrun : handlettl cfg modem file = echoBlock .hl modem
      (({} : Rules).hl setting.vars.ttloption) (delete .hl modem (delete .ttl modem file)) := by
    simp only [handlettl, hsetting, hoff, if_true, checkHL, if_neg hhl]
  rw [hrun] at hin
  have hempty : PlainLines (({} : Rules).hl setting.vars.ttloption) := fun text ht =>
    plain_of_notMem (by rw [eq_nil_of_mem_empty_hl ht]; simp)
  have hnot : startMarker (.hl, modem) ∉
      (delete .hl modem (delete .ttl modem file)).map Line.text := by
    intro hmem
    obtain ⟨line, hline, heq⟩ := mem_map.mp hmem
    exact (not_found_of_mem_deleteRange hline).2 (by rw [heq])
  rcases blockLines_echoBlock (isFile_delete (isFile_delete hfile)) hnot
    (startMarker_notMem_of_plain hempty) (stopMarker_notMem_of_plain hempty) with h | h
  · rw [h] at hin
    exact hne (eq_nil_of_mem_empty_hl hin)
  · rw [h] at hin
    simp at hin

/-! ### A line without a newline -/

/-- With the marker glued to the last line, the rules and the end of the block are left by the
    deletion of the other block, and the marker is not. -/
theorem delete_hl_glued (hblocks : blocks.Nested markers) {left : List Text} {last : Text}
    (hrender : blocks.render markers = left ++ [last]) (hlast : last ≠ [])
    (hleft : startMarker (.ttl, modem) ∉ left) (hlines : PlainLines lines) :
    ∃ kept, delete .hl modem (echoBlock .ttl modem lines (ofTexts left ++ [⟨last, false⟩])) =
        ofTexts (kept ++ (lines ++ [stopMarker (.ttl, modem)])) ∧
      startMarker (.ttl, modem) ∉ kept := by
  have hkinds : (Kind.hl, modem) ≠ (.ttl, modem) := by simp
  have hrange := Blocks.rangeAfter_glued hkinds hblocks hrender
  have hecho : echoBlock .ttl modem lines (ofTexts left ++ [⟨last, false⟩]) =
      ofTexts (left ++ [last ++ startMarker (.ttl, modem)]) ++
        ofTexts (lines ++ [stopMarker (.ttl, modem)]) := by
    rw [echoBlock, foldl_cons, append_glued, foldl_append_ofTexts, ofTexts_append]
  have hrest : deleteRange (markers.start (.hl, modem)) (markers.stop (.hl, modem)) false
      (ofTexts (lines ++ [stopMarker (.ttl, modem)])) =
      ofTexts (lines ++ [stopMarker (.ttl, modem)]) := by
    apply deleteRange_eq_self
    intro line hline
    obtain ⟨text, ht, rfl⟩ := mem_map.mp hline
    rcases mem_append.mp ht with ht | ht
    · exact (hlines text ht (.hl, modem)).1
    · rw [mem_singleton.mp ht]
      exact markers.not_start_infix_stop _ _
  obtain ⟨kept, hkept⟩ : ∃ kept, deleteRange (markers.start (.hl, modem))
      (markers.stop (.hl, modem)) false (ofTexts (left ++ [last ++ startMarker (.ttl, modem)])) =
      ofTexts kept := ⟨_, deleteRange_ofTexts _ _⟩
  refine ⟨kept, ?_, fun hmem => ?_⟩
  · rw [hecho, ofTexts_append kept, ← hkept]
    refine (deleteRange_append _ _ false).trans (congrArg₂ _ rfl ?_)
    exact (congrArg (fun inside => deleteRange _ _ inside _) hrange).trans hrest
  · rw [← map_text_ofTexts kept, ← hkept] at hmem
    obtain ⟨line, hline, heq⟩ := mem_map.mp hmem
    obtain ⟨text, ht, rfl⟩ := mem_map.mp (not_found_of_mem_deleteRange hline).1
    rcases mem_append.mp ht with ht | ht
    · exact hleft (heq ▸ ht)
    · have hglued := (mem_singleton.mp ht).symm.trans heq
      exact hlast (by simpa using hglued)

/-- A marker that is glued to the last line is lost, while the end of its block is not. -/
theorem not_ownBlocksOnly_of_glued {last : Text} (hblocks : blocks.Nested markers)
    (hrender : blocks.render markers = texts ++ [last]) (hlast : last ≠ [])
    (hne : last ≠ stopMarker (.ttl, modem)) (hsetting : cfg.setting = some setting)
    (hon : setting.vars.ttl ≠ .num 1) :
    ¬ OwnBlocksOnly cfg modem blocks (ofTexts texts ++ [⟨last, false⟩]) := by
  intro hown
  obtain ⟨r, hl, ttloption, -, -, httl, hhl, hrun⟩ := handlettl_of_ttl hsetting hon modem
  obtain ⟨left, hdelete, hleft⟩ := Blocks.deleteRange_of_ne (Kind.ttl, modem) hblocks hrender hne
  have hnot : startMarker (.ttl, modem) ∉ left := by
    intro hmem
    have hhas := Blocks.has_of_start_found
      (Blocks.nested_drop hblocks _) (hleft ▸ mem_append_left _ hmem) infix_rfl
    exact absurd (Blocks.has_of_has_drop hhas).2 (by simp)
  obtain ⟨kept, hkept, hstart⟩ :=
    delete_hl_glued (Blocks.nested_drop hblocks _) hleft hlast hnot httl
  have hlines : handlettl cfg modem (ofTexts texts ++ [⟨last, false⟩]) =
      if hl = .num 1 then ofTexts (kept ++ (r.ttl ttloption ++ [stopMarker (.ttl, modem)]))
      else echoBlock .hl modem (r.hl ttloption)
        (ofTexts (kept ++ (r.ttl ttloption ++ [stopMarker (.ttl, modem)]))) := by
    rw [← hkept, ← hdelete]
    exact hrun _
  obtain ⟨after, hnested, hafter, -⟩ := hown.outside
  have hbalanced : stopMarker (.ttl, modem) ∈ after.render markers →
      startMarker (.ttl, modem) ∈ after.render markers := fun hmem =>
    Blocks.start_mem_render
      (Blocks.has_of_stop_found hnested hmem infix_rfl)
  rw [← hafter, hlines] at hbalanced
  split_ifs at hbalanced
  · rw [map_text_ofTexts] at hbalanced
    refine absurd (hbalanced (by simp)) ?_
    simp [hstart, startMarker_notMem_of_plain httl, (stopMarker_ne_startMarker _ _).symm]
  · rw [echoBlock, foldl_append_ofTexts, map_text_ofTexts] at hbalanced
    refine absurd (hbalanced (by simp)) ?_
    simp [hstart, startMarker_notMem_of_plain httl, startMarker_notMem_of_plain hhl,
      startMarker_ne_startMarker, (stopMarker_ne_startMarker _ _).symm]

/-! ### Only the modem's own blocks -/

theorem ownBlocksOnly_iff_of_ttl (hblocks : blocks.Nested markers) (hfile : IsFile file)
    (htexts : file.map Line.text = blocks.render markers) (hsetting : cfg.setting = some setting)
    (hon : setting.vars.ttl ≠ .num 1) :
    OwnBlocksOnly cfg modem blocks file ↔
      ∀ last ∈ file.getLast?, last.newline = true ∨ last.text = stopMarker (.ttl, modem) := by
  obtain ⟨texts, rfl | ⟨last, hlast, rfl⟩⟩ := hfile
  · rw [map_text_ofTexts] at htexts
    subst htexts
    refine iff_of_true (ownBlocksOnly_of_ttl hblocks hsetting hon
      (delete_render hblocks .ttl)) fun last hmem => .inl ?_
    obtain ⟨text, -, rfl⟩ := mem_map.mp (mem_of_getLast? hmem)
    rfl
  · have hrender : blocks.render markers = texts ++ [last] := by
      rw [← htexts, map_append, map_text_ofTexts]
      rfl
    have hgoal : (∀ l ∈ (ofTexts texts ++ [(⟨last, false⟩ : Line)]).getLast?,
        l.newline = true ∨ l.text = stopMarker (.ttl, modem)) ↔
        last = stopMarker (.ttl, modem) := by
      simp
    rw [hgoal]
    by_cases hstop : last = stopMarker (.ttl, modem)
    · exact iff_of_true (ownBlocksOnly_of_ttl hblocks hsetting hon
        (Blocks.deleteRange_of_stop (Kind.ttl, modem) hblocks hrender hstop)) hstop
    · exact iff_of_false
        (not_ownBlocksOnly_of_glued hblocks hrender hlast hstop hsetting hon) hstop

/-- **TTL rule editing touches only its own blocks** exactly when the texts of the rules it
    writes have been put together and none of its lines is glued to one of the file. -/
theorem handlettl_ownBlocksOnly_iff (cfg : Config) (modem : Fin 10)
    (blocks : Blocks (Kind × Fin 10)) (hblocks : blocks.Nested markers) (file : List Line)
    (hfile : IsFile file) (htexts : file.map Line.text = blocks.render markers) :
    OwnBlocksOnly cfg modem blocks file ↔ cfg.Sound modem file := by
  cases hsetting : cfg.setting with
  | none =>
    have hrun : ∀ file, handlettl cfg modem file = delete .hl modem (delete .ttl modem file) :=
      fun file => by simp only [handlettl, hsetting]
    have hhop : ∀ hl ttloption, cfg.hopLimit = some (hl, ttloption) → hl = .num 1 := by
      simp [Config.hopLimit, hsetting]
    exact iff_of_true (ownBlocksOnly_of_delete hblocks htexts hrun hhop)
      fun setting h => absurd (hsetting.symm.trans h) (by simp)
  | some setting =>
    have hsound : cfg.Sound modem file ↔
        if setting.vars.ttl = .num 1 then setting.vars.hl = .num 1
        else ∀ last ∈ file.getLast?, last.newline = true ∨
          last.text = stopMarker (.ttl, modem) := by
      simp [Config.Sound, hsetting]
    rw [hsound]
    split
    · next hoff =>
      by_cases hhl : setting.vars.hl = .num 1
      · have hrun : ∀ file, handlettl cfg modem file =
            delete .hl modem (delete .ttl modem file) :=
          fun file => by simp only [handlettl, hsetting, hoff, if_true, checkHL, hhl]
        have hhop : ∀ hl ttloption, cfg.hopLimit = some (hl, ttloption) → hl = .num 1 := by
          simp [Config.hopLimit, hsetting, hoff, hhl]
        exact iff_of_true (ownBlocksOnly_of_delete hblocks htexts hrun hhop) hhl
      · exact iff_of_false (not_ownBlocksOnly_of_hl hfile hsetting hoff hhl) hhl
    · next hoff =>
      exact ownBlocksOnly_iff_of_ttl hblocks hfile htexts hsetting hoff

def sampleConfig (ttl hl : Nat) : Config where
  modem := ⟨some (.num ttl), none, some (.num hl), none, none⟩
  enabled := false
  common := ⟨none, none, none, none, none⟩
  interface := "wwan0".toList
  iptables := false
  hostless := false
  plain c hc := by
    have hall : ("wwan0".toList.all fun c => c != '#' && c != '\n') = true := by decide
    simpa using all_eq_true.mp hall c hc

def sampleBlocks : Blocks (Kind × Fin 10) :=
  .line "iptables -F".toList (.block (.ttl, 1) (.ofLines ["rule".toList]) .nil)

theorem nested_sampleBlocks : sampleBlocks.Nested markers :=
  ⟨plain_of_notMem (by decide), id, ⟨plain_of_notMem (by decide), trivial⟩, trivial⟩

/-- A TTL of 65 for modem 1 replaces its rules. -/
theorem handlettl_ownBlocksOnly_sample :
    OwnBlocksOnly (sampleConfig 65 0) 1 sampleBlocks (ofTexts (sampleBlocks.render markers)) := by
  refine (handlettl_ownBlocksOnly_iff (sampleConfig 65 0) 1 sampleBlocks nested_sampleBlocks
    (ofTexts (sampleBlocks.render markers)) ⟨_, .inl rfl⟩ (map_text_ofTexts _)).mpr ?_
  intro setting hsetting
  have heq : (sampleConfig 65 0).modem.read (.num 0) = setting := by
    simpa [Config.setting, sampleConfig, Section.read] using hsetting
  subst heq
  intro last hlast
  left
  obtain ⟨text, -, rfl⟩ := mem_map.mp (mem_of_getLast? hlast)
  rfl

/-- With no TTL and a hop limit of 64 two empty lines are written in the place of the rules. -/
theorem not_handlettl_ownBlocksOnly : ¬ ∀ (cfg : Config) (modem : Fin 10)
    (blocks : Blocks (Kind × Fin 10)), blocks.Nested markers → ∀ file : List Line, IsFile file →
    file.map Line.text = blocks.render markers → OwnBlocksOnly cfg modem blocks file := by
  intro h
  have hown := h (sampleConfig 1 64) 1 .nil trivial [] ⟨[], .inl rfl⟩ rfl
  exact not_ownBlocksOnly_of_hl ⟨[], .inl rfl⟩ rfl rfl (by decide) hown

end Rooter.TtlRules
