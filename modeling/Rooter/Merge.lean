import Rooter.MessageFile
import Rooter.Grouping

/-!
# Assembling long messages: the main loop of `merge.lua`

The parsed messages stand in the table `overall`, keyed by slot.  The loop walks
over the slot numbers; at a message without part data it writes the message as it
is, at a part it collects all later parts with the same reference number, takes
them out of the table and writes one record for them.

`mergeLoop` follows the script.  It is the walk of `Grouping` over the groups of
one reference number, with `emit` applied to each.
-/

namespace Rooter.Merge

open List Numeral LuaString MessageFile Grouping Function

/-! ### The script -/

abbrev Table (α : Type) := List Char → Option α

def overallOf (messages : List Message) : Table Message :=
  messages.foldl (fun overall m => update overall m.slot (some m)) fun _ => none

def slotLimit (messages : List Message) : Nat :=
  messages.foldl (fun limit m => max limit ((decimal? m.slot).getD 0 + 1)) 0

structure Record where
  slots : List (List Char)
  phone : List Char
  nline : List Char
  msg : List Char
  short : List Char
deriving DecidableEq, Repr

def slotLine (slots : List (List Char)) : List Char := [' '].intercalate slots

/-- A runtime error, with the lines of the unfinished record that are already written. -/
structure Stop where
  error : LuaError
  written : List (List Char)

structure Output where
  records : List Record
  stop : Option Stop

/-- The tables `msgbuild` and `shortmsg`, the slot list `msgtmp`, and what is left in `overall`. -/
structure Build where
  msgtmp : List (List Char)
  msgbuild : Table (List Char)
  shortmsg : Table (List Char)
  overall : Table Message

/-- The body of `for j=i+1,maxslot,1`. -/
def collectStep (msgnum : List Char) (b : Build) (j : Nat) : Build :=
  match b.overall (decimal j) with
  | none => b
  | some m =>
      match m.part with
      | none => b
      | some p =>
          if p.msgnum = msgnum then
            { msgtmp := b.msgtmp ++ [m.slot]
              msgbuild := update b.msgbuild p.msgord (some m.msg)
              shortmsg := update b.shortmsg p.msgord (some m.short)
              overall := update b.overall (decimal j) none }
          else b

structure Assembly where
  msg : List Char
  short : Option (List Char)
  mflg : Bool

/-- The body of `for j=1,msgmax,1`. -/
def assembleStep (msgbuild shortmsg : Table (List Char)) (a : Assembly) (j : Nat) : Assembly :=
  match msgbuild (decimal j) with
  | some text => { a with msg := a.msg ++ text, short := a.short.or (shortmsg (decimal j)) }
  | none => { a with mflg := true }

def assemble (msgmax : Nat) (msgbuild shortmsg : Table (List Char)) : Assembly :=
  ((range msgmax).map (· + 1)).foldl (assembleStep msgbuild shortmsg) ⟨[], none, false⟩

/-- ` %d+%-%d+%-%d+ %d+:%d+:%d+%s+[+-]%d+h ` at the start of a text: what stands behind it. -/
def matchStampAt (s : List Char) : Option (List Char) := do
  let s ← expect ' ' s
  let (_, s) ← digits s
  let s ← expect '-' s
  let (_, s) ← digits s
  let s ← expect '-' s
  let (_, s) ← digits s
  let s ← expect ' ' s
  let (_, s) ← digits s
  let s ← expect ':' s
  let (_, s) ← digits s
  let s ← expect ':' s
  let (_, s) ← digits s
  let blanks := s.takeWhile isSpace
  let s := s.dropWhile isSpace
  let s ← if blanks = [] then none else (expect '+' s).or (expect '-' s)
  let (_, s) ← digits s
  let s ← expect 'h' s
  expect ' ' s

/-- `preshort`: the preview up to its last time stamp. -/
def matchStamp : List Char → Option (List Char)
  | [] => none
  | c :: cs =>
      match matchStamp cs with
      | some preshort => some (c :: preshort)
      | none => (matchStampAt (c :: cs)).map fun rest =>
          (c :: cs).take ((c :: cs).length - rest.length)

def completeShort (short msg : List Char) : List Char :=
  match matchStamp short with
  | none => short
  | some preshort =>
      let jj := if preshort.head? = some ' ' then 49 else 51
      (preshort ++ "     ".toList).take jj ++ (shortLoop 20 msg ++ "  ...".toList)

/-- `short:gsub("%s+", " ")`; the flag says that the run of blanks has its blank. -/
def squeeze : Bool → List Char → List Char
  | _, [] => []
  | inRun, c :: cs =>
      if isSpace c then (if inRun then squeeze true cs else ' ' :: squeeze true cs)
      else c :: squeeze false cs

def trimEnd (msg : List Char) : List Char :=
  if "\n\n".toList <:+ msg then msg.take (msg.length - 2) else msg

/-- From the collected parts to the record.  `short` is `nil` when no part number
    from 1 to `msgmax` is present, and the script stops there. -/
def finish (m : Message) (p : Part) (msgtmp : List (List Char))
    (msgbuild shortmsg : Table (List Char)) : Except Stop Record :=
  match decimal? p.msgmax with
  | none => .error ⟨.badArgument, []⟩
  | some msgmax =>
      let a := assemble msgmax msgbuild shortmsg
      match a.short with
      | none => .error ⟨.indexNil, [slotLine msgtmp, m.phone]⟩
      | some short =>
          let msg := if a.mflg then "Partial Message : ".toList ++ a.msg else a.msg
          let short :=
            if a.mflg then "Partial Message ".toList ++ squeeze false short
            else completeShort short a.msg
          let msg := trimEnd msg
          .ok ⟨msgtmp, m.phone, decimal (msg.count '\n' + 1), msg, short⟩

def single (m : Message) : Record := ⟨[m.slot], m.phone, m.nline, m.msg, m.short⟩

/-- The body of `for i=0,maxslot,1`. -/
def mergeAt (limit i : Nat) (overall : Table Message) :
    Except Stop (Option Record × Table Message) :=
  match overall (decimal i) with
  | none => .ok (none, overall)
  | some m =>
      match m.part with
      | none => .ok (some (single m), overall)
      | some p =>
          let b := (range' (i + 1) (limit - (i + 1))).foldl (collectStep p.msgnum)
            ⟨[m.slot], update (fun _ => none) p.msgord (some m.msg),
              update (fun _ => none) p.msgord (some m.short), overall⟩
          match finish m p b.msgtmp b.msgbuild b.shortmsg with
          | .error stop => .error stop
          | .ok record => .ok (some record, b.overall)

def mergeLoop (limit : Nat) : List Nat → Table Message → Output
  | [], _ => ⟨[], none⟩
  | i :: is, overall =>
      match mergeAt limit i overall with
      | .error stop => ⟨[], some stop⟩
      | .ok (record, overall) =>
          let out := mergeLoop limit is overall
          ⟨record.toList ++ out.records, out.stop⟩

def merge (messages : List Message) : Output :=
  mergeLoop (slotLimit messages) (range (slotLimit messages)) (overallOf messages)

/-! ### The parsed messages -/

/-- What the reader hands to the loop: messages at distinct decimal slots. -/
structure Parsed where
  messages : List Message
  decimal_slot : ∀ m ∈ messages, ∃ n, m.slot = decimal n
  nodup_slot : (messages.map Message.slot).Nodup
  numeric : ∀ m ∈ messages, ∀ p ∈ m.part, (decimal? p.msgmax).isSome = true

namespace Parsed

variable (s : Parsed)

def item (n : Nat) : Option Message := overallOf s.messages (decimal n)

def limit : Nat := slotLimit s.messages

end Parsed

def msgnumOf (m : Message) : Option (List Char) := m.part.map Part.msgnum

structure Group where
  head : Message
  rest : List Message

def Group.all (g : Group) : List Message := g.head :: g.rest

/-- The entry of one part; it overwrites an earlier one of the same order. -/
def fill (field : Message → List Char) (table : Table (List Char)) (m : Message) :
    Table (List Char) :=
  match m.part with
  | none => table
  | some p => update table p.msgord (some (field m))

def tableOf (field : Message → List Char) (ms : List Message) : Table (List Char) :=
  ms.foldl (fill field) fun _ => none

def emit (g : Group) : Except Stop Record :=
  match g.head.part with
  | none => .ok (single g.head)
  | some p => finish g.head p (g.all.map Message.slot) (tableOf Message.msg g.all)
      (tableOf Message.short g.all)

def emitAll : List Group → Output
  | [] => ⟨[], none⟩
  | g :: gs =>
      match emit g with
      | .error stop => ⟨[], some stop⟩
      | .ok record => ⟨record :: (emitAll gs).records, (emitAll gs).stop⟩

namespace Parsed

variable (s : Parsed)

def groupAt (h : Nat) : Option Group :=
  (s.item h).map fun m => ⟨m, (followers s.item msgnumOf s.limit h).filterMap s.item⟩

def groups : List Group := (heads s.item msgnumOf s.limit).filterMap s.groupAt

end Parsed

/-! ### The table `overall` -/

variable {m : Message}

theorem overallOf_eq_some {messages : List Message} (hnodup : (messages.map Message.slot).Nodup)
    {slot : List Char} : overallOf messages slot = some m ↔ m ∈ messages ∧ m.slot = slot := by
  induction messages using reverseRecOn with
  | nil => simp [overallOf]
  | append_singleton ms a ih =>
    rw [map_append, nodup_append] at hnodup
    obtain ⟨hms, -, hdisj⟩ := hnodup
    have hfold : overallOf (ms ++ [a]) = update (overallOf ms) a.slot (some a) := by
      simp [overallOf]
    have hother : m ∈ ms → m.slot ≠ a.slot := fun hm =>
      hdisj m.slot (mem_map_of_mem hm) a.slot (by simp)
    rw [hfold, update_apply]
    split
    · next hslot =>
      subst hslot
      constructor
      · intro h
        cases h
        simp
      · rintro ⟨hmem, hslot⟩
        rcases mem_append.mp hmem with hm | hm
        · exact absurd hslot (hother hm)
        · rw [mem_singleton.mp hm]
    · next hslot =>
      rw [ih hms]
      constructor
      · rintro ⟨hm, h⟩
        exact ⟨mem_append_left _ hm, h⟩
      · rintro ⟨hmem, h⟩
        rcases mem_append.mp hmem with hm | hm
        · exact ⟨hm, h⟩
        · rw [mem_singleton.mp hm] at h
          exact absurd h.symm hslot

theorem lt_slotLimit {messages : List Message} (hm : m ∈ messages) {n : Nat}
    (hslot : m.slot = decimal n) : n < slotLimit messages := by
  induction messages using reverseRecOn with
  | nil => cases hm
  | append_singleton ms a ih =>
    have hfold : slotLimit (ms ++ [a])
        = max (slotLimit ms) ((decimal? a.slot).getD 0 + 1) := by
      simp [slotLimit]
    rw [hfold]
    rcases mem_append.mp hm with h | h
    · have := ih h
      omega
    · rw [← mem_singleton.mp h, hslot, decimal?_decimal]
      simp only [Option.getD_some]
      omega

namespace Parsed

variable {s : Parsed}

theorem item_eq_some {n : Nat} {m : Message} :
    s.item n = some m ↔ m ∈ s.messages ∧ m.slot = decimal n :=
  overallOf_eq_some s.nodup_slot

theorem lt_limit {n : Nat} (h : (s.item n).isSome = true) : n < s.limit := by
  obtain ⟨m, hm⟩ := Option.isSome_iff_exists.mp h
  rw [item_eq_some] at hm
  exact lt_slotLimit hm.1 hm.2

end Parsed

/-! ### Collecting the parts of one reference number -/

/-- The message that `collectStep` picks at a table entry. -/
def picked (msgnum : List Char) (entry : Option Message) : Option Message :=
  entry.filter fun m => msgnumOf m = some msgnum

theorem collectStep_none {msgnum : List Char} {b : Build} {j : Nat}
    (h : picked msgnum (b.overall (decimal j)) = none) : collectStep msgnum b j = b := by
  rw [collectStep]
  split
  · rfl
  · next m hm =>
    split
    · rfl
    · next p hp =>
      rw [hm, picked] at h
      have hne : p.msgnum ≠ msgnum := by simpa [msgnumOf, hp] using h
      rw [if_neg hne]

theorem collectStep_some {msgnum : List Char} {b : Build} {j : Nat}
    (h : picked msgnum (b.overall (decimal j)) = some m) :
    collectStep msgnum b j = ⟨b.msgtmp ++ [m.slot], fill Message.msg b.msgbuild m,
      fill Message.short b.shortmsg m, update b.overall (decimal j) none⟩ := by
  obtain ⟨hm, hnum⟩ := Option.filter_eq_some_iff.mp h
  simp only [msgnumOf, decide_eq_true_eq, Option.map_eq_some_iff] at hnum
  obtain ⟨p, hp, hnum⟩ := hnum
  simp [collectStep, fill, hm, hp, hnum]

/-- **The inner loop collects the parts it picks and takes them out of the table.** -/
theorem foldl_collectStep (msgnum : List Char) {js : List Nat} (hnodup : js.Nodup) :
    ∀ b : Build, ∃ overall : Table Message,
      js.foldl (collectStep msgnum) b
        = (let found := js.filterMap fun j => picked msgnum (b.overall (decimal j))
           ⟨b.msgtmp ++ found.map Message.slot, found.foldl (fill Message.msg) b.msgbuild,
             found.foldl (fill Message.short) b.shortmsg, overall⟩) ∧
      ∀ j, overall (decimal j) =
        if j ∈ js ∧ (picked msgnum (b.overall (decimal j))).isSome = true then none
        else b.overall (decimal j) := by
  induction js with
  | nil => intro b; exact ⟨b.overall, by simp, by simp⟩
  | cons j js ih =>
    obtain ⟨hj, hjs⟩ := nodup_cons.mp hnodup
    intro b
    cases hpick : picked msgnum (b.overall (decimal j)) with
    | none =>
      obtain ⟨overall, hfold, hoverall⟩ := ih hjs b
      refine ⟨overall, ?_, fun k => ?_⟩
      · rw [foldl_cons, collectStep_none hpick, hfold]
        simp [hpick]
      · rw [hoverall k]
        by_cases hk : k = j
        · subst hk
          simp [hpick]
        · simp [hk]
    | some m =>
      obtain ⟨overall, hfold, hoverall⟩ := ih hjs ⟨b.msgtmp ++ [m.slot],
        fill Message.msg b.msgbuild m, fill Message.short b.shortmsg m,
        update b.overall (decimal j) none⟩
      have hkeep : ∀ k, k ≠ j →
          update b.overall (decimal j) none (decimal k) = b.overall (decimal k) :=
        fun k hk => update_of_ne (fun h => hk (decimal_injective h)) _ _
      refine ⟨overall, ?_, fun k => ?_⟩
      · have hsame : js.filterMap (fun k => picked msgnum
              (update b.overall (decimal j) none (decimal k)))
            = js.filterMap fun k => picked msgnum (b.overall (decimal k)) :=
          filterMap_congr fun k hk => by rw [hkeep k fun h => hj (h ▸ hk)]
        rw [foldl_cons, collectStep_some hpick, hfold]
        simp only [hsame]
        simp [hpick]
      · rw [hoverall k]
        by_cases hk : k = j
        · subst hk
          simp [hpick]
        · simp [hk, hkeep k hk]

/-! ### The loop as a walk over groups -/

namespace Parsed

variable (s : Parsed)

/-- Before round `i` the table holds the messages that no earlier round took out. -/
def Pending (i : Nat) (overall : Table Message) : Prop :=
  ∀ j, i ≤ j → overall (decimal j) =
    if ∃ h < i, Linked s.item msgnumOf h j then none else s.item j

variable {s} {m : Message} {p : Part} {i : Nat} {overall : Table Message}

theorem linked_iff {h j : Nat} (hm : s.item h = some m) (hp : m.part = some p) :
    Linked s.item msgnumOf h j ↔ (picked p.msgnum (s.item j)).isSome = true := by
  have hkey : keyAt s.item msgnumOf h = some p.msgnum := by simp [keyAt, hm, msgnumOf, hp]
  rw [Linked, hkey, keyAt, picked]
  cases s.item j with
  | none => simp
  | some mj =>
    simp only [Option.isSome_some, true_and, Option.isSome_filter,
      Option.any_some, decide_eq_true_eq]
    exact eq_comm

theorem not_linked_of_single {h j : Nat} (hm : s.item h = some m) (hp : m.part = none) :
    ¬ Linked s.item msgnumOf h j := by
  rintro ⟨hsome, -⟩
  simp [keyAt, hm, msgnumOf, hp] at hsome

theorem exists_linked_succ {j : Nat}
    (hlink : Linked s.item msgnumOf i j → ∃ h < i, Linked s.item msgnumOf h j) :
    (∃ h < i + 1, Linked s.item msgnumOf h j) ↔ ∃ h < i, Linked s.item msgnumOf h j := by
  constructor
  · rintro ⟨h, hlt, hl⟩
    rcases Nat.lt_succ_iff_lt_or_eq.mp hlt with hlt | rfl
    · exact ⟨h, hlt, hl⟩
    · exact hlink hl
  · rintro ⟨h, hlt, hl⟩
    exact ⟨h, by omega, hl⟩

section

variable (hpend : s.Pending i overall)

include hpend

theorem Pending.skip
    (hlink : ∀ j, Linked s.item msgnumOf i j → ∃ h < i, Linked s.item msgnumOf h j) :
    s.Pending (i + 1) overall := by
  intro j hj
  simp only [hpend j (by omega), exists_linked_succ (hlink j)]

theorem Pending.eq_none (hhead : ¬ IsHead s.item msgnumOf i) : overall (decimal i) = none := by
  rw [hpend i (le_refl i)]
  split
  · rfl
  · next hno =>
    by_contra hitem
    refine hhead ⟨Option.isSome_iff_ne_none.mpr hitem, fun h hlt hl => hno ⟨h, hlt, hl⟩⟩

theorem Pending.head (hhead : IsHead s.item msgnumOf i) : overall (decimal i) = s.item i := by
  rw [hpend i (le_refl i), if_neg]
  rintro ⟨h, hlt, hl⟩
  exact hhead.2 h hlt hl

theorem Pending.picked_eq {j : Nat} (hhead : IsHead s.item msgnumOf i) (hm : s.item i = some m)
    (hp : m.part = some p) (hij : i ≤ j) :
    picked p.msgnum (overall (decimal j)) = picked p.msgnum (s.item j) := by
  rw [hpend j hij]
  split
  · next htaken =>
    obtain ⟨h, hlt, hl⟩ := htaken
    have hnot : ¬ Linked s.item msgnumOf i j := fun hij =>
      hhead.2 h hlt (hl.trans hij.symm)
    rw [linked_iff hm hp, Bool.not_eq_true, Option.isSome_eq_false_iff,
      Option.isNone_iff_eq_none] at hnot
    exact hnot.symm
  · rfl

theorem Pending.take {overall' : Table Message} (hhead : IsHead s.item msgnumOf i)
    (hm : s.item i = some m) (hp : m.part = some p) (htake : ∀ j, overall' (decimal j) =
      if j ∈ range' (i + 1) (s.limit - (i + 1)) ∧
        (picked p.msgnum (overall (decimal j))).isSome = true then none
      else overall (decimal j)) :
    s.Pending (i + 1) overall' := by
  intro j hj
  simp only [htake j, hpend.picked_eq hhead hm hp (Nat.le_of_succ_le hj), ← linked_iff hm hp]
  rw [hpend j (by omega)]
  have hlt : Linked s.item msgnumOf i j → j < s.limit := fun h => lt_limit h.isSome
  by_cases hl : Linked s.item msgnumOf i j
  · have hmem : j ∈ range' (i + 1) (s.limit - (i + 1)) := by
      rw [mem_range'_1]
      have := hlt hl
      omega
    rw [if_pos ⟨hmem, hl⟩, if_pos ⟨i, by omega, hl⟩]
  · rw [if_neg fun h => hl h.2]
    simp only [exists_linked_succ fun h => absurd h hl]

end

theorem groupAt_head (hm : s.item i = some m) (hp : m.part = some p) (hi : i < s.limit) :
    s.groupAt i = some ⟨m, (range' (i + 1) (s.limit - (i + 1))).filterMap fun j =>
      picked p.msgnum (s.item j)⟩ := by
  have hsplit : range s.limit
      = range' 0 (i + 1) ++ range' (i + 1) (s.limit - (i + 1)) := by
    have hn : s.limit = i + 1 + (s.limit - (i + 1)) := by omega
    conv_lhs => rw [range_eq_range', hn, ← range'_append_1, Nat.zero_add]
  have hbefore : (range' 0 (i + 1)).filterMap (fun j =>
      if i < j ∧ Linked s.item msgnumOf i j then s.item j else none) = [] := by
    rw [filterMap_eq_nil_iff]
    intro j hj
    rw [mem_range'_1] at hj
    rw [if_neg (by omega)]
  have hbehind : ∀ j ∈ range' (i + 1) (s.limit - (i + 1)),
      (if i < j ∧ Linked s.item msgnumOf i j then s.item j else none)
        = picked p.msgnum (s.item j) := by
    intro j hj
    rw [mem_range'_1] at hj
    by_cases hl : Linked s.item msgnumOf i j
    · rw [if_pos ⟨by omega, hl⟩]
      rw [linked_iff hm hp] at hl
      obtain ⟨mj, hmj⟩ := Option.isSome_iff_exists.mp hl
      rw [hmj]
      exact (Option.filter_eq_some_iff.mp hmj).1
    · rw [if_neg fun h => hl h.2]
      rw [linked_iff hm hp, Bool.not_eq_true, Option.isSome_eq_false_iff,
        Option.isNone_iff_eq_none] at hl
      exact hl.symm
  have hrest : (followers s.item msgnumOf s.limit i).filterMap s.item
      = (range' (i + 1) (s.limit - (i + 1))).filterMap fun j =>
        picked p.msgnum (s.item j) := by
    rw [followers, filterMap_filter, hsplit, filterMap_append]
    simp only [decide_eq_true_eq]
    rw [hbefore]
    exact filterMap_congr hbehind
  simp [groupAt, hm, hrest]

/-- **One round of the loop.**  At a head the record of its group is written, at any
    other position nothing; the table stays as the rounds before the next one left it. -/
theorem mergeAt_eq (hpend : s.Pending i overall) (hi : i < s.limit) :
    (IsHead s.item msgnumOf i ∧ ∃ g, s.groupAt i = some g ∧
      ((∃ stop, emit g = .error stop ∧ mergeAt s.limit i overall = .error stop) ∨
        ∃ record overall', emit g = .ok record ∧
          mergeAt s.limit i overall = .ok (some record, overall') ∧
          s.Pending (i + 1) overall')) ∨
    (¬ IsHead s.item msgnumOf i ∧ mergeAt s.limit i overall = .ok (none, overall) ∧
      s.Pending (i + 1) overall) := by
  by_cases hhead : IsHead s.item msgnumOf i
  · left
    obtain ⟨m, hm⟩ := Option.isSome_iff_exists.mp hhead.1
    have hentry : overall (decimal i) = some m := (hpend.head hhead).trans hm
    cases hp : m.part with
    | none =>
      refine ⟨hhead, ⟨m, _⟩, by rw [groupAt, hm]; rfl, .inr ⟨single m, overall, ?_, ?_, ?_⟩⟩
      · simp [emit, hp]
      · simp [mergeAt, hentry, hp]
      · exact hpend.skip fun j hl => absurd hl (not_linked_of_single hm hp)
    | some p =>
      refine ⟨hhead, _, groupAt_head hm hp hi, ?_⟩
      have hnodup : (range' (i + 1) (s.limit - (i + 1))).Nodup := nodup_range'
      obtain ⟨overall', hfold, htake⟩ := foldl_collectStep p.msgnum hnodup
        ⟨[m.slot], update (fun _ => none) p.msgord (some m.msg),
          update (fun _ => none) p.msgord (some m.short), overall⟩
      have hfound : (range' (i + 1) (s.limit - (i + 1))).filterMap
            (fun j => picked p.msgnum (overall (decimal j)))
          = (range' (i + 1) (s.limit - (i + 1))).filterMap
            fun j => picked p.msgnum (s.item j) := by
        refine filterMap_congr fun j hj => ?_
        rw [mem_range'_1] at hj
        exact hpend.picked_eq hhead hm hp (by omega)
      simp only [hfound] at hfold
      have hround : mergeAt s.limit i overall
          = match emit ⟨m, (range' (i + 1) (s.limit - (i + 1))).filterMap
              fun j => picked p.msgnum (s.item j)⟩ with
            | .error stop => .error stop
            | .ok record => .ok (some record, overall') := by
        simp only [mergeAt, hentry, hp, hfold, emit, Group.all, tableOf, fill,
          map_cons, foldl_cons, singleton_append]
      rw [hround]
      cases hemit : emit ⟨m, (range' (i + 1) (s.limit - (i + 1))).filterMap
          fun j => picked p.msgnum (s.item j)⟩ with
      | error stop => exact .inl ⟨stop, rfl, rfl⟩
      | ok record => exact .inr ⟨record, overall', rfl, rfl, hpend.take hhead hm hp htake⟩
  · right
    refine ⟨hhead, by simp [mergeAt, hpend.eq_none hhead], hpend.skip fun j hl => ?_⟩
    by_contra hno
    refine hhead ⟨hl.symm.isSome, fun h hlt hl' => hno ⟨h, hlt, hl'.trans hl⟩⟩

theorem mergeLoop_eq (n : Nat) : ∀ {i : Nat} {overall : Table Message},
    s.Pending i overall → i + n = s.limit →
      mergeLoop s.limit (range' i n) overall
        = emitAll (((range' i n).filter fun i => IsHead s.item msgnumOf i).filterMap
          s.groupAt) := by
  induction n with
  | zero => intro i overall _ _; rfl
  | succ n ih =>
    intro i overall hpend hlimit
    rw [range'_succ, mergeLoop]
    rcases mergeAt_eq hpend (by omega) with ⟨hhead, g, hg, hround⟩ | ⟨hhead, hround, hnext⟩
    · rw [filter_cons_of_pos (by simpa using hhead), filterMap_cons_some hg, emitAll]
      rcases hround with ⟨stop, hemit, hround⟩ | ⟨record, overall', hemit, hround, hnext⟩
      · simp [hround, hemit]
      · simp [hround, hemit, ih hnext (by omega)]
    · rw [filter_cons_of_neg (by simpa using hhead)]
      simp [hround, ih hnext (by omega)]

/-- **The script writes the groups of its messages, in the order of their heads.** -/
theorem merge_eq_emitAll (s : Parsed) : merge s.messages = emitAll s.groups := by
  have hpend : s.Pending 0 (overallOf s.messages) := by
    intro j _
    rfl
  rw [merge, range_eq_range']
  exact (mergeLoop_eq s.limit hpend (by omega)).trans (by
    rw [groups, heads, range_eq_range'])

end Parsed

end Rooter.Merge
