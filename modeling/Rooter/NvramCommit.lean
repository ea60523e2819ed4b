import Rooter.Execution
import Rooter.NvramImage

/-!
# Which variables a commit keeps

`nvram_set` looks at the length of one value only, so that there can be more variables than
there is room for.  `nvram_commit` leaves out what it has no room for and returns 0 all the
same; the table is then read from the partition, and they are gone.  A name with a `=` in it
comes back as another name.
-/

namespace Rooter.Nvram

open List ChainedTable Memory
open Execution (Steps)

variable {d : Device}

def Strings (h : Handle d) : Prop := ∀ e ∈ h.table.entries, 0 ∉ e.1 ∧ 0 ∉ e.2

/-! ### What is read back -/

section ReadBack

open Handle

variable {l : List (Bytes × Bytes)} {k v : Bytes}

theorem notMem_of_readBack (h : (readBack d l).get k = some v) : 0x3d ∉ k := by
  by_cases hk : k ∈ (l.map split).map Prod.fst
  · obtain ⟨e, he, rfl⟩ := mem_map.mp hk
    obtain ⟨e, -, rfl⟩ := mem_map.mp he
    exact notMem_split e
  · unfold readBack at h
    rw [Table.get_foldl_put_of_notMem _ _ hk] at h
    cases h

theorem readBack_eq_some (hnodup : (l.map Prod.fst).Nodup) (heq : ∀ e ∈ l, 0x3d ∉ e.1) :
    (readBack d l).get k = some v ↔ (k, v) ∈ l := by
  have hsplit : l.map split = l := by
    rw [map_congr_left fun e he => split_of_notMem (heq e he), map_id']
  unfold readBack
  rw [hsplit]
  constructor
  · intro hget
    by_cases hk : k ∈ l.map Prod.fst
    · obtain ⟨e, he, rfl⟩ := mem_map.mp hk
      rw [Table.get_foldl_put l _ hnodup e.1 e.2 he] at hget
      rw [← Option.some.inj hget]
      exact he
    · rw [Table.get_foldl_put_of_notMem _ _ hk] at hget
      cases hget
  · intro he
    exact Table.get_foldl_put l _ hnodup k v he

end ReadBack

/-! ### One commit -/

section Commit

variable {h : Handle d}

theorem tuples_sublist (h : Handle d) : h.tuples.Sublist h.table.entries := placed_sublist

theorem nodup_tuples (h : Handle d) : (h.tuples.map Prod.fst).Nodup :=
  ((tuples_sublist h).map Prod.fst).nodup (Table.nodup_entries _)

theorem exists_commit (hstr : Strings h) : ∃ h', h.nvramCommit = some (h', 0) ∧
    h'.mem = h.image ∧ h'.offset = h.offset ∧
      ∀ k ∉ sdramNames, h'.nvramGet k = (Handle.readBack d h.tuples).get k := by
  have hlast := h.last_le
  obtain ⟨h', hrehash, hmem, hoff, hget⟩ := Handle.nvramRehash_eq (h := { h with mem := h.image })
    (fun e he => hstr e ((tuples_sublist h).subset he))
    (by unfold Handle.last at hlast; dsimp only; omega) h.load_image_data
  refine ⟨h', ?_, hmem, hoff, hget⟩
  unfold Handle.nvramCommit
  rw [hrehash]
  rfl

theorem word_image_len (h : Handle d) : d.word h.image (h.offset + 4) = h.imageLen := by
  refine word_of_load h.load_image_len ?_
  have hlast := h.last_le
  have hlt := d.length_lt
  unfold Handle.imageLen
  omega

/-- The variables that are set, but for those of the SDRAM, are set to the same afterwards. -/
def Keeps (h h' : Handle d) : Prop :=
  ∀ k v, k ∉ sdramNames → h.nvramGet k = some v → h'.nvramGet k = some v

/-- Each of these variables has no `=` in its name, and finds room. -/
def Room (h : Handle d) : Prop :=
  ∀ e ∈ h.table.entries, e.1 ∉ sdramNames → 0x3d ∉ e.1 ∧ e ∈ h.tuples

theorem sdramNames_noEq : ∀ k ∈ sdramNames, 0x3d ∉ k := by
  decide

theorem keeps_iff_room {h' : Handle d}
    (hget : ∀ k ∉ sdramNames, h'.nvramGet k = (Handle.readBack d h.tuples).get k) :
    Keeps h h' ↔ Room h := by
  -- names without `=` come back as they were
  have hread : (∀ e ∈ h.table.entries, e.1 ∉ sdramNames → 0x3d ∉ e.1) →
      ∀ k v, (Handle.readBack d h.tuples).get k = some v ↔ (k, v) ∈ h.tuples := by
    intro hnames k v
    refine readBack_eq_some (nodup_tuples h) fun e he => ?_
    by_cases hsdram : e.1 ∈ sdramNames
    · exact sdramNames_noEq e.1 hsdram
    · exact hnames e ((tuples_sublist h).subset he) hsdram
  constructor
  · intro hkeeps
    have hback : ∀ e ∈ h.table.entries, e.1 ∉ sdramNames →
        (Handle.readBack d h.tuples).get e.1 = some e.2 := by
      intro e he hsdram
      rw [← hget e.1 hsdram]
      exact hkeeps e.1 e.2 hsdram (Table.mem_entries.mp he)
    have hnames : ∀ e ∈ h.table.entries, e.1 ∉ sdramNames → 0x3d ∉ e.1 := fun e he hsdram =>
      notMem_of_readBack (hback e he hsdram)
    intro e he hsdram
    exact ⟨hnames e he hsdram, (hread hnames e.1 e.2).mp (hback e he hsdram)⟩
  · intro hroom k v hsdram hk
    have he := Table.mem_entries.mpr hk
    rw [hget k hsdram]
    exact (hread (fun e he hsdram => (hroom e he hsdram).1) k v).mpr (hroom _ he hsdram).2

end Commit

/-! ### Runs -/

inductive Action where
  | set (name value : Bytes)
  | unset (name : Bytes)
  | commit

def Handle.act (h : Handle d) : Action → Option (Handle d)
  | .set name value => some (h.nvramSet name value).1
  | .unset name => some (h.nvramUnset name)
  | .commit => h.nvramCommit.map Prod.fst

def CStrings (_ : Handle d) : Action → Prop
  | .set name value => 0 ∉ name ∧ 0 ∉ value
  | .unset _ => True
  | .commit => True

/-- The handle was opened, and variables were set and committed since.  With `rdonly` the mapping
    is private: a commit changes the memory of the process, and not the partition. -/
def Reachable (rdonly : Bool) (h : Handle d) : Prop :=
  ∃ mem h₀, nvramOpen d mem rdonly = some h₀ ∧ Steps Handle.act CStrings h₀ h

section Reach

variable {h h' : Handle d}

theorem strings_put {t : Table Bytes d.index} {name value : Bytes}
    (ht : ∀ e ∈ t.entries, 0 ∉ e.1 ∧ 0 ∉ e.2) (hname : 0 ∉ name) (hvalue : 0 ∉ value) :
    ∀ e ∈ (t.put name value).entries, 0 ∉ e.1 ∧ 0 ∉ e.2 := by
  rintro ⟨k, v⟩ he
  rw [Table.mem_entries] at he
  by_cases hk : k = name
  · rw [hk, Table.get_put] at he
    cases he
    rw [hk]
    exact ⟨hname, hvalue⟩
  · rw [Table.get_put_of_ne hk] at he
    exact ht (k, v) (Table.mem_entries.mpr he)

theorem Strings.nvramSet (hstr : Strings h) (name value : Bytes) (hname : 0 ∉ name)
    (hvalue : 0 ∉ value) : Strings (h.nvramSet name value).1 := by
  unfold Handle.nvramSet
  split
  · exact hstr
  · exact strings_put hstr hname hvalue

theorem notMem_of_cstring {mem : Nat → UInt8} : ∀ {n i : Nat} {s : Bytes},
    Device.cstring mem n i = some s → 0 ∉ s := by
  intro n
  induction n with
  | zero =>
    intro i s hs
    cases hs
  | succ n ih =>
    intro i s hs
    rw [Device.cstring] at hs
    split at hs
    · cases hs
      exact not_mem_nil
    next hne =>
      obtain ⟨s', hs', rfl⟩ := Option.map_eq_some_iff.mp hs
      rw [mem_cons, not_or]
      exact ⟨Ne.symm hne, ih hs'⟩

theorem rehashLoop_strings : ∀ n i (h h' : Handle d), h.rehashLoop n i = some h' → Strings h →
    Strings h' ∧ h'.mem = h.mem ∧ h'.offset = h.offset := by
  intro n
  induction n with
  | zero =>
    intro i h h' hloop
    cases hloop
  | succ n ih =>
    intro i h h' hloop hstr
    rw [Handle.rehashLoop] at hloop
    split at hloop
    · cases hloop
    · cases hloop
      exact ⟨hstr, rfl, rfl⟩
    next b s hread =>
      have hzero := notMem_of_cstring hread
      dsimp only at hloop
      split at hloop
      · have hset := hstr.nvramSet ((b :: s).takeWhile (· ≠ 0x3d))
          ((b :: s).dropWhile (· ≠ 0x3d)).tail
          (fun hmem => hzero ((takeWhile_sublist _).subset hmem))
          fun hmem => hzero ((dropWhile_sublist _).subset (mem_of_mem_tail hmem))
        obtain ⟨hstr', hmem, hoff⟩ := ih _ _ h' hloop hset
        refine ⟨hstr', hmem.trans ?_, hoff.trans ?_⟩
        all_goals
          unfold Handle.nvramSet
          split <;> rfl
      · cases hloop
        exact ⟨hstr, rfl, rfl⟩

theorem notMem_hexText (width n : Nat) : 0 ∉ hexText width n := by
  unfold hexText
  rw [mem_append, not_or]
  refine ⟨by decide, ?_⟩
  intro hmem
  obtain ⟨k, -, hk⟩ := mem_map.mp hmem
  have hdigit : ∀ m < 16, UInt8.ofNat (if m < 10 then 0x30 + m else 0x37 + m) ≠ 0 := by
    decide
  exact hdigit _ (Nat.mod_lt _ (by decide)) hk

theorem Strings.setDefault (hstr : Strings h) (name value : Bytes) (hname : 0 ∉ name)
    (hvalue : 0 ∉ value) : Strings (h.setDefault name value) := by
  unfold Handle.setDefault
  split
  · exact hstr
  · exact hstr.nvramSet name value hname hvalue

theorem Strings.setSdram (hstr : Strings h) : Strings h.setSdram := by
  unfold Handle.setSdram
  exact (((hstr.setDefault sdramInit _ (by decide) (notMem_hexText _ _)).setDefault sdramConfig _
    (by decide) (notMem_hexText _ _)).setDefault sdramRefresh _ (by decide)
      (notMem_hexText _ _)).setDefault sdramNcdl _ (by decide) (notMem_hexText _ _)

theorem strings_nvramRehash (hrehash : h.nvramRehash = some h') :
    Strings h' ∧ h'.mem = h.mem ∧ h'.offset = h.offset := by
  obtain ⟨h₁, hloop, rfl⟩ := Option.map_eq_some_iff.mp hrehash
  have hempty : Strings { h with table := Table.empty } := by
    intro e he
    rw [Table.entries_empty] at he
    exact absurd he not_mem_nil
  obtain ⟨hstr, hmem, hoff⟩ := rehashLoop_strings _ _ _ _ hloop hempty
  exact ⟨hstr.setSdram, (Handle.sameBut_setSdram h₁).mem.trans hmem,
    (Handle.sameBut_setSdram h₁).offset.trans hoff⟩

structure Opened (h : Handle d) : Prop where
  strings : Strings h
  found : d.findHeader h.mem = some h.offset

theorem opened_of_nvramOpen {mem : Nat → UInt8} {rdonly : Bool}
    (hopen : nvramOpen d mem rdonly = some h) : Opened h := by
  obtain ⟨⟨offset, hfind⟩, -, hopen⟩ := Option.bind_eq_some_iff.mp hopen
  dsimp only at hopen
  split at hopen
  · obtain ⟨hstr, hmem, hoff⟩ := strings_nvramRehash hopen
    refine ⟨hstr, ?_⟩
    rw [hmem, hoff]
    exact hfind
  · cases hopen

theorem word_congr {mem mem' : Nat → UInt8} {i : Nat} (h : load mem' i 4 = load mem i 4) :
    d.word mem' i = d.word mem i := by
  unfold Device.word
  rw [h]

/-- A commit leaves the header where it is, and the words in front of it as they were. -/
theorem Opened.findHeader_image (h : Handle d) (hopen : Opened h) :
    d.findHeader h.image = some h.offset := by
  obtain ⟨i, hi, hoff⟩ := Option.map_eq_some_iff.mp hopen.found
  rw [find?_range_eq_some] at hi
  obtain ⟨-, hmem, hbefore⟩ := hi
  unfold Device.findHeader
  rw [Option.map_eq_some_iff]
  refine ⟨i, ?_, hoff⟩
  rw [find?_range_eq_some]
  refine ⟨?_, hmem, fun j hj => ?_⟩
  · rw [decide_eq_true_eq, hoff]
    exact word_of_load h.load_image_magic (by decide)
  · have hsame : load h.image (j * 4) 4 = load h.mem (j * 4) 4 :=
      load_congr fun k hk => h.image_of_lt (by omega)
    rw [word_congr hsame]
    exact hbefore j hj

theorem Opened.act (hopen : Opened h) {a : Action} (ha : CStrings h a)
    (hact : h.act a = some h') : Opened h' := by
  cases a with
  | set name value =>
    cases hact
    refine ⟨hopen.strings.nvramSet name value ha.1 ha.2, ?_⟩
    unfold Handle.nvramSet
    split
    · exact hopen.found
    · exact hopen.found
  | unset name =>
    cases hact
    refine ⟨?_, hopen.found⟩
    rintro ⟨k, v⟩ he
    rw [Table.mem_entries] at he
    exact hopen.strings (k, v) (Table.mem_entries.mpr (Table.get_of_remove he))
  | commit =>
    obtain ⟨⟨h₁, r⟩, hcommit, rfl⟩ := Option.map_eq_some_iff.mp hact
    obtain ⟨h₂, hrehash, heq⟩ := Option.map_eq_some_iff.mp hcommit
    cases heq
    obtain ⟨hstr, hmem, hoff⟩ := strings_nvramRehash hrehash
    refine ⟨hstr, ?_⟩
    rw [hmem, hoff]
    exact Opened.findHeader_image h hopen

theorem Reachable.opened {rdonly : Bool} (h : Handle d) (hreach : Reachable rdonly h) :
    Opened h := by
  obtain ⟨mem, h₀, hopen, hrun⟩ := hreach
  exact hrun.invariant (opened_of_nvramOpen hopen) fun _ _ _ hinv hok hact => hinv.act hok hact

theorem Reachable.nvramSet {rdonly : Bool} (hreach : Reachable rdonly h) (name value : Bytes)
    (hname : 0 ∉ name) (hvalue : 0 ∉ value) : Reachable rdonly (h.nvramSet name value).1 := by
  obtain ⟨mem, h₀, hopen, hrun⟩ := hreach
  exact ⟨mem, h₀, hopen, hrun.tail ⟨.set name value, ⟨hname, hvalue⟩, rfl⟩⟩

theorem nvramSet_of_le {name value : Bytes} (hle : value.length + 1 ≤ d.length - h.offset) :
    h.nvramSet name value = ({ h with table := h.table.put name value }, 0) := by
  unfold Handle.nvramSet
  rw [if_neg (by omega)]

end Reach

/-! ### All or nothing -/

theorem allOrNothing_iff {rdonly : Bool} {h : Handle d} (hreach : Reachable rdonly h) :
    (∃ h' r, h.nvramCommit = some (h', r) ∧ (r ≠ 0 ∨ Keeps h h')) ↔ Room h := by
  obtain ⟨h', hcommit, -, -, hget⟩ := exists_commit hreach.opened.strings
  rw [← keeps_iff_room hget]
  constructor
  · rintro ⟨h₁, r, hcommit₁, hkeeps⟩
    rw [hcommit] at hcommit₁
    cases hcommit₁
    exact hkeeps.resolve_left fun hr => hr rfl
  · intro hkeeps
    exact ⟨h', 0, hcommit, .inr hkeeps⟩

theorem tuples_of_sizes {h : Handle d} (hsize : sizes h.table.entries ≤ h.room) :
    h.tuples = h.table.entries :=
  placed_of_le (by rwa [Nat.zero_add])

theorem room_of_sizes {h : Handle d} (hsize : sizes h.table.entries ≤ h.room)
    (hnames : ∀ e ∈ h.table.entries, 0x3d ∉ e.1) : Room h := by
  intro e he _
  rw [tuples_of_sizes hsize]
  exact ⟨hnames e he, he⟩

theorem not_room {h : Handle d} (e e' : Bytes × Bytes) (he : e ∈ h.table.entries)
    (he' : e' ∈ h.table.entries) (hne : e ≠ e') (hsdram : e.1 ∉ sdramNames)
    (hsdram' : e'.1 ∉ sdramNames) (hsize : h.room < tupleSize e + tupleSize e') : ¬Room h := by
  intro hroom
  have hmem := (hroom e he hsdram).2
  have hmem' := (hroom e' he' hsdram').2
  have hle := h.sizes_tuples_le
  rw [sizes_perm (perm_cons_erase hmem), sizes_cons] at hle
  have hle' := tupleSize_le_sizes ((mem_erase_of_ne hne.symm).mpr hmem')
  omega

/-! #### A partition of 32 KiB -/

def smallDevice (bigEndian : Bool) : Device where
  bigEndian := bigEndian
  signedChar := true
  base := 0x77000000
  length := 0x8000
  aligned := by decide
  inside := by decide
  minSpace := by decide
  length_lt := by decide

def freshMem (d : Device) : Nat → UInt8 :=
  store (store (fun _ => 0) 0 (d.bytes magic)) 4 (d.bytes 24)

theorem exists_fresh (bigEndian : Bool) : ∃ h : Handle (smallDevice bigEndian), Reachable false h ∧
    h.offset = 0 ∧ sizes h.table.entries = 81 ∧ ∀ e ∈ h.table.entries, e.1 ∈ sdramNames := by
  obtain ⟨h, hopen, hdec⟩ :
      ∃ h ∈ nvramOpen (smallDevice bigEndian) (freshMem (smallDevice bigEndian)) false,
      h.offset = 0 ∧ sizes h.table.entries = 81 ∧
        ∀ e ∈ h.table.entries, e.1 ∈ sdramNames := by cases bigEndian <;> decide +kernel
  exact ⟨h, ⟨_, h, hopen, Relation.ReflTransGen.refl⟩, hdec⟩

theorem exists_fresh_set (bigEndian : Bool) (name value : Bytes) (hname : 0 ∉ name)
    (hsdram : name ∉ sdramNames) (hvalue : 0 ∉ value) (hlen : value.length < 0x8000) :
    ∃ h : Handle (smallDevice bigEndian), Reachable false h ∧ h.offset = 0 ∧
      h.nvramGet name = some value ∧ sizes h.table.entries = tupleSize (name, value) + 81 ∧
        ∀ e ∈ h.table.entries, e.1 = name ∨ e.1 ∈ sdramNames := by
  obtain ⟨h, hreach, hoff, hsize, hnames⟩ := exists_fresh bigEndian
  have hset := hreach.nvramSet name value hname hvalue
  rw [nvramSet_of_le (by rw [hoff]; exact hlen)] at hset
  have hnone : h.table.get name = none := by
    rw [Option.eq_none_iff_forall_ne_some]
    exact fun v hv => hsdram (hnames (name, v) (Table.mem_entries.mpr hv))
  have hperm := Table.entries_put hnone (v := value)
  refine ⟨_, hset, hoff, Table.get_put, ?_, fun e he => ?_⟩
  · rw [sizes_perm hperm, sizes_cons, hsize]
  · rcases mem_cons.mp (hperm.mem_iff.mp he) with rfl | he
    · exact .inl rfl
    · exact .inr (hnames e he)

theorem allOrNothing_smallDevice : ∃ h : Handle (smallDevice false), Reachable false h ∧
    h.nvramGet (ascii ['a']) = some (ascii ['b']) ∧
      ∃ h' r, h.nvramCommit = some (h', r) ∧ (r ≠ 0 ∨ Keeps h h') := by
  obtain ⟨h, hreach, hoff, hget, hsize, hnames⟩ := exists_fresh_set false (ascii ['a'])
    (ascii ['b']) (by decide) (by decide) (by decide) (by decide)
  refine ⟨h, hreach, hget, (allOrNothing_iff hreach).mpr (room_of_sizes ?_ ?_)⟩
  · rw [hsize]
    unfold Handle.room
    rw [hoff]
    decide
  · intro e he
    rcases hnames e he with heq | hsdram
    · rw [heq]
      decide
    · exact sdramNames_noEq e.1 hsdram

theorem exists_value (n : Nat) : ∃ v : Bytes, 0 ∉ v ∧ v.length = n := by
  refine ⟨replicate n 120, fun hmem => ?_, length_replicate⟩
  exact absurd (eq_of_mem_replicate hmem) (by decide)

/-- Two values of 20000 bytes are set.  The commit returns 0, and not all is kept. -/
theorem not_allOrNothing_smallDevice : ∃ (h h' : Handle (smallDevice false)) (v : Bytes),
    Reachable false h ∧ v.length = 20000 ∧ h.nvramGet (ascii ['a']) = some v ∧
      h.nvramGet (ascii ['b']) = some v ∧ h.nvramCommit = some (h', 0) ∧ ¬Keeps h h' := by
  obtain ⟨v, hv, hlen⟩ := exists_value 20000
  obtain ⟨h, hreach, hoff, ha, hb⟩ : ∃ h : Handle (smallDevice false), Reachable false h ∧
      h.offset = 0 ∧ h.nvramGet (ascii ['a']) = some v ∧ h.nvramGet (ascii ['b']) = some v := by
    obtain ⟨h, hreach, hoff, hget, -⟩ := exists_fresh_set false (ascii ['a']) v (by decide)
      (by decide) hv (by omega)
    have hset := hreach.nvramSet (ascii ['b']) v (by decide) hv
    rw [nvramSet_of_le (by rw [hlen, hoff]; decide)] at hset
    exact ⟨_, hset, hoff, (Table.get_put_of_ne (by decide)).trans hget, Table.get_put⟩
  obtain ⟨h', hcommit, -, -, hback⟩ := exists_commit hreach.opened.strings
  refine ⟨h, h', v, hreach, hlen, ha, hb, hcommit, fun hkeeps => ?_⟩
  have hroom : h.room = 32746 := by
    unfold Handle.room
    rw [hoff]
    rfl
  have hsize : ∀ name : Bytes, tupleSize (name, v) = name.length + 20002 := fun name => by
    unfold tupleSize
    dsimp only
    omega
  refine not_room (ascii ['a'], v) (ascii ['b'], v) (Table.mem_entries.mpr ha)
    (Table.mem_entries.mpr hb) ?_ ?_ ?_ ?_ ((keeps_iff_room hback).mp hkeeps)
  · exact fun heq => absurd (congrArg Prod.fst heq) (show ascii ['a'] ≠ ascii ['b'] by decide)
  · exact show ascii ['a'] ∉ sdramNames by decide
  · exact show ascii ['b'] ∉ sdramNames by decide
  · rw [hroom, hsize, hsize]
    decide

end Rooter.Nvram
