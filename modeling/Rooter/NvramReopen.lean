import Rooter.NvramCommit

/-!
# Opening a partition after a commit

`nvram_commit` rounds the length in the header up to four bytes, and that may be all of the
partition.  `nvram_open` for writing wants the length to be less.
-/

namespace Rooter.Nvram

open ChainedTable Memory

variable {d d' : Device} {h : Handle d}

structure SamePartition (d d' : Device) : Prop where
  bigEndian : d'.bigEndian = d.bigEndian
  length : d'.length = d.length

theorem SamePartition.word (hd : SamePartition d d') (mem : Nat → UInt8) (i : Nat) :
    d'.word mem i = d.word mem i := by
  unfold Device.word
  rw [hd.bigEndian]

theorem SamePartition.findHeader (hd : SamePartition d d') (mem : Nat → UInt8) :
    d'.findHeader mem = d.findHeader mem := by
  unfold Device.findHeader
  rw [hd.length]
  simp only [hd.word]

theorem nvramOpen_of_found {mem : Nat → UInt8} {o : Nat} (hfind : d.findHeader mem = some o) :
    nvramOpen d mem false =
      if d.word mem (o + 4) < d.length - o then
        Handle.nvramRehash
          { mem := mem
            offset := o
            table := Table.empty
            aligned := (Device.findHeader_bounds hfind).1
            space := (Device.findHeader_bounds hfind).2 }
      else none := by
  have hattach : (d.findHeader mem).attach = some ⟨o, hfind⟩ := by
    rw [Option.attach_eq_some_iff]
    exact hfind
  unfold nvramOpen
  rw [hattach]
  simp only [Option.bind_eq_bind, Option.bind_some, Bool.false_or, decide_eq_true_eq]

/-- What the next process reads, in a mapping of its own, if the length in the header is less than
    the partition's. -/
theorem exists_nvramOpen_image (hopen : Opened h) (hd : SamePartition d d') : ∃ h'' : Handle d',
    nvramOpen d' h.image false = (if h.imageLen < d.length - h.offset then some h'' else none) ∧
      h''.offset = h.offset ∧
        ∀ k ∉ sdramNames, h''.nvramGet k = (Handle.readBack d' h.tuples).get k := by
  have hfind : d'.findHeader h.image = some h.offset :=
    (hd.findHeader _).trans (Opened.findHeader_image h hopen)
  have hlast := h.last_le
  obtain ⟨h'', hrehash, -, hoff, hget⟩ := Handle.nvramRehash_eq
    (h := { mem := h.image, offset := h.offset, table := Table.empty,
            aligned := (Device.findHeader_bounds hfind).1,
            space := (Device.findHeader_bounds hfind).2 })
    (fun e he => hopen.strings e ((tuples_sublist h).subset he))
    (by unfold Handle.last at hlast; dsimp only; rw [hd.length]; omega) h.load_image_data
  refine ⟨h'', ?_, hoff, hget⟩
  rw [nvramOpen_of_found hfind, hd.word, word_image_len, hrehash, hd.length]

variable (h) in
/-- After a commit the partition can be opened for writing, with the header where it was. -/
def Reopens (d' : Device) : Prop :=
  ∃ h' r, h.nvramCommit = some (h', r) ∧
    ∃ h'', nvramOpen d' h'.mem false = some h'' ∧ h''.offset = h.offset

theorem reopens_iff_imageLen (hopen : Opened h) (hd : SamePartition d d') :
    Reopens h d' ↔ h.imageLen < d.length - h.offset := by
  obtain ⟨h', hcommit, hmem, -, -⟩ := exists_commit hopen.strings
  obtain ⟨h'', hopens, hoff, -⟩ := exists_nvramOpen_image hopen hd
  rw [← hmem] at hopens
  constructor
  · rintro ⟨h₁, r, hcommit₁, h₂, hopen₂, -⟩
    rw [hcommit] at hcommit₁
    cases hcommit₁
    rw [hopens] at hopen₂
    split at hopen₂
    · assumption
    · cases hopen₂
  · intro hlen
    exact ⟨h', 0, hcommit, h'', hopens.trans (if_pos hlen), hoff⟩

theorem reopens_iff (hreach : Reachable false h) (hd : SamePartition d d') :
    Reopens h d' ↔ 22 + sizes h.tuples ≤ (d.length - h.offset - 1) / 4 * 4 := by
  rw [reopens_iff_imageLen hreach.opened hd]
  unfold Handle.imageLen Handle.last
  omega

/-- A variable of a few bytes. -/
theorem reopens_smallDevice : ∃ h : Handle (smallDevice true), Reachable false h ∧
    h.nvramGet (ascii ['a']) = some (ascii ['b']) ∧ Reopens h (smallDevice true) := by
  obtain ⟨h, hreach, hoff, hget, hsize, -⟩ := exists_fresh_set true (ascii ['a']) (ascii ['b'])
    (by decide) (by decide) (by decide) (by decide)
  refine ⟨h, hreach, hget, (reopens_iff hreach ⟨rfl, rfl⟩).mpr ?_⟩
  have hle : sizes h.tuples ≤ sizes h.table.entries := sizes_le_of_sublist (tuples_sublist h)
  rw [hsize] at hle
  rw [hoff]
  exact Nat.le_trans (Nat.add_le_add_left hle 22) (by decide)

/-- The variables fill the partition.  All of them are written, and it is not opened again. -/
theorem not_reopens_smallDevice : ∃ (h h' : Handle (smallDevice false)) (v : Bytes),
    Reachable false h ∧ h.nvramGet (ascii ['a']) = some v ∧ v.length = 32662 ∧
      h.nvramCommit = some (h', 0) ∧ h'.nvramGet (ascii ['a']) = some v ∧
        nvramOpen (smallDevice false) h'.mem false = none := by
  obtain ⟨v, hv, hlen⟩ := exists_value 32662
  obtain ⟨h, hreach, hoff, hget, hsize, hnames⟩ := exists_fresh_set false (ascii ['a']) v
    (by decide) (by decide) hv (by omega)
  have htuple : tupleSize (ascii ['a'], v) = (ascii ['a']).length + v.length + 2 := rfl
  have hname : (ascii ['a']).length = 1 := rfl
  have hsize' : sizes h.table.entries = 32746 := by
    omega
  have hroom : h.room = 32746 := by
    unfold Handle.room
    rw [hoff]
    rfl
  have hopen := hreach.opened
  obtain ⟨h', hcommit, hmem, -, hback⟩ := exists_commit hopen.strings
  have hkeeps := (keeps_iff_room hback).mpr (room_of_sizes (by omega) fun e he => by
    rcases hnames e he with heq | hsdram
    · rw [heq]
      decide
    · exact sdramNames_noEq e.1 hsdram)
  refine ⟨h, h', v, hreach, hget, hlen, hcommit, hkeeps _ _ (by decide) hget, ?_⟩
  have hfind : (smallDevice false).findHeader h'.mem = some h.offset := by
    rw [hmem]
    exact Opened.findHeader_image h hopen
  rw [nvramOpen_of_found hfind, if_neg]
  rw [hmem, word_image_len, hoff]
  unfold Handle.imageLen Handle.last
  rw [tuples_of_sizes (by omega), hsize']
  decide

end Rooter.Nvram
