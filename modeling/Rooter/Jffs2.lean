import Rooter.Flash
import Rooter.Loop

/-!
# Appending a file to a JFFS2 image

Model of `jffs2.c` as far as `mtd write -j` uses it: `mtd_replace_jffs2` with its helpers
and `mtd_parse_jffs2data`.

The nodes of the file are collected in a buffer of one erase block.  `pad` hands a full
buffer to the device: it skips bad blocks, erases the next block and writes the buffer, and
does not look at the results.  What is handed over does not depend on the device, so the
blocks are collected first (`configBlocks`) and put on the device in their order
(`putBlocks`).  The C integers of the nodes are reduced to their widths.
-/

namespace Rooter.Jffs2

open List Flash Loop

/-! ### Nodes -/

def crcEntry (index : UInt32) : UInt32 :=
  (range 8).foldl
    (fun c _ => if c &&& 1 = 1 then (0xedb88320 : UInt32) ^^^ (c >>> 1) else c >>> 1) index

def crc32 (val : UInt32) (data : List UInt8) : UInt32 :=
  data.foldl (fun val byte => crcEntry ((val ^^^ byte.toUInt32) &&& 0xff) ^^^ (val >>> 8)) val

def number (bigEndian : Bool) (width n : Nat) : List UInt8 :=
  let octets := (range width).map fun i => UInt8.ofNat (n / 256 ^ i)
  if bigEndian then octets.reverse else octets

def cleanmarker (bigEndian : Bool) : List UInt8 :=
  if bigEndian then [0x19, 0x85, 0x20, 0x03, 0x00, 0x00, 0x00, 0x0c, 0xf0, 0x60, 0xdc, 0x98]
  else [0x85, 0x19, 0x03, 0x20, 0x0c, 0x00, 0x00, 0x00, 0xb1, 0xb0, 0x1e, 0xe4]

def eofMarker : List UInt8 := [0xde, 0xad, 0xc0, 0xde]

def magicBitmask : Nat := 0x1985
def nodetypeDirent : Nat := 0xe001
def nodetypeInode : Nat := 0xe002
def sizeofDirent : Nat := 40
def sizeofInode : Nat := 68

/-- `struct jffs2_unknown_node`: the start of every node, with its checksum. -/
def header (bigEndian : Bool) (nodetype totlen : Nat) : List UInt8 :=
  let start := number bigEndian 2 magicBitmask ++ number bigEndian 2 nodetype ++
    number bigEndian 4 totlen
  start ++ number bigEndian 4 (crc32 0 start).toNat

/-- `struct jffs2_raw_dirent` and the name behind it. -/
def dirent (bigEndian : Bool) (name : List UInt8) (type pino version ino : Nat) : List UInt8 :=
  let start := header bigEndian nodetypeDirent (sizeofDirent + name.length) ++
    number bigEndian 4 pino ++ number bigEndian 4 version ++ number bigEndian 4 ino ++
    number bigEndian 4 0 ++ number bigEndian 1 name.length ++ number bigEndian 1 type ++
    number bigEndian 2 0
  start ++ number bigEndian 4 (crc32 0 start).toNat ++
    number bigEndian 4 (crc32 0 name).toNat ++ name

/-- The file given with `-j`: whether `stat` and `open` succeed, its last path component, the
    fields of `stat`, and what is read from it. -/
structure ConfigFile where
  found : Bool
  opens : Bool
  name : List UInt8
  mode : Nat
  size : Nat
  atime : Nat
  ctime : Nat
  mtime : Nat
  content : List UInt8

/-- `struct jffs2_raw_inode` with a piece of the file. -/
def inode (bigEndian : Bool) (file : ConfigFile) (ino version offset : Nat)
    (data : List UInt8) : List UInt8 :=
  let start := header bigEndian nodetypeInode (sizeofInode + data.length) ++
    number bigEndian 4 ino ++ number bigEndian 4 version ++ number bigEndian 4 file.mode ++
    number bigEndian 2 0 ++ number bigEndian 2 0 ++ number bigEndian 4 file.size ++
    number bigEndian 4 file.atime ++ number bigEndian 4 file.mtime ++
    number bigEndian 4 file.ctime ++ number bigEndian 4 offset ++
    number bigEndian 4 data.length ++ number bigEndian 4 data.length ++
    number bigEndian 1 0 ++ number bigEndian 1 0 ++ number bigEndian 2 0
  start ++ number bigEndian 4 (crc32 0 data).toNat ++ number bigEndian 4 (crc32 0 start).toNat

/-! ### The buffer -/

/-- `last_ino` and `last_version`. -/
structure Numbers where
  ino : Nat
  version : Nat
deriving DecidableEq, Repr

/-- The buffer up to `ofs`, the blocks handed over so far, and the numbers. -/
structure Generator where
  buf : List UInt8
  out : List (List UInt8)
  last : Numbers

section Generate

variable (erasesize : Nat) (bigEndian : Bool)

def pad (size : Nat) (g : Generator) : Generator :=
  if g.buf.length % size = 0 ∧ g.buf.length < erasesize then g
  else
    let buf :=
      if g.buf.length < erasesize then
        g.buf ++ replicate (size - g.buf.length % size) 0xff
      else g.buf
    let ofs := buf.length % erasesize
    if ofs = 0 then { g with buf := [], out := g.out ++ [buf.take erasesize] }
    else { g with buf := buf.take ofs }

/-- `rbytes() - sizeof(struct jffs2_raw_inode)`, below zero when there is no room. -/
def room (g : Generator) : Int :=
  (erasesize - g.buf.length % erasesize : Nat) - (sizeofInode : Int)

def prepEraseblock (g : Generator) : Generator :=
  if g.buf = [] then { g with buf := cleanmarker bigEndian } else g

def addData (data : List UInt8) (g : Generator) : Generator :=
  let g :=
    if erasesize < g.buf.length + data.length then
      prepEraseblock bigEndian (pad erasesize erasesize g)
    else g
  { g with buf := g.buf ++ data }

/-- `add_dirent`.  The test for room at its start compares an `int` below zero with an
    unsigned number; it never holds while the buffer is not full. -/
def addDirent (name : List UInt8) (type parent : Nat) (g : Generator) : Generator :=
  let g := if erasesize ≤ g.buf.length then pad erasesize erasesize g else g
  let g := prepEraseblock bigEndian g
  let node := dirent bigEndian name type parent g.last.version (g.last.ino + 1)
  pad erasesize 4
    { g with buf := g.buf ++ node, last := ⟨g.last.ino + 2, g.last.version + 1⟩ }

def addPieces (file : ConfigFile) (ino : Nat) : Nat → Nat → Generator → Generator
  | 0, _, g => g
  | fuel + 1, offset, g =>
      let g :=
        if room erasesize g ≤ 128 then prepEraseblock bigEndian (pad erasesize erasesize g) else g
      let len := min (room erasesize g).toNat 4096
      let data := (file.content.drop offset).take len
      if data = [] then g
      else
        let version := g.last.version + 1
        let g := { g with last := { g.last with version := version } }
        let g := addData erasesize bigEndian (inode bigEndian file ino version offset data) g
        let g := addData erasesize bigEndian data g
        addPieces file ino fuel (offset + data.length)
          (prepEraseblock bigEndian (pad erasesize 4 g))

/-- `add_file`; `none` when it does not end.  A fresh block begins with 12 octets of the
    marker, and the search for a block with room for more than 128 octets of data behind
    the 68 of a node goes on forever when there is none. -/
def addFile (file : ConfigFile) (parent : Nat) (g : Generator) : Option Generator :=
  if file.found then
    let ino := g.last.ino + 1
    let g := addDirent erasesize bigEndian file.name 8 parent g
    if file.opens then
      if erasesize ≤ 12 + sizeofInode + 128 then none
      else some (addPieces erasesize bigEndian file ino (file.content.length + 1) 0 g)
    else some g
  else some g

def configBlocks (file : ConfigFile) (last : Numbers) : Option (List (List UInt8)) := do
  let last := if last.ino = 0 then { last with ino := 1 } else last
  let g ← addFile erasesize bigEndian file 1 ⟨[], [], last⟩
  let g := pad erasesize erasesize g
  pure (pad erasesize erasesize (addData erasesize bigEndian eofMarker g)).out

end Generate

/-! ### The blocks of the configuration -/

section Blocks

variable {erasesize : Nat} {bigEndian : Bool}

def Generator.Whole (erasesize : Nat) (g : Generator) : Prop :=
  ∀ block ∈ g.out, block.length = erasesize

variable {g : Generator} {file : ConfigFile} {last : Numbers} {blocks : List (List UInt8)}

/-- What `pad` does: nothing, or it hands over a whole block, or it cuts the buffer. -/
theorem pad_cases (size : Nat) (g : Generator) (hpos : 0 < erasesize) :
    (pad erasesize size g = g ∧ g.buf.length < erasesize) ∨
      (∃ block, block.length = erasesize ∧
        pad erasesize size g = { g with buf := [], out := g.out ++ [block] }) ∨
      ∃ buf, buf.length < erasesize ∧ pad erasesize size g = { g with buf := buf } := by
  unfold pad
  split
  · next h => exact .inl ⟨rfl, h.2⟩
  · next h =>
    refine .inr ?_
    have hne : g.buf.length ≠ 0 := fun hzero => h (by simp [hzero, hpos])
    simp only
    generalize hbuf : (if g.buf.length < erasesize then
      g.buf ++ replicate (size - g.buf.length % size) 0xff else g.buf) = buf
    have hle : g.buf.length ≤ buf.length := by
      rw [← hbuf]
      split
      · rw [length_append]
        exact Nat.le_add_right _ _
      · exact Nat.le_refl _
    split
    · next hmod =>
      refine .inl ⟨_, ?_, rfl⟩
      rw [length_take]
      exact Nat.min_eq_left (Nat.le_of_dvd (by omega) (Nat.dvd_of_mod_eq_zero hmod))
    · refine .inr ⟨_, ?_, rfl⟩
      rw [length_take]
      exact Nat.lt_of_le_of_lt (Nat.min_le_left _ _) (Nat.mod_lt _ hpos)

theorem length_buf_pad (size : Nat) (g : Generator) (hpos : 0 < erasesize) :
    (pad erasesize size g).buf.length < erasesize := by
  rcases pad_cases size g hpos with ⟨heq, hlt⟩ | ⟨block, -, heq⟩ | ⟨buf, hlt, heq⟩
  · rwa [heq]
  · rwa [heq]
  · rwa [heq]

theorem Generator.Whole.pad (h : g.Whole erasesize) (size : Nat) (hpos : 0 < erasesize) :
    (pad erasesize size g).Whole erasesize := by
  rcases pad_cases size g hpos with ⟨heq, -⟩ | ⟨block, hlen, heq⟩ | ⟨buf, -, heq⟩
  · rwa [heq]
  · rw [heq]
    intro b hb
    rcases mem_append.mp hb with hb | hb
    · exact h b hb
    · rw [mem_singleton.mp hb]
      exact hlen
  · rw [heq]
    exact h

theorem out_pad_ne_nil (hne : g.buf ≠ []) (hle : g.buf.length ≤ erasesize) :
    (pad erasesize erasesize g).out ≠ [] := by
  have hpos : 0 < g.buf.length := length_pos_iff.mpr hne
  unfold pad
  rcases Nat.lt_or_eq_of_le hle with hlt | heq
  · rw [if_neg (by rw [Nat.mod_eq_of_lt hlt]; omega)]
    simp only [if_pos hlt, length_append, length_replicate, Nat.mod_eq_of_lt hlt,
      Nat.add_sub_cancel' hle]
    simp
  · simp [heq]

theorem out_pad_of_ne_nil {size : Nat} (hpos : 0 < erasesize) (h : g.out ≠ []) :
    (pad erasesize size g).out ≠ [] := by
  rcases pad_cases size g hpos with ⟨heq, -⟩ | ⟨block, -, heq⟩ | ⟨buf, -, heq⟩
  · rwa [heq]
  · rw [heq]
    exact append_ne_nil_of_right_ne_nil _ (cons_ne_nil _ _)
  · rwa [heq]

@[simp]
theorem out_prepEraseblock (g : Generator) : (prepEraseblock bigEndian g).out = g.out := by
  unfold prepEraseblock
  split
  · rfl
  · rfl

theorem Generator.Whole.prepEraseblock (h : g.Whole erasesize) :
    (prepEraseblock bigEndian g).Whole erasesize := by
  unfold Whole
  rwa [out_prepEraseblock]

theorem Generator.Whole.addData (h : g.Whole erasesize) (data : List UInt8) (hpos : 0 < erasesize) :
    (addData erasesize bigEndian data g).Whole erasesize := by
  simp only [Jffs2.addData]
  split
  · exact (h.pad erasesize hpos).prepEraseblock
  · exact h

theorem Generator.Whole.addDirent (h : g.Whole erasesize) (name : List UInt8) (type parent : Nat)
    (hpos : 0 < erasesize) :
    (addDirent erasesize bigEndian name type parent g).Whole erasesize := by
  refine Generator.Whole.pad ?_ 4 hpos
  split
  · exact (h.pad erasesize hpos).prepEraseblock
  · exact h.prepEraseblock

theorem Generator.Whole.addPieces {ino : Nat} (hpos : 0 < erasesize) (fuel : Nat) :
    ∀ {offset : Nat} {g : Generator}, g.Whole erasesize →
      (addPieces erasesize bigEndian file ino fuel offset g).Whole erasesize := by
  induction fuel with
  | zero => exact fun h => h
  | succ fuel ih =>
    intro offset g h
    simp only [Jffs2.addPieces]
    have hroom : (if room erasesize g ≤ 128 then
        Jffs2.prepEraseblock bigEndian (Jffs2.pad erasesize erasesize g) else g).Whole
          erasesize := by
      split
      · exact (h.pad erasesize hpos).prepEraseblock
      · exact h
    generalize (if room erasesize g ≤ 128 then
      Jffs2.prepEraseblock bigEndian (Jffs2.pad erasesize erasesize g) else g) = g' at hroom ⊢
    split
    · exact hroom
    · refine ih (Generator.Whole.prepEraseblock (Generator.Whole.pad ?_ 4 hpos))
      refine Generator.Whole.addData (Generator.Whole.addData ?_ _ hpos) _ hpos
      exact hroom

theorem Generator.Whole.addFile {parent : Nat} {g' : Generator} (h : g.Whole erasesize)
    (hpos : 0 < erasesize) (hfile : addFile erasesize bigEndian file parent g = some g') :
    g'.Whole erasesize := by
  simp only [Jffs2.addFile] at hfile
  split at hfile
  · split at hfile
    · split at hfile
      · cases hfile
      · rw [← Option.some.inj hfile]
        exact Generator.Whole.addPieces hpos _ (h.addDirent _ _ _ hpos)
    · rw [← Option.some.inj hfile]
      exact h.addDirent _ _ _ hpos
  · rw [← Option.some.inj hfile]
    exact h

theorem configBlocks_eq_some (h : configBlocks erasesize bigEndian file last = some blocks) :
    ∃ last' g, addFile erasesize bigEndian file 1 ⟨[], [], last'⟩ = some g ∧
      blocks = (pad erasesize erasesize (addData erasesize bigEndian eofMarker
        (pad erasesize erasesize g))).out := by
  simp only [configBlocks, Option.bind_eq_bind, Option.bind_eq_some_iff] at h
  obtain ⟨g, hg, hblocks⟩ := h
  exact ⟨_, g, hg, Option.some.inj hblocks.symm⟩

theorem length_of_mem_configBlocks (hpos : 0 < erasesize)
    (h : configBlocks erasesize bigEndian file last = some blocks) :
    ∀ block ∈ blocks, block.length = erasesize := by
  obtain ⟨last', g, hg, rfl⟩ := configBlocks_eq_some h
  have hwhole : Generator.Whole erasesize ⟨[], [], last'⟩ := fun b hb => absurd hb not_mem_nil
  exact (((hwhole.addFile hpos hg).pad erasesize hpos).addData eofMarker hpos).pad erasesize hpos

theorem configBlocks_ne_nil (hmarker : 4 ≤ erasesize)
    (h : configBlocks erasesize bigEndian file last = some blocks) : blocks ≠ [] := by
  have hpos : 0 < erasesize := Nat.lt_of_lt_of_le (by decide) hmarker
  obtain ⟨last', g, -, rfl⟩ := configBlocks_eq_some h
  have hlt := length_buf_pad erasesize g hpos
  generalize pad erasesize erasesize g = g at hlt
  simp only [addData]
  split
  · next hfull =>
    -- the marker does not fit, so the buffer is not empty and is handed over first
    have hne : g.buf ≠ [] := by
      rintro hnil
      rw [hnil] at hfull
      exact absurd hfull (Nat.not_lt.mpr hmarker)
    refine out_pad_of_ne_nil hpos ?_
    simp only [out_prepEraseblock]
    exact out_pad_ne_nil hne (by omega)
  · next hroom =>
    refine out_pad_ne_nil ?_ ?_
    · simp [eofMarker]
    · rw [length_append]
      exact Nat.le_of_not_lt hroom

end Blocks

/-! ### Putting the blocks on the device -/

/-- The search of `pad` for a block that is not bad.  The error is the exit of
    `mtd_block_is_bad`. -/
def skipBad : Nat → Descriptor → Nat → Except Descriptor (Descriptor × Nat)
  | 0, fd, mtdofs => .ok (fd, mtdofs)
  | fuel + 1, fd, mtdofs =>
      match fd.dev.isBad mtdofs with
      | none => .error fd
      | some true =>
          if mtdofs < fd.dev.size then
            skipBad fuel (fd.seek fd.dev.erasesize) (mtdofs + fd.dev.erasesize)
          else .ok (fd, mtdofs)
      | some false => .ok (fd, mtdofs)

/-- The end of `pad`.  The results of the erase and of the write are not looked at. -/
def putBlock (fd : Descriptor) (mtdofs : Nat) (block : List UInt8) :
    Except Descriptor (Descriptor × Nat) :=
  match skipBad (fd.dev.blocks + 1) fd mtdofs with
  | .error fd => .error fd
  | .ok (fd, mtdofs) =>
      .ok ((((fd.erase (mtdofs % 2 ^ 32)).1).write block).1, mtdofs + fd.dev.erasesize)

def putBlocks : Descriptor → Nat → List (List UInt8) → Except Descriptor (Descriptor × Nat)
  | fd, mtdofs, [] => .ok (fd, mtdofs)
  | fd, mtdofs, block :: blocks =>
      match putBlock fd mtdofs block with
      | .error fd => .error fd
      | .ok (fd, mtdofs) => putBlocks fd mtdofs blocks

/-- Where the search ends: behind `j` bad blocks. -/
inductive Skips (fd : Descriptor) (mtdofs : Nat) (j : Nat) :
    Except Descriptor (Descriptor × Nat) → Prop
  | exit (hbad : fd.dev.isBad (mtdofs + fd.dev.erasesize * j) = none) :
      Skips fd mtdofs j (.error (fd.seek (fd.dev.erasesize * j)))
  | found (hbad : fd.dev.isBad (mtdofs + fd.dev.erasesize * j) = some false) :
      Skips fd mtdofs j
        (.ok (fd.seek (fd.dev.erasesize * j), mtdofs + fd.dev.erasesize * j))

theorem Skips.cons {fd : Descriptor} {mtdofs j : Nat} {r : Except Descriptor (Descriptor × Nat)}
    (h : Skips (fd.seek fd.dev.erasesize) (mtdofs + fd.dev.erasesize) j r) :
    Skips fd mtdofs (j + 1) r := by
  have hofs : mtdofs + fd.dev.erasesize + fd.dev.erasesize * j
      = mtdofs + fd.dev.erasesize * (j + 1) := by
    rw [Nat.mul_succ]
    omega
  have hseek : (fd.seek fd.dev.erasesize).seek (fd.dev.erasesize * j)
      = fd.seek (fd.dev.erasesize * (j + 1)) := by
    rw [Descriptor.seek_seek, Nat.mul_succ, Nat.add_comm]
  cases h with
  | exit hbad =>
    change fd.dev.isBad (mtdofs + fd.dev.erasesize + fd.dev.erasesize * j) = none at hbad
    rw [hofs] at hbad
    exact hseek ▸ .exit hbad
  | found hbad =>
    change fd.dev.isBad (mtdofs + fd.dev.erasesize + fd.dev.erasesize * j) = some false at hbad
    change Skips _ _ _ (.ok (_, mtdofs + fd.dev.erasesize + fd.dev.erasesize * j))
    rw [hofs] at hbad ⊢
    exact hseek ▸ .found hbad

/-- The search ends with the first block that is not bad: a bad block lies on the device, so
    there are enough repetitions. -/
theorem skipBad_spec (fuel : Nat) :
    ∀ (fd : Descriptor) (mtdofs : Nat), fd.dev.size ≤ mtdofs + fd.dev.erasesize * fuel →
      ∃ j, (∀ i < j, fd.dev.isBad (mtdofs + fd.dev.erasesize * i) = some true) ∧
        Skips fd mtdofs j (skipBad (fuel + 1) fd mtdofs) := by
  have hstop : ∀ fuel fd mtdofs, fd.dev.isBad mtdofs ≠ some true →
      ∃ j, (∀ i < j, fd.dev.isBad (mtdofs + fd.dev.erasesize * i) = some true) ∧
        Skips fd mtdofs j (skipBad (fuel + 1) fd mtdofs) := by
    intro fuel fd mtdofs hne
    refine ⟨0, fun i hi => absurd hi (by omega), ?_⟩
    rw [skipBad]
    split
    · next hbad => exact .exit hbad
    · next hbad => exact absurd hbad hne
    · next hbad => exact .found hbad
  induction fuel with
  | zero =>
    intro fd mtdofs hle
    refine hstop 0 fd mtdofs fun hbad => ?_
    exact absurd (Device.bad_of_isBad_true hbad).1 (by omega)
  | succ fuel ih =>
    intro fd mtdofs hle
    by_cases hbad : fd.dev.isBad mtdofs = some true
    · obtain ⟨j, hbads, hskips⟩ := ih (fd.seek fd.dev.erasesize) (mtdofs + fd.dev.erasesize) (by
        simp only [Descriptor.seek]
        rw [Nat.mul_succ] at hle
        omega)
      refine ⟨j + 1, fun i hi => ?_, ?_⟩
      · cases i with
        | zero => exact hbad
        | succ i =>
          have hi := hbads i (by omega)
          rw [Nat.mul_succ]
          rwa [Nat.add_comm (fd.dev.erasesize * i), ← Nat.add_assoc]
      · rw [skipBad, hbad]
        simp only [if_pos (Device.bad_of_isBad_true hbad).1]
        exact hskips.cons
    · exact hstop (fuel + 1) fd mtdofs hbad

theorem skipBad_device (fd : Descriptor) (mtdofs : Nat) :
    ∃ j, (∀ i < j, fd.dev.isBad (mtdofs + fd.dev.erasesize * i) = some true) ∧
      Skips fd mtdofs j (skipBad (fd.dev.blocks + 1) fd mtdofs) :=
  skipBad_spec _ fd mtdofs (Nat.le_add_left _ _)

theorem alike_putBlock {fd fd' : Descriptor} {mtdofs mtdofs' : Nat} {block : List UInt8}
    (h : putBlock fd mtdofs block = .ok (fd', mtdofs')) : fd.dev.Alike fd'.dev := by
  obtain ⟨j, -, hskips⟩ := skipBad_device fd mtdofs
  unfold putBlock at h
  generalize skipBad (fd.dev.blocks + 1) fd mtdofs = r at h hskips
  cases hskips with
  | exit hbad => cases h
  | found hbad =>
    cases h
    exact ((fd.seek _).alike_erase _).trans (Descriptor.alike_write _ _)

theorem alike_putBlocks (blocks : List (List UInt8)) :
    ∀ {fd fd' : Descriptor} {mtdofs mtdofs' : Nat},
      putBlocks fd mtdofs blocks = .ok (fd', mtdofs') → fd.dev.Alike fd'.dev := by
  induction blocks with
  | nil =>
    intro fd fd' mtdofs mtdofs' h
    cases h
    exact .refl _
  | cons block blocks ih =>
    intro fd fd' mtdofs mtdofs' h
    rw [putBlocks] at h
    split at h
    · cases h
    · next hput => exact (alike_putBlock hput).trans (ih h)

/-! ### Reading the numbers of an image -/

def octet (buf : List UInt8) (behind : Nat → UInt8) (i : Nat) : UInt8 :=
  (buf[i]?).getD (behind (i - buf.length))

def slice (buf : List UInt8) (behind : Nat → UInt8) (offset len : Nat) : List UInt8 :=
  (range len).map fun i => octet buf behind (offset + i)

def readNumber (bigEndian : Bool) (octets : List UInt8) : Nat :=
  (if bigEndian then octets else octets.reverse).foldl (fun n byte => 256 * n + byte.toNat) 0

structure Scan where
  ofs : Nat
  last : Numbers

/-- One node of `mtd_parse_jffs2data`.  Offsets are unsigned 32-bit numbers.  The directory
    of the node is not looked up: `mtd_replace_jffs2` puts the file into the root. -/
def parseNode (bigEndian : Bool) (buf : List UInt8) (behind : Nat → UInt8) (s : Scan) :
    Next Scan Numbers :=
  let field (start width : Nat) : Nat :=
    readNumber bigEndian (slice buf behind (s.ofs + start) width)
  if s.ofs < buf.length ∧ field 0 2 = magicBitmask then
    let ofs := (s.ofs + (field 4 4 + 3) % 2 ^ 32 / 4 * 4) % 2 ^ 32
    if field 2 2 = nodetypeDirent then
      .again ⟨ofs, max s.last.ino (field 20 4), max s.last.version (field 16 4)⟩
    else .again ⟨ofs, s.last⟩
  else .leave s.last

/-- `mtd_parse_jffs2data`; `none` when it does not end.  The next offset depends on the offset
    alone, so after as many repetitions as the block has octets an offset has come back. -/
def parseJffs2data (bigEndian : Bool) (buf : List UInt8) (behind : Nat → UInt8)
    (last : Numbers) : Option Numbers :=
  loop (parseNode bigEndian buf behind) (buf.length + 1) ⟨0, last⟩

end Rooter.Jffs2
