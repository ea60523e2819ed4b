import Mathlib.Data.List.Infix
import Rooter.Jffs2
import Rooter.PaddedBlocks

/-!
# The directory of an appended file

Model of `mtd_write_jffs2`, which puts a file into a directory of a JFFS2 image.  The nodes of
the image are walked for the directory and for the largest numbers in use (`parseBlocks`); a
directory that is not found is created (`addDir`), and the file gets the next number.

An `Image` is a list of blocks of well-formed nodes, every one of which the walk meets
(`parseBlocks_image`).  An entry is taken for the directory if its name agrees with the wanted one
as far as the entry's name goes, so the last entry of the root whose name begins the wanted one
decides.
-/

namespace Rooter.Jffs2Directory

open List Jffs2 Loop PaddedBlocks

/-! ### The program -/

/-- `!strncmp(a, b, n)` for the `n` octets at `a` and a string `b`. -/
def sameStart : List UInt8 → List UInt8 → Bool
  | [], _ => true
  | a :: _, [] => a = 0
  | a :: s, b :: t => a = b && sameStart s t

/-- `target_ino` and the numbers. -/
structure Parsed where
  target : Nat
  last : Numbers
deriving DecidableEq, Repr

structure DirScan where
  ofs : Nat
  parsed : Parsed

def parseNodeIn (bigEndian : Bool) (dir buf : List UInt8) (behind : Nat → UInt8) (s : DirScan) :
    Next DirScan Parsed :=
  let field (start width : Nat) : Nat :=
    readNumber bigEndian (slice buf behind (s.ofs + start) width)
  if s.ofs < buf.length ∧ field 0 2 = magicBitmask then
    let ofs := (s.ofs + (field 4 4 + 3) % 2 ^ 32 / 4 * 4) % 2 ^ 32
    if field 2 2 = nodetypeDirent then
      let target :=
        if dir ≠ [] ∧ field 12 4 = 1 ∧
            sameStart (slice buf behind (s.ofs + 40) (field 28 1)) dir = true then field 20 4
        else s.parsed.target
      .again ⟨ofs, target, max s.parsed.last.ino (field 20 4),
        max s.parsed.last.version (field 16 4)⟩
    else .again ⟨ofs, s.parsed⟩
  else .leave s.parsed

def parseJffs2dataIn (bigEndian : Bool) (dir buf : List UInt8) (behind : Nat → UInt8)
    (p : Parsed) : Option Parsed :=
  loop (parseNodeIn bigEndian dir buf behind) (buf.length + 1) ⟨0, p⟩

inductive Failure where
  | wrongEndianness
  | noRoom
deriving DecidableEq, Repr

def parseBlocks (bigEndian : Bool) (dir : List UInt8) (behind : Nat → UInt8) :
    List (List UInt8) → Parsed → Option (Except Failure Parsed)
  | [], _ => some (.error .noRoom)
  | buf :: rest, p =>
      let magic := readNumber bigEndian (slice buf behind 0 2)
      if magic = 0x8519 then some (.error .wrongEndianness)
      else if magic ≠ magicBitmask then some (.ok p)
      else
        (parseJffs2dataIn bigEndian dir buf behind p).bind (parseBlocks bigEndian dir behind rest)

section Write

variable (erasesize : Nat) (bigEndian : Bool)

def directory : ConfigFile where
  found := true
  opens := true
  name := []
  mode := 0x41ed
  size := 0
  atime := 0
  ctime := 0
  mtime := 0
  content := []

/-- The number that `add_dirent` gives to the next entry and returns. -/
def nextInode (g : Generator) : Nat := (g.last.ino + 1) % 2 ^ 32

def addDir (name : List UInt8) (parent : Nat) (g : Generator) : Generator × Nat :=
  let ino := nextInode g
  let g := addDirent erasesize bigEndian name 4 parent g
  let g := if room erasesize g < 0 then pad erasesize erasesize g else g
  let g := addData erasesize bigEndian (inode bigEndian directory ino 1 0 [])
    (prepEraseblock bigEndian g)
  (pad erasesize 4 g, ino)

/-- What is written: into which directory, the numbers of the new entries, and the blocks;
    `none` when `add_file` does not end. -/
structure Written where
  target : Nat
  inodes : List Nat
  blocks : Option (List (List UInt8))

def writeNodes (dir : List UInt8) (file : ConfigFile) (p : Parsed) : Written :=
  let last := if p.last.ino = 0 then { p.last with ino := 1 } else p.last
  let (g, target, inodes) : Generator × Nat × List Nat :=
    if p.target = 0 then
      let (g, ino) := addDir erasesize bigEndian dir 1 ⟨[], [], last⟩
      (g, ino, [ino])
    else (⟨[], [], last⟩, p.target, [])
  { target := target
    inodes := if file.found then inodes ++ [nextInode g] else inodes
    blocks := (addFile erasesize bigEndian file target g).map fun g =>
      (pad erasesize erasesize (addData erasesize bigEndian eofMarker
        (pad erasesize erasesize g))).out }

/-- `mtd_write_jffs2` on the blocks of a partition. -/
def mtdWriteJffs2 (dir : List UInt8) (file : ConfigFile) (behind : Nat → UInt8)
    (flash : List (List UInt8)) : Option (Except Failure Written) :=
  (parseBlocks bigEndian dir behind flash ⟨if dir = [] then 1 else 0, 0, 0⟩).map
    (Except.map (writeNodes erasesize bigEndian dir file))

end Write

/-! ### Images -/

def field (bigEndian : Bool) (octets : List UInt8) (start width : Nat) : Nat :=
  readNumber bigEndian ((octets.drop start).take width)

/-- A well-formed node: its length is the one in its header, and the name of a directory entry
    is not empty, has no NUL and ends the node. -/
structure RawNode (bigEndian : Bool) where
  octets : List UInt8
  header : 12 ≤ octets.length
  magic : field bigEndian octets 0 2 = magicBitmask
  totlen : field bigEndian octets 4 4 = octets.length
  dirent : field bigEndian octets 2 2 = nodetypeDirent →
    octets.length = sizeofDirent + field bigEndian octets 28 1 ∧
      octets.drop sizeofDirent ≠ [] ∧ 0 ∉ octets.drop sizeofDirent

structure Entry where
  pino : Nat
  version : Nat
  ino : Nat
  name : List UInt8
deriving DecidableEq, Repr

def RawNode.entry? {bigEndian : Bool} (n : RawNode bigEndian) : Option Entry :=
  if field bigEndian n.octets 2 2 = nodetypeDirent then
    some ⟨field bigEndian n.octets 12 4, field bigEndian n.octets 16 4,
      field bigEndian n.octets 20 4, n.octets.drop sizeofDirent⟩
  else none

/-- Nodes one behind the other, each filled up to a multiple of four octets. -/
def packed {bigEndian : Bool} (nodes : List (RawNode bigEndian)) : List UInt8 :=
  nodes.flatMap fun n => padded 4 0xff n.octets

/-- A file system: blocks of nodes, and a block behind them that does not begin with a node. -/
structure Image (erasesize : Nat) (bigEndian : Bool) where
  blocks : List (List (RawNode bigEndian))
  stop : List UInt8
  align : 4 ∣ erasesize
  pos : 0 < erasesize
  small : erasesize < 2 ^ 31
  nonempty : ∀ nodes ∈ blocks, nodes ≠ []
  fits : ∀ nodes ∈ blocks, (packed nodes).length ≤ erasesize
  length_stop : stop.length = erasesize
  no_magic : field bigEndian stop 0 2 ≠ magicBitmask ∧ field bigEndian stop 0 2 ≠ 0x8519

def Image.flash {erasesize : Nat} {bigEndian : Bool} (image : Image erasesize bigEndian) :
    List (List UInt8) :=
  image.blocks.map (fun nodes => (packed nodes).rightpad erasesize 0xff) ++ [image.stop]

def Image.entries {erasesize : Nat} {bigEndian : Bool} (image : Image erasesize bigEndian) :
    List Entry :=
  image.blocks.flatten.filterMap RawNode.entry?

/-! ### The walk over an image -/

def Parsed.see (dir : List UInt8) (p : Parsed) (e : Entry) : Parsed :=
  ⟨if dir ≠ [] ∧ e.pino = 1 ∧ sameStart e.name dir = true then e.ino else p.target,
    max p.last.ino e.ino, max p.last.version e.version⟩

section Walk

variable {erasesize : Nat} {bigEndian : Bool} {dir : List UInt8} {behind : Nat → UInt8}

theorem slice_eq {buf : List UInt8} {offset len : Nat} (h : offset + len ≤ buf.length) :
    slice buf behind offset len = (buf.drop offset).take len := by
  refine ext_getElem ?_ fun i hi hi' => ?_
  · rw [slice, length_map, length_range, length_take, length_drop]
    omega
  · rw [slice, length_map, length_range] at hi
    have hlt : offset + i < buf.length := by omega
    simp [slice, octet, hlt]

theorem slice_append {before octets after : List UInt8} {start len : Nat}
    (h : start + len ≤ octets.length) :
    slice (before ++ (octets ++ after)) behind (before.length + start) len =
      (octets.drop start).take len := by
  have hle : before.length + start + len ≤ (before ++ (octets ++ after)).length := by
    simp only [length_append]
    omega
  have htake : len ≤ (octets.drop start).length := by
    rw [length_drop]
    omega
  rw [slice_eq hle, ← drop_drop, drop_left, drop_append_of_le_length (by omega),
    take_append_of_le_length htake]

/-- **One node.**  The walk goes on behind the node, and an entry is looked at. -/
theorem parseNodeIn_node (n : RawNode bigEndian) (before after : List UInt8) (p : Parsed)
    (hsmall : before.length + (padded 4 0xff n.octets).length < 2 ^ 32) :
    parseNodeIn bigEndian dir (before ++ (padded 4 0xff n.octets ++ after)) behind
        ⟨before.length, p⟩ =
      .again ⟨before.length + (padded 4 0xff n.octets).length, n.entry?.elim p (p.see dir)⟩ := by
  have hheader := n.header
  have hfield : ∀ start width, start + width ≤ n.octets.length →
      readNumber bigEndian (slice (before ++ (padded 4 0xff n.octets ++ after)) behind
        (before.length + start) width) = field bigEndian n.octets start width := by
    intro start width h
    rw [padded, append_assoc, slice_append h]
    rfl
  have hlength : (padded 4 0xff n.octets).length =
      n.octets.length + (4 - n.octets.length % 4) % 4 := by
    rw [padded, length_append, length_replicate]
  have hinside : before.length < (before ++ (padded 4 0xff n.octets ++ after)).length := by
    simp only [length_append]
    omega
  have hofs : (before.length + (n.octets.length + 3) % 2 ^ 32 / 4 * 4) % 2 ^ 32 =
      before.length + (padded 4 0xff n.octets).length := by
    omega
  simp only [parseNodeIn, hfield 0 2 (by omega), hfield 4 4 (by omega), hfield 2 2 (by omega),
    n.magic, n.totlen, hinside, hofs, and_self, if_true]
  by_cases htype : field bigEndian n.octets 2 2 = nodetypeDirent
  · obtain ⟨hsize, hne, -⟩ := n.dirent htype
    have hname := length_pos_iff.mpr hne
    rw [sizeofDirent] at hsize hname
    have hslice : slice (before ++ (padded 4 0xff n.octets ++ after)) behind
        (before.length + 40) (field bigEndian n.octets 28 1) = n.octets.drop 40 := by
      rw [padded, append_assoc, slice_append (by omega), take_of_length_le]
      rw [length_drop]
      omega
    simp only [if_pos htype, hfield 12 4 (by omega), hfield 28 1 (by omega), hfield 20 4 (by omega),
      hfield 16 4 (by omega), hslice, RawNode.entry?, Option.elim_some, Parsed.see, sizeofDirent]
  · simp only [if_neg htype, RawNode.entry?, Option.elim_none]

theorem readNumber_ff : readNumber bigEndian [0xff, 0xff] = 0xffff := by
  cases bigEndian <;> rfl

/-- **The end of the nodes.** -/
theorem parseNodeIn_end {before : List UInt8} (h4 : 4 ∣ before.length) (halign : 4 ∣ erasesize)
    (hle : before.length ≤ erasesize) (p : Parsed) :
    parseNodeIn bigEndian dir (before.rightpad erasesize 0xff) behind ⟨before.length, p⟩ =
      .leave p := by
  refine if_neg ?_
  rintro ⟨hlt, hmagic⟩
  dsimp only at hlt hmagic
  rw [length_rightpad_of_le hle] at hlt
  have hfill : slice (before.rightpad erasesize 0xff) behind (before.length + 0) 2 =
      [0xff, 0xff] := by
    obtain ⟨k, hk⟩ : ∃ k, erasesize - before.length = k + 2 :=
      ⟨erasesize - before.length - 2, by omega⟩
    rw [rightpad, hk, ← append_nil (replicate _ _), slice_append (by simp)]
    simp
  rw [hfill, readNumber_ff] at hmagic
  exact absurd hmagic (by decide)

theorem packed_cons (n : RawNode bigEndian) (nodes : List (RawNode bigEndian)) :
    packed (n :: nodes) = padded 4 0xff n.octets ++ packed nodes := flatMap_cons

/-- **The nodes of a block**, from a node on. -/
theorem loop_nodes (halign : 4 ∣ erasesize) (hsmall : erasesize < 2 ^ 31)
    (nodes : List (RawNode bigEndian)) : ∀ {before : List UInt8} {fuel : Nat} {p : Parsed},
      4 ∣ before.length → (before ++ packed nodes).length ≤ erasesize → nodes.length < fuel →
      loop (parseNodeIn bigEndian dir ((before ++ packed nodes).rightpad erasesize 0xff) behind)
        fuel ⟨before.length, p⟩ =
          some ((nodes.filterMap RawNode.entry?).foldl (Parsed.see dir) p) := by
  induction nodes with
  | nil =>
    intro before fuel p h4 hle hfuel
    obtain ⟨fuel, rfl⟩ := Nat.exists_eq_succ_of_ne_zero (Nat.ne_zero_of_lt hfuel)
    rw [packed, flatMap_nil, append_nil] at hle ⊢
    exact loop_leave (parseNodeIn_end h4 halign hle p)
  | cons n nodes ih =>
    intro before fuel p h4 hle hfuel
    obtain ⟨fuel, rfl⟩ := Nat.exists_eq_succ_of_ne_zero (Nat.ne_zero_of_lt hfuel)
    rw [packed_cons, ← append_assoc] at hle ⊢
    have hlength : before.length + (padded 4 0xff n.octets).length ≤ erasesize := by
      rw [length_append, length_append] at hle
      omega
    obtain ⟨after, hbuf⟩ : ∃ after,
        (before ++ padded 4 0xff n.octets ++ packed nodes).rightpad erasesize 0xff =
          before ++ (padded 4 0xff n.octets ++ after) :=
      ⟨_, by rw [rightpad, append_assoc, append_assoc]⟩
    have hstep := @parseNodeIn_node bigEndian dir behind n before after p (by omega)
    rw [← hbuf] at hstep
    rw [loop_again hstep, ← length_append,
      ih (by rw [length_append]; exact Nat.dvd_add h4 (dvd_length_padded (by decide) _)) hle
        (Nat.lt_of_succ_lt_succ hfuel)]
    cases hentry : n.entry? with
    | none => rw [filterMap_cons_none hentry, Option.elim_none]
    | some e => rw [filterMap_cons_some hentry, Option.elim_some, foldl_cons]

theorem length_le_packed (nodes : List (RawNode bigEndian)) :
    nodes.length ≤ (packed nodes).length := by
  induction nodes with
  | nil => exact Nat.zero_le _
  | cons n nodes ih =>
    have hheader := n.header
    rw [packed_cons, length_append, padded, length_append, length_cons]
    omega

theorem parseJffs2dataIn_block {nodes : List (RawNode bigEndian)} (halign : 4 ∣ erasesize)
    (hsmall : erasesize < 2 ^ 31) (hle : (packed nodes).length ≤ erasesize) (p : Parsed) :
    parseJffs2dataIn bigEndian dir ((packed nodes).rightpad erasesize 0xff) behind p =
      some ((nodes.filterMap RawNode.entry?).foldl (Parsed.see dir) p) := by
  have hfuel : nodes.length < ((packed nodes).rightpad erasesize 0xff).length + 1 := by
    rw [length_rightpad_of_le hle]
    exact Nat.lt_succ_of_le (Nat.le_trans (length_le_packed nodes) hle)
  exact @loop_nodes erasesize bigEndian dir behind halign hsmall nodes [] _ p (by simp) hle hfuel

theorem magic_block {nodes : List (RawNode bigEndian)} (hne : nodes ≠ []) :
    readNumber bigEndian (slice ((packed nodes).rightpad erasesize 0xff) behind 0 2) =
      magicBitmask := by
  obtain ⟨n, nodes, rfl⟩ := exists_cons_of_ne_nil hne
  have hheader := n.header
  obtain ⟨rest, hbuf⟩ : ∃ rest, (packed (n :: nodes)).rightpad erasesize 0xff =
      n.octets ++ rest :=
    ⟨_, by rw [rightpad, packed_cons, padded, append_assoc, append_assoc]⟩
  have hlength : 0 + 2 ≤ (n.octets ++ rest).length := by
    rw [length_append]
    omega
  rw [hbuf, slice_eq hlength, drop_zero, take_append_of_le_length (by omega)]
  exact n.magic

/-- **The walk over an image** meets all its entries. -/
theorem parseBlocks_image (image : Image erasesize bigEndian) (p : Parsed) :
    parseBlocks bigEndian dir behind image.flash p =
      some (.ok (image.entries.foldl (Parsed.see dir) p)) := by
  obtain ⟨blocks, stop, halign, hpos, hsmall, hnonempty, hfits, hstop, hmagic⟩ := image
  simp only [Image.flash, Image.entries]
  induction blocks generalizing p with
  | nil =>
    have hfield : readNumber bigEndian (slice stop behind 0 2) = field bigEndian stop 0 2 := by
      rw [slice_eq (by omega), field]
    simp [parseBlocks, hfield, hmagic]
  | cons nodes blocks ih =>
    have hrest := ih ((nodes.filterMap RawNode.entry?).foldl (Parsed.see dir) p)
      (fun x hx => hnonempty x (mem_cons_of_mem _ hx))
      fun x hx => hfits x (mem_cons_of_mem _ hx)
    have hne : ¬ magicBitmask = 0x8519 := by decide
    simp only [map_cons, cons_append, parseBlocks,
      magic_block (hnonempty nodes mem_cons_self), if_neg hne, ne_eq, not_true_eq_false,
      if_false, parseJffs2dataIn_block halign hsmall (hfits nodes mem_cons_self),
      Option.bind_some, hrest, flatten_cons, filterMap_append, foldl_append]

end Walk

/-! ### The directory and the numbers -/

def lastRoot (q : List UInt8 → Bool) (entries : List Entry) : Option Entry :=
  entries.reverse.find? fun e => decide (e.pino = 1) && q e.name

def wanted (dir : List UInt8) (entries : List Entry) : Nat :=
  ((lastRoot (fun name => decide (name = dir)) entries).map Entry.ino).getD 0

section Fold

variable {erasesize : Nat} {bigEndian : Bool} {dir : List UInt8}

theorem lastRoot_append (q : List UInt8 → Bool) (entries : List Entry) (e : Entry) :
    lastRoot q (entries ++ [e]) =
      if e.pino = 1 ∧ q e.name = true then some e else lastRoot q entries := by
  rw [lastRoot, reverse_append, reverse_singleton, singleton_append, find?_cons]
  by_cases h : e.pino = 1 ∧ q e.name = true
  · simp [h]
  · rw [if_neg h]
    have hfalse : (decide (e.pino = 1) && q e.name) = false := by simpa using h
    rw [hfalse]
    rfl

theorem lastRoot_congr {q q' : List UInt8 → Bool} {entries : List Entry} :
    (∀ e ∈ entries, q e.name = q' e.name) → lastRoot q entries = lastRoot q' entries := by
  induction entries using reverseRecOn with
  | nil => exact fun _ => rfl
  | append_singleton entries e ih =>
    intro h
    rw [lastRoot_append, lastRoot_append, h e (by simp),
      ih fun x hx => h x (mem_append_left _ hx)]

theorem lastRoot_of_imp {q q' : List UInt8 → Bool} (himp : ∀ name, q name = true → q' name = true)
    {entries : List Entry} {e : Entry} :
    lastRoot q' entries = some e → q e.name = true → lastRoot q entries = some e := by
  induction entries using reverseRecOn with
  | nil => exact fun h _ => by cases h
  | append_singleton entries x ih =>
    intro h hq
    rw [lastRoot_append] at h ⊢
    by_cases hx : x.pino = 1 ∧ q' x.name = true
    · rw [if_pos hx] at h
      cases h
      rw [if_pos ⟨hx.1, hq⟩]
    · rw [if_neg hx] at h
      rw [if_neg fun hex => hx ⟨hex.1, himp _ hex.2⟩]
      exact ih h hq

theorem target_foldl (hdir : dir ≠ []) (entries : List Entry) (p : Parsed) :
    (entries.foldl (Parsed.see dir) p).target =
      ((lastRoot (fun name => sameStart name dir) entries).map Entry.ino).getD p.target := by
  induction entries using reverseRecOn with
  | nil => rfl
  | append_singleton entries e ih =>
    rw [foldl_append, foldl_cons, foldl_nil, lastRoot_append, Parsed.see]
    by_cases h : e.pino = 1 ∧ sameStart e.name dir = true
    · simp [h, hdir]
    · have hnot : ¬ (dir ≠ [] ∧ e.pino = 1 ∧ sameStart e.name dir = true) := fun hall => h hall.2
      rw [if_neg h]
      simp only [if_neg hnot, ih]

theorem ino_foldl (entries : List Entry) (p : Parsed) :
    (∀ e ∈ entries, e.ino ≤ (entries.foldl (Parsed.see dir) p).last.ino) ∧
      ((entries.foldl (Parsed.see dir) p).last.ino = p.last.ino ∨
        ∃ e ∈ entries, e.ino = (entries.foldl (Parsed.see dir) p).last.ino) := by
  induction entries using reverseRecOn with
  | nil => simp
  | append_singleton entries e ih =>
    obtain ⟨hle, hattained⟩ := ih
    rw [foldl_append, foldl_cons]
    change (∀ x ∈ entries ++ [e], x.ino ≤ max _ e.ino) ∧
      (max _ e.ino = _ ∨ ∃ x ∈ entries ++ [e], x.ino = max _ e.ino)
    generalize (entries.foldl (Parsed.see dir) p).last.ino = m at hle hattained ⊢
    constructor
    · intro x hx
      rcases mem_append.mp hx with hx | hx
      · exact (hle x hx).trans (le_max_left _ _)
      · rw [mem_singleton.mp hx]
        exact le_max_right _ _
    · rcases le_total e.ino m with h | h
      · rw [max_eq_left h]
        rcases hattained with heq | ⟨x, hx, heq⟩
        · exact .inl heq
        · exact .inr ⟨x, mem_append_left _ hx, heq⟩
      · rw [max_eq_right h]
        exact .inr ⟨e, by simp, rfl⟩

theorem sameStart_iff {name : List UInt8} (hnul : 0 ∉ name) :
    sameStart name dir = name.isPrefixOf dir := by
  induction name generalizing dir with
  | nil => cases dir <;> rfl
  | cons a name ih =>
    rw [mem_cons, not_or] at hnul
    cases dir with
    | nil => simpa [sameStart] using Ne.symm hnul.1
    | cons b dir =>
      rw [sameStart, ih hnul.2]
      rfl

theorem readNumber_lt (octets : List UInt8) :
    readNumber bigEndian octets < 256 ^ octets.length := by
  have hfold : ∀ (l : List UInt8) (m : Nat),
      l.foldl (fun n byte => 256 * n + byte.toNat) m < 256 ^ l.length * (m + 1) := by
    intro l
    induction l with
    | nil => simp
    | cons a l ih =>
      intro m
      refine Nat.lt_of_lt_of_le (ih _) ?_
      have ha := a.toNat_lt
      have hstep : 256 * m + a.toNat + 1 ≤ 256 * (m + 1) := by omega
      rw [length_cons, Nat.pow_succ, Nat.mul_assoc]
      exact Nat.mul_le_mul_left _ hstep
  unfold readNumber
  split_ifs
  · simpa using hfold octets 0
  · simpa using hfold octets.reverse 0

theorem of_mem_entries {image : Image erasesize bigEndian} {e : Entry} (h : e ∈ image.entries) :
    e.ino < 2 ^ 32 ∧ 0 ∉ e.name := by
  obtain ⟨n, -, hn⟩ := mem_filterMap.mp h
  unfold RawNode.entry? at hn
  split_ifs at hn with htype
  cases hn
  refine ⟨?_, (n.dirent htype).2.2⟩
  refine Nat.lt_of_lt_of_le (readNumber_lt _) ?_
  have hle : ((n.octets.drop 20).take 4).length ≤ 4 := length_take_le _ _
  exact Nat.le_trans (Nat.pow_le_pow_right (by decide) hle) (by decide)

theorem lastRoot_sameStart (image : Image erasesize bigEndian) :
    lastRoot (fun name => sameStart name dir) image.entries =
      lastRoot (fun name => name.isPrefixOf dir) image.entries := by
  refine lastRoot_congr fun e he => ?_
  rw [sameStart_iff (of_mem_entries he).2]

/-- The directory is the wanted one if and only if the last entry of the root whose name begins
    the wanted name has this name, or the same inode. -/
theorem target_eq_wanted_iff (hdir : dir ≠ []) (image : Image erasesize bigEndian) :
    (image.entries.foldl (Parsed.see dir) ⟨0, 0, 0⟩).target = wanted dir image.entries ↔
      ∀ e, lastRoot (fun name => name.isPrefixOf dir) image.entries = some e →
        e.name = dir ∨ e.ino = wanted dir image.entries := by
  rw [target_foldl hdir, lastRoot_sameStart]
  generalize image.entries = entries
  cases hlast : lastRoot (fun name => name.isPrefixOf dir) entries with
  | none =>
    have hnone : lastRoot (fun name => decide (name = dir)) entries = none := by
      refine find?_eq_none.mpr fun e he hexact => find?_eq_none.mp hlast e he ?_
      simp only [Bool.and_eq_true, decide_eq_true_eq] at hexact ⊢
      exact ⟨hexact.1, by simp [hexact.2]⟩
    simp [wanted, hnone]
  | some e =>
    have hexact : e.name = dir → wanted dir entries = e.ino := by
      intro hname
      have himp : ∀ name : List UInt8, decide (name = dir) = true →
          name.isPrefixOf dir = true := fun name h => by simp [of_decide_eq_true h]
      rw [wanted, lastRoot_of_imp himp hlast (decide_eq_true hname)]
      rfl
    simp only [Option.some.injEq, forall_eq']
    constructor
    · exact .inr
    · rintro (hname | hino)
      · exact (hexact hname).symm
      · exact hino

end Fold

/-! ### The file -/

section Inodes

variable {erasesize : Nat} {bigEndian : Bool}

theorem last_pad (size : Nat) (g : Generator) : (pad erasesize size g).last = g.last := by
  simp only [pad]
  split_ifs <;> rfl

theorem last_prepEraseblock (g : Generator) : (prepEraseblock bigEndian g).last = g.last := by
  unfold prepEraseblock
  split_ifs <;> rfl

theorem last_addData (data : List UInt8) (g : Generator) :
    (addData erasesize bigEndian data g).last = g.last := by
  simp only [addData]
  split_ifs
  · rw [last_prepEraseblock, last_pad]
  · rfl

theorem last_addDirent (name : List UInt8) (type parent : Nat) (g : Generator) :
    (addDirent erasesize bigEndian name type parent g).last =
      ⟨g.last.ino + 2, g.last.version + 1⟩ := by
  simp only [addDirent, last_pad, last_prepEraseblock]
  split_ifs
  · rw [last_pad]
  · rfl

theorem addDir_fst_last (name : List UInt8) (parent : Nat) (g : Generator) :
    (addDir erasesize bigEndian name parent g).1.last = ⟨g.last.ino + 2, g.last.version + 1⟩ := by
  simp only [addDir, last_pad, last_addData, last_prepEraseblock]
  split_ifs
  · rw [last_pad, last_addDirent]
  · rw [last_addDirent]

/-- The numbers of the new entries: one for the file, and one for a directory that has to be
    created. -/
theorem writeNodes_cases {dir : List UInt8} {file : ConfigFile} {p : Parsed}
    (hfound : file.found = true) :
    (p.target = 0 ∧
      (writeNodes erasesize bigEndian dir file p).target = (max p.last.ino 1 + 1) % 2 ^ 32 ∧
      (writeNodes erasesize bigEndian dir file p).inodes =
        [(max p.last.ino 1 + 1) % 2 ^ 32, (max p.last.ino 1 + 3) % 2 ^ 32]) ∨
    (p.target ≠ 0 ∧ (writeNodes erasesize bigEndian dir file p).target = p.target ∧
      (writeNodes erasesize bigEndian dir file p).inodes = [(max p.last.ino 1 + 1) % 2 ^ 32]) := by
  have hlast : (if p.last.ino = 0 then { p.last with ino := 1 } else p.last).ino =
      max p.last.ino 1 := by
    split_ifs with hzero
    · rw [hzero]
      rfl
    · rw [max_eq_left (by omega)]
  by_cases htarget : p.target = 0
  · refine .inl ⟨htarget, ?_, ?_⟩
    · simp only [writeNodes, if_pos htarget]
      simp only [addDir, nextInode, hlast]
    · simp only [writeNodes, if_pos htarget, hfound, nextInode, addDir_fst_last]
      simp only [addDir, nextInode, hlast]
      rfl
  · refine .inr ⟨htarget, ?_, ?_⟩
    · simp only [writeNodes, if_neg htarget]
    · simp only [writeNodes, if_neg htarget, hfound, if_true, nextInode, hlast, nil_append]

end Inodes

/-- The walk finds the directory of the given name, if there is one; the file is put into it, or
    else into a new one.  The numbers of new entries are larger than the ones in use. -/
def PutsIntoDirectory {erasesize : Nat} {bigEndian : Bool} (dir : List UInt8) (file : ConfigFile)
    (behind : Nat → UInt8) (image : Image erasesize bigEndian) : Prop :=
  ∃ p w, parseBlocks bigEndian dir behind image.flash ⟨0, 0, 0⟩ = some (.ok p) ∧
    mtdWriteJffs2 erasesize bigEndian dir file behind image.flash = some (.ok w) ∧
    p.target = wanted dir image.entries ∧
    (wanted dir image.entries ≠ 0 →
      w.target = wanted dir image.entries ∧ w.inodes.length = 1) ∧
    (wanted dir image.entries = 0 → ∃ ino, w.target = ino ∧ ∃ ino', w.inodes = [ino, ino']) ∧
    ∀ ino ∈ w.inodes, ∀ e ∈ image.entries, e.ino < ino

section Directory

variable {erasesize : Nat} {bigEndian : Bool} {dir : List UInt8}

/-- Numbers above the largest one do not come back to zero if and only if no entry is near the
    end of the 32-bit numbers. -/
theorem forall_lt_iff {entries : List Entry} {last k : Nat} (hk : 0 < k) (hk' : k < 2 ^ 31)
    (hle : ∀ e ∈ entries, e.ino ≤ last) (hattained : last = 0 ∨ ∃ e ∈ entries, e.ino = last)
    (hlast : last < 2 ^ 32) :
    (∀ e ∈ entries, e.ino < (max last 1 + k) % 2 ^ 32) ↔
      ∀ e ∈ entries, e.ino + k < 2 ^ 32 := by
  constructor
  · intro h e he
    rcases hattained with hzero | ⟨e₀, he₀, hino⟩
    · have := hle e he
      omega
    · have hlt := h e₀ he₀
      have := hle e he
      omega
  · intro h e he
    have := hle e he
    rcases hattained with hzero | ⟨e₀, he₀, hino⟩
    · omega
    · have := h e₀ he₀
      omega

/-- The numbers of the new entries are above the ones in use if and only if there is room for
    them. -/
theorem lt_inodes_iff {file : ConfigFile} (hfound : file.found = true) {p : Parsed}
    {entries : List Entry} (hle : ∀ e ∈ entries, e.ino ≤ p.last.ino)
    (hattained : p.last.ino = 0 ∨ ∃ e ∈ entries, e.ino = p.last.ino)
    (hlast : p.last.ino < 2 ^ 32) :
    (∀ ino ∈ (writeNodes erasesize bigEndian dir file p).inodes, ∀ e ∈ entries, e.ino < ino) ↔
      ∀ e ∈ entries, e.ino + (if p.target = 0 then 3 else 1) < 2 ^ 32 := by
  have hone := forall_lt_iff (k := 1) (by decide) (by decide) hle hattained hlast
  have hthree := forall_lt_iff (k := 3) (by decide) (by decide) hle hattained hlast
  rcases writeNodes_cases hfound with ⟨hzero, -, heq⟩ | ⟨hne, -, heq⟩
  · rw [heq, if_pos hzero, forall_mem_cons, forall_mem_singleton, hone, hthree]
    exact and_iff_right_of_imp fun h e he => Nat.lt_of_succ_lt (Nat.lt_of_succ_lt (h e he))
  · rw [heq, if_neg hne, forall_mem_singleton, hone]

/-- **The directory of the file.**  The program does what it should if and only if the last entry
    of the root whose name begins the wanted name has this name, or the same inode, and no inode
    number is at the end of the 32-bit numbers. -/
theorem mtdWriteJffs2_directory_iff (hdir : dir ≠ []) {file : ConfigFile}
    (hfound : file.found = true) (behind : Nat → UInt8) (image : Image erasesize bigEndian) :
    PutsIntoDirectory dir file behind image ↔
      (∀ e, lastRoot (fun name => name.isPrefixOf dir) image.entries = some e →
        e.name = dir ∨ e.ino = wanted dir image.entries) ∧
      ∀ e ∈ image.entries,
        e.ino + (if wanted dir image.entries = 0 then 3 else 1) < 2 ^ 32 := by
  obtain ⟨p, hp⟩ : ∃ p, image.entries.foldl (Parsed.see dir) ⟨0, 0, 0⟩ = p := ⟨_, rfl⟩
  have hparse : parseBlocks bigEndian dir behind image.flash ⟨0, 0, 0⟩ = some (.ok p) := by
    rw [parseBlocks_image, hp]
  have hwrite : mtdWriteJffs2 erasesize bigEndian dir file behind image.flash =
      some (.ok (writeNodes erasesize bigEndian dir file p)) := by
    rw [mtdWriteJffs2, if_neg hdir, hparse]
    rfl
  obtain ⟨hle, hattained⟩ := @ino_foldl dir image.entries ⟨0, 0, 0⟩
  rw [hp] at hle hattained
  have hlast : p.last.ino < 2 ^ 32 := by
    rcases hattained with hzero | ⟨e, he, hino⟩
    · rw [hzero]
      decide
    · rw [← hino]
      exact (of_mem_entries he).1
  have hinodes := @lt_inodes_iff erasesize bigEndian dir file hfound p _ hle hattained hlast
  rw [← target_eq_wanted_iff hdir, hp]
  constructor
  · rintro ⟨p', w, hparse', hwrite', htarget, -, -, hlt⟩
    rw [hparse] at hparse'
    rw [hwrite] at hwrite'
    cases hparse'
    cases hwrite'
    refine ⟨htarget, ?_⟩
    rw [← htarget]
    exact hinodes.mp hlt
  · rintro ⟨htarget, hroom⟩
    rw [← htarget] at hroom
    refine ⟨p, _, hparse, hwrite, htarget, ?_⟩
    rw [← htarget]
    rcases writeNodes_cases hfound with ⟨hzero, hdirectory, heq⟩ | ⟨hne, hdirectory, heq⟩
    · exact ⟨absurd hzero, fun _ => ⟨_, hdirectory, _, heq⟩, hinodes.mpr hroom⟩
    · refine ⟨fun _ => ⟨hdirectory, ?_⟩, fun hzero => absurd hzero hne, hinodes.mpr hroom⟩
      rw [heq]
      rfl

end Directory

/-- The entry of a directory `e` in the root, with the inode 5. -/
def directoryE : RawNode false where
  octets := [0x85, 0x19, 0x01, 0xe0, 41, 0, 0, 0, 0, 0, 0, 0, 1, 0, 0, 0, 1, 0, 0, 0, 5, 0, 0, 0,
    0, 0, 0, 0, 1, 4, 0, 0, 0, 0, 0, 0, 0, 0, 0, 0, 0x65]
  header := by decide
  magic := by decide
  totlen := by decide
  dirent := by decide

def imageE : Image 96 false where
  blocks := [[directoryE]]
  stop := eofMarker.rightpad 96 0xff
  align := by decide
  pos := by decide
  small := by decide
  nonempty := by simp
  fits := by decide
  length_stop := by decide
  no_magic := by decide

def letter : ConfigFile :=
  { directory with name := [0x61], mode := 0x81a4, size := 3, content := [1, 2, 3] }

theorem mtdWriteJffs2_directory_imageE : PutsIntoDirectory [0x65] letter (fun _ => 0) imageE := by
  refine (mtdWriteJffs2_directory_iff (by decide) rfl (fun _ => 0) imageE).mpr ⟨?_, by decide⟩
  have hlast : lastRoot (fun name => name.isPrefixOf [0x65]) imageE.entries =
      some ⟨1, 1, 5, [0x65]⟩ := by decide
  intro e he
  cases he
  exact .inl rfl

/-- The directory `etc` is wanted, and `e` is taken for it. -/
theorem not_mtdWriteJffs2_directory :
    parseBlocks false [0x65, 0x74, 0x63] (fun _ => 0) imageE.flash ⟨0, 0, 0⟩ =
      some (.ok ⟨5, 5, 1⟩) ∧
    ¬ PutsIntoDirectory [0x65, 0x74, 0x63] letter (fun _ => 0) imageE := by
  have hparse : parseBlocks false [0x65, 0x74, 0x63] (fun _ => 0) imageE.flash ⟨0, 0, 0⟩ =
      some (.ok ⟨5, 5, 1⟩) := by decide +kernel
  refine ⟨hparse, ?_⟩
  rintro ⟨p, w, hparse', -, htarget, -⟩
  rw [hparse] at hparse'
  cases hparse'
  exact absurd htarget (by decide)

end Rooter.Jffs2Directory
