import Rooter.Bcm4908Image
import Rooter.Loop

/-!
# `bcm4908img bootfs mv`

The bootfs of an image is a JFFS2 file system.  `bootfsMv` walks over its nodes, looks for the
first directory entry with a name and puts another name of the same length in its place; it then
writes the tail again with the new checksum, as the last octets of the file.  With the tail of a
vendor behind it the tail is somewhere else.
-/

namespace Rooter.Bcm4908

open List Memory ByteOrder Loop

/-! ### The command -/

/-- The width of `size_t` and the byte order. -/
structure Host where
  width : Nat
  bigEndian : Bool

inductive MvError where
  | length                   -- New filename must have the same length as the old one
  | read                     -- Failed to read %zu bytes
  | filename                 -- Failed to read filename
  | notFound                 -- Failed to find %s
  | data (error : ParseError) -- of bcm4908img_calc_crc32
deriving DecidableEq, Repr

def Host.field (host : Host) (node : List UInt8) (pos n : Nat) : Nat :=
  value host.bigEndian ((node.drop pos).take n)

/-- `offset + ((totlen + 0x03) & ~0x03)`; the length is added in 32 bits. -/
def Host.next (host : Host) (file : File) (offset : Nat) : Nat :=
  let totlen := host.field (file.read offset 12) 4 4
  (offset + (totlen + 3) % 0x100000000 / 4 * 4) % 2 ^ host.width

def File.nsize (file : File) (offset : Nat) : Nat := (file.byte (offset + 28)).toNat

/-- A round of the loop.  The name has at most 255 octets, which `name` has room for. -/
def Host.mvStep (host : Host) (file : File) (oldname : List UInt8) (offset : Nat) :
    Next Nat (Except MvError Nat) :=
  let node := file.read offset 12
  if node.length ≠ 12 then .leave (.error .read)
  else if host.field node 0 2 ≠ 0x1985 then .leave (.error .notFound)
  else if host.field node 2 2 ≠ 0xe001 then .again (host.next file offset)
  else if (file.read offset 40).length ≠ 40 then .leave (.error .read)
  else
    let name := file.read (offset + 40) (file.nsize offset)
    if name.length ≠ file.nsize offset then .leave (.error .filename)
    else if name.takeWhile (· != 0) ≠ oldname then .again (host.next file offset) -- strcmp
    else .leave (.ok offset)

/-- The octets at `newname`, of which `behind` follow the end of the string. -/
def nameBytes (newname : List UInt8) (behind : Nat → UInt8) (n : Nat) : List UInt8 :=
  (newname ++ 0 :: load behind 0 n).take n

def Host.edit (host : Host) (file : File) (offset : Nat) (name : List UInt8) : File :=
  (file.write (offset + 36) (bytes host.bigEndian 4 (crc32 0 name).toNat)).write (offset + 40) name

def Tail.withCrc32 (t : Tail) (crc : BitVec 32) : Tail := { t with crc32 := crc }

/-- `bcm4908img_bootfs_mv`; nodes of no length are a loop without end. -/
def Host.bootfsMv (host : Host) (behind : Nat → UInt8) (fuel : Nat) (file : File) (info : Info)
    (oldname newname : List UInt8) : Option (Except MvError File) :=
  if newname.length ≠ oldname.length then some (.error .length)
  else
    match loop (host.mvStep file oldname) fuel info.offsets.bootfs with
    | none => none
    | some (.error e) => some (.error e)
    | some (.ok offset) =>
        let edited := host.edit file offset (nameBytes newname behind (file.nsize offset))
        match calcCrc32 edited info.offsets.cferom info.offsets.tail with
        | .error e => some (.error (.data e))
        | .ok crc =>
            some (.ok (edited.write (edited.size - 20) (info.tail.withCrc32 crc).bytes))

/-! ### The property and its condition -/

structure Host.IsEntry (host : Host) (file : File) (name : List UInt8) (offset : Nat) : Prop where
  bound : offset + 40 + file.nsize offset ≤ file.size
  magic : host.field (file.read offset 12) 0 2 = 0x1985
  nodetype : host.field (file.read offset 12) 2 2 = 0xe001
  name : (load file.byte (offset + 40) (file.nsize offset)).takeWhile (· != 0) = name

/-- The first entry with a name, among the nodes that follow each other from `start` on. -/
def Host.FirstEntry (host : Host) (file : File) (start : Nat) (name : List UInt8)
    (offset : Nat) : Prop :=
  host.IsEntry file name offset ∧ ∃ k, (host.next file)^[k] start = offset ∧
    ∀ j < k, host.field (file.read ((host.next file)^[j] start) 12) 0 2 = 0x1985 ∧
      ¬ host.IsEntry file name ((host.next file)^[j] start)

/-- Only the name and its checksum in the entry, and the checksum in the tail, have changed. -/
structure LocalEdit (file file' : File) (offset tailOffset : Nat) : Prop where
  size : file'.size = file.size
  frame : ∀ a, ¬ (offset + 36 ≤ a ∧ a < offset + 40 + file.nsize offset) →
    ¬ (tailOffset ≤ a ∧ a < tailOffset + 4) → file'.byte a = file.byte a

def Host.renamed (host : Host) (file : File) (info : Info) (offset : Nat) (name : List UInt8) :
    File :=
  let edited := host.edit file offset name
  edited.write info.offsets.tail
    (info.tail.withCrc32 (edited.checksum info.offsets.cferom info.offsets.tail)).bytes

/-- The parts of the renamed image are still found, with the tail in its place: the search reads
    `2a 23 24 5e` and the offset behind it at the start, `.LINKSYS.` 256 octets in front of the
    end, and `85 19` and `55 42 49 23` in steps of 0x20000 from that offset on.  And there is no
    tail of a vendor.  Or there is one, the entry lies in front of both, the checksum of the image
    stays the same, and the last octets are those of the tail already. -/
structure Host.Harmless (host : Host) (file : File) (info : Info) (offset : Nat)
    (name : List UInt8) : Prop where
  found : ∃ found, locate (host.renamed file info offset name) = .ok found ∧
    found.tail = info.offsets.tail
  vendor : info.offsets.tail = file.size - 20 ∨
    offset + 40 + file.nsize offset ≤ info.offsets.tail ∧
    (host.edit file offset name).checksum info.offsets.cferom info.offsets.tail =
      file.checksum info.offsets.cferom info.offsets.tail ∧
    load file.byte (file.size - 20) 20 = info.tail.bytes

/-! ### Writing -/

variable {file : File}

theorem write_size {pos : Nat} {data : List UInt8} (h : pos + data.length ≤ file.size) :
    (file.write pos data).size = file.size :=
  Nat.max_eq_left h

@[simp] theorem write_byte (file : File) (pos : Nat) (data : List UInt8) :
    (file.write pos data).byte = store file.byte pos data := rfl

theorem write_self {pos : Nat} {data : List UInt8} (hbound : pos + data.length ≤ file.size)
    (h : load file.byte pos data.length = data) : file.write pos data = file := by
  rw [File.write, Nat.max_eq_left hbound]
  conv => lhs; rw [← h]
  rw [store_load_self]

@[simp] theorem length_nameBytes (newname : List UInt8) (behind : Nat → UInt8) (n : Nat) :
    (nameBytes newname behind n).length = n := by
  simp [nameBytes]
  omega

section Edit

variable {host : Host} {file : File} {offset : Nat} {name : List UInt8}

theorem edit_size (h : offset + 40 + name.length ≤ file.size) :
    (host.edit file offset name).size = file.size := by
  have hfirst : (file.write (offset + 36) (bytes host.bigEndian 4 (crc32 0 name).toNat)).size =
      file.size := write_size (by simp; omega)
  rw [Host.edit, write_size (by omega), hfirst]

theorem edit_byte {a : Nat} (h : a < offset + 36 ∨ offset + 40 + name.length ≤ a) :
    (host.edit file offset name).byte a = file.byte a := by
  rw [Host.edit, write_byte, write_byte, store_out (by omega), store_out (by simp; omega)]

theorem load_edit {i n : Nat} (h : i + n ≤ offset + 36 ∨ offset + 40 + name.length ≤ i) :
    load (host.edit file offset name).byte i n = load file.byte i n :=
  load_congr fun _ _ => edit_byte (by omega)

end Edit

/-! ### The formats of a vendor -/

/-- The formats are told by the first eight octets and by the magic of the tail. -/
theorem vendor_eq (h : 1024 ≤ file.size) : vendor file = .ok
    (if value true (load file.byte 0 4) = 0x2a23245e then value true (load file.byte 4 4) else 0,
      if load file.byte (file.size - 256) 9 =
        [0x2e, 0x4c, 0x49, 0x4e, 0x4b, 0x53, 0x59, 0x53, 0x2e] then file.size - 20 - 256
      else file.size - 20) := by
  have hlast : file.size - 1024 + 768 = file.size - 256 := by omega
  rw [vendor, if_neg (by omega)]
  dsimp only
  rw [read_eq (by omega), read_eq (by omega), ofBe32, ofBe32, drop_load _ (by omega),
    drop_load _ (by omega), take_load _ (by omega), take_load _ (by omega), take_load _ (by omega),
    hlast]

theorem locate_vendor {found : Offsets} (h : locate file = .ok found) :
    vendor file = .ok (found.cferom, found.tail) := (locate_eq_ok h).1

section Vendor

variable {file file' : File} {found found' : Offsets} (hfound : locate file = .ok found)
  (hfound' : locate file' = .ok found') (hsize : file'.size = file.size)

include hfound hfound' in
theorem cferom_eq (h : load file'.byte 0 8 = load file.byte 0 8) :
    found'.cferom = found.cferom := by
  have hvendor := locate_vendor hfound
  have hvendor' := locate_vendor hfound'
  rw [vendor_eq (locate_bounds hfound).1] at hvendor
  rw [vendor_eq (locate_bounds hfound').1] at hvendor'
  have hmagic : load file'.byte 0 4 = load file.byte 0 4 := by
    rw [← take_load file'.byte (show 4 ≤ 8 by omega), h, take_load _ (by omega)]
  have hlen : load file'.byte 4 4 = load file.byte 4 4 := by
    have hdrop := congrArg (drop 4) h
    rwa [drop_load _ (by omega), drop_load _ (by omega)] at hdrop
  rw [hmagic, hlen] at hvendor'
  exact (congrArg Prod.fst (Except.ok.inj hvendor')).symm.trans
    (congrArg Prod.fst (Except.ok.inj hvendor))

include hfound hfound' hsize in
theorem tail_eq (h : load file'.byte (file.size - 256) 9 = load file.byte (file.size - 256) 9) :
    found'.tail = found.tail := by
  have hvendor := locate_vendor hfound
  have hvendor' := locate_vendor hfound'
  rw [vendor_eq (locate_bounds hfound).1] at hvendor
  rw [vendor_eq (locate_bounds hfound').1, hsize, h] at hvendor'
  exact (congrArg Prod.snd (Except.ok.inj hvendor')).symm.trans
    (congrArg Prod.snd (Except.ok.inj hvendor))

end Vendor

/-! ### The walk -/

/-- A whole node, with its name if it is a directory entry. -/
structure Host.Passes (host : Host) (file : File) (offset : Nat) : Prop where
  node : offset + 12 ≤ file.size
  magic : host.field (file.read offset 12) 0 2 = 0x1985
  name : host.field (file.read offset 12) 2 2 = 0xe001 →
    offset + 40 + file.nsize offset ≤ file.size

section Walk

variable {host : Host} {file : File} {oldname : List UInt8} {offset : Nat}

theorem mvStep_leave {found : Nat} (h : host.mvStep file oldname offset = .leave (.ok found)) :
    found = offset ∧ host.IsEntry file oldname offset := by
  simp only [Host.mvStep] at h
  split at h; · cases h
  split at h; · cases h
  split at h; · cases h
  split at h; · cases h
  split at h; · cases h
  split at h; · cases h
  next hmagic htype hread hlen hname =>
  cases h
  rw [length_read] at hread hlen
  have hbound : offset + 40 + file.nsize offset ≤ file.size := by omega
  rw [not_not, read_eq hbound] at hname
  exact ⟨rfl, hbound, not_not.mp hmagic, not_not.mp htype, hname⟩

theorem mvStep_again {after : Nat} (h : host.mvStep file oldname offset = .again after) :
    host.Passes file offset ∧ after = host.next file offset ∧
      ¬ host.IsEntry file oldname offset := by
  simp only [Host.mvStep] at h
  split at h; · cases h
  split at h; · cases h
  next hnode hmagic =>
  rw [length_read] at hnode
  split at h
  · next htype =>
    cases h
    exact ⟨⟨by omega, not_not.mp hmagic, fun heq => absurd heq htype⟩, rfl,
      fun hentry => htype hentry.nodetype⟩
  · split at h; · cases h
    split at h; · cases h
    next hread hlen =>
    rw [length_read] at hread hlen
    split at h
    · next hname =>
      cases h
      refine ⟨⟨by omega, not_not.mp hmagic, fun _ => by omega⟩, rfl, fun hentry => hname ?_⟩
      rw [read_eq hentry.bound, hentry.name]
    · cases h

theorem firstEntry_of_loop {fuel start : Nat}
    (h : loop (host.mvStep file oldname) fuel start = some (.ok offset)) :
    host.FirstEntry file start oldname offset := by
  induction fuel generalizing start with
  | zero => cases h
  | succ fuel ih =>
    rcases hstep : host.mvStep file oldname start with after | result
    · rw [loop_again hstep] at h
      obtain ⟨hpasses, rfl, hnot⟩ := mvStep_again hstep
      obtain ⟨hentry, k, hk, hbefore⟩ := ih h
      refine ⟨hentry, k + 1, hk, fun j hj => ?_⟩
      rcases j with _ | j
      · exact ⟨hpasses.magic, hnot⟩
      · exact hbefore j (by omega)
    · rw [loop_leave hstep] at h
      cases h
      obtain ⟨rfl, hentry⟩ := mvStep_leave hstep
      exact ⟨hentry, 0, rfl, fun j hj => absurd hj (by omega)⟩

end Walk

/-! ### The renamed image -/

section Rename

variable {host : Host} {file : File} {info : Info} {offset : Nat} {name : List UInt8}
  (hparse : parse file = .ok info) (hbound : offset + 40 + name.length ≤ file.size)

include hparse in
theorem tail_bounds : 1024 ≤ file.size ∧ info.offsets.cferom ≤ info.offsets.tail ∧
    (info.offsets.tail = file.size - 20 ∨ info.offsets.tail = file.size - 276) := by
  obtain ⟨hsize, hle, hlt, htail⟩ := locate_bounds (parse_eq_ok_iff.mp hparse).1
  exact ⟨hsize, by omega, htail⟩

include hparse in
theorem tail_bytes : info.tail.bytes = load file.byte info.offsets.tail 20 := by
  rw [(parse_eq_ok_iff.mp hparse).2.1, bytes_ofBytes (length_load _ _ _)]

def Host.newCrc32 (host : Host) (file : File) (info : Info) (offset : Nat) (name : List UInt8) :
    BitVec 32 :=
  (host.edit file offset name).checksum info.offsets.cferom info.offsets.tail

def Host.newTail (host : Host) (file : File) (info : Info) (offset : Nat) (name : List UInt8) :
    Tail :=
  info.tail.withCrc32 (host.newCrc32 file info offset name)

theorem bytes_withCrc32 (t : Tail) (crc : BitVec 32) :
    (t.withCrc32 crc).bytes = le32 crc ++ t.bytes.drop 4 := by
  simp only [Tail.bytes, Tail.withCrc32, append_assoc, drop_left' (length_le32 t.crc32)]

include hparse hbound in
theorem renamed_size : (host.renamed file info offset name).size = file.size := by
  obtain ⟨hsize, -, htail⟩ := tail_bounds hparse
  have hedit := @edit_size host file offset name hbound
  rw [Host.renamed, write_size (by rw [length_tailBytes, hedit]; omega), hedit]

include hparse hbound in
theorem renamed_local (hname : name.length = file.nsize offset) :
    LocalEdit file (host.renamed file info offset name) offset info.offsets.tail := by
  refine ⟨renamed_size hparse hbound, fun a hentry hcrc => ?_⟩
  rw [Host.renamed, write_byte]
  by_cases hin : info.offsets.tail ≤ a ∧ a < info.offsets.tail + 20
  · -- the other fields of the tail are written as they were
    obtain ⟨k, rfl⟩ : ∃ k, a = info.offsets.tail + k := ⟨a - info.offsets.tail, by omega⟩
    apply store_in
    rw [bytes_withCrc32, getElem?_append_right (by rw [length_le32]; omega), length_le32,
      getElem?_drop, show 4 + (k - 4) = k by omega, tail_bytes hparse,
      getElem?_load (by omega)]
  · rw [store_out (by rw [length_tailBytes]; omega), edit_byte (by omega)]

theorem renamed_checksum : (host.renamed file info offset name).checksum info.offsets.cferom
    info.offsets.tail = host.newCrc32 file info offset name := by
  unfold Host.newCrc32 File.checksum
  congr 1
  by_cases hle : info.offsets.cferom ≤ info.offsets.tail
  · exact load_store_out (.inl (by omega))
  · rw [Nat.sub_eq_zero_of_le (by omega)]
    rfl

theorem load_newTail (i : Nat) : load (store (host.edit file offset name).byte i
    (host.newTail file info offset name).bytes) i 20 =
      (host.newTail file info offset name).bytes := by
  have hload := @load_store_self _ (host.edit file offset name).byte i
    (host.newTail file info offset name).bytes
  rwa [length_tailBytes] at hload

theorem renamed_tail : (Tail.ofBytes (load (host.renamed file info offset name).byte
    info.offsets.tail 20)).crc32 = host.newCrc32 file info offset name := by
  rw [show load (host.renamed file info offset name).byte _ 20 = _ from load_newTail _,
    ofBytes_bytes, Host.newTail, Tail.withCrc32]

include hparse in
theorem renamed_head : load (host.renamed file info offset name).byte 0 8 = load file.byte 0 8 := by
  obtain ⟨hsize, -, htail⟩ := tail_bounds hparse
  rw [Host.renamed, write_byte, load_store_out (Or.inl (by omega)), load_edit (Or.inl (by omega))]

include hparse in
theorem accepted_renamed (h : ∃ found, locate (host.renamed file info offset name) = .ok found ∧
    found.tail = info.offsets.tail) : Accepted (host.renamed file info offset name) := by
  obtain ⟨found, hfound, htail⟩ := h
  have hcferom := cferom_eq (parse_eq_ok_iff.mp hparse).1 hfound (renamed_head hparse)
  refine accepted_iff.mpr ⟨found, hfound, ?_⟩
  rw [hcferom, htail, renamed_checksum, renamed_tail]

/-! ### The image that is written -/

def Host.written (host : Host) (file : File) (info : Info) (offset : Nat) (name : List UInt8) :
    File :=
  (host.edit file offset name).write (file.size - 20)
    (info.tail.withCrc32
      ((host.edit file offset name).checksum info.offsets.cferom info.offsets.tail)).bytes

theorem written_eq_renamed (h : info.offsets.tail = file.size - 20) :
    host.written file info offset name = host.renamed file info offset name := by
  rw [Host.written, Host.renamed, h]

include hparse in
theorem newTail_of_checksum (h : host.newCrc32 file info offset name =
    file.checksum info.offsets.cferom info.offsets.tail) :
    host.newTail file info offset name = info.tail := by
  obtain ⟨-, -, hcrc, hsame⟩ := parse_eq_ok_iff.mp hparse
  rw [Host.newTail, h, ← hcrc, hsame, Tail.withCrc32]

include hparse hbound in
/-- Where the checksum stays the same and the entry lies in front of the tail, the tail is not
    changed. -/
theorem renamed_eq_edit (hfront : offset + 40 + name.length ≤ info.offsets.tail)
    (h : host.newCrc32 file info offset name =
      file.checksum info.offsets.cferom info.offsets.tail) :
    host.renamed file info offset name = host.edit file offset name := by
  obtain ⟨hsize, -, htail⟩ := tail_bounds hparse
  change (host.edit file offset name).write _ (host.newTail file info offset name).bytes = _
  rw [newTail_of_checksum hparse h]
  apply write_self
  · rw [length_tailBytes, edit_size hbound]
    omega
  · rw [length_tailBytes, load_edit (Or.inr hfront), tail_bytes hparse]

include hparse hbound in
theorem written_eq_edit (hfront : offset + 40 + name.length ≤ file.size - 20)
    (h : load file.byte (file.size - 20) 20 = (host.newTail file info offset name).bytes) :
    host.written file info offset name = host.edit file offset name := by
  obtain ⟨hsize, -, -⟩ := tail_bounds hparse
  rw [Host.written]
  apply write_self
  · rw [length_tailBytes, edit_size hbound]
    omega
  · rw [length_tailBytes, load_edit (Or.inr hfront), h]
    rfl

include hparse hbound in
theorem written_eq_renamed_of_harmless (hname : name.length = file.nsize offset)
    (h : host.Harmless file info offset name) :
    host.written file info offset name = host.renamed file info offset name := by
  obtain ⟨hsize, -, htail⟩ := tail_bounds hparse
  rcases h.vendor with hplain | ⟨hfront, hcrc, hlast⟩
  · exact written_eq_renamed hplain
  · rw [renamed_eq_edit hparse hbound (by omega) hcrc]
    apply written_eq_edit hparse hbound (by omega)
    rw [hlast, newTail_of_checksum hparse hcrc]

include hparse hbound in
theorem written_of_harmless (hname : name.length = file.nsize offset)
    (h : host.Harmless file info offset name) :
    LocalEdit file (host.written file info offset name) offset info.offsets.tail ∧
      Accepted (host.written file info offset name) := by
  rw [written_eq_renamed_of_harmless hparse hbound hname h]
  exact ⟨renamed_local hparse hbound hname, accepted_renamed hparse h.found⟩

include hparse hbound in
/-- The magic of the vendor's tail is not touched by an entry in front of it. -/
theorem written_tail {found : Offsets} (hfront : offset + 40 + name.length + 276 ≤ file.size)
    (hfound : locate (host.written file info offset name) = .ok found) :
    found.cferom = info.offsets.cferom ∧ found.tail = info.offsets.tail := by
  have hlocate := (parse_eq_ok_iff.mp hparse).1
  obtain ⟨hsize, -, -⟩ := tail_bounds hparse
  constructor
  · apply cferom_eq hlocate hfound
    rw [Host.written, write_byte, load_store_out (Or.inl (by omega)), load_edit (Or.inl (by omega))]
  · apply tail_eq hlocate hfound
    · rw [Host.written, write_size (by rw [length_tailBytes, edit_size hbound]; omega),
        edit_size hbound]
    · rw [Host.written, write_byte, load_store_out (Or.inl (by omega)),
        load_edit (Or.inr (by omega))]

include hparse hbound in
/-- With a tail of the vendor, the tail of the image keeps its checksum, which has to be right
    still. -/
theorem checksum_of_accepted (hvendor : info.offsets.tail = file.size - 276)
    (hfront : offset + 40 + name.length + 276 ≤ file.size)
    (h : Accepted (host.written file info offset name)) : host.newCrc32 file info offset name =
      file.checksum info.offsets.cferom info.offsets.tail := by
  obtain ⟨found, hfound, hsame⟩ := accepted_iff.mp h
  obtain ⟨hcferom, htail⟩ := written_tail hparse hbound hfront hfound
  obtain ⟨hsize, hle, -⟩ := tail_bounds hparse
  obtain ⟨-, htailEq, hcrc, hstored⟩ := parse_eq_ok_iff.mp hparse
  have hdata : (host.written file info offset name).checksum info.offsets.cferom
      info.offsets.tail = host.newCrc32 file info offset name := by
    unfold Host.newCrc32 File.checksum
    rw [Host.written, write_byte, load_store_out (Or.inl (by omega))]
  have htailSame : load (host.written file info offset name).byte info.offsets.tail 20 =
      load file.byte info.offsets.tail 20 := by
    rw [Host.written, write_byte, load_store_out (Or.inl (by omega)), load_edit (Or.inr (by omega))]
  rw [hcferom, htail, hdata, htailSame, ← htailEq, ← hstored, hcrc] at hsame
  exact hsame

include hparse in
/-- With a tail of the vendor, a local edit leaves the last octets as they are. -/
theorem last_of_local (hvendor : info.offsets.tail = file.size - 276)
    (hfront : offset + 40 + name.length + 276 ≤ file.size) (hname : name.length = file.nsize offset)
    (h : LocalEdit file (host.written file info offset name) offset info.offsets.tail) :
    load file.byte (file.size - 20) 20 = (host.newTail file info offset name).bytes := by
  obtain ⟨hsize, -, -⟩ := tail_bounds hparse
  have hsame : load (host.written file info offset name).byte (file.size - 20) 20 =
      load file.byte (file.size - 20) 20 :=
    load_congr fun k _ => h.frame _ (by omega) (by omega)
  exact hsame.symm.trans (load_newTail _)

include hparse hbound in
/-- An entry in front of the tails is renamed well only if that is harmless. -/
theorem harmless_of_written (hname : name.length = file.nsize offset)
    (hfront : offset + 40 + name.length + 276 ≤ file.size)
    (hlocal : LocalEdit file (host.written file info offset name) offset info.offsets.tail)
    (haccepted : Accepted (host.written file info offset name)) :
    host.Harmless file info offset name := by
  obtain ⟨found, hfound, -⟩ := accepted_iff.mp haccepted
  obtain ⟨-, htailEq⟩ := written_tail hparse hbound hfront hfound
  obtain ⟨hsize, -, htail⟩ := tail_bounds hparse
  rcases htail with hplain | hvendor
  · rw [written_eq_renamed hplain] at hfound
    exact ⟨⟨found, hfound, htailEq⟩, Or.inl hplain⟩
  · have hcrc := checksum_of_accepted hparse hbound hvendor hfront haccepted
    have hlast := last_of_local hparse hvendor hfront hname hlocal
    rw [written_eq_edit hparse hbound (by omega) hlast,
      ← renamed_eq_edit hparse hbound (by omega) hcrc] at hfound
    rw [newTail_of_checksum hparse hcrc] at hlast
    exact ⟨⟨found, hfound, htailEq⟩, Or.inr ⟨by omega, hcrc, hlast⟩⟩

end Rename

/-! ### The command as a whole -/

section Command

variable {host : Host} {behind : Nat → UInt8} {fuel : Nat} {file file' : File} {info : Info}
  {oldname newname : List UInt8}

theorem bootfsMv_of_loop {offset : Nat} (hparse : parse file = .ok info)
    (hlen : newname.length = oldname.length)
    (hloop : loop (host.mvStep file oldname) fuel info.offsets.bootfs = some (.ok offset)) :
    host.bootfsMv behind fuel file info oldname newname = some (.ok
      (host.written file info offset (nameBytes newname behind (file.nsize offset)))) := by
  have hbound := (firstEntry_of_loop hloop).1.bound
  obtain ⟨hsize, hle, htail⟩ := tail_bounds hparse
  have hedit := @edit_size host file offset (nameBytes newname behind (file.nsize offset))
    (by rw [length_nameBytes]; exact hbound)
  have hcalc := @calcCrc32_eq (host.edit file offset
    (nameBytes newname behind (file.nsize offset))) _ _ hle (by rw [hedit]; omega)
  simp only [Host.bootfsMv, hloop, hcalc, hedit]
  exact if_neg (not_not.mpr hlen)

theorem bootfsMv_eq_ok (hparse : parse file = .ok info)
    (h : host.bootfsMv behind fuel file info oldname newname = some (.ok file')) :
    ∃ offset, host.FirstEntry file info.offsets.bootfs oldname offset ∧
      file' = host.written file info offset (nameBytes newname behind (file.nsize offset)) := by
  have hcommand := h
  unfold Host.bootfsMv at h
  split at h
  · cases h
  · next hlen =>
    split at h
    · cases h
    · cases h
    · next offset hloop =>
      rw [bootfsMv_of_loop hparse (not_not.mp hlen) hloop] at hcommand
      cases hcommand
      exact ⟨offset, firstEntry_of_loop hloop, rfl⟩

/-- **Renaming a file inside an image.**  A harmless renaming is a local edit, and the image is
    accepted again.  For an entry in front of the places that the tails can have, no other renaming
    is. -/
theorem bootfsMv_local (hparse : parse file = .ok info)
    (hmv : host.bootfsMv behind fuel file info oldname newname = some (.ok file')) :
    ∃ offset, host.FirstEntry file info.offsets.bootfs oldname offset ∧
      (host.Harmless file info offset (nameBytes newname behind (file.nsize offset)) →
        LocalEdit file file' offset info.offsets.tail ∧ Accepted file') ∧
      (offset + 40 + file.nsize offset + 276 ≤ file.size →
        LocalEdit file file' offset info.offsets.tail ∧ Accepted file' →
        host.Harmless file info offset (nameBytes newname behind (file.nsize offset))) := by
  obtain ⟨offset, hfirst, rfl⟩ := bootfsMv_eq_ok hparse hmv
  have hname := length_nameBytes newname behind (file.nsize offset)
  have hbound : offset + 40 + (nameBytes newname behind (file.nsize offset)).length ≤ file.size :=
    by rw [hname]; exact hfirst.1.bound
  refine ⟨offset, hfirst, written_of_harmless hparse hbound hname, ?_⟩
  rintro hfront ⟨hlocal, haccepted⟩
  exact harmless_of_written hparse hbound hname (by rw [hname]; exact hfront) hlocal haccepted

theorem eq_of_firstEntry {name : List UInt8} {start offset : Nat}
    (hstart : host.IsEntry file name start) (h : host.FirstEntry file start name offset) :
    offset = start := by
  obtain ⟨-, k, hk, hbefore⟩ := h
  rcases k with _ | k
  · exact hk.symm
  · exact absurd hstart (hbefore 0 (by omega)).2

end Command

/-! ### Small images -/

def littleHost : Host := ⟨64, false⟩

/-- A node of a type, with a length and what follows `hdr_crc`. -/
def jffs2Node (nodetype totlen : Nat) (content : List UInt8) : List UInt8 :=
  bytes false 2 0x1985 ++ bytes false 2 nodetype ++ bytes false 4 totlen ++ replicate 4 0 ++
    content

def direntNode (name : List UInt8) : List UInt8 :=
  jffs2Node 0xe001 (40 + name.length)
    (replicate 16 0 ++ [UInt8.ofNat name.length, 8, 0, 0] ++ replicate 8 0 ++ name)

def imageTail (data : Nat → UInt8) : Tail :=
  ⟨crc32 0xffffffff#32 (load data 0 0x20100), 0x5732, 0x4908, 3, 2⟩

/-- Data of an erase block and 256 octets, the tail with its checksum, and what is behind it. -/
def imageOf (data : Nat → UInt8) (vendorTail : List UInt8) : File :=
  ⟨0x20100 + 20 + vendorTail.length,
    store data 0x20100 ((imageTail data).bytes ++ vendorTail)⟩

def imageInfo (data : Nat → UInt8) : Info :=
  ⟨⟨0, 0, 0, 0x20000, 0x20100⟩, (imageTail data).crc32, imageTail data⟩

theorem parse_imageOf {data : Nat → UInt8} {vendorTail : List UInt8}
    (h : locate (imageOf data vendorTail) = .ok (imageInfo data).offsets) :
    parse (imageOf data vendorTail) = .ok (imageInfo data) := by
  have hdata : load (imageOf data vendorTail).byte 0 0x20100 = load data 0 0x20100 :=
    load_store_out (.inl (by omega))
  have hall := @load_store_self _ data 0x20100 ((imageTail data).bytes ++ vendorTail)
  have htail : load (imageOf data vendorTail).byte 0x20100 20 = (imageTail data).bytes := by
    have htake := congrArg (take 20) hall
    rwa [take_load _ (by simp), take_left' (length_tailBytes _)] at htake
  refine parse_eq_ok_iff.mpr ⟨h, ?_, ?_, ?_⟩ <;> dsimp only [imageInfo]
  · rw [htail, ofBytes_bytes]
  · rw [File.checksum, hdata, imageTail]

def ubiMagic : List UInt8 := [0x55, 0x42, 0x49, 0x23]

def abcData : Nat → UInt8 :=
  store (store (fun _ => 0) 0 (direntNode [0x61, 0x62, 0x63])) 0x20000 ubiMagic

theorem bootfsMv_local_plain : ∃ file',
    parse (imageOf abcData []) = .ok (imageInfo abcData) ∧
    littleHost.bootfsMv (fun _ => 0) 1 (imageOf abcData []) (imageInfo abcData)
      [0x61, 0x62, 0x63] [0x61, 0x62, 0x64] = some (.ok file') ∧
    LocalEdit (imageOf abcData []) file' 0 0x20100 ∧ Accepted file' := by
  have hparse : parse (imageOf abcData []) = .ok (imageInfo abcData) :=
    parse_imageOf (by decide +kernel)
  have hloop : loop (littleHost.mvStep (imageOf abcData []) [0x61, 0x62, 0x63]) 1 0 =
      some (.ok 0) := by decide +kernel
  have hmv := @bootfsMv_of_loop littleHost (fun _ => 0) 1 (imageOf abcData []) (imageInfo abcData)
    [0x61, 0x62, 0x63] [0x61, 0x62, 0x64] 0 hparse rfl hloop
  obtain ⟨offset, hfirst, hgood, -⟩ := bootfsMv_local hparse hmv
  obtain rfl := eq_of_firstEntry (firstEntry_of_loop hloop).1 hfirst
  exact ⟨_, hparse, hmv, hgood ⟨⟨⟨0, 0, 0, 0x20000, 0x20100⟩, by decide +kernel, rfl⟩, .inl rfl⟩⟩

/-- The tail of the vendor, without a version, a model and a signature. -/
def linksysTail : List UInt8 :=
  [0x2e, 0x4c, 0x49, 0x4e, 0x4b, 0x53, 0x59, 0x53, 0x2e] ++ replicate 247 0

/-- A bootfs whose second node is the file `UBI#`, with its name at the start of a block. -/
def ubiData : Nat → UInt8 :=
  store (store (fun _ => 0) 0 (jffs2Node 0x2003 0x1ffd8 [])) 0x1ffd8 (direntNode ubiMagic)

/-- Images that differ in front only have the same checksum if their fronts have. -/
theorem checksum_front {file' : File} {front tailOffset : Nat} (hle : front ≤ tailOffset)
    (hsame : ∀ a, front ≤ a → file'.byte a = file.byte a)
    (h : file'.checksum 0 tailOffset = file.checksum 0 tailOffset) :
    crc32 0xffffffff#32 (load file'.byte 0 front) =
      crc32 0xffffffff#32 (load file.byte 0 front) := by
  have hsplit : tailOffset - 0 = front + (tailOffset - front) := by omega
  have hbehind : load file'.byte (0 + front) (tailOffset - front) =
      load file.byte (0 + front) (tailOffset - front) :=
    load_congr fun k _ => hsame _ (by omega)
  rw [File.checksum, File.checksum, hsplit, load_add, load_add, crc32_append, crc32_append,
    hbehind] at h
  rw [crc32_eq _ (load file.byte _ _), crc32_eq _ (load file.byte _ _)] at h
  exact Crc32.crc_inj.mp h

/-- **A renaming that is not a local edit, and leaves an image that is not accepted**: with the
    tail of a vendor, `abc` to `abd`.  And without one, a name with the magic of the rootfs, to
    `UBIX`. -/
theorem not_bootfsMv_local : (∃ file',
    parse (imageOf abcData linksysTail) = .ok (imageInfo abcData) ∧
    littleHost.bootfsMv (fun _ => 0) 1 (imageOf abcData linksysTail) (imageInfo abcData)
      [0x61, 0x62, 0x63] [0x61, 0x62, 0x64] = some (.ok file') ∧
    ¬ LocalEdit (imageOf abcData linksysTail) file' 0 0x20100 ∧ ¬ Accepted file') ∧
    (∃ file', parse (imageOf ubiData []) = .ok (imageInfo ubiData) ∧
    littleHost.bootfsMv (fun _ => 0) 2 (imageOf ubiData []) (imageInfo ubiData)
      ubiMagic [0x55, 0x42, 0x49, 0x58] = some (.ok file') ∧ ¬ Accepted file') := by
  constructor
  · have hparse : parse (imageOf abcData linksysTail) = .ok (imageInfo abcData) :=
      parse_imageOf (by decide +kernel)
    have hmv := @bootfsMv_of_loop littleHost (fun _ => 0) 1 (imageOf abcData linksysTail)
      (imageInfo abcData) [0x61, 0x62, 0x63] [0x61, 0x62, 0x64] 0 hparse rfl (by decide +kernel)
    refine ⟨_, hparse, hmv, fun hlocal => ?_, fun haccepted => ?_⟩
    · -- the version in the tail stands where the signature of the vendor was
      have hbyte := hlocal.frame 0x20204 (by decide +kernel) (by decide)
      revert hbyte
      decide +kernel
    · have hcrc := @checksum_of_accepted littleHost (imageOf abcData linksysTail)
        (imageInfo abcData) 0 (nameBytes [0x61, 0x62, 0x64] (fun _ => 0)
          ((imageOf abcData linksysTail).nsize 0))
        hparse (by decide +kernel) (by decide +kernel) (by decide +kernel) haccepted
      have hfront := checksum_front (show 43 ≤ 0x20100 by decide)
        (fun a ha => edit_byte (.inr ha)) hcrc
      revert hfront
      decide +kernel
  · have hparse : parse (imageOf ubiData []) = .ok (imageInfo ubiData) :=
      parse_imageOf (by decide +kernel)
    have hmv := @bootfsMv_of_loop littleHost (fun _ => 0) 2 (imageOf ubiData [])
      (imageInfo ubiData) ubiMagic [0x55, 0x42, 0x49, 0x58] 0x1ffd8 hparse rfl (by decide +kernel)
    refine ⟨_, hparse, hmv, fun haccepted => ?_⟩
    obtain ⟨found, hfound, -⟩ := accepted_iff.mp haccepted
    have hnone : locate (littleHost.written (imageOf ubiData []) (imageInfo ubiData) 0x1ffd8
        (nameBytes [0x55, 0x42, 0x49, 0x58] (fun _ => 0)
          ((imageOf ubiData []).nsize 0x1ffd8))) = .error .rootfs := by decide +kernel
    rw [hnone] at hfound
    cases hfound

end Rooter.Bcm4908
