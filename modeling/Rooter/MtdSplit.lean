import Rooter.ByteOrder
import Rooter.Execution
import Rooter.Memory

/-!
# The firmware splitters

`mtdsplit_uimage.c`, `mtdsplit_jimage.c` and `mtdsplit_trx.c` look for the header of an image at
the start of the erase blocks, and split the device into a kernel and a rootfs.  The size of the
image is set to zero for each block and is also the flag that tells whether an image was found;
a header that is refused because the image exceeds the device leaves it set.

`size_t` has the width of the machine.  The device has room in it, with another block behind the
last one, so that offsets of blocks do not wrap around; sizes and offsets that are read from a
header may.
-/

namespace Rooter.MtdSplit

open List Memory ByteOrder

/-! ### The device -/

structure Master where
  size : Nat
  erasesize : Nat
  content : Nat → UInt8
  /-- Whether a number of octets at an offset are read without an error and in full. -/
  readable : Nat → Nat → Bool
  /-- The width of `size_t`. -/
  width : Nat
  bigEndian : Bool
  erasesize_pos : 0 < erasesize
  width_eq : width = 32 ∨ width = 64
  fits : size + erasesize ≤ 2 ^ width

variable (m : Master)

/-- `mtd_read`; a short read is an error to all callers. -/
def Master.read (offset len : Nat) : Option (List UInt8) :=
  if offset + len ≤ m.size ∧ m.readable offset len then some (load m.content offset len) else none

def Master.stop : Nat := (m.size + m.erasesize - 1) / m.erasesize * m.erasesize

/-- `for (offset = 0; offset < master->size; offset += master->erasesize)` -/
def Master.blocks : List Nat :=
  (range ((m.size + m.erasesize - 1) / m.erasesize)).map (· * m.erasesize)

def be32 (buf : List UInt8) (pos : Nat) : Nat := value true ((buf.drop pos).take 4)
def le32 (buf : List UInt8) (pos : Nat) : Nat := value false ((buf.drop pos).take 4)

def Master.native (buf : List UInt8) (pos n : Nat) : Nat :=
  value m.bigEndian ((buf.drop pos).take n)

/-! ### `mtdsplit.c` -/

inductive PartType where
  | squashfs
  | jffs2
  | ubi
deriving DecidableEq, Repr

def Master.checkRootfsMagic (offset : Nat) : Option PartType := do
  let magic ← m.read offset 4
  if le32 magic 0 = 0x73717368 then some .squashfs
  else if m.native magic 0 4 = 0x19852003 then some .jffs2
  else if be32 magic 0 = 0x55424923 then some .ubi
  else none

/-- The offsets of `mtd_find_rootfs_from`: the first one as it is, and the starts of the blocks
    behind it. -/
def Master.rootfsOffsets (start : Nat) : List Nat :=
  if start < m.size then start :: m.blocks.filter (start < ·) else []

def Master.findRootfsLoop : List Nat → Option (Nat × PartType)
  | [] => none
  | offset :: rest =>
      match m.checkRootfsMagic offset with
      | some type => some (offset, type)
      | none => findRootfsLoop rest

/-- `mtd_find_rootfs_from` up to the end of the device. -/
def Master.findRootfsFrom (start : Nat) : Option (Nat × PartType) :=
  m.findRootfsLoop (m.rootfsOffsets start)

/-! ### The search for a header -/

/-- The variables of a splitter behind its loop; `block` is the block that was looked at last,
    whose header is in the buffer. -/
structure Found where
  offset : Nat
  size : Nat
  block : Nat

/-- The loop; `check` verifies a header and adds up the size of the image. -/
def Master.searchLoop (check : Nat → Option Nat) : List Nat → Found → Found
  | [], found => { found with offset := m.stop }
  | offset :: rest, _ =>
      match check offset with
      | none => searchLoop check rest ⟨offset, 0, offset⟩
      | some size =>
          let size := size % 2 ^ m.width
          if m.size < (offset + size) % 2 ^ m.width then
            searchLoop check rest ⟨offset, size, offset⟩
          else ⟨offset, size, offset⟩

def Master.search (check : Nat → Option Nat) : Found := m.searchLoop check m.blocks ⟨0, 0, 0⟩

/-! ### The splitters -/

inductive PartName where
  | kernel
  | rootfs
  | ubi

structure Partition where
  name : PartName
  offset : Nat
  size : Nat

/-- The two partitions; the kernel is the first one of them or the second one.  `block` tells the
    header that they were made from. -/
structure Split where
  kernel : Partition
  rootfs : Partition
  kernelFirst : Bool
  block : Nat

def rootfsName (type : PartType) : PartName := if type = .ubi then .ubi else .rootfs

/-- What `__mtdsplit_parse_uimage` and `__mtdsplit_parse_jimage` do behind the loop. -/
def Master.splitImage (found : Found) : Option Split :=
  if found.size = 0 then none
  else if found.offset = 0 then do
    let (rootfsOffset, type) ← m.findRootfsFrom (found.offset + found.size)
    let rootfsSize := m.size - rootfsOffset
    if rootfsSize = 0 then none
    else some ⟨⟨.kernel, found.offset, rootfsOffset - found.offset⟩,
      ⟨rootfsName type, rootfsOffset, rootfsSize⟩, true, found.block⟩
  else do
    let type ← m.checkRootfsMagic 0
    some ⟨⟨.kernel, found.offset, found.size⟩, ⟨rootfsName type, 0, found.offset⟩, false,
      found.block⟩

/-- What `uimage_parse_dt` finds in the device tree, or the defaults; the padding is not negative,
    and the header with what is in front of it fits into a buffer. -/
structure UimageConfig where
  extralen : Nat := 0
  ihMagic : Nat := 0x27051956
  ihType : Nat := 2
  headerOffset : Nat := 0
  partMagic : Nat := 0

/-- The checks of `__mtdsplit_parse_uimage` and the size. -/
def Master.uimageCheck (config : UimageConfig) (offset : Nat) : Option Nat := do
  let buf ← m.read offset (64 + config.headerOffset)
  if config.headerOffset ≠ 0 ∧ config.partMagic ≠ 0 ∧ be32 buf 0 ≠ config.partMagic then none
  else
    let header := buf.drop config.headerOffset
    -- uimage_verify_default
    if be32 header 0 ≠ config.ihMagic then none
    else if header.getD 28 0 ≠ 5 then none -- IH_OS_LINUX
    else if (header.getD 30 0).toNat ≠ config.ihType then none
    else some (64 + be32 header 12 + config.headerOffset + config.extralen)

def Master.parseUimage (config : UimageConfig) : Option Split :=
  m.splitImage (m.search (m.uimageCheck config))

/-- `jimage_verify_default` and the size. -/
def Master.jimageCheck (offset : Nat) : Option Nat := do
  let buf ← m.read offset 56
  if m.native buf 2 2 ≠ 0x2b24 then none
  else if m.native buf 16 2 ≠ 0x2124 then none
  else if buf.getD 0 0 ≠ buf.getD 1 0 then none
  else if buf.getD 1 0 ≠ 0x04 then none
  else if buf.getD 19 0 ≠ 0x02 then none
  else some (56 + m.native buf 24 4)

def Master.parseJimage : Option Split := m.splitImage (m.search m.jimageCheck)

def Master.trxCheck (offset : Nat) : Option Nat := do
  let hdr ← m.read offset 32
  if le32 hdr 0 ≠ 0x30524448 then none else some (le32 hdr 4)

/-- `hdr.offset[i]` of the header that is in `hdr`, as the splitter takes it. -/
def Master.trxOffset (block i : Nat) : Nat := m.native (load m.content block 32) (16 + 4 * i) 4

/-- The partitions of `mtdsplit_parse_trx`; the subtractions wrap around. -/
def Master.trxParts (found : Found) : Split :=
  let trxOffset := (found.offset + m.trxOffset found.block 0) % 2 ^ m.width
  let rootfsOffset := (found.offset + m.trxOffset found.block 1) % 2 ^ m.width
  let rootfsSize := (2 ^ 64 + m.size - rootfsOffset) % 2 ^ 64 % 2 ^ m.width
  let trxSize := (2 ^ m.width + rootfsOffset - trxOffset) % 2 ^ m.width
  ⟨⟨.kernel, trxOffset, trxSize⟩, ⟨.rootfs, rootfsOffset, rootfsSize⟩, true, found.block⟩

/-- What `mtdsplit_parse_trx` does behind the loop. -/
def Master.splitTrx (found : Found) : Option Split :=
  if found.size = 0 then none
  else if (m.trxParts found).rootfs.size = 0 then none
  else some (m.trxParts found)

def Master.parseTrx : Option Split := m.splitTrx (m.search m.trxCheck)

def Master.trxStart (block : Nat) : Nat := block + le32 (load m.content block 32) 16

/-! ### The property and its condition -/

/-- The partitions are not empty, lie inside the device and are disjoint; the header is that of a
    block and passed all checks, with an image that does not exceed the device; and the kernel
    starts where `start` says. -/
@[mk_iff]
structure Master.Sane (check : Nat → Option Nat) (start : Nat → Nat) (s : Split) : Prop where
  kernel_pos : 0 < s.kernel.size
  rootfs_pos : 0 < s.rootfs.size
  kernel_in : s.kernel.offset + s.kernel.size ≤ m.size
  rootfs_in : s.rootfs.offset + s.rootfs.size ≤ m.size
  disjoint : s.kernel.offset + s.kernel.size ≤ s.rootfs.offset ∨
    s.rootfs.offset + s.rootfs.size ≤ s.kernel.offset
  block : s.block ∈ m.blocks
  header : ∃ size, check s.block = some size ∧ s.block + size ≤ m.size
  kernel_start : s.kernel.offset = start s.block

/-- The size of the image of a block in `size_t`, zero without a header. -/
def Master.sizeAt (check : Nat → Option Nat) (block : Nat) : Nat :=
  (check block).getD 0 % 2 ^ m.width

/-- The header is accepted in the arithmetic of `size_t`. -/
def Master.accepts (check : Nat → Option Nat) (block : Nat) : Bool :=
  (check block).isSome && (block + m.sizeAt check block) % 2 ^ m.width ≤ m.size

def Master.hasRootfs (offset size : Nat) : Bool :=
  if offset = 0 then (m.findRootfsFrom size).isSome else (m.checkRootfsMagic 0).isSome

/-- The first header that is accepted, if there is a rootfs with it, is that of an image that does
    not exceed the device.  Without one, the last block has no header that passes the other checks,
    or there is no rootfs at the start. -/
structure Master.Harmless (check : Nat → Option Nat) : Prop where
  first : ∀ block size, m.blocks.find? (m.accepts check) = some block →
    check block = some size → size % 2 ^ m.width ≠ 0 → m.hasRootfs block (size % 2 ^ m.width) →
    block + size ≤ m.size
  last : ∀ block, m.blocks.find? (m.accepts check) = none → m.blocks.getLast? = some block →
    m.sizeAt check block ≠ 0 → m.checkRootfsMagic 0 = none

/-- The same for TRX: the offsets of the first header that is accepted are increasing, lie inside
    the device and read the same in the order of the machine, and the image does not exceed it.
    Without one, the last block has no header.  The splitter itself refuses a rootfs at the very
    end. -/
structure Master.HarmlessTrx : Prop where
  first : ∀ block size, m.blocks.find? (m.accepts m.trxCheck) = some block →
    m.trxCheck block = some size → size ≠ 0 →
    (block + m.trxOffset block 1) % 2 ^ m.width ≠ m.size →
    block + size ≤ m.size ∧ block + m.trxOffset block 0 = m.trxStart block ∧
    m.trxOffset block 0 < m.trxOffset block 1 ∧ block + m.trxOffset block 1 < m.size
  last : ∀ block, m.blocks.find? (m.accepts m.trxCheck) = none →
    m.blocks.getLast? = some block → m.sizeAt m.trxCheck block ≠ 0 →
    (m.stop + m.trxOffset block 1) % 2 ^ m.width = m.size

/-! ### The blocks -/

variable {m} {block offset size : Nat} {check : Nat → Option Nat} {s : Split}

theorem mem_blocks (h : block ∈ m.blocks) : block < m.size := by
  obtain ⟨k, hk, rfl⟩ := mem_map.mp h
  have hk := mem_range.mp hk
  have hpos := m.erasesize_pos
  have hle : (k + 1) * m.erasesize ≤ m.size + m.erasesize - 1 :=
    (Nat.le_div_iff_mul_le hpos).mp hk
  rw [Nat.succ_mul] at hle
  omega

theorem size_le_stop : m.size ≤ m.stop := by
  have hpos := m.erasesize_pos
  have hmod := Nat.div_add_mod (m.size + m.erasesize - 1) m.erasesize
  have hlt := Nat.mod_lt (m.size + m.erasesize - 1) hpos
  rw [Nat.mul_comm] at hmod
  unfold Master.stop
  omega

theorem size_lt_width : m.size < 2 ^ m.width := by
  have hpos := m.erasesize_pos
  have hfits := m.fits
  omega

/-! ### The search -/

theorem accepts_iff : m.accepts check block ↔
    ∃ size, check block = some size ∧
      (block + size % 2 ^ m.width) % 2 ^ m.width ≤ m.size := by
  rcases hcheck : check block with _ | size <;> simp [Master.accepts, Master.sizeAt, hcheck]

/-- One round: the variables are set for the block, and the loop ends if it is accepted. -/
theorem searchLoop_cons (check : Nat → Option Nat) (block : Nat) (rest : List Nat)
    (found : Found) : m.searchLoop check (block :: rest) found =
      if m.accepts check block then ⟨block, m.sizeAt check block, block⟩
      else m.searchLoop check rest ⟨block, m.sizeAt check block, block⟩ := by
  rcases hcheck : check block with _ | size
  · simp [Master.searchLoop, Master.accepts, Master.sizeAt, hcheck]
  · have hsize : m.sizeAt check block = size % 2 ^ m.width := by simp [Master.sizeAt, hcheck]
    simp only [Master.searchLoop, hcheck, Master.accepts, hsize]
    by_cases hle : (block + size % 2 ^ m.width) % 2 ^ m.width ≤ m.size
    · rw [if_neg (by omega), if_pos (by simpa using hle)]
    · rw [if_pos (by omega), if_neg (by simpa using hle)]

theorem searchLoop_of_some {blocks : List Nat} {found : Found}
    (h : blocks.find? (m.accepts check) = some block) :
    m.searchLoop check blocks found = ⟨block, m.sizeAt check block, block⟩ := by
  induction blocks generalizing found with
  | nil => cases h
  | cons first rest ih =>
    rw [searchLoop_cons]
    rw [find?_cons] at h
    split at h
    · next hyes =>
      cases h
      rw [if_pos hyes]
    · next hnot =>
      rw [if_neg (by simp [hnot])]
      exact ih h

/-- Without a header that is accepted, the flag is left as the last block has set it. -/
theorem searchLoop_of_none {blocks : List Nat} {found : Found}
    (h : blocks.find? (m.accepts check) = none) : m.searchLoop check blocks found =
      (blocks.getLast?.elim { found with offset := m.stop }
        fun block => ⟨m.stop, m.sizeAt check block, block⟩) := by
  induction blocks generalizing found with
  | nil => rfl
  | cons first rest ih =>
    rw [searchLoop_cons]
    rw [find?_cons] at h
    split at h
    · cases h
    · next hnot =>
      rw [if_neg (by simp [hnot]), ih h]
      rcases rest with _ | ⟨second, rest⟩
      · rfl
      · simp [getLast?_cons]

theorem search_of_some (h : m.blocks.find? (m.accepts check) = some block) :
    m.search check = ⟨block, m.sizeAt check block, block⟩ := searchLoop_of_some h

theorem search_of_none (h : m.blocks.find? (m.accepts check) = none) :
    m.search check = (m.blocks.getLast?.elim ⟨m.stop, 0, 0⟩
      fun block => ⟨m.stop, m.sizeAt check block, block⟩) := searchLoop_of_none h

/-! ### The rootfs -/

theorem findRootfsLoop_mem {offsets : List Nat} {type : PartType}
    (h : m.findRootfsLoop offsets = some (offset, type)) : offset ∈ offsets := by
  induction offsets with
  | nil => cases h
  | cons first rest ih =>
    rw [Master.findRootfsLoop] at h
    split at h
    · cases h
      exact mem_cons_self
    · exact mem_cons_of_mem _ (ih h)

theorem findRootfsFrom_bounds {start : Nat} {type : PartType}
    (h : m.findRootfsFrom start = some (offset, type)) : start ≤ offset ∧ offset < m.size := by
  have hmem := findRootfsLoop_mem h
  unfold Master.rootfsOffsets at hmem
  split at hmem
  · rcases mem_cons.mp hmem with rfl | hmem
    · constructor <;> omega
    · obtain ⟨hblock, hlt⟩ := mem_filter.mp hmem
      have hlt : start < offset := by simpa using hlt
      exact ⟨by omega, mem_blocks hblock⟩
  · cases hmem

/-! ### uImage and jImage -/

theorem splitImage_of_zero :
    m.splitImage ⟨0, size, block⟩ = some s ↔ size ≠ 0 ∧ ∃ rootfsOffset type,
      m.findRootfsFrom size = some (rootfsOffset, type) ∧
      s = ⟨⟨.kernel, 0, rootfsOffset⟩, ⟨rootfsName type, rootfsOffset, m.size - rootfsOffset⟩,
        true, block⟩ := by
  simp only [Master.splitImage, Nat.zero_add]
  by_cases hsize : size = 0
  · simp [hsize]
  · rcases hfind : m.findRootfsFrom size with _ | ⟨rootfsOffset, type⟩
    · simp
    · have hrest : m.size - rootfsOffset ≠ 0 := by
        have hbounds := findRootfsFrom_bounds hfind
        omega
      simp [hrest, eq_comm]

theorem splitImage_of_ne_zero (h : offset ≠ 0) :
    m.splitImage ⟨offset, size, block⟩ = some s ↔ size ≠ 0 ∧ ∃ type,
      m.checkRootfsMagic 0 = some type ∧
      s = ⟨⟨.kernel, offset, size⟩, ⟨rootfsName type, 0, offset⟩, false, block⟩ := by
  simp only [Master.splitImage, if_neg h]
  by_cases hsize : size = 0
  · simp [hsize]
  · rcases hmagic : m.checkRootfsMagic 0 with _ | type <;> simp [eq_comm]

theorem exists_split (hsize : size ≠ 0) (hrootfs : m.hasRootfs offset size) :
    ∃ s, m.splitImage ⟨offset, size, block⟩ = some s ∧
      s.block = block := by
  unfold Master.hasRootfs at hrootfs
  split at hrootfs
  · next hzero =>
    subst hzero
    obtain ⟨⟨rootfsOffset, type⟩, hfind⟩ := Option.isSome_iff_exists.mp hrootfs
    exact ⟨_, splitImage_of_zero.mpr ⟨hsize, rootfsOffset, type, hfind, rfl⟩, rfl⟩
  · next hne =>
    obtain ⟨type, hmagic⟩ := Option.isSome_iff_exists.mp hrootfs
    exact ⟨_, (splitImage_of_ne_zero hne).mpr ⟨hsize, type, hmagic, rfl⟩, rfl⟩

theorem sane_splitImage (hblock : block ∈ m.blocks) (hcheck : check block = some size)
    (hend : block + size ≤ m.size) (h : m.splitImage ⟨block, size, block⟩ = some s) :
    m.Sane check id s := by
  by_cases hzero : block = 0
  · subst hzero
    obtain ⟨hsize, rootfsOffset, type, hfind, rfl⟩ := splitImage_of_zero.mp h
    obtain ⟨hfrom, hlt⟩ := findRootfsFrom_bounds hfind
    refine ⟨?_, ?_, ?_, ?_, .inl ?_, hblock, ⟨size, hcheck, hend⟩, rfl⟩ <;> dsimp only <;> omega
  · obtain ⟨hsize, type, hmagic, rfl⟩ := (splitImage_of_ne_zero hzero).mp h
    refine ⟨?_, ?_, ?_, ?_, .inr ?_, hblock, ⟨size, hcheck, hend⟩, rfl⟩ <;> dsimp only <;> omega

theorem stop_ne_zero (h : m.blocks.getLast? = some block) : m.stop ≠ 0 := by
  have hlt := mem_blocks (mem_of_getLast? h)
  have hle := @size_le_stop m
  omega

theorem hasRootfs_of_split (h : m.splitImage ⟨offset, size, block⟩ = some s) :
    size ≠ 0 ∧ m.hasRootfs offset size := by
  unfold Master.hasRootfs
  by_cases hzero : offset = 0
  · subst hzero
    obtain ⟨hsize, rootfsOffset, type, hfind, -⟩ := splitImage_of_zero.mp h
    exact ⟨hsize, by simp [hfind]⟩
  · obtain ⟨hsize, type, hmagic, -⟩ := (splitImage_of_ne_zero hzero).mp h
    exact ⟨hsize, by simp [hzero, hmagic]⟩

theorem splitImage_sane_iff (check : Nat → Option Nat) :
    (∀ s, m.splitImage (m.search check) = some s → m.Sane check id s) ↔ m.Harmless check := by
  constructor
  · intro h
    constructor
    · intro block size hfirst hcheck hsize hrootfs
      have hsizeAt : m.sizeAt check block = size % 2 ^ m.width := by
        simp [Master.sizeAt, hcheck]
      obtain ⟨s, hsplit, hblock⟩ := @exists_split m block block _ hsize hrootfs
      rw [search_of_some hfirst, hsizeAt] at h
      obtain ⟨size', hcheck', hend⟩ := (h s hsplit).header
      rw [hblock] at hcheck' hend
      rwa [Option.some.inj (hcheck.symm.trans hcheck')]
    · intro block hnone hlast hsize
      by_contra hmagic
      obtain ⟨type, hmagic⟩ := Option.ne_none_iff_exists'.mp hmagic
      rw [search_of_none hnone, hlast] at h
      -- the kernel starts behind the device
      have hin := (h _ ((splitImage_of_ne_zero (stop_ne_zero hlast)).mpr
        ⟨hsize, type, hmagic, rfl⟩)).kernel_in
      have hle := @size_le_stop m
      dsimp only at hin
      omega
  · intro h s hsplit
    rcases hfind : m.blocks.find? (m.accepts check) with _ | block
    · rw [search_of_none hfind] at hsplit
      rcases hlast : m.blocks.getLast? with _ | block
      · rw [hlast] at hsplit
        simp [Master.splitImage] at hsplit
      · rw [hlast] at hsplit
        obtain ⟨hsize, type, hmagic, -⟩ :=
          (splitImage_of_ne_zero (stop_ne_zero hlast)).mp hsplit
        rw [h.last block hfind hlast hsize] at hmagic
        cases hmagic
    · obtain ⟨size, hcheck, -⟩ := accepts_iff.mp (find?_some hfind)
      have hsizeAt : m.sizeAt check block = size % 2 ^ m.width := by
        simp [Master.sizeAt, hcheck]
      rw [search_of_some hfind, hsizeAt] at hsplit
      obtain ⟨hsize, hrootfs⟩ := hasRootfs_of_split hsplit
      have hend := h.first block size hfind hcheck hsize hrootfs
      have hlt := @size_lt_width m
      rw [Nat.mod_eq_of_lt (by omega)] at hsplit
      exact sane_splitImage (mem_of_find?_eq_some hfind) hcheck hend hsplit

/-! ### TRX -/

theorem value_take_lt (bigEndian : Bool) (buf : List UInt8) :
    value bigEndian (buf.take 4) < 0x100000000 := by
  have hlt := value_lt bigEndian (buf.take 4)
  have hle : 256 ^ (buf.take 4).length ≤ 256 ^ 4 :=
    Nat.pow_le_pow_right (by decide) (length_take_le 4 buf)
  omega

theorem trxOffset_lt (block i : Nat) : m.trxOffset block i < 0x100000000 :=
  value_take_lt _ _

theorem trxCheck_lt (h : m.trxCheck block = some size) : size < 0x100000000 := by
  simp only [Master.trxCheck, Option.bind_eq_bind, Option.bind_eq_some_iff] at h
  obtain ⟨hdr, -, h⟩ := h
  split at h
  · cases h
  · cases h
    exact value_take_lt _ _

theorem width_bounds : 0x100000000 ≤ 2 ^ m.width ∧ m.size < 2 ^ m.width ∧
    ∃ k, 2 ^ 64 = 2 ^ m.width * k := by
  refine ⟨?_, size_lt_width, ?_⟩ <;> rcases m.width_eq with h | h <;> rw [h]
  · decide
  · decide
  · exact ⟨2 ^ 32, by decide⟩
  · exact ⟨1, by decide⟩

theorem sub_mod {p a b : Nat} (ha : a < p) (hb : b < p) :
    (p + a - b) % p = if b ≤ a then a - b else p + a - b := by
  split
  · have hsub : p + a - b = a - b + p := by omega
    rw [hsub, Nat.add_mod_right, Nat.mod_eq_of_lt (by omega)]
  · exact Nat.mod_eq_of_lt (by omega)

theorem rootfsSize_eq {rootfsOffset : Nat} (h : rootfsOffset < 2 ^ m.width) :
    (2 ^ 64 + m.size - rootfsOffset) % 2 ^ 64 % 2 ^ m.width =
      if rootfsOffset ≤ m.size then m.size - rootfsOffset
      else 2 ^ m.width + m.size - rootfsOffset := by
  obtain ⟨-, hsize, k, hk⟩ := @width_bounds m
  have hmod : (2 ^ 64 + m.size - rootfsOffset) % 2 ^ 64 % 2 ^ m.width =
      (2 ^ 64 + m.size - rootfsOffset) % 2 ^ m.width := Nat.mod_mod_of_dvd _ ⟨k, hk⟩
  have hkpos : k ≠ 0 := by
    rintro rfl
    simp at hk
  obtain ⟨j, rfl⟩ := Nat.exists_eq_succ_of_ne_zero hkpos
  have hsplit : 2 ^ 64 + m.size - rootfsOffset =
      2 ^ m.width + m.size - rootfsOffset + 2 ^ m.width * j := by
    rw [hk, Nat.mul_succ]
    omega
  rw [hmod, hsplit, Nat.add_mul_mod_self_left, sub_mod hsize h]

section Parts

variable {found : Found}

theorem trxParts_kernel_size : (m.trxParts found).kernel.size =
    if (m.trxParts found).kernel.offset ≤ (m.trxParts found).rootfs.offset then
      (m.trxParts found).rootfs.offset - (m.trxParts found).kernel.offset
    else 2 ^ m.width + (m.trxParts found).rootfs.offset - (m.trxParts found).kernel.offset :=
  sub_mod (Nat.mod_lt _ (Nat.two_pow_pos _)) (Nat.mod_lt _ (Nat.two_pow_pos _))

theorem trxParts_rootfs_size : (m.trxParts found).rootfs.size =
    if (m.trxParts found).rootfs.offset ≤ m.size then m.size - (m.trxParts found).rootfs.offset
    else 2 ^ m.width + m.size - (m.trxParts found).rootfs.offset :=
  rootfsSize_eq (Nat.mod_lt _ (Nat.two_pow_pos _))

theorem trxParts_lt : (m.trxParts found).kernel.offset < 2 ^ m.width ∧
    (m.trxParts found).rootfs.offset < 2 ^ m.width :=
  ⟨Nat.mod_lt _ (Nat.two_pow_pos _), Nat.mod_lt _ (Nat.two_pow_pos _)⟩

theorem splitTrx_eq_some {s : Split} : m.splitTrx found = some s ↔ found.size ≠ 0 ∧
    (m.trxParts found).rootfs.offset ≠ m.size ∧ s = m.trxParts found := by
  have hlt := (@trxParts_lt m found).2
  have hrootfs : (m.trxParts found).rootfs.size = 0 ↔
      (m.trxParts found).rootfs.offset = m.size := by
    rw [trxParts_rootfs_size]
    split <;> omega
  unfold Master.splitTrx
  by_cases hsize : found.size = 0
  · simp [hsize]
  · simp [hrootfs, eq_comm]

/-- The partitions lie in the device, one behind the other, if their offsets do. -/
theorem sane_parts_iff {check : Nat → Option Nat} {start : Nat → Nat} :
    m.Sane check start (m.trxParts found) ↔
      ((m.trxParts found).kernel.offset < (m.trxParts found).rootfs.offset ∧
        (m.trxParts found).rootfs.offset < m.size) ∧ found.block ∈ m.blocks ∧
      (∃ size, check found.block = some size ∧ found.block + size ≤ m.size) ∧
      (m.trxParts found).kernel.offset = start found.block := by
  have hkernel := @trxParts_kernel_size m found
  have hrootfs := @trxParts_rootfs_size m found
  have hsize := @size_lt_width m
  constructor
  · intro h
    obtain ⟨hkpos, hrpos, hkin, hrin, -, hblock, hheader, hstart⟩ := h
    refine ⟨?_, hblock, hheader, hstart⟩
    split at hrootfs
    · split at hkernel <;> omega
    · omega
  · rintro ⟨⟨hbefore, hin⟩, hblock, hheader, hstart⟩
    rw [if_pos (by omega)] at hkernel hrootfs
    exact ⟨by omega, by omega, by omega, by omega, .inl (by omega), hblock, hheader, hstart⟩

end Parts

theorem mod_cases {p a b : Nat} (ha : a < p) (hb : b < p) :
    (a + b) % p = a + b ∧ a + b < p ∨ (a + b) % p + p = a + b := by
  by_cases h : a + b < p
  · exact .inl ⟨Nat.mod_eq_of_lt h, h⟩
  · right
    rw [Nat.mod_eq_sub_mod (by omega), Nat.mod_eq_of_lt (by omega)]
    omega

/-- The offsets of a header, with the block in front of them, lie in order in the device, also in
    the arithmetic of `size_t`. -/
theorem trx_order_iff :
    (((m.trxParts ⟨block, size, block⟩).kernel.offset <
          (m.trxParts ⟨block, size, block⟩).rootfs.offset ∧
        (m.trxParts ⟨block, size, block⟩).rootfs.offset < m.size) ∧
      (m.trxParts ⟨block, size, block⟩).kernel.offset = m.trxStart block) ↔
    block + m.trxOffset block 0 = m.trxStart block ∧
      m.trxOffset block 0 < m.trxOffset block 1 ∧ block + m.trxOffset block 1 < m.size := by
  change ((block + m.trxOffset block 0) % 2 ^ m.width <
      (block + m.trxOffset block 1) % 2 ^ m.width ∧
    (block + m.trxOffset block 1) % 2 ^ m.width < m.size) ∧
    (block + m.trxOffset block 0) % 2 ^ m.width = m.trxStart block ↔ _
  have hstart : block ≤ m.trxStart block := Nat.le_add_right _ _
  have h0 := @trxOffset_lt m block 0
  have h1 := @trxOffset_lt m block 1
  obtain ⟨hwidth, hsize, -⟩ := @width_bounds m
  generalize m.trxOffset block 0 = first at *
  generalize m.trxOffset block 1 = second at *
  generalize m.trxStart block = start at *
  generalize 2 ^ m.width = p at *
  constructor
  · rintro ⟨⟨hlt, hin⟩, heq⟩
    have hfirst := mod_cases (show block < p by omega) (show first < p by omega)
    have hsecond := mod_cases (show block < p by omega) (show second < p by omega)
    refine ⟨?_, ?_, ?_⟩ <;> omega
  · rintro ⟨heq, hlt, hin⟩
    rw [Nat.mod_eq_of_lt (show block + first < p by omega),
      Nat.mod_eq_of_lt (show block + second < p by omega)]
    refine ⟨⟨?_, ?_⟩, ?_⟩ <;> omega

theorem sizeAt_trxCheck (h : m.trxCheck block = some size) : m.sizeAt m.trxCheck block = size := by
  have hlt := trxCheck_lt h
  have hwidth := (@width_bounds m).1
  simp [Master.sizeAt, h, Nat.mod_eq_of_lt (show size < 2 ^ m.width by omega)]

theorem splitTrx_sane_iff :
    (∀ s, m.parseTrx = some s → m.Sane m.trxCheck m.trxStart s) ↔ m.HarmlessTrx := by
  have hwidth := @size_lt_width m
  constructor
  · intro h
    constructor
    · intro block size hfirst hcheck hsize hend
      rw [Master.parseTrx, search_of_some hfirst, sizeAt_trxCheck hcheck] at h
      obtain ⟨horder, -, ⟨size', hcheck', hle⟩, hstart⟩ :=
        sane_parts_iff.mp (h _ (splitTrx_eq_some.mpr ⟨hsize, hend, rfl⟩))
      cases Option.some.inj (hcheck.symm.trans hcheck')
      exact ⟨hle, trx_order_iff.mp ⟨horder, hstart⟩⟩
    · intro block hnone hlast hsize
      by_contra hend
      rw [Master.parseTrx, search_of_none hnone, hlast] at h
      obtain ⟨-, hblock, ⟨size, hcheck, hle⟩, -⟩ :=
        sane_parts_iff.mp (h _ (splitTrx_eq_some.mpr ⟨hsize, hend, rfl⟩))
      -- such a header would have been accepted
      dsimp only [Option.elim_some] at hblock hcheck hle
      have haccepts : m.accepts m.trxCheck block = true := by
        refine accepts_iff.mpr ⟨size, hcheck, ?_⟩
        rw [Nat.mod_eq_of_lt (show size < 2 ^ m.width by omega), Nat.mod_eq_of_lt (by omega)]
        exact hle
      exact absurd haccepts (find?_eq_none.mp hnone block hblock)
  · intro h s hsplit
    rw [Master.parseTrx] at hsplit
    rcases hfind : m.blocks.find? (m.accepts m.trxCheck) with _ | block
    · rw [search_of_none hfind] at hsplit
      rcases hlast : m.blocks.getLast? with _ | block
      · rw [hlast] at hsplit
        exact absurd rfl (splitTrx_eq_some.mp hsplit).1
      · rw [hlast] at hsplit
        obtain ⟨hsize, hend, -⟩ := splitTrx_eq_some.mp hsplit
        exact absurd (h.last block hfind hlast hsize) hend
    · obtain ⟨size, hcheck, -⟩ := accepts_iff.mp (find?_some hfind)
      rw [search_of_some hfind, sizeAt_trxCheck hcheck] at hsplit
      obtain ⟨hsize, hend, rfl⟩ := splitTrx_eq_some.mp hsplit
      obtain ⟨hle, horder⟩ := h.first block size hfind hcheck hsize hend
      obtain ⟨horder, hstart⟩ := trx_order_iff.mpr horder
      exact sane_parts_iff.mpr
        ⟨horder, mem_of_find?_eq_some hfind, ⟨size, hcheck, hle⟩, hstart⟩

/-- **Firmware splitters return sane partitions** just when the headers are harmless: for every
    content of the flash, every size of the erase blocks and every pattern of read errors. -/
theorem splitters_sane_iff (m : Master) (config : UimageConfig) :
    ((∀ s, m.parseUimage config = some s → m.Sane (m.uimageCheck config) id s) ↔
      m.Harmless (m.uimageCheck config)) ∧
    ((∀ s, m.parseJimage = some s → m.Sane m.jimageCheck id s) ↔ m.Harmless m.jimageCheck) ∧
    ((∀ s, m.parseTrx = some s → m.Sane m.trxCheck m.trxStart s) ↔ m.HarmlessTrx) :=
  ⟨splitImage_sane_iff _, splitImage_sane_iff _, splitTrx_sane_iff⟩

/-! ### Small devices -/

/-- Two blocks of 64 octets without read errors, on a machine of 32 bits. -/
def smallMaster (bigEndian : Bool) (first second : List UInt8) : Master where
  size := 128
  erasesize := 64
  content := store (store (fun _ => 0) 0 first) 64 second
  readable _ _ := true
  width := 32
  bigEndian := bigEndian
  erasesize_pos := by decide
  width_eq := Or.inl rfl
  fits := by decide

def squashfsMagic : List UInt8 := [0x68, 0x73, 0x71, 0x73]

def uimageHeader (ihSize : Nat) : List UInt8 :=
  bytes true 4 0x27051956 ++ replicate 8 0 ++ bytes true 4 ihSize ++ replicate 12 0 ++
    [5, 0, 2, 0]

def jimageHeader (imageLen : Nat) : List UInt8 :=
  [0x04, 0x04, 0x24, 0x2b] ++ replicate 12 0 ++ [0x24, 0x21, 0x03, 0x02] ++
    replicate 4 0 ++ bytes false 4 imageLen

def trxHeader (len offset0 offset1 : Nat) : List UInt8 :=
  [0x48, 0x44, 0x52, 0x30] ++ bytes false 4 len ++ replicate 8 0 ++ bytes false 4 offset0 ++
    bytes false 4 offset1

instance (m : Master) (check : Nat → Option Nat) (start : Nat → Nat) (s : Split) :
    Decidable (m.Sane check start s) :=
  decidable_of_iff _ (m.sane_iff check start s).symm

/-- **Partitions that are not sane**: a kernel behind the device, from a uImage or a jImage in the
    last block that exceeds it; a uImage of 4 GiB, whose size wraps around; a rootfs behind the
    device, from an offset in a TRX header; and the offsets of a TRX header in the wrong byte
    order. -/
theorem not_sane_small :
    (∃ s, (smallMaster false squashfsMagic (uimageHeader 0x1000)).parseUimage {} = some s ∧
      s.kernel.offset = 128 ∧ ¬ (smallMaster false squashfsMagic (uimageHeader 0x1000)).Sane
        ((smallMaster false squashfsMagic (uimageHeader 0x1000)).uimageCheck {}) id s) ∧
    (∃ s, (smallMaster false squashfsMagic (jimageHeader 0x1000)).parseJimage = some s ∧
      s.kernel.offset = 128 ∧ ¬ (smallMaster false squashfsMagic (jimageHeader 0x1000)).Sane
        (smallMaster false squashfsMagic (jimageHeader 0x1000)).jimageCheck id s) ∧
    (∃ s, (smallMaster false (uimageHeader 0xfffffff0) squashfsMagic).parseUimage {} = some s ∧
      s.kernel.size = 64 ∧ ¬ (smallMaster false (uimageHeader 0xfffffff0) squashfsMagic).Sane
        ((smallMaster false (uimageHeader 0xfffffff0) squashfsMagic).uimageCheck {}) id s) ∧
    (∃ s, (smallMaster false (trxHeader 100 28 1000) []).parseTrx = some s ∧
      s.rootfs.offset = 1000 ∧ ¬ (smallMaster false (trxHeader 100 28 1000) []).Sane
        (smallMaster false (trxHeader 100 28 1000) []).trxCheck
        (smallMaster false (trxHeader 100 28 1000) []).trxStart s) ∧
    (∃ s, (smallMaster true (trxHeader 100 28 64) []).parseTrx = some s ∧
      s.kernel.offset = 0x1c000000 ∧ ¬ (smallMaster true (trxHeader 100 28 64) []).Sane
        (smallMaster true (trxHeader 100 28 64) []).trxCheck
        (smallMaster true (trxHeader 100 28 64) []).trxStart s) := by
  decide +kernel

end Rooter.MtdSplit
