import Rooter.ByteOrder
import Rooter.Crc32
import Rooter.Memory

/-!
# `bcm4908img.c`: images

An image for the BCM4908 has the data of the firmware and behind it a tail with its checksum.  A
vendor may put a header in front of the data and a tail of its own behind the other one.
`parse` looks for the parts, computes the checksum and compares it with the one in the tail.
-/

namespace Rooter.Bcm4908

open List Memory ByteOrder

/-! ### The checksum -/

def crc32Tbl : List (BitVec 32) :=
  [
    0x00000000, 0x77073096, 0xee0e612c, 0x990951ba, 0x076dc419, 0x706af48f, 0xe963a535,
    0x9e6495a3, 0x0edb8832, 0x79dcb8a4, 0xe0d5e91e, 0x97d2d988, 0x09b64c2b, 0x7eb17cbd,
    0xe7b82d07, 0x90bf1d91, 0x1db71064, 0x6ab020f2, 0xf3b97148, 0x84be41de, 0x1adad47d,
    0x6ddde4eb, 0xf4d4b551, 0x83d385c7, 0x136c9856, 0x646ba8c0, 0xfd62f97a, 0x8a65c9ec,
    0x14015c4f, 0x63066cd9, 0xfa0f3d63, 0x8d080df5, 0x3b6e20c8, 0x4c69105e, 0xd56041e4,
    0xa2677172, 0x3c03e4d1, 0x4b04d447, 0xd20d85fd, 0xa50ab56b, 0x35b5a8fa, 0x42b2986c,
    0xdbbbc9d6, 0xacbcf940, 0x32d86ce3, 0x45df5c75, 0xdcd60dcf, 0xabd13d59, 0x26d930ac,
    0x51de003a, 0xc8d75180, 0xbfd06116, 0x21b4f4b5, 0x56b3c423, 0xcfba9599, 0xb8bda50f,
    0x2802b89e, 0x5f058808, 0xc60cd9b2, 0xb10be924, 0x2f6f7c87, 0x58684c11, 0xc1611dab,
    0xb6662d3d, 0x76dc4190, 0x01db7106, 0x98d220bc, 0xefd5102a, 0x71b18589, 0x06b6b51f,
    0x9fbfe4a5, 0xe8b8d433, 0x7807c9a2, 0x0f00f934, 0x9609a88e, 0xe10e9818, 0x7f6a0dbb,
    0x086d3d2d, 0x91646c97, 0xe6635c01, 0x6b6b51f4, 0x1c6c6162, 0x856530d8, 0xf262004e,
    0x6c0695ed, 0x1b01a57b, 0x8208f4c1, 0xf50fc457, 0x65b0d9c6, 0x12b7e950, 0x8bbeb8ea,
    0xfcb9887c, 0x62dd1ddf, 0x15da2d49, 0x8cd37cf3, 0xfbd44c65, 0x4db26158, 0x3ab551ce,
    0xa3bc0074, 0xd4bb30e2, 0x4adfa541, 0x3dd895d7, 0xa4d1c46d, 0xd3d6f4fb, 0x4369e96a,
    0x346ed9fc, 0xad678846, 0xda60b8d0, 0x44042d73, 0x33031de5, 0xaa0a4c5f, 0xdd0d7cc9,
    0x5005713c, 0x270241aa, 0xbe0b1010, 0xc90c2086, 0x5768b525, 0x206f85b3, 0xb966d409,
    0xce61e49f, 0x5edef90e, 0x29d9c998, 0xb0d09822, 0xc7d7a8b4, 0x59b33d17, 0x2eb40d81,
    0xb7bd5c3b, 0xc0ba6cad, 0xedb88320, 0x9abfb3b6, 0x03b6e20c, 0x74b1d29a, 0xead54739,
    0x9dd277af, 0x04db2615, 0x73dc1683, 0xe3630b12, 0x94643b84, 0x0d6d6a3e, 0x7a6a5aa8,
    0xe40ecf0b, 0x9309ff9d, 0x0a00ae27, 0x7d079eb1, 0xf00f9344, 0x8708a3d2, 0x1e01f268,
    0x6906c2fe, 0xf762575d, 0x806567cb, 0x196c3671, 0x6e6b06e7, 0xfed41b76, 0x89d32be0,
    0x10da7a5a, 0x67dd4acc, 0xf9b9df6f, 0x8ebeeff9, 0x17b7be43, 0x60b08ed5, 0xd6d6a3e8,
    0xa1d1937e, 0x38d8c2c4, 0x4fdff252, 0xd1bb67f1, 0xa6bc5767, 0x3fb506dd, 0x48b2364b,
    0xd80d2bda, 0xaf0a1b4c, 0x36034af6, 0x41047a60, 0xdf60efc3, 0xa867df55, 0x316e8eef,
    0x4669be79, 0xcb61b38c, 0xbc66831a, 0x256fd2a0, 0x5268e236, 0xcc0c7795, 0xbb0b4703,
    0x220216b9, 0x5505262f, 0xc5ba3bbe, 0xb2bd0b28, 0x2bb45a92, 0x5cb36a04, 0xc2d7ffa7,
    0xb5d0cf31, 0x2cd99e8b, 0x5bdeae1d, 0x9b64c2b0, 0xec63f226, 0x756aa39c, 0x026d930a,
    0x9c0906a9, 0xeb0e363f, 0x72076785, 0x05005713, 0x95bf4a82, 0xe2b87a14, 0x7bb12bae,
    0x0cb61b38, 0x92d28e9b, 0xe5d5be0d, 0x7cdcefb7, 0x0bdbdf21, 0x86d3d2d4, 0xf1d4e242,
    0x68ddb3f8, 0x1fda836e, 0x81be16cd, 0xf6b9265b, 0x6fb077e1, 0x18b74777, 0x88085ae6,
    0xff0f6a70, 0x66063bca, 0x11010b5c, 0x8f659eff, 0xf862ae69, 0x616bffd3, 0x166ccf45,
    0xa00ae278, 0xd70dd2ee, 0x4e048354, 0x3903b3c2, 0xa7672661, 0xd06016f7, 0x4969474d,
    0x3e6e77db, 0xaed16a4a, 0xd9d65adc, 0x40df0b66, 0x37d83bf0, 0xa9bcae53, 0xdebb9ec5,
    0x47b2cf7f, 0x30b5ffe9, 0xbdbdf21c, 0xcabac28a, 0x53b39330, 0x24b4a3a6, 0xbad03605,
    0xcdd70693, 0x54de5729, 0x23d967bf, 0xb3667a2e, 0xc4614ab8, 0x5d681b02, 0x2a6f2b94,
    0xb40bbe37, 0xc30c8ea1, 0x5a05df1b, 0x2d02ef8d
  ]

def crc32 (crc : BitVec 32) (buf : List UInt8) : BitVec 32 :=
  buf.foldl (fun crc b =>
    crc32Tbl.getD ((crc ^^^ b.toBitVec.setWidth 32) &&& 0xff#32).toNat 0 ^^^ (crc >>> 8)) crc

/-! ### Files -/

structure File where
  size : Nat
  byte : Nat → UInt8

def File.read (file : File) (pos n : Nat) : List UInt8 :=
  load file.byte pos (min n (file.size - pos))

def File.write (file : File) (pos : Nat) (data : List UInt8) : File :=
  ⟨max file.size (pos + data.length), store file.byte pos data⟩

inductive ParseError where
  | header                            -- Failed to read file header
  | jffs2                             -- Failed to read while looking for JFFS2
  | bootfs                            -- Failed to find bootfs offset
  | read (length : Nat)               -- Failed to read %zu bytes
  | rootfs                            -- Failed to find rootfs offset
  | data (length : Nat)               -- Failed to read last %zd B of data
  | tail                              -- Failed to read BCM4908 image tail
  | crc32 (found stored : BitVec 32)  -- Invalid data crc32: 0x%08x instead of 0x%08x
deriving DecidableEq, Repr

/-- The loop of `bcm4908img_calc_crc32` with its buffer of 1024 octets; it ends with the checksum
    and the number of the octets that could not be read. -/
def calcLoop (file : File) : Nat → Nat → Nat → BitVec 32 → BitVec 32 × Nat
  | 0, _, length, crc => (crc, length)
  | fuel + 1, pos, length, crc =>
      if length = 0 then (crc, length)
      else
        let buf := file.read pos (min 1024 length)
        if buf.length = 0 then (crc, length)
        else calcLoop file fuel (pos + buf.length) (length - buf.length) (crc32 crc buf)

/-- `bcm4908img_calc_crc32`; each round reads at least one octet. -/
def calcCrc32 (file : File) (cferomOffset tailOffset : Nat) : Except ParseError (BitVec 32) :=
  let length := tailOffset - cferomOffset
  let end_ := calcLoop file length cferomOffset length 0xffffffff#32
  if end_.2 = 0 then .ok end_.1 else .error (.data end_.2)

/-! ### The tail -/

structure Tail where
  crc32 : BitVec 32
  version : BitVec 32
  chipId : BitVec 32
  flashType : BitVec 32
  flags : BitVec 32
deriving DecidableEq, Repr

def le32 (n : BitVec 32) : List UInt8 := bytes false 4 n.toNat

def ofLe32 (l : List UInt8) : BitVec 32 := BitVec.ofNat 32 (value false (l.take 4))

def ofBe32 (l : List UInt8) : Nat := value true (l.take 4)

def Tail.bytes (t : Tail) : List UInt8 :=
  le32 t.crc32 ++ le32 t.version ++ le32 t.chipId ++ le32 t.flashType ++ le32 t.flags

def Tail.ofBytes (l : List UInt8) : Tail :=
  ⟨ofLe32 l, ofLe32 (l.drop 4), ofLe32 (l.drop 8), ofLe32 (l.drop 12), ofLe32 (l.drop 16)⟩

/-! ### `bcm4908img_parse` -/

/-- The positions from `start` on in front of `stop`, in steps of an erase block. -/
def offsets (start stop : Nat) : List Nat :=
  (range ((stop - start + 0x1ffff) / 0x20000)).map fun k => start + k * 0x20000

def vendor (file : File) : Except ParseError (Nat × Nat) :=
  if file.size < 1024 then .error .header
  else
    let head := file.read 0 1024
    let cferomOffset := if ofBe32 head = 0x2a23245e then ofBe32 (head.drop 4) else 0
    let end_ := file.read (file.size - 1024) 1024
    let linksys := end_.drop (1024 - 256)
    let tailOffset :=
      -- the magic is .LINKSYS.
      if linksys.take 9 = [0x2e, 0x4c, 0x49, 0x4e, 0x4b, 0x53, 0x59, 0x53, 0x2e] then
        file.size - 20 - 256
      else file.size - 20
    .ok (cferomOffset, tailOffset)

def bootfsLoop (file : File) : List Nat → Except ParseError Nat
  | [] => .error .bootfs
  | pos :: rest =>
      let tmp16 := file.read pos 2
      if tmp16.length ≠ 2 then .error .jffs2
      else if tmp16 = [0x85, 0x19] then .ok pos
      else bootfsLoop file rest

/-- The search for the rootfs; the offset of the padding is zero until it is found. -/
def rootfsLoop (file : File) : Nat → List Nat → Except ParseError (Nat × Nat)
  | _, [] => .error .rootfs
  | paddingOffset, pos :: rest =>
      let length := if paddingOffset ≠ 0 then 4 else 256
      let buf := file.read pos length
      if buf.length ≠ length then .error (.read length)
      else
        let paddingOffset :=
          if paddingOffset = 0 ∧ buf.all (· == 0xff) then pos else paddingOffset
        if ofBe32 buf = 0x55424923 then .ok (paddingOffset, pos)
        else rootfsLoop file paddingOffset rest

structure Offsets where
  cferom : Nat
  bootfs : Nat
  padding : Nat
  rootfs : Nat
  tail : Nat
deriving DecidableEq, Repr

/-- What `bcm4908img_parse` does in front of the checksum. -/
def locate (file : File) : Except ParseError Offsets := do
  let (cferomOffset, tailOffset) ← vendor file
  let bootfsOffset ← bootfsLoop file (offsets cferomOffset tailOffset)
  let (paddingOffset, rootfsOffset) ← rootfsLoop file 0 (offsets bootfsOffset tailOffset)
  return ⟨cferomOffset, bootfsOffset, paddingOffset, rootfsOffset, tailOffset⟩

structure Info where
  offsets : Offsets
  crc32 : BitVec 32
  tail : Tail

def parse (file : File) : Except ParseError Info := do
  let found ← locate file
  let crc ← calcCrc32 file found.cferom found.tail
  let buf := file.read found.tail 20
  if buf.length ≠ 20 then throw .tail
  let tail := Tail.ofBytes buf
  if crc ≠ tail.crc32 then throw (.crc32 crc tail.crc32)
  return ⟨found, crc, tail⟩

/-! ### The table -/

variable {file : File} {pos : Nat}

set_option maxRecDepth 4000 in
theorem crc32Tbl_eq : crc32Tbl = (range 256).map fun i => Crc32.entry (BitVec.ofNat 32 i) := by
  decide +kernel

theorem getD_crc32Tbl (c : BitVec 32) :
    crc32Tbl.getD (c &&& 0xff#32).toNat 0 = Crc32.entry (c &&& 0xff#32) := by
  have hlt : (c &&& 0xff#32).toNat < 256 := Nat.lt_of_le_of_lt Nat.and_le_right (by decide)
  rw [crc32Tbl_eq, getD_eq_getElem?_getD, getElem?_map, getElem?_range hlt]
  simp

theorem crc32_eq (crc : BitVec 32) (buf : List UInt8) : crc32 crc buf = Crc32.crc crc buf := by
  unfold crc32
  congr 1
  funext c b
  rw [getD_crc32Tbl, Crc32.update]

theorem crc32_append (crc : BitVec 32) (buf more : List UInt8) :
    crc32 crc (buf ++ more) = crc32 (crc32 crc buf) more := foldl_append

/-! ### Reading -/

theorem length_read (file : File) (pos n : Nat) :
    (file.read pos n).length = min n (file.size - pos) := length_load _ _ _

theorem read_eq {n : Nat} (h : pos + n ≤ file.size) : file.read pos n = load file.byte pos n := by
  rw [File.read, Nat.min_eq_left (by omega)]

theorem calcLoop_eq {fuel length : Nat} {crc : BitVec 32} (hfuel : length ≤ fuel)
    (hsize : pos + length ≤ file.size) :
    calcLoop file fuel pos length crc = (crc32 crc (load file.byte pos length), 0) := by
  induction fuel generalizing pos length crc with
  | zero =>
    obtain rfl : length = 0 := by omega
    rfl
  | succ fuel ih =>
    rw [calcLoop]
    by_cases hzero : length = 0
    · subst hzero
      rfl
    · have hlen : (file.read pos (min 1024 length)).length = min 1024 length := by
        rw [length_read]
        omega
      have hread : file.read pos (min 1024 length) = load file.byte pos (min 1024 length) :=
        read_eq (by omega)
      have hrest : min 1024 length + (length - min 1024 length) = length := by omega
      simp only [if_neg hzero, hlen]
      rw [if_neg (by omega), ih (by omega) (by omega), hread, ← crc32_append, ← load_add, hrest]

def File.checksum (file : File) (cferomOffset tailOffset : Nat) : BitVec 32 :=
  crc32 0xffffffff#32 (load file.byte cferomOffset (tailOffset - cferomOffset))

theorem calcCrc32_eq {cferomOffset tailOffset : Nat} (hle : cferomOffset ≤ tailOffset)
    (hsize : tailOffset ≤ file.size) :
    calcCrc32 file cferomOffset tailOffset = .ok (file.checksum cferomOffset tailOffset) := by
  rw [calcCrc32, calcLoop_eq (Nat.le_refl _) (by omega)]
  rfl

theorem length_le32 (n : BitVec 32) : (le32 n).length = 4 := length_bytes _ _ _

theorem ofLe32_le32 (n : BitVec 32) (rest : List UInt8) : ofLe32 (le32 n ++ rest) = n := by
  rw [ofLe32, take_left' (length_le32 n), le32, value_bytes false n.isLt, BitVec.ofNat_toNat,
    BitVec.setWidth_eq]

theorem le32_ofLe32 {l : List UInt8} (h : 4 ≤ l.length) : le32 (ofLe32 l) = l.take 4 := by
  have hlen : (l.take 4).length = 4 := by simp [h]
  have hlt : value false (l.take 4) < 2 ^ 32 := by
    have hlt := value_lt false (l.take 4)
    rwa [hlen] at hlt
  have hback := bytes_value false (l.take 4)
  rw [hlen] at hback
  rw [le32, ofLe32, BitVec.toNat_ofNat, Nat.mod_eq_of_lt hlt, hback]

@[simp] theorem length_tailBytes (t : Tail) : t.bytes.length = 20 := by
  simp [Tail.bytes, length_le32]

theorem ofBytes_bytes (t : Tail) : Tail.ofBytes t.bytes = t := by
  have hdrop : ∀ n rest, (le32 n ++ rest).drop 4 = rest := fun n _ =>
    drop_left' (length_le32 n)
  have hdropMore : ∀ n rest k, (le32 n ++ rest).drop (4 + k) = rest.drop k := fun n _ _ => by
    rw [← drop_drop, hdrop n]
  unfold Tail.ofBytes Tail.bytes
  simp only [append_assoc]
  rw [ofLe32_le32, hdrop, ofLe32_le32, hdropMore _ _ 4, hdrop, ofLe32_le32, hdropMore _ _ 8,
    hdropMore _ _ 4, hdrop, ofLe32_le32, hdropMore _ _ 12, hdropMore _ _ 8, hdropMore _ _ 4, hdrop]
  have hlast := ofLe32_le32 t.flags []
  rw [append_nil] at hlast
  rw [hlast]

theorem bytes_ofBytes {l : List UInt8} (h : l.length = 20) : (Tail.ofBytes l).bytes = l := by
  unfold Tail.bytes Tail.ofBytes
  rw [le32_ofLe32 (by simp [h]), le32_ofLe32 (by simp [h]), le32_ofLe32 (by simp [h]),
    le32_ofLe32 (by simp [h]), le32_ofLe32 (by simp [h])]
  have hlast : (l.drop 16).take 4 = l.drop 16 := take_of_length_le (by simp [h])
  rw [hlast, append_assoc, append_assoc, append_assoc]
  have hjoin : ∀ i, (l.drop i).take 4 ++ l.drop (i + 4) = l.drop i := by
    intro i
    rw [← drop_drop]
    exact take_append_drop 4 _
  rw [hjoin 12, hjoin 8, hjoin 4]
  exact take_append_drop 4 l

/-! ### What is accepted -/

theorem bind_eq_ok {α β : Type} {x : Except ParseError α} {f : α → Except ParseError β} {r : β}
    (h : (x >>= f) = .ok r) : ∃ a, x = .ok a ∧ f a = .ok r := by
  rcases x with _ | a
  · cases h
  · exact ⟨a, rfl, h⟩

theorem mem_offsets {start stop : Nat} (h : pos ∈ offsets start stop) :
    start ≤ pos ∧ pos < stop := by
  obtain ⟨k, hk, rfl⟩ := mem_map.mp h
  have hk := mem_range.mp hk
  omega

theorem bootfsLoop_mem {positions : List Nat} (h : bootfsLoop file positions = .ok pos) :
    pos ∈ positions := by
  induction positions with
  | nil => cases h
  | cons first rest ih =>
    rw [bootfsLoop] at h
    split at h
    · cases h
    · split at h
      · cases h
        exact mem_cons_self
      · exact mem_cons_of_mem _ (ih h)

theorem vendor_eq_ok {cferomOffset tailOffset : Nat}
    (h : vendor file = .ok (cferomOffset, tailOffset)) : 1024 ≤ file.size ∧
      (tailOffset = file.size - 20 ∨ tailOffset = file.size - 276) := by
  unfold vendor at h
  split at h
  · cases h
  · cases h
    refine ⟨by omega, ?_⟩
    split
    · exact .inr (by omega)
    · exact .inl rfl

theorem locate_eq_ok {found : Offsets} (h : locate file = .ok found) :
    vendor file = .ok (found.cferom, found.tail) ∧
    bootfsLoop file (offsets found.cferom found.tail) = .ok found.bootfs ∧
    rootfsLoop file 0 (offsets found.bootfs found.tail) = .ok (found.padding, found.rootfs) := by
  obtain ⟨⟨cferomOffset, tailOffset⟩, hvendor, h⟩ := bind_eq_ok h
  obtain ⟨bootfsOffset, hboot, h⟩ := bind_eq_ok h
  obtain ⟨⟨paddingOffset, rootfsOffset⟩, hroot, h⟩ := bind_eq_ok h
  cases h
  exact ⟨hvendor, hboot, hroot⟩

theorem locate_bounds {found : Offsets} (h : locate file = .ok found) :
    1024 ≤ file.size ∧ found.cferom ≤ found.bootfs ∧ found.bootfs < found.tail ∧
      (found.tail = file.size - 20 ∨ found.tail = file.size - 276) := by
  obtain ⟨hvendor, hboot, -⟩ := locate_eq_ok h
  obtain ⟨hsize, htail⟩ := vendor_eq_ok hvendor
  obtain ⟨hle, hlt⟩ := mem_offsets (bootfsLoop_mem hboot)
  exact ⟨hsize, hle, hlt, htail⟩

/-- **What `parse` accepts**: the parts are found, and the tail has the checksum of the data. -/
theorem parse_eq_ok_iff {info : Info} : parse file = .ok info ↔
    locate file = .ok info.offsets ∧
    info.tail = Tail.ofBytes (load file.byte info.offsets.tail 20) ∧
    info.crc32 = file.checksum info.offsets.cferom info.offsets.tail ∧
    info.crc32 = info.tail.crc32 := by
  rcases hlocate : locate file with _ | found
  · simp [parse, hlocate, bind, Except.bind]
  · obtain ⟨hsize, hle, hlt, htail⟩ := locate_bounds hlocate
    have hcalc : calcCrc32 file found.cferom found.tail =
        .ok (file.checksum found.cferom found.tail) :=
      calcCrc32_eq (by omega) (by omega)
    have hread : file.read found.tail 20 = load file.byte found.tail 20 := read_eq (by omega)
    have hparse : parse file = if file.checksum found.cferom found.tail ≠
        (Tail.ofBytes (load file.byte found.tail 20)).crc32 then
          .error (.crc32 (file.checksum found.cferom found.tail)
            (Tail.ofBytes (load file.byte found.tail 20)).crc32)
        else .ok ⟨found, file.checksum found.cferom found.tail,
          Tail.ofBytes (load file.byte found.tail 20)⟩ := by
      simp only [parse, hlocate, bind, Except.bind, hcalc, hread]
      rfl
    rw [hparse]
    constructor
    · intro h
      split at h
      · cases h
      · next heq =>
        cases h
        exact ⟨rfl, rfl, rfl, not_not.mp heq⟩
    · rintro ⟨hfound, htailEq, hcrc, hsame⟩
      obtain ⟨offsets, crc, tail⟩ := info
      cases hfound
      dsimp only at htailEq hcrc hsame hparse ⊢
      subst htailEq hcrc
      rw [if_neg (not_not.mpr hsame)]

def Accepted (file : File) : Prop := ∃ info, parse file = .ok info

theorem accepted_iff : Accepted file ↔ ∃ found, locate file = .ok found ∧
    file.checksum found.cferom found.tail =
      (Tail.ofBytes (load file.byte found.tail 20)).crc32 := by
  constructor
  · rintro ⟨info, hparse⟩
    obtain ⟨hfound, htail, hcrc, hsame⟩ := parse_eq_ok_iff.mp hparse
    exact ⟨info.offsets, hfound, by rw [← hcrc, hsame, htail]⟩
  · rintro ⟨found, hfound, hsame⟩
    exact ⟨⟨found, file.checksum found.cferom found.tail,
      Tail.ofBytes (load file.byte found.tail 20)⟩, parse_eq_ok_iff.mpr ⟨hfound, rfl, rfl, hsame⟩⟩

end Rooter.Bcm4908
