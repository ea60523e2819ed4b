import Mathlib.Algebra.Group.Nat.Defs
import Rooter.ChainedTable
import Rooter.Memory

/-!
# NVRAM variables

Model of `nvram.c`: variables with a name and a value are kept in a hash table and written to
a flash partition, which is mapped into memory, as a header and the texts `name=value`, each
with a zero byte behind it.  A zero byte ends the list.

The header is made of words in the byte order of the processor.  It has a length, and a sum
over its own last bytes and the data.  Addresses are numbers of 32 bits.  Strings are lists of
bytes without the zero byte at their end.
-/

namespace Rooter.Nvram

open List ChainedTable Memory

abbrev Bytes := List UInt8

def ascii (s : List Char) : Bytes := s.map fun c => UInt8.ofNat c.toNat

/-- The processor, and the mapping of the partition: its address, and `nvram_part_size`.
    Mappings start on a page, and partitions are not below `NVRAM_MIN_SPACE`. -/
structure Device where
  bigEndian : Bool
  signedChar : Bool
  base : Nat
  length : Nat
  aligned : base % 4 = 0
  inside : base + length ≤ 0x100000000
  minSpace : 0x8000 ≤ length
  length_lt : length < 0x80000000

namespace Device

variable (d : Device)

/-! ### Words and strings -/

def bytes (w : Nat) : Bytes :=
  let l := [w, w / 0x100, w / 0x10000, w / 0x1000000].map UInt8.ofNat
  if d.bigEndian then l.reverse else l

def word (mem : Nat → UInt8) (i : Nat) : Nat :=
  let l := load mem i 4
  (if d.bigEndian then l.reverse else l).foldr (fun b w => b.toNat + 0x100 * w) 0

def hash (s : Bytes) : Nat :=
  s.foldl (fun h b =>
    (31 * h + if d.signedChar && 0x80 ≤ b then b.toNat + 0xffffff00 else b.toNat) % 0x100000000) 0

def index (s : Bytes) : Fin 257 := ⟨d.hash s % 257, Nat.mod_lt _ (by decide)⟩

def cstring (mem : Nat → UInt8) : Nat → Nat → Option Bytes
  | 0, _ => none
  | n + 1, i => if mem i = 0 then some [] else (cstring mem n (i + 1)).map (mem i :: ·)

end Device

/-- The value of a digit of `strtoul`. -/
def digit? (b : UInt8) : Option Nat :=
  if 0x30 ≤ b ∧ b ≤ 0x39 then some (b.toNat - 0x30)
  else if 0x41 ≤ b ∧ b ≤ 0x5a then some (b.toNat - 0x37)
  else if 0x61 ≤ b ∧ b ≤ 0x7a then some (b.toNat - 0x57)
  else none

def digits (radix : Nat) : Bytes → Nat → Nat
  | [], n => n
  | b :: s, n =>
      match digit? b with
      | some k => if k < radix then digits radix s (n * radix + k) else n
      | none => n

/-- The number with its sign as an `unsigned long`. -/
def toUnsigned (negative : Bool) (n : Nat) : Nat :=
  if 0xffffffff < n then 0xffffffff
  else if negative then (0x100000000 - n) % 0x100000000
  else n

def strtoul (s : Bytes) : Nat :=
  let s := s.dropWhile fun b => b = 0x20 ∨ 9 ≤ b ∧ b ≤ 13
  let (negative, s) : Bool × Bytes :=
    match s with
    | 0x2d :: s => (true, s)
    | 0x2b :: s => (false, s)
    | s => (false, s)
  let n :=
    match s with
    | 0x30 :: 0x78 :: s => digits 16 s 0
    | 0x30 :: 0x58 :: s => digits 16 s 0
    | 0x30 :: s => digits 8 s 0
    | s => digits 10 s 0
  toUnsigned negative n

/-- `"0x%04X"` and `"0x%08X"`, for numbers of so many digits. -/
def hexText (width n : Nat) : Bytes :=
  ascii ['0', 'x'] ++ (range width).reverse.map fun k =>
    let digit := n / 16 ^ k % 16
    UInt8.ofNat (if digit < 10 then 0x30 + digit else 0x37 + digit)

/-! ### The sum -/

def crc8Table : List UInt8 := [
  0x00, 0xF7, 0xB9, 0x4E, 0x25, 0xD2, 0x9C, 0x6B,
  0x4A, 0xBD, 0xF3, 0x04, 0x6F, 0x98, 0xD6, 0x21,
  0x94, 0x63, 0x2D, 0xDA, 0xB1, 0x46, 0x08, 0xFF,
  0xDE, 0x29, 0x67, 0x90, 0xFB, 0x0C, 0x42, 0xB5,
  0x7F, 0x88, 0xC6, 0x31, 0x5A, 0xAD, 0xE3, 0x14,
  0x35, 0xC2, 0x8C, 0x7B, 0x10, 0xE7, 0xA9, 0x5E,
  0xEB, 0x1C, 0x52, 0xA5, 0xCE, 0x39, 0x77, 0x80,
  0xA1, 0x56, 0x18, 0xEF, 0x84, 0x73, 0x3D, 0xCA,
  0xFE, 0x09, 0x47, 0xB0, 0xDB, 0x2C, 0x62, 0x95,
  0xB4, 0x43, 0x0D, 0xFA, 0x91, 0x66, 0x28, 0xDF,
  0x6A, 0x9D, 0xD3, 0x24, 0x4F, 0xB8, 0xF6, 0x01,
  0x20, 0xD7, 0x99, 0x6E, 0x05, 0xF2, 0xBC, 0x4B,
  0x81, 0x76, 0x38, 0xCF, 0xA4, 0x53, 0x1D, 0xEA,
  0xCB, 0x3C, 0x72, 0x85, 0xEE, 0x19, 0x57, 0xA0,
  0x15, 0xE2, 0xAC, 0x5B, 0x30, 0xC7, 0x89, 0x7E,
  0x5F, 0xA8, 0xE6, 0x11, 0x7A, 0x8D, 0xC3, 0x34,
  0xAB, 0x5C, 0x12, 0xE5, 0x8E, 0x79, 0x37, 0xC0,
  0xE1, 0x16, 0x58, 0xAF, 0xC4, 0x33, 0x7D, 0x8A,
  0x3F, 0xC8, 0x86, 0x71, 0x1A, 0xED, 0xA3, 0x54,
  0x75, 0x82, 0xCC, 0x3B, 0x50, 0xA7, 0xE9, 0x1E,
  0xD4, 0x23, 0x6D, 0x9A, 0xF1, 0x06, 0x48, 0xBF,
  0x9E, 0x69, 0x27, 0xD0, 0xBB, 0x4C, 0x02, 0xF5,
  0x40, 0xB7, 0xF9, 0x0E, 0x65, 0x92, 0xDC, 0x2B,
  0x0A, 0xFD, 0xB3, 0x44, 0x2F, 0xD8, 0x96, 0x61,
  0x55, 0xA2, 0xEC, 0x1B, 0x70, 0x87, 0xC9, 0x3E,
  0x1F, 0xE8, 0xA6, 0x51, 0x3A, 0xCD, 0x83, 0x74,
  0xC1, 0x36, 0x78, 0x8F, 0xE4, 0x13, 0x5D, 0xAA,
  0x8B, 0x7C, 0x32, 0xC5, 0xAE, 0x59, 0x17, 0xE0,
  0x2A, 0xDD, 0x93, 0x64, 0x0F, 0xF8, 0xB6, 0x41,
  0x60, 0x97, 0xD9, 0x2E, 0x45, 0xB2, 0xFC, 0x0B,
  0xBE, 0x49, 0x07, 0xF0, 0x9B, 0x6C, 0x22, 0xD5,
  0xF4, 0x03, 0x4D, 0xBA, 0xD1, 0x26, 0x68, 0x9F]

def hndcrc8 (data : Bytes) (crc : UInt8) : UInt8 :=
  data.foldl (fun crc b => crc8Table.getD (crc ^^^ b).toNat 0) crc

/-! ### Handles -/

/-- `nvram_handle_t`; the memory is that of the mapping and what lies behind it. -/
structure Handle (d : Device) where
  mem : Nat → UInt8
  offset : Nat
  table : Table Bytes d.index
  aligned : offset % 4 = 0
  space : offset + 0x8000 ≤ d.length

def sdramInit : Bytes := ascii "sdram_init".toList

def sdramConfig : Bytes := ascii "sdram_config".toList

def sdramRefresh : Bytes := ascii "sdram_refresh".toList

def sdramNcdl : Bytes := ascii "sdram_ncdl".toList

def sdramNames : List Bytes := [sdramInit, sdramConfig, sdramRefresh, sdramNcdl]

def magic : Nat := 0x48534c46

namespace Handle

variable {d : Device}

def nvramGet (h : Handle d) (name : Bytes) : Option Bytes := h.table.get name

/-- The test of `_nvram_realloc` is the only one. -/
def nvramSet (h : Handle d) (name value : Bytes) : Handle d × Int :=
  if d.length - h.offset < value.length + 1 then (h, -12)
  else ({ h with table := h.table.put name value }, 0)

def nvramUnset (h : Handle d) (name : Bytes) : Handle d :=
  { h with table := h.table.remove name }

/-! ### Reading the partition -/

def rehashLoop : Nat → Nat → Handle d → Option (Handle d)
  | 0, _, _ => none
  | n + 1, i, h =>
      match Device.cstring h.mem (d.length - i) i with
      | none => none
      | some [] => some h
      | some (b :: s) =>
          let s := b :: s
          if 0x3d ∈ s then
            rehashLoop n (i + s.length + 1)
              (h.nvramSet (s.takeWhile (· ≠ 0x3d)) (s.dropWhile (· ≠ 0x3d)).tail).1
          else some h

def setDefault (h : Handle d) (name value : Bytes) : Handle d :=
  match h.nvramGet name with
  | some _ => h
  | none => (h.nvramSet name value).1

def setSdram (h : Handle d) : Handle d :=
  let crcVerInit := d.word h.mem (h.offset + 8)
  let configRefresh := d.word h.mem (h.offset + 12)
  let configNcdl := d.word h.mem (h.offset + 16)
  let h := h.setDefault sdramInit (hexText 4 (crcVerInit / 0x10000))
  let h := h.setDefault sdramConfig (hexText 4 (configRefresh % 0x10000))
  let h := h.setDefault sdramRefresh (hexText 4 (configRefresh / 0x10000))
  h.setDefault sdramNcdl (hexText 8 configNcdl)

/-- `_nvram_rehash`; `none` if it reads behind the end of the partition. -/
def nvramRehash (h : Handle d) : Option (Handle d) :=
  (rehashLoop d.length (h.offset + 20) { h with table := Table.empty }).map setSdram

/-! ### Writing it -/

/-- The words `crc_ver_init`, with no sum yet, `config_refresh` and `config_ncdl`. -/
def headerWords (h : Handle d) : Nat × Nat × Nat :=
  match h.nvramGet sdramInit, h.nvramGet sdramConfig, h.nvramGet sdramRefresh,
      h.nvramGet sdramNcdl with
  | some init, some config, some refresh, some ncdl =>
      (0x100 + strtoul init % 0x10000 * 0x10000,
        strtoul config % 0x10000 + strtoul refresh % 0x10000 * 0x10000, strtoul ncdl)
  | _, _, _, _ => (0x100 + 0x419 * 0x10000, 0 + 0x8040 * 0x10000, 0)

end Handle

def line (e : Bytes × Bytes) : Bytes := e.1 ++ 0x3d :: e.2 ++ [0]

/-- The inner loop of `nvram_commit`; it ends at the first tuple there is no room for. -/
def writeChain (stop : Nat) :
    List (Bytes × Bytes) → Nat → (Nat → UInt8) → Nat × (Nat → UInt8)
  | [], ptr, mem => (ptr, mem)
  | e :: c, ptr, mem =>
      if stop < ptr + e.1.length + 1 + e.2.length + 1 then (ptr, mem)
      else writeChain stop c (ptr + e.1.length + 1 + e.2.length + 1) (store mem ptr (line e))

def writeChains (stop : Nat) :
    List (List (Bytes × Bytes)) → Nat → (Nat → UInt8) → Nat × (Nat → UInt8)
  | [], ptr, mem => (ptr, mem)
  | c :: cs, ptr, mem =>
      match writeChain stop c ptr mem with
      | (ptr, mem) => writeChains stop cs ptr mem

/-- The bytes that `nvram_commit` pads at an address.  The address is an `int`, and so is its
    remainder. -/
def padding (addr : Nat) : Nat :=
  let rem := (if addr < 0x80000000 then (addr : Int) else addr - 0x100000000).tmod 4
  if rem ≠ 0 then (4 - rem).toNat else 0

namespace Handle

variable {d : Device}

def image (h : Handle d) : Nat → UInt8 :=
  let header := h.offset
  let crcVerInit := h.headerWords.1
  let configRefresh := h.headerWords.2.1
  let configNcdl := h.headerWords.2.2
  let mem := store h.mem header (d.bytes magic)
  let mem := store mem (header + 8) (d.bytes crcVerInit)
  let mem := store mem (header + 12) (d.bytes configRefresh)
  let mem := store mem (header + 16) (d.bytes configNcdl)
  let mem := fill mem (header + 20) (d.length - header - 20) 0xff
  match writeChains (d.length - 2) h.table.chains (header + 20) mem with
  | (ptr, mem) =>
      let mem := store mem ptr [0]
      let mem := fill mem (ptr + 1) (padding (d.base + (ptr + 1))) 0
      let len := (ptr + 2 - header + 3) / 4 * 4
      let mem := store mem (header + 4) (d.bytes len)
      let tmp := d.bytes 0 ++ d.bytes 0 ++ d.bytes crcVerInit ++ d.bytes configRefresh ++
        d.bytes configNcdl
      let crc := hndcrc8 (tmp.drop 9) 0xff
      let crc := hndcrc8 (load mem (header + 20) (len - 20)) crc
      store mem (header + 8) (d.bytes (crcVerInit + crc.toNat))

def nvramCommit (h : Handle d) : Option (Handle d × Int) :=
  (nvramRehash { h with mem := h.image }).map fun h => (h, 0)

def storedCrc (h : Handle d) : Nat := d.word h.mem (h.offset + 8) % 0x100

/-- The sum as `do_info` computes it: over the header from byte 9 and the data. -/
def calculatedCrc (h : Handle d) : UInt8 :=
  hndcrc8 (load h.mem (h.offset + 9) (d.word h.mem (h.offset + 4) - 9)) 0xff

end Handle

/-! ### Opening it -/

def Device.findHeader (d : Device) (mem : Nat → UInt8) : Option Nat :=
  ((range ((d.length - 0x8000) / 4 + 1)).find? fun i => d.word mem (i * 4) = magic).map (· * 4)

theorem Device.findHeader_bounds {d : Device} {mem : Nat → UInt8} {o : Nat}
    (h : d.findHeader mem = some o) : o % 4 = 0 ∧ o + 0x8000 ≤ d.length := by
  obtain ⟨i, hi, rfl⟩ := Option.map_eq_some_iff.mp h
  have hlt := mem_range.mp (mem_of_find?_eq_some hi)
  have hmin := d.minSpace
  omega

def nvramOpen (d : Device) (mem : Nat → UInt8) (rdonly : Bool) : Option (Handle d) := do
  let ⟨offset, hfind⟩ ← (d.findHeader mem).attach
  if rdonly || d.word mem (offset + 4) < d.length - offset then
    Handle.nvramRehash
      { mem := mem
        offset := offset
        table := Table.empty
        aligned := (Device.findHeader_bounds hfind).1
        space := (Device.findHeader_bounds hfind).2 }
  else none

end Rooter.Nvram
