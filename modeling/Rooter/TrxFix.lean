import Rooter.BlockRewrite
import Rooter.ByteOrder
import Rooter.Crc32
import Rooter.Loop

/-!
# Repairing a TRX header

Model of `mtd_fixtrx` in `trx.c`.  A TRX header has a magic number, the length of the image with
the header, a checksum and sixteen more bytes that the checksum covers.  The data are gathered
from the good blocks, because the boot loader skips the bad ones, in pieces that end at the ends
of the blocks.  When length and checksum are not those of the data, the block of the header is
rewritten with them.

Offsets and sizes are of type `size_t`; `w` is its number of bits.  `heap` is what the memory of
the buffer for the block and behind it holds before.  An allocation of half the address space
fails, others succeed.

The erase size enters through `erasesize - 1` as a mask.  When it is a power of two the header is
right behind a run that succeeds, and a second run has nothing to do.
-/

namespace Rooter.Trx

open List Flash Memory ByteOrder Loop

def trxCrc32DataOffset : Nat := 12

def trxCrc32DataSize : Nat := 16

def crc32buf (data : List UInt8) : BitVec 32 := Crc32.crc 0xffffffff#32 data

/-! ### Gathering the data -/

/-- The variables of the loop; `buf` is what `to` has passed. -/
structure Gatherer where
  dataOffset : Nat
  dataSize : Nat
  buf : List UInt8

namespace Gatherer

def step (w : Nat) (d : Device) (s : Gatherer) : Next Gatherer (Option (List UInt8)) :=
  if s.dataSize = 0 then .leave (some s.buf)
  else
    let readChunk := min (d.erasesize - (s.dataOffset &&& (d.erasesize - 1))) s.dataSize
    let dataOffset := (s.dataOffset + readChunk) % 2 ^ w
    match d.isBad (blockOffset d.erasesize s.dataOffset) with
    | none => .leave none
    | some true => .again ⟨dataOffset, s.dataSize - readChunk, s.buf⟩
    | some false =>
        if s.dataOffset + readChunk ≤ d.size then
          .again ⟨dataOffset, s.dataSize - readChunk,
            s.buf ++ load d.mem s.dataOffset readChunk⟩
        else .leave none

end Gatherer

def gather (w : Nat) (d : Device) (dataOffset dataSize : Nat) : Option (List UInt8) :=
  (loop (Gatherer.step w d) (dataSize + 1) ⟨dataOffset, dataSize, []⟩).join

/-! ### The repair -/

/-- The size of the data; none given means the rest of the first block. -/
def dataLength (w erasesize dataSize : Nat) : Nat :=
  if dataSize = 0 then (erasesize + 2 ^ w - trxCrc32DataOffset) % 2 ^ w
  else (dataSize + trxCrc32DataSize) % 2 ^ w

/-- The fields `len` and `crc32` for the data. -/
def lenWord (buf : List UInt8) : List UInt8 :=
  littleBytes 4 (buf.length + trxCrc32DataOffset)

def crcWord (buf : List UInt8) : List UInt8 := littleBytes 4 (crc32buf buf).toNat

/-- The fields are compared with the data in `buf` and changed. -/
def update (d : Device) (start offset : Nat) (block : Nat → UInt8) (buf : List UInt8) : Fix :=
  if load block (offset + 4) 4 = lenWord buf ∧ load block (offset + 8) 4 = crcWord buf then .kept
  else
    rewriteBlock d start
      (load (store block (offset + 4) (lenWord buf ++ crcWord buf)) 0 d.erasesize)

def mtdFixtrx (w optTrxmagic : Nat) (heap : Nat → UInt8) (d : Device) (offset dataSize : Nat) :
    Fix :=
  let dataOffset := (offset + trxCrc32DataOffset) % 2 ^ w
  let dataSize := dataLength w d.erasesize dataSize
  let start := blockOffset d.erasesize offset
  let offset := offset - start
  if d.size < (dataOffset + dataSize) % 2 ^ w then .exit d
  else if d.size < start + d.erasesize then .exit d
  else
    let block := store heap 0 (load d.mem start d.erasesize)
    if value true (load block offset 4) ≠ optTrxmagic then .exit d
    else if 2 ^ (w - 1) ≤ dataSize then .exit d
    else
      match gather w d dataOffset dataSize with
      | none => .exit d
      | some buf => update d start offset block buf

/-! ### What the header should be -/

/-- The addresses in good blocks among those from `o` on, `n` of them. -/
def goodAddrs (d : Device) (o n : Nat) : List Nat :=
  (range' o n).filter fun a => !d.bad (a / d.erasesize)

def goodBytes (d : Device) (o n : Nat) : List UInt8 := (goodAddrs d o n).map d.mem

def storedLen (d : Device) (offset : Nat) : Nat := value false (load d.mem (offset + 4) 4)

def storedCrc (d : Device) (offset : Nat) : Nat := value false (load d.mem (offset + 8) 4)

/-- As many bytes of the good blocks behind the fields as the length says have the checksum. -/
def HeaderRight (d : Device) (offset : Nat) : Prop :=
  let start := offset + trxCrc32DataOffset
  let data := goodBytes d start (d.size - start)
  ∃ n ≤ data.length, storedLen d offset = n + trxCrc32DataOffset ∧
    storedCrc d offset = (crc32buf (data.take n)).toNat

/-! ### The loop -/

section Gather

variable {w k : Nat} {d : Device}

theorem goodBytes_add (d : Device) (o m n : Nat) :
    goodBytes d o (m + n) = goodBytes d o m ++ goodBytes d (o + m) n := by
  unfold goodBytes goodAddrs
  rw [← range'_append_1, filter_append, map_append]

theorem length_goodBytes_le (d : Device) (o n : Nat) : (goodBytes d o n).length ≤ n := by
  have hle := length_filter_le (fun a => !d.bad (a / d.erasesize)) (range' o n)
  rw [length_range'] at hle
  rwa [goodBytes, length_map]

theorem load_eq_map (mem : Nat → UInt8) (o n : Nat) : load mem o n = (range' o n).map mem := by
  induction n generalizing o with
  | zero => rfl
  | succ n ih => rw [load, ih, range'_succ, map_cons]

theorem goodBytes_piece {o n : Nat} (hn : o % d.erasesize + n ≤ d.erasesize) :
    goodBytes d o n = if d.bad (o / d.erasesize) then [] else load d.mem o n := by
  have hblock : ∀ a ∈ range' o n, a / d.erasesize = o / d.erasesize := by
    intro a ha
    rw [mem_range'_1] at ha
    have hmod := Nat.div_add_mod o d.erasesize
    rw [show a = d.erasesize * (o / d.erasesize) + (o % d.erasesize + a - o) by omega]
    exact d.div_block (by omega)
  unfold goodBytes goodAddrs
  cases hbad : d.bad (o / d.erasesize) with
  | true =>
    rw [if_pos rfl, filter_eq_nil_iff.mpr, map_nil]
    intro a ha
    rw [hblock a ha, hbad]
    decide
  | false =>
    rw [if_neg Bool.false_ne_true, load_eq_map, filter_eq_self.mpr]
    intro a ha
    rw [hblock a ha, hbad]
    rfl

variable (hE : d.erasesize = 2 ^ k) (hsize : d.size < 2 ^ w)

include hE hsize

theorem step_piece {o n : Nat} (hn : 0 < n) (hin : o + n ≤ d.size) (buf : List UInt8) :
    ∃ m, 0 < m ∧ m ≤ n ∧ Gatherer.step w d ⟨o, n, buf⟩
      = .again ⟨o + m, n - m, buf ++ goodBytes d o m⟩ := by
  have hmod : o &&& d.erasesize - 1 = o % d.erasesize := by
    rw [hE, Nat.and_two_pow_sub_one_eq_mod]
  have hlt := Nat.mod_lt o d.erasesize_pos
  have hdiv := Nat.div_add_mod o d.erasesize
  have hstart : blockOffset d.erasesize o = d.erasesize * (o / d.erasesize) := by
    rw [hE, blockOffset_two_pow, ← hE]
    omega
  have hbad : d.isBad (blockOffset d.erasesize o) = some (d.bad (o / d.erasesize)) := by
    rw [hstart, Device.isBad_of_lt (by omega), Nat.mul_div_cancel_left _ d.erasesize_pos]
  refine ⟨min (d.erasesize - o % d.erasesize) n, by omega, Nat.min_le_right _ _, ?_⟩
  have hpiece := goodBytes_piece (d := d) (o := o)
    (n := min (d.erasesize - o % d.erasesize) n) (by omega)
  rw [hpiece]
  unfold Gatherer.step
  dsimp only
  rw [if_neg (by omega), hmod, hbad, Nat.mod_eq_of_lt (by omega)]
  cases d.bad (o / d.erasesize) with
  | true => rw [if_pos rfl, append_nil]
  | false =>
    exact if_pos (by omega)

theorem loop_gather (fuel : Nat) :
    ∀ o n buf, n < fuel → o + n ≤ d.size →
      loop (Gatherer.step w d) fuel ⟨o, n, buf⟩ = some (some (buf ++ goodBytes d o n)) := by
  induction fuel with
  | zero => intro o n buf hn; omega
  | succ fuel ih =>
    intro o n buf hn hin
    rcases Nat.eq_zero_or_pos n with rfl | hpos
    · have hleave : Gatherer.step w d ⟨o, 0, buf⟩ = .leave (some buf) := if_pos rfl
      rw [loop_leave hleave, show goodBytes d o 0 = [] from rfl, append_nil]
    · obtain ⟨m, hm, hle, hstep⟩ := step_piece hE hsize hpos hin buf
      rw [loop_again hstep, ih _ _ _ (by omega) (by omega), append_assoc, ← goodBytes_add,
        Nat.add_sub_cancel' hle]

theorem gather_eq {o n : Nat} (hin : o + n ≤ d.size) : gather w d o n = some (goodBytes d o n) := by
  rw [gather, loop_gather hE hsize _ _ _ _ (by omega) hin]
  rfl

end Gather

/-! ### The header behind a run -/

def succeeded (d : Device) : Fix → Option Device
  | .exit _ => none
  | .kept => some d
  | .rewritten d' => some d'

section Fix

variable {w k magic offset dataSize : Nat} {heap : Nat → UInt8} {d d' : Device}

structure InBlock (d : Device) (offset : Nat) : Prop where
  header : offset % d.erasesize + 28 ≤ d.erasesize
  block : offset - offset % d.erasesize + d.erasesize ≤ d.size

theorem InBlock.of_alike (h : InBlock d offset) (halike : d.Alike d') : InBlock d' offset := by
  constructor
  · rw [halike.erasesize]
    exact h.header
  · rw [halike.erasesize, halike.size]
    exact h.block

theorem load_header (h : InBlock d offset) (heap : Nat → UInt8) {i n : Nat} (hin : i + n ≤ 28) :
    load (store heap 0 (load d.mem (offset - offset % d.erasesize) d.erasesize))
      (offset % d.erasesize + i) n = load d.mem (offset + i) n := by
  have hle := Nat.mod_le offset d.erasesize
  have hheader := h.header
  rw [load_copy _ _ (by omega)]
  congr 1
  omega

theorem load_magic (h : InBlock d offset) (heap : Nat → UInt8) :
    load (store heap 0 (load d.mem (offset - offset % d.erasesize) d.erasesize))
      (offset % d.erasesize) 4 = load d.mem offset 4 :=
  load_header (i := 0) h heap (by omega)

/-- The run reads data that are on the device behind a header with the magic number. -/
structure Repairable (w magic : Nat) (d : Device) (offset dataSize : Nat) : Prop where
  data : offset + trxCrc32DataOffset + dataLength w d.erasesize dataSize ≤ d.size
  magic : value true (load d.mem offset 4) = magic

def gathered (w : Nat) (d : Device) (offset dataSize : Nat) : List UInt8 :=
  goodBytes d (offset + trxCrc32DataOffset) (dataLength w d.erasesize dataSize)

theorem mtdFixtrx_of_repairable (hE : d.erasesize = 2 ^ k) (hw : 32 ≤ w) (h : InBlock d offset)
    (hr : Repairable w magic d offset dataSize) (heap : Nat → UInt8) :
    mtdFixtrx w magic heap d offset dataSize =
      update d (offset - offset % d.erasesize) (offset % d.erasesize)
        (store heap 0 (load d.mem (offset - offset % d.erasesize) d.erasesize))
        (gathered w d offset dataSize) := by
  have hsize : d.size < 2 ^ 31 := d.size_lt
  have hpow : 2 ^ 31 ≤ 2 ^ (w - 1) := Nat.pow_le_pow_right (by decide) (by omega)
  have hpow' : 2 ^ (w - 1) ≤ 2 ^ w := Nat.pow_le_pow_right (by decide) (by omega)
  have hle := Nat.mod_le offset d.erasesize
  have hstart : blockOffset d.erasesize offset = offset - offset % d.erasesize := by
    rw [hE, blockOffset_two_pow]
  have hdata := hr.data
  have hblock := h.block
  unfold mtdFixtrx
  dsimp only
  rw [hstart, Nat.sub_sub_self hle, Nat.mod_eq_of_lt (a := offset + _) (by omega),
    Nat.mod_eq_of_lt (by omega), if_neg (by omega), if_neg (by omega), load_magic h heap,
    if_neg (not_not.mpr hr.magic), if_neg (by omega), gather_eq hE (by omega) hdata]
  rfl

theorem of_succeeded (hE : d.erasesize = 2 ^ k) (hw : 32 ≤ w)
    (hheader : offset % d.erasesize + 28 ≤ d.erasesize)
    (h : succeeded d (mtdFixtrx w magic heap d offset dataSize) = some d') :
    InBlock d offset ∧ Repairable w magic d offset dataSize := by
  have hsize : d.size < 2 ^ 31 := d.size_lt
  have hpow : 2 ^ 31 ≤ 2 ^ (w - 1) := Nat.pow_le_pow_right (by decide) (by omega)
  have hpow' : 2 ^ w = 2 ^ (w - 1) * 2 := by rw [← Nat.pow_succ]; congr 1; omega
  have hle := Nat.mod_le offset d.erasesize
  have hstart : blockOffset d.erasesize offset = offset - offset % d.erasesize := by
    rw [hE, blockOffset_two_pow]
  unfold mtdFixtrx at h
  dsimp only at h
  rw [hstart, Nat.sub_sub_self hle] at h
  split at h
  · cases h
  split at h
  · cases h
  split at h
  · cases h
  split at h
  · cases h
  next hfits hblock hmagic hmalloc =>
  have hin : InBlock d offset := ⟨hheader, by omega⟩
  rw [load_magic hin heap] at hmagic
  refine ⟨hin, ?_, not_not.mp hmagic⟩
  rw [Nat.mod_eq_of_lt (a := offset + _) (by unfold trxCrc32DataOffset; omega),
    Nat.mod_eq_of_lt (by unfold trxCrc32DataOffset; omega)] at hfits
  omega

theorem length_words (buf : List UInt8) : (lenWord buf ++ crcWord buf).length = 8 := by
  simp [lenWord, crcWord, length_littleBytes]

theorem of_update (h : InBlock d offset) {buf : List UInt8}
    (hfix : succeeded d (update d (offset - offset % d.erasesize) (offset % d.erasesize)
      (store heap 0 (load d.mem (offset - offset % d.erasesize) d.erasesize)) buf) = some d') :
    d.Alike d' ∧ d'.mem = store d.mem (offset + 4) (lenWord buf ++ crcWord buf) := by
  unfold update at hfix
  rw [load_header h heap (by omega), load_header h heap (by omega)] at hfix
  have hle := Nat.mod_le offset d.erasesize
  have hheader := h.header
  have hlen := length_words buf
  split at hfix
  · next heq =>
    cases hfix
    refine ⟨.refl _, ?_⟩
    rw [← heq.1, ← heq.2, ← load_add, store_load_self]
  · generalize hrew : rewriteBlock d _ _ = fix at hfix
    cases fix with
    | exit _ => cases hfix
    | kept => exact absurd hrew (rewriteBlock_ne_kept _ _ _)
    | rewritten _ =>
      cases hfix
      obtain ⟨-, halike, hmem⟩ := rewriteBlock_spec (by rw [length_load]) hrew
      refine ⟨halike, ?_⟩
      rw [hmem, store_copy _ _ (by omega)]
      congr 1
      omega

theorem load_words {mem : Nat → UInt8} {buf : List UInt8}
    (h : d'.mem = store mem (offset + 4) (lenWord buf ++ crcWord buf)) :
    load d'.mem (offset + 4) 4 = lenWord buf ∧ load d'.mem (offset + 8) 4 = crcWord buf := by
  have hself : load d'.mem (offset + 4) (4 + 4) = lenWord buf ++ crcWord buf := by
    rw [h, show 4 + 4 = (lenWord buf ++ crcWord buf).length from (length_words buf).symm,
      load_store_self]
  exact append_inj hself (by rw [length_load, lenWord, length_littleBytes])

theorem goodBytes_of_store (halike : d.Alike d') {l : List UInt8} (hlen : l.length = 8)
    (hmem : d'.mem = store d.mem (offset + 4) l) (n : Nat) :
    goodBytes d' (offset + trxCrc32DataOffset) n = goodBytes d (offset + trxCrc32DataOffset) n := by
  unfold goodBytes goodAddrs
  rw [halike.bad, halike.erasesize]
  refine map_congr_left fun a ha => ?_
  have hrange := mem_range'_1.mp (mem_of_mem_filter ha)
  unfold trxCrc32DataOffset at hrange
  rw [hmem, store_out (by omega)]

theorem headerRight_of_words (h : Repairable w magic d offset dataSize)
    (hwords : load d.mem (offset + 4) 4 = lenWord (gathered w d offset dataSize)
      ∧ load d.mem (offset + 8) 4 = crcWord (gathered w d offset dataSize)) :
    HeaderRight d offset := by
  have hsize : d.size < 2 ^ 31 := d.size_lt
  have hdata := h.data
  have hlen := length_goodBytes_le d (offset + trxCrc32DataOffset)
    (dataLength w d.erasesize dataSize)
  have hsplit := goodBytes_add d (offset + trxCrc32DataOffset)
    (dataLength w d.erasesize dataSize)
    (d.size - (offset + trxCrc32DataOffset) - dataLength w d.erasesize dataSize)
  rw [Nat.add_sub_cancel' (by omega)] at hsplit
  have hlt : (gathered w d offset dataSize).length + trxCrc32DataOffset < 256 ^ 4 := by
    unfold gathered
    omega
  have hcrc : (crc32buf (gathered w d offset dataSize)).toNat < 256 ^ 4 := BitVec.isLt _
  refine ⟨(gathered w d offset dataSize).length, ?_, ?_, ?_⟩
  · rw [hsplit, length_append]
    exact Nat.le_add_right _ _
  · rw [storedLen, hwords.1]
    exact value_bytes false hlt
  · rw [storedCrc, hwords.2, hsplit]
    dsimp only [gathered]
    rw [take_left]
    exact value_bytes false hcrc

/-- Behind a run that succeeds the header is right, nothing but its length and its checksum has
    changed, and another run has nothing to do. -/
theorem mtdFixtrx_exact (hE : d.erasesize = 2 ^ k) (hw : 32 ≤ w)
    (hheader : offset % d.erasesize + 28 ≤ d.erasesize)
    (h : succeeded d (mtdFixtrx w magic heap d offset dataSize) = some d') :
    HeaderRight d' offset ∧
      (∀ a, a < offset + 4 ∨ offset + 12 ≤ a → d'.mem a = d.mem a) ∧
      ∀ heap', mtdFixtrx w magic heap' d' offset dataSize = .kept := by
  obtain ⟨hin, hr⟩ := of_succeeded hE hw hheader h
  rw [mtdFixtrx_of_repairable hE hw hin hr] at h
  obtain ⟨halike, hmem⟩ := of_update hin h
  have hlen := length_words (gathered w d offset dataSize)
  have hgathered : gathered w d' offset dataSize = gathered w d offset dataSize := by
    unfold gathered
    rw [goodBytes_of_store halike hlen hmem, halike.erasesize]
  have hwords := load_words hmem
  rw [← hgathered] at hwords
  have hr' : Repairable w magic d' offset dataSize := by
    constructor
    · rw [halike.erasesize, halike.size]
      exact hr.data
    · rw [hmem, load_store_out (by omega)]
      exact hr.magic
  refine ⟨headerRight_of_words hr' hwords, fun a ha => ?_, fun heap' => ?_⟩
  · rw [hmem, store_out (by omega)]
  · have hin' := hin.of_alike halike
    rw [mtdFixtrx_of_repairable (by rw [halike.erasesize, hE]) hw hin' hr', update,
      load_header hin' heap' (by omega), load_header hin' heap' (by omega), if_pos hwords]

/-- A NAND device of two blocks with a header in front; the second block is bad. -/
def headerDevice (erasesize : Fin 64) (hpos : 0 < erasesize.val) : Device where
  erasesize := erasesize
  blocks := 2
  nand := true
  bad k := decide (k = 1)
  pastFails := false
  eraseFails _ := false
  writeFails _ := false
  mem a := [0x48, 0x44, 0x52, 0x30].getD a 0
  erasesize_pos := hpos
  size_lt := by omega
  bad_spec k h := ⟨rfl, by rw [of_decide_eq_true h]; decide⟩

/-- The magic number `HDR0`. -/
def trxMagic : Nat := 0x48445230

theorem mtdFixtrx_exact_header :
    ∃ d', succeeded (headerDevice 32 (by decide))
        (mtdFixtrx 32 trxMagic (fun _ => 0) (headerDevice 32 (by decide)) 0 30) = some d' ∧
      HeaderRight d' 0 ∧
      (∀ a, a < 0 + 4 ∨ 0 + 12 ≤ a → d'.mem a = (headerDevice 32 (by decide)).mem a) ∧
      ∀ heap', mtdFixtrx 32 trxMagic heap' d' 0 30 = .kept := by
  have hsome : (succeeded (headerDevice 32 (by decide))
      (mtdFixtrx 32 trxMagic (fun _ => 0) (headerDevice 32 (by decide)) 0 30)).isSome := by
    decide +kernel
  obtain ⟨d', hd'⟩ := Option.isSome_iff_exists.mp hsome
  exact ⟨d', hd', mtdFixtrx_exact (k := 5) rfl (by decide) (by decide) hd'⟩

/-- With an erase size of 48 the mask takes the piece from 48 on for one of the first block: the
    bytes of the bad block are counted. -/
theorem not_exact_header :
    (headerDevice 48 (by decide)).bad (0 / 48) = false ∧ 0 % 48 + 28 ≤ 48 ∧
    ∃ d', succeeded (headerDevice 48 (by decide))
        (mtdFixtrx 32 trxMagic (fun _ => 0) (headerDevice 48 (by decide)) 0 40) = some d' ∧
      ¬ HeaderRight d' 0 := by
  refine ⟨by decide, by decide, ?_⟩
  have hstored : (succeeded (headerDevice 48 (by decide))
      (mtdFixtrx 32 trxMagic (fun _ => 0) (headerDevice 48 (by decide)) 0 40)).map
        (fun d' => (storedLen d' 0, (goodBytes d' 12 (d'.size - 12)).length)) = some (64, 36) := by
    decide +kernel
  obtain ⟨d', hd', hvalues⟩ := Option.map_eq_some_iff.mp hstored
  refine ⟨d', hd', ?_⟩
  rintro ⟨n, hle, hlen, -⟩
  obtain ⟨hfst, hsnd⟩ := Prod.mk.inj hvalues
  unfold trxCrc32DataOffset at hle hlen
  rw [hsnd] at hle
  omega

end Fix

end Rooter.Trx
