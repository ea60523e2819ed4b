import Rooter.Execution
import Mathlib.Logic.Function.Basic

/-!
# The bad block table of the flash driver

Model of the block mapping of version 2 in `mtk_bmt_v2.c`.

The table `bb_tbl` maps logical to physical blocks.  Behind the blocks that are mapped at
the start lies a pool of spare ones, listed in `bmt_tbl`.  A logical block whose physical
block went bad is mapped to the first free slot of the pool.  The table itself is stored in
the block of slot `bmt_blk_idx`, at first the last one, or else in the one before it.

Both tables lie in one buffer of 16 bit words, `bmt_tbl` from word `table_size` on.  What
else is in the flash is of any type.  Erasing, reading and writing may fail at any time; the
results to come are part of the state.  Block numbers are below `total_blks`, of 16 bits, so
that the arithmetic on them does not wrap.
-/

namespace Rooter.Bmt

/-- The part of `struct bmt_desc` that stays.  `bad` tells whether the first page of a block
    cannot be read or carries a bad block mark, `pages` is `blk_size >> pg_shift`. -/
structure Chip where
  tableSize : Nat
  totalBlks : Nat
  poolLba : Nat
  bbMax : Nat
  pgSize : Nat
  pages : Nat
  bmtPgs : Nat
  bad : Nat → Bool
  totalBlks_lt : totalBlks < 0x10000

/-- The buffer from `bb_tbl` on. -/
abbrev Words := Nat → Nat

def noMapped : Nat := 0

def normalMapped : Nat := 1

def bmtMapped : Nat := 2

namespace Chip

def blockAt (c : Chip) (i : Nat) : Nat := c.tableSize + 2 * i

def mappedAt (c : Chip) (i : Nat) : Nat := c.tableSize + 2 * i + 1

/-- The part of `mtk_bmt_init_v2` that fills in `bmtd`; `none` is its refusal of a chip with
    too many blocks.  `pool_lba` is cut to 16 bits. -/
def initV2 (c : Chip) (poolSize : Nat) : Option Chip :=
  if c.tableSize + c.tableSize * 2 / 100 < c.totalBlks then none
  else
    let pmtBlock := (c.totalBlks + 0x10000 - poolSize % 0x10000 + 0x10000 - 2) % 0x10000
    some { c with
      poolLba := (pmtBlock + 2) % 0x10000
      bbMax := c.totalBlks * 2 / 100
      bmtPgs := (4 + c.tableSize * 4 + c.pgSize - 1) / c.pgSize }

end Chip

/-! ### Scanning -/

section Scan

variable (c : Chip)

/-- The loop of `find_valid_block`; the number in front is `bb_max - loop`. -/
def findValidBlockLoop : Nat → Nat → Nat
  | left, block =>
      if c.totalBlks ≤ block then 0
      else if c.bad block then
        match left with
        | 0 => 0
        | left + 1 => findValidBlockLoop left (block + 1)
      else block

def findValidBlock (block : Nat) : Nat := findValidBlockLoop c c.bbMax block

/-- The first loop of `scan_bad_blocks`, with `n` entries of `bb_tbl` to go. -/
def scanArea : Nat → Nat → Words → Option Words
  | 0, _, w => some w
  | n + 1, i, w =>
      let block := findValidBlock c (w (i - 1) + 1)
      if block = 0 then none else scanArea n (i + 1) (Function.update w i block)

/-- The second loop; it returns the number of blocks in the pool too. -/
def scanPool : Nat → Nat → Nat → Words → Words × Nat
  | 0, i, _, w => (w, i)
  | fuel + 1, i, block, w =>
      let block := findValidBlock c block
      if block = 0 then (w, i)
      else
        scanPool fuel (i + 1) (block + 1)
          (Function.update (Function.update w (c.blockAt i) block) (c.mappedAt i) noMapped)

/-- `struct bbbt` and `bmt_blk_idx`. -/
structure Table where
  words : Words
  bmtBlkIdx : Nat

def Table.block (t : Table) (i : Nat) : Nat := t.words (c.blockAt i)

def Table.mapped (t : Table) (i : Nat) : Nat := t.words (c.mappedAt i)

def scanBadBlocks (buf : Words) : Option Table := do
  let w ← scanArea c (c.poolLba - 1) 1 (Function.update buf 0 0)
  let poolPba := w (c.poolLba - 1) + 1
  if c.totalBlks - 2 ≤ poolPba then none
  else
    match scanPool c c.totalBlks 0 poolPba w with
    | (_, 0) => none
    | (w, n + 1) => some ⟨Function.update w (c.mappedAt n) bmtMapped, n⟩

end Scan

/-! ### The flash -/

section Flash

variable {Page : Type}

/-- The tables, the pages of the flash, and the results to come of the operations on it.
    `none` is a success; a failure leaves anything in the pages the operation was about. -/
structure State (Page : Type) where
  table : Table
  flash : Nat → Page
  results : List (Option (Nat → Page))

namespace State

/-- An operation on `count` pages from `first` on; it leaves `pages` there if it succeeds. -/
def operate (s : State Page) (first count : Nat) (pages : Nat → Page) : State Page × Bool :=
  let put (pages : Nat → Page) : Nat → Page :=
    fun p => if first ≤ p ∧ p < first + count then pages p else s.flash p
  match s.results with
  | some left :: results => ({ s with flash := put left, results := results }, false)
  | _ => ({ s with flash := put pages, results := s.results.tail }, true)

variable (blank : Page) (encode : Words → Nat → Page) (c : Chip)

def bbtNandErase (s : State Page) (block : Nat) : State Page × Bool :=
  s.operate (block * c.pages) c.pages fun _ => blank

/-- `write_bmt`; page `i` of the buffer is `encode` of its words. -/
def writeBmt (s : State Page) (block : Nat) : State Page × Bool :=
  s.operate (block * c.pages) c.bmtPgs fun p => encode s.table.words (p - block * c.pages)

/-- `bbt_nand_copy` from page `i` on, with `n` pages to go.  A page that cannot be read or
    written ends it, and `remap_block_v2` does not look at the result. -/
def bbtNandCopy (destBlk srcBlk maxOffset : Nat) : Nat → Nat → State Page → State Page
  | 0, _, s => s
  | n + 1, i, s =>
      if maxOffset ≤ i * c.pgSize then s
      else
        match s.results with
        | some _ :: results => { s with results := results }
        | _ =>
            let page := s.flash (srcBlk * c.pages + i)
            match { s with results := s.results.tail }.operate (destBlk * c.pages + i) 1
                fun _ => page with
            | (s, false) => s
            | (s, true) => bbtNandCopy destBlk srcBlk maxOffset n (i + 1) s

def setWord (s : State Page) (i v : Nat) : State Page :=
  { s with table.words := Function.update s.table.words i v }

/-! ### The tables at run time -/

/-- `upload_bmt`; the number in front is `n + 1`.  `none` is the report of a failure. -/
def uploadBmt : Nat → State Page → State Page × Option Nat
  | 0, s => (s, none)
  | n + 1, s =>
      if s.table.mapped c n = normalMapped then (s, none)
      else
        let block := s.table.block c n
        match s.bbtNandErase blank c block with
        | (s, false) => uploadBmt n (s.setWord (c.blockAt n) 0)
        | (s, true) =>
            match s.writeBmt encode c block with
            | (s, false) => uploadBmt n (s.setWord (c.blockAt n) 0)
            | (s, true) => (s, some n)

/-- The assignment of `upload_bmt(bbt, bmtd.bmt_blk_idx)` to `bmtd.bmt_blk_idx`. -/
def upload (s : State Page) : State Page :=
  match s.uploadBmt blank encode c (s.table.bmtBlkIdx + 1) with
  | (s, n) => { s with table.bmtBlkIdx := n.getD 0xffff }

/-- `find_valid_block_in_pool`; zero when the pool is run out. -/
def findValidBlockInPool (s : State Page) : State Page × Nat :=
  match (List.range s.table.bmtBlkIdx).find? fun i =>
      s.table.block c i ≠ 0 ∧ s.table.mapped c i = noMapped with
  | none => (s, 0)
  | some i =>
      let s := s.setWord (c.mappedAt i) normalMapped
      (s, s.table.block c i)

/-- What `remap_block_v2` does with the block it found, before it stores the table. -/
def occupy (s : State Page) (block mappedBlock copyLen newBlock : Nat) : State Page :=
  let s := s.setWord block newBlock
  let s := (s.bbtNandErase blank c newBlock).1
  if 0 < copyLen then bbtNandCopy c newBlock mappedBlock copyLen c.pages 0 s else s

def remapBlockV2 (s : State Page) (block mappedBlock copyLen : Nat) : State Page × Bool :=
  match s.findValidBlockInPool c with
  | (s, newBlock) =>
      if newBlock = 0 then (s, false)
      else ((s.occupy blank c block mappedBlock copyLen newBlock).upload blank encode c, true)

/-- `get_mapping_block_index_v2`; `inRange` tells the blocks of `mediatek,bmt-remap-range`. -/
def getMappingBlockIndexV2 (inRange : Nat → Bool) (s : State Page) (block : Nat) : Nat :=
  if c.poolLba ≤ block then block
  else if inRange block then s.table.words block
  else block

end State

end Flash

end Rooter.Bmt
