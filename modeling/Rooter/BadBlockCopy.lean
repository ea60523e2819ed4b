import Mathlib.Algebra.Group.Nat.Defs
import Rooter.Memory

/-!
# Copying a block

Model of `bbt_nand_copy` in `mtk_bmt.c` on pages that have data and out-of-band bytes.

A page is read into two buffers and written from them.  The descriptor of the write is set up
anew in each round, with `ooblen` zero; the length that was read is put into it after the
write, when the round is over.  So the out-of-band bytes of the destination stay what they
were, and the copy keeps those of the source only if both blocks have the same.

A write clears bits, as programming a page does.
-/

namespace Rooter.Bmt

open List Memory

/-! ### Pages -/

/-- The sizes in `struct bmt_desc`, and `oobsize` of the device.  The pages of a block do not
    reach into the next one. -/
structure Geometry where
  blkSize : Nat
  blkShift : Nat
  pgSize : Nat
  pgShift : Nat
  oobsize : Nat
  pgSize_pos : 0 < pgSize
  fits : (blkSize >>> pgShift) * pgSize ≤ 2 ^ blkShift

namespace Geometry

variable (g : Geometry)

def pages : Nat := g.blkSize >>> g.pgShift

def address (blk i : Nat) : Nat := blk * 2 ^ g.blkShift + i * g.pgSize

end Geometry

/-- The data by their address, the out-of-band bytes by page and place. -/
structure Nand where
  data : Nat → UInt8
  oob : Nat → Nat → UInt8

/-- The lengths in `struct mtd_oob_ops`. -/
structure OobOps where
  len : Nat
  ooblen : Nat

/-- `data_buf`, `oob` and `offset`, with the flash. -/
structure CopyState where
  nand : Nand
  dataBuf : List UInt8
  oob : List UInt8
  offset : Nat

/-- What the operations of a round do.  A read gives the numbers of bytes it delivers, or
    `none` for an error that is not a corrected bit; a write that fails leaves any flash. -/
structure Round where
  read : Option (Nat × Nat)
  write : Option Nand

namespace CopyState

variable (g : Geometry)

def readOob (s : CopyState) (ops : OobOps) (src retlen oobretlen : Nat) : CopyState :=
  { s with
    dataBuf := load s.nand.data src (min retlen ops.len) ++ s.dataBuf.drop (min retlen ops.len)
    oob := load (s.nand.oob (src / g.pgSize)) 0 (min oobretlen ops.ooblen) ++
      s.oob.drop (min oobretlen ops.ooblen) }

def writeOob (s : CopyState) (ops : OobOps) (dest : Nat) : CopyState :=
  let page := dest / g.pgSize
  { s with
    nand :=
      { data := program s.nand.data dest (s.dataBuf.take ops.len)
        oob := Function.update s.nand.oob page
          (program (s.nand.oob page) 0 (s.oob.take ops.ooblen)) } }

end CopyState

section Copy

variable (g : Geometry) (rounds : Nat → Round) (dest src maxOffset : Nat)

def rdOps : OobOps := ⟨g.pgSize, min (g.oobsize / g.pages) 64⟩

/-- `wr_ops` at the time of the write. -/
def wrOps : OobOps := ⟨g.pgSize, 0⟩

def copyPage (retlen oobretlen : Nat) (s : CopyState) : CopyState :=
  let s := s.readOob g (rdOps g) (src + s.offset) retlen oobretlen
  let s := s.writeOob g (wrOps g) (dest + s.offset)
  { s with offset := s.offset + min retlen (rdOps g).len }

/-- The loop of `bbt_nand_copy` from page `i` on, with `n` pages to go; `src` and `dest` are
    addresses. -/
def copyLoop : Nat → Nat → CopyState → Nand × Bool
  | 0, _, s => (s.nand, true)
  | n + 1, i, s =>
      if maxOffset ≤ s.offset then (s.nand, true)
      else
        match (rounds i).read with
        | none => (s.nand, false)
        | some (retlen, oobretlen) =>
            if min retlen (rdOps g).len = 0 then (s.nand, true)
            else
              match (rounds i).write with
              | some left => (left, false)
              | none => copyLoop n (i + 1) (copyPage g dest src retlen oobretlen s)

/-- `bbt_nand_copy`, on any content of the buffers; `true` is the result zero. -/
def bbtNandCopyOob (nand : Nand) (dataBuf oob : List UInt8) : Nand × Bool :=
  copyLoop g rounds (g.address dest 0) (g.address src 0) maxOffset g.pages 0
    ⟨nand, dataBuf, oob, 0⟩

/-- The number of out-of-band bytes that round `i` reads. -/
def oobRead (i : Nat) : Nat :=
  match (rounds i).read with
  | none => 0
  | some (_, oobretlen) => min oobretlen (rdOps g).ooblen

/-- Page `i` of the destination has what was read from page `i` of the source. -/
structure PageCopied (before after : Nand) (i : Nat) : Prop where
  data : load after.data (g.address dest i) g.pgSize = load before.data (g.address src i) g.pgSize
  oob : load (after.oob (g.address dest i / g.pgSize)) 0 (oobRead g rounds i) =
    load (before.oob (g.address src i / g.pgSize)) 0 (oobRead g rounds i)

end Copy

/-! ### The loop -/

namespace Geometry

variable {g : Geometry}

theorem address_add (g : Geometry) (blk i : Nat) :
    g.address blk 0 + i * g.pgSize = g.address blk i := by
  simp [address]

theorem address_apart (b b' : Nat) {i j : Nat} (hi : i < g.pages) (hj : j < g.pages)
    (hne : b ≠ b' ∨ i ≠ j) :
    g.address b i + g.pgSize ≤ g.address b' j ∨ g.address b' j + g.pgSize ≤ g.address b i := by
  have hwithin : ∀ c c' k l, k < g.pages → c < c' → g.address c k + g.pgSize ≤ g.address c' l := by
    intro c c' k l hk hlt
    have hend : (k + 1) * g.pgSize ≤ 2 ^ g.blkShift :=
      Nat.le_trans (Nat.mul_le_mul_right _ hk) g.fits
    have hnext : (c + 1) * 2 ^ g.blkShift ≤ c' * 2 ^ g.blkShift := Nat.mul_le_mul_right _ hlt
    rw [Nat.succ_mul] at hend hnext
    unfold address
    omega
  have hbelow : ∀ k l, k < l → g.address b k + g.pgSize ≤ g.address b l := by
    intro k l hlt
    have hnext : (k + 1) * g.pgSize ≤ l * g.pgSize := Nat.mul_le_mul_right _ hlt
    rw [Nat.succ_mul] at hnext
    unfold address
    omega
  rcases Nat.lt_trichotomy b b' with hlt | rfl | hlt
  · exact .inl (hwithin b b' i j hi hlt)
  · rcases Nat.lt_or_gt_of_ne (hne.resolve_left fun h => h rfl) with hlt | hlt
    · exact .inl (hbelow i j hlt)
    · exact .inr (hbelow j i hlt)
  · exact .inr (hwithin b' b j i hj hlt)

end Geometry

section Loop

variable {g : Geometry} {rounds : Nat → Round} {dest src maxOffset : Nat}

theorem copyLoop_succ {n i : Nat} {s : CopyState}
    (hok : (copyLoop g rounds dest src maxOffset (n + 1) i s).2 = true) :
    ((copyLoop g rounds dest src maxOffset (n + 1) i s).1 = s.nand ∧
      (s.offset < maxOffset → ∃ oobretlen retlen, (rounds i).read = some (retlen, oobretlen) ∧
        min retlen g.pgSize = 0)) ∨
    ∃ retlen oobretlen, (rounds i).read = some (retlen, oobretlen) ∧
      copyLoop g rounds dest src maxOffset (n + 1) i s =
        copyLoop g rounds dest src maxOffset n (i + 1)
          (copyPage g dest src retlen oobretlen s) := by
  rw [copyLoop] at hok ⊢
  by_cases hlt : maxOffset ≤ s.offset
  · rw [if_pos hlt]
    exact .inl ⟨rfl, fun h => absurd hlt (by omega)⟩
  rw [if_neg hlt] at hok ⊢
  cases hread : (rounds i).read with
  | none =>
    rw [hread] at hok
    cases hok
  | some lengths =>
    obtain ⟨retlen, oobretlen⟩ := lengths
    rw [hread] at hok
    dsimp only at hok ⊢
    by_cases hzero : min retlen (rdOps g).len = 0
    · rw [if_pos hzero]
      exact .inl ⟨rfl, fun _ => ⟨oobretlen, retlen, rfl, hzero⟩⟩
    rw [if_neg hzero] at hok ⊢
    cases hwrite : (rounds i).write with
    | some left =>
      rw [hwrite] at hok
      cases hok
    | none => exact .inr ⟨retlen, oobretlen, rfl, rfl⟩

theorem oob_copyPage (s : CopyState) (retlen oobretlen : Nat) :
    (copyPage g dest src retlen oobretlen s).nand.oob = s.nand.oob := by
  unfold copyPage CopyState.writeOob wrOps
  dsimp only
  rw [take_zero, program_nil, Function.update_eq_self]
  rfl

theorem data_copyPage (s : CopyState) {i retlen : Nat} (oobretlen : Nat)
    (hoffset : s.offset = i * g.pgSize) (hfull : g.pgSize ≤ retlen) :
    (copyPage g (g.address dest 0) (g.address src 0) retlen oobretlen s).nand.data =
      program s.nand.data (g.address dest i) (load s.nand.data (g.address src i) g.pgSize) := by
  unfold copyPage CopyState.writeOob CopyState.readOob wrOps rdOps
  dsimp only
  rw [hoffset, g.address_add, g.address_add, Nat.min_eq_right hfull, take_left' (length_load _ _ _)]

theorem offset_copyPage (s : CopyState) {i retlen : Nat} (oobretlen : Nat)
    (hoffset : s.offset = i * g.pgSize) (hfull : g.pgSize ≤ retlen) :
    (copyPage g dest src retlen oobretlen s).offset = (i + 1) * g.pgSize := by
  rw [Nat.succ_mul, ← hoffset]
  exact congrArg (s.offset + ·) (Nat.min_eq_right hfull)

theorem oob_copyLoop : ∀ n i (s : CopyState),
    (copyLoop g rounds dest src maxOffset n i s).2 = true →
      (copyLoop g rounds dest src maxOffset n i s).1.oob = s.nand.oob := by
  intro n
  induction n with
  | zero => exact fun _ _ _ => rfl
  | succ n ih =>
    intro i s hok
    rcases copyLoop_succ hok with ⟨hstop, -⟩ | ⟨retlen, oobretlen, -, hnext⟩
    · rw [hstop]
    · rw [hnext] at hok ⊢
      rw [ih _ _ hok, oob_copyPage]

variable (g dest) in
/-- The address is in no page of the block from page `i` on. -/
def Beside (i a : Nat) : Prop :=
  ∀ j, i ≤ j → j < g.pages → a < g.address dest j ∨ g.address dest j + g.pgSize ≤ a

/-- From page `i` on, the pages of the destination lose the bits that the source has clear, and
    nothing else changes. -/
theorem data_copyLoop
    (hfull : ∀ i retlen oobretlen, (rounds i).read = some (retlen, oobretlen) →
      g.pgSize ≤ retlen) : ∀ n i (s : CopyState), i + n = g.pages → s.offset = i * g.pgSize →
    (copyLoop g rounds (g.address dest 0) (g.address src 0) maxOffset n i s).2 = true →
    (∀ a, Beside g dest i a →
      (copyLoop g rounds (g.address dest 0) (g.address src 0) maxOffset n i s).1.data a =
        s.nand.data a) ∧
    ∀ j, i ≤ j → j < g.pages → j * g.pgSize < maxOffset → ∀ k < g.pgSize,
      (copyLoop g rounds (g.address dest 0) (g.address src 0) maxOffset n i s).1.data
        (g.address dest j + k) =
          s.nand.data (g.address dest j + k) &&& s.nand.data (g.address src j + k) := by
  intro n
  induction n with
  | zero =>
    intro i s hn _ _
    exact ⟨fun _ _ => rfl, fun j hi hj => by omega⟩
  | succ n ih =>
    intro i s hn hoffset hok
    have hi : i < g.pages := by omega
    rcases copyLoop_succ hok with ⟨hstop, hwhy⟩ | ⟨retlen, oobretlen, hread, hnext⟩
    · rw [hstop]
      refine ⟨fun _ _ => rfl, fun j hj _ hjmax => ?_⟩
      -- a full page is never empty, so the pages from here on are not below `max_offset`
      have hmono : i * g.pgSize ≤ j * g.pgSize := Nat.mul_le_mul_right _ hj
      obtain ⟨oobretlen, retlen, hread, hzero⟩ := hwhy (by omega)
      have hlen := hfull i retlen oobretlen hread
      omega
    · have hlen := hfull i retlen oobretlen hread
      rw [hnext] at hok ⊢
      obtain ⟨hout, hin⟩ := ih (i + 1) _ (by omega) (offset_copyPage s oobretlen hoffset hlen) hok
      rw [data_copyPage s oobretlen hoffset hlen] at hout hin
      constructor
      · intro a ha
        rw [hout a fun j hj => ha j (by omega)]
        refine program_out ?_
        rw [length_load]
        exact ha i (Nat.le_refl i) hi
      · intro j hj hjp hjmax k hk
        rcases Nat.lt_or_eq_of_le hj with hij | rfl
        · -- round `i` touches neither page `j` of the destination nor that of the source
          have hkeep : ∀ b, program s.nand.data (g.address dest i)
              (load s.nand.data (g.address src i) g.pgSize) (g.address b j + k) =
                s.nand.data (g.address b j + k) := by
            intro b
            refine program_out ?_
            rw [length_load]
            have hapart := Geometry.address_apart dest b hi hjp
              (.inr (by omega))
            omega
          rw [hin j hij hjp hjmax k hk, hkeep, hkeep]
        · have hbeside : Beside g dest (i + 1) (g.address dest i + k) := by
            intro j hj hjp
            have hapart := Geometry.address_apart dest dest hi hjp
              (.inr (by omega))
            omega
          rw [hout _ hbeside]
          exact program_in (getElem?_load hk)

end Loop

/-! ### The copy -/

section Whole

variable {g : Geometry} {rounds : Nat → Round} {dest src maxOffset : Nat} {nand : Nand}
  {dataBuf oob : List UInt8}

/-- The copy keeps the pages exactly if the bits to be set are set in the destination, and its
    out-of-band bytes are those of the source already. -/
theorem bbtNandCopyOob_preserves_iff
    (hok : (bbtNandCopyOob g rounds dest src maxOffset nand dataBuf oob).2 = true)
    (hfull : ∀ i retlen oobretlen, (rounds i).read = some (retlen, oobretlen) →
      g.pgSize ≤ retlen) :
    (∀ i < g.pages, i * g.pgSize < maxOffset → PageCopied g rounds dest src nand
        (bbtNandCopyOob g rounds dest src maxOffset nand dataBuf oob).1 i) ↔
      ∀ i < g.pages, i * g.pgSize < maxOffset →
        (∀ k < g.pgSize, nand.data (g.address dest i + k) &&& nand.data (g.address src i + k) =
          nand.data (g.address src i + k)) ∧
        load (nand.oob (g.address dest i / g.pgSize)) 0 (oobRead g rounds i) =
          load (nand.oob (g.address src i / g.pgSize)) 0 (oobRead g rounds i) := by
  have hoob := oob_copyLoop _ _ _ hok
  have hdata := (data_copyLoop hfull _ 0 _ (Nat.zero_add _) (Nat.zero_mul _).symm hok).2
  refine forall_congr' fun i => forall_congr' fun hi => forall_congr' fun hmax => ?_
  have hpage := hdata i (Nat.zero_le i) hi hmax
  constructor
  · rintro ⟨hd, ho⟩
    refine ⟨fun k hk => ?_, ?_⟩
    · have hget := congrArg (fun l => l[k]?) hd
      rw [getElem?_load hk, getElem?_load hk] at hget
      exact (hpage k hk).symm.trans (Option.some.inj hget)
    · exact (congrArg (fun f : Nat → Nat → UInt8 => load (f _) 0 _) hoob).symm.trans ho
  · rintro ⟨hd, ho⟩
    refine ⟨?_, ?_⟩
    · refine ext_getElem? fun k => ?_
      by_cases hk : k < g.pgSize
      · rw [getElem?_load hk, getElem?_load hk]
        exact congrArg some ((hpage k hk).trans (hd k hk))
      · rw [getElem?_eq_none (by simpa using hk), getElem?_eq_none (by simpa using hk)]
    · exact (congrArg (fun f : Nat → Nat → UInt8 => load (f _) 0 _) hoob).trans ho

/-- Two pages of two bytes in a block, and two out-of-band bytes for each. -/
def tinyGeometry : Geometry where
  blkSize := 4
  blkShift := 2
  pgSize := 2
  pgShift := 1
  oobsize := 4
  pgSize_pos := by decide
  fits := by decide

/-- The second block is erased; the first one has `0x11` in its pages and `spare` out of band. -/
def oneWritten (spare : UInt8) : Nand where
  data a := if a < 4 then 0x11 else 0xff
  oob page _ := if page < 2 then spare else 0xff

def fullRound : Round := ⟨some (2, 2), none⟩

theorem bbtNandCopyOob_preserves_blank :
    (bbtNandCopyOob tinyGeometry (fun _ => fullRound) 1 0 4 (oneWritten 0xff) [] []).2 = true ∧
      ∀ i < 2, PageCopied tinyGeometry (fun _ => fullRound) 1 0 (oneWritten 0xff)
        (bbtNandCopyOob tinyGeometry (fun _ => fullRound) 1 0 4 (oneWritten 0xff) [] []).1 i := by
  have hfull : ∀ i retlen oobretlen,
      ((fun _ => fullRound : Nat → Round) i).read = some (retlen, oobretlen) →
        tinyGeometry.pgSize ≤ retlen := by
    rintro i _ _ ⟨⟩
    decide
  have hiff := bbtNandCopyOob_preserves_iff
    (show (bbtNandCopyOob tinyGeometry (fun _ => fullRound) 1 0 4 (oneWritten 0xff) [] []).2 = true
      from rfl) hfull
  refine ⟨rfl, fun i hi => hiff.mpr (by decide) i hi ?_⟩
  change i * 2 < 4
  omega

/-- The copy succeeds, and the new block is blank out of band. -/
theorem not_preserves_spare :
    (bbtNandCopyOob tinyGeometry (fun _ => fullRound) 1 0 4 (oneWritten 0x22) [] []).2 = true ∧
      ¬ PageCopied tinyGeometry (fun _ => fullRound) 1 0 (oneWritten 0x22)
        (bbtNandCopyOob tinyGeometry (fun _ => fullRound) 1 0 4 (oneWritten 0x22) [] []).1 0 := by
  refine ⟨rfl, fun h => ?_⟩
  exact absurd h.oob (by decide)

end Whole

end Rooter.Bmt
