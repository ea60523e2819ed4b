import Mathlib.Data.List.Basic
import Mathlib.Algebra.Group.Nat.Defs
import Mathlib.Data.Nat.Basic

/-!
# Flash devices

A flash device is an array of erase blocks.  Erasing sets every bit of a block; writing can
only clear bits.  Blocks of a NAND device may be marked bad.  An erase or a write may fail
on any block; a device says on which.  Writing goes through a descriptor with a position,
which keeps a log of the erases and writes that were issued, whether or not they succeeded.
-/

namespace Rooter.Flash

open List

/-- `pastFails` tells whether the question for the mark of a block behind the end is an
    error; otherwise the answer is that it is good.  Sizes fit in a C `int`. -/
structure Device where
  erasesize : Nat
  blocks : Nat
  nand : Bool
  bad : Nat → Bool
  pastFails : Bool
  eraseFails : Nat → Bool
  writeFails : Nat → Bool
  mem : Nat → UInt8
  erasesize_pos : 0 < erasesize
  size_lt : erasesize * blocks < 2 ^ 31
  bad_spec : ∀ k, bad k = true → nand = true ∧ k < blocks

namespace Device

variable (d : Device)

def size : Nat := d.erasesize * d.blocks

def block (k : Nat) : List UInt8 :=
  (range d.erasesize).map fun i => d.mem (d.erasesize * k + i)

def good : List Nat := (range d.blocks).filter fun k => !d.bad k

def goodBlocks (devices : List Device) : List (List UInt8) :=
  devices.flatMap fun d => d.good.map d.block

/-- The mark of the block at an offset; `none` is an error. -/
def isBad (offset : Nat) : Option Bool :=
  if d.nand then
    if offset < d.size then some (d.bad (offset / d.erasesize))
    else if d.pastFails then none else some false
  else some false

def eraseOk (start : Nat) : Bool :=
  start % d.erasesize = 0 && start < d.size && !d.eraseFails (start / d.erasesize)

def erased (start : Nat) : Device :=
  { d with mem := fun a => if a / d.erasesize = start / d.erasesize then 0xff else d.mem a }

/-- The number of bytes that a write at `pos` takes; `none` is an error. -/
def writeLength (pos len : Nat) : Option Nat :=
  if d.size ≤ pos then none
  else
    let n := min len (d.size - pos)
    if (range n).any fun i => d.writeFails ((pos + i) / d.erasesize) then none else some n

def written (pos : Nat) (data : List UInt8) : Device :=
  { d with mem := fun a =>
      if pos ≤ a then
        match data[a - pos]? with
        | some byte => d.mem a &&& byte
        | none => d.mem a
      else d.mem a }

/-- A NAND device of fewer than eight blocks of four bytes that holds zeros. -/
def smallNand (blocks : Fin 8) (bad eraseFails : List Nat) (pastFails : Bool) : Device where
  erasesize := 4
  blocks := blocks
  nand := true
  bad k := decide (k < blocks) && decide (k ∈ bad)
  pastFails := pastFails
  eraseFails k := decide (k ∈ eraseFails)
  writeFails _ := false
  mem _ := 0
  erasesize_pos := by decide
  size_lt := by omega
  bad_spec k h := by
    rw [Bool.and_eq_true, decide_eq_true_eq] at h
    exact ⟨rfl, h.1⟩

end Device

inductive Op where
  | erase (start : Nat)
  | write (pos : Nat) (data : List UInt8)

structure Descriptor where
  dev : Device
  pos : Nat
  ops : List Op

namespace Descriptor

def seek (fd : Descriptor) (n : Nat) : Descriptor := { fd with pos := fd.pos + n }

def issue (fd : Descriptor) (op : Op) : Descriptor := { fd with ops := fd.ops ++ [op] }

def erase (fd : Descriptor) (start : Nat) : Descriptor × Bool :=
  if fd.dev.eraseOk start then
    ({ fd.issue (.erase start) with dev := fd.dev.erased start }, true)
  else (fd.issue (.erase start), false)

def write (fd : Descriptor) (data : List UInt8) : Descriptor × Option Nat :=
  match fd.dev.writeLength fd.pos data.length with
  | some n =>
      ({ fd.issue (.write fd.pos data) with
          dev := fd.dev.written fd.pos (data.take n)
          pos := fd.pos + n }, some n)
  | none => (fd.issue (.write fd.pos data), none)

end Descriptor

/-! ### Whole blocks -/

namespace Device

variable {d : Device} {k j : Nat}

theorem length_block (d : Device) (k : Nat) : (d.block k).length = d.erasesize := by
  simp [block]

theorem div_block (d : Device) {i : Nat} (hi : i < d.erasesize) :
    (d.erasesize * k + i) / d.erasesize = k := by
  rw [Nat.mul_add_div d.erasesize_pos, Nat.div_eq_of_lt hi, Nat.add_zero]

theorem block_ext {e : Device} (hsize : e.erasesize = d.erasesize)
    (h : ∀ i < d.erasesize, e.mem (d.erasesize * k + i) = d.mem (d.erasesize * k + i)) :
    e.block k = d.block k := by
  unfold block
  rw [hsize]
  exact map_congr_left fun i hi => h i (mem_range.mp hi)

theorem block_erased_self (d : Device) (k : Nat) :
    (d.erased (d.erasesize * k)).block k = replicate d.erasesize 0xff := by
  refine ext_getElem (by simp [block, erased]) fun i hi _ => ?_
  have hi' : i < d.erasesize := by simpa [block, erased] using hi
  simp [block, erased, d.div_block hi', Nat.mul_div_cancel_left k d.erasesize_pos]

theorem block_erased_of_ne (h : j ≠ k) : (d.erased (d.erasesize * k)).block j = d.block j := by
  refine block_ext rfl fun i hi => ?_
  simp only [erased]
  rw [if_neg]
  rw [d.div_block hi, Nat.mul_div_cancel_left k d.erasesize_pos]
  exact h

theorem block_written_self {data : List UInt8} (hlen : data.length = d.erasesize)
    (herased : d.block k = replicate d.erasesize 0xff) :
    (d.written (d.erasesize * k) data).block k = data := by
  refine ext_getElem (by simp [block, written, hlen]) fun i hi hi' => ?_
  have hlt : i < d.erasesize := by simpa [block, written] using hi
  have hmem : d.mem (d.erasesize * k + i) = 0xff := by
    have hget : (d.block k)[i]? = (replicate d.erasesize 0xff)[i]? := by rw [herased]
    simpa [block, hlt] using hget
  simp only [block, written, getElem_map, getElem_range, Nat.le_add_right,
    Nat.add_sub_cancel_left, getElem?_eq_getElem hi', hmem]
  exact UInt8.neg_one_and

theorem block_written_of_ne {data : List UInt8} (hlen : data.length = d.erasesize) (h : j ≠ k) :
    (d.written (d.erasesize * k) data).block j = d.block j := by
  refine block_ext rfl fun i hi => ?_
  simp only [written]
  split
  · next hle =>
    -- behind the block that is written
    have hlt : k < j := by
      rcases Nat.lt_or_gt_of_ne h with hlt | hlt
      · have hle' : d.erasesize * (j + 1) ≤ d.erasesize * k := Nat.mul_le_mul_left _ hlt
        rw [Nat.mul_succ] at hle'
        omega
      · exact hlt
    have hge : data.length ≤ d.erasesize * j + i - d.erasesize * k := by
      have hle' : d.erasesize * (k + 1) ≤ d.erasesize * j := Nat.mul_le_mul_left _ hlt
      rw [Nat.mul_succ] at hle'
      omega
    rw [getElem?_eq_none hge]
  · rfl

end Device

/-! ### The answers of a device -/

namespace Device

variable {d : Device} {offset : Nat}

theorem bad_of_isBad_true (h : d.isBad offset = some true) :
    offset < d.size ∧ d.bad (offset / d.erasesize) = true := by
  unfold isBad at h
  split at h
  · split at h
    · next hlt => exact ⟨hlt, Option.some.inj h⟩
    · split at h <;> cases h
  · cases h

theorem bad_eq_false_of_le {k : Nat} (h : d.blocks ≤ k) : d.bad k = false := by
  cases hbad : d.bad k with
  | false => rfl
  | true => exact absurd (d.bad_spec k hbad).2 (by omega)

theorem bad_of_isBad_false (h : d.isBad offset = some false) :
    d.bad (offset / d.erasesize) = false := by
  unfold isBad at h
  split at h
  · split at h
    · exact Option.some.inj h
    · next hge =>
      refine bad_eq_false_of_le ?_
      rw [Nat.le_div_iff_mul_le d.erasesize_pos, Nat.mul_comm]
      exact Nat.le_of_not_lt hge
  · next hnand =>
    cases hbad : d.bad (offset / d.erasesize) with
    | false => rfl
    | true => exact absurd (d.bad_spec _ hbad).1 hnand

theorem isBad_of_lt (h : offset < d.size) :
    d.isBad offset = some (d.bad (offset / d.erasesize)) := by
  unfold isBad
  cases hnand : d.nand with
  | true => rw [if_pos rfl, if_pos h]
  | false =>
    cases hbad : d.bad (offset / d.erasesize) with
    | false => rfl
    | true => exact absurd (d.bad_spec _ hbad).1 (by rw [hnand]; decide)

theorem bad_of_isBad_block {k : Nat} (h : d.isBad (d.erasesize * k) = some false) :
    d.bad k = false := by
  have hmark := bad_of_isBad_false h
  rwa [Nat.mul_div_cancel_left _ d.erasesize_pos] at hmark

theorem bad_of_isBad_row {p j : Nat}
    (h : ∀ i < j, d.isBad (d.erasesize * p + d.erasesize * i) = some true) :
    (∀ i < j, d.bad (p + i) = true) ∧ p + j ≤ max p d.blocks := by
  have hbad : ∀ i < j, d.bad (p + i) = true := by
    intro i hi
    have hmark := (bad_of_isBad_true (h i hi)).2
    rwa [← Nat.mul_add, Nat.mul_div_cancel_left _ d.erasesize_pos] at hmark
  refine ⟨hbad, ?_⟩
  cases j with
  | zero => exact Nat.le_max_left _ _
  | succ j =>
    exact Nat.le_trans (d.bad_spec _ (hbad j (by omega))).2 (by omega)

end Device

/-! ### Filling a device from its start -/

variable {d : Device}

theorem Device.eraseOk_block {k : Nat} (h : k < d.blocks) :
    d.eraseOk (d.erasesize * k) = !d.eraseFails k := by
  have hlt : d.erasesize * k < d.size := Nat.mul_lt_mul_of_pos_left h d.erasesize_pos
  simp [eraseOk, hlt, Nat.mul_div_cancel_left _ d.erasesize_pos]

theorem Device.lt_of_eraseOk {k : Nat} (h : d.eraseOk (d.erasesize * k) = true) : k < d.blocks := by
  simp only [eraseOk, Bool.and_eq_true, decide_eq_true_eq] at h
  exact Nat.lt_of_mul_lt_mul_left h.1.2

theorem Device.writeLength_block {k : Nat} (h : k < d.blocks) (hwrite : d.writeFails k = false) :
    d.writeLength (d.erasesize * k) d.erasesize = some d.erasesize := by
  have hle : d.erasesize * (k + 1) ≤ d.size := Nat.mul_le_mul_left _ h
  rw [Nat.mul_succ] at hle
  have hpos := d.erasesize_pos
  have hany : ((range d.erasesize).any fun i =>
      d.writeFails ((d.erasesize * k + i) / d.erasesize)) = false := by
    rw [any_eq_false]
    intro i hi
    rw [d.div_block (mem_range.mp hi), hwrite]
    exact Bool.false_ne_true
  rw [writeLength, if_neg (by omega), Nat.min_eq_left (by omega)]
  simp only [hany, Bool.false_eq_true, if_false]

theorem Device.writeLength_le {pos len n : Nat} (h : d.writeLength pos len = some n) : n ≤ len := by
  simp only [writeLength] at h
  split at h
  · cases h
  · split at h
    · cases h
    · cases h
      exact Nat.min_le_left _ _

structure Device.Alike (d e : Device) : Prop where
  erasesize : e.erasesize = d.erasesize
  blocks : e.blocks = d.blocks
  nand : e.nand = d.nand
  bad : e.bad = d.bad
  pastFails : e.pastFails = d.pastFails
  eraseFails : e.eraseFails = d.eraseFails
  writeFails : e.writeFails = d.writeFails

namespace Device.Alike

variable {d e f : Device}

theorem refl (d : Device) : Alike d d := ⟨rfl, rfl, rfl, rfl, rfl, rfl, rfl⟩

variable (h : Alike d e)

include h

theorem trans (g : Alike e f) : Alike d f :=
  ⟨g.erasesize.trans h.erasesize, g.blocks.trans h.blocks, g.nand.trans h.nand,
    g.bad.trans h.bad, g.pastFails.trans h.pastFails, g.eraseFails.trans h.eraseFails,
    g.writeFails.trans h.writeFails⟩

theorem size : e.size = d.size := by
  simp only [Device.size, h.erasesize, h.blocks]

theorem good : e.good = d.good := by
  simp only [Device.good, h.blocks, h.bad]

theorem isBad (offset : Nat) : e.isBad offset = d.isBad offset := by
  simp only [Device.isBad, h.nand, h.size, h.bad, h.erasesize, h.pastFails]

theorem eraseOk (start : Nat) : e.eraseOk start = d.eraseOk start := by
  simp only [Device.eraseOk, h.erasesize, h.size, h.eraseFails]

theorem writeLength (pos len : Nat) : e.writeLength pos len = d.writeLength pos len := by
  simp only [Device.writeLength, h.size, h.writeFails, h.erasesize]

end Device.Alike

/-- The operation addresses a byte of block `k`. -/
def Op.Touches (erasesize : Nat) : Op → Nat → Prop
  | .erase start, k => start / erasesize = k
  | .write pos data, k => ∃ i < data.length, (pos + i) / erasesize = k

namespace Op

variable {erasesize k k' pos : Nat} {data : List UInt8}

theorem eq_of_touches_erase (hpos : 0 < erasesize)
    (h : (Op.erase (erasesize * k)).Touches erasesize k') : k' = k :=
  h.symm.trans (Nat.mul_div_cancel_left k hpos)

theorem eq_of_touches_write (hpos : 0 < erasesize) (hlen : data.length = erasesize)
    (h : (Op.write (erasesize * k) data).Touches erasesize k') : k' = k := by
  obtain ⟨i, hi, rfl⟩ := h
  rw [Nat.mul_add_div hpos, Nat.div_eq_of_lt (hlen ▸ hi), Nat.add_zero]

end Op

namespace Descriptor

variable {fd fd₁ : Descriptor}

theorem seek_seek (fd : Descriptor) (m n : Nat) : (fd.seek m).seek n = fd.seek (m + n) := by
  simp [seek, Nat.add_assoc]

theorem alike_erase (fd : Descriptor) (start : Nat) : fd.dev.Alike (fd.erase start).1.dev := by
  unfold erase
  split
  · exact ⟨rfl, rfl, rfl, rfl, rfl, rfl, rfl⟩
  · exact .refl _

theorem alike_write (fd : Descriptor) (data : List UInt8) : fd.dev.Alike (fd.write data).1.dev := by
  unfold write
  split
  · exact ⟨rfl, rfl, rfl, rfl, rfl, rfl, rfl⟩
  · exact .refl _

@[simp]
theorem pos_erase (fd : Descriptor) (start : Nat) : (fd.erase start).1.pos = fd.pos := by
  unfold erase
  split <;> rfl

theorem snd_erase (fd : Descriptor) (start : Nat) : (fd.erase start).2 = fd.dev.eraseOk start := by
  unfold erase
  split
  · next h => exact h.symm
  · next h => exact (Bool.eq_false_iff.mpr h).symm

theorem snd_write (fd : Descriptor) (data : List UInt8) :
    (fd.write data).2 = fd.dev.writeLength fd.pos data.length := by
  unfold write
  split
  · next h => exact h.symm
  · next h => exact h.symm

theorem erase_eq_false {start : Nat} (h : fd.erase start = (fd₁, false)) :
    fd.dev.eraseOk start = false ∧ fd₁ = fd.issue (.erase start) := by
  unfold erase at h
  split at h
  · cases h
  · next hok =>
    cases h
    exact ⟨Bool.eq_false_iff.mpr hok, rfl⟩

theorem erase_eq_true {start : Nat} (h : fd.erase start = (fd₁, true)) :
    fd₁ = { fd.issue (.erase start) with dev := fd.dev.erased start } := by
  unfold erase at h
  split at h
  · cases h
    rfl
  · cases h

theorem write_eq_some {data : List UInt8} {n : Nat} (h : fd.write data = (fd₁, some n))
    (hn : data.length ≤ n) :
    fd₁ = { fd.issue (.write fd.pos data) with
      dev := fd.dev.written fd.pos data
      pos := fd.pos + data.length } := by
  unfold write at h
  split at h
  · next m hlen =>
    cases h
    rw [Nat.le_antisymm (Device.writeLength_le hlen) hn, take_length]
  · cases h

end Descriptor

namespace Device

variable {d : Device} {p : Nat}

def goodBelow (d : Device) (p : Nat) : List Nat := (range p).filter fun k => !d.bad k

theorem mem_goodBelow {k : Nat} : k ∈ d.goodBelow p ↔ k < p ∧ d.bad k = false := by
  simp [goodBelow]

theorem good_eq_goodBelow (d : Device) : d.good = d.goodBelow d.blocks := rfl

theorem goodBelow_eq_take {q : Nat} (h : p ≤ q) :
    d.goodBelow p = (d.goodBelow q).take (d.goodBelow p).length := by
  obtain ⟨n, rfl⟩ := Nat.exists_eq_add_of_le h
  have happend : d.goodBelow (p + n) =
      d.goodBelow p ++ ((range n).map (p + ·)).filter fun k => !d.bad k := by
    rw [goodBelow, range_add, filter_append]
    rfl
  rw [happend, take_left]

theorem goodBelow_of_no_bad (h : ∀ k, d.bad k = false) : d.goodBelow p = range p := by
  simp [goodBelow, h]

theorem goodBelow_succ_of_bad (h : d.bad p = true) : d.goodBelow (p + 1) = d.goodBelow p := by
  simp [goodBelow, range_succ, h]

theorem goodBelow_succ_of_good (h : d.bad p = false) :
    d.goodBelow (p + 1) = d.goodBelow p ++ [p] := by
  simp [goodBelow, range_succ, h]

theorem getElem?_goodBelow {j : Nat} (hj : j < p) (hgood : d.bad j = false) :
    (d.goodBelow p)[(d.goodBelow j).length]? = some j := by
  have htake := goodBelow_eq_take (d := d) (show j + 1 ≤ p from hj)
  rw [goodBelow_succ_of_good hgood, length_append, length_singleton] at htake
  have hget := congrArg (fun l => l[(d.goodBelow j).length]?) htake
  rw [getElem?_concat_length, getElem?_take_of_lt (by omega)] at hget
  exact hget.symm

end Device

/-- The good blocks below `p` of a device that was `d` were erased and written and hold
    `blocks`; no other block was touched. -/
structure Filled (d : Device) (fd : Descriptor) (p : Nat) (blocks : List (List UInt8)) : Prop where
  alike : d.Alike fd.dev
  stored : (d.goodBelow p).map fd.dev.block = blocks
  other : ∀ k, k ∉ d.goodBelow p → fd.dev.block k = d.block k
  ops : ∀ op ∈ fd.ops, ∀ k, op.Touches d.erasesize k → k ∈ d.goodBelow p

namespace Filled

variable {d : Device} {fd : Descriptor} {p : Nat} {blocks : List (List UInt8)}

theorem init (d : Device) (pos : Nat) : Filled d ⟨d, pos, []⟩ 0 [] where
  alike := .refl d
  stored := rfl
  other _ _ := rfl
  ops _ h := absurd h not_mem_nil

variable (h : Filled d fd p blocks)

include h

theorem skip_bad (n : Nat) (hbad : d.bad p = true) : Filled d (fd.seek n) (p + 1) blocks := by
  have heq := Device.goodBelow_succ_of_bad hbad
  exact ⟨h.alike, heq ▸ h.stored, heq ▸ h.other, heq ▸ h.ops⟩

theorem skip_bads {n : Nat} :
    ∀ j, (∀ i < j, d.bad (p + i) = true) → Filled d (fd.seek (n * j)) (p + j) blocks := by
  intro j
  induction j with
  | zero => exact fun _ => h
  | succ j ih =>
    intro hbad
    have hj := ih fun i hi => hbad i (by omega)
    rw [Nat.mul_succ, ← Descriptor.seek_seek]
    exact hj.skip_bad n (hbad j (by omega))

theorem put {data : List UInt8} {fd₁ fd₂ : Descriptor} {n : Nat} (hgood : d.bad p = false)
    (hpos : fd.pos = d.erasesize * p) (hlen : data.length = d.erasesize)
    (herase : fd.erase (d.erasesize * p) = (fd₁, true)) (hwrite : fd₁.write data = (fd₂, some n))
    (hn : data.length ≤ n) :
    Filled d fd₂ (p + 1) (blocks ++ [data]) ∧ fd₂.pos = d.erasesize * (p + 1) := by
  rw [Descriptor.write_eq_some hwrite hn, Descriptor.erase_eq_true herase]
  have hsize : fd.dev.erasesize = d.erasesize := h.alike.erasesize
  have hself : ((fd.dev.erased (d.erasesize * p)).written (d.erasesize * p) data).block p
      = data := by
    rw [← hsize] at hlen ⊢
    exact Device.block_written_self hlen (Device.block_erased_self _ _)
  have hother : ∀ k, k ≠ p →
      ((fd.dev.erased (d.erasesize * p)).written (d.erasesize * p) data).block k
        = fd.dev.block k := by
    intro k hk
    rw [← hsize] at hlen ⊢
    rw [← Device.block_erased_of_ne (d := fd.dev) hk]
    exact Device.block_written_of_ne hlen hk
  have heq := Device.goodBelow_succ_of_good hgood
  refine ⟨⟨⟨h.alike.erasesize, h.alike.blocks, h.alike.nand, h.alike.bad, h.alike.pastFails,
    h.alike.eraseFails, h.alike.writeFails⟩, ?_, ?_, ?_⟩, ?_⟩
  · rw [heq, map_append, map_singleton]
    simp only [Descriptor.issue, hpos, hself]
    congr 1
    rw [← h.stored]
    refine map_congr_left fun k hk => hother k ?_
    exact Nat.ne_of_lt (Device.mem_goodBelow.mp hk).1
  · intro k hk
    rw [heq, mem_append, mem_singleton, not_or] at hk
    simp only [Descriptor.issue, hpos]
    rw [hother k hk.2, h.other k hk.1]
  · intro op hop k hk
    simp only [Descriptor.issue, mem_append, mem_singleton] at hop
    rw [heq, mem_append, mem_singleton]
    rcases hop with (hop | rfl) | rfl
    · exact .inl (h.ops op hop k hk)
    · exact .inr (Op.eq_of_touches_erase d.erasesize_pos hk)
    · rw [hpos] at hk
      exact .inr (Op.eq_of_touches_write d.erasesize_pos hlen hk)
  · simp only [Descriptor.issue, hpos, hlen, Nat.mul_succ]

theorem isPrefix (hle : p ≤ d.blocks) :
    d.goodBelow p = d.good.take blocks.length ∧ blocks <+: d.good.map fd.dev.block := by
  have htake := Device.goodBelow_eq_take (d := d) hle
  have hlen : (d.goodBelow p).length = blocks.length := by
    rw [← h.stored, length_map]
  rw [hlen] at htake
  refine ⟨htake, ?_⟩
  rw [← h.stored, htake, map_take]
  exact take_prefix _ _

theorem length_eq (hgood : ∀ k, d.bad k = false) : blocks.length = p := by
  rw [← h.stored, length_map, Device.goodBelow_of_no_bad hgood, length_range]

/-- The content of a device without bad blocks: the new blocks, then the old ones. -/
theorem content_eq (hgood : ∀ k, d.bad k = false) (hle : p ≤ d.blocks) :
    (range d.blocks).map fd.dev.block
      = blocks ++ ((range d.blocks).map d.block).drop blocks.length := by
  obtain ⟨n, hn⟩ := Nat.exists_eq_add_of_le hle
  have hstored := h.stored
  rw [Device.goodBelow_of_no_bad hgood] at hstored
  rw [h.length_eq hgood, hn, range_add, map_append, map_append, drop_left' (by simp)]
  congr 1
  refine map_congr_left fun k hk => h.other k ?_
  obtain ⟨i, -, rfl⟩ := mem_map.mp hk
  rw [Device.mem_goodBelow]
  omega

end Filled

end Rooter.Flash
