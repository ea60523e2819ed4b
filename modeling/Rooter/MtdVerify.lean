import Rooter.Memory
import Rooter.MtdImage

/-!
# Verifying an image

Model of `mtd_verify` in `mtd.c`.

The device is read from its start in pieces of 256 bytes at most, as many bytes as the file has,
and hashed.  A read may be short or interrupted.  Marks of bad blocks are not asked for, while
`mtd_write` leaves bad blocks out: what is hashed are the first blocks of the device, and the
image is on the first good ones.
-/

namespace Rooter.Mtd

open List Flash Loop Memory PaddedBlocks

/-! ### Reading a device -/

/-- What a `read` on a device does: it is interrupted, it fails, or it delivers no more than
    `n + 1` bytes. -/
inductive DeviceRead where
  | again
  | failed
  | short (n : Nat)
deriving DecidableEq, Repr

/-- `read` of `len` bytes at a position; the list has the next reads, behind its end they
    deliver all that is asked for. -/
def readDevice (d : Device) (pos len : Nat) : List DeviceRead → ReadResult × List DeviceRead
  | .again :: reads => (.again, reads)
  | .failed :: reads => (.failed, reads)
  | .short n :: reads => (.data (load d.mem pos (min (min len (n + 1)) (d.size - pos))), reads)
  | [] => (.data (load d.mem pos (min len (d.size - pos))), [])

variable {reads : List DeviceRead}

/-- A read that does not fail: it is interrupted, or it delivers the next bytes, some of them if
    there are any. -/
theorem readDevice_cases (d : Device) (pos len : Nat) (h : DeviceRead.failed ∉ reads) :
    (∃ rest, reads = .again :: rest ∧ readDevice d pos len reads = (.again, rest)) ∨
      ∃ n, n ≤ min len (d.size - pos) ∧ (n = 0 → min len (d.size - pos) = 0) ∧
        readDevice d pos len reads = (.data (load d.mem pos n), reads.tail) := by
  cases reads with
  | nil => exact .inr ⟨_, Nat.le_refl _, id, rfl⟩
  | cons read rest =>
    cases read with
    | again => exact .inl ⟨rest, rfl, rfl⟩
    | failed => exact absurd mem_cons_self h
    | short n => exact .inr ⟨_, by omega, by omega, rfl⟩

/-! ### The loop -/

/-- The position, what is left of `st_size`, and what was hashed. -/
structure Verifier where
  pos : Nat
  stSize : Nat
  hashed : List UInt8
  reads : List DeviceRead

/-- A read that failed, or the bytes that were hashed to be compared. -/
inductive VerifyResult where
  | failed
  | compared (hashed : List UInt8)
deriving DecidableEq, Repr

namespace Verifier

def repeatLoop (s : Verifier) : Next Verifier VerifyResult :=
  if 0 < s.stSize then .again s else .leave (.compared s.hashed)

def step (d : Device) (s : Verifier) : Next Verifier VerifyResult :=
  let len := if 256 < s.stSize then 256 else s.stSize
  match readDevice d s.pos len s.reads with
  | (.again, reads) => repeatLoop { s with reads := reads }
  | (.failed, _) => .leave .failed
  | (.data bytes, reads) =>
      if bytes = [] then .leave (.compared s.hashed)
      else repeatLoop
        ⟨s.pos + bytes.length, s.stSize - bytes.length, s.hashed ++ bytes, reads⟩

end Verifier

def verifyLoop (d : Device) (size : Nat) (reads : List DeviceRead) : Option VerifyResult :=
  loop (Verifier.step d) (size + reads.length + 1) ⟨0, size, [], reads⟩

/-- `mtd_verify` for any digest; `true` is the result zero. -/
def mtdVerify {Digest : Type} [DecidableEq Digest] (md5 : List UInt8 → Digest) (d : Device)
    (file : List UInt8) (reads : List DeviceRead) : Option Bool :=
  (verifyLoop d file.length reads).map fun
    | .failed => false
    | .compared hashed => decide (md5 file = md5 hashed)

/-! ### What is hashed -/

namespace Verifier

variable {d : Device} {size : Nat}

variable (d size) in
structure Hashing (s : Verifier) : Prop where
  hashed : s.hashed = load d.mem 0 s.pos
  left : s.pos + s.stSize = size
  le : s.pos ≤ d.size
  reads : DeviceRead.failed ∉ s.reads

theorem Hashing.result {s : Verifier} (h : Hashing d size s)
    (hend : s.stSize = 0 ∨ d.size ≤ s.pos) : s.hashed = load d.mem 0 (min size d.size) := by
  have hpos : s.pos = min size d.size := by
    have hleft := h.left
    have hle := h.le
    omega
  rw [h.hashed, hpos]

theorem Hashing.step_cases {s : Verifier} (h : Hashing d size s) :
    step d s = .leave (.compared (load d.mem 0 (min size d.size))) ∨
      ∃ t, step d s = .again t ∧ Hashing d size t ∧
        t.stSize + t.reads.length < s.stSize + s.reads.length := by
  have hrepeat : ∀ t, Hashing d size t → t.stSize + t.reads.length < s.stSize + s.reads.length →
      repeatLoop t = .leave (.compared (load d.mem 0 (min size d.size))) ∨
        ∃ u, repeatLoop t = .again u ∧ Hashing d size u ∧
          u.stSize + u.reads.length < s.stSize + s.reads.length := by
    intro t ht hlt
    unfold repeatLoop
    split
    · exact .inr ⟨t, rfl, ht, hlt⟩
    · rw [ht.result (.inl (by omega))]
      exact .inl rfl
  have hlen : (if 256 < s.stSize then 256 else s.stSize) ≤ s.stSize ∧
      ((if 256 < s.stSize then 256 else s.stSize) = 0 → s.stSize = 0) := by
    split <;> omega
  unfold step
  dsimp only
  generalize (if 256 < s.stSize then 256 else s.stSize) = len at hlen
  rcases readDevice_cases d s.pos len h.reads with ⟨rest, hreads, heq⟩ | ⟨n, hn, hzero, heq⟩
  · rw [heq]
    refine hrepeat _ ⟨h.hashed, h.left, h.le, fun hmem => h.reads ?_⟩ ?_
    · rw [hreads]
      exact mem_cons_of_mem _ hmem
    · rw [hreads]
      exact Nat.lt_succ_self _
  · rw [heq]
    dsimp only
    split
    next hnil =>
      have hn0 : n = 0 := by
        rw [← length_load d.mem s.pos n, hnil]
        rfl
      rw [h.result (by omega)]
      exact .inl rfl
    next hne =>
      have hpos : 0 < n := Nat.pos_of_ne_zero fun hn0 => hne (by rw [hn0]; rfl)
      have htail : s.reads.tail.length ≤ s.reads.length := by
        rw [length_tail]
        omega
      rw [length_load]
      refine hrepeat _ ⟨?_, ?_, ?_, fun hmem => h.reads (mem_of_mem_tail hmem)⟩ ?_
      · rw [load_add, ← h.hashed, Nat.zero_add]
      · have hleft := h.left
        dsimp only
        omega
      · dsimp only
        omega
      · dsimp only
        omega

end Verifier

/-- If no read fails, the first bytes of the device are hashed, as many as the file has. -/
theorem verifyLoop_eq {d : Device} {size : Nat} (h : DeviceRead.failed ∉ reads) :
    verifyLoop d size reads = some (.compared (load d.mem 0 (min size d.size))) := by
  have hinit : Verifier.Hashing d size ⟨0, size, [], reads⟩ :=
    ⟨rfl, Nat.zero_add _, Nat.zero_le _, h⟩
  obtain ⟨r, hr⟩ := @exists_loop_eq _ _ (Verifier.step d) (Verifier.Hashing d size)
    (fun s => s.stSize + s.reads.length) fun s t hs hstep => by
      rcases hs.step_cases with heq | ⟨u, heq, hu, hlt⟩
      · rw [heq] at hstep
        cases hstep
      · rw [heq] at hstep
        cases hstep
        exact ⟨hu, hlt⟩
    (size + reads.length + 1) _ hinit (Nat.lt_succ_self _)
  have hpost : r = .compared (load d.mem 0 (min size d.size)) := by
    refine @loop_satisfies _ _ (Verifier.step d) (Verifier.Hashing d size)
      (fun r => r = .compared (load d.mem 0 (min size d.size))) (fun s hs => ?_) _ _ r hinit hr
    rcases hs.step_cases with heq | ⟨u, heq, hu, -⟩
    · rw [heq]
      exact rfl
    · rw [heq]
      exact hu
  unfold verifyLoop
  rw [hr, hpost]

/-! ### What was written -/

section Written

variable {d : Device} {blocks : List (List UInt8)}

theorem load_mem_block (d : Device) (k : Nat) :
    load d.mem (d.erasesize * k) d.erasesize = d.block k := by
  refine ext_getElem? fun i => ?_
  by_cases hi : i < d.erasesize
  · rw [getElem?_load hi]
    simp [Device.block, hi]
  · rw [getElem?_eq_none (by simpa using hi), getElem?_eq_none (by rw [Device.length_block]; omega)]

theorem load_mem_blocks (d : Device) (n : Nat) :
    load d.mem 0 (d.erasesize * n) = ((range n).map d.block).flatten := by
  induction n with
  | zero => rfl
  | succ n ih =>
    rw [Nat.mul_succ, load_add, ih, Nat.zero_add, load_mem_block, range_succ,
      map_append, flatten_append, map_singleton, flatten_singleton]

theorem flatten_blocks_inj {n : Nat} {blocks' : List (List UInt8)} (h : ∀ b ∈ blocks, b.length = n)
    (h' : ∀ b ∈ blocks', b.length = n) (hlen : blocks.length = blocks'.length) :
    blocks.flatten = blocks'.flatten ↔ blocks = blocks' := by
  have hmap : ∀ l : List (List UInt8), (∀ b ∈ l, b.length = n) →
      l.map length = replicate l.length n := by
    intro l hl
    rw [eq_replicate_iff]
    refine ⟨length_map _, fun m hm => ?_⟩
    obtain ⟨b, hb, rfl⟩ := mem_map.mp hm
    exact hl b hb
  rw [eq_iff_flatten_eq, hmap blocks h, hmap blocks' h', hlen]
  exact (and_iff_left rfl).symm

/-- A block in front of the last one that was written is bad and has its old content, or it
    holds the part of the image that follows those on the good blocks before. -/
theorem block_of_filled {fd : Descriptor} {p j : Nat} (h : Filled d fd p blocks) (hj : j < p) :
    some (fd.dev.block j) =
      if d.bad j then some (d.block j) else blocks[(d.goodBelow j).length]? := by
  cases hbad : d.bad j with
  | true =>
    rw [if_pos rfl, h.other j fun hmem => ?_]
    exact absurd (Device.mem_goodBelow.mp hmem).2 (by rw [hbad]; decide)
  | false =>
    rw [← h.stored, getElem?_map, Device.getElem?_goodBelow hj hbad]
    rfl

variable (d) in
/-- Each of the first blocks of the device holds the part of the image with its number, once
    the image has been written: a bad one by chance, a good one if none before it is bad or if
    the parts are alike. -/
def InPlace (blocks : List (List UInt8)) : Prop :=
  ∀ j < blocks.length,
    (if d.bad j then some (d.block j) else blocks[(d.goodBelow j).length]?) = blocks[j]?

instance (blocks : List (List UInt8)) : Decidable (InPlace d blocks) :=
  inferInstanceAs (Decidable (∀ j < blocks.length,
    (if d.bad j then some (d.block j) else blocks[(d.goodBelow j).length]?) = blocks[j]?))

theorem inPlace_iff {fd : Descriptor} {p : Nat} (h : Filled d fd p blocks) :
    (range blocks.length).map fd.dev.block = blocks ↔ InPlace d blocks := by
  have hle : blocks.length ≤ p := by
    rw [← h.stored, length_map]
    exact Nat.le_trans (length_filter_le _ _) (Nat.le_of_eq length_range)
  have hget : ∀ j < blocks.length, ((range blocks.length).map fd.dev.block)[j]? =
      if d.bad j then some (d.block j) else blocks[(d.goodBelow j).length]? := by
    intro j hj
    rw [← block_of_filled h (by omega), getElem?_map, getElem?_range hj]
    rfl
  constructor
  · intro heq j hj
    rw [← hget j hj, heq]
  · intro hplace
    refine ext_getElem? fun j => ?_
    by_cases hj : j < blocks.length
    · rw [hget j hj, hplace j hj]
    · rw [getElem?_eq_none (by simpa using hj), getElem?_eq_none (by omega)]

/-- **Verifying what was written.**  On any digest, the device verifies with the file's bytes
    being hashed exactly if every part of the image is in place. -/
theorem mtdVerify_iff {Digest : Type} [DecidableEq Digest] (md5 : List UInt8 → Digest) {o : Options}
    {buf image : List UInt8} {input : List ReadResult} {r : Outcome} {reads : List DeviceRead}
    (hn : o.noErase = false) (hp : o.partOffset = 0) (hbuf : buf.length ≤ d.erasesize)
    (hinput : Undisturbed input) (himage : buf ++ delivered input = image)
    (hdvd : d.erasesize ∣ image.length) (hrun : mtdWrite o none d [] buf input = some r)
    (hsuccess : r.status = .success) (hreads : DeviceRead.failed ∉ reads) :
    ∃ fd, r.opened = [fd] ∧
      ((verifyLoop fd.dev image.length reads = some (.compared image) ∧
          mtdVerify md5 fd.dev image reads = some true) ↔
        InPlace d (blocksOf d.erasesize 0xff image)) := by
  obtain ⟨fd, p, hopened, hfilled, hle⟩ :=
    (finished_of_success hn hp hbuf hinput hrun hsuccess).single
  rw [himage] at hfilled
  have hsize : fd.dev.erasesize = d.erasesize := hfilled.alike.erasesize
  have hflat : (blocksOf d.erasesize 0xff image).flatten = image := by
    rw [flatten_blocksOf d.erasesize_pos, padded_of_dvd hdvd]
  have hlen : image.length = d.erasesize * (blocksOf d.erasesize 0xff image).length := by
    rw [← length_padded d.erasesize_pos, padded_of_dvd hdvd]
  have hcount : (blocksOf d.erasesize 0xff image).length ≤ d.blocks := by
    have hcard : (blocksOf d.erasesize 0xff image).length ≤ p := by
      rw [← hfilled.stored, length_map]
      exact Nat.le_trans (length_filter_le _ _) (Nat.le_of_eq length_range)
    omega
  have hfits : image.length ≤ fd.dev.size := by
    rw [hfilled.alike.size, hlen]
    exact Nat.mul_le_mul_left _ hcount
  have hhashed : verifyLoop fd.dev image.length reads = some (.compared
      ((range (blocksOf d.erasesize 0xff image).length).map fd.dev.block).flatten) := by
    rw [verifyLoop_eq hreads, Nat.min_eq_left hfits, hlen, ← hsize, load_mem_blocks]
  refine ⟨fd, hopened, ?_⟩
  rw [← inPlace_iff hfilled]
  constructor
  · rintro ⟨hsame, -⟩
    rw [hhashed] at hsame
    refine (flatten_blocks_inj (n := d.erasesize) ?_ ?_ ?_).mp ?_
    · intro b hb
      obtain ⟨k, -, rfl⟩ := mem_map.mp hb
      rw [Device.length_block, hsize]
    · exact fun b hb => length_of_mem_blocksOf hb
    · rw [length_map, length_range]
    · rw [hflat]
      exact VerifyResult.compared.inj (Option.some.inj hsame)
  · intro hsame
    rw [hsame, hflat] at hhashed
    refine ⟨hhashed, ?_⟩
    unfold mtdVerify
    rw [hhashed]
    exact congrArg some (decide_eq_true rfl)

/-- An image of two blocks on a device whose third block is bad, with short reads. -/
theorem mtdVerify_good : ∃ r fd, mtdWrite plainOptions none (Device.smallNand 4 [2] [] true) []
      [1, 2] [.data [3], .again, .data [4, 5, 6, 7, 8]] = some r ∧ r.opened = [fd] ∧
    mtdVerify id fd.dev [1, 2, 3, 4, 5, 6, 7, 8] [.short 2, .again] = some true := by
  obtain ⟨r, hrun, hsuccess⟩ :
      ∃ r ∈ mtdWrite plainOptions none (Device.smallNand 4 [2] [] true) [] [1, 2]
      [.data [3], .again, .data [4, 5, 6, 7, 8]],
      r.status = .success := by decide
  obtain ⟨fd, hopened, hiff⟩ := mtdVerify_iff
    id rfl rfl (by decide) (by decide) rfl (by decide) hrun hsuccess
    (show DeviceRead.failed ∉ [.short 2, .again] by decide)
  exact ⟨r, fd, hrun, hopened, (hiff.mpr (by decide)).2⟩

/-- Behind a bad block the image is written, and the verification fails: what is hashed begins
    with the bad block. -/
theorem not_mtdVerify_bad : ∃ r fd, mtdWrite plainOptions none (Device.smallNand 4 [0] [] true) []
      [] [.data [1, 2, 3, 4]] = some r ∧ r.status = .success ∧ r.opened = [fd] ∧
    verifyLoop fd.dev 4 [] = some (.compared [0, 0, 0, 0]) ∧
      mtdVerify id fd.dev [1, 2, 3, 4] [] = some false := by
  obtain ⟨r, hrun, hsuccess, hone, hall⟩ :
      ∃ r ∈ mtdWrite plainOptions none (Device.smallNand 4 [0] [] true) [] [] [.data [1, 2, 3, 4]],
      r.status = .success ∧ r.opened.length = 1 ∧ ∀ fd ∈ r.opened,
        verifyLoop fd.dev 4 [] = some (.compared [0, 0, 0, 0]) ∧
          mtdVerify id fd.dev [1, 2, 3, 4] [] = some false := by decide
  obtain ⟨fd, hfd⟩ := length_eq_one_iff.mp hone
  exact ⟨r, fd, hrun, hsuccess, hfd, hall fd (by rw [hfd]; exact mem_singleton_self fd)⟩

end Written

end Rooter.Mtd
