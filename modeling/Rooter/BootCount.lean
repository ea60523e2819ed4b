import Rooter.ByteOrder
import Rooter.Memory

/-!
# Resetting the boot counter

Model of `mtd_resetbc` in `linksys_bootcount.c`.

The partition is a log of records, one for each boot.  A record has a magic number, a count and
a checksum; the distance between records is the write size of the device, at least 16.  If the
last count is not zero, a record with count zero is appended; if there is no room, the partition
is erased first.

The record is put together in a buffer of 2048 bytes, but as many bytes as the distance are
filled with `0xff` and written.  With a larger write size the memory behind the buffer is
overwritten.  The stores to memory are recorded with their place in the buffer.
-/

namespace Rooter.BootCount

open List ByteOrder Memory

/-! ### The model -/

/-- A partition with the sizes that `MEMGETINFO` tells.  `MEMERASE` and a write succeed or leave
    the given content; a write is not short, since a record does not go beyond the end. -/
structure Partition where
  size : Nat
  writesize : Nat
  mem : Nat → UInt8
  eraseFails : Option (Nat → UInt8)
  writeFails : Option (Nat → UInt8)
  size_lt : size < 0x100000000

/-- The memory from `page` on, and where it was stored to, with lengths. -/
structure Buffer where
  mem : Nat → UInt8
  stores : List (Nat × Nat)

def bootcountMagic : Nat := 0x20110811

def pageSize : Nat := 2048

def sizeofBootcounter : Nat := 12

namespace Partition

variable (p : Partition)

def increment : Nat := if p.writesize < 16 then 16 else p.writesize

/-- `num_bc`. -/
def numBc : Nat := p.size / p.increment

def erased : Partition := { p with mem := fill p.mem 0 p.size 0xff }

end Partition

namespace Buffer

def put (b : Buffer) (i : Nat) (bytes : List UInt8) : Buffer :=
  ⟨store b.mem i bytes, b.stores ++ [(i, bytes.length)]⟩

def memset (b : Buffer) (i n : Nat) (byte : UInt8) : Buffer :=
  ⟨fill b.mem i n byte, b.stores ++ [(i, n)]⟩

end Buffer

structure Result where
  retval : Int
  part : Partition
  buffer : Buffer

section Model

variable (bigEndian : Bool) (p : Partition)

def magic (b : Buffer) : Nat := value bigEndian (load b.mem 0 4)

def count (b : Buffer) : Nat := value bigEndian (load b.mem 4 4)

/-- The loop over the records, with `n` of them to go.  It gives `i` and `last_count`, unless
    there is an unexpected magic number. -/
def scanLog : Nat → Nat → Nat → Buffer → Buffer × Option (Nat × Nat)
  | 0, i, lastCount, b => (b, some (i, lastCount))
  | n + 1, i, lastCount, b =>
      let b := b.put 0 (load p.mem (i * p.increment) sizeofBootcounter)
      if magic bigEndian b ≠ bootcountMagic ∧ magic bigEndian b ≠ 0xffffffff then (b, none)
      else if magic bigEndian b = 0xffffffff then (b, some (i, lastCount))
      else scanLog n (i + 1) (count bigEndian b) b

def newRecord : List UInt8 :=
  bytes bigEndian 4 bootcountMagic ++ bytes bigEndian 4 0 ++ bytes bigEndian 4 bootcountMagic

/-- The new record is put together and written in place of record `i`. -/
def writeRecord (b : Buffer) (i : Nat) : Result :=
  let b := (b.memset 0 p.increment 0xff).put 0 (newRecord bigEndian)
  match p.writeFails with
  | some left => ⟨-4, { p with mem := left }, b⟩
  | none =>
      ⟨0, { p with mem := program p.mem (i * p.increment) (load b.mem 0 p.increment) }, b⟩

/-- `mtd_resetbc` on a device that can be opened and asked for its sizes; without that the
    result is `-1` and nothing happens. -/
def mtdResetbc (page : Nat → UInt8) : Result :=
  match scanLog bigEndian p p.numBc 0 0 ⟨page, []⟩ with
  | (b, none) => ⟨-2, p, b⟩
  | (b, some (i, lastCount)) =>
      if lastCount = 0 then ⟨0, p, b⟩
      else if i = p.numBc then
        match p.eraseFails with
        | some left => ⟨-3, { p with mem := left }, b⟩
        | none => writeRecord bigEndian p.erased b 0
      else writeRecord bigEndian p b i

end Model

/-! ### Logs -/

section Log

variable (bigEndian : Bool) (p : Partition)

def countAt (i : Nat) : Nat := value bigEndian (load p.mem (i * p.increment + 4) 4)

/-- A log of `n` records in front of erased space. -/
structure ValidLog (n : Nat) : Prop where
  le : n ≤ p.numBc
  magic : ∀ i < n, value bigEndian (load p.mem (i * p.increment) 4) = bootcountMagic
  blank : ∀ a, n * p.increment ≤ a → a < p.numBc * p.increment → p.mem a = 0xff

def lastCount (n : Nat) : Nat := if n = 0 then 0 else countAt bigEndian p (n - 1)

end Log

variable {bigEndian : Bool} {p : Partition} {n i : Nat} {b : Buffer}

theorem le_increment (p : Partition) : 16 ≤ p.increment := by
  unfold Partition.increment
  split <;> omega

theorem magic_put (b : Buffer) (mem : Nat → UInt8) (a : Nat) :
    magic bigEndian (b.put 0 (load mem a sizeofBootcounter)) = value bigEndian (load mem a 4) := by
  have hself := @load_store_self _ b.mem 0 (load mem a sizeofBootcounter)
  rw [length_load] at hself
  unfold magic Buffer.put
  rw [← take_load _ (show 4 ≤ sizeofBootcounter by decide), hself, take_load _ (by decide)]

theorem value_blank (bigEndian : Bool) : value bigEndian (replicate 4 0xff) = 0xffffffff := by
  cases bigEndian <;> rfl

theorem ValidLog.magic_blank (h : ValidLog bigEndian p n) (hlt : n < p.numBc) :
    value bigEndian (load p.mem (n * p.increment) 4) = 0xffffffff := by
  have hinc := le_increment p
  have hroom : (n + 1) * p.increment ≤ p.numBc * p.increment := Nat.mul_le_mul_right _ hlt
  rw [Nat.succ_mul] at hroom
  have hblank : load p.mem (n * p.increment) 4 = replicate 4 0xff := by
    refine ext_getElem? fun k => ?_
    by_cases hk : k < 4
    · rw [getElem?_load hk, h.blank _ (by omega) (by omega), getElem?_replicate, if_pos hk]
    · rw [getElem?_eq_none (by simpa using hk), getElem?_eq_none (by simpa using hk)]
  rw [hblank, value_blank]

/-- The loop comes to the end of the log, with the last count.  All it stores is the record that
    it looks at. -/
theorem ValidLog.scanLog (h : ValidLog bigEndian p n) : ∀ m i (b : Buffer), i + m = p.numBc →
    i ≤ n → ∃ b', scanLog bigEndian p m i (lastCount bigEndian p i) b =
      (b', some (n, lastCount bigEndian p n)) ∧
        ∀ st ∈ b'.stores, st ∈ b.stores ∨ st = (0, sizeofBootcounter) := by
  intro m
  induction m with
  | zero =>
    intro i b hi hn
    have hle := h.le
    obtain rfl : i = n := by omega
    exact ⟨b, rfl, fun st hst => .inl hst⟩
  | succ m ih =>
    intro i b hi hn
    have hput : ∀ st ∈ (b.put 0 (load p.mem (i * p.increment) sizeofBootcounter)).stores,
        st ∈ b.stores ∨ st = (0, sizeofBootcounter) := by
      intro st hst
      unfold Buffer.put at hst
      rw [mem_append, mem_singleton] at hst
      exact hst
    rw [BootCount.scanLog, magic_put]
    rcases Nat.lt_or_eq_of_le hn with hlt | rfl
    · -- a record
      rw [h.magic i hlt]
      obtain ⟨b', hscan, hstores⟩ :=
        ih (i + 1) (b.put 0 (load p.mem (i * p.increment) sizeofBootcounter)) (by omega) hlt
      exact ⟨b', hscan, fun st hst => (hstores st hst).elim (hput st) .inr⟩
    · rw [h.magic_blank (by omega)]
      exact ⟨_, rfl, hput⟩

/-! ### The new record -/

theorem length_newRecord (bigEndian : Bool) : (newRecord bigEndian).length = 12 := by
  simp [newRecord]

theorem take_written (b : Buffer) (hinc : 12 ≤ n) :
    (load ((b.memset 0 n 0xff).put 0 (newRecord bigEndian)).mem 0 n).take 12 =
      newRecord bigEndian := by
  have hself := @load_store_self _ (b.memset 0 n 0xff).mem 0 (newRecord bigEndian)
  rw [length_newRecord] at hself
  rw [take_load _ hinc]
  exact hself

/-- A log with a blank record behind it gets one more record, with count zero. -/
theorem ValidLog.writeRecord (h : ValidLog bigEndian p n) (hlt : n < p.numBc) (b : Buffer)
    (hok : p.writeFails = none) :
    ∃ part, BootCount.writeRecord bigEndian p b n =
        ⟨0, part, (b.memset 0 p.increment 0xff).put 0 (newRecord bigEndian)⟩ ∧
      ValidLog bigEndian part (n + 1) ∧ countAt bigEndian part n = 0 ∧
      ∀ a < n * p.increment, part.mem a = p.mem a := by
  have hinc := le_increment p
  have hroom : (n + 1) * p.increment ≤ p.numBc * p.increment := Nat.mul_le_mul_right _ hlt
  rw [Nat.succ_mul] at hroom
  obtain ⟨data, hdata⟩ :
      ∃ data, data = load ((b.memset 0 p.increment 0xff).put 0 (newRecord bigEndian)).mem 0
        p.increment := ⟨_, rfl⟩
  have hlen : data.length = p.increment := by rw [hdata, length_load]
  have hrecord : data.take 12 = newRecord bigEndian := by
    rw [hdata]
    exact take_written b (by omega)
  have hstored : load (program p.mem (n * p.increment) data) (n * p.increment) 12 =
      newRecord bigEndian := by
    have hall := @load_program_blank p.mem (n * p.increment) data
      fun k hk => h.blank _ (by omega) (by omega)
    rw [hlen] at hall
    rw [← take_load _ (show 12 ≤ p.increment by omega), hall, hrecord]
  have hmagic : load (program p.mem (n * p.increment) data) (n * p.increment) 4 =
      bytes bigEndian 4 bootcountMagic := by
    rw [← take_load _ (show 4 ≤ 12 by decide), hstored, newRecord, append_assoc,
      take_left' (length_bytes _ _ _)]
  have hcount : load (program p.mem (n * p.increment) data) (n * p.increment + 4) 4 =
      bytes bigEndian 4 0 := by
    rw [← take_load _ (show 4 ≤ 12 - 4 by decide), ← drop_load _ (show 4 ≤ 12 by decide), hstored,
      newRecord, append_assoc, drop_left' (length_bytes _ _ _),
      take_left' (length_bytes _ _ _)]
  refine ⟨{ p with mem := program p.mem (n * p.increment) data }, ?_, ⟨hlt, ?_, ?_⟩, ?_, ?_⟩
  · rw [hdata]
    unfold BootCount.writeRecord
    split
    next left hleft =>
      rw [hok] at hleft
      cases hleft
    · rfl
  · intro i hi
    rcases Nat.lt_or_eq_of_le (Nat.le_of_lt_succ hi) with hi | rfl
    · have hbelow : (i + 1) * p.increment ≤ n * p.increment := Nat.mul_le_mul_right _ hi
      rw [Nat.succ_mul] at hbelow
      have hsame : load (program p.mem (n * p.increment) data) (i * p.increment) 4 =
          load p.mem (i * p.increment) 4 := load_program_out (.inl (by omega))
      exact (congrArg _ hsame).trans (h.magic i hi)
    · exact (congrArg _ hmagic).trans (value_bytes _ (by decide))
  · intro a ha hend
    have ha' : n * p.increment + p.increment ≤ a := by rwa [← Nat.succ_mul]
    refine (program_out ?_).trans (h.blank a (by omega) hend)
    omega
  · exact (congrArg _ hcount).trans (value_bytes _ (by decide))
  · intro a ha
    exact program_out (.inl ha)

theorem ValidLog.erased (p : Partition) : ValidLog bigEndian p.erased 0 := by
  refine ⟨Nat.zero_le _, fun i hi => absurd hi (by omega), fun a _ ha => ?_⟩
  refine fill_in (Nat.zero_le a) ?_
  have hle : p.numBc * p.increment ≤ p.size := Nat.div_mul_le_self _ _
  rw [Nat.zero_add]
  exact Nat.lt_of_lt_of_le ha hle

/-! ### The reset -/

/-- What a reset should do to a log of `n` records: afterwards the log is empty or its last count
    is zero, the records are still there unless the log was full, and nothing was stored outside
    the buffer. -/
structure ResetRight (bigEndian : Bool) (p : Partition) (n : Nat) (r : Result) : Prop where
  effective : ∃ m, ValidLog bigEndian r.part m ∧ lastCount bigEndian r.part m = 0
  kept : n < p.numBc → ∀ a < n * p.increment, r.part.mem a = p.mem a
  inside : ∀ st ∈ r.buffer.stores, st.1 + st.2 ≤ pageSize

theorem writeFails_of_retval (h : (writeRecord bigEndian p b i).retval = 0) :
    p.writeFails = none := by
  unfold writeRecord at h
  split at h
  · cases h
  next hok => exact hok

/-- A reset that succeeds: there was nothing to do, or a record was appended, to the log or to
    an empty one. -/
theorem ValidLog.reset_cases (h : ValidLog bigEndian p n) {page : Nat → UInt8}
    (hret : (mtdResetbc bigEndian p page).retval = 0) :
    ∃ b : Buffer, (∀ st ∈ b.stores, st = (0, sizeofBootcounter)) ∧
      ((lastCount bigEndian p n = 0 ∧ mtdResetbc bigEndian p page = ⟨0, p, b⟩) ∨
        (lastCount bigEndian p n ≠ 0 ∧ ∃ part m, mtdResetbc bigEndian p page =
            ⟨0, part, (b.memset 0 p.increment 0xff).put 0 (newRecord bigEndian)⟩ ∧
          ValidLog bigEndian part (m + 1) ∧ countAt bigEndian part m = 0 ∧
          (n < p.numBc → ∀ a < n * p.increment, part.mem a = p.mem a))) := by
  obtain ⟨b, hscan, hstores⟩ :=
    h.scanLog p.numBc 0 ⟨page, []⟩ (by omega) (Nat.zero_le n)
  refine ⟨b, fun st hst => (hstores st hst).resolve_left not_mem_nil, ?_⟩
  rw [show lastCount bigEndian p 0 = 0 from rfl] at hscan
  unfold mtdResetbc at hret ⊢
  rw [hscan] at hret ⊢
  dsimp only at hret ⊢
  by_cases hzero : lastCount bigEndian p n = 0
  · rw [if_pos hzero]
    exact .inl ⟨hzero, rfl⟩
  rw [if_neg hzero] at hret ⊢
  refine .inr ⟨hzero, ?_⟩
  by_cases hfull : n = p.numBc
  · -- the log is full: it is erased, and the record is the first one
    rw [if_pos hfull] at hret ⊢
    have hpos : 0 < p.numBc := by
      rw [← hfull]
      exact Nat.pos_of_ne_zero fun hn => hzero (by rw [hn]; rfl)
    cases herase : p.eraseFails with
    | some left =>
      rw [herase] at hret
      cases hret
    | none =>
      rw [herase] at hret
      obtain ⟨part, heq, hvalid, hcount, -⟩ :=
        (ValidLog.erased p).writeRecord hpos b (writeFails_of_retval hret)
      exact ⟨part, 0, heq, hvalid, hcount, fun hlt => absurd hfull (by omega)⟩
  · rw [if_neg hfull] at hret ⊢
    have hlt : n < p.numBc := Nat.lt_of_le_of_ne h.le hfull
    obtain ⟨part, heq, hvalid, hcount, hkept⟩ :=
      h.writeRecord hlt b (writeFails_of_retval hret)
    exact ⟨part, n, heq, hvalid, hcount, fun _ => hkept⟩

theorem increment_le_iff (p : Partition) : p.increment ≤ pageSize ↔ p.writesize ≤ pageSize := by
  unfold Partition.increment pageSize
  split <;> omega

/-- **Resetting the counter.**  A reset of a log that succeeds does what it should exactly if the
    write size is not larger than the buffer, or there was nothing to reset. -/
theorem mtdResetbc_right_iff {page : Nat → UInt8} (h : ValidLog bigEndian p n)
    (hret : (mtdResetbc bigEndian p page).retval = 0) :
    ResetRight bigEndian p n (mtdResetbc bigEndian p page) ↔
      p.writesize ≤ pageSize ∨ lastCount bigEndian p n = 0 := by
  have hsmall : sizeofBootcounter ≤ pageSize := by decide
  obtain ⟨b, hstores, hcases⟩ := h.reset_cases hret
  rcases hcases with ⟨hzero, heq⟩ | ⟨hne, part, m, heq, hvalid, hcount, hkept⟩
  · rw [heq]
    refine iff_of_true ⟨⟨n, h, hzero⟩, fun _ _ _ => rfl, fun st hst => ?_⟩ (.inr hzero)
    rw [hstores st hst]
    exact hsmall
  · rw [heq, or_iff_left hne, ← increment_le_iff]
    constructor
    · intro hright
      have hmem := hright.inside (0, p.increment) (by simp [Buffer.put, Buffer.memset])
      rwa [Nat.zero_add] at hmem
    · intro hle
      refine ⟨⟨m + 1, hvalid, hcount⟩, hkept, fun st hst => ?_⟩
      simp only [Buffer.put, Buffer.memset, mem_append, mem_singleton] at hst
      rcases hst with (hst | rfl) | rfl
      · rw [hstores st hst]
        exact hsmall
      · rw [Nat.zero_add]
        exact hle
      · rw [length_newRecord]
        exact hsmall

/-- A partition that holds one record with count 3, on a little-endian machine. -/
def oneBoot (size writesize : Nat) (h : size < 0x100000000) : Partition where
  size := size
  writesize := writesize
  mem a := ([0x11, 0x08, 0x11, 0x20, 3, 0, 0, 0, 0x14, 0x08, 0x11, 0x20] : List UInt8).getD a 0xff
  eraseFails := none
  writeFails := none
  size_lt := h

theorem validLog_oneBoot {size writesize : Nat} {h : size < 0x100000000}
    (hsize : 0 < (oneBoot size writesize h).numBc) :
    ValidLog false (oneBoot size writesize h) 1 := by
  refine ⟨hsize, fun i hi => ?_, fun a ha _ => ?_⟩
  · obtain rfl : i = 0 := by omega
    rw [Nat.zero_mul]
    change value false [0x11, 0x08, 0x11, 0x20] = bootcountMagic
    decide
  · have hinc := le_increment (oneBoot size writesize h)
    have hlen : 12 ≤ a := by omega
    unfold oneBoot
    dsimp only
    rw [getD_eq_getElem?_getD, getElem?_eq_none (hlen)]
    rfl

/-- A small device with records of 16 bytes. -/
theorem mtdResetbc_right_small :
    ResetRight false (oneBoot 64 1 (by decide)) 1
      (mtdResetbc false (oneBoot 64 1 (by decide)) fun _ => 0) :=
  (mtdResetbc_right_iff (validLog_oneBoot (by decide)) (by decide)).mpr (.inl (by decide))

/-- With pages of 4096 bytes, as many are filled in the buffer of 2048. -/
theorem not_mtdResetbc_right_large :
    ValidLog false (oneBoot 0x20000 4096 (by decide)) 1 ∧
      (mtdResetbc false (oneBoot 0x20000 4096 (by decide)) fun _ => 0).retval = 0 ∧
      (0, 4096) ∈ (mtdResetbc false (oneBoot 0x20000 4096 (by decide)) fun _ => 0).buffer.stores ∧
      ¬ ResetRight false (oneBoot 0x20000 4096 (by decide)) 1
        (mtdResetbc false (oneBoot 0x20000 4096 (by decide)) fun _ => 0) := by
  have hstores : (0, 4096) ∈
      (mtdResetbc false (oneBoot 0x20000 4096 (by decide)) fun _ => 0).buffer.stores := by
    decide
  refine ⟨validLog_oneBoot (by decide), by decide, hstores, fun h => ?_⟩
  exact absurd (h.inside _ hstores) (by decide)

end Rooter.BootCount
