import Rooter.ByteOrder
import Rooter.Memory

/-!
# Tags and packed data of RouterBoot

Model of `routerboot.c`.  The configuration on the flash is a list of tags: a word with an id in
its low half and a length in its high half, and so many bytes behind it, rounded up to words.  A
word that is zero ends the list.  `routerboot_tag_find` goes through the list to the first tag with
an id, and never compares the length with what is left of the buffer.

`routerboot_rle_decode` unpacks data: a byte up to 127 is a number of copies of the byte behind
it, and any other byte is minus the number of bytes that are copied as they are.
-/

namespace Rooter.RouterBoot

open List Memory ByteOrder

/-! ### Tags -/

section Tags

variable (bigEndian : Bool) (mem : Nat → UInt8) (buflen tagId : Nat)

def node (ofs : Nat) : Nat := value bigEndian (load mem ofs 4)

/-- `ALIGN(len, sizeof(*datum))`, in 16 bits. -/
def align (len : Nat) : Nat := (len + 3) / 4 * 4 % 0x10000

def tagLoop (ofs : Nat) : Option (Nat × Nat) :=
  if ofs < buflen then
    let node := node bigEndian mem ofs
    if node = 0 then none
    else if node % 0x10000 = tagId then
      if ofs + 4 < buflen then some ((ofs + 4) % 0x10000, node / 0x10000) else none
    else tagLoop (ofs + 4 + align (node / 0x10000))
  else none
termination_by buflen - ofs

def tagFind : Except Int (Nat × Nat) :=
  if tagId = 0 then .error (-22)
  else
    match tagLoop bigEndian mem buflen tagId 0 with
    | some pld => .ok pld
    | none => .error (-2)

/-- Where the tags begin, from `ofs` on. -/
def tags (ofs : Nat) : List Nat :=
  if ofs < buflen then
    let node := node bigEndian mem ofs
    if node = 0 then [] else ofs :: tags (ofs + 4 + align (node / 0x10000))
  else []
termination_by buflen - ofs

def firstTag : Option Nat :=
  (tags bigEndian mem buflen 0).find? fun ofs => node bigEndian mem ofs % 0x10000 = tagId

/-- The payload is that of a tag with the id, and in the buffer. -/
def PayloadInside (pldOfs pldLen : Nat) : Prop :=
  ∃ ofs ∈ tags bigEndian mem buflen 0, node bigEndian mem ofs % 0x10000 = tagId ∧
    pldOfs = ofs + 4 ∧ pldLen = node bigEndian mem ofs / 0x10000 ∧ pldOfs + pldLen ≤ buflen

/-- The first tag with the id has its payload in the buffer, at an offset of 16 bits. -/
def TagFits : Prop :=
  tagId = 0 ∨ ∀ ofs, firstTag bigEndian mem buflen tagId = some ofs → ofs + 4 < buflen →
    ofs + 4 < 0x10000 ∧ ofs + 4 + node bigEndian mem ofs / 0x10000 ≤ buflen

variable {bigEndian mem buflen tagId}

theorem tagLoop_eq (ofs : Nat) : tagLoop bigEndian mem buflen tagId ofs =
    ((tags bigEndian mem buflen ofs).find? fun ofs =>
      node bigEndian mem ofs % 0x10000 = tagId).bind fun ofs =>
        if ofs + 4 < buflen then
          some ((ofs + 4) % 0x10000, node bigEndian mem ofs / 0x10000)
        else none := by
  fun_induction tagLoop bigEndian mem buflen tagId ofs with
  | case1 ofs hlt node hzero => rw [tags]; simp [node, hzero]
  | case2 ofs hlt node hzero hid hroom =>
    rw [tags, if_pos hlt, if_neg hzero, find?_cons_of_pos (by simpa using hid)]
    simp [hroom, node]
  | case3 ofs hlt node hzero hid hroom =>
    rw [tags, if_pos hlt, if_neg hzero, find?_cons_of_pos (by simpa using hid)]
    simp [hroom]
  | case4 ofs hlt node hzero hid ih =>
    rw [tags, if_pos hlt, if_neg hzero, find?_cons_of_neg (by simpa using hid)]
    exact ih
  | case5 ofs hlt => rw [tags, if_neg hlt]; rfl

theorem tagFind_eq_ok (hid : tagId ≠ 0) {pldOfs pldLen : Nat} :
    tagFind bigEndian mem buflen tagId = .ok (pldOfs, pldLen) ↔
      ∃ ofs, firstTag bigEndian mem buflen tagId = some ofs ∧ ofs + 4 < buflen ∧
        pldOfs = (ofs + 4) % 0x10000 ∧ pldLen = node bigEndian mem ofs / 0x10000 := by
  unfold tagFind
  rw [if_neg hid, tagLoop_eq, ← firstTag]
  cases firstTag bigEndian mem buflen tagId with
  | none => simp
  | some ofs =>
    by_cases hroom : ofs + 4 < buflen
    · simp [hroom, eq_comm]
    · simp [hroom]

variable (bigEndian mem buflen) in
theorem pairwise_tags (ofs : Nat) : (tags bigEndian mem buflen ofs).Pairwise (· < ·) ∧
    ∀ p ∈ tags bigEndian mem buflen ofs, ofs ≤ p := by
  fun_induction tags bigEndian mem buflen ofs with
  | case1 => simp
  | case2 ofs hlt node hzero ih =>
    refine ⟨pairwise_cons.mpr ⟨fun p hp => ?_, ih.1⟩, forall_mem_cons.mpr ⟨Nat.le_refl _, ?_⟩⟩
    · have hle := ih.2 p hp
      omega
    · intro p hp
      have hle := ih.2 p hp
      omega
  | case3 => simp

/-- No tag with the id stands in front of the first one. -/
theorem firstTag_le {ofs p : Nat} (h : firstTag bigEndian mem buflen tagId = some ofs)
    (hp : p ∈ tags bigEndian mem buflen 0) (hid : node bigEndian mem p % 0x10000 = tagId) :
    ofs ≤ p := by
  obtain ⟨-, before, after, htags, hbefore⟩ := find?_eq_some_iff_append.mp h
  have hsorted := (pairwise_tags bigEndian mem buflen 0).1
  rw [htags] at hp hsorted
  rcases mem_append.mp hp with hp | hp
  · have hne := hbefore p hp
    simp [hid] at hne
  · rcases mem_cons.mp hp with rfl | hp
    · exact Nat.le_refl _
    · exact Nat.le_of_lt ((pairwise_cons.mp (pairwise_append.mp hsorted).2.1).1 p hp)

end Tags

/-! ### A list of tags -/

/-- A tag with its payload and the bytes that round it up to words. -/
structure Record where
  id : Nat
  payload : List UInt8
  pad : List UInt8
  id_ne : id ≠ 0
  id_lt : id < 0x10000
  length_le : payload.length ≤ 0xfffc
  length_pad : payload.length + pad.length = (payload.length + 3) / 4 * 4

def Record.encode (bigEndian : Bool) (r : Record) : List UInt8 :=
  bytes bigEndian 4 (r.id + 0x10000 * r.payload.length) ++ (r.payload ++ r.pad)

section Records

variable {bigEndian : Bool} {mem : Nat → UInt8} {buflen tagId : Nat} {tail : List UInt8}

theorem node_of_load {n w ofs : Nat} (hw : w < 0x100000000)
    (h : load mem ofs n = bytes bigEndian 4 w ++ tail) : node bigEndian mem ofs = w := by
  have hn : 4 ≤ n := by
    have hlen := congrArg length h
    simp only [length_load, length_append, length_bytes] at hlen
    omega
  unfold node
  rw [← take_load mem hn, h, take_left' (length_bytes ..)]
  exact value_bytes bigEndian hw

variable (bigEndian) in
theorem Record.length_encode (r : Record) : (r.encode bigEndian).length =
    4 + align r.payload.length := by
  have hle := r.length_le
  have hpad := r.length_pad
  unfold encode align
  simp only [length_append, length_bytes]
  omega

theorem Record.node_eq {r : Record} {n ofs : Nat}
    (h : load mem ofs n = r.encode bigEndian ++ tail) :
    node bigEndian mem ofs = r.id + 0x10000 * r.payload.length := by
  have hlt := r.id_lt
  have hle := r.length_le
  rw [encode, append_assoc] at h
  exact node_of_load (by omega) h

theorem tagLoop_skip (before : List Record) : ∀ ofs n, ofs + n = buflen →
    load mem ofs n = before.flatMap (Record.encode bigEndian) ++ tail →
    (∀ r ∈ before, r.id ≠ tagId) →
    tagLoop bigEndian mem buflen tagId ofs =
        tagLoop bigEndian mem buflen tagId
          (ofs + (before.flatMap (Record.encode bigEndian)).length) ∧
      load mem (ofs + (before.flatMap (Record.encode bigEndian)).length)
        (n - (before.flatMap (Record.encode bigEndian)).length) = tail := by
  induction before with
  | nil => intro ofs n _ h _; exact ⟨rfl, h⟩
  | cons r before ih =>
    intro ofs n hn h hids
    rw [flatMap_cons, append_assoc] at h
    have hlen : (r.encode bigEndian).length ≤ n := by
      have hlen := congrArg length h
      rw [length_load, length_append] at hlen
      omega
    have hnode := Record.node_eq h
    have hsize := r.length_encode bigEndian
    have hid := (forall_mem_cons.mp hids).1
    have hrest : load mem (ofs + (r.encode bigEndian).length) (n - (r.encode bigEndian).length) =
        before.flatMap (Record.encode bigEndian) ++ tail := by
      rw [← drop_load mem hlen, h, drop_left]
    obtain ⟨hloop, htail⟩ := ih _ _ (by omega) hrest (forall_mem_cons.mp hids).2
    have hne := r.id_ne
    have hlt := r.id_lt
    rw [flatMap_cons, length_append, ← Nat.add_assoc, ← Nat.sub_sub]
    refine ⟨?_, htail⟩
    rw [← hloop, tagLoop, if_pos (by omega), hnode, if_neg (by omega), if_neg (by omega), hsize,
      Nat.add_mul_div_left _ _ (by decide), Nat.div_eq_of_lt hlt, Nat.zero_add, Nat.add_assoc]

/-- **The first tag.**  In a list of tags with a zero word behind it, in a buffer of at most 64 KiB,
    the first tag with an id is found, and nothing if there is none. -/
theorem tagFind_first {records : List Record} (hid : tagId ≠ 0) (hsize : buflen ≤ 0x10000)
    (h : load mem 0 buflen =
      records.flatMap (Record.encode bigEndian) ++ (bytes bigEndian 4 0 ++ tail)) :
    (∀ before r after, records = before ++ r :: after → (∀ b ∈ before, b.id ≠ tagId) →
      r.id = tagId → tagFind bigEndian mem buflen tagId =
        .ok ((before.flatMap (Record.encode bigEndian)).length + 4, r.payload.length)) ∧
    ((∀ r ∈ records, r.id ≠ tagId) → tagFind bigEndian mem buflen tagId = .error (-2)) := by
  have hlen := congrArg length h
  rw [length_load] at hlen
  unfold tagFind
  rw [if_neg hid]
  refine ⟨?_, fun hids => ?_⟩
  · rintro before r after rfl hbefore rfl
    rw [flatMap_append, flatMap_cons, append_assoc, append_assoc] at h
    obtain ⟨hloop, htail⟩ := tagLoop_skip before 0 buflen (Nat.zero_add _) h hbefore
    have hnode := Record.node_eq htail
    have hlt := r.id_lt
    have henc := r.length_encode bigEndian
    simp only [flatMap_append, flatMap_cons, length_append, length_bytes] at hlen
    rw [hloop, tagLoop, if_pos (by omega), hnode, if_neg (by omega), if_pos (by omega),
      if_pos (by omega), Nat.zero_add, Nat.mod_eq_of_lt (by omega),
      Nat.add_mul_div_left _ _ (by decide), Nat.div_eq_of_lt hlt, Nat.zero_add]
  · obtain ⟨hloop, htail⟩ := tagLoop_skip records 0 buflen (Nat.zero_add _) h hids
    have hnode := node_of_load (by decide) htail
    simp only [length_append, length_bytes] at hlen
    rw [hloop, tagLoop, if_pos (by omega), hnode, if_pos rfl]

/-- Three tags, of which two have the id 5. -/
def sampleRecords : List Record :=
  [⟨3, [9, 9], [0, 0], by decide, by decide, by decide, by decide⟩,
    ⟨5, [1, 2, 3], [0], by decide, by decide, by decide, by decide⟩,
    ⟨5, [7, 7, 7, 7], [], by decide, by decide, by decide, by decide⟩]

def sampleBytes (i : Nat) : UInt8 :=
  [3, 0, 2, 0, 9, 9, 0, 0, 5, 0, 3, 0, 1, 2, 3, 0, 5, 0, 4, 0, 7, 7, 7, 7, 0, 0, 0, 0].getD i 0

/-- The tag behind the first one is found, and not the one behind it. -/
theorem tagFind_first_sample :
    load sampleBytes 0 28 =
      sampleRecords.flatMap (Record.encode false) ++ (bytes false 4 0 ++ []) ∧
    tagFind false sampleBytes 28 5 = .ok (12, 3) ∧
      tagFind false sampleBytes 28 4 = .error (-2) := by
  have hbytes : load sampleBytes 0 28 =
      sampleRecords.flatMap (Record.encode false) ++ (bytes false 4 0 ++ []) := by decide
  refine ⟨hbytes, ?_, ?_⟩
  · exact (tagFind_first (by decide) (by decide) hbytes).1 (sampleRecords.take 1) _ _ rfl
      (by decide) rfl
  · exact (tagFind_first (by decide) (by decide) hbytes).2 (by decide)

end Records

/-! ### Packed data -/

/-- What `routerboot_rle_decode` returns, the size it reports, what it has written, and the number
    of bytes it has read. -/
structure Unpacked where
  ret : Int
  outlen : Nat
  out : List UInt8
  read : Nat
deriving DecidableEq

section Rle

variable (width : Nat) (inp : Nat → UInt8) (outlen : Nat)

/-- An `int`, given by its 32 bits, as a number of `size_t`. -/
def toSize (n : Nat) : Nat := if n < 0x80000000 then n else n + 2 ^ width - 0x100000000

/-- The loop; `nbytes` has 32 bits. -/
def rleLoop (pos inlen nbytes : Nat) (out : List UInt8) : Unpacked :=
  if 2 ≤ inlen then
    let run := (inp pos).toNat
    if 0x80 ≤ run then
      let run := 0x100 - run
      if inlen - 1 < run then ⟨-28, toSize width nbytes, out, pos + 1⟩
      else
        let nbytes := (nbytes + run) % 0x100000000
        if outlen < toSize width nbytes then ⟨-28, toSize width nbytes, out, pos + 1⟩
        else rleLoop (pos + 1 + run) (inlen - 1 - run) nbytes (out ++ load inp (pos + 1) run)
    else
      let nbytes := (nbytes + run) % 0x100000000
      if outlen < toSize width nbytes then ⟨-28, toSize width nbytes, out, pos + 2⟩
      else rleLoop (pos + 2) (inlen - 2) nbytes (out ++ replicate run (inp (pos + 1)))
  else ⟨0, toSize width nbytes, out, pos⟩
termination_by inlen

/-- `routerboot_rle_decode`, with buffers that are there. -/
def rleDecode (inlen : Nat) : Unpacked :=
  if inlen < 2 then ⟨-22, outlen, [], 0⟩ else rleLoop width inp outlen 0 inlen 0 []

end Rle

/-- A part of packed data. -/
inductive Segment where
  | run (n : Fin 127) (byte : UInt8)
  | literal (bytes : List UInt8) (pos : 0 < bytes.length) (le : bytes.length ≤ 128)

namespace Segment

def encode : Segment → List UInt8
  | run n byte => [UInt8.ofNat (n + 1), byte]
  | literal bytes _ _ => UInt8.ofNat (0x100 - bytes.length) :: bytes

def data : Segment → List UInt8
  | run n byte => replicate (n + 1) byte
  | literal bytes _ _ => bytes

end Segment

section Unpacking

variable {width : Nat} {inp : Nat → UInt8} {outlen : Nat}

/-- A number that has overflowed is larger than any buffer. -/
theorem toSize_le_iff (hwidth : 32 ≤ width) (hout : outlen < 2 ^ (width - 1)) {n : Nat} :
    toSize width n ≤ outlen ↔ n < 0x80000000 ∧ n ≤ outlen := by
  have hpow : 2 ^ 31 ≤ 2 ^ (width - 1) := Nat.pow_le_pow_right (by decide) (by omega)
  have hdouble : 2 ^ width = 2 ^ (width - 1) * 2 := by
    rw [← Nat.pow_succ, Nat.succ_eq_add_one, Nat.sub_add_cancel (by omega)]
  unfold toSize
  split <;> omega

variable (inp) in
theorem rleLoop_bounds (hwidth : 32 ≤ width) (hout : outlen < 2 ^ (width - 1))
    (pos inlen nbytes : Nat) (out : List UInt8) (hlen : out.length = nbytes)
    (hsmall : nbytes < 0x80000000) (hle : nbytes ≤ outlen) :
    (rleLoop width inp outlen pos inlen nbytes out).read ≤ pos + inlen ∧
      (rleLoop width inp outlen pos inlen nbytes out).out.length ≤ outlen := by
  fun_induction rleLoop width inp outlen pos inlen nbytes out with
  | case1 pos inlen nbytes out htwo run hlit run' hshort => exact ⟨by dsimp only; omega, hlen ▸ hle⟩
  | case2 pos inlen nbytes out htwo run hlit run' hfits nbytes' hfull =>
    exact ⟨by dsimp only; omega, hlen ▸ hle⟩
  | case3 pos inlen nbytes out htwo run hlit run' hfits nbytes' hroom ih =>
    have hbyte := (inp pos).toNat_lt
    obtain ⟨hsmall', hle'⟩ := (toSize_le_iff hwidth hout).mp (Nat.not_lt.mp hroom)
    have hbounds := ih (by rw [length_append, length_load]; omega) hsmall' hle'
    exact ⟨by omega, hbounds.2⟩
  | case4 pos inlen nbytes out htwo run hrun nbytes' hfull =>
    exact ⟨by dsimp only; omega, hlen ▸ hle⟩
  | case5 pos inlen nbytes out htwo run hrun nbytes' hroom ih =>
    obtain ⟨hsmall', hle'⟩ := (toSize_le_iff hwidth hout).mp (Nat.not_lt.mp hroom)
    have hbounds := ih (by rw [length_append, length_replicate]; omega) hsmall' hle'
    exact ⟨by omega, hbounds.2⟩
  | case6 pos inlen nbytes out htwo => exact ⟨by dsimp only; omega, hlen ▸ hle⟩

variable {tail : List UInt8} {out : List UInt8} {pos inlen nbytes : Nat}

variable (width outlen out) in
theorem rleLoop_segment (seg : Segment) (h : load inp pos inlen = seg.encode ++ tail)
    (hsmall : nbytes < 0x80000000) :
    (toSize width (nbytes + seg.data.length) ≤ outlen →
      rleLoop width inp outlen pos inlen nbytes out =
        rleLoop width inp outlen (pos + seg.encode.length) (inlen - seg.encode.length)
          (nbytes + seg.data.length) (out ++ seg.data)) ∧
    (outlen < toSize width (nbytes + seg.data.length) →
      (rleLoop width inp outlen pos inlen nbytes out).ret = -28) := by
  have hlen := congrArg length h
  rw [length_load, length_append] at hlen
  cases seg with
  | run n byte =>
    have hn := n.isLt
    obtain ⟨hrun, hrest⟩ := load_eq_cons h
    obtain ⟨hbyte, -⟩ := load_eq_cons hrest
    have hrun : (inp pos).toNat = n + 1 := by
      rw [hrun, UInt8.toNat_ofNat', Nat.mod_eq_of_lt (by omega)]
    simp only [Segment.encode, Segment.data, length_cons, length_nil, length_replicate] at hlen ⊢
    rw [rleLoop, if_pos (by omega)]
    dsimp only
    rw [hrun, if_neg (by omega), hbyte, Nat.mod_eq_of_lt (by omega)]
    exact ⟨fun hroom => if_neg (by omega), fun hfull => by rw [if_pos hfull]⟩
  | literal bytes hpos hle =>
    obtain ⟨hrun, hrest⟩ := load_eq_cons h
    have hrun : (inp pos).toNat = 0x100 - bytes.length := by
      rw [hrun, UInt8.toNat_ofNat', Nat.mod_eq_of_lt (by omega)]
    simp only [Segment.encode, Segment.data, length_cons] at hlen ⊢
    have hcopy : load inp (pos + 1) bytes.length = bytes := by
      rw [← take_load inp (n := inlen - 1) (by omega), hrest]
      exact take_left
    rw [rleLoop, if_pos (by omega)]
    dsimp only
    rw [hrun, if_pos (by omega), show 0x100 - (0x100 - bytes.length) = bytes.length by omega,
      if_neg (by omega), hcopy, Nat.mod_eq_of_lt (by omega), Nat.add_comm bytes.length 1,
      ← Nat.add_assoc, ← Nat.sub_sub]
    exact ⟨fun hroom => if_neg (by omega), fun hfull => by rw [if_pos hfull]⟩

theorem rleLoop_segments (hwidth : 32 ≤ width) (hout : outlen < 2 ^ (width - 1))
    (segs : List Segment) : ∀ pos inlen nbytes out,
    load inp pos inlen = segs.flatMap Segment.encode → nbytes < 0x80000000 →
    nbytes + (segs.flatMap Segment.data).length ≤ outlen →
    rleLoop width inp outlen pos inlen nbytes out =
        ⟨0, nbytes + (segs.flatMap Segment.data).length, out ++ segs.flatMap Segment.data,
          pos + inlen⟩ ∧ nbytes + (segs.flatMap Segment.data).length < 0x80000000 ∨
      (rleLoop width inp outlen pos inlen nbytes out).ret = -28 ∧
        0x80000000 ≤ nbytes + (segs.flatMap Segment.data).length := by
  induction segs with
  | nil =>
    intro pos inlen nbytes out h hsmall hle
    have hlen := congrArg length h
    rw [length_load] at hlen
    obtain rfl : inlen = 0 := hlen
    refine .inl ⟨?_, hsmall⟩
    rw [rleLoop, toSize, if_pos hsmall, flatMap_nil, append_nil]
    rfl
  | cons seg segs ih =>
    intro pos inlen nbytes out h hsmall hle
    rw [flatMap_cons] at h
    rw [flatMap_cons, length_append, ← Nat.add_assoc] at hle ⊢
    have hstep := rleLoop_segment width outlen out seg h hsmall
    by_cases hroom : toSize width (nbytes + seg.data.length) ≤ outlen
    · have hlen := congrArg length h
      rw [length_load, length_append] at hlen
      have hrest : load inp (pos + seg.encode.length) (inlen - seg.encode.length) =
          segs.flatMap Segment.encode := by
        rw [← drop_load inp (by omega), h, drop_left]
      have hnext := ih _ _ _ (out ++ seg.data) hrest ((toSize_le_iff hwidth hout).mp hroom).1 hle
      rwa [← hstep.1 hroom, append_assoc, Nat.add_assoc pos,
        Nat.add_sub_cancel' (by omega)] at hnext
    · refine .inr ⟨hstep.2 (by omega), ?_⟩
      rw [toSize_le_iff hwidth hout] at hroom
      omega

theorem two_le_encode (seg : Segment) : 2 ≤ seg.encode.length := by
  cases seg with
  | run n byte => exact Nat.le_refl 2
  | literal bytes hpos hle => exact Nat.succ_le_succ hpos

/-- **Unpacking.**  Any input is read no further than its end, and the buffer is not left.  Packed
    data are unpacked as a whole exactly if they are less than 2 GiB, where the number of bytes
    does not overflow; with a `size_t` of 32 bits no buffer is as large. -/
theorem rleDecode_iff (hwidth : 32 ≤ width) (hout : outlen < 2 ^ (width - 1)) :
    (∀ inlen, (rleDecode width inp outlen inlen).read ≤ inlen ∧
      (rleDecode width inp outlen inlen).out.length ≤ outlen) ∧
    ∀ (segs : List Segment) inlen, segs ≠ [] → load inp 0 inlen = segs.flatMap Segment.encode →
      (segs.flatMap Segment.data).length ≤ outlen →
      (rleDecode width inp outlen inlen =
          ⟨0, (segs.flatMap Segment.data).length, segs.flatMap Segment.data, inlen⟩ ↔
        (segs.flatMap Segment.data).length < 0x80000000) := by
  refine ⟨fun inlen => ?_, fun segs inlen hne h hle => ?_⟩
  · unfold rleDecode
    split
    · exact ⟨Nat.zero_le _, Nat.zero_le _⟩
    · have hbounds := rleLoop_bounds inp hwidth hout 0 inlen 0 [] rfl (by decide)
        (Nat.zero_le _)
      rwa [Nat.zero_add] at hbounds
  · have htwo : 2 ≤ inlen := by
      obtain ⟨seg, segs, rfl⟩ := exists_cons_of_ne_nil hne
      have hlen := congrArg length h
      have hseg := two_le_encode seg
      rw [length_load, flatMap_cons, length_append] at hlen
      omega
    unfold rleDecode
    rw [if_neg (by omega)]
    have hloop := rleLoop_segments hwidth hout segs 0 inlen 0 [] h (by decide) (by omega)
    rw [Nat.zero_add, Nat.zero_add] at hloop
    rcases hloop with ⟨hloop, hlt⟩ | ⟨hret, hlarge⟩
    · exact iff_of_true hloop hlt
    · refine iff_of_false (fun heq => ?_) (by omega)
      rw [heq] at hret
      cases hret

/-- Two zero bytes and three others. -/
theorem rleDecode_iff_sample :
    rleDecode 32 (fun i => [2, 0, 0xfd, 1, 2, 3].getD i 0) 8 6 = ⟨0, 5, [0, 0, 1, 2, 3], 6⟩ :=
  ((rleDecode_iff (by decide) (by decide)).2
    [.run 1 0, .literal [1, 2, 3] (by decide) (by decide)] 6 (by simp) (by decide)
    (by decide)).mpr (by decide)

/-! ### Two gigabytes of zeros -/

def packedZeros (i : Nat) : UInt8 := if i % 2 = 0 then 127 else 0

theorem load_packedZeros (n : Nat) : ∀ i, load packedZeros (2 * i) (2 * n) =
    (replicate n (Segment.run 126 0)).flatMap Segment.encode := by
  induction n with
  | zero => exact fun _ => rfl
  | succ n ih =>
    intro i
    rw [replicate_succ, flatMap_cons, ← ih (i + 1), Nat.mul_succ, load, load]
    have heven : packedZeros (2 * i) = 127 := if_pos (by omega)
    have hodd : packedZeros (2 * i + 1) = 0 := if_neg (by omega)
    rw [heven, hodd]
    rfl

theorem length_zeros (n : Nat) :
    ((replicate n (Segment.run 126 0)).flatMap Segment.data).length = n * 127 := by
  simp only [length_flatMap, map_replicate, sum_replicate_nat, Segment.data, length_replicate]
  rfl

theorem rleDecode_zeros {n : Nat} (hlarge : 0x80000000 ≤ n * 127) (hsmall : n * 127 < 2 ^ 63) :
    (rleDecode 64 packedZeros (n * 127) (2 * n)).ret = -28 := by
  have hloop := rleLoop_segments (show 32 ≤ 64 by decide) hsmall
    (replicate n (.run 126 0)) 0 (2 * n) 0 [] (load_packedZeros n 0) (by decide)
    (Nat.le_of_eq (by rw [length_zeros, Nat.zero_add]))
  rw [length_zeros] at hloop
  unfold rleDecode
  rw [if_neg (by omega)]
  rcases hloop with ⟨-, hlt⟩ | ⟨hret, -⟩
  · omega
  · exact hret

/-- On a machine of 64 bits, 16909321 runs of 127 zeros are refused by a buffer for all of them. -/
theorem not_rleDecode_zeros :
    (rleDecode 64 packedZeros (16909321 * 127) (2 * 16909321)).ret = -28 ∧
      load packedZeros (2 * 0) (2 * 16909321) =
        (replicate 16909321 (Segment.run 126 0)).flatMap Segment.encode ∧
      ((replicate 16909321 (Segment.run 126 0)).flatMap Segment.data).length = 16909321 * 127 :=
  ⟨rleDecode_zeros (by decide) (by decide), load_packedZeros _ 0, length_zeros _⟩

end Unpacking

end Rooter.RouterBoot
