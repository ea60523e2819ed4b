import Rooter.Bcm4908Image
import Rooter.Crc32Period
import Rooter.Execution

/-!
# `bcm4908img create`

An image is put together from files (`-f`) and from zeros that fill it up to a multiple of an
alignment (`-a`) or to an offset (`-A`).  The checksum of the files is kept in a variable and
written into the tail at the end; the zeros are not part of it.

Writing does not fail.  `size_t` and `long` have the same width.
-/

namespace Rooter.Bcm4908

open List Memory Execution

variable {w : Nat}

/-! ### The command -/

/-- An option; a number is what `strtol` reads. -/
inductive Opt (w : Nat) where
  | f (content : Option (List UInt8)) -- a file that cannot be opened has no content
  | a (alignment : BitVec w)
  | A (offset : BitVec w)

structure Create (w : Nat) where
  out : List UInt8
  curOffset : BitVec w
  crc32 : BitVec 32

def appendFileLoop : Nat → List UInt8 → List UInt8 → BitVec 32 → BitVec w →
    List UInt8 × BitVec 32 × BitVec w
  | 0, _, out, crc, length => (out, crc, length)
  | fuel + 1, content, out, crc, length =>
      let buf := content.take 1024
      if buf.length = 0 then (out, crc, length)
      else
        appendFileLoop fuel (content.drop 1024) (out ++ buf) (crc32 crc buf)
          (length + BitVec.ofNat w buf.length)

/-- `bcm4908img_create_append_zeros`: the file and the result, which is negative for an error;
    `canAlloc` tells whether `malloc` finds the memory. -/
def createAppendZeros (canAlloc : BitVec w → Bool) (out : List UInt8) (length : BitVec w) :
    List UInt8 × BitVec w :=
  if canAlloc length then (out ++ replicate length.toNat 0, length)
  else (out, BitVec.ofInt w (-12)) -- ENOMEM

/-- `bcm4908img_create_align`; a remainder by zero has no result. -/
def createAlign (canAlloc : BitVec w → Bool) (out : List UInt8) (curOffset alignment : BitVec w) :
    Option (List UInt8 × BitVec w) :=
  if curOffset &&& (alignment - 1#w) ≠ 0#w then
    if alignment = 0#w then none
    else some (createAppendZeros canAlloc out (alignment - curOffset % alignment))
  else some (out, 0#w)

def Create.advance (s : Create w) (bytes : BitVec w) : Create w :=
  if bytes.toInt < 0 then s else { s with curOffset := s.curOffset + bytes }

def Create.step (canAlloc : BitVec w → Bool) (s : Create w) : Opt w → Option (Create w)
  | .f none => some s
  | .f (some content) =>
      let (out, crc, bytes) := appendFileLoop content.length content s.out s.crc32 0#w
      some ({ s with out := out, crc32 := crc }.advance bytes)
  | .a alignment => do
      let (out, bytes) ← createAlign canAlloc s.out s.curOffset alignment
      some ({ s with out := out }.advance bytes)
  | .A offset =>
      let bytes := offset - s.curOffset
      if bytes.toInt < 0 then some s
      else
        let (out, bytes) := createAppendZeros canAlloc s.out bytes
        some ({ s with out := out }.advance bytes)

def Create.initial : Create w := ⟨[], 0#w, 0xffffffff#32⟩

/-- The tail with `WFI_VERSION`, `WFI_NAND128_FLASH` and `WFI_FLAG_SUPPORTS_BTRM` -/
def createTail (crc : BitVec 32) : Tail := ⟨crc, 0x5732, 0x4908, 3, 2⟩

/-- `bcm4908img_create`: the image, if the command comes to its end. -/
def create (canAlloc : BitVec w → Bool) (options : List (Opt w)) : Option (List UInt8) := do
  let s ← options.foldlM (Create.step canAlloc) Create.initial
  some (s.out ++ (createTail s.crc32).bytes)

/-! ### The property and its condition -/

def File.ofList (l : List UInt8) : File := ⟨l.length, fun i => l.getD i 0⟩

/-- The tail has the checksum that the parser computes over all octets in front of it. -/
def Verifies (image : List UInt8) : Prop :=
  calcCrc32 (File.ofList image) 0 (image.length - 20) =
    .ok (Tail.ofBytes (image.drop (image.length - 20))).crc32

def Create.zeros (canAlloc : BitVec w → Bool) (s : Create w) : Opt w → Nat
  | .f _ => 0
  | .a alignment =>
      let length := alignment - s.curOffset % alignment
      if s.curOffset &&& (alignment - 1#w) ≠ 0#w ∧ canAlloc length then length.toNat else 0
  | .A offset =>
      let length := offset - s.curOffset
      if 0 ≤ length.toInt ∧ canAlloc length then length.toNat else 0

/-- An option that does not divide by zero, and whose zeros go unnoticed: there is a multiple of `2
    ^ 32 - 1` of them, as a rule none, or the checksum of all octets in front of them is zero. -/
def Create.Harmless (canAlloc : BitVec w → Bool) (s : Create w) (o : Opt w) : Prop :=
  (∀ alignment, o = .a alignment → s.curOffset ≠ 0#w → alignment ≠ 0#w) ∧
  (Crc32.period ∣ s.zeros canAlloc o ∨ Crc32.crc 0xffffffff#32 s.out = 0#32)

/-! ### What an option does -/

def Opt.content : Opt w → List UInt8
  | .f (some content) => content
  | _ => []

variable {canAlloc : BitVec w → Bool} {s : Create w} {o : Opt w}

theorem appendFileLoop_eq {fuel : Nat} {content out : List UInt8} {crc : BitVec 32}
    {length : BitVec w} (h : content.length ≤ fuel) : ∃ length',
    appendFileLoop fuel content out crc length = (out ++ content, crc32 crc content, length') := by
  induction fuel generalizing content out crc length with
  | zero =>
    obtain rfl : content = [] := eq_nil_of_length_eq_zero (by omega)
    exact ⟨length, by simp [appendFileLoop, crc32]⟩
  | succ fuel ih =>
    rw [appendFileLoop]
    by_cases hnil : content = []
    · subst hnil
      exact ⟨length, by simp [crc32]⟩
    · have hpos : 0 < content.length := length_pos_iff.mpr hnil
      have htake : (content.take 1024).length ≠ 0 := by
        rw [length_take]
        omega
      simp only [if_neg htake]
      have hdrop : (content.drop 1024).length ≤ fuel := by
        rw [length_drop]
        omega
      obtain ⟨length', hrest⟩ := ih hdrop
      refine ⟨length', hrest.trans ?_⟩
      rw [append_assoc, ← crc32_append, take_append_drop]

@[simp] theorem advance_out (s : Create w) (bytes : BitVec w) : (s.advance bytes).out = s.out := by
  unfold Create.advance
  split <;> rfl

@[simp] theorem advance_crc32 (s : Create w) (bytes : BitVec w) :
    (s.advance bytes).crc32 = s.crc32 := by
  unfold Create.advance
  split <;> rfl

theorem createAppendZeros_fst (canAlloc : BitVec w → Bool) (out : List UInt8)
    (length : BitVec w) : (createAppendZeros canAlloc out length).1 =
      out ++ replicate (if canAlloc length then length.toNat else 0) 0 := by
  unfold createAppendZeros
  split <;> simp

/-- **An option** appends the content of its file and its zeros; only the former goes into the
    checksum. -/
theorem step_eq_some {t : Create w} (h : s.step canAlloc o = some t) :
    t.out = s.out ++ o.content ++ replicate (s.zeros canAlloc o) 0 ∧
    t.crc32 = crc32 s.crc32 o.content := by
  rcases o with (_ | content) | alignment | offset
  · cases h
    simp [Opt.content, Create.zeros, crc32]
  · obtain ⟨length', hloop⟩ :=
      @appendFileLoop_eq w content.length content s.out s.crc32 0#w (Nat.le_refl _)
    simp only [Create.step, hloop] at h
    cases h
    simp [Opt.content, Create.zeros]
  · simp only [Create.step, createAlign] at h
    simp only [Create.zeros, Opt.content]
    generalize alignment - s.curOffset % alignment = length at h ⊢
    by_cases hcur : s.curOffset &&& alignment - 1#w ≠ 0#w
    · rw [if_pos hcur] at h
      split at h
      · cases h
      · cases h
        simp [createAppendZeros_fst, and_iff_right hcur, crc32]
    · rw [if_neg hcur] at h
      cases h
      simp only [hcur]
      simp [crc32]
  · simp only [Create.step] at h
    simp only [Create.zeros, Opt.content]
    generalize offset - s.curOffset = length at h ⊢
    by_cases hneg : length.toInt < 0
    · rw [if_pos hneg] at h
      cases h
      simp [not_le.mpr hneg, crc32]
    · rw [if_neg hneg] at h
      cases h
      simp [createAppendZeros_fst, not_lt.mp hneg, crc32]

theorem exists_step_iff :
    (∃ t, s.step canAlloc o = some t) ↔
      ∀ alignment, o = .a alignment → s.curOffset ≠ 0#w → alignment ≠ 0#w := by
  rcases o with (_ | content) | alignment | offset
  · simp [Create.step]
  · simp [Create.step]
  · have hmask : alignment = 0#w → s.curOffset &&& alignment - 1#w = s.curOffset := by
      rintro rfl
      rw [BitVec.zero_sub, BitVec.neg_one_eq_allOnes, BitVec.and_allOnes]
    simp only [Create.step, createAlign]
    by_cases hcur : s.curOffset &&& alignment - 1#w ≠ 0#w
    · by_cases hzero : alignment = 0#w
      · have hne : s.curOffset ≠ 0#w := hmask hzero ▸ hcur
        rw [if_pos hcur]
        simp [hzero, hne]
      · simp [hcur, hzero]
    · have hgo : s.curOffset ≠ 0#w → alignment ≠ 0#w := by
        intro hne hzero
        exact hcur ((hmask hzero).symm ▸ hne)
      simpa [hcur] using hgo
  · simp only [Create.step]
    split <;> simp

/-! ### Whole sequences -/

theorem load_ofList {l : List UInt8} {pos n : Nat} (h : pos + n ≤ l.length) :
    load (File.ofList l).byte pos n = (l.drop pos).take n := by
  refine ext_getElem? fun k => ?_
  by_cases hk : k < n
  · have hlt : pos + k < l.length := by omega
    rw [getElem?_load hk, getElem?_take_of_lt hk, getElem?_drop]
    simp [File.ofList, hlt]
  · rw [getElem?_eq_none (by simp; omega), getElem?_eq_none (by simp; omega)]

/-- An image verifies if its tail has the checksum of all that is in front of it. -/
theorem verifies_iff (out : List UInt8) (t : Tail) :
    Verifies (out ++ t.bytes) ↔ t.crc32 = crc32 0xffffffff#32 out := by
  have hlen : (out ++ t.bytes).length - 20 = out.length := by simp
  have hcalc : calcCrc32 (File.ofList (out ++ t.bytes)) 0 out.length =
      .ok (crc32 0xffffffff#32 out) := by
    rw [calcCrc32_eq (Nat.zero_le _) (by simp [File.ofList]), File.checksum, Nat.sub_zero,
      load_ofList (by simp), drop_zero, take_left]
  rw [Verifies, hlen, hcalc, drop_left, ofBytes_bytes]
  exact ⟨fun h => Except.ok.inj h.symm, fun h => congrArg Except.ok h.symm⟩

/-- Without the formats of a vendor, the parser accepts an image whose parts it finds just when it
    verifies. -/
theorem accepted_iff_verifies {image : List UInt8} {found : Offsets}
    (hfound : locate (File.ofList image) = .ok found) (hcferom : found.cferom = 0)
    (htail : found.tail = image.length - 20) : Accepted (File.ofList image) ↔ Verifies image := by
  obtain ⟨hsize, -⟩ := locate_bounds hfound
  have hlen : 1024 ≤ image.length := hsize
  have hcalc : calcCrc32 (File.ofList image) 0 (image.length - 20) =
      .ok ((File.ofList image).checksum 0 (image.length - 20)) :=
    calcCrc32_eq (Nat.zero_le _) (Nat.sub_le _ _)
  have hload : load (File.ofList image).byte (image.length - 20) 20 =
      image.drop (image.length - 20) := by
    rw [load_ofList (by omega), take_of_length_le (by rw [length_drop]; omega)]
  rw [Verifies, hcalc, accepted_iff]
  constructor
  · rintro ⟨other, hother, hsame⟩
    cases Except.ok.inj (hother.symm.trans hfound)
    rw [hcferom, htail, hload] at hsame
    rw [hsame]
  · intro h
    refine ⟨found, hfound, ?_⟩
    rw [hcferom, htail, hload]
    exact Except.ok.inj h

def Create.Current (s : Create w) : Prop := s.crc32 = Bcm4908.crc32 0xffffffff#32 s.out

theorem step_current_iff {t : Create w} (hs : s.Current) (h : s.step canAlloc o = some t) :
    t.Current ↔
      Crc32.period ∣ s.zeros canAlloc o ∨ Crc32.crc 0xffffffff#32 s.out = 0#32 := by
  obtain ⟨hout, hcrc⟩ := step_eq_some h
  have hall : t.crc32 = crc32 0xffffffff#32 (s.out ++ o.content) := by
    rw [hcrc, hs, crc32_append]
  rw [Create.Current, hout, crc32_append, ← hall, crc32_eq, eq_comm, Crc32.crc_zeros_eq_self, hall,
    crc32_eq, or_comm]
  -- an option with a file appends no zeros, and the others have no file
  rcases o with content | alignment | offset
  · simp [Create.zeros]
  · simp [Opt.content]
  · simp [Opt.content]

theorem harmless_iff (hs : s.Current) :
    s.Harmless canAlloc o ↔ ∃ t, s.step canAlloc o = some t ∧ t.Current := by
  rw [Create.Harmless, ← @exists_step_iff w canAlloc s o]
  constructor
  · rintro ⟨⟨t, hstep⟩, hzeros⟩
    exact ⟨t, hstep, (step_current_iff hs hstep).mpr hzeros⟩
  · rintro ⟨t, hstep, ht⟩
    exact ⟨⟨t, hstep⟩, (step_current_iff hs hstep).mp ht⟩

theorem create_verifies_iff {options : List (Opt w)} :
    (∃ image, create canAlloc options = some image ∧ Verifies image) ↔
      ∃ s, options.foldlM (Create.step canAlloc) Create.initial = some s ∧ s.Current := by
  constructor
  · rintro ⟨image, hcreate, hverifies⟩
    obtain ⟨s, hfold, himage⟩ := Option.bind_eq_some_iff.mp hcreate
    cases himage
    exact ⟨s, hfold, (verifies_iff _ _).mp hverifies⟩
  · rintro ⟨s, hfold, hs⟩
    exact ⟨s.out ++ (createTail s.crc32).bytes, by rw [create, hfold]; rfl,
      (verifies_iff _ _).mpr hs⟩

/-- **Created images verify** all along a sequence of options just when each of them is harmless. -/
theorem create_verifies_iff_harmless (canAlloc : BitVec w → Bool) (options : List (Opt w)) :
    (∀ given, given <+: options → ∃ image, create canAlloc given = some image ∧ Verifies image) ↔
      Admitted (Create.step canAlloc) (Create.Harmless canAlloc) Create.initial options := by
  have hexact := fun s o => @harmless_iff w canAlloc s o
  rw [admitted_iff hexact options Create.initial rfl]
  exact forall₂_congr fun given _ => create_verifies_iff

/-- **An image with padding does not verify**: one octet, filled up to four.  With an alignment of
    zero there is no image at all. -/
theorem create_padded_not_verifies :
    (∃ image, create (fun _ => true) [Opt.f (some [0x85]), Opt.a 4#64] = some image ∧
      image.take 4 = [0x85, 0, 0, 0] ∧ ¬ Verifies image) ∧
    (∃ image, create (fun _ => true) [Opt.f (some [0x85]), Opt.A 4#64] = some image ∧
      image.take 4 = [0x85, 0, 0, 0] ∧ ¬ Verifies image) ∧
    create (fun _ => true) [Opt.f (some [0x85]), Opt.a 0#64] = none := by
  refine ⟨⟨_, rfl, by decide +kernel, ?_⟩, ⟨_, rfl, by decide +kernel, ?_⟩, by decide +kernel⟩
  · rw [verifies_iff]
    decide +kernel
  · rw [verifies_iff]
    decide +kernel

end Rooter.Bcm4908
