import Rooter.ByteOrder

/-!
# `oseama.c`: extracting an entity

A container has a header with metadata, and then entities: a header of 28 octets, metadata and an
image.  Reading and seeking in the file leave the list of the octets that follow; behind the end
there are none.  Files can be opened and written.
-/

namespace Rooter.Oseama

open List ByteOrder

/-! ### The program -/

section Header

variable (seama : List UInt8)

def magic : Nat := value true (seama.take 4)

def metasize : Nat := value true ((seama.drop 6).take 2)

def imagesize : Nat := value true ((seama.drop 8).take 4)

def entityLength : Nat := 28 + metasize seama + imagesize seama

end Header

inductive Errno where
  | inval | io
deriving DecidableEq, Repr

/-- The loop that copies: what is written, and the length that is left. -/
def copyLoop (length : Nat) (seama : List UInt8) : List UInt8 × Nat :=
  let buf := seama.take (min 1024 length)
  if buf = [] then ([], length)
  else
    let copied := copyLoop (length - buf.length) (seama.drop buf.length)
    (buf ++ copied.1, copied.2)
termination_by length
decreasing_by
  have hpos : 0 < (seama.take (min 1024 length)).length := length_pos_iff.mpr ‹_›
  rw [length_take] at hpos ⊢
  omega

/-- The error, if there is one, and what is written. -/
def extractEntity (entityIdx i : Nat) (seama : List UInt8) : Option Errno × List UInt8 :=
  if seama.length < 28 then (none, [])
  else if magic seama ≠ 0x5ea3a417 then (some .inval, [])
  else if i ≠ entityIdx then
    extractEntity entityIdx (i + 1) (seama.drop (entityLength seama))
  else
    let copied := copyLoop (entityLength seama) seama
    (if copied.2 ≠ 0 then some .io else none, copied.1)
termination_by seama.length
decreasing_by grind [entityLength]

/-- The error of `oseama_extract_entity` is not looked at. -/
def oseamaExtract (file : List UInt8) (entityIdx : Int) : Option Errno × List UInt8 :=
  if entityIdx < 0 then (some .inval, [])
  else if file.length < 12 then (some .io, [])
  else (none, (extractEntity entityIdx.toNat 0 (file.drop (12 + metasize file))).2)

/-! ### Entities -/

/-- The octets of an entity that is there, with the ones in front of it. -/
def entity : Nat → List UInt8 → Option (List UInt8)
  | 0, seama =>
      if 28 ≤ seama.length ∧ magic seama = 0x5ea3a417 ∧ entityLength seama ≤ seama.length then
        some (seama.take (entityLength seama))
      else none
  | k + 1, seama =>
      if 28 ≤ seama.length ∧ magic seama = 0x5ea3a417 then
        entity k (seama.drop (entityLength seama))
      else none

def entityOf (file : List UInt8) (entityIdx : Int) : Option (List UInt8) :=
  if 0 ≤ entityIdx ∧ 12 ≤ file.length then
    entity entityIdx.toNat (file.drop (12 + metasize file))
  else none

theorem copyLoop_eq (length : Nat) (seama : List UInt8) :
    copyLoop length seama = (seama.take length, length - seama.length) := by
  fun_induction copyLoop length seama with
  | case1 length seama buf hbuf =>
    rcases take_eq_nil_iff.mp hbuf with h | rfl
    · obtain rfl : length = 0 := by omega
      simp
    · simp
  | case2 length seama buf hbuf copied ih =>
    have hbuf' : buf = seama.take buf.length := by simp [buf]
    have hlen : buf.length = min (min 1024 length) seama.length := length_take
    have hsplit : seama.take length = seama.take buf.length ++
        (seama.drop buf.length).take (length - buf.length) := by
      rw [← take_add, Nat.add_sub_cancel' (by omega)]
    simp only [copied, ih, length_drop]
    rw [hsplit, ← hbuf', show length - buf.length - (seama.length - buf.length) =
      length - seama.length by omega]

theorem extractEntity_of_entity {k i : Nat} {seama e : List UInt8} (h : entity k seama = some e) :
    (extractEntity (i + k) i seama).2 = e := by
  induction k generalizing i seama with
  | zero =>
    rw [entity, Option.ite_none_right_eq_some] at h
    obtain ⟨⟨hlen, hmagic, hroom⟩, h⟩ := h
    unfold extractEntity
    rw [if_neg (by omega), if_neg (not_not.mpr hmagic), if_neg (by omega), copyLoop_eq]
    exact Option.some.inj h
  | succ k ih =>
    rw [entity, Option.ite_none_right_eq_some] at h
    obtain ⟨⟨hlen, hmagic⟩, h⟩ := h
    unfold extractEntity
    rw [if_neg (by omega), if_neg (not_not.mpr hmagic), if_pos (by omega),
      show i + (k + 1) = i + 1 + k by omega]
    exact ih h

/-- **A failure is reported** only if the header of the container cannot be read, or no entity is
    asked for. -/
theorem oseamaExtract_reports_iff (file : List UInt8) (entityIdx : Int) :
    (((oseamaExtract file entityIdx).1 = none →
        entityOf file entityIdx = some (oseamaExtract file entityIdx).2) ∧
      (entityOf file entityIdx = none → (oseamaExtract file entityIdx).1 ≠ none)) ↔
    entityIdx < 0 ∨ file.length < 12 ∨ (entityOf file entityIdx).isSome = true := by
  unfold oseamaExtract
  by_cases hidx : entityIdx < 0
  · simp [hidx]
  by_cases hlen : file.length < 12
  · simp [hidx, hlen]
  simp only [hidx, hlen, if_false, false_or, forall_const]
  constructor
  · rintro ⟨h, -⟩
    rw [h]
    rfl
  · intro h
    obtain ⟨e, he⟩ := Option.isSome_iff_exists.mp h
    refine ⟨?_, by simp [he]⟩
    rw [he]
    rw [entityOf, if_pos (by omega)] at he
    rw [← Nat.zero_add entityIdx.toNat, extractEntity_of_entity he]

/-- **A container without entities**: nothing is written, and the result is 0. -/
theorem not_oseamaExtract_reports :
    oseamaExtract (replicate 12 0) 0 = (none, []) ∧ entityOf (replicate 12 0) 0 = none := by
  refine ⟨?_, by decide⟩
  rw [oseamaExtract, if_neg (by decide), if_neg (by decide), extractEntity]
  decide

end Rooter.Oseama
