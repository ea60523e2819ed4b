import Mathlib.Data.Nat.Bitwise
import Rooter.Flash
import Rooter.Memory

/-!
# Rewriting a header

The commands of `mtd` that repair the header of an image (`fixtrx`, `fixseama`) work alike: the
offset of the header is split into that of its erase block and one in the block, the block is
read, the header is changed in memory, and the block is erased (`mtd_erase_block`) and written.
-/

namespace Rooter.Flash

open Memory

/-- `offset & ~(erasesize - 1)`; the complement of minus one is zero. -/
def blockOffset (erasesize offset : Nat) : Nat :=
  if erasesize = 0 then 0 else offset - (offset &&& (erasesize - 1))

/-- How a repair ends: the program gives up and leaves this device, there is nothing to do, or
    the block is written. -/
inductive Fix where
  | exit (d : Device)
  | kept
  | rewritten (d : Device)

def rewriteBlock (d : Device) (start : Nat) (data : List UInt8) : Fix :=
  if d.eraseOk start then
    match d.writeLength start data.length with
    | none => .exit (d.erased start)
    | some n =>
        if n = data.length then .rewritten ((d.erased start).written start data)
        else .exit ((d.erased start).written start (data.take n))
  else .exit d

/-! ### The offset of the block -/

theorem blockOffset_two_pow (n offset : Nat) :
    blockOffset (2 ^ n) offset = offset - offset % 2 ^ n := by
  rw [blockOffset, if_neg (Nat.ne_of_gt (Nat.two_pow_pos n)), Nat.and_two_pow_sub_one_eq_mod]

/-! ### The device behind the rewriting -/

namespace Device

variable {d : Device} {start : Nat} {data : List UInt8}

theorem eraseOk_iff :
    d.eraseOk start = true
      ↔ d.erasesize ∣ start ∧ start < d.size ∧ d.eraseFails (start / d.erasesize) = false := by
  simp [eraseOk, Nat.dvd_iff_mod_eq_zero, and_assoc]

theorem mem_written_erased (hdvd : d.erasesize ∣ start) (hlen : data.length = d.erasesize) :
    ((d.erased start).written start data).mem = store d.mem start data := by
  obtain ⟨k, rfl⟩ := hdvd
  have hpos := d.erasesize_pos
  funext a
  by_cases hin : d.erasesize * k ≤ a ∧ a < d.erasesize * k + data.length
  · obtain ⟨i, rfl⟩ := Nat.exists_eq_add_of_le hin.1
    have hi : data[i]? = some data[i] := List.getElem?_eq_getElem (by omega)
    have hblank : (d.erased (d.erasesize * k)).mem (d.erasesize * k + i) = 0xff := by
      have hblock := d.div_block (k := k) (i := i) (by omega)
      exact if_pos (hblock.trans (Nat.mul_div_cancel_left k hpos).symm)
    rw [store_in hi]
    simp only [written, Nat.le_add_right, Nat.add_sub_cancel_left, hi, hblank]
    exact UInt8.neg_one_and
  · have hother : (d.erased (d.erasesize * k)).mem a = d.mem a := by
      refine if_neg fun hblock => hin ?_
      rw [Nat.mul_div_cancel_left k hpos] at hblock
      have hmod := Nat.div_add_mod a d.erasesize
      have hlt := Nat.mod_lt a hpos
      rw [hblock] at hmod
      omega
    rw [store_out (by omega)]
    simp only [written]
    split
    · next hle =>
      rw [List.getElem?_eq_none (by omega)]
      exact hother
    · exact hother

end Device

variable {d d' : Device} {start : Nat} {data : List UInt8}

theorem rewriteBlock_ne_kept (d : Device) (start : Nat) (data : List UInt8) :
    rewriteBlock d start data ≠ .kept := by
  intro h
  unfold rewriteBlock at h
  repeat' split at h
  all_goals cases h

theorem rewriteBlock_spec (hlen : data.length = d.erasesize)
    (h : rewriteBlock d start data = .rewritten d') :
    d.erasesize ∣ start ∧ d.Alike d' ∧ d'.mem = store d.mem start data := by
  unfold rewriteBlock at h
  split at h
  · next hok =>
    have hdvd := (Device.eraseOk_iff.mp hok).1
    split at h
    · cases h
    · split at h
      · cases h
        exact ⟨hdvd, ⟨rfl, rfl, rfl, rfl, rfl, rfl, rfl⟩, Device.mem_written_erased hdvd hlen⟩
      · cases h
  · cases h

end Rooter.Flash
