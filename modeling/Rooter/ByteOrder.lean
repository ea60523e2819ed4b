import Mathlib.Algebra.Group.Nat.Defs
import Mathlib.Data.List.Basic

/-!
# Numbers in a byte order

A number of a given width is kept in memory with its lowest octet first or last.  `bytes` writes
it, `value` reads it, and each undoes the other.
-/

namespace Rooter.ByteOrder

open List

def littleValue : List UInt8 → Nat
  | [] => 0
  | b :: bs => b.toNat + 256 * littleValue bs

def littleBytes : Nat → Nat → List UInt8
  | 0, _ => []
  | width + 1, n => UInt8.ofNat n :: littleBytes width (n / 256)

def value (bigEndian : Bool) (l : List UInt8) : Nat :=
  littleValue (if bigEndian then l.reverse else l)

def bytes (bigEndian : Bool) (width n : Nat) : List UInt8 :=
  if bigEndian then (littleBytes width n).reverse else littleBytes width n

theorem length_littleBytes (width n : Nat) : (littleBytes width n).length = width := by
  induction width generalizing n with
  | zero => rfl
  | succ width ih => rw [littleBytes, length_cons, ih]

@[simp] theorem length_bytes (bigEndian : Bool) (width n : Nat) :
    (bytes bigEndian width n).length = width := by
  cases bigEndian <;> simp [bytes, length_littleBytes]

theorem littleValue_littleBytes {width n : Nat} (h : n < 256 ^ width) :
    littleValue (littleBytes width n) = n := by
  induction width generalizing n with
  | zero =>
    rw [littleBytes, littleValue]
    omega
  | succ width ih =>
    rw [littleBytes, littleValue, ih (by omega), UInt8.toNat_ofNat']
    omega

theorem littleBytes_littleValue (l : List UInt8) : littleBytes l.length (littleValue l) = l := by
  induction l with
  | nil => rfl
  | cons b bs ih =>
    have hb := b.toNat_lt
    have hhead : UInt8.ofNat (b.toNat + 256 * littleValue bs) = b := by
      apply UInt8.toNat_inj.mp
      rw [UInt8.toNat_ofNat']
      omega
    have htail : (b.toNat + 256 * littleValue bs) / 256 = littleValue bs := by omega
    rw [length_cons, littleValue, littleBytes, hhead, htail, ih]

theorem value_bytes (bigEndian : Bool) {width n : Nat} (h : n < 256 ^ width) :
    value bigEndian (bytes bigEndian width n) = n := by
  cases bigEndian
  · exact littleValue_littleBytes h
  · simp only [value, bytes, if_true, reverse_reverse]
    exact littleValue_littleBytes h

theorem bytes_value (bigEndian : Bool) (l : List UInt8) :
    bytes bigEndian l.length (value bigEndian l) = l := by
  cases bigEndian
  · exact littleBytes_littleValue l
  · simp only [value, bytes, if_true]
    have h := littleBytes_littleValue l.reverse
    rw [length_reverse] at h
    rw [h, reverse_reverse]

theorem littleValue_lt (l : List UInt8) : littleValue l < 256 ^ l.length := by
  induction l with
  | nil => decide
  | cons b bs ih =>
    have hb := b.toNat_lt
    rw [littleValue, length_cons]
    omega

theorem value_lt (bigEndian : Bool) (l : List UInt8) : value bigEndian l < 256 ^ l.length := by
  cases bigEndian
  · exact littleValue_lt l
  · have h := littleValue_lt l.reverse
    rw [length_reverse] at h
    exact h

end Rooter.ByteOrder
