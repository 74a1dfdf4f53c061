import Mathlib.Data.List.GetD
import Mathlib.Tactic

/-!
# Bit sets in bytes

A set of small numbers as a string of bytes; within a byte the first number has the highest bit.
Intersections and unions of sets of the same length are taken byte by byte.
-/

namespace MoacVnode.Lib

open List

variable {bytes : List UInt8}

def bitAt (bytes : List UInt8) (place : Nat) : Bool :=
  (bytes.getD (place / 8) 0).toNat.testBit (7 - place % 8)

def andBytes (left right : List UInt8) : List UInt8 := List.zipWith (· &&& ·) left right

def orBytes (left right : List UInt8) : List UInt8 := List.zipWith (· ||| ·) left right

def testBytes (bytes : List UInt8) : Bool := bytes.any (· ≠ 0)

@[simp]
theorem length_andBytes (left right : List UInt8) :
    (andBytes left right).length = min left.length right.length :=
  length_zipWith

@[simp]
theorem length_orBytes (left right : List UInt8) :
    (orBytes left right).length = min left.length right.length :=
  length_zipWith

theorem getD_zipWith {operation : UInt8 → UInt8 → UInt8} {left right : List UInt8} {idx : Nat}
    (inLeft : idx < left.length) (inRight : idx < right.length) :
    (List.zipWith operation left right).getD idx 0 =
      operation (left.getD idx 0) (right.getD idx 0) := by
  simp [List.getD, inLeft, inRight]

section

variable {left right : List UInt8} {place : Nat} (inLeft : place / 8 < left.length)
  (inRight : place / 8 < right.length)

include inLeft inRight

theorem bitAt_andBytes :
    bitAt (andBytes left right) place = (bitAt left place && bitAt right place) := by
  rw [bitAt, andBytes, getD_zipWith inLeft inRight, UInt8.toNat_and, Nat.testBit_and]
  rfl

theorem bitAt_orBytes :
    bitAt (orBytes left right) place = (bitAt left place || bitAt right place) := by
  rw [bitAt, orBytes, getD_zipWith inLeft inRight, UInt8.toNat_or, Nat.testBit_or]
  rfl

end

theorem bitAt_of_zero_byte {place : Nat} (zero : bytes.getD (place / 8) 0 = 0) :
    bitAt bytes place = false := by
  rw [bitAt, zero]
  exact Nat.zero_testBit _

theorem bitAt_zeros (count place : Nat) : bitAt (List.replicate count 0) place = false := by
  apply bitAt_of_zero_byte
  rw [getD_eq_getElem?_getD, List.getElem?_replicate]
  split <;> rfl

theorem bitAt_ones {count place : Nat} (within : place / 8 < count) :
    bitAt (List.replicate count 255) place = true := by
  have pos : 7 - place % 8 < 8 := by omega
  have full : ∀ bit < 8, (255 : UInt8).toNat.testBit bit = true := by decide
  rw [bitAt, getD_eq_getElem?_getD, List.getElem?_replicate, if_pos within]
  exact full _ pos

theorem bitAt_of_testBytes (empty : testBytes bytes = false) (place : Nat) :
    bitAt bytes place = false := by
  apply bitAt_of_zero_byte
  rw [getD_eq_getElem?_getD]
  cases got : bytes[place / 8]? with
  | none => rfl
  | some byte =>
    have all := any_eq_false.mp empty byte (mem_of_getElem? got)
    simpa using all

/-- The set with one number more. -/
def setBit (bytes : List UInt8) (place : Nat) : List UInt8 :=
  bytes.modify (place / 8) (· ||| UInt8.ofNat (2 ^ (7 - place % 8)))

theorem bitAt_setBit {place : Nat} (within : place / 8 < bytes.length)
    (other : Nat) : bitAt (setBit bytes place) other = (bitAt bytes other || other == place) := by
  rw [bitAt, setBit, getD_eq_getElem?_getD, getElem?_modify]
  by_cases same : other / 8 = place / 8
  · have mask : ∀ left < 8, ∀ right < 8, (2 ^ left % 256).testBit right = (right == left) := by
      decide
    have marked : (2 ^ (7 - place % 8) % 256).testBit (7 - other % 8) = (other == place) := by
      rw [mask _ (by omega) _ (by omega), Bool.eq_iff_iff, beq_iff_eq, beq_iff_eq]
      omega
    simp [bitAt, same, within, marked]
  · have ne : other ≠ place := fun equal => same (equal ▸ rfl)
    simp [bitAt, Ne.symm same, ne]

end MoacVnode.Lib
