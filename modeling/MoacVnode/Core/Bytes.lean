import MoacVnode.Core.Types

/-!
# What the packages take from the common package

Its conversions between numbers, addresses, hashes and bytes.
-/

namespace MoacVnode.Core

open List Nat

def addressLength : Nat := 20

def bigEndian : Nat → Nat → List UInt8
  | 0, _ => []
  | width + 1, num => bigEndian width (num / 256) ++ [UInt8.ofNat num]

@[simp]
theorem length_bigEndian (width num : Nat) : (bigEndian width num).length = width := by
  induction width generalizing num with
  | zero => rfl
  | succ width ih => rw [bigEndian, length_append, ih, length_singleton]

def beNat (bytes : List UInt8) : Nat := bytes.foldl (fun val byte => val * 256 + byte.toNat) 0

theorem foldl_bytes (bytes : List UInt8) (start : Nat) :
    bytes.foldl (fun val byte => val * 256 + byte.toNat) start =
      start * 256 ^ bytes.length + beNat bytes := by
  induction bytes generalizing start with
  | nil => simp [beNat]
  | cons byte bytes ih =>
    rw [beNat, foldl_cons, foldl_cons, ih, ih (0 * 256 + byte.toNat), length_cons, pow_succ]
    ring

theorem beNat_append (left right : List UInt8) :
    beNat (left ++ right) = beNat left * 256 ^ right.length + beNat right := by
  rw [beNat, foldl_append, foldl_bytes right]
  rfl

theorem beNat_zeros (count : Nat) : beNat (List.replicate count 0) = 0 := by
  induction count with
  | zero => rfl
  | succ count ih =>
    rw [replicate_succ', beNat_append, ih]
    rfl

theorem beNat_bigEndian (width num : Nat) : beNat (bigEndian width num) = num % 256 ^ width := by
  induction width generalizing num with
  | zero => simp [bigEndian, beNat, mod_one]
  | succ width ih =>
    have last : beNat [UInt8.ofNat num] = num % 256 := by simp [beNat]
    rw [bigEndian, beNat_append, ih, last, length_singleton, pow_one, pow_succ', mod_mul]
    ring

theorem bigEndian_beNat (bytes : List UInt8) : bigEndian bytes.length (beNat bytes) = bytes := by
  induction bytes using List.reverseRecOn with
  | nil => rfl
  | append_singleton bytes last ih =>
    have val : beNat (bytes ++ [last]) = beNat bytes * 256 + last.toNat := by
      simp [beNat]
    have high : (beNat bytes * 256 + last.toNat) / 256 = beNat bytes := by
      have small := last.toNat_lt
      omega
    have low : UInt8.ofNat (beNat bytes * 256 + last.toNat) = last := by
      apply UInt8.toNat_inj.mp
      rw [UInt8.toNat_ofNat']
      omega
    rw [length_append, length_singleton, bigEndian, val, high, low, ih]

theorem pow_bytes (width : Nat) : 256 ^ width = 2 ^ (8 * width) := by
  rw [pow_mul, show 2 ^ 8 = 256 from rfl]

theorem beNat_lt (bytes : List UInt8) : beNat bytes < 256 ^ bytes.length := by
  have kept := beNat_bigEndian bytes.length (beNat bytes)
  rw [bigEndian_beNat] at kept
  rw [kept]
  exact mod_lt _ (Nat.pow_pos (by decide))

/-- `U256`: 32 bytes in two's complement. -/
def u256 (num : Int) : List UInt8 := bigEndian 32 (num % 2 ^ 256).toNat

def rightPadBytes (bytes : List UInt8) (length : Nat) : List UInt8 :=
  bytes ++ List.replicate (length - bytes.length) 0

def leftPadBytes (bytes : List UInt8) (length : Int) : List UInt8 :=
  List.replicate (length - bytes.length).toNat 0 ++ bytes

def bytesToAddress (bytes : List UInt8) : Address := BitVec.ofNat 160 (beNat bytes)

def bytesToHash (bytes : List UInt8) : Hash := BitVec.ofNat 256 (beNat bytes)

def hashBytes (hash : Hash) : List UInt8 := bigEndian 32 hash.toNat

@[simp]
theorem length_hashBytes (hash : Hash) : (hashBytes hash).length = 32 := length_bigEndian 32 _

theorem bytesToHash_hashBytes (hash : Hash) : bytesToHash (hashBytes hash) = hash := by
  rw [bytesToHash, hashBytes, beNat_bigEndian, pow_bytes, mod_eq_of_lt hash.isLt,
    BitVec.ofNat_toNat, BitVec.setWidth_eq]

def hexDigit (digit : Nat) : Char := "0123456789abcdef".toList.getD digit '0'

def bytes2Hex (bytes : List UInt8) : List Char :=
  bytes.flatMap fun byte => [hexDigit (byte.toNat / 16), hexDigit (byte.toNat % 16)]

theorem length_bytes2Hex (bytes : List UInt8) : (bytes2Hex bytes).length = 2 * bytes.length := by
  induction bytes with
  | nil => rfl
  | cons byte bytes ih =>
    rw [bytes2Hex, flatMap_cons, length_append, ← bytes2Hex, ih]
    simp only [length_cons, length_nil]
    omega

end MoacVnode.Core
