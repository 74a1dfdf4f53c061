import Mathlib.Data.Nat.Bitwise
import MoacVnode.Core.BloomBits
import MoacVnode.Lib.Run

/-!
# Rotating the blooms of a section

`bloombits.Generator`: the blooms of a section are added one by one, and each sets its bit in the
vectors of the bloom bits it has.
-/

namespace MoacVnode.Core

open Lib List

def bloomBitLength : Nat := 2048

inductive GeneratorError where
  | sectionCount
  | sectionOutOfBounds
  | unexpectedIndex
  | notGenerated
  /-- The panic of an index out of range. -/
  | crash
  deriving DecidableEq

/-- A generator: a vector for each bit of a bloom, with a place for each section. -/
structure Generator where
  sections : Nat
  blooms : Fin bloomBitLength → List UInt8
  nextBit : Nat := 0
  multiple : sections % 8 = 0
  length_blooms : ∀ bit, (blooms bit).length = sections / 8

namespace Generator

def newGenerator (sections : Nat) : Except GeneratorError Generator :=
  if multiple : sections % 8 = 0 then
    .ok
      { sections, multiple
        blooms := fun _ => List.replicate (sections / 8) 0
        length_blooms := fun _ => length_replicate }
  else
    .error .sectionCount

/-- A byte of a bloom, the highest first. -/
def bloomByte (bloom : Bloom) (index : Nat) : UInt8 :=
  UInt8.ofNat (bloom.toNat >>> (8 * (255 - index)))

variable (b : Generator)

def addBloom (index : Nat) (bloom : Bloom) : Except GeneratorError Generator :=
  if b.nextBit ≥ b.sections then
    .error .sectionOutOfBounds
  else if b.nextBit ≠ index then
    .error .unexpectedIndex
  else
    .ok
      { b with
        blooms := fun i =>
          if bloomByte bloom (255 - i / 8) &&& UInt8.ofNat (2 ^ (i.val % 8)) ≠ 0 then
            setBit (b.blooms i) b.nextBit
          else
            b.blooms i
        length_blooms := by
          intro i
          split
          · exact (length_modify ..).trans (b.length_blooms i)
          · exact b.length_blooms i
        nextBit := b.nextBit + 1 }

def bitset (idx : Nat) : Except GeneratorError (List UInt8) :=
  if b.nextBit ≠ b.sections then
    .error .notGenerated
  else if idx ≥ b.sections then
    .error .sectionOutOfBounds
  else if within : idx < bloomBitLength then
    .ok (b.blooms ⟨idx, within⟩)
  else
    .error .crash

/-- The generator after the blooms of all sections. -/
def generate (blooms : List Bloom) : Except GeneratorError Generator :=
  newGenerator blooms.length >>= fun b =>
    blooms.zipIdx.foldlM (fun b entry => b.addBloom entry.2 entry.1) b

/-- The vectors hold the bits of the blooms added so far. -/
structure Rotated (blooms : List Bloom) : Prop where
  nextBit : b.nextBit = blooms.length
  bits : ∀ i place, bitAt (b.blooms i) place = (blooms.getD place 0).getLsbD i

/-- The result for a bit is its vector, and an error if a bloom has no such bit. -/
def RightFor (blooms : List Bloom) (idx : Nat) (res : Except GeneratorError (List UInt8)) :
    Prop :=
  if idx < bloomBitLength then
    ∃ bytes, res = .ok bytes ∧
      ∀ place < blooms.length, bitAt bytes place = (blooms.getD place 0).getLsbD idx
  else
    ∃ error, res = .error error ∧ error ≠ .crash

variable {b} {blooms : List Bloom}

theorem bloomByte_and (bloom : Bloom) (i : Fin bloomBitLength) :
    bloomByte bloom (255 - i / 8) &&& UInt8.ofNat (2 ^ (i.val % 8)) ≠ 0 ↔
      bloom.getLsbD i = true := by
  have inBloom := i.isLt
  unfold bloomBitLength at inBloom
  have pos : 8 * (255 - (255 - i.val / 8)) + i.val % 8 = i := by omega
  have small : i.val % 8 < 8 := by omega
  have mask : (UInt8.ofNat (2 ^ (i.val % 8))).toNat = 2 ^ (i.val % 8) :=
    UInt8.toNat_ofNat_of_lt (Nat.pow_lt_pow_right (by decide) small)
  rw [Ne, ← UInt8.toNat_inj, UInt8.toNat_and, mask, Nat.and_two_pow, bloomByte,
    UInt8.toNat_ofNat', Nat.testBit_mod_two_pow, Nat.testBit_shiftRight, pos]
  simp [small, BitVec.getLsbD]

theorem getLsbD_concat (bloom : Bloom) (place i : Nat) :
    ((blooms ++ [bloom]).getD place 0).getLsbD i =
      ((blooms.getD place 0).getLsbD i || (place == blooms.length && bloom.getLsbD i)) := by
  rcases Nat.lt_trichotomy place blooms.length with prior | rfl | later
  · rw [getD_append _ _ _ _ prior]
    simp [Nat.ne_of_lt prior]
  · simp
  · rw [getD_eq_default _ _ (by simpa using Nat.succ_le_of_lt later),
      getD_eq_default _ _ (Nat.le_of_lt later)]
    simp [Nat.ne_of_gt later]

theorem Rotated.addBloom (rotated : b.Rotated blooms) (room : blooms.length < b.sections)
    (bloom : Bloom) :
    ∃ after, b.addBloom blooms.length bloom = .ok after ∧ after.sections = b.sections ∧
      after.Rotated (blooms ++ [bloom]) := by
  have nextBit := rotated.nextBit
  rw [Generator.addBloom, if_neg (by omega), if_neg (by simp [nextBit])]
  refine ⟨_, rfl, rfl, by simp [nextBit], fun i place => ?_⟩
  have multiple := b.multiple
  have within : b.nextBit / 8 < (b.blooms i).length := by
    rw [b.length_blooms]
    omega
  have before := rotated.bits i place
  rw [getLsbD_concat, ← before, ← nextBit]
  simp only [bloomByte_and]
  by_cases isSet : bloom.getLsbD i = true
  · rw [if_pos isSet, bitAt_setBit within, isSet, Bool.and_true]
  · simp [isSet]

theorem Rotated.addAll {later : List Bloom} (rotated : b.Rotated blooms)
    (room : blooms.length + later.length ≤ b.sections) :
    ∃ after, (later.zipIdx blooms.length).foldlM (fun b entry => b.addBloom entry.2 entry.1) b =
        .ok after ∧ after.sections = b.sections ∧ after.Rotated (blooms ++ later) := by
  induction later generalizing b blooms with
  | nil => exact ⟨b, rfl, rfl, (append_nil blooms).symm ▸ rotated⟩
  | cons bloom later ih =>
    rw [length_cons] at room
    obtain ⟨next, added, sections, rotates⟩ := rotated.addBloom (by omega) bloom
    obtain ⟨after, all, same, done⟩ := ih rotates (by
      rw [sections, length_append, length_singleton]
      omega)
    rw [length_append, length_singleton] at all
    rw [append_assoc, singleton_append] at done
    refine ⟨after, ?_, same.trans sections, done⟩
    rw [zipIdx_cons, foldlM_cons, added]
    exact all

theorem generate_rotates (multiple : blooms.length % 8 = 0) :
    ∃ b, generate blooms = .ok b ∧ b.sections = blooms.length ∧ b.Rotated blooms := by
  rw [generate, newGenerator, dif_pos multiple]
  refine Rotated.addAll (?_ : Rotated _ []) (by simp)
  exact ⟨rfl, fun _ place => by simp [bitAt_zeros]⟩

/-- The result is right exactly if the index is below the number of bits and of sections or neither.
-/
theorem bitset_right_iff (multiple : blooms.length % 8 = 0) (idx : Nat) :
    ∃ b, generate blooms = .ok b ∧
      (RightFor blooms idx (b.bitset idx) ↔ (idx < bloomBitLength ↔ idx < blooms.length)) := by
  obtain ⟨b, generated, sections, rotated⟩ := generate_rotates multiple
  refine ⟨b, generated, ?_⟩
  rw [bitset, if_neg (by simp [rotated.nextBit, sections]), sections, RightFor]
  by_cases inSection : idx < blooms.length
  · rw [if_neg (Nat.not_le.mpr inSection)]
    by_cases inBloom : idx < bloomBitLength
    · simp only [inBloom, inSection, dif_pos, iff_true]
      exact ⟨_, rfl, fun place _ => rotated.bits ⟨idx, inBloom⟩ place⟩
    · simp [inBloom, inSection]
  · by_cases inBloom : idx < bloomBitLength <;>
      simp [inBloom, Nat.not_lt.mp inSection]

theorem bitset_right_of_eight :
    ∃ b, generate (List.replicate 8 1) = .ok b ∧ RightFor (List.replicate 8 1) 0 (b.bitset 0) := by
  obtain ⟨b, generated, right⟩ := @bitset_right_iff (List.replicate 8 1) (by decide) 0
  exact ⟨b, generated, right.mpr (by decide)⟩

/-- With eight sections there is no vector for bit 8. -/
theorem bitset_refuses_bit :
    ∃ b, generate (List.replicate 8 0) = .ok b ∧ b.bitset 8 = .error .sectionOutOfBounds := by
  decide +kernel

/-- `Commit` of the bloom indexer: the vectors of all bits, unless one is missing. -/
def commit (b : Generator) : Except GeneratorError (List (List UInt8)) :=
  (finRange bloomBitLength).mapM fun bit => b.bitset bit.val

/-- The vectors stored for a chain; without data they read as zeros. -/
def indexed (size : Nat) (bloomOf : Nat → Bloom) : BitVectors := fun bit num =>
  let blooms := (range size).map fun place => bloomOf (num * size + place)
  (((generate blooms >>= commit).toOption.getD [])[bit]?).getD (replicate (size / 8) 0)

theorem transposed_indexed {size : Nat} (multiple : size % 8 = 0) (enough : bloomBitLength ≤ size)
    (bloomOf : Nat → Bloom) (num : Nat) :
    Transposed (indexed size bloomOf) size num bloomOf := by
  let blooms := (range size).map fun place => bloomOf (num * size + place)
  have length : blooms.length = size := by simp [blooms]
  obtain ⟨b, generated, sections, rotated⟩ := generate_rotates (length.symm ▸ multiple)
  have each (bit : Fin bloomBitLength) : b.bitset bit.val = pure (b.blooms bit) := by
    rw [bitset, if_neg (by simp [rotated.nextBit, sections]), if_neg (by omega), dif_pos bit.isLt]
    rfl
  have stored : (generate blooms >>= commit).toOption =
      some ((finRange bloomBitLength).map b.blooms) := by
    rw [show generate blooms = pure b from generated, pure_bind, commit, funext each, mapM_pure]
    rfl
  refine ⟨fun bit => ?_, fun bit place inSection => ?_⟩ <;> simp only [indexed] <;>
    rw [show (generate _ >>= commit).toOption = _ from stored] <;>
    by_cases inBloom : bit < bloomBitLength
  · simp [inBloom, b.length_blooms, sections, length]
  · simp [inBloom]
  · simp [inBloom, rotated.bits, blooms, inSection]
  · simp [inBloom, bitAt_zeros]
    exact BitVec.getLsbD_of_ge _ _ (not_lt.mp inBloom)

/-- A search over the index of a chain finds just the blocks whose bloom has a key of each group. -/
theorem index_search_exact (lib : BloomLib) (bloomOf : Nat → Bloom)
    (groups : List (List (List UInt8))) {size start stop : Nat} (multiple : size % 8 = 0)
    (enough : bloomBitLength ≤ size) (ordered : start ≤ stop) :
    (newMatcher lib size groups).matches (indexed size bloomOf) start stop =
      (range' start (stop + 1 - start)).filter fun block =>
        groups.all fun keys => keys.any (lib.bloomLookup (bloomOf block)) := by
  rw [matches_eq (Nat.lt_of_lt_of_le (by decide) enough) multiple
    (by simp [newMatcher, BloomLib.calcBloomIndexes, bloomIndexes]) ordered
    fun num _ => transposed_indexed multiple enough bloomOf num]
  refine filter_congr fun block _ => ?_
  rw [Bool.eq_iff_iff]
  simp [Matcher.Inspects, newMatcher, lib.bloomLookup_eq, BloomLib.calcBloomIndexes]

private def identityLib : BloomLib where
  keccak256 := id
  bloomLookup bloom key := (bloomIndexes key).all (bloom.getLsbD ·)
  bloomLookup_eq _ _ := rfl

/-- The empty key has bit 0 alone. -/
theorem index_search_of_ones :
    (newMatcher identityLib 4096 [[[]]]).matches (indexed 4096 fun _ => 1) 5 7 = [5, 6, 7] :=
  (index_search_exact identityLib (fun _ => 1) [[[]]] (by decide) (by decide) (by decide)).trans
    (by decide +kernel)

end Generator

end MoacVnode.Core
