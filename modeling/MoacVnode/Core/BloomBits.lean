import MoacVnode.Core.Types
import MoacVnode.Lib.BitSets

/-!
# The bloom bit matcher

`bloombits`: the header blooms of a section of blocks are kept transposed, one bit vector for
each bit of the bloom.  A matcher sends the sections of a range through a chain of sub-matchers,
one for each group of clauses, and inspects the bits that are left.

The channels between the sub-matchers keep the order of the sections, so the chain is a function
of the section; the schedulers that fetch the bit vectors are left out.
-/

namespace MoacVnode.Core

open Lib List Nat
open List (replicate range')

variable {block last : Nat}

/-- A header bloom; bit 0 is the lowest of the last byte. -/
abbrev Bloom := BitVec 2048

/-- The bit indexes of `calcBloomIndexes`, from the Keccak hash of the key. -/
def bloomIndexes (digest : List UInt8) : List Nat :=
  [0, 1, 2].map fun i =>
    (((digest.getD (2 * i) 0).toNat <<< 8) &&& 2047) + (digest.getD (2 * i + 1) 0).toNat

/-- The hash function and the bloom test of the library: a key is in a bloom if its three bits
are. -/
structure BloomLib where
  keccak256 : List UInt8 → List UInt8
  bloomLookup : Bloom → List UInt8 → Bool
  bloomLookup_eq : ∀ bloom key, bloomLookup bloom key =
    (bloomIndexes (keccak256 key)).all (bloom.getLsbD ·)

def BloomLib.calcBloomIndexes (lib : BloomLib) (key : List UInt8) : List Nat :=
  bloomIndexes (lib.keccak256 key)

abbrev BitVectors := Nat → Nat → List UInt8

/-- A matcher: the size of a section and the bit indexes of the clauses. -/
structure Matcher where
  sectionSize : Nat
  filters : List (List (List Nat))

def newMatcher (lib : BloomLib) (sectionSize : Nat) (filters : List (List (List UInt8))) :
    Matcher :=
  { sectionSize, filters := filters.map (·.map lib.calcBloomIndexes) }

def copyInto (length : Nat) (bytes : List UInt8) : List UInt8 :=
  bytes.take length ++ replicate (length - bytes.length) 0

namespace Matcher

variable (matcher : Matcher) (vectors : BitVectors)

/-- The blocks of a section that have all bits of a clause; `none` is the nil slice. -/
def andVector (num : Nat) (bits : List Nat) : Option (List UInt8) :=
  bits.foldl (fun vector bit =>
    match vector with
    | none => some (copyInto (matcher.sectionSize / 8) (vectors bit num))
    | some bytes => some (andBytes bytes (vectors bit num))) none

def orVector (num : Nat) (clauses : List (List Nat)) : Option (List UInt8) :=
  clauses.foldl (fun vector bits =>
    match vector, matcher.andVector vectors num bits with
    | none, bytes => bytes
    | some bytes, none => some bytes
    | some bytes, some more => some (orBytes bytes more)) none

/-- `subMatch`: a section is passed on if one of its blocks is left. -/
def subMatch (num : Nat) (bitset : List UInt8) (clauses : List (List Nat)) : Option (List UInt8) :=
  let orVector := (matcher.orVector vectors num clauses).getD
    (replicate (matcher.sectionSize / 8) 0)
  let res := andBytes orVector bitset
  if testBytes res then some res else none

/-- A section as it leaves the chain of sub-matchers. -/
def matchSection (num : Nat) : Option (List UInt8) :=
  matcher.filters.foldlM (matcher.subMatch vectors num) (replicate (matcher.sectionSize / 8) 255)

/-- `run`: the sections of a range that leave the chain. -/
def run (start stop : Nat) : List (Nat × List UInt8) :=
  (range' (start / matcher.sectionSize)
    (stop / matcher.sectionSize + 1 - start / matcher.sectionSize)).filterMap fun num =>
      (matcher.matchSection vectors num).map fun bitset => (num, bitset)

end Matcher

/-- The loop of `Start` over the blocks of a section: a byte without a bit is skipped. -/
def matchBlocks (sectionStart last : Nat) (bitset : List UInt8) (block : Nat) : List Nat :=
  if block ≤ last then
    if bitset.getD ((block - sectionStart) / 8) 0 = 0 then
      if block % 8 = 0 then matchBlocks sectionStart last bitset (block + 7 + 1)
      else matchBlocks sectionStart last bitset (block + 1)
    else if (bitset.getD ((block - sectionStart) / 8) 0).toNat.testBit (7 - block % 8) then
      block :: matchBlocks sectionStart last bitset (block + 1)
    else matchBlocks sectionStart last bitset (block + 1)
  else []
termination_by last + 1 - block

def Matcher.matches (matcher : Matcher) (vectors : BitVectors) (start stop : Nat) : List Nat :=
  (matcher.run vectors start stop).flatMap fun entry =>
    let sectionStart := entry.1 * matcher.sectionSize
    matchBlocks sectionStart (min (sectionStart + matcher.sectionSize - 1) stop) entry.2
      (max sectionStart start)

/-- A block that all groups of clauses have a match in. -/
def Matcher.Inspects (matcher : Matcher) (bloom : Bloom) : Prop :=
  ∀ clauses ∈ matcher.filters, ∃ bits ∈ clauses, ∀ bit ∈ bits, bloom.getLsbD bit = true
deriving Decidable

/-- The bit vectors of a section are the transposed blooms of its blocks. -/
structure Transposed (vectors : BitVectors) (sectionSize num : Nat) (bloomOf : Nat → Bloom) :
    Prop where
  length : ∀ bit, (vectors bit num).length = sectionSize / 8
  bits : ∀ bit place, place < sectionSize →
    bitAt (vectors bit num) place = (bloomOf (num * sectionSize + place)).getLsbD bit

section

variable {matcher : Matcher} {vectors : BitVectors} {num : Nat} {bloomOf : Nat → Bloom}
  (transposed : Transposed vectors matcher.sectionSize num bloomOf)

include transposed

variable (bytes : matcher.sectionSize % 8 = 0)

include bytes

theorem andVector_loop (bits : List Nat) (start : List UInt8)
    (length : start.length = matcher.sectionSize / 8) :
    ∃ vector, bits.foldl (fun vector bit =>
        match vector with
        | none => some (copyInto (matcher.sectionSize / 8) (vectors bit num))
        | some bytes => some (andBytes bytes (vectors bit num))) (some start) = some vector ∧
      vector.length = matcher.sectionSize / 8 ∧
      ∀ place < matcher.sectionSize, bitAt vector place =
        (bitAt start place && bits.all
          ((bloomOf (num * matcher.sectionSize + place)).getLsbD ·)) := by
  induction bits generalizing start with
  | nil => exact ⟨start, rfl, length, by simp⟩
  | cons bit bits ih =>
    have vectorLength := transposed.length bit
    obtain ⟨vector, folded, vectorLen, places⟩ :=
      ih (andBytes start (vectors bit num)) (by rw [length_andBytes]; omega)
    refine ⟨vector, folded, vectorLen, ?_⟩
    intro place within
    rw [places place within, bitAt_andBytes (by omega) (by omega),
      transposed.bits bit place within, all_cons, Bool.and_assoc]

theorem andVector_eq (first : Nat) (bits : List Nat) :
    ∃ vector, matcher.andVector vectors num (first :: bits) = some vector ∧
      vector.length = matcher.sectionSize / 8 ∧
      ∀ place < matcher.sectionSize, bitAt vector place = (first :: bits).all
        ((bloomOf (num * matcher.sectionSize + place)).getLsbD ·) := by
  obtain ⟨vector, folded, length, places⟩ := andVector_loop transposed bytes bits
    (vectors first num) (transposed.length first)
  refine ⟨vector, ?_, length, ?_⟩
  · have whole := transposed.length first
    rw [Matcher.andVector, foldl_cons, copyInto, take_of_length_le (by omega), whole, Nat.sub_self,
      replicate_zero, append_nil, folded]
  · intro place within
    rw [places place within, transposed.bits first place within, all_cons]

theorem orVector_loop (clauses : List (List Nat)) (nonempty : ∀ bits ∈ clauses, bits ≠ [])
    (start : List UInt8) (length : start.length = matcher.sectionSize / 8) :
    ∃ vector, clauses.foldl (fun vector bits =>
        match vector, matcher.andVector vectors num bits with
        | none, bytes => bytes
        | some bytes, none => some bytes
        | some bytes, some more => some (orBytes bytes more)) (some start) = some vector ∧
      vector.length = matcher.sectionSize / 8 ∧
      ∀ place < matcher.sectionSize, bitAt vector place =
        (bitAt start place || clauses.any fun bits => bits.all
          ((bloomOf (num * matcher.sectionSize + place)).getLsbD ·)) := by
  induction clauses generalizing start with
  | nil => exact ⟨start, rfl, length, by simp⟩
  | cons bits clauses ih =>
    cases bits with
    | nil => exact absurd rfl (nonempty [] (by simp))
    | cons first bits =>
      obtain ⟨more, got, moreLength, morePlaces⟩ := andVector_eq transposed bytes first bits
      obtain ⟨vector, folded, vectorLength, places⟩ := ih
        (fun other mem => nonempty other (by simp [mem])) (orBytes start more)
        (by rw [length_orBytes]; omega)
      refine ⟨vector, ?_, vectorLength, ?_⟩
      · rw [foldl_cons, got]
        exact folded
      · intro place within
        rw [places place within, bitAt_orBytes (by omega) (by omega), morePlaces place within,
          any_cons, Bool.or_assoc]

theorem orVector_getD (clauses : List (List Nat)) (nonempty : ∀ bits ∈ clauses, bits ≠ []) :
    ((matcher.orVector vectors num clauses).getD
        (replicate (matcher.sectionSize / 8) 0)).length = matcher.sectionSize / 8 ∧
      ∀ place < matcher.sectionSize, bitAt ((matcher.orVector vectors num clauses).getD
        (replicate (matcher.sectionSize / 8) 0)) place =
          clauses.any fun bits => bits.all
            ((bloomOf (num * matcher.sectionSize + place)).getLsbD ·) := by
  cases clauses with
  | nil => exact ⟨length_replicate, fun place _ => bitAt_zeros _ place⟩
  | cons bits clauses =>
    cases bits with
    | nil => exact absurd rfl (nonempty [] (by simp))
    | cons first bits =>
      obtain ⟨start, got, startLength, startPlaces⟩ := andVector_eq transposed bytes first bits
      obtain ⟨vector, folded, length, places⟩ := orVector_loop transposed bytes clauses
        (fun other mem => nonempty other (by simp [mem])) start startLength
      have whole : matcher.orVector vectors num ((first :: bits) :: clauses) = some vector := by
        rw [Matcher.orVector, foldl_cons, got]
        exact folded
      rw [whole, Option.getD_some]
      refine ⟨length, fun place within => ?_⟩
      rw [places place within, startPlaces place within, any_cons]

theorem foldlM_subMatch (filters : List (List (List Nat)))
    (nonempty : ∀ clauses ∈ filters, ∀ bits ∈ clauses, bits ≠ []) (start : List UInt8)
    (length : start.length = matcher.sectionSize / 8) :
    ∀ place < matcher.sectionSize,
      (bitAt ((filters.foldlM (matcher.subMatch vectors num) start).getD []) place = true ↔
        bitAt start place = true ∧ ∀ clauses ∈ filters, ∃ bits ∈ clauses, ∀ bit ∈ bits,
          (bloomOf (num * matcher.sectionSize + place)).getLsbD bit = true) := by
  induction filters generalizing start with
  | nil =>
    intro place within
    simp
  | cons clauses filters ih =>
    intro place within
    obtain ⟨orLength, orPlaces⟩ := orVector_getD transposed bytes clauses
      (nonempty clauses (by simp))
    have orPlace := orPlaces place within
    rw [foldlM_cons, Matcher.subMatch]
    generalize (matcher.orVector vectors num clauses).getD
      (replicate (matcher.sectionSize / 8) 0) = matched at orLength orPlace ⊢
    have both : bitAt (andBytes matched start) place = true ↔
        (∃ bits ∈ clauses, ∀ bit ∈ bits,
          (bloomOf (num * matcher.sectionSize + place)).getLsbD bit = true) ∧
        bitAt start place = true := by
      rw [bitAt_andBytes (by omega) (by omega), orPlace]
      simp only [Bool.and_eq_true, any_eq_true, all_eq_true]
    rw [forall_mem_cons]
    by_cases tested : testBytes (andBytes matched start) = true
    · have rest := ih (fun other mem => nonempty other (by simp [mem]))
        (andBytes matched start) (by rw [length_andBytes]; omega) place within
      rw [if_pos tested, Option.bind_eq_bind, Option.bind_some, rest, both]
      exact ⟨fun got => ⟨got.1.2, got.1.1, got.2⟩, fun got => ⟨⟨got.2.1, got.1⟩, got.2.2⟩⟩
    · have gone := bitAt_of_testBytes (eq_false_of_ne_true tested) place
      rw [if_neg tested, Option.bind_eq_bind, Option.bind_none, Option.getD_none]
      refine iff_of_false ?_ ?_
      · rw [show bitAt [] place = false from bitAt_zeros 0 place]
        exact Bool.false_ne_true
      · intro got
        rw [both.mpr ⟨got.2.1, got.1⟩] at gone
        cases gone

theorem matchSection_iff (nonempty : ∀ clauses ∈ matcher.filters, ∀ bits ∈ clauses, bits ≠ [])
    {place : Nat} (within : place < matcher.sectionSize) :
    bitAt ((matcher.matchSection vectors num).getD []) place = true ↔
      matcher.Inspects (bloomOf (num * matcher.sectionSize + place)) := by
  rw [Matcher.matchSection, foldlM_subMatch transposed bytes _ nonempty _ length_replicate
    place within, bitAt_ones (by omega)]
  exact and_iff_right rfl

end

theorem range_cons (within : block ≤ last) :
    range' block (last + 1 - block) = block :: range' (block + 1) (last + 1 - (block + 1)) := by
  have count : last + 1 - block = last + 1 - (block + 1) + 1 := by omega
  rw [count, List.range'_succ]

theorem range_append {first mid last : Nat} (left : first ≤ mid) (right : mid ≤ last) :
    range' first (mid - first) ++ range' mid (last - mid) = range' first (last - first) := by
  obtain ⟨count, rfl⟩ := Nat.exists_eq_add_of_le left
  obtain ⟨more, rfl⟩ := Nat.exists_eq_add_of_le right
  rw [Nat.add_sub_cancel_left, Nat.add_sub_cancel_left, List.range'_append_1]
  congr 1
  omega

theorem filter_range_skip {condition : Nat → Bool}
    (none : ∀ other, block ≤ other → other < block + 8 → condition other = false) :
    (range' block (last + 1 - block)).filter condition =
      (range' (block + 8) (last + 1 - (block + 8))).filter condition := by
  have skipped {count : Nat} (few : count ≤ 8) : (range' block count).filter condition = [] := by
    apply filter_eq_nil_iff.mpr
    intro other mem
    have bounds := mem_range'_1.mp mem
    rw [none other bounds.1 (by omega)]
    exact Bool.false_ne_true
  by_cases long : block + 8 ≤ last + 1
  · rw [← range_append (Nat.le_add_right block 8) long, filter_append, skipped (by omega),
      nil_append]
  · rw [skipped (by omega), show last + 1 - (block + 8) = 0 by omega]
    rfl

theorem matchBlocks_eq {sectionStart last : Nat} {bitset : List UInt8}
    (aligned : sectionStart % 8 = 0) (block : Nat) (behind : sectionStart ≤ block) :
    matchBlocks sectionStart last bitset block =
      (range' block (last + 1 - block)).filter fun other =>
        bitAt bitset (other - sectionStart) := by
  induction block using matchBlocks.induct sectionStart last bitset with
  | case1 block within zero whole ih =>
    have empty (other : Nat) (low : block ≤ other) (high : other < block + 8) :
        bitAt bitset (other - sectionStart) = false := by
      apply bitAt_of_zero_byte
      rw [show (other - sectionStart) / 8 = (block - sectionStart) / 8 by omega]
      exact zero
    rw [matchBlocks, if_pos within, if_pos zero, if_pos whole,
      ih (by omega), filter_range_skip empty]
  | case2 block within zero partByte ih =>
    rw [matchBlocks, if_pos within, if_pos zero, if_neg partByte,
      ih (by omega), range_cons within, filter_cons_of_neg]
    rw [bitAt_of_zero_byte zero]
    exact Bool.false_ne_true
  | case3 block within some set ih =>
    have bit : bitAt bitset (block - sectionStart) = true := by
      rw [bitAt, show (block - sectionStart) % 8 = block % 8 by omega]
      exact set
    rw [matchBlocks, if_pos within, if_neg some, if_pos set, ih (by omega),
      range_cons within, filter_cons_of_pos (by exact bit)]
  | case4 block within some clear ih =>
    have bit : ¬ bitAt bitset (block - sectionStart) = true := by
      rw [bitAt, show (block - sectionStart) % 8 = block % 8 by omega]
      exact clear
    rw [matchBlocks, if_pos within, if_neg some, if_neg clear, ih (by omega),
      range_cons within, filter_cons_of_neg (by exact bit)]
  | case5 block beyond =>
    rw [matchBlocks, if_neg beyond, show last + 1 - block = 0 by omega]
    rfl

def sectionBlocks (size start stop num : Nat) : List Nat :=
  range' (max (num * size) start) (min (num * size + size - 1) stop + 1 - max (num * size) start)

theorem range_sections {size start stop : Nat} (positive : 0 < size) (count num : Nat)
    (ends : num + count = stop / size + 1) (begins : start < (num + 1) * size) :
    (range' num count).flatMap (sectionBlocks size start stop) =
      range' (max (num * size) start) (stop + 1 - max (num * size) start) := by
  have stopBounds : stop / size * size ≤ stop ∧ stop < stop / size * size + size :=
    ⟨div_mul_le_self _ _, lt_div_mul_add positive⟩
  induction count generalizing num with
  | zero =>
    have behind : stop + 1 ≤ num * size := by
      rw [show num = stop / size + 1 by omega, succ_mul]
      omega
    rw [show stop + 1 - max (num * size) start = 0 by omega]
    rfl
  | succ count ih =>
    have next := ih (num + 1) (by omega) (by
      rw [succ_mul]
      omega)
    have nextStart : max ((num + 1) * size) start = (num + 1) * size := by omega
    rw [succ_mul] at nextStart begins next
    rw [List.range'_succ, flatMap_cons, next, nextStart, sectionBlocks]
    by_cases last : num * size + size - 1 ≤ stop
    · rw [Nat.min_eq_left last, Nat.sub_add_cancel (by omega)]
      exact range_append (by omega) (by omega)
    · rw [Nat.min_eq_right (by omega), show stop + 1 - (num * size + size) = 0 by omega]
      simp

theorem matches_eq {matcher : Matcher} {vectors : BitVectors} {bloomOf : Nat → Bloom}
    {start stop : Nat} (positive : 0 < matcher.sectionSize) (bytes : matcher.sectionSize % 8 = 0)
    (nonempty : ∀ clauses ∈ matcher.filters, ∀ bits ∈ clauses, bits ≠ []) (ordered : start ≤ stop)
    (transposed : ∀ num ≤ stop / matcher.sectionSize,
      Transposed vectors matcher.sectionSize num bloomOf) :
    matcher.matches vectors start stop = (range' start (stop + 1 - start)).filter fun block =>
        decide (matcher.Inspects (bloomOf block)) := by
  let inspects (block : Nat) := decide (matcher.Inspects (bloomOf block))
  have perSection (num : Nat) (before : num ≤ stop / matcher.sectionSize) :
      ((matcher.matchSection vectors num).map fun bitset => (num, bitset)).toList.flatMap
          (fun entry => matchBlocks (entry.1 * matcher.sectionSize)
            (min (entry.1 * matcher.sectionSize + matcher.sectionSize - 1) stop) entry.2
            (max (entry.1 * matcher.sectionSize) start)) =
        (sectionBlocks matcher.sectionSize start stop num).filter inspects := by
    have aligned : num * matcher.sectionSize % 8 = 0 := by
      rw [Nat.mul_mod, bytes, Nat.mul_zero, Nat.zero_mod]
    -- the bits that are left in the section, also if it is dropped
    have left : (sectionBlocks matcher.sectionSize start stop num).filter (fun block =>
        bitAt ((matcher.matchSection vectors num).getD []) (block - num * matcher.sectionSize)) =
        (sectionBlocks matcher.sectionSize start stop num).filter inspects := by
      apply filter_congr
      intro block mem
      have bounds := mem_range'_1.mp mem
      have bit := matchSection_iff (transposed num before) bytes nonempty
        (show block - num * matcher.sectionSize < matcher.sectionSize by omega)
      rw [Nat.add_sub_cancel' (by omega)] at bit
      rw [Bool.eq_iff_iff, bit, decide_eq_true_iff]
    rw [← left]
    cases matcher.matchSection vectors num with
    | none => simp [show ∀ place, bitAt [] place = false from bitAt_zeros 0]
    | some bitset =>
      simp only [Option.map_some, Option.toList_some, flatMap_singleton]
      exact matchBlocks_eq aligned _ (by omega)
  rw [Matcher.matches, Matcher.run, filterMap_eq_flatMap_toList, flatMap_assoc]
  have startBounds : start / matcher.sectionSize * matcher.sectionSize ≤ start ∧
      start < (start / matcher.sectionSize + 1) * matcher.sectionSize := by
    rw [succ_mul]
    exact ⟨div_mul_le_self _ _, lt_div_mul_add positive⟩
  have sections : start / matcher.sectionSize ≤ stop / matcher.sectionSize :=
    Nat.div_le_div_right ordered
  refine (flatMap_congr (fun num mem => perSection num (by
    have bounds := mem_range'_1.mp mem
    omega))).trans ?_
  rw [← filter_flatMap, range_sections positive _ _ (by omega) startBounds.2,
    Nat.max_eq_right startBounds.1]

end MoacVnode.Core
