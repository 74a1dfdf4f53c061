import MoacVnode.Accounts.Abi.Unpack

/-!
# Unpacking data of an untrusted source

Which data the decoder takes without leaving it.
-/

namespace MoacVnode.Accounts.Abi

open MoacVnode.Core Lib AbiType
open Outcome (access access_none fault_bind access_some value_bind error_bind)
open List Nat

variable {value : Int} {bytes data : List UInt8} {start count : Nat} {kind : Kind} {tag : TypeTag}
  {i size : Nat} {elem : Elementary}

/-! ## Numbers of 64 bits -/

theorem wrap_of_range (low : -2 ^ 63 ≤ value) (high : value < 2 ^ 63) : wrap value = value := by
  unfold wrap
  omega

theorem wrap_add_wrap (left right : Int) : wrap (left + wrap right) = wrap (left + right) := by
  unfold wrap
  omega

theorem wrap_eq_nat {num : Nat} (same : value = num) (small : num < 2 ^ 63) : wrap value = num := by
  rw [same]
  exact wrap_of_range (by omega) (by omega)

theorem wrap_nat {value : Nat} (small : value < 2 ^ 63) : wrap value = value :=
  wrap_eq_nat rfl small

theorem wrap_of_large {value : Nat} (large : 2 ^ 63 ≤ value) (bound : value < 2 ^ 64) :
    wrap value < 0 := by
  unfold wrap
  omega

/-! ## What the decoder accepts -/

variable (bytes)

def numberBefore (stop : Nat) : Nat := beNat ((bytes.drop (stop - 8)).take 8)

def wordFrom (start : Nat) : List UInt8 := (bytes.drop start).take 32

/-- The elements of an array are read without leaving the data: their end does not wrap around, or
wraps to an end behind the data, or an improper boolean comes first. -/
def ElementsFit (elem : Elementary) (data : List UInt8) (start count : Nat) : Prop :=
  start + 32 * count < 2 ^ 63 ∨
    (start + 32 * count) % 2 ^ 64 < 2 ^ 63 ∧
      (data.length < (start + 32 * count) % 2 ^ 64 ∨
        elem = .bool ∧ ∃ idx, start + 32 * idx + 32 ≤ (start + 32 * count) % 2 ^ 64 ∧
          readBool (wordFrom data (start + 32 * idx)) = .error .badBool)

def SliceFits (elem : Elementary) (bytes : List UInt8) (i : Nat) : Prop :=
  let off := numberBefore bytes (32 * i + 32)
  let size := numberBefore bytes (off + 32)
  off + 32 < 2 ^ 63 ∧
    (off + 32 ≤ bytes.length → size < 2 ^ 63 ∧ ElementsFit elem (bytes.drop (off + 32)) 0 size)

def StringFits (i : Nat) : Prop :=
  let off := numberBefore bytes (32 * i + 32)
  let start := (off + 32) % 2 ^ 64
  off + 32 < 2 ^ 63 ∧ bytes.length < off + 32 ∨
    (off + 32 ≤ bytes.length ∨ 2 ^ 64 ≤ off + 24) ∧ start + numberBefore bytes start < 2 ^ 63

variable {bytes}

def Elementary.supported : Elementary → Bool
  | .string | .bytes | .function => false
  | _ => true

/-- The words that the decoder reads at a position are in its range. -/
def WordsFit (i : Nat) (name : TypeName) (bytes : List UInt8) : Prop :=
  32 * i + 32 ≤ bytes.length →
    match name with
    | .single .string | .single .bytes | .slice .string | .array .string _ => StringFits bytes i
    | .slice elem => elem.supported → SliceFits elem bytes i
    | .array elem size => elem.supported → ElementsFit elem bytes (32 * i) (min size (2 ^ 63 - 1))
    | .single _ => True

/-- A position is decoded to a value or an error, and no length becomes negative. -/
def DecodesSafely (i : Nat) (type : AbiType) (bytes : List UInt8) : Prop :=
  toGoType i type bytes ≠ .fault ∧ ∀ size, lengthRead i type bytes = .value (some size) → 0 ≤ size

/-! ## Elements -/

theorem length_wordFrom (within : start + 32 ≤ bytes.length) :
    (wordFrom bytes start).length = 32 := by
  rw [wordFrom, length_take, length_drop]
  omega

theorem readBool_ne_fault (word : List UInt8) : readBool word ≠ .fault := by
  unfold readBool
  repeat' split
  all_goals simp

theorem readElem_ne_fault (kind : Kind) (tag : TypeTag) (word : List UInt8) :
    readElem kind tag word ≠ .fault := by
  cases tag <;> simp only [readElem, ne_eq, reduceCtorEq, not_false_iff]
  cases read : readBool word with
  | fault => exact absurd read (readBool_ne_fault word)
  | _ => simp

theorem readElem_error_iff {word : List UInt8} (length : word.length = 32) :
    (∃ reason, readElem kind tag word = .error reason) ↔
      tag = .boolTy ∧ readBool word = .error .badBool := by
  by_cases isBool : tag = .boolTy
  · subst isBool
    simp only [readElem]
    cases read : readBool word with
    | value res => simp
    | fault => exact absurd read (readBool_ne_fault word)
    | error reason =>
      have reasonBad : reason = .badBool := by
        simp only [readBool, length, ne_eq, not_true_eq_false, if_false] at read
        split at read
        · simpa using read.symm
        · split at read <;> simp_all
      simp [reasonBad]
  · cases tag <;> simp_all [readElem]

theorem readElems_fault_iff {words : Nat} (length : data.length = 32 * words)
    (small : 32 * words + 32 < 2 ^ 64) (count idx : Nat) (within : idx ≤ words)
    (short : data.length < 2 ^ 63) :
    readElems kind tag data count idx = .fault ↔
      words < idx + count ∧ ∀ place, idx ≤ place → place < words →
        ¬ (tag = .boolTy ∧ readBool (wordFrom data (32 * place)) = .error .badBool) := by
  induction count generalizing idx with
  | zero =>
    simp only [readElems, reduceCtorEq, false_iff]
    omega
  | succ count ih =>
    have startEq : wrap ((idx : Int) * 32) = ((32 * idx : Nat) : Int) := by
      rw [wrap_of_range (by omega) (by omega)]
      omega
    by_cases last : idx = words
    · have outside : slice data (wrap (idx * 32)) (wrap (wrap (idx * 32) + 32)) = none := by
        apply slice_of_not
        unfold wrap
        omega
      simp only [readElems, outside, access_none, fault_bind, true_iff]
      exact ⟨by omega, fun place fromIndex before => by omega⟩
    · have inside : slice data (wrap (idx * 32)) (wrap (wrap (idx * 32) + 32)) =
          some (wordFrom data (32 * idx)) := by
        rw [startEq, wrap_of_range (by omega) (by omega)]
        have got : slice data (32 * idx : Nat) (32 * idx + 32 : Nat) = _ :=
          slice_of_le (by omega) (by omega)
        simpa [wordFrom] using got
      have wordLength : (wordFrom data (32 * idx)).length = 32 := length_wordFrom (by omega)
      have stops : (∃ reason, readElem kind tag (wordFrom data (32 * idx)) =
          .error reason) ↔ _ := readElem_error_iff wordLength
      simp only [readElems, inside, access_some, value_bind]
      cases read : readElem kind tag (wordFrom data (32 * idx)) with
      | fault => exact absurd read (readElem_ne_fault _ _ _)
      | error reason =>
        have bad := stops.mp ⟨reason, read⟩
        simp only [error_bind, reduceCtorEq, false_iff]
        rintro ⟨-, noneBad⟩
        exact noneBad idx (le_refl _) (by omega) bad
      | value item =>
        have good : ¬ (tag = .boolTy ∧ readBool (wordFrom data (32 * idx)) = .error .badBool) := by
          intro bad
          obtain ⟨reason, error⟩ := stops.mpr bad
          simp [read] at error
        have rest := ih (idx + 1) (by omega)
        rw [value_bind]
        have unwrapped : (readElems kind tag data count (idx + 1) >>= fun items =>
            Outcome.value (item :: items)) = .fault ↔
              readElems kind tag data count (idx + 1) = .fault := by
          cases readElems kind tag data count (idx + 1) <;> simp
        rw [unwrapped, rest]
        constructor
        · rintro ⟨reaches, noneBad⟩
          refine ⟨by omega, fun place fromIndex before => ?_⟩
          by_cases here : place = idx
          · exact here ▸ good
          · exact noneBad place (by omega) before
        · rintro ⟨reaches, noneBad⟩
          exact ⟨by omega, fun place fromIndex before => noneBad place (by omega) before⟩

theorem wordFrom_window {place : Nat} (within : 32 * place + 32 ≤ size) :
    wordFrom ((data.drop start).take size) (32 * place) = wordFrom data (start + 32 * place) := by
  rw [wordFrom, wordFrom, drop_take, take_take, drop_drop, min_eq_left]
  omega

/-- What is done with the elements of an array: the check of the end, the slice expression and the
loop. -/
def LeavesData (kind : Kind) (tag : TypeTag) (data : List UInt8) (start count : Nat) : Prop :=
  wrap ((start + 32 * count : Nat) : Int) ≤ data.length ∧
    ∀ window, slice data start (wrap ((start + 32 * count : Nat) : Int)) = some window →
      readElems kind tag window count 0 = .fault

theorem takeWindow_fault_iff {low stop size : Int} (reason : AbiError) (lowEq : low = start)
    (stopEq : stop = wrap ((start + 32 * count : Nat) : Int)) (sizeEq : size = count) :
    (takeWindow reason data low stop size >>= fun got =>
        readElems kind tag got.1 got.2.toNat 0) = .fault ↔
      LeavesData kind tag data start count := by
  rw [LeavesData, ← stopEq, sizeEq, lowEq, takeWindow]
  by_cases beyond : stop > data.length
  · rw [if_pos beyond, error_bind]
    exact iff_of_false nofun (fun leaves => absurd beyond (not_lt.mpr leaves.1))
  · rw [if_neg beyond, and_iff_right (not_lt.mp beyond)]
    cases slice data start stop with
    | none => exact iff_of_true rfl nofun
    | some window =>
      simp only [access_some, value_bind, Option.some.injEq, forall_eq', Int.toNat_natCast]

theorem leavesData_iff (within : start ≤ data.length) (short : data.length < 2 ^ 63) :
    LeavesData kind elem.component.tag data start count ↔ ¬ ElementsFit elem data start count := by
  have isBool : elem.component.tag = .boolTy ↔ elem = .bool := by
    cases elem <;> simp [Elementary.component]
  -- the slice expression of an end that lies between the start and the end of the data
  have loops (words : Nat) (reaches : start + 32 * words ≤ data.length) :
      (∀ window, slice data start ((start + 32 * words : Nat) : Int) = some window →
        readElems kind elem.component.tag window count 0 = .fault) ↔
        words < count ∧ ∀ place, place < words → ¬ (elem = .bool ∧
          readBool (wordFrom data (start + 32 * place)) = .error .badBool) := by
    have got : slice data start (start + 32 * words : Nat) = _ := slice_of_le (by omega) reaches
    rw [Nat.add_sub_cancel_left] at got
    have length : ((data.drop start).take (32 * words)).length = 32 * words := by
      rw [length_take, length_drop]
      omega
    have faults : readElems kind elem.component.tag _ count 0 = .fault ↔ _ :=
      readElems_fault_iff length (by omega) count 0 (by omega) (by omega)
    rw [got]
    simp only [Option.some.injEq, forall_eq', faults, zero_add, zero_le, true_imp_iff]
    apply and_congr_right'
    apply forall₂_congr
    intro place before
    rw [wordFrom_window (by omega), isBool]
  unfold LeavesData ElementsFit
  by_cases direct : start + 32 * count < 2 ^ 63
  · rw [wrap_nat direct]
    simp only [direct, true_or, not_true_eq_false, iff_false, not_and]
    intro reaches faults
    exact absurd ((loops count (by omega)).mp faults).1 (lt_irrefl _)
  · simp only [direct, false_or]
    generalize reachEq : (start + 32 * count) % 2 ^ 64 = reach
    by_cases negative : reach < 2 ^ 63
    · have wrapped : wrap ((start + 32 * count : Nat) : Int) = reach := by
        unfold wrap
        omega
      rw [wrapped]
      simp only [negative, true_and, not_or, not_lt, cast_le]
      apply and_congr_right
      intro reaches
      by_cases before : reach < start
      · have outside : slice data start reach = none := slice_of_not (by omega)
        simp only [outside, reduceCtorEq, false_imp_iff, implies_true, true_iff, not_and,
          not_exists]
        intro _ idx inside
        omega
      · obtain ⟨words, reachWords, fewer⟩ : ∃ words, reach = start + 32 * words ∧ words < count :=
          ⟨(reach - start) / 32, by omega, by omega⟩
        subst reachWords
        rw [loops words reaches]
        constructor
        · intro passes stopped
          obtain ⟨bool, idx, inside, bad⟩ := stopped
          exact passes.2 idx (by omega) ⟨bool, bad⟩
        · intro noStop
          refine ⟨fewer, fun place before bad => noStop ⟨bad.1, place, by omega, bad.2⟩⟩
    · have wrapped : wrap ((start + 32 * count : Nat) : Int) < 0 := by
        unfold wrap
        omega
      have outside : slice data start (wrap ((start + 32 * count : Nat) : Int)) = none :=
        slice_of_not (by omega)
      simp only [outside, reduceCtorEq, false_imp_iff, implies_true, and_true]
      omega

/-! ## Offsets -/

section

theorem numberBefore_lt (stop : Nat) : numberBefore bytes stop < 2 ^ 64 := by
  have bound := beNat_lt ((bytes.drop (stop - 8)).take 8)
  have atMost : ((bytes.drop (stop - 8)).take 8).length ≤ 8 := by
    rw [length_take]
    omega
  have grows : 256 ^ ((bytes.drop (stop - 8)).take 8).length ≤ 256 ^ 8 :=
    Nat.pow_le_pow_right (by omega) atMost
  unfold numberBefore
  omega

theorem access_numberBefore {stop : Nat} (width : start + 8 = stop) (within : stop ≤ bytes.length) :
    (access (slice bytes start stop) >>= fun word => .value (intOfUint64 word)) =
      .value (wrap (numberBefore bytes stop)) := by
  subst width
  rw [slice_of_le (by omega) within, Nat.add_sub_cancel_left]
  rfl

theorem readOffset_eq (within : 32 * i + 32 ≤ bytes.length) (short : bytes.length < 2 ^ 63) :
    readOffset (32 * i : Nat) bytes = .value (wrap (numberBefore bytes (32 * i + 32))) := by
  have low : wrap (((32 * i : Nat) : Int) + 24) = (32 * i + 24 : Nat) :=
    wrap_eq_nat (by omega) (by omega)
  have high : wrap (((32 * i : Nat) : Int) + 32) = (32 * i + 32 : Nat) :=
    wrap_eq_nat (by omega) (by omega)
  rw [readOffset, low, high]
  exact access_numberBefore rfl within

variable {off : Nat}

theorem sliceAt_of_within (short : bytes.length < 2 ^ 63) (within : off + 32 ≤ bytes.length) :
    sliceAt (wrap off) bytes =
      .value (bytes.drop (off + 32), wrap (numberBefore bytes (off + 32))) := by
  have stop : wrap ((off : Int) + 32) = (off + 32 : Nat) := wrap_eq_nat (by omega) (by omega)
  have checked : ¬ ((off + 32 : Nat) : Int) > bytes.length := by omega
  have sizeWord : slice (bytes.drop off) (24 : Nat) (32 : Nat) =
      some (((bytes.drop off).drop 24).take 8) :=
    slice_of_le (by omega) (by rw [length_drop]; omega)
  have rest : sliceFrom (bytes.drop off) (32 : Nat) = some ((bytes.drop off).drop 32) :=
    sliceFrom_of_le (by rw [length_drop]; omega)
  rw [wrap_nat (by omega), sliceAt, stop, if_neg checked, sliceFrom_of_le (by omega)]
  simp only [access_some, value_bind]
  rw [show (24 : Int) = (24 : Nat) from rfl, show (32 : Int) = (32 : Nat) from rfl, sizeWord, rest]
  simp only [drop_drop]
  rfl

theorem beyond_of_small (small : off + 32 < 2 ^ 63) (beyond : bytes.length < off + 32) :
    wrap (wrap off + 32) > bytes.length := by
  unfold wrap
  omega

theorem sliceAt_of_wrapped (short : bytes.length < 2 ^ 63) (large : 2 ^ 63 ≤ off + 32)
    (bound : off < 2 ^ 64) (holdsWord : 32 ≤ bytes.length) :
    sliceAt (wrap off) bytes = .fault := by
  have passes : ¬ wrap (wrap off + 32) > bytes.length := by
    unfold wrap
    omega
  rw [sliceAt, if_neg passes]
  by_cases ran : off ≤ bytes.length
  · -- the offset itself is no larger than the data, but fewer than 32 bytes follow
    have outside : slice (bytes.drop off) 24 32 = none := by
      apply slice_of_not
      rw [length_drop]
      omega
    rw [wrap_nat (by omega), sliceFrom_of_le ran]
    simp only [access_some, value_bind, outside, access_none, fault_bind]
  · have outside : sliceFrom bytes (wrap off) = none := by
      apply slice_of_not
      unfold wrap
      omega
    rw [outside, access_none, fault_bind]

theorem stringAt_of_within (short : bytes.length < 2 ^ 63) (bound : off < 2 ^ 64)
    (holdsWord : 32 ≤ bytes.length) (within : off + 32 ≤ bytes.length ∨ 2 ^ 64 ≤ off + 24) :
    wrap (wrap off + 32) = ((off + 32) % 2 ^ 64 : Nat) ∧
      stringAt (wrap off) bytes = .value (wrap (numberBefore bytes ((off + 32) % 2 ^ 64))) := by
  generalize startEq : (off + 32) % 2 ^ 64 = start
  have stop : wrap (wrap off + 32) = start := by
    unfold wrap
    omega
  have low : wrap (wrap off + 24) = (start - 8 : Nat) := by
    unfold wrap
    omega
  have checked : ¬ (start : Int) > bytes.length := by omega
  rw [stringAt, stop, low, if_neg checked]
  exact ⟨rfl, access_numberBefore (by omega) (by omega)⟩

theorem stringAt_of_wrapped (large : 2 ^ 63 ≤ off + 32) (below : off + 24 < 2 ^ 64)
    (holdsWord : 32 ≤ bytes.length) : stringAt (wrap off) bytes = .fault := by
  have passes : ¬ wrap (wrap off + 32) > bytes.length := by
    unfold wrap
    omega
  have outside : slice bytes (wrap (wrap off + 24)) (wrap (wrap off + 32)) = none := by
    apply slice_of_not
    unfold wrap
    omega
  rw [stringAt, if_neg passes, outside, access_none, fault_bind]

end

section

variable (within : 32 * i + 32 ≤ bytes.length) (short : bytes.length < 2 ^ 63)

include within short

theorem stringData_safe_iff :
    (stringData (32 * i : Nat) bytes ≠ .fault ∧
      ∀ size, (readOffset (32 * i : Nat) bytes >>= fun off => stringAt off bytes) =
        .value size → 0 ≤ size) ↔
      StringFits bytes i := by
  have bound : numberBefore bytes (32 * i + 32) < 2 ^ 64 := numberBefore_lt _
  rw [stringData, readOffset_eq within short, StringFits]
  simp only [value_bind]
  generalize numberBefore bytes (32 * i + 32) = off at bound ⊢
  by_cases ran : off + 32 ≤ bytes.length ∨ 2 ^ 64 ≤ off + 24
  · obtain ⟨stop, read⟩ := stringAt_of_within short bound (by omega) ran
    have sizeBound : numberBefore bytes ((off + 32) % 2 ^ 64) < 2 ^ 64 := numberBefore_lt _
    have notBehind : ¬ (off + 32 < 2 ^ 63 ∧ bytes.length < off + 32) := by omega
    have startWithin : (off + 32) % 2 ^ 64 ≤ bytes.length := by omega
    rw [read, stop]
    simp only [value_bind, Outcome.value.injEq, forall_eq']
    rw [or_iff_right notBehind, and_iff_right ran]
    generalize (off + 32) % 2 ^ 64 = start at sizeBound startWithin ⊢
    generalize numberBefore bytes start = size at sizeBound ⊢
    by_cases fits : start + size < 2 ^ 63
    · have sizeEq : wrap size = size := wrap_nat (by omega)
      have stopEq : wrap ((start : Int) + size) = (start + size : Nat) :=
        wrap_eq_nat (by omega) fits
      rw [sizeEq, stopEq]
      refine iff_of_true ⟨?_, by omega⟩ fits
      split
      · simp
      · rw [slice_of_le (by omega) (by omega)]
        simp
    · refine iff_of_false ?_ fits
      intro safe
      apply safe.1
      have small : size < 2 ^ 63 := by
        by_contra large
        have negative := wrap_of_large (not_lt.mp large) sizeBound
        omega
      have stopNegative : wrap ((start : Int) + wrap size) < 0 := by
        unfold wrap
        omega
      have outside : slice bytes start (wrap ((start : Int) + wrap size)) = none :=
        slice_of_not (by omega)
      rw [if_neg (by omega), outside]
      rfl
  · rw [or_iff_left (fun fits => ran fits.1)]
    by_cases small : off + 32 < 2 ^ 63
    · rw [stringAt, if_pos (beyond_of_small small (by omega))]
      exact iff_of_true ⟨nofun, nofun⟩ ⟨small, by omega⟩
    · rw [stringAt_of_wrapped (by omega) (by omega) (by omega)]
      exact iff_of_false (fun safe => safe.1 rfl) (fun fits => small fits.1)

theorem sliceData_safe_iff (kind : Kind) (elem : Elementary) :
    ((sliceData (32 * i : Nat) bytes >>= fun got =>
        readElems kind elem.component.tag got.1 got.2.toNat 0) ≠ .fault ∧
      ∀ got, (readOffset (32 * i : Nat) bytes >>= fun off => sliceAt off bytes) =
        .value got → 0 ≤ got.2) ↔
      SliceFits elem bytes i := by
  have bound : numberBefore bytes (32 * i + 32) < 2 ^ 64 := numberBefore_lt _
  rw [sliceData, readOffset_eq within short, SliceFits]
  simp only [value_bind]
  generalize numberBefore bytes (32 * i + 32) = off at bound ⊢
  by_cases small : off + 32 < 2 ^ 63
  · by_cases ran : off + 32 ≤ bytes.length
    · have sizeBound : numberBefore bytes (off + 32) < 2 ^ 64 := numberBefore_lt _
      rw [sliceAt_of_within short ran]
      rw [and_iff_right small, imp_iff_right ran]
      simp only [value_bind, Outcome.value.injEq, forall_eq']
      by_cases negative : numberBefore bytes (off + 32) < 2 ^ 63
      · have leaves : LeavesData kind elem.component.tag (bytes.drop (off + 32)) 0
            (numberBefore bytes (off + 32)) ↔ _ :=
          leavesData_iff (zero_le _) (by rw [length_drop]; omega)
        have sizeEq := wrap_nat negative
        have stopEq : wrap (wrap (numberBefore bytes (off + 32)) * 32) =
            wrap ((0 + 32 * numberBefore bytes (off + 32) : Nat) : Int) := by
          rw [sizeEq, zero_add, mul_comm, cast_mul]
          rfl
        rw [ne_eq, takeWindow_fault_iff _ cast_zero.symm stopEq sizeEq, leaves, not_not,
          sizeEq, and_comm]
        exact and_congr_left' (iff_of_true (Int.natCast_nonneg _) negative)
      · refine iff_of_false (fun safe => ?_) (fun fits => negative fits.1)
        have large := wrap_of_large (not_lt.mp negative) sizeBound
        omega
    · rw [sliceAt, if_pos (beyond_of_small small (by omega))]
      exact iff_of_true ⟨nofun, nofun⟩ ⟨small, fun within => absurd within ran⟩
  · rw [sliceAt_of_wrapped short (by omega) bound (by omega)]
    exact iff_of_false (fun safe => safe.1 rfl) (fun fits => small fits.1)

theorem arrayData_safe_iff (kind : Kind) (elem : Elementary) (size : Nat) :
    (arrayData (32 * i : Nat) (atoi size) bytes >>= fun got =>
        readElems kind elem.component.tag got.1 got.2.toNat 0) ≠ .fault ↔
      ElementsFit elem bytes (32 * i) (min size (2 ^ 63 - 1)) := by
  have leaves : LeavesData kind elem.component.tag bytes (32 * i) (min size (2 ^ 63 - 1)) ↔ _ :=
    leavesData_iff (by omega) short
  have sizeEq : atoi size = (min size (2 ^ 63 - 1) : Nat) := by
    unfold atoi
    omega
  have stopEq : wrap (((32 * i : Nat) : Int) + wrap (32 * atoi size)) =
      wrap ((32 * i + 32 * min size (2 ^ 63 - 1) : Nat) : Int) := by
    rw [wrap_add_wrap, sizeEq]
    congr 1
  rw [arrayData, ne_eq, takeWindow_fault_iff _ rfl stopEq sizeEq, leaves, not_not]

end

/-! ## Types -/

theorem supportedElem_component (elem : Elementary) :
    supportedElem elem.component.tag = elem.supported := by
  cases elem <;> rfl

theorem list_fault_iff (kind : Kind) (outcome : Outcome (List Scalar)) :
    (outcome >>= fun items => Outcome.value (GoValue.list kind items)) = .fault ↔
      outcome = .fault := by
  cases outcome <;> simp

section

variable {type : AbiType}

section

variable (fits : 32 * i + 32 < 2 ^ 63)

include fits

theorem wrap_index : wrap ((i : Int) * 32) = (32 * i : Nat) :=
  wrap_eq_nat (by omega) (by omega)

theorem wrap_index_add : wrap (((32 * i : Nat) : Int) + 32) = (32 * i + 32 : Nat) :=
  wrap_eq_nat (by omega) fits

theorem decodesSafely_of_beyond (beyond : bytes.length < 32 * i + 32) :
    DecodesSafely i type bytes := by
  have checked : ((32 * i + 32 : Nat) : Int) > bytes.length := by omega
  simp only [DecodesSafely, toGoType, toGoSlice, lengthRead, wrap_index fits, wrap_index_add fits,
    if_pos checked]
  refine ⟨?_, nofun⟩
  split <;> nofun

end

variable (within : 32 * i + 32 ≤ bytes.length) (short : bytes.length < 2 ^ 63)

include within short

theorem index_within :
    wrap ((i : Int) * 32) = (32 * i : Nat) ∧
      wrap (((32 * i : Nat) : Int) + 32) = (32 * i + 32 : Nat) ∧
      ¬ ((32 * i + 32 : Nat) : Int) > bytes.length :=
  ⟨wrap_index (by omega), wrap_index_add (by omega), by omega⟩

theorem toGoType_within (notSlice : type.decodedAsSlice = false) :
    toGoType i type bytes = (type.returnOutput (32 * i : Nat) bytes >>= type.convert) := by
  obtain ⟨idx, next, checked⟩ := index_within within short
  simp only [toGoType, notSlice, Bool.false_eq_true, if_false, idx, next, if_neg checked]

theorem toGoType_elements (asSlice : type.decodedAsSlice = true)
    (elemEq : type.elem = some elem.component) (supported : elem.supported = true) :
    toGoType i type bytes = (type.elementData (32 * i : Nat) bytes >>= fun got =>
        readElems type.kind elem.component.tag got.1 got.2.toNat 0) >>= fun items =>
          .value (.list (refSliceKind type.kind elem.component.tag) items) := by
  obtain ⟨idx, next, checked⟩ := index_within within short
  simp only [toGoType, asSlice, toGoSlice, idx, next,
    if_neg checked, elemEq, supportedElem_component, supported]
  cases type.elementData (32 * i : Nat) bytes <;> simp

theorem decodesSafely_string (notSlice : type.decodedAsSlice = false)
    (tag : type.tag = .stringTy ∨ type.tag = .bytesTy) :
    DecodesSafely i type bytes ↔ StringFits bytes i := by
  obtain ⟨idx, next, checked⟩ := index_within within short
  have converts (outcome : Outcome (List UInt8)) :
      (outcome >>= type.convert) = .fault ↔ outcome = .fault := by
    cases outcome <;> rcases tag with tag | tag <;> simp [convert, tag]
  have reads : type.returnOutput (32 * i : Nat) bytes = stringData (32 * i : Nat) bytes := by
    rcases tag with tag | tag <;> simp only [returnOutput, tag]
  have lengths (size : Int) : lengthRead i type bytes = .value (some size) ↔
      (readOffset (32 * i : Nat) bytes >>= fun off => stringAt off bytes) = .value size := by
    have read : lengthRead i type bytes = (readOffset (32 * i : Nat) bytes >>= fun off =>
        stringAt off bytes) >>= fun size => .value (some size) := by
      rcases tag with tag | tag <;>
        simp only [lengthRead, notSlice, idx, next, if_neg checked, tag] <;>
        cases readOffset (32 * i : Nat) bytes <;> simp
    rw [read]
    cases readOffset (32 * i : Nat) bytes >>= fun off => stringAt off bytes <;> simp
  rw [← stringData_safe_iff within short, DecodesSafely, toGoType_within within short notSlice,
    reads]
  simp only [ne_eq, converts, lengths]

theorem returnOutput_word (notString : type.tag ≠ .stringTy) (notBytes : type.tag ≠ .bytesTy) :
    type.returnOutput (32 * i : Nat) bytes = .value (wordFrom bytes (32 * i)) := by
  have word : slice bytes (32 * i : Nat) (32 * i + 32 : Nat) = some (wordFrom bytes (32 * i)) := by
    rw [slice_of_le (by omega) within, Nat.add_sub_cancel_left, wordFrom]
  have taken : type.returnOutput (32 * i : Nat) bytes =
      access (slice bytes (32 * i : Nat) (wrap (((32 * i : Nat) : Int) + 32))) := by
    cases tag : type.tag <;> simp_all [returnOutput]
  rw [taken, wrap_index_add (by omega), word, access_some]

theorem decodesSafely_word (notSlice : type.decodedAsSlice = false)
    (notString : type.tag ≠ .stringTy) (notBytes : type.tag ≠ .bytesTy) :
    DecodesSafely i type bytes := by
  obtain ⟨idx, next, checked⟩ := index_within within short
  have converts (word : List UInt8) : type.convert word ≠ .fault := by
    cases tag : type.tag <;> simp only [convert, tag, ne_eq, reduceCtorEq, not_false_iff]
    cases read : readBool word with
    | fault => exact absurd read (readBool_ne_fault word)
    | _ => simp
  have noLength : lengthRead i type bytes = .value none := by
    simp only [lengthRead, notSlice, Bool.false_eq_true, if_false, idx, next, if_neg checked]
  refine ⟨?_, by simp [noLength]⟩
  rw [toGoType_within within short notSlice, returnOutput_word within short notString notBytes,
    value_bind]
  exact converts _

section

variable (asSlice : type.decodedAsSlice = true)

include asSlice

section

variable (elemEq : type.elem = some elem.component)

include elemEq

theorem decodesSafely_slice (supported : elem.supported = true) (isSlice : type.isSlice = true) :
    DecodesSafely i type bytes ↔ SliceFits elem bytes i := by
  obtain ⟨idx, next, checked⟩ := index_within within short
  have data : type.elementData (32 * i : Nat) bytes = sliceData (32 * i : Nat) bytes := by
    rw [elementData, if_pos isSlice]
  have lengths : (∀ size, lengthRead i type bytes = .value (some size) → 0 ≤ size) ↔
      ∀ got, (readOffset (32 * i : Nat) bytes >>= fun off => sliceAt off bytes) =
        .value got → 0 ≤ got.2 := by
    have read : lengthRead i type bytes = (readOffset (32 * i : Nat) bytes >>= fun off =>
        sliceAt off bytes) >>= fun got => .value (some got.2) := by
      simp only [lengthRead, asSlice, if_true, elemEq, supportedElem_component, supported, isSlice,
        idx, next, if_neg checked]
      cases readOffset (32 * i : Nat) bytes <;> simp
    rw [read]
    cases readOffset (32 * i : Nat) bytes >>= fun off => sliceAt off bytes <;> simp
  rw [← sliceData_safe_iff within short type.kind elem, DecodesSafely, lengths,
    toGoType_elements within short asSlice elemEq supported, data, ne_eq, list_fault_iff]

theorem decodesSafely_array (supported : elem.supported = true) (notSlice : type.isSlice = false)
    (isArray : type.isArray = true) (sizeEq : type.sliceSize = atoi size) :
    DecodesSafely i type bytes ↔ ElementsFit elem bytes (32 * i) (min size (2 ^ 63 - 1)) := by
  obtain ⟨idx, next, checked⟩ := index_within within short
  have data : type.elementData (32 * i : Nat) bytes =
      arrayData (32 * i : Nat) (atoi size) bytes := by
    simp only [elementData, notSlice, Bool.false_eq_true, if_false, isArray, if_true, sizeEq]
  have noLength : lengthRead i type bytes = .value none := by
    simp only [lengthRead, asSlice, if_true, elemEq, notSlice, Bool.false_eq_true, and_false,
      if_false, idx, next, if_neg checked]
  rw [← arrayData_safe_iff within short type.kind elem, DecodesSafely, noLength,
    toGoType_elements within short asSlice elemEq supported, data, ne_eq, list_fault_iff]
  simp

theorem decodesSafely_unsupported (unsupported : elem.supported = false) :
    DecodesSafely i type bytes := by
  obtain ⟨idx, next, checked⟩ := index_within within short
  simp only [DecodesSafely, toGoType, lengthRead, asSlice, if_true, toGoSlice, idx, next, if_neg
    checked, elemEq, supportedElem_component, unsupported]
  exact ⟨nofun, nofun⟩

end

end

end

theorem decodesSafely_iff {name : TypeName} (fits : 32 * i + 32 < 2 ^ 63)
    (short : bytes.length < 2 ^ 63) :
    DecodesSafely i (newType name) bytes ↔ WordsFit i name bytes := by
  by_cases within : 32 * i + 32 ≤ bytes.length
  · rw [WordsFit.eq_def, imp_iff_right within]
    cases name with
    | single elem =>
      cases elem with
      | string => exact decodesSafely_string within short rfl (.inl rfl)
      | bytes => exact decodesSafely_string within short rfl (.inr rfl)
      | _ => exact iff_of_true (decodesSafely_word within short rfl nofun nofun) trivial
    | slice elem =>
      cases elem with
      | string => exact decodesSafely_string within short rfl (.inl rfl)
      | bytes | function =>
        exact iff_of_true (decodesSafely_unsupported within short rfl rfl rfl) nofun
      | _ =>
        rw [decodesSafely_slice within short rfl rfl rfl rfl]
        exact (imp_iff_right rfl).symm
    | array elem size =>
      cases elem with
      | string => exact decodesSafely_string within short rfl (.inl rfl)
      | bytes | function =>
        exact iff_of_true (decodesSafely_unsupported within short rfl rfl rfl) nofun
      | _ =>
        rw [decodesSafely_array within short rfl rfl rfl rfl rfl rfl]
        exact (imp_iff_right rfl).symm
  · refine iff_of_true (decodesSafely_of_beyond fits (by omega)) ?_
    intro ran
    exact absurd ran within

structure ReturnData where
  bytes : List UInt8
  short : bytes.length < 2 ^ 63

structure OutputTypes where
  names : List TypeName
  nonempty : names ≠ []
  few : 32 * names.length < 2 ^ 63

/-- The outputs are decoded safely exactly if the offsets and lengths in the data are in the range
of the decoder. -/
theorem decoding_safe_iff (outputs : OutputTypes) (data : ReturnData) :
    (∀ (i : Nat) (name : TypeName), outputs.names[i]? = some name →
      DecodesSafely i (newType name) data.bytes) ↔
      ∀ (i : Nat) (name : TypeName), outputs.names[i]? = some name →
        WordsFit i name data.bytes := by
  apply forall₃_congr
  intro i name got
  apply decodesSafely_iff
  · have pos : i < outputs.names.length := (List.getElem?_eq_some_iff.mp got).1
    have few := outputs.few
    omega
  · exact data.short

/-- A single word with all bits set, returned for a dynamic array: the offset is -1. -/
theorem offset_of_ones_faults :
    ∃ (outputs : OutputTypes) (data : ReturnData) (i : Nat) (name : TypeName),
      outputs.names[i]? = some name ∧ toGoType i (newType name) data.bytes = .fault :=
  ⟨⟨[.slice (.uint 256)], nofun, by decide⟩, ⟨List.replicate 32 255, by decide⟩, 0, _, rfl,
    by decide⟩

end MoacVnode.Accounts.Abi
