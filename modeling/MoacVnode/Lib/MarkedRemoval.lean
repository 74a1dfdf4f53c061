import MoacVnode.Lib.ContractStorage

/-!
# Removing marked entries of an array

The marked entries are removed from the last position to the first, each by moving the last entry of
the array into its place.
-/

namespace MoacVnode.Lib

universe u

open List

variable {α : Type u}

def unmarkedFrom (marked : Nat → Bool) (array : List α) (start : Nat) : List α :=
  (List.range' start (array.length - start)).filterMap fun pos =>
    if marked pos then none else array[pos]?

variable {marked : Nat → Bool} {array rest shorter : List α} {entry : α} {i : Nat}

theorem unmarkedFrom_of_lt (inside : i < array.length) :
    unmarkedFrom marked array i =
      (if marked i then [] else [array[i]]) ++ unmarkedFrom marked array (i + 1) := by
  have split : array.length - i = array.length - (i + 1) + 1 := by omega
  simp only [unmarkedFrom, split, List.range'_succ, filterMap_cons]
  cases mark : marked i with
  | true => simp
  | false => simp [List.getElem?_eq_getElem inside]

theorem nodup_unmarkedFrom (nodup : array.Nodup) : (unmarkedFrom marked array i).Nodup := by
  refine List.Nodup.filterMap (fun pos other entry got foundOther => ?_) nodup_range'
  split at got
  · simp at got
  · split at foundOther
    · simp at foundOther
    · obtain ⟨inside, rfl⟩ := List.getElem?_eq_some_iff.mp got
      exact (List.getElem?_inj inside nodup).mp (got.trans foundOther.symm)

/-- The loop that removes the marked entries has come down to position `i`. -/
structure Remains (marked : Nat → Bool) (array rest : List α) (i : Nat) : Prop where
  inside : i ≤ array.length
  perm : rest.Perm (array.take i ++ unmarkedFrom marked array i)
  kept : ∀ pos, pos < rest.length → pos < i ∨ marked pos = false → rest[pos]? = array[pos]?

theorem remains_start : Remains marked array array array.length where
  inside := le_rfl
  perm := by simp [unmarkedFrom]
  kept := fun _ _ _ => rfl

section

variable (remains : Remains marked array rest (i + 1))

include remains

theorem Remains.skip (mark : marked i = false) :
    Remains marked array rest i where
  inside := Nat.le_of_succ_le remains.inside
  perm := by
    have perm := remains.perm
    rw [take_succ_eq_append_getElem remains.inside, append_assoc] at perm
    rwa [unmarkedFrom_of_lt remains.inside, mark, if_neg Bool.false_ne_true]
  kept := fun pos inside free =>
    remains.kept pos inside (free.imp_left fun below => below.trans i.lt_succ_self)

theorem Remains.length_gt : i < rest.length := by
  rw [remains.perm.length_eq, length_append, length_take, Nat.min_eq_left remains.inside]
  omega

theorem Remains.remove {blank : α} (mark : marked i = true)
    (deleted : swapDelete blank rest i (rest.length - 1) = some shorter) :
    Remains marked array shorter i := by
  have long := remains.length_gt
  have bound : i < array.length := remains.inside
  have isLast : rest.length - 1 + 1 = rest.length := by omega
  have got : rest[i]? = some array[i] := by
    rw [remains.kept i long (.inl i.lt_succ_self)]
    exact List.getElem?_eq_getElem bound
  refine ⟨Nat.le_of_succ_le remains.inside, ?_, fun pos inside free => ?_⟩
  · refine (perm_cons array[i]).mp ?_
    calc
      (array[i] :: shorter).Perm rest := perm_of_swapDelete deleted isLast got
      _ |>.Perm (array.take (i + 1) ++ unmarkedFrom marked array (i + 1)) := remains.perm
      _ |>.Perm (array[i] :: (array.take i ++ unmarkedFrom marked array i)) := by
        rw [take_succ_eq_append_getElem bound, unmarkedFrom_of_lt bound, mark, if_pos rfl,
          append_assoc, nil_append]
        exact perm_middle
  · rw [length_of_swapDelete deleted] at inside
    have ne : pos ≠ i := by
      rintro rfl
      simp [mark] at free
    rw [getElem?_of_swapDelete deleted isLast long inside ne]
    exact remains.kept pos (by omega) (free.imp_left fun below => below.trans i.lt_succ_self)

end

theorem remains_of_unmarked (unmarked : ∀ pos, marked pos = false) :
    Remains marked array array 0 := by
  have down (i : Nat) (remains : Remains marked array array i) : Remains marked array array 0 := by
    induction i with
    | zero => exact remains
    | succ i ih => exact ih (remains.skip (unmarked i))
  exact down array.length remains_start

section

variable (remains : Remains marked array rest 0)

include remains

theorem Remains.perm_unmarked : rest.Perm (unmarkedFrom marked array 0) := by
  simpa using remains.perm

theorem Remains.mem_iff : entry ∈ rest ↔ ∃ pos, marked pos = false ∧ array[pos]? = some entry := by
  simp only [remains.perm_unmarked.mem_iff, unmarkedFrom, mem_filterMap, mem_range'_1]
  constructor
  · rintro ⟨pos, -, got⟩
    cases mark : marked pos with
    | true => simp [mark] at got
    | false =>
      simp only [mark] at got
      exact ⟨pos, mark, got⟩
  · rintro ⟨pos, mark, got⟩
    have inside := (List.getElem?_eq_some_iff.mp got).1
    exact ⟨pos, by omega, by simpa [mark] using got⟩

theorem Remains.subset : rest ⊆ array := by
  intro entry mem
  obtain ⟨pos, -, got⟩ := remains.mem_iff.mp mem
  exact mem_of_getElem? got

theorem Remains.nodup (nodup : array.Nodup) : rest.Nodup :=
  remains.perm_unmarked.nodup_iff.mpr (nodup_unmarkedFrom nodup)

theorem Remains.length_eq :
    rest.length = ((List.range array.length).filter fun pos => marked pos = false).length := by
  rw [remains.perm_unmarked.length_eq, unmarkedFrom, length_filterMap_eq_countP,
    ← countP_eq_length_filter, range_eq_range', Nat.sub_zero]
  refine countP_congr fun pos inRange => ?_
  have inside : pos < array.length := by simpa using inRange
  cases mark : marked pos with
  | true => simp
  | false => simp [inside]

end

theorem length_filter_not_mem {positions : List Nat} {count : Nat} (nodup : positions.Nodup)
    (inside : ∀ pos ∈ positions, pos < count) :
    ((List.range count).filter fun pos => decide (pos ∈ positions) = false).length =
      count - positions.length := by
  have chosen : ((List.range count).filter fun pos => pos ∈ positions).Perm
      positions := by
    refine (perm_ext_iff_of_nodup (nodup_range.filter _) nodup).mpr fun pos => ?_
    simp only [mem_filter, mem_range, decide_eq_true_eq, and_iff_right_iff_imp]
    exact inside pos
  have total := length_eq_length_filter_add (l := List.range count)
    fun pos => decide (pos ∈ positions)
  rw [length_range, chosen.length_eq] at total
  simp only [Bool.decide_eq_false]
  omega

end MoacVnode.Lib
