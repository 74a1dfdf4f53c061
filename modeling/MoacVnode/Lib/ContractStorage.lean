import Mathlib.Tactic

/-!
# The storage of a contract

Reading or writing an array past its end reverts the call, which then has no
result.  An entry of an array is deleted by moving the last one into its place.
-/

namespace MoacVnode.Lib

universe u v

open List Option Nat

variable {α : Type u} {entry : α} {array entries : List α} {test : α → Bool}

section

/-- `array[index] = array[last]; delete array[last]; array.length--`. -/
def swapDelete (blank : α) (array : List α) (idx last : Nat) : Option (List α) := do
  let moved ← array[last]?
  if idx < array.length then some ((array.set idx moved).set last blank).dropLast
  else none

variable {blank removed : α} {shorter : List α} {idx last : Nat}

theorem swapDelete_concat {front : List α} {final : α} (fits : idx ≤ front.length) :
    swapDelete blank (front ++ [final]) idx front.length = some (front.set idx final) := by
  have inside : idx < front.length + 1 := lt_succ_of_le fits
  obtain before | same := Nat.lt_or_eq_of_le fits
  · simp [swapDelete, inside, set_append_left _ _ before]
  · simp [swapDelete, same, set_eq_of_length_le]

theorem exists_concat (isLast : last + 1 = array.length) :
    ∃ front final, array = front ++ [final] ∧ last = front.length := by
  obtain rfl | ⟨front, final, rfl⟩ := eq_nil_or_concat array
  · simp at isLast
  · exact ⟨front, final, by simp, by simpa using isLast⟩

theorem exists_swapDelete (fits : idx < array.length) (isLast : last + 1 = array.length) :
    ∃ shorter, swapDelete blank array idx last = some shorter := by
  obtain ⟨front, final, rfl, rfl⟩ := exists_concat isLast
  exact ⟨_, swapDelete_concat (by simpa [Nat.lt_succ_iff] using fits)⟩

section

variable (deleted : swapDelete blank array idx last = some shorter)

include deleted

theorem perm_of_swapDelete (isLast : last + 1 = array.length)
    (got : array[idx]? = some removed) : (removed :: shorter).Perm array := by
  obtain ⟨front, final, rfl, rfl⟩ := exists_concat isLast
  have fits : idx < front.length + 1 := by simpa using (List.getElem?_eq_some_iff.mp got).1
  rw [swapDelete_concat (Nat.lt_succ_iff.mp fits), Option.some_inj] at deleted
  subst deleted
  obtain before | same := Nat.lt_or_eq_of_le (Nat.lt_succ_iff.mp fits)
  · have isRemoved : front[idx] = removed := by
      rw [List.getElem?_append_left before] at got
      exact (List.getElem?_eq_some_iff.mp got).2
    calc
      (removed :: front.set idx final).Perm (removed :: final :: front.eraseIdx idx) :=
        (set_perm_cons_eraseIdx before final).cons removed
      _ |>.Perm (final :: removed :: front.eraseIdx idx) := .swap final removed _
      _ |>.Perm (final :: front) := by
        rw [← isRemoved]
        exact (getElem_cons_eraseIdx_perm before).cons final
      _ |>.Perm (front ++ [final]) := (perm_append_singleton final front).symm
  · subst same
    have isRemoved : final = removed := by simpa using got
    subst isRemoved
    rw [set_eq_of_length_le le_rfl]
    exact (perm_append_singleton final front).symm

theorem getElem?_of_swapDelete (isLast : last + 1 = array.length) (fits : idx < array.length)
    {pos : Nat} (below : pos < last) (ne : pos ≠ idx) :
    shorter[pos]? = array[pos]? := by
  obtain ⟨front, final, rfl, rfl⟩ := exists_concat isLast
  have inside : idx ≤ front.length := by simpa [Nat.lt_succ_iff] using fits
  rw [swapDelete_concat inside, Option.some_inj] at deleted
  subst deleted
  rw [List.getElem?_set_ne ne.symm, List.getElem?_append_left below]

theorem length_of_swapDelete : shorter.length = array.length - 1 := by
  simp only [swapDelete, bind_eq_bind, bind_eq_some_iff] at deleted
  obtain ⟨moved, -, deleted⟩ := deleted
  split at deleted
  · simp only [Option.some_inj] at deleted
    subst deleted
    simp
  · simp at deleted

end

end

theorem mapM_range_getElem? {count : Nat} (inside : count ≤ array.length) :
    (List.range count).mapM (fun i => array[i]?) = some (array.take count) := by
  induction count with
  | zero => rfl
  | succ count ih =>
    rw [range_succ, mapM_append, ih (le_of_succ_le inside), take_succ_eq_append_getElem inside]
    simp [lt_of_succ_le inside]

def updateFirst {α : Type u} (test : α → Bool) (change : α → α) : List α → List α
  | [] => []
  | entry :: entries =>
    if test entry then change entry :: entries
    else entry :: updateFirst test change entries

theorem updateFirst_append {change : α → α} {before after : List α} (passed : test entry = true)
    (prior : ∀ other ∈ before, test other = false) :
    updateFirst test change (before ++ entry :: after) = before ++ change entry :: after := by
  induction before with
  | nil => simp [updateFirst, passed]
  | cons head before ih =>
    rw [forall_mem_cons] at prior
    simp [updateFirst, prior.1, ih prior.2]

theorem updateFirst_of_find? (change : α → α) (got : entries.find? test = some entry) :
    ∃ before after,
      entries = before ++ entry :: after ∧
        updateFirst test change entries = before ++ change entry :: after := by
  obtain ⟨passed, before, after, rfl, prior⟩ := List.find?_eq_some_iff_append.mp got
  refine ⟨before, after, rfl, updateFirst_append passed fun other otherMem => ?_⟩
  simpa using prior other otherMem

theorem findM?_eq_some_some {α : Type} {test : α → Option Bool} {entries : List α} {entry : α}
    (got : entries.findM? test = some (some entry)) : test entry = some true := by
  induction entries with
  | nil => simp [List.findM?] at got
  | cons head entries ih =>
    simp only [List.findM?, bind_eq_bind, bind_eq_some_iff] at got
    obtain ⟨_ | _, tested, got⟩ := got
    · exact ih got
    · cases got
      exact tested

theorem sum_add_of_change {K : Type u} {M : Type v} [DecidableEq K] [AddCommMonoid M]
    {keys : Finset K} {key : K} (before after : K → M) (keyMem : key ∈ keys)
    (elsewhere : ∀ other, other ≠ key → after other = before other) :
    ∑ other ∈ keys, after other + before key = ∑ other ∈ keys, before other + after key := by
  have rest : ∑ other ∈ keys.erase key, after other = ∑ other ∈ keys.erase key, before other :=
    Finset.sum_congr rfl fun other otherMem => elsewhere other (Finset.ne_of_mem_erase otherMem)
  rw [← Finset.add_sum_erase keys after keyMem, rest,
    ← Finset.add_sum_erase keys before keyMem, add_right_comm (before key), add_comm (before key),
    add_right_comm]

end MoacVnode.Lib
