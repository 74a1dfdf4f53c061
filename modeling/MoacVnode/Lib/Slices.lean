import Mathlib.Tactic

/-!
# Slice expressions

A slice expression `s[low:high]` panics unless `0 ≤ low ≤ high ≤ len(s)`; the bounds are
signed.  `none` is the panic.
-/

namespace MoacVnode.Lib

universe u v

variable {α : Type u} {σ : Type v} {items : List α} {low high : Int}

def slice (items : List α) (low high : Int) : Option (List α) :=
  if 0 ≤ low ∧ low ≤ high ∧ high ≤ items.length then
    some ((items.drop low.toNat).take (high - low).toNat)
  else none

def sliceFrom (items : List α) (low : Int) : Option (List α) := slice items low items.length

theorem slice_isSome_iff :
    (slice items low high).isSome ↔ 0 ≤ low ∧ low ≤ high ∧ high ≤ items.length := by
  unfold slice
  split <;> simp_all

theorem sliceFrom_isSome_iff : (sliceFrom items low).isSome ↔ 0 ≤ low ∧ low ≤ items.length := by
  simp [sliceFrom, slice_isSome_iff]

theorem slice_of_le {low high : Nat} (ordered : low ≤ high) (within : high ≤ items.length) :
    slice items low high = some ((items.drop low).take (high - low)) := by
  have bounds : (0 : Int) ≤ low ∧ (low : Int) ≤ high ∧ (high : Int) ≤ items.length := by omega
  rw [slice, if_pos bounds]
  congr 2
  omega

theorem sliceFrom_of_le {low : Nat} (within : low ≤ items.length) :
    sliceFrom items low = some (items.drop low) := by
  rw [sliceFrom, slice_of_le within (Nat.le_refl _), List.take_of_length_le (by simp)]

theorem slice_of_not (outside : ¬ (0 ≤ low ∧ low ≤ high ∧ high ≤ items.length)) :
    slice items low high = none :=
  if_neg outside

theorem foldlM_isSome_iff {step : σ → α → Option σ} {safe : α → Prop}
    (stepSafe : ∀ state item, (step state item).isSome ↔ safe item) (items : List α) (state : σ) :
    (items.foldlM step state).isSome ↔ ∀ item ∈ items, safe item := by
  induction items generalizing state with
  | nil => simp
  | cons item items ih =>
    rw [List.foldlM_cons, List.forall_mem_cons, ← stepSafe state item]
    cases taken : step state item with
    | none => simp
    | some next => simpa using ih next

end MoacVnode.Lib
