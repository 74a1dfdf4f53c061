import Mathlib.Tactic

/-!
# Writing a list of entries into a partial map

Later entries overwrite earlier ones.  A key whose entries all carry one value
ends up with that value, whatever the order of the entries is.
-/

namespace MoacVnode.Lib

universe u v

open List

variable {K : Type u} {V : Type v} [DecidableEq K]

def updates (map : K → Option V) (entries : List (K × V)) : K → Option V :=
  entries.foldl (fun map entry => Function.update map entry.1 (some entry.2)) map

variable {map : K → Option V} {entries : List (K × V)} {key : K} {val : V}

@[simp]
theorem updates_nil : updates map [] = map := rfl

@[simp]
theorem updates_cons (entry : K × V) :
    updates map (entry :: entries) = updates (Function.update map entry.1 (some entry.2)) entries :=
  rfl

theorem updates_of_not_mem (absent : ∀ entry ∈ entries, entry.1 ≠ key) :
    updates map entries key = map key := by
  induction entries generalizing map with
  | nil => rfl
  | cons entry entries ih =>
    have notFirst : key ≠ entry.1 := (absent entry mem_cons_self).symm
    rw [updates_cons, ih]
    · exact Function.update_of_ne notFirst _ _
    · intro other otherMem
      exact absent other (mem_cons_of_mem entry otherMem)

theorem updates_of_mem (present : (key, val) ∈ entries)
    (agree : ∀ entry ∈ entries, entry.1 = key → entry.2 = val) :
    updates map entries key = some val := by
  induction entries generalizing map with
  | nil => cases present
  | cons entry entries ih =>
    rw [updates_cons]
    by_cases later : (key, val) ∈ entries
    · apply ih later
      intro other otherMem
      exact agree other (mem_cons_of_mem entry otherMem)
    · have isFirst : entry = (key, val) := ((mem_cons.mp present).resolve_right later).symm
      rw [updates_of_not_mem, isFirst]
      · exact Function.update_self _ _ _
      · intro other otherMem sameKey
        apply later
        rw [← sameKey, ← agree other (mem_cons_of_mem entry otherMem) sameKey]
        exact otherMem

end MoacVnode.Lib
