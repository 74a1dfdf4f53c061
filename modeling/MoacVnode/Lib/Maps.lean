import Mathlib.Data.List.AList
import Mathlib.Tactic

/-!
# Maps that are iterated in any order

The iteration order of a map is not specified.  A number chooses it: `shuffle`
reads the number in the factorial base, so that every order is one of its
values.
-/

namespace MoacVnode.Lib

universe u v

open List AList

variable {α : Type u}

def shuffle : Nat → List α → List α
  | _, [] => []
  | choice, item :: items =>
    (shuffle (choice / (items.length + 1)) items).insertIdx (choice % (items.length + 1)) item

theorem shuffle_perm (choice : Nat) (items : List α) : (shuffle choice items).Perm items := by
  induction items generalizing choice with
  | nil => exact List.Perm.refl _
  | cons item items ih =>
    have rest := ih (choice / (items.length + 1))
    have inside : choice % (items.length + 1) ≤
        (shuffle (choice / (items.length + 1)) items).length := by
      rw [rest.length_eq]
      exact Nat.le_of_lt_succ (Nat.mod_lt _ (Nat.succ_pos _))
    exact (perm_insertIdx item _ inside).trans (rest.cons item)

theorem mem_shuffle {choice : Nat} {items : List α} {item : α} :
    item ∈ shuffle choice items ↔ item ∈ items :=
  (shuffle_perm choice items).mem_iff

section

variable {β : α → Type v} [DecidableEq α]

def eraseAll (map : AList β) (keys : List α) : AList β :=
  keys.foldl (fun map key => map.erase key) map

theorem lookup_eraseAll {map : AList β} {keys : List α} {key : α} :
    (eraseAll map keys).lookup key = if key ∈ keys then none else map.lookup key := by
  induction keys generalizing map with
  | nil =>
    rfl
  | cons first rest ih =>
    change (eraseAll (map.erase first) rest).lookup key = _
    rw [ih]
    by_cases atFirst : key = first
    · subst atFirst
      rw [lookup_erase, ite_self, if_pos mem_cons_self]
    · rw [lookup_erase_ne atFirst]
      exact if_congr (by rw [mem_cons, or_iff_right atFirst]) rfl rfl

end

section

variable {β : α → Type v} [DecidableEq α] {map other : AList β} {key : α}

omit [DecidableEq α] in
theorem length_entries (map : AList β) : map.entries.length = map.keys.length :=
  (length_map Sigma.fst).symm

theorem length_insert_le (map : AList β) (key : α) (val : β key) :
    (map.insert key val).entries.length ≤ map.entries.length + 1 := by
  rw [length_entries, length_entries, keys_insert, length_cons]
  exact Nat.succ_le_succ erase_sublist.length_le

section

variable (subset : ∀ {spot val}, other.lookup spot = some val → (map.lookup spot).isSome)

include subset

theorem keys_subset_of_lookup : other.keys ⊆ map.keys := fun spot mem => by
  obtain ⟨val, got⟩ := Option.isSome_iff_exists.mp (lookup_isSome.mpr (mem_keys.mpr mem))
  exact mem_keys.mp (lookup_isSome.mp (subset got))

theorem length_le_of_lookup : other.entries.length ≤ map.entries.length := by
  rw [length_entries, length_entries]
  exact (subperm_of_subset other.nodupKeys (keys_subset_of_lookup subset)).length_le

theorem length_lt_of_lookup (present : (map.lookup key).isSome) (gone : other.lookup key = none) :
    other.entries.length < map.entries.length := by
  rw [length_entries, length_entries]
  have absent : key ∉ other.keys := fun mem =>
    AList.lookup_eq_none.mp gone (mem_keys.mpr mem)
  have more : key :: other.keys ⊆ map.keys :=
    cons_subset.mpr ⟨mem_keys.mp (lookup_isSome.mp present), keys_subset_of_lookup subset⟩
  exact (subperm_of_subset (nodup_cons.mpr ⟨absent, other.nodupKeys⟩) more).length_le

end

end

section

variable {β : Type v} [DecidableEq α] {map : AList fun _ : α => β} {key : β → α}
  (keyed : ∀ {spot val}, map.lookup spot = some val → key val = spot)

include keyed

theorem mem_values {val : β} :
    val ∈ map.entries.map Sigma.snd ↔ map.lookup (key val) = some val := by
  rw [mem_map]
  constructor
  · rintro ⟨entry, mem, rfl⟩
    have got : map.lookup entry.1 = some entry.2 := mem_lookup_iff.mpr mem
    rw [keyed got]
    exact got
  · intro got
    exact ⟨⟨key val, val⟩, mem_lookup_iff.mp got, rfl⟩

theorem nodup_values : (map.entries.map Sigma.snd).Nodup := by
  refine List.Nodup.map_on (fun left leftMem right rightMem same => ?_)
    (List.NodupKeys.nodup map.nodupKeys)
  have leftKey := keyed (mem_lookup_iff.mpr leftMem)
  have rightKey := keyed (mem_lookup_iff.mpr rightMem)
  have sameKey : left.1 = right.1 := by rw [← leftKey, ← rightKey, same]
  exact Sigma.ext sameKey (heq_of_eq same)

end

end MoacVnode.Lib
