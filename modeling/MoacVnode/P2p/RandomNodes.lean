import MoacVnode.Lib.Maps

/-!
# Random nodes of the discovery table

`ReadRandomNodes` takes the first nodes of the buckets in turn, until the buffer is full or no
bucket is left.
-/

namespace MoacVnode.P2p

open Lib List

abbrev nBuckets : Nat := 257

structure Table (Node : Type) where
  buckets : Fin nBuckets → List Node

namespace Table

variable {Node : Type} (tab : Table Node)

/-- Moves the heads of the buckets into the buffer, from bucket `j` on: the last `i`, and what is
written. -/
def moveHeads : Nat → List (List Node) → Nat → Option (Nat × List Node)
  | 0, _, _ => some (0, [])
  | room + 1, buckets, j =>
    match buckets[j]? with
    | none | some [] => none
    | some (id :: rest) =>
      let buckets := if rest = [] then buckets.eraseIdx j else buckets.set j rest
      if buckets = [] then some (0, [id])
      else (moveHeads room buckets ((j + 1) % buckets.length)).map fun (i, written) =>
        (i + 1, id :: written)

def nonEmpty : List (List Node) := (ofFn tab.buckets).filter (· ≠ [])

/-- The number returned and the buffer after the call. -/
def readRandomNodes (choice : Nat) (buf : List Node) : Option (Nat × List Node) :=
  if tab.nonEmpty = [] then some (0, buf)
  else (moveHeads buf.length (shuffle choice tab.nonEmpty) 0).map fun (i, written) =>
    (i + 1, written ++ buf.drop written.length)

def entries : List Node := (ofFn tab.buckets).flatten

/-- As many nodes of the table as fit, each once, are in front of what was in the buffer. -/
def Samples (buf : List Node) (res : Option (Nat × List Node)) : Prop :=
  ∃ written, written.length = min buf.length tab.entries.length ∧
    res = some (written.length, written ++ buf.drop written.length) ∧
    (∃ left, tab.entries.Perm (written ++ left)) ∧ (tab.entries.Nodup → written.Nodup)

-- by induction on the room that is left in the buffer
theorem moveHeads_spec {room j : Nat} {buckets : List (List Node)} (full : [] ∉ buckets)
    (within : j < buckets.length) :
    ∃ i written left, moveHeads room buckets j = some (i, written) ∧
      buckets.flatten.Perm (written ++ left) ∧
      written.length = min room buckets.flatten.length ∧
      (i + 1 = written.length ↔ buckets.flatten.length ≤ room) := by
  induction room generalizing buckets j with
  | zero =>
    have some : buckets.flatten ≠ [] := fun none =>
      full (flatten_eq_nil_iff.mp none _ (getElem_mem within) ▸ getElem_mem within)
    exact ⟨0, [], _, rfl, Perm.refl _, by simp,
      iff_of_false nofun fun le => some (length_eq_zero_iff.mp (Nat.le_zero.mp le))⟩
  | succ room ih =>
    rw [moveHeads, getElem?_eq_getElem within]
    cases isBucket : buckets[j] with
    | nil => exact absurd (isBucket ▸ getElem_mem within) full
    | cons id rest =>
      dsimp only
      generalize taken : (if rest = [] then buckets.eraseIdx j else buckets.set j rest) = new
      have perm : buckets.flatten.Perm (id :: new.flatten) := by
        refine (getElem_cons_eraseIdx_perm within).symm.flatten.trans ?_
        rw [isBucket, ← taken]
        split
        · rename_i single
          simp [single]
        · exact (set_perm_cons_eraseIdx within rest).flatten.symm.cons id
      have newFull : [] ∉ new := by
        rw [← taken]
        split
        · exact fun mem => full (mem_of_mem_eraseIdx mem)
        · rename_i more
          exact fun mem => (mem_or_eq_of_mem_set mem).elim full fun same => more same.symm
      rw [perm.length_eq, length_cons]
      by_cases empty : new = []
      · subst empty
        exact ⟨0, [id], [], if_pos rfl, perm, by simp, by simp⟩
      · obtain ⟨i, written, left, moved, split, count, last⟩ :=
          ih newFull (Nat.mod_lt (j + 1) (length_pos_iff.mpr empty))
        refine ⟨i + 1, id :: written, left, ?_, perm.trans (split.cons id), ?_, ?_⟩
        · rw [if_neg empty, moved]
          rfl
        · rw [length_cons, count, Nat.succ_min_succ]
        · rw [length_cons, Nat.succ_inj, last, Nat.succ_le_succ_iff]

/-- The buffer gets as many nodes as fit, each once, exactly if the table has no more. -/
theorem sampling_right_iff (choice : Nat) (buf : List Node) :
    tab.Samples buf (tab.readRandomNodes choice buf) ↔ tab.entries.length ≤ buf.length := by
  have flat : tab.nonEmpty.flatten = tab.entries := flatten_filter_ne_nil
  unfold readRandomNodes
  split
  · rename_i none
    rw [none] at flat
    exact iff_of_true ⟨[], by simp [← flat], rfl, ⟨_, Perm.refl _⟩, fun _ => nodup_nil⟩
      (by simp [← flat])
  · rename_i some
    have shuffled := shuffle_perm choice tab.nonEmpty
    have perm := flat ▸ shuffled.flatten
    obtain ⟨i, written, left, moved, split, count, last⟩ := @moveHeads_spec _ buf.length 0 _
      (fun mem => of_decide_eq_true (mem_filter.mp (shuffled.mem_iff.mp mem)).2 rfl)
      (shuffled.length_eq ▸ length_pos_iff.mpr some)
    rw [perm.length_eq] at count last
    rw [moved, ← last]
    constructor
    · rintro ⟨other, otherCount, same, -⟩
      rw [count, ← otherCount]
      exact (Prod.mk.inj (Option.some.inj same)).1
    · intro isLast
      refine ⟨written, count, ?_, ⟨left, perm.symm.trans split⟩, fun nodup => ?_⟩
      · exact congrArg (fun count => Option.some (count, written ++ buf.drop written.length)) isLast
      · rw [← perm.nodup_iff, split.nodup_iff] at nodup
        exact nodup.of_append_left

/-- One bucket with two nodes and a buffer for one. -/
theorem full_buffer_overcounted :
    readRandomNodes ⟨fun idx => if idx = 0 then [1, 2] else []⟩ 0 [7] = some (2, [1]) := by
  decide +kernel

end Table

end MoacVnode.P2p
