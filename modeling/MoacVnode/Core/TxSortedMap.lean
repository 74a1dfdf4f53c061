import MoacVnode.Core.RawSortedMap
import MoacVnode.Lib.Run

/-!
# Sorted maps whose heap and cache agree with the items

Every operation of `txSortedMap` keeps the heap and the cache in step with the items and returns
exactly the transactions it removes.
-/

namespace MoacVnode.Core

open Lib List AList Transaction Heap
open Sigma (snd fst)

variable {txs drops : List Transaction} {map : RawSortedMap} {sorted : List Nat} {threshold : Int}

namespace RawSortedMap

variable {held before after : Nat → Option Transaction}

theorem removeIndex_spec {idx : List Nat} {nonce : Nat} (mem : nonce ∈ idx) (heap : IsHeap id idx) :
    idx.Perm (nonce :: removeIndex idx nonce) ∧ IsHeap id (removeIndex idx nonce) := by
  unfold removeIndex
  cases got : idx.findIdx? (· = nonce) with
  | none =>
    have absent := List.findIdx?_eq_none_iff.mp got nonce mem
    simp at absent
  | some i =>
    obtain ⟨iLt, isNonce, -⟩ := List.findIdx?_eq_some_iff_getElem.mp got
    have nonceAt : idx[i]? = some nonce :=
      List.getElem?_eq_some_iff.mpr ⟨iLt, of_decide_eq_true isNonce⟩
    exact ⟨(remove_perm id nonceAt).2, isHeap_remove heap iLt⟩

theorem filter_append_filter_of_sorted
    (sorted : txs.Pairwise fun left right => left.nonce < right.nonce) (threshold : Nat) :
    (txs.filter fun tx => tx.nonce < threshold) ++
      (txs.filter fun tx => threshold ≤ tx.nonce) = txs := by
  induction txs with
  | nil => rfl
  | cons tx txs ih =>
    obtain ⟨first, rest⟩ := pairwise_cons.mp sorted
    by_cases below : tx.nonce < threshold
    · rw [filter_cons, if_pos (decide_eq_true below), filter_cons,
        if_neg (by simpa using below), cons_append, ih rest]
    · have noneBelow : (tx :: txs).filter (fun tx => tx.nonce < threshold) = [] := by
        refine filter_eq_nil_iff.mpr (forall_mem_cons.mpr ⟨by simpa using below, ?_⟩)
        intro other mem
        have := first other mem
        simp only [decide_eq_true_eq]
        omega
      have allAbove : (tx :: txs).filter (fun tx => threshold ≤ tx.nonce) = tx :: txs := by
        refine filter_eq_self.mpr (forall_mem_cons.mpr ⟨by simpa using below, ?_⟩)
        intro other mem
        have := first other mem
        simp only [decide_eq_true_eq]
        omega
      rw [noneBelow, allAbove, nil_append]

theorem drop_filter_length (sorted : txs.Pairwise fun left right => left.nonce < right.nonce)
    (threshold : Nat) :
    txs.drop (txs.filter fun tx => tx.nonce < threshold).length =
      txs.filter fun tx => threshold ≤ tx.nonce := by
  have parts := filter_append_filter_of_sorted sorted threshold
  calc
    txs.drop (txs.filter fun tx => tx.nonce < threshold).length =
        ((txs.filter fun tx => tx.nonce < threshold) ++
          (txs.filter fun tx => threshold ≤ tx.nonce)).drop
          (txs.filter fun tx => tx.nonce < threshold).length := by
      rw [parts]
    _ = txs.filter fun tx => threshold ≤ tx.nonce := drop_left

theorem Sorts.nodup (sorts : Sorts txs held) : txs.Nodup :=
  sorts.sorted.imp fun lt same => absurd (congrArg nonce same) (by omega)

theorem Sorts.nonces_eq (sorts : Sorts txs held)
    (mem_sorted : ∀ nonce, nonce ∈ sorted ↔ (held nonce).isSome)
    (keyed : ∀ nonce tx, held nonce = some tx → tx.nonce = nonce) (order : sorted.Pairwise (· ≤ ·))
    (nodup : sorted.Nodup) : txs.map nonce = sorted := by
  have strict : (txs.map nonce).Pairwise (· < ·) := pairwise_map.mpr sorts.sorted
  have perm : (txs.map nonce).Perm sorted := by
    refine (perm_ext_iff_of_nodup (strict.imp fun lt => ne_of_lt lt) nodup).mpr fun nonce => ?_
    rw [mem_sorted, mem_map, Option.isSome_iff_exists]
    constructor
    · rintro ⟨tx, mem, rfl⟩
      exact ⟨tx, (sorts.mem_iff tx).mp mem⟩
    · intro ⟨tx, got⟩
      have sameNonce := keyed nonce tx got
      refine ⟨tx, (sorts.mem_iff tx).mpr ?_, sameNonce⟩
      rw [sameNonce]
      exact got
  exact perm.eq_of_pairwise (fun low high _ _ => Nat.le_antisymm)
    (strict.imp fun lt => le_of_lt lt) order

theorem Sorts.take (sorts : Sorts txs before) {count : Nat}
    (kept : ∀ nonce, after nonce = if nonce ∈ (txs.take count).map Transaction.nonce then before
      nonce else none) :
    Sorts (txs.take count) after where
  sorted := sorts.sorted.sublist (take_sublist _ _)
  mem_iff := fun tx => by
    constructor
    · intro mem
      rw [kept, if_pos (mem_map_of_mem mem)]
      exact (sorts.mem_iff tx).mp (mem_of_mem_take mem)
    · intro held
      rw [kept] at held
      split at held
      · rename_i nonceMem
        obtain ⟨other, mem, sameNonce⟩ := mem_map.mp nonceMem
        have otherHeld := (sorts.mem_iff other).mp (mem_of_mem_take mem)
        rw [sameNonce, held] at otherHeld
        cases otherHeld
        exact mem
      · cases held

theorem Removes.nodup {removed : List Transaction} (removes : Removes before after removed) :
    removed.Nodup :=
  List.Nodup.of_map _ removes.once

namespace WellFormed

variable {nonces : List Nat}

theorem empty : WellFormed {} where
  indexed := List.Perm.refl _
  heap := isHeap_nil
  keyed := fun nonce tx held => by
    change (∅ : AList fun _ : Nat => Transaction).lookup nonce = some tx at held
    cases held
  cached := nofun

theorem get_put (map : RawSortedMap) (tx : Transaction) (nonce : Nat) :
    (map.put tx).get nonce = if nonce = tx.nonce then some tx else map.get nonce := by
  change (map.items.insert tx.nonce tx).lookup nonce = _
  by_cases same : nonce = tx.nonce
  · rw [if_pos same, same, lookup_insert]
  · rw [if_neg same, lookup_insert_ne same, get]

section

variable (wellFormed : WellFormed map)

include wellFormed

theorem put (tx : Transaction) : WellFormed (map.put tx) where
  indexed := by
    change (if (map.get tx.nonce).isNone then push id map.index tx.nonce
      else map.index).Perm (map.items.insert tx.nonce tx).keys
    rw [keys_insert]
    by_cases new : (map.get tx.nonce).isNone
    · rw [if_pos new]
      have absent : tx.nonce ∉ map.items.keys := by
        rw [← AList.mem_keys, ← AList.lookup_eq_none]
        exact Option.isNone_iff_eq_none.mp new
      rw [erase_of_not_mem absent]
      exact (push_perm id map.index tx.nonce).trans (wellFormed.indexed.cons tx.nonce)
    · rw [if_neg new]
      have present : tx.nonce ∈ map.items.keys := by
        rw [← AList.mem_keys, ← AList.lookup_isSome]
        refine Option.isSome_iff_ne_none.mpr fun missing => new ?_
        exact Option.isNone_iff_eq_none.mpr missing
      exact wellFormed.indexed.trans (perm_cons_erase present)
  heap := by
    change IsHeap id (if _ then _ else _)
    split
    · exact isHeap_push wellFormed.heap tx.nonce
    · exact wellFormed.heap
  keyed := fun nonce other held => by
    rw [get_put] at held
    split at held
    · rename_i same
      cases held
      exact same.symm
    · exact wellFormed.keyed nonce other held
  cached := nofun

theorem forward (threshold : Nat) :
    WellFormed (map.forward threshold).2 ∧
      Removes map.get (map.forward threshold).2.get (map.forward threshold).1 ∧
      (∀ tx ∈ (map.forward threshold).1, tx.nonce < threshold) ∧
      ∀ nonce, ((map.forward threshold).2.get nonce).isSome → threshold ≤ nonce := by
  obtain ⟨popped, below, atLeast⟩ : Popped map (map.forwardLoop threshold map.index.length) ∧ _ :=
    wellFormed.toIndexed.forwardLoop (Nat.le_refl _)
  refine ⟨⟨⟨popped.indexed.indexed, popped.indexed.heap, popped.indexed.keyed⟩, ?_⟩,
    popped.removes, below, atLeast⟩
  intro cache cacheEq
  obtain ⟨old, oldEq, dropped⟩ := Option.map_eq_some_iff.mp cacheEq
  have sorts := wellFormed.cached old oldEq
  -- the front of the old cache is what was popped
  have front : (map.forwardLoop threshold map.index.length).1.Perm
      (old.filter fun tx => tx.nonce < threshold) := by
    refine (perm_ext_iff_of_nodup popped.removes.nodup (sorts.nodup.filter _)).mpr fun tx => ?_
    rw [mem_filter, sorts.mem_iff, decide_eq_true_eq]
    constructor
    · intro mem
      exact ⟨popped.removes.held tx mem, below tx mem⟩
    · intro ⟨held, low⟩
      refine popped.removes.mem_iff.mpr ⟨held, ?_⟩
      rw [← Option.not_isSome_iff_eq_none]
      intro kept
      exact absurd (atLeast tx.nonce kept) (by omega)
  rw [front.length_eq, drop_filter_length sorts.sorted] at dropped
  subst dropped
  refine ⟨sorts.sorted.filter _, fun tx => ?_⟩
  rw [mem_filter, sorts.mem_iff, decide_eq_true_eq]
  constructor
  · intro ⟨held, high⟩
    refine (popped.removes.get_eq tx.nonce).trans ((if_neg ?_).trans held)
    intro nonceMem
    obtain ⟨other, mem, sameNonce⟩ := mem_map.mp nonceMem
    exact absurd (below other mem) (by omega)
  · intro kept
    exact ⟨popped.removes.of_after kept, atLeast tx.nonce (Option.isSome_of_eq_some kept)⟩

theorem ready (start : Nat) :
    WellFormed (map.ready start).2 ∧
      Removes map.get (map.ready start).2.get (map.ready start).1 ∧
      ∃ lowest, (map.ready start).1.map nonce =
          List.range' lowest (map.ready start).1.length ∧
        ((map.ready start).1 ≠ [] → lowest ≤ start) := by
  have unchanged : WellFormed map ∧ Removes map.get map.get [] ∧
        ∃ lowest, ([] : List Transaction).map nonce =
            List.range' lowest ([] : List Transaction).length ∧
          (([] : List Transaction) ≠ [] → lowest ≤ start) :=
    ⟨wellFormed, .nothing map.get, 0, rfl, fun nonempty => absurd rfl nonempty⟩
  unfold RawSortedMap.ready
  split
  · exact unchanged
  · rename_i lowest rest indexEq
    split
    · exact unchanged
    · rename_i ran
      obtain ⟨popped, consecutive⟩ : Popped map (map.readyLoop map.index.length lowest) ∧ _ :=
        wellFormed.toIndexed.readyLoop
      refine ⟨⟨⟨popped.indexed.indexed, popped.indexed.heap,
        popped.indexed.keyed⟩, nofun⟩, popped.removes, lowest, consecutive, ?_⟩
      intro _
      exact Nat.not_lt.mp ran

theorem remove (nonce : Nat) :
    WellFormed (map.remove nonce).2 ∧
      Removes map.get (map.remove nonce).2.get (map.get nonce).toList ∧
      ((map.remove nonce).1 = true ↔ (map.get nonce).isSome) := by
  unfold RawSortedMap.remove
  cases got : map.get nonce with
  | none => exact ⟨wellFormed, .nothing map.get, by simp⟩
  | some tx =>
    have sameNonce := wellFormed.keyed nonce tx got
    have removes : Removes map.get (map.items.erase nonce).lookup [tx] := by
      refine ⟨forall_mem_singleton.mpr (by rw [sameNonce]; exact got),
        nodup_singleton _, fun other => ?_⟩
      rw [map_singleton, sameNonce]
      by_cases same : other = nonce
      · rw [same, lookup_erase, if_pos (mem_singleton_self nonce)]
      · rw [lookup_erase_ne same, if_neg (by simpa using same), get]
    have mem : nonce ∈ map.index := wellFormed.mem_index.mpr (Option.isSome_of_eq_some got)
    rw [if_neg (by simp)]
    obtain ⟨perm, heap⟩ := removeIndex_spec mem wellFormed.heap
    refine ⟨⟨⟨?_, heap, fun other tx held => ?_⟩, by simp⟩, removes, by simp⟩
    · rw [keys_erase]
      exact (cons_perm_iff_perm_erase.mp (perm.symm.trans wellFormed.indexed)).2
    · exact wellFormed.keyed other tx (removes.of_after held)

end

theorem mem_entries {entry : Sigma fun _ : Nat => Transaction} :
    entry ∈ map.items.entries ↔ map.get entry.1 = some entry.2 :=
  mem_lookup_iff.symm

section

variable (wellFormed : WellFormed map)

include wellFormed

theorem filter (choice : Nat → Nat) (filter : Transaction → Bool) :
    WellFormed (map.filter choice filter).2 ∧
      Removes map.get (map.filter choice filter).2.get (map.filter choice filter).1 ∧
      (∀ tx ∈ (map.filter choice filter).1, filter tx = true) ∧
      ∀ nonce tx, (map.filter choice filter).2.get nonce = some tx → filter tx = false := by
  have removedIff (entry : Sigma fun _ : Nat => Transaction) :
      entry ∈ (shuffle (choice 0) map.items.entries).filter (fun entry => filter entry.2) ↔
        map.get entry.1 = some entry.2 ∧ filter entry.2 = true := by
    rw [mem_filter, mem_shuffle, mem_entries]
  unfold RawSortedMap.filter
  dsimp only
  generalize removedEq : (shuffle (choice 0) map.items.entries).filter
    (fun entry => filter entry.2) = removed at removedIff
  split
  · rename_i nothing
    refine ⟨wellFormed, .nothing map.get, forall_mem_nil _, fun nonce tx held => ?_⟩
    have notRemoved := (removedIff ⟨nonce, tx⟩).not.mp (by
      rw [nothing]
      exact not_mem_nil)
    exact Bool.eq_false_iff.mpr fun matched => notRemoved ⟨held, matched⟩
  · have nonces : (removed.map snd).map nonce = removed.map fst := by
      rw [map_map]
      refine map_congr_left fun entry mem => ?_
      exact wellFormed.keyed entry.1 entry.2 ((removedIff entry).mp mem).1
    have removes : Removes map.get
        (eraseAll map.items (removed.map fst)).lookup (removed.map snd) := by
      refine ⟨fun tx mem => ?_, ?_, fun nonce => ?_⟩
      · obtain ⟨entry, entryMem, same⟩ := mem_map.mp mem
        have held := ((removedIff entry).mp entryMem).1
        rw [← same, wellFormed.keyed entry.1 entry.2 held]
        exact held
      · rw [nonces, ← removedEq]
        have keys := ((shuffle_perm (choice 0) map.items.entries).map fst).nodup_iff.mpr
          map.items.nodupKeys
        exact keys.sublist (filter_sublist.map _)
      · rw [lookup_eraseAll, nonces, get]
    refine ⟨⟨⟨?_, isHeap_init _, fun nonce tx held => ?_⟩, by simp⟩, removes,
      fun tx mem => ?_, fun nonce tx held => ?_⟩
    · exact (init_perm id _).trans (shuffle_perm _ _)
    · exact wellFormed.keyed nonce tx (removes.of_after held)
    · obtain ⟨entry, entryMem, same⟩ := mem_map.mp mem
      rw [← same]
      exact ((removedIff entry).mp entryMem).2
    · have before := removes.of_after held
      refine Bool.eq_false_iff.mpr fun matched => ?_
      have mem : tx ∈ removed.map snd :=
        mem_map_of_mem ((removedIff ⟨nonce, tx⟩).mpr ⟨before, matched⟩)
      have gone := removes.gone mem
      rw [wellFormed.keyed nonce tx before] at gone
      cases gone.symm.trans held

theorem len_eq : map.len = map.index.length := by
  rw [wellFormed.indexed.length_eq]
  exact (length_map _).symm

theorem nonces_filterMap (inIndex : ∀ nonce ∈ nonces, nonce ∈ map.index) :
    (nonces.filterMap map.get).map nonce = nonces := by
  induction nonces with
  | nil => rfl
  | cons nonce nonces ih =>
    obtain ⟨first, rest⟩ := forall_mem_cons.mp inIndex
    obtain ⟨tx, got, sameNonce⟩ := wellFormed.exists_of_mem first
    rw [filterMap_cons_some got, map_cons, sameNonce, ih rest]

theorem sorted_index (count : Nat) :
    (∀ nonce, nonce ∈ map.index.insertionSort (· ≤ ·) ↔ nonce ∈ map.index) ∧
      (map.index.insertionSort (· ≤ ·)).Nodup ∧
      ∀ low ∈ (map.index.insertionSort (· ≤ ·)).take count,
        ∀ high ∈ (map.index.insertionSort (· ≤ ·)).drop count, low < high := by
  have perm := perm_insertionSort (· ≤ ·) map.index
  have sorted := pairwise_insertionSort (· ≤ ·) map.index
  have nodup := perm.nodup_iff.mpr wellFormed.nodup_index
  refine ⟨fun nonce => perm.mem_iff, nodup, ?_⟩
  have strict := (sorted.and nodup).imp fun ⟨le, ne⟩ => lt_of_le_of_ne le ne
  rw [← take_append_drop count (map.index.insertionSort (· ≤ ·))] at strict
  exact (pairwise_append.mp strict).2.2

theorem removes_eraseAll (inIndex : ∀ nonce ∈ nonces, nonce ∈ map.index) (nodup : nonces.Nodup) :
    Removes map.get (eraseAll map.items nonces).lookup (nonces.filterMap map.get) := by
  have sameNonces := wellFormed.nonces_filterMap inIndex
  refine ⟨fun tx mem => ?_, ?_, fun nonce => ?_⟩
  · obtain ⟨nonce, -, got⟩ := mem_filterMap.mp mem
    rw [wellFormed.keyed nonce tx got]
    exact got
  · rw [sameNonces]
    exact nodup
  · rw [lookup_eraseAll, sameNonces, get]

theorem lookup_eraseAll_drop (mem_sorted : ∀ nonce, nonce ∈ sorted ↔ nonce ∈ map.index)
    (nodup : sorted.Nodup) (count nonce : Nat) :
    (eraseAll map.items (sorted.drop count).reverse).lookup nonce =
      if nonce ∈ sorted.take count then map.get nonce else none := by
  simp only [lookup_eraseAll, mem_reverse]
  rw [← get]
  by_cases kept : nonce ∈ sorted.take count
  · rw [if_pos kept, if_neg (disjoint_take_drop nodup le_rfl kept)]
  · split
    · rfl
    · rename_i notDropped
      rw [← Option.not_isSome_iff_eq_none, ← wellFormed.mem_index, ← mem_sorted,
        ← take_append_drop count sorted, mem_append]
      exact not_or.mpr ⟨kept, notDropped⟩

theorem cap {capped : RawSortedMap} (ret : map.cap threshold = .ok (drops, capped)) :
    WellFormed capped ∧ Removes map.get capped.get drops ∧
      (∀ tx ∈ drops, ∀ nonce, (capped.get nonce).isSome → nonce < tx.nonce) ∧
      drops.length = map.len - threshold.toNat := by
  unfold RawSortedMap.cap at ret
  split at ret
  · cases ret
    refine ⟨wellFormed, .nothing map.get, forall_mem_nil _, ?_⟩
    rw [length_nil]
    omega
  · split at ret
    · cases ret
    · cases ret
      obtain ⟨mem_sorted, nodup, ordered⟩ := wellFormed.sorted_index threshold.toNat
      have lengthEq := (perm_insertionSort (· ≤ ·) map.index).length_eq
      have sortedOrder := pairwise_insertionSort (· ≤ ·) map.index
      generalize map.index.insertionSort (· ≤ ·) = sorted at *
      have inIndex : ∀ nonce ∈ (sorted.drop threshold.toNat).reverse,
          nonce ∈ map.index := fun nonce mem =>
        (mem_sorted nonce).mp (mem_of_mem_drop (mem_reverse.mp mem))
      have nonces := wellFormed.nonces_filterMap inIndex
      have removes := wellFormed.removes_eraseAll inIndex
        (nodup_reverse.mpr (nodup.sublist (drop_sublist _ _)))
      have kept := wellFormed.lookup_eraseAll_drop mem_sorted nodup threshold.toNat
      have kept_iff (nonce : Nat) :
          ((eraseAll map.items (sorted.drop threshold.toNat).reverse).lookup
              nonce).isSome ↔ nonce ∈ sorted.take threshold.toNat := by
        rw [kept]
        split
        · rename_i taken
          rw [← wellFormed.mem_index, ← mem_sorted]
          exact iff_of_true (mem_of_mem_take taken) taken
        · next notTaken => exact iff_of_false nofun notTaken
      have lengthDrops : ((sorted.drop threshold.toNat).reverse.filterMap
          map.get).length = map.len - threshold.toNat := by
        rw [← length_map Transaction.nonce, nonces, length_reverse,
          length_drop, lengthEq, wellFormed.len_eq]
      refine ⟨⟨⟨?_, isHeap_init _, fun nonce tx held => ?_⟩, ?_⟩, removes, ?_, lengthDrops⟩
      · refine (init_perm id _).trans ?_
        refine (perm_ext_iff_of_nodup (nodup.sublist (take_sublist _ _))
          (AList.nodupKeys _)).mpr fun nonce => ?_
        exact (kept_iff nonce).symm.trans (AList.lookup_isSome.trans AList.mem_keys)
      · exact wellFormed.keyed nonce tx (removes.of_after held)
      · intro cache cacheEq
        obtain ⟨old, oldEq, taken⟩ := Option.map_eq_some_iff.mp cacheEq
        have sorts := wellFormed.cached old oldEq
        have oldNonces : old.map Transaction.nonce = sorted :=
          sorts.nonces_eq (fun nonce => by
            rw [mem_sorted, wellFormed.mem_index]) wellFormed.keyed sortedOrder nodup
        have oldLength : old.length = map.len := by
          rw [wellFormed.len_eq, ← lengthEq, ← oldNonces, length_map]
        have takenLength : map.len - (map.len - threshold.toNat) = threshold.toNat := by omega
        rw [lengthDrops, oldLength, takenLength] at taken
        subst taken
        refine sorts.take fun nonce => ?_
        rw [map_take, oldNonces]
        exact kept nonce
      · intro tx mem nonce stillHeld
        have txDropped : tx.nonce ∈ (sorted.drop threshold.toNat).reverse := by
          rw [← nonces]
          exact mem_map_of_mem mem
        exact ordered nonce ((kept_iff nonce).mp stillHeld) tx.nonce (mem_reverse.mp txDropped)

end

theorem cap_returns (notNegative : 0 ≤ threshold) :
    ∃ drops capped, map.cap threshold = .ok (drops, capped) := by
  unfold RawSortedMap.cap
  split
  · exact ⟨_, _, rfl⟩
  · rw [if_neg (by omega)]
    exact ⟨_, _, rfl⟩

theorem flatten (wellFormed : WellFormed map) :
    WellFormed map.flatten.2 ∧ map.flatten.2.get = map.get ∧ Sorts map.flatten.1 map.get := by
  unfold RawSortedMap.flatten
  cases cacheEq : map.cache with
  | some cache => exact ⟨wellFormed, rfl, wellFormed.cached cache cacheEq⟩
  | none =>
    have perm := perm_insertionSort (fun left right : Transaction => left.nonce ≤ right.nonce)
      (map.items.entries.map snd)
    have nonces : (map.items.entries.map snd).map nonce = map.items.keys := by
      rw [map_map]
      refine map_congr_left fun entry mem => ?_
      exact wellFormed.keyed entry.1 entry.2 (mem_entries.mp mem)
    have sorted := pairwise_insertionSort (fun left right : Transaction => left.nonce ≤ right.nonce)
      (map.items.entries.map snd)
    have sorts : Sorts ((map.items.entries.map snd).insertionSort
        fun left right => left.nonce ≤ right.nonce) map.get := by
      refine ⟨?_, fun tx => ?_⟩
      · have distinct : ((map.items.entries.map snd).insertionSort
            fun left right => left.nonce ≤ right.nonce).Pairwise
            fun left right => left.nonce ≠ right.nonce := by
          refine pairwise_map.mp ?_
          rw [← List.Nodup, (perm.map nonce).nodup_iff, nonces]
          exact map.items.nodupKeys
        exact (sorted.and distinct).imp fun ⟨le, ne⟩ => lt_of_le_of_ne le ne
      · rw [perm.mem_iff, mem_map]
        constructor
        · rintro ⟨entry, mem, rfl⟩
          have held := mem_entries.mp mem
          rw [wellFormed.keyed entry.1 entry.2 held]
          exact held
        · intro held
          exact ⟨⟨tx.nonce, tx⟩, mem_entries.mpr held, rfl⟩
    refine ⟨⟨⟨wellFormed.indexed, wellFormed.heap, wellFormed.keyed⟩,
      fun cache sameCache => ?_⟩, rfl, sorts⟩
    cases sameCache
    exact sorts

theorem perm_of_sorts (wellFormed : WellFormed map) (sorts : Sorts txs map.get) :
    txs.Perm (map.items.entries.map snd) := by
  have keyed {nonce : Nat} {tx : Transaction} (got : map.items.lookup nonce = some tx) :
      tx.nonce = nonce :=
    wellFormed.keyed nonce tx got
  refine (perm_ext_iff_of_nodup sorts.nodup (nodup_values keyed)).mpr fun tx => ?_
  rw [sorts.mem_iff, mem_values keyed]
  rfl

end WellFormed

inductive Call where
  | put (tx : Transaction)
  | forward (threshold : Nat)
  | filter (choice : Nat → Nat) (drop : Transaction → Bool)
  | cap (threshold : Int)
  | remove (nonce : Nat)
  | ready (start : Nat)
  | flatten

def step (map : RawSortedMap) : Call → Except Crash RawSortedMap
  | .put tx => .ok (map.put tx)
  | .forward threshold => .ok (map.forward threshold).2
  | .filter choice drop => .ok (map.filter choice drop).2
  | .cap threshold => Prod.snd <$> map.cap threshold
  | .remove nonce => .ok (map.remove nonce).2
  | .ready start => .ok (map.ready start).2
  | .flatten => .ok map.flatten.2

/-- A call returns exactly the transactions it removes. -/
def Exact (map : RawSortedMap) : Call → Prop
  | .put tx =>
    ∀ nonce, (map.put tx).get nonce = if nonce = tx.nonce then some tx else map.get nonce
  | .forward threshold => Removes map.get (map.forward threshold).2.get (map.forward threshold).1
  | .filter choice drop =>
    Removes map.get (map.filter choice drop).2.get (map.filter choice drop).1
  | .cap threshold =>
    ∃ drops capped, map.cap threshold = .ok (drops, capped) ∧ Removes map.get capped.get drops
  | .remove nonce =>
    Removes map.get (map.remove nonce).2.get (map.get nonce).toList ∧
      ((map.remove nonce).1 = true ↔ (map.get nonce).isSome)
  | .ready start => Removes map.get (map.ready start).2.get (map.ready start).1
  | .flatten => map.flatten.2.get = map.get ∧ Sorts map.flatten.1 map.get

/-- The limit of a `Cap` is a number of transactions. -/
def Limited (_ : RawSortedMap) : Call → Prop
  | .cap threshold => 0 ≤ threshold
  | _ => True

theorem WellFormed.step {call : Call} (wellFormed : WellFormed map) (limited : map.Limited call) :
    (∃ next, map.step call = .ok next ∧ WellFormed next) ∧ map.Exact call := by
  cases call with
  | put tx => exact ⟨⟨_, rfl, wellFormed.put tx⟩, get_put map tx⟩
  | forward threshold =>
    have forwarded := wellFormed.forward threshold
    exact ⟨⟨_, rfl, forwarded.1⟩, forwarded.2.1⟩
  | filter choice drop =>
    have filtered := wellFormed.filter choice drop
    exact ⟨⟨_, rfl, filtered.1⟩, filtered.2.1⟩
  | cap threshold =>
    obtain ⟨drops, capped, ret⟩ : ∃ drops capped, map.cap threshold = .ok (drops, capped) :=
      cap_returns limited
    have kept := wellFormed.cap ret
    exact ⟨⟨capped, congrArg (Prod.snd <$> ·) ret, kept.1⟩, drops, capped, ret, kept.2.1⟩
  | remove nonce =>
    have removed := wellFormed.remove nonce
    exact ⟨⟨_, rfl, removed.1⟩, removed.2⟩
  | ready start =>
    have taken := wellFormed.ready start
    exact ⟨⟨_, rfl, taken.1⟩, taken.2.1⟩
  | flatten => exact ⟨⟨_, rfl, wellFormed.flatten.1⟩, wellFormed.flatten.2⟩

/-- In every run without negative limits, a call returns exactly the transactions it removes. -/
theorem calls_exact_of_run {calls : List Call} {call : Call}
    (limited : EachStep step Limited {} calls) (nextLimited : Limited {} call) :
    ∃ map, run step {} calls = .ok map ∧ WellFormed map ∧ map.Exact call := by
  obtain ⟨map, ran, wellFormed⟩ :=
    run_total WellFormed (fun kept limited => (kept.step limited).1) .empty limited
  exact ⟨map, ran, wellFormed, (wellFormed.step nextLimited).2⟩

/-- Of three transactions, sorted by `Flatten`, the one with the highest nonce is dropped. -/
theorem capped_map_exact :
    ∃ map,
      run step {} [.put { hash := 2, nonce := 2 }, .put { hash := 1, nonce := 1 },
        .put { hash := 3, nonce := 3 }, .flatten, .cap 2] = .ok map ∧
      map.flatten.1 = [{ hash := 1, nonce := 1 }, { hash := 2, nonce := 2 }] ∧
      WellFormed map ∧ map.Exact (.cap 1) := by
  obtain ⟨map, ran, wellFormed, exactly⟩ := @calls_exact_of_run
    [.put { hash := 2, nonce := 2 }, .put { hash := 1, nonce := 1 }, .put { hash := 3, nonce := 3 },
      .flatten, .cap 2] (.cap 1) ⟨trivial, trivial, trivial, trivial, Int.zero_le_ofNat 2, trivial⟩
    (Int.zero_le_ofNat 1)
  refine ⟨map, ran, ?_, wellFormed, exactly⟩
  cases ran
  decide

/-- A negative limit runs past the start of the index. -/
theorem negative_limit_crashes : run step {} [.cap (-1)] = .error .indexOutOfRange := rfl

end RawSortedMap

structure TxSortedMap extends RawSortedMap where
  wellFormed : toRawSortedMap.WellFormed

namespace TxSortedMap

def empty : TxSortedMap where
  wellFormed := .empty

def put (map : TxSortedMap) (tx : Transaction) : TxSortedMap where
  toRawSortedMap := map.toRawSortedMap.put tx
  wellFormed := map.wellFormed.put tx

def forward (map : TxSortedMap) (threshold : Nat) : List Transaction × TxSortedMap :=
  ((map.toRawSortedMap.forward threshold).1, ⟨_, (map.wellFormed.forward threshold).1⟩)

def filter (map : TxSortedMap) (choice : Nat → Nat) (filter : Transaction → Bool) :
    List Transaction × TxSortedMap :=
  ((map.toRawSortedMap.filter choice filter).1, ⟨_, (map.wellFormed.filter choice filter).1⟩)

def cap (map : TxSortedMap) (threshold : Int) : Except Crash (List Transaction × TxSortedMap) :=
  match ret : map.toRawSortedMap.cap threshold with
  | .error crash => .error crash
  | .ok (drops, capped) => .ok (drops, ⟨capped, (map.wellFormed.cap ret).1⟩)

def remove (map : TxSortedMap) (nonce : Nat) : Bool × TxSortedMap :=
  ((map.toRawSortedMap.remove nonce).1, ⟨_, (map.wellFormed.remove nonce).1⟩)

def ready (map : TxSortedMap) (start : Nat) : List Transaction × TxSortedMap :=
  ((map.toRawSortedMap.ready start).1, ⟨_, (map.wellFormed.ready start).1⟩)

def flatten (map : TxSortedMap) : List Transaction × TxSortedMap :=
  (map.toRawSortedMap.flatten.1, ⟨_, map.wellFormed.flatten.1⟩)

theorem cap_eq_ok {map capped : TxSortedMap} (ret : map.cap threshold = .ok (drops, capped)) :
    map.toRawSortedMap.cap threshold = .ok (drops, capped.toRawSortedMap) := by
  unfold cap at ret
  split at ret
  · cases ret
  · rename_i got
    cases ret
    exact got

end TxSortedMap

end MoacVnode.Core
