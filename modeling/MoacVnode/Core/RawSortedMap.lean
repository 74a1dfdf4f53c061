import MoacVnode.Core.Types
import MoacVnode.Lib.Heap
import MoacVnode.Lib.Maps

/-!
# Transactions of an account by nonce

The operations of `txSortedMap`, a map from nonces to transactions with a heap of its nonces and a
cache of the sorted transactions.
-/

namespace MoacVnode.Core

open Lib List Option AList Heap

structure RawSortedMap where
  items : AList fun _ : Nat => Transaction := ∅
  index : List Nat := []
  cache : Option (List Transaction) := none

namespace RawSortedMap

variable (map : RawSortedMap)

def get (nonce : Nat) : Option Transaction := map.items.lookup nonce

def put (tx : Transaction) : RawSortedMap where
  items := map.items.insert tx.nonce tx
  index :=
    if (map.get tx.nonce).isNone then Heap.push id map.index tx.nonce
    else map.index
  cache := none

def popFirst : List Transaction × RawSortedMap :=
  match Heap.pop id map.index with
  | (none, _) => ([], map)
  | (some nonce, index) =>
    ((map.get nonce).toList, { map with items := map.items.erase nonce, index := index })

def forwardLoop (threshold : Nat) : Nat → RawSortedMap → List Transaction × RawSortedMap
  | 0, map => ([], map)
  | fuel + 1, map =>
    match map.index with
    | [] => ([], map)
    | lowest :: _ =>
      if lowest < threshold then
        let popped := map.popFirst
        let rest := forwardLoop threshold fuel popped.2
        (popped.1 ++ rest.1, rest.2)
      else ([], map)

def forward (threshold : Nat) : List Transaction × RawSortedMap :=
  let popped := forwardLoop threshold map.index.length map
  (popped.1, { popped.2 with cache := map.cache.map (List.drop popped.1.length) })

/-- Remove the transactions for which the filter is true.  `choice` has the
orders of the two iterations over the map. -/
def filter (map : RawSortedMap) (choice : Nat → Nat) (filter : Transaction → Bool) :
    List Transaction × RawSortedMap :=
  let removed := (shuffle (choice 0) map.items.entries).filter fun entry => filter entry.2
  if removed = [] then ([], map)
  else
    let items := eraseAll map.items (removed.map Sigma.fst)
    (removed.map Sigma.snd,
      { items := items
        index := Heap.init id (shuffle (choice 1) items.keys)
        cache := none })

def len : Nat := map.items.entries.length

def cap (threshold : Int) : Except Crash (List Transaction × RawSortedMap) :=
  if map.len ≤ threshold then .ok ([], map)
  -- below zero the loop runs past the start of the index
  else if threshold < 0 then .error .indexOutOfRange
  else
    let sorted := map.index.insertionSort (· ≤ ·)
    let dropped := (sorted.drop threshold.toNat).reverse
    let drops := dropped.filterMap map.get
    .ok (drops,
      { items := eraseAll map.items dropped
        index := Heap.init id (sorted.take threshold.toNat)
        cache := map.cache.map fun cache => cache.take (cache.length - drops.length) })

def removeIndex (index : List Nat) (nonce : Nat) : List Nat :=
  match index.findIdx? (· = nonce) with
  | some i => (Heap.remove id index i).2
  | none => index

def remove (nonce : Nat) : Bool × RawSortedMap :=
  if (map.get nonce).isNone then (false, map)
  else
    (true,
      { items := map.items.erase nonce
        index := removeIndex map.index nonce
        cache := none })

def readyLoop : Nat → Nat → RawSortedMap → List Transaction × RawSortedMap
  | 0, _, map => ([], map)
  | fuel + 1, next, map =>
    match map.index with
    | [] => ([], map)
    | lowest :: _ =>
      if lowest = next then
        let popped := map.popFirst
        let rest := readyLoop fuel (next64 next) popped.2
        (popped.1 ++ rest.1, rest.2)
      else ([], map)

/-- Remove the transactions with consecutive nonces from the lowest one on, if
that is not above `start`. -/
def ready (start : Nat) : List Transaction × RawSortedMap :=
  match map.index with
  | [] => ([], map)
  | lowest :: _ =>
    if start < lowest then ([], map)
    else
      let popped := readyLoop map.index.length lowest map
      (popped.1, { popped.2 with cache := none })

def flatten : List Transaction × RawSortedMap :=
  match map.cache with
  | some cache => (cache, map)
  | none =>
    let cache := (map.items.entries.map Sigma.snd).insertionSort
      fun left right => left.nonce ≤ right.nonce
    (cache, { map with cache := some cache })

/-- The list has the transactions of a map in the order of their nonces. -/
structure Sorts (txs : List Transaction) (held : Nat → Option Transaction) : Prop where
  sorted : txs.Pairwise fun left right => left.nonce < right.nonce
  mem_iff : ∀ tx, tx ∈ txs ↔ held tx.nonce = some tx

/-- The heap has the nonces of the items, and every item stands under its own
nonce. -/
structure Indexed (map : RawSortedMap) : Prop where
  indexed : map.index.Perm map.items.keys
  heap : Heap.IsHeap id map.index
  keyed : ∀ nonce tx, map.get nonce = some tx → tx.nonce = nonce

structure WellFormed (map : RawSortedMap) : Prop extends Indexed map where
  cached : ∀ cache, map.cache = some cache → Sorts cache map.get

/-- The transactions of a map after some of them were removed. -/
structure Removes (before after : Nat → Option Transaction)
    (removed : List Transaction) : Prop where
  held : ∀ tx ∈ removed, before tx.nonce = some tx
  once : (removed.map Transaction.nonce).Nodup
  get_eq : ∀ nonce,
    after nonce = if nonce ∈ removed.map Transaction.nonce then none else before nonce

namespace Removes

variable {before mid after : Nat → Option Transaction} {removed later : List Transaction}
  {tx : Transaction}

theorem nothing (held : Nat → Option Transaction) : Removes held held [] where
  held := forall_mem_nil _
  once := nodup_nil
  get_eq := fun _ => (if_neg not_mem_nil).symm

section

variable (removes : Removes before after removed)

include removes

theorem of_after {nonce : Nat} (held : after nonce = some tx) : before nonce = some tx := by
  rw [removes.get_eq] at held
  split at held
  · cases held
  · exact held

theorem gone (mem : tx ∈ removed) : after tx.nonce = none := by
  rw [removes.get_eq, if_pos (mem_map_of_mem mem)]

theorem mem_iff : tx ∈ removed ↔ before tx.nonce = some tx ∧ after tx.nonce = none := by
  constructor
  · intro mem
    exact ⟨removes.held tx mem, removes.gone mem⟩
  · rintro ⟨held, gone⟩
    rw [removes.get_eq] at gone
    split at gone
    · rename_i nonceMem
      obtain ⟨other, mem, sameNonce⟩ := mem_map.mp nonceMem
      have otherHeld := removes.held other mem
      rw [sameNonce, held] at otherHeld
      cases otherHeld
      exact mem
    · cases gone.symm.trans held

end

theorem append (first : Removes before mid removed) (second : Removes mid after later) :
    Removes before after (removed ++ later) where
  held := forall_mem_append.mpr
    ⟨first.held, fun tx mem => first.of_after (second.held tx mem)⟩
  once := by
    rw [map_append]
    refine nodup_append'.mpr ⟨first.once, second.once, ?_⟩
    intro nonce inFirst inSecond
    obtain ⟨tx, mem, sameNonce⟩ := mem_map.mp inSecond
    have gone : mid nonce = none := by rw [first.get_eq, if_pos inFirst]
    rw [← sameNonce, second.held tx mem] at gone
    cases gone
  get_eq := fun nonce => by
    rw [second.get_eq, first.get_eq, map_append]
    by_cases inSecond : nonce ∈ later.map Transaction.nonce
    · rw [if_pos inSecond, if_pos (mem_append_right _ inSecond)]
    · rw [if_neg inSecond]
      exact if_congr (by rw [mem_append, or_iff_left inSecond]) rfl rfl

end Removes

structure Popped (map : RawSortedMap) (res : List Transaction × RawSortedMap) : Prop where
  indexed : Indexed res.2
  removes : Removes map.get res.2.get res.1

namespace Popped

variable {map : RawSortedMap} {first second : List Transaction × RawSortedMap}

theorem nothing (indexed : Indexed map) : Popped map ([], map) := ⟨indexed, .nothing map.get⟩

theorem append (firstPopped : Popped map first) (secondPopped : Popped first.2 second) :
    Popped map (first.1 ++ second.1, second.2) :=
  ⟨secondPopped.indexed, firstPopped.removes.append secondPopped.removes⟩

end Popped

namespace Indexed

variable {map : RawSortedMap} {nonce lowest : Nat} {rest : List Nat}

section

variable (indexed : Indexed map)

include indexed

theorem mem_index : nonce ∈ map.index ↔ (map.get nonce).isSome := by
  rw [indexed.indexed.mem_iff, ← AList.mem_keys, get, AList.lookup_isSome]

theorem exists_of_mem (mem : nonce ∈ map.index) :
    ∃ tx, map.get nonce = some tx ∧ tx.nonce = nonce := by
  obtain ⟨tx, got⟩ := isSome_iff_exists.mp (indexed.mem_index.mp mem)
  exact ⟨tx, got, indexed.keyed nonce tx got⟩

theorem nodup_index : map.index.Nodup := indexed.indexed.nodup_iff.mpr map.items.nodupKeys

theorem get_of_index_nil (empty : map.index = []) (nonce : Nat) : map.get nonce = none := by
  rw [← not_isSome_iff_eq_none, ← indexed.mem_index, empty]
  exact not_mem_nil

theorem lowest_le (indexEq : map.index = lowest :: rest) (held : (map.get nonce).isSome) :
    lowest ≤ nonce :=
  root_le indexed.heap (by rw [indexEq]; rfl) (indexed.mem_index.mpr held)

theorem popFirst (indexEq : map.index = lowest :: rest) :
    ∃ tx, map.popFirst.1 = [tx] ∧ tx.nonce = lowest ∧ Popped map map.popFirst ∧
      map.popFirst.2.index.length = rest.length := by
  have lowestAt : map.index[0]? = some lowest := by
    rw [indexEq]
    rfl
  obtain ⟨ret, perm⟩ := pop_perm id lowestAt
  have lowestMem : lowest ∈ map.index := by
    rw [indexEq]
    exact mem_cons_self
  obtain ⟨tx, got, sameNonce⟩ := indexed.exists_of_mem lowestMem
  have popEq : map.popFirst = ([tx], { map with
        items := map.items.erase lowest, index := (pop id map.index).2 }) := by
    unfold RawSortedMap.popFirst
    generalize pop id map.index = popped at ret
    obtain ⟨nonce, index⟩ := popped
    cases ret
    simp only [got, toList_some]
  have getEq (nonce : Nat) :
      (map.items.erase lowest).lookup nonce = if nonce = lowest then none else map.get nonce := by
    by_cases same : nonce = lowest
    · rw [if_pos same, same, lookup_erase]
    · rw [if_neg same, lookup_erase_ne same, get]
  have removes : Removes map.get (map.items.erase lowest).lookup [tx] := by
    refine ⟨forall_mem_singleton.mpr (by rw [sameNonce]; exact got),
      nodup_singleton _, fun nonce => ?_⟩
    rw [getEq, map_singleton, sameNonce]
    exact if_congr mem_singleton.symm rfl rfl
  rw [popEq]
  refine ⟨tx, rfl, sameNonce, ⟨⟨?_, isHeap_pop indexed.heap, ?_⟩, removes⟩, ?_⟩
  · rw [keys_erase]
    exact (cons_perm_iff_perm_erase.mp (perm.symm.trans indexed.indexed)).2
  · intro nonce other held
    exact indexed.keyed nonce other (removes.of_after held)
  · have lengthEq := perm.length_eq
    have restLength := congrArg List.length indexEq
    rw [length_cons] at lengthEq restLength
    change (pop id map.index).2.length = rest.length
    omega

theorem forwardLoop {threshold fuel : Nat} (enough : map.index.length ≤ fuel) :
    Popped map (map.forwardLoop threshold fuel) ∧
      (∀ tx ∈ (map.forwardLoop threshold fuel).1, tx.nonce < threshold) ∧
      ∀ nonce, ((map.forwardLoop threshold fuel).2.get nonce).isSome → threshold ≤ nonce := by
  induction fuel generalizing map with
  | zero =>
    have nothing := indexed.get_of_index_nil (eq_nil_of_length_eq_zero (Nat.le_zero.mp enough))
    refine ⟨.nothing indexed, forall_mem_nil _, fun nonce held => ?_⟩
    rw [RawSortedMap.forwardLoop, nothing] at held
    cases held
  | succ fuel ih =>
    unfold RawSortedMap.forwardLoop
    cases indexEq : map.index with
    | nil =>
      have nothing := indexed.get_of_index_nil indexEq
      refine ⟨.nothing indexed, forall_mem_nil _, fun nonce held => ?_⟩
      rw [nothing] at held
      cases held
    | cons lowest rest =>
      dsimp only
      by_cases below : lowest < threshold
      · rw [if_pos below]
        obtain ⟨tx, firstEq, sameNonce, first, lengthEq⟩ := indexed.popFirst indexEq
        obtain ⟨later, laterBelow, atLeast⟩ :=
          ih first.indexed (by
            rw [indexEq, length_cons] at enough
            omega)
        refine ⟨first.append later, forall_mem_append.mpr ⟨?_, laterBelow⟩, atLeast⟩
        rw [firstEq]
        exact forall_mem_singleton.mpr (sameNonce ▸ below)
      · rw [if_neg below]
        refine ⟨.nothing indexed, forall_mem_nil _, fun nonce held => ?_⟩
        have lowestLe := indexed.lowest_le indexEq held
        omega

theorem readyLoop {fuel next : Nat} :
    Popped map (map.readyLoop fuel next) ∧
      (map.readyLoop fuel next).1.map Transaction.nonce =
        List.range' next (map.readyLoop fuel next).1.length := by
  induction fuel generalizing map next with
  | zero => exact ⟨.nothing indexed, rfl⟩
  | succ fuel ih =>
    unfold RawSortedMap.readyLoop
    cases indexEq : map.index with
    | nil => exact ⟨.nothing indexed, rfl⟩
    | cons lowest rest =>
      dsimp only
      by_cases isNext : lowest = next
      · subst isNext
        rw [if_pos rfl]
        obtain ⟨tx, firstEq, sameNonce, first, -⟩ := indexed.popFirst indexEq
        obtain ⟨later, consecutive⟩ :
            Popped map.popFirst.2 (map.popFirst.2.readyLoop fuel (next64 lowest)) ∧ _ :=
          ih first.indexed
        refine ⟨first.append later, ?_⟩
        rw [firstEq, singleton_append, map_cons, sameNonce,
          length_cons, List.range'_succ, consecutive]
        cases laterEq : (map.popFirst.2.readyLoop fuel (next64 lowest)).1 with
        | nil => rfl
        | cons second others =>
          -- a nonce that wrapped around is not in the heap
          rw [laterEq] at consecutive
          have secondNonce : second.nonce = next64 lowest := (List.cons.inj consecutive).1
          have held := later.removes.held second (by
            rw [laterEq]
            exact mem_cons_self)
          have lowestLe := indexed.lowest_le indexEq
            (isSome_of_eq_some (first.removes.of_after held))
          have notLowest : second.nonce ≠ lowest := by
            intro same
            have mem : tx ∈ map.popFirst.1 := by
              rw [firstEq]
              exact mem_singleton_self tx
            have gone := first.removes.gone mem
            rw [sameNonce, ← same, held] at gone
            cases gone
          have wrapped : next64 lowest ≤ lowest + 1 := Nat.mod_le _ _
          rw [show next64 lowest = lowest + 1 by omega]
      · rw [if_neg isNext]
        exact ⟨.nothing indexed, rfl⟩

end

end Indexed

end RawSortedMap

end MoacVnode.Core
