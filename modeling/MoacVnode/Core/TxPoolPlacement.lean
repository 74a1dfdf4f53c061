import MoacVnode.Core.TxPoolOps

/-!
# Where the operations of the pool put transactions

The pool refines its abstract contents: every update of a list or of the index
is an update of the contents.  The operations keep `Placed`; what they take out
of one place they drop or put into another.  Only removing the first of several
pending transactions loses the others, which matters if the index is exact.

`Reindex` says what an operation does to the index and the price heap on its
way: it drops recorded transactions or puts them into the heap once more.
`Tidy` has both.
-/

namespace MoacVnode.Core

open Lib
open RawSortedMap (Removes)
open Function (update update_self update_of_ne)
open List AList TxList Contents TxPool

variable {strict : Bool} {lib : StateLib} {origin pool other : TxPool lib}
  {loose removed : List Transaction} {addr : Address} {tx : Transaction} {hash : Hash}
  {list : TxList strict} {map : AList fun _ : Address => TxList strict}

theorem TxList.get_overwrite_eq (list : TxList strict) (tx : Transaction) :
    (list.overwrite tx).get = update list.get tx.nonce (some tx) := by
  funext nonce
  rw [Function.update_apply]
  exact RawSortedMap.WellFormed.get_put list.txs.toRawSortedMap tx nonce

theorem TxList.add_of_missing (missing : list.get tx.nonce = none) (priceBump : Nat) :
    list.add tx priceBump = (true, none, list.overwrite tx) := by
  rw [TxList.add, missing]

theorem TxList.add_of_held {old : Transaction} (held : list.get tx.nonce = some old)
    (priceBump : Nat) :
    list.add tx priceBump = (false, none, list) ∨
      list.add tx priceBump = (true, some old, list.overwrite tx) := by
  rw [TxList.add, held]
  dsimp only
  split
  · exact .inl rfl
  · exact .inr rfl

namespace TxPool

variable {postpones : Prop}

def listAt {strict : Bool} (map : AList fun _ : Address => TxList strict)
    (addr : Address) : Nat → Option Transaction :=
  match map.lookup addr with
  | some list => list.get
  | none => fun _ => none

def contents (pool : TxPool lib) : Contents where
  held
    | .pending => listAt pool.pending
    | .queue => listAt pool.queue
  all := pool.all.lookup

theorem listAt_of_lookup (got : map.lookup addr = some list) : listAt map addr = list.get := by
  rw [listAt, got]

variable (map)

theorem get_getD (addr : Address) :
    ((map.lookup addr).getD (newTxList strict)).get = listAt map addr := by
  cases got : map.lookup addr with
  | none =>
    rw [listAt, got]
    exact funext get_new
  | some list => rw [listAt, got, Option.getD_some]

theorem listAt_insert (addr : Address) (list : TxList strict) :
    listAt (map.insert addr list) = update (listAt map) addr list.get := by
  funext owner
  by_cases same : owner = addr
  · rw [same, update_self, listAt, lookup_insert]
  · rw [update_of_ne same, listAt, listAt, lookup_insert_ne same]

theorem listAt_erase (addr : Address) :
    listAt (map.erase addr) = update (listAt map) addr fun _ => none := by
  funext owner
  by_cases same : owner = addr
  · rw [same, update_self, listAt, lookup_erase]
  · rw [update_of_ne same, listAt, listAt, lookup_erase_ne same]

variable {map}

@[simp]
theorem contents_setPending (list : TxList true) :
    (pool.setPending addr list).contents = pool.contents.setList .pending addr list.get :=
  eq_setList (listAt_insert pool.pending addr list)
    (fun | .pending, ne => absurd rfl ne | .queue, _ => rfl) rfl

@[simp]
theorem contents_setQueue (list : TxList false) :
    (pool.setQueue addr list).contents = pool.contents.setList .queue addr list.get :=
  eq_setList (listAt_insert pool.queue addr list)
    (fun | .pending, _ => rfl | .queue, ne => absurd rfl ne) rfl

@[simp]
theorem contents_deletePending :
    (pool.deletePending addr).contents = pool.contents.setList .pending addr fun _ => none :=
  eq_setList (listAt_erase pool.pending addr)
    (fun | .pending, ne => absurd rfl ne | .queue, _ => rfl) rfl

@[simp]
theorem contents_deleteQueue :
    (pool.deleteQueue addr).contents = pool.contents.setList .queue addr fun _ => none :=
  eq_setList (listAt_erase pool.queue addr)
    (fun | .pending, _ => rfl | .queue, ne => absurd rfl ne) rfl

theorem contents_flattenQueue {list : TxList false} (got : pool.queue.lookup addr = some list) :
    (pool.setQueue addr list.flatten.2).contents = pool.contents := by
  rw [contents_setQueue, get_flatten, ← listAt_of_lookup got]
  exact setList_self pool.contents .queue addr

theorem held_of_queued {list : TxList false} (got : pool.queue.lookup addr = some list)
    (queued : tx ∈ list.flatten.1) : pool.contents.held .queue addr tx.nonce = some tx := by
  rw [show pool.contents.held .queue addr = list.get from listAt_of_lookup got]
  exact mem_flatten.mp queued

@[simp]
theorem contents_draw (used : Nat) : (pool.draw used).contents = pool.contents := rfl

@[simp]
theorem contents_dropTx : (pool.dropTx hash).contents = pool.contents.setAll hash none := by
  refine congrArg (Contents.mk pool.contents.held) (funext fun key => ?_)
  change (pool.all.erase hash).lookup key = update pool.all.lookup hash none key
  by_cases same : key = hash
  · rw [same, update_self, lookup_erase]
  · rw [update_of_ne same, lookup_erase_ne same]

@[simp]
theorem contents_track : (pool.track hash tx).contents = pool.contents.setAll hash (some tx) := by
  refine congrArg (Contents.mk pool.contents.held) (funext fun key => ?_)
  change (pool.all.insert hash tx).lookup key = update pool.all.lookup hash (some tx) key
  by_cases same : key = hash
  · rw [same, update_self, lookup_insert]
  · rw [update_of_ne same, lookup_insert_ne same]

@[simp]
theorem contents_setVirtualNonce (nonce : Nat) :
    (pool.setVirtualNonce addr nonce).contents = pool.contents :=
  rfl

@[simp]
theorem contents_lowerVirtualNonce (nonce : Nat) :
    (pool.lowerVirtualNonce addr nonce).contents = pool.contents := by
  unfold lowerVirtualNonce
  split <;> rfl

@[simp]
theorem held_dropAll (txs : List Transaction) :
    (pool.dropAll txs).contents.held = pool.contents.held := by
  induction txs generalizing pool with
  | nil => rfl
  | cons tx txs ih => exact ih.trans (by rw [contents_dropTx, Contents.setAll])

theorem enqueueTx_of_free (slotFree : pool.contents.held .queue tx.owner tx.nonce = none) :
    pool.enqueueTx hash tx =
      ((pool.setQueue tx.owner
        (((pool.queue.lookup tx.owner).getD (newTxList false)).overwrite tx)).track hash tx,
        .ok false) := by
  have missing : ((pool.queue.lookup tx.owner).getD (newTxList false)).get tx.nonce = none := by
    rw [get_getD]
    exact slotFree
  unfold enqueueTx
  dsimp only
  rw [TxList.add_of_missing missing]
  rfl

theorem contents_enqueueTx (slotFree : pool.contents.held .queue tx.owner tx.nonce = none) :
    (pool.enqueueTx hash tx).1.contents = (pool.contents.put .queue tx).setAll hash (some tx) := by
  rw [enqueueTx_of_free slotFree, contents_track, contents_setQueue,
    TxList.get_overwrite_eq, get_getD]
  rfl

@[simp]
theorem pending_enqueueTx :
    (pool.enqueueTx hash tx).1.contents.held .pending = pool.contents.held .pending := by
  unfold enqueueTx
  dsimp only
  split
  · rfl
  · rename_i old list added
    change (((pool.setQueue tx.owner list).dropAll old.toList).contents.held .pending) = _
    rw [held_dropAll]
    rfl

@[simp]
theorem pending_enqueueAll (txs : List Transaction) :
    (pool.enqueueAll txs).contents.held .pending = pool.contents.held .pending := by
  induction txs generalizing pool with
  | nil => rfl
  | cons tx txs ih => exact ih.trans pending_enqueueTx

theorem contents_promoteTx (slotFree : pool.contents.held .pending tx.owner tx.nonce = none) :
    (pool.promoteTx tx.owner hash tx).contents =
      if (pool.contents.all hash).isNone then (pool.contents.put .pending tx).setAll hash (some tx)
      else pool.contents.put .pending tx := by
  have missing : ((pool.pending.lookup tx.owner).getD (newTxList true)).get tx.nonce = none := by
    rw [get_getD]
    exact slotFree
  unfold promoteTx
  dsimp only
  rw [TxList.add_of_missing missing]
  generalize listEq : (pool.pending.lookup tx.owner).getD (newTxList true) = list
  have listGet : list.get = pool.contents.held .pending tx.owner := by
    rw [← listEq, get_getD]
    rfl
  have moved : (pool.setPending tx.owner (list.overwrite tx)).contents =
      pool.contents.put .pending tx := by
    rw [contents_setPending, TxList.get_overwrite_eq, listGet]
    rfl
  change (if (pool.contents.all hash).isNone then
    (pool.setPending tx.owner (list.overwrite tx)).track hash tx
    else pool.setPending tx.owner (list.overwrite tx)).contents = _
  rw [apply_ite contents, contents_track, moved]

/-- The pools agree on the index, the price heap and what steers them. -/
structure SameIndex (pool other : TxPool lib) : Prop where
  all : other.all = pool.all
  priced : other.priced = pool.priced
  locals : other.locals = pool.locals
  config : other.config = pool.config

theorem sameIndex_lowerVirtualNonce (nonce : Nat) :
    SameIndex pool (pool.lowerVirtualNonce addr nonce) := by
  unfold lowerVirtualNonce
  split <;> exact ⟨rfl, rfl, rfl, rfl⟩

/-- Recorded transactions were dropped and, if some may be postponed, put into the price heap once
more. -/
inductive Reindex (postpones : Prop) (origin : TxPool lib) : TxPool lib → Prop
  | start : Reindex postpones origin origin
  | frame {pool other : TxPool lib} (prior : Reindex postpones origin pool)
      (same : SameIndex pool other) : Reindex postpones origin other
  | drop {pool : TxPool lib} {hash : Hash} (prior : Reindex postpones origin pool)
      (recorded : (pool.all.lookup hash).isSome) :
      Reindex postpones origin (pool.dropTx hash)
  | requeue {pool : TxPool lib} {tx : Transaction}
      (prior : Reindex postpones origin pool) (postponed : postpones)
      (recorded : pool.all.lookup tx.hash = some tx) :
      Reindex postpones origin (pool.track tx.hash tx)

theorem Reindex.lookup_of (reindex : Reindex postpones origin pool) {other : Transaction}
    (got : pool.all.lookup hash = some other) : origin.all.lookup hash = some other := by
  induction reindex generalizing hash with
  | start => exact got
  | frame prior same ih =>
    rw [same.all] at got
    exact ih got
  | @drop pool dropped prior recorded ih =>
    apply ih
    have inContents : (pool.dropTx dropped).contents.all hash = some other := got
    rw [contents_dropTx] at inContents
    exact (Placed.all_setAll_none inContents).2
  | @requeue pool tx prior postponed recorded ih =>
    apply ih
    change (pool.all.insert tx.hash tx).lookup hash = some other at got
    by_cases same : hash = tx.hash
    · rw [same, lookup_insert] at got
      rw [same, recorded, got]
    · rwa [lookup_insert_ne same] at got

theorem Reindex.trans {mid : TxPool lib} (first : Reindex postpones origin mid)
    (second : Reindex postpones mid pool) : Reindex postpones origin pool := by
  induction second with
  | start => exact first
  | frame prior same ih => exact ih.frame same
  | drop prior recorded ih => exact ih.drop recorded
  | requeue prior postponed recorded ih => exact ih.requeue postponed recorded

end TxPool

/-- How far the index is tracked, whether pending transactions may be put back into the queue, and
what all transactions are. -/
structure Regime where
  level : Tracking
  postpones : Prop
  good : Transaction → Prop

/-- The transactions are placed as the regime says, and from the pool of origin
on the index was kept along. -/
structure Tidy {lib : StateLib} (regime : Regime) (origin pool : TxPool lib)
    (loose : List Transaction) : Prop where
  placed : Placed regime.level regime.good pool.contents loose
  reindex : regime.level.Known → TxPool.Reindex regime.postpones origin pool

namespace Tidy

variable {regime : Regime}

theorem of_placed (placed : Placed regime.level regime.good pool.contents loose) :
    Tidy regime pool pool loose :=
  ⟨placed, fun _ => .start⟩

theorem frame (tidy : Tidy regime origin pool loose)
    (sameContents : other.contents = pool.contents) (same : SameIndex pool other) :
    Tidy regime origin other loose :=
  ⟨sameContents ▸ tidy.placed, fun known => (tidy.reindex known).frame same⟩

theorem dropTx (tidy : Tidy regime origin pool (tx :: loose)) :
    Tidy regime origin (pool.dropTx tx.hash) loose := by
  refine ⟨?_, fun known => (tidy.reindex known).drop ?_⟩
  · rw [contents_dropTx]
    exact tidy.placed.drop fun _ => rfl
  · have recorded : pool.all.lookup tx.hash = some tx :=
      tidy.placed.recorded known (.inr mem_cons_self)
    rw [recorded]
    rfl

theorem dropAll (tidy : Tidy regime origin pool (removed ++ loose)) :
    Tidy regime origin (pool.dropAll removed) loose := by
  induction removed generalizing pool with
  | nil => exact tidy
  | cons tx removed ih => exact @ih (pool.dropTx tx.hash) tidy.dropTx

theorem enqueueTx (tidy : Tidy regime origin pool (tx :: loose))
    (postpones : regime.level.Known → regime.postpones) :
    Tidy regime origin (pool.enqueueTx tx.hash tx).1 loose := by
  have slotFree := tidy.placed.free tx mem_cons_self .queue
  refine ⟨?_, fun known => ?_⟩
  · rw [contents_enqueueTx slotFree]
    exact tidy.placed.record.put .queue
  · have recorded : pool.all.lookup tx.hash = some tx :=
      tidy.placed.recorded known (.inr mem_cons_self)
    rw [enqueueTx_of_free slotFree]
    refine .requeue ((tidy.reindex known).frame ?_) (postpones known) recorded
    exact ⟨rfl, rfl, rfl, rfl⟩

theorem enqueueAll (tidy : Tidy regime origin pool (removed ++ loose))
    (postpones : regime.level.Known → regime.postpones ∨ removed = []) :
    Tidy regime origin (pool.enqueueAll removed) loose := by
  induction removed generalizing pool with
  | nil => exact tidy
  | cons tx removed ih =>
    have mayPostpone (known : regime.level.Known) : regime.postpones :=
      (postpones known).resolve_right (cons_ne_nil tx removed)
    exact @ih (pool.enqueueTx tx.hash tx).1 (tidy.enqueueTx mayPostpone)
      fun known => .inl (mayPostpone known)

theorem promoteTx (tidy : Tidy regime origin pool (tx :: loose)) :
    Tidy regime origin (pool.promoteTx tx.owner tx.hash tx) loose := by
  have slotFree := tidy.placed.free tx mem_cons_self .pending
  refine ⟨?_, fun known => ?_⟩
  · rw [contents_promoteTx slotFree]
    split
    · exact tidy.placed.record.put .pending
    · exact tidy.placed.put .pending
  · have recorded : pool.all.lookup tx.hash = some tx :=
      tidy.placed.recorded known (.inr mem_cons_self)
    have missing : ((pool.pending.lookup tx.owner).getD (newTxList true)).get tx.nonce = none := by
      rw [get_getD]
      exact slotFree
    refine (tidy.reindex known).frame ?_
    unfold TxPool.promoteTx
    dsimp only
    rw [TxList.add_of_missing missing]
    change SameIndex pool
      { (if (pool.all.lookup tx.hash).isNone then _ else _ : TxPool lib).setVirtualNonce
        _ _ with beats := _, clock := _ }
    rw [recorded]
    exact ⟨rfl, rfl, rfl, rfl⟩

end Tidy

namespace TxPool

variable (pool)

/-- The transaction is not pending, or alone in its pending list, or not the first one there. -/
def Lossless (hash : Hash) : Prop :=
  ∀ tx ∈ pool.all.lookup hash, ∀ list ∈ pool.pending.lookup tx.owner,
    (list.get tx.nonce).isSome → list.len = 1 ∨ ∃ lower ∈ list.flatten.1, lower.nonce < tx.nonce
deriving Decidable

theorem exists_list {nonce : Nat} (held : listAt map addr nonce = some tx) :
    ∃ list, map.lookup addr = some list ∧ list.get nonce = some tx := by
  cases got : map.lookup addr with
  | none =>
    rw [listAt, got] at held
    cases held
  | some list =>
    rw [listAt_of_lookup got] at held
    exact ⟨list, rfl, held⟩

theorem removePending_eq_none (missing : pool.contents.held .pending tx.owner tx.nonce = none) :
    pool.removePending tx = none := by
  unfold removePending
  cases got : pool.pending.lookup tx.owner with
  | none => rfl
  | some list =>
    change listAt pool.pending tx.owner tx.nonce = none at missing
    rw [listAt_of_lookup got] at missing
    dsimp only
    rw [remove_missing missing]

theorem removePending_eq_some {list : TxList true}
    (got : pool.pending.lookup tx.owner = some list) (held : (list.get tx.nonce).isSome) :
    pool.removePending tx =
      some ((if (list.remove pool.choices tx).2.2.empty then
          (pool.draw 2).deletePending tx.owner
        else
          ((pool.draw 2).setPending tx.owner (list.remove pool.choices tx).2.2).enqueueAll
            (list.remove pool.choices tx).2.1).lowerVirtualNonce tx.owner tx.nonce) := by
  obtain ⟨isFound, -⟩ : _ ∧ TxList.Removed list tx.nonce _ _ :=
    @TxList.remove_found true list pool.choices tx held
  unfold removePending
  rw [got]
  dsimp only
  generalize list.remove pool.choices tx = res at isFound
  obtain ⟨flag, invalids, rest⟩ := res
  cases isFound
  rfl

theorem lossless_followers {list : TxList true} (choice : Nat → Nat)
    (held : (list.get tx.nonce).isSome)
    (keeps : list.len = 1 ∨ ∃ lower ∈ list.flatten.1, lower.nonce < tx.nonce)
    (isEmpty : (list.remove choice tx).2.2.empty = true) : (list.remove choice tx).2.1 = [] := by
  obtain ⟨-, removed⟩ := @TxList.remove_found true list choice tx held
  obtain ⟨other, otherHeld⟩ := Option.isSome_iff_exists.mp held
  have otherNonce := TxList.keyed otherHeld
  rcases keeps with alone | ⟨lower, lowerMem, isLower⟩
  · refine eq_nil_iff_forall_not_mem.mpr fun follower mem => ?_
    have above := removed.follows follower mem
    have followerHeld := removed.removes.held follower (mem_append_right _ mem)
    obtain ⟨only, isOnly⟩ := length_eq_one_iff.mp (list.length_flatten.trans alone)
    have otherOnly := TxList.mem_flatten.mpr (otherNonce ▸ otherHeld)
    have followerOnly := TxList.mem_flatten.mpr followerHeld
    rw [isOnly, mem_singleton] at otherOnly followerOnly
    rw [followerOnly, ← otherOnly, otherNonce] at above
    exact absurd above (Nat.lt_irrefl _)
  · have lowerHeld := TxList.mem_flatten.mp lowerMem
    have gone := get_of_empty isEmpty lower.nonce
    rw [removed.removes.get_eq, if_neg, lowerHeld] at gone
    · cases gone
    · rw [otherHeld, mem_map]
      rintro ⟨taken, mem, sameNonce⟩
      rcases mem_cons.mp mem with rfl | isFollower
      · omega
      · have above := removed.follows taken isFollower
        omega

theorem remove_queued_removes (list : TxList false) (choice : Nat → Nat) (tx : Transaction) :
    Removes list.get (list.remove choice tx).2.2.get (list.get tx.nonce).toList := by
  cases held : list.get tx.nonce with
  | none =>
    rw [remove_missing held]
    exact .nothing list.get
  | some other =>
    obtain ⟨-, removed⟩ := @TxList.remove_found false list choice tx (by rw [held]; rfl)
    have removes := removed.removes
    rwa [removed.loose rfl, append_nil, held] at removes

theorem get_eq_of_empty (isEmpty : list.empty = true) : list.get = fun _ => none :=
  funext (get_of_empty isEmpty)

theorem all_removeQueued (tx : Transaction) :
    (pool.removeQueued tx).contents.all = pool.contents.all := by
  unfold removeQueued
  split
  · rfl
  · dsimp only
    split <;> rfl

theorem pending_removeQueued (tx : Transaction) :
    (pool.removeQueued tx).contents.held .pending = pool.contents.held .pending := by
  unfold removeQueued
  split
  · rfl
  · dsimp only
    split <;> rfl

theorem sameIndex_removeQueued (tx : Transaction) : SameIndex pool (pool.removeQueued tx) := by
  unfold removeQueued
  split
  · exact ⟨rfl, rfl, rfl, rfl⟩
  · dsimp only
    split <;> exact ⟨rfl, rfl, rfl, rfl⟩

theorem removeQueued_of_missing (missing : pool.queue.lookup tx.owner = none) :
    pool.removeQueued tx = pool := by
  unfold removeQueued
  rw [missing]

theorem contents_removeQueued {list : TxList false} (got : pool.queue.lookup tx.owner = some list) :
    (pool.removeQueued tx).contents =
      pool.contents.setList .queue tx.owner (list.remove pool.choices tx).2.2.get := by
  unfold removeQueued
  rw [got]
  dsimp only
  split
  · next isEmpty => rw [contents_deleteQueue, get_eq_of_empty isEmpty]
  · exact contents_setQueue _

/-- The slot of the transaction with this hash is not pending. -/
def NotPending (hash : Hash) : Prop :=
  ∀ tx, pool.contents.all hash = some tx → pool.contents.held .pending tx.owner tx.nonce = none

variable {pool}

theorem removeTx_of_missing (missing : pool.all.lookup hash = none) :
    pool.removeTx hash = pool := by
  unfold removeTx
  rw [missing]

theorem removeTx_of_found (got : pool.all.lookup hash = some tx) : pool.removeTx hash =
    ((pool.dropTx hash).removePending tx).getD ((pool.dropTx hash).removeQueued tx) := by
  unfold removeTx
  rw [got]

theorem removeTx_of_free (got : pool.all.lookup hash = some tx)
    (free : pool.contents.held .pending tx.owner tx.nonce = none) :
    pool.removeTx hash = (pool.dropTx hash).removeQueued tx := by
  rw [removeTx_of_found got,
    removePending_eq_none (pool.dropTx hash) (by rwa [contents_dropTx]), Option.getD_none]

theorem NotPending.lossless (notPending : pool.NotPending hash) : pool.Lossless hash := by
  intro tx got list listFound held
  have missing : listAt pool.pending tx.owner tx.nonce = none := notPending tx got
  rw [listAt_of_lookup listFound] at missing
  rw [missing] at held
  cases held

theorem NotPending.removeTx (notPending : pool.NotPending hash) {other : Hash}
    (otherNotPending : pool.NotPending other) : (pool.removeTx hash).NotPending other := by
  cases got : pool.all.lookup hash with
  | none => rwa [removeTx_of_missing got]
  | some tx =>
    rw [removeTx_of_free got (notPending tx got)]
    intro kept keptFound
    rw [all_removeQueued, contents_dropTx] at keptFound
    rw [pending_removeQueued, contents_dropTx]
    exact otherNotPending kept (Placed.all_setAll_none keptFound).2

/-- Each of the transactions is removed without a loss. -/
def LosslessAll (pool : TxPool lib) (txs : List Transaction) : Prop :=
  EachFold (fun pool tx => pool.removeTx tx.hash) (fun pool tx => pool.Lossless tx.hash) pool txs
deriving Decidable

end TxPool

namespace Tidy

variable {regime : Regime} {txs : List Transaction}

theorem takePendingSlot {list : TxList true}
    (placed : Placed regime.level regime.good pool.contents [])
    (indexed : pool.all.lookup hash = some tx) (got : pool.pending.lookup tx.owner = some list)
    (held : (list.get tx.nonce).isSome)
    (isThere : regime.level.Complete → list.get tx.nonce = some tx) :
    Tidy regime (pool.dropTx hash) (((pool.dropTx hash).draw 2).setPending tx.owner
        (list.remove (pool.dropTx hash).choices tx).2.2)
      (list.remove (pool.dropTx hash).choices tx).2.1 := by
  have listGet : pool.contents.held .pending tx.owner = list.get := listAt_of_lookup got
  obtain ⟨-, removed⟩ := @TxList.remove_found true list (pool.dropTx hash).choices tx held
  have removes := removed.removes
  rw [← listGet] at removes isThere
  have elsewhere (place : Place) (ne : place ≠ .pending) :
      pool.contents.held place tx.owner tx.nonce ≠ some tx := by
    rw [placed.apart_of_ne ne]
    · exact (Option.some_ne_none tx).symm
    · rw [listGet]
      exact Option.isSome_iff_ne_none.mp held
  refine ⟨?_, fun _ => Reindex.start.frame ⟨rfl, rfl, rfl, rfl⟩⟩
  rw [contents_setPending, contents_draw, contents_dropTx]
  exact placed.removeSlot removes (fun _ => indexed) elsewhere isThere

section

variable (placed : Placed regime.level regime.good pool.contents [])

include placed

theorem removePending {list : TxList true} (indexed : pool.all.lookup hash = some tx)
    (got : pool.pending.lookup tx.owner = some list) (held : (list.get tx.nonce).isSome)
    (isThere : regime.level.Complete → list.get tx.nonce = some tx)
    (keeps : regime.level.Complete → list.len = 1 ∨ ∃ lower ∈ list.flatten.1, lower.nonce <
      tx.nonce) (postpones : regime.level.Known → regime.postpones) :
    ∃ after, (pool.dropTx hash).removePending tx = some after ∧
      Tidy regime (pool.dropTx hash) after [] := by
  refine ⟨_, removePending_eq_some (pool.dropTx hash) got held, ?_⟩
  have taken := takePendingSlot placed indexed got held isThere
  have keepsAll (full : regime.level.Complete) :=
    lossless_followers (pool.dropTx hash).choices held (keeps full)
  generalize list.remove (pool.dropTx hash).choices tx = res at taken keepsAll
  refine frame ?_ (contents_lowerVirtualNonce tx.nonce) (sameIndex_lowerVirtualNonce tx.nonce)
  split
  · rename_i isEmpty
    refine ⟨?_, fun _ => Reindex.start.frame ⟨rfl, rfl, rfl, rfl⟩⟩
    rw [contents_deletePending, ← get_eq_of_empty isEmpty, ← contents_setPending]
    exact taken.placed.forget (nil_sublist _) fun full => (keepsAll full isEmpty).symm
  · rw [← append_nil res.2.1] at taken
    exact taken.enqueueAll fun known => .inl (postpones known)

theorem removeQueued (indexed : pool.all.lookup hash = some tx)
    (notPending : pool.contents.held .pending tx.owner tx.nonce = none)
    (isThere : regime.level.Complete → pool.contents.held .queue tx.owner tx.nonce = some tx) :
    Tidy regime (pool.dropTx hash) ((pool.dropTx hash).removeQueued tx) [] := by
  refine ⟨?_, fun _ => Reindex.start.frame (sameIndex_removeQueued _ tx)⟩
  have elsewhere (place : Place) (ne : place ≠ .queue) :
      pool.contents.held place tx.owner tx.nonce ≠ some tx := by
    cases place with
    | pending =>
      rw [notPending]
      exact (Option.some_ne_none tx).symm
    | queue => exact absurd rfl ne
  cases got : pool.queue.lookup tx.owner with
  | none =>
    have nothing : pool.contents.held .queue tx.owner = fun _ => none := by
      change listAt pool.queue tx.owner = _
      rw [listAt, got]
    rw [removeQueued_of_missing (pool.dropTx hash) got, contents_dropTx]
    refine placed.erase (fun _ => indexed) fun _ present => ?_
    obtain ⟨place, heldAt⟩ := present.resolve_right not_mem_nil
    cases place with
    | pending => exact elsewhere .pending (by decide) heldAt
    | queue =>
      rw [nothing] at heldAt
      cases heldAt
  | some list =>
    have listGet : pool.contents.held .queue tx.owner = list.get := listAt_of_lookup got
    rw [contents_removeQueued (pool.dropTx hash) got, contents_dropTx]
    refine placed.removeSlot ?_ (fun _ => indexed) elsewhere isThere
    rw [append_nil, listGet]
    exact remove_queued_removes list _ tx

theorem removeTx_of_lookup (lossless : regime.level.Complete → pool.Lossless hash)
    (postpones : regime.level.Known → regime.postpones ∨ pool.NotPending hash)
    (got : pool.all.lookup hash = some tx) :
    Tidy regime (pool.dropTx hash) (pool.removeTx hash) [] := by
  have somewhere (full : regime.level.Complete) :
      ∃ place, pool.contents.held place tx.owner tx.nonce = some tx :=
    (placed.only full got).resolve_right not_mem_nil
  cases pendingSlot : pool.contents.held .pending tx.owner tx.nonce with
  | some other =>
    obtain ⟨list, listFound, otherHeld⟩ := exists_list pendingSlot
    have held : (list.get tx.nonce).isSome := by
      rw [otherHeld]
      rfl
    have isThere (full : regime.level.Complete) : list.get tx.nonce = some tx := by
      obtain ⟨place, heldAt⟩ := somewhere full
      rw [← listAt_of_lookup listFound]
      cases place with
      | pending => exact heldAt
      | queue =>
        have free := placed.apart_of_ne (show Place.queue ≠ .pending by decide)
          (pendingSlot ▸ Option.some_ne_none other)
        cases heldAt.symm.trans free
    have mayPostpone (known : regime.level.Known) : regime.postpones :=
      (postpones known).resolve_right fun notPending => by
        cases pendingSlot.symm.trans (notPending tx got)
    obtain ⟨after, removed, afterTidy⟩ :=
      removePending placed got listFound held isThere
        (fun full => lossless full tx got list listFound held) mayPostpone
    rwa [removeTx_of_found got, removed, Option.getD_some]
  | none =>
    rw [removeTx_of_free got pendingSlot]
    refine removeQueued placed got pendingSlot fun full => ?_
    obtain ⟨place, heldAt⟩ := somewhere full
    cases place with
    | pending => cases pendingSlot.symm.trans heldAt
    | queue => exact heldAt

end

theorem removeTx (tidy : Tidy regime origin pool [])
    (lossless : regime.level.Complete → pool.Lossless hash)
    (postpones : regime.level.Known → regime.postpones ∨ pool.NotPending hash) :
    Tidy regime origin (pool.removeTx hash) [] := by
  cases got : pool.all.lookup hash with
  | none => rwa [removeTx_of_missing got]
  | some tx =>
    have removed := removeTx_of_lookup tidy.placed lossless postpones got
    refine ⟨removed.placed, fun known => ?_⟩
    have dropped := (tidy.reindex known).drop (show (pool.all.lookup hash).isSome by
      rw [got]
      rfl)
    exact dropped.trans (removed.reindex known)

theorem removeAll (tidy : Tidy regime origin pool [])
    (lossless : regime.level.Complete → pool.LosslessAll txs)
    (postpones : regime.level.Known → regime.postpones ∨ txs = []) :
    Tidy regime origin (pool.removeAll txs) [] := by
  induction txs generalizing pool with
  | nil => exact tidy
  | cons tx txs ih =>
    have mayPostpone (known : regime.level.Known) : regime.postpones :=
      (postpones known).resolve_right (cons_ne_nil tx txs)
    exact ih (tidy.removeTx (fun full => (lossless full).1) fun known => .inl (mayPostpone known))
      (fun full => (lossless full).2) fun known => .inl (mayPostpone known)

theorem removeAll_queued (tidy : Tidy regime origin pool [])
    (notPending : regime.level.Known → ∀ tx ∈ txs, pool.NotPending tx.hash) :
    Tidy regime origin (pool.removeAll txs) [] := by
  induction txs generalizing pool with
  | nil => exact tidy
  | cons tx txs ih =>
    have first (known : regime.level.Known) : pool.NotPending tx.hash :=
      notPending known tx mem_cons_self
    exact ih (tidy.removeTx (fun full => (first full.known).lossless)
        fun known => .inr (first known))
      fun known other mem => (first known).removeTx
        (notPending known other (mem_cons_of_mem tx mem))

end Tidy

namespace Placed

variable {level : Tracking} {good : Transaction → Prop}

theorem notPending_of_flattened {list : TxList false} (placed : Placed level good pool.contents [])
    (known : level.Known) (got : pool.queue.lookup addr = some list)
    (queued : tx ∈ list.flatten.1) : (pool.setQueue addr list.flatten.2).NotPending tx.hash := by
  have held := held_of_queued got queued
  rw [← (placed.slot held).1] at held
  intro other recorded
  cases (placed.recorded known (.inl ⟨.queue, held⟩)).symm.trans recorded
  exact placed.apart_of_ne (show Place.pending ≠ .queue by decide) (held ▸ Option.some_ne_none tx)

end Placed

end MoacVnode.Core
