import MoacVnode.Core.TxPoolAccounts

/-!
# Adding a transaction

`Insertion` has the three ways in which a valid transaction goes into a pool with room for it, and
`Addition` those in which `add` ends.
-/

namespace MoacVnode.Core

open Lib Option Tidy

variable {lib : StateLib} {pool after : TxPool lib} {tx : Transaction} {hash : Hash}
  {isLocal : Bool} {env : PoolEnv} {view : PoolView lib} {level : Tracking}
  {good : Transaction → Prop}

namespace TxPool

variable {valid : Transaction}

/-- The pools agree on the index and the prices; at most the owner of the new
transaction was marked local. -/
structure SameEntries (owner : Address) (pool other : TxPool lib) : Prop where
  all : other.all = pool.all
  priced : other.priced = pool.priced
  config : other.config = pool.config
  locals : other.locals = pool.locals ∨ owner ∈ other.locals

theorem SameEntries.mark {owner : Address} {other : TxPool lib}
    (same : SameEntries owner pool other) :
    SameEntries owner pool { other with locals := insert owner other.locals } :=
  ⟨same.all, same.priced, same.config, .inr (Finset.mem_insert_self _ _)⟩

/-- What inserting a valid transaction did: it was refused, it went into the queue,
or it replaced another one. -/
inductive Insertion (pool : TxPool lib) (hash : Hash) (tx : Transaction) (after : TxPool lib) : Prop
  | refused (contents : after.contents = pool.contents) (entries : SameEntries tx.owner pool after)
  | queued (free : ∀ place, pool.contents.held place tx.owner tx.nonce = none)
      (contents : after.contents = (pool.contents.put .queue tx).setAll hash (some tx))
      (entries : SameEntries tx.owner (pool.track hash tx) after)
  | replaced (place : Place) (old : Transaction) (key : Hash)
      (occupied : pool.contents.held place tx.owner tx.nonce = some old)
      (sameKey : key = hash ∨ key = tx.hash)
      (contents : after.contents =
        ((pool.contents.put place tx).setAll old.hash none).setAll key (some tx))
      (entries : SameEntries tx.owner ((pool.dropTx old.hash).track key tx) after)

theorem Insertion.mark (insertion : Insertion pool hash tx after) :
    Insertion pool hash tx { after with locals := insert tx.owner after.locals } := by
  cases insertion with
  | refused contents entries => exact .refused contents entries.mark
  | queued free contents entries => exact .queued free contents entries.mark
  | replaced place old key occupied sameKey contents entries =>
    exact .replaced place old key occupied sameKey contents entries.mark

theorem replacePending_insertion {list : TxList true}
    (got : pool.pending.lookup tx.owner = some list) (overlaps : list.overlaps tx) :
    Insertion pool hash tx (pool.replacePending list tx).1 := by
  obtain ⟨old, held⟩ := isSome_iff_exists.mp overlaps
  have listGet : pool.contents.held .pending tx.owner = list.get := listAt_of_lookup got
  unfold replacePending
  rcases TxList.add_of_held held pool.config.priceBump with refused | replaced
  · rw [refused]
    exact .refused rfl ⟨rfl, rfl, rfl, .inl rfl⟩
  · rw [replaced]
    refine .replaced .pending old tx.hash (by rw [listGet]; exact held) (.inr rfl) ?_
      ⟨rfl, rfl, rfl, .inl rfl⟩
    change ((((pool.setPending tx.owner (list.overwrite tx)).dropTx old.hash).track tx.hash
      tx).contents) = _
    rw [contents_track, contents_dropTx, contents_setPending, TxList.get_overwrite_eq, ← listGet]
    rfl

theorem enqueueTx_insertion (slotFree : pool.contents.held .pending tx.owner tx.nonce = none) :
    Insertion pool hash tx (pool.enqueueTx hash tx).1 := by
  cases occupied : pool.contents.held .queue tx.owner tx.nonce with
  | none =>
    refine .queued (fun place => ?_) (contents_enqueueTx occupied) ?_
    · cases place with
      | pending => exact slotFree
      | queue => exact occupied
    · rw [enqueueTx_of_free occupied]
      exact ⟨rfl, rfl, rfl, .inl rfl⟩
  | some old =>
    have held : ((pool.queue.lookup tx.owner).getD (newTxList false)).get tx.nonce = some old := by
      rw [get_getD]
      exact occupied
    unfold enqueueTx
    dsimp only
    rcases TxList.add_of_held held pool.config.priceBump with refused | replaced
    · rw [refused]
      refine .refused ?_ ⟨rfl, rfl, rfl, .inl rfl⟩
      rw [contents_setQueue, get_getD]
      exact Contents.setList_self pool.contents .queue tx.owner
    · rw [replaced]
      refine .replaced .queue old hash occupied (.inl rfl) ?_ ⟨rfl, rfl, rfl, .inl rfl⟩
      change ((((pool.setQueue tx.owner _).dropTx old.hash).track hash tx).contents) = _
      rw [contents_track, contents_dropTx, contents_setQueue, TxList.get_overwrite_eq, get_getD]
      rfl

theorem enqueueNew_insertion (slotFree : pool.contents.held .pending tx.owner tx.nonce = none) :
    Insertion pool hash tx (pool.enqueueNew hash tx isLocal).1 := by
  have enqueued := @enqueueTx_insertion lib pool tx hash slotFree
  unfold enqueueNew
  split
  · next refused => rwa [refused] at enqueued
  · rename_i accepted
    rw [accepted] at enqueued
    split
    · exact enqueued.mark
    · exact enqueued

theorem insertTx_insertion (pool : TxPool lib) (hash : Hash) (tx : Transaction)
    (isLocal : Bool) : Insertion pool hash tx (pool.insertTx hash tx isLocal).1 := by
  unfold insertTx
  cases got : pool.pending.lookup tx.owner with
  | none =>
    apply enqueueNew_insertion
    change listAt pool.pending tx.owner tx.nonce = none
    rw [listAt, got]
  | some list =>
    dsimp only
    split
    · next overlaps => exact replacePending_insertion got overlaps
    · rename_i apart
      apply enqueueNew_insertion
      change listAt pool.pending tx.owner tx.nonce = none
      rw [listAt_of_lookup got]
      exact not_isSome_iff_eq_none.mp apart

/-- How `add` ended: nothing was done, only the price index was asked, or the
transaction was inserted after some were discarded. -/
inductive Addition (env : PoolEnv) (view : PoolView lib) (pool : TxPool lib)
    (tx : Transaction) (isLocal : Bool) (after : TxPool lib) : Prop
  | nothing (same : after = pool)
  | underpriced (valid : Transaction) (chosen : pool.chooseDiscards valid = (none, after))
  | inserted (valid : Transaction) (drop : List Transaction) (chosenPool : TxPool lib)
      (unknown : pool.all.lookup tx.hash = none)
      (validated : pool.validateTx env view tx isLocal = .ok valid)
      (chosen : pool.chooseDiscards valid = (some drop, chosenPool))
      (discards : pool.discards env view tx isLocal = (drop, chosenPool))
      (inserted : after = ((chosenPool.removeAll drop).insertTx tx.hash valid isLocal).1)

theorem add_addition (env : PoolEnv) (view : PoolView lib) (pool : TxPool lib) (tx : Transaction)
    (isLocal : Bool) : Addition env view pool tx isLocal (pool.add env view tx isLocal).1 := by
  unfold add
  split
  · exact .nothing rfl
  · rename_i unknown
    split
    · exact .nothing rfl
    · rename_i valid validated
      split
      · next chosen => exact .underpriced valid chosen
      · rename_i drop chosenPool chosen
        refine .inserted valid drop chosenPool
          (not_isSome_iff_eq_none.mp unknown) validated chosen ?_ rfl
        rw [discards, if_neg unknown, validated]
        dsimp only
        rw [chosen]

theorem contents_chooseDiscards (pool : TxPool lib) (tx : Transaction) :
    (pool.chooseDiscards tx).2.contents = pool.contents := by
  unfold chooseDiscards
  split
  · rfl
  · dsimp only
    split <;> rfl

theorem contents_discards : (pool.discards env view tx isLocal).2.contents = pool.contents := by
  unfold discards
  split
  · rfl
  · split
    · rfl
    · rename_i valid validated
      have sameContents := contents_chooseDiscards pool valid
      split
      · next chosen => rwa [chosen] at sameContents
      · next chosen => rwa [chosen] at sameContents

end TxPool

namespace Placed

open TxPool

theorem maintained : Maintained fun pool : TxPool lib => Placed level good pool.contents [] where
  draw := fun _ placed => placed
  tick := fun placed => placed
  promoteAccount := fun placed ret =>
    (@of_placed lib _ [] ⟨level, True, good⟩ placed).promoteAccount ret |>.placed
  trimAccount := fun placed ret =>
    (@of_placed lib _ [] ⟨level, True, good⟩ placed).trimAccount ret |>.placed
  removeQueued := fun placed got queued =>
    (@of_placed lib _ [] ⟨level, True, good⟩ placed).removeFlattened got queued
      |>.placed

variable (placed : Placed level good pool.contents [])

include placed

theorem removeAll {txs : List Transaction} (lossless : level.Complete → pool.LosslessAll txs) :
    Tidy ⟨level, True, good⟩ pool (pool.removeAll txs) [] :=
  (@of_placed lib pool [] ⟨level, True, good⟩ placed).removeAll lossless fun _ => .inl trivial

theorem settle (ret : pool.settle = .ok after) : Placed level good after.contents [] :=
  (@of_placed lib pool [] ⟨level, True, good⟩ placed).settle (fun _ => .inl trivial) ret |>.placed

theorem insertion (isGood : good tx)
    (new : level.Known → hash = tx.hash ∧ pool.contents.all hash = none ∧ tx.sender.isSome)
    (inserted : Insertion pool hash tx after) : Placed level good after.contents [] := by
  cases inserted with
  | refused contents entries => rwa [contents]
  | queued free contents entries =>
    rw [contents]
    exact (placed.accept free isGood new).put .queue
  | replaced place old key occupied sameKey contents entries =>
    rw [contents]
    refine placed.replace occupied isGood fun known => ?_
    obtain ⟨hashEq, absent, signed⟩ := new known
    have isKey : key = hash := sameKey.elim id fun same => same.trans hashEq.symm
    rw [isKey]
    exact ⟨hashEq, absent, signed⟩

theorem add (isGood : ∀ valid, pool.validateTx env view tx isLocal = .ok valid → good valid)
    (hashEq : level.Known → ∀ valid, pool.validateTx env view tx isLocal = .ok valid →
      valid.hash = tx.hash)
    (lossless : level.Complete → (pool.discards env view tx isLocal).2.LosslessAll
      (pool.discards env view tx isLocal).1) :
    Placed level good (pool.add env view tx isLocal).1.contents [] := by
  cases add_addition env view pool tx isLocal with
  | nothing same => rwa [same]
  | underpriced valid chosen =>
    have sameContents := contents_chooseDiscards pool valid
    rw [chosen] at sameContents
    rwa [sameContents]
  | inserted valid drop chosenPool unknown validated chosen discards inserted =>
    have sameContents := contents_chooseDiscards pool valid
    rw [chosen] at sameContents
    rw [discards] at lossless
    have chosenPlaced : Placed level good chosenPool.contents [] := by rwa [sameContents]
    have removed := chosenPlaced.removeAll lossless
    rw [inserted]
    refine removed.placed.insertion (isGood valid validated) (fun known => ?_)
      (insertTx_insertion _ _ _ _)
    refine ⟨(hashEq known valid validated).symm, ?_, (validateTx_eq_ok validated).signed⟩
    rw [← not_isSome_iff_eq_none]
    intro stillKnown
    obtain ⟨other, got⟩ := isSome_iff_exists.mp stillKnown
    have before : chosenPool.contents.all tx.hash = some other :=
      (removed.reindex known).lookup_of got
    rw [sameContents] at before
    cases before.symm.trans unknown

end Placed

/-- The transactions are placed as the regime says and the index and the prices
satisfy an invariant. -/
structure Indexed {lib : StateLib} (regime : Regime) (index : TxPool lib → Prop)
    (pool : TxPool lib) : Prop where
  placed : Placed regime.level regime.good pool.contents []
  index : index pool

/-- The invariant survives what happens to the index while transactions are
moved. -/
structure IndexRule {lib : StateLib} (regime : Regime) (index : TxPool lib → Prop) :
    Prop where
  known : regime.level.Known
  reindex : ∀ {origin pool}, index origin → TxPool.Reindex regime.postpones origin pool → index pool

namespace IndexRule

variable {regime : Regime} {index : TxPool lib → Prop} {origin : TxPool lib}
  (rule : IndexRule regime index)

open TxPool

include rule

theorem of_tidy (indexed : Indexed regime index origin)
    (tidy : Tidy regime origin pool []) : Indexed regime index pool :=
  ⟨tidy.placed, rule.reindex indexed.index (tidy.reindex rule.known)⟩

theorem frame (indexed : Indexed regime index pool)
    (sameContents : after.contents = pool.contents) (same : SameIndex pool after) :
    Indexed regime index after :=
  rule.of_tidy indexed ((of_placed indexed.placed).frame sameContents same)

theorem maintained : Maintained (Indexed regime index) where
  draw := fun _ indexed => rule.frame indexed rfl ⟨rfl, rfl, rfl, rfl⟩
  tick := fun indexed => rule.frame indexed rfl ⟨rfl, rfl, rfl, rfl⟩
  promoteAccount := fun indexed ret =>
    rule.of_tidy indexed ((of_placed indexed.placed).promoteAccount ret)
  trimAccount := fun indexed ret =>
    rule.of_tidy indexed ((of_placed indexed.placed).trimAccount ret)
  removeQueued := fun indexed got queued =>
    rule.of_tidy indexed ((of_placed indexed.placed).removeFlattened got queued)

theorem settle (indexed : Indexed regime index pool)
    (postpones : regime.postpones ∨ pool.DemotesNothing)
    (ret : pool.settle = .ok after) : Indexed regime index after :=
  rule.of_tidy indexed ((of_placed indexed.placed).settle (fun _ => postpones) ret)

end IndexRule

theorem TxPool.placed_newTxPool (config : TxPoolConfig) (state : lib.StateDB) (maxGas : Int)
    (choices : Nat → Nat) (clock : Nat → Int) :
    Placed level good (newTxPool config state maxGas choices clock).contents [] := by
  have nothing (place : Place) (addr : Address) (nonce : Nat) :
      (newTxPool config state maxGas choices clock).contents.held place addr nonce = none := by
    cases place <;> rfl
  refine ⟨fun held => ?_, fun held => ?_, List.forall_mem_nil _, .inl (nothing _ _ _),
    List.forall_mem_nil _, List.Pairwise.nil, fun _ _ _ got => (nomatch got),
    fun _ _ _ got => (nomatch got), fun _ tx present => ?_,
    fun _ _ _ got => (nomatch got)⟩
  · rw [nothing] at held
    cases held
  · rw [nothing] at held
    cases held
  · rcases present with ⟨place, held⟩ | loose
    · rw [nothing] at held
      cases held
    · cases loose

end MoacVnode.Core
