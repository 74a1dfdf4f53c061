import MoacVnode.Core.TxPoolMembership

/-!
# The slots of the pending lists and of the queue

A sender and a nonce are used in the pending lists or in the queue, never in both, at every point of
a run.
-/

namespace MoacVnode.Core

open Lib List Option TxPool

variable {lib : StateLib} {good : Transaction → Prop} {hash : Hash} {tx : Transaction}
  {env : PoolEnv} {level : Tracking} {loose removed : List Transaction} {isLocal : Bool}
  {pool after : TxPool lib} {removes : TxPool lib → Hash → Prop}
  {inserts : TxPool lib → Hash → Transaction → Prop} {view : PoolView lib}

namespace TxPool

variable {conds : Conditions lib} {origin : TxPool lib} {addr : Address}

section

variable (removes : TxPool lib → Hash → Prop)
  (inserts : TxPool lib → Hash → Transaction → Prop) (origin : TxPool lib)

/-- The pools between two bodies of the pool's loops, run in any order, where removals and
insertions meet a condition. -/
inductive Visited : TxPool lib → Prop
  | start : Visited origin
  | draw {pool : TxPool lib} (used : Nat) (prior : Visited pool) : Visited (pool.draw used)
  | tick {pool : TxPool lib} (clock : Nat → Int) (prior : Visited pool) :
      Visited { pool with clock := clock }
  | directCalls {pool : TxPool lib} (calls : AList fun _ : Address => TxList true)
      (prior : Visited pool) :
      Visited { pool with directCalls := calls }
  | pangu {pool : TxPool lib} (flag : Bool) (prior : Visited pool) :
      Visited { pool with pangu := flag }
  | enterState {pool : TxPool lib} (state : lib.StateDB) (maxGas : Int) (prior : Visited pool) :
      Visited (pool.enterState state maxGas)
  | promoteAccount {pool after : TxPool lib} {addr : Address}
      (prior : Visited pool) (ret : pool.promoteAccount addr = .ok after) : Visited after
  | trimAccount {counted after : TxPool lib × Nat} {addr : Address} (prior : Visited counted.1)
      (ret : trimAccount counted addr = .ok after) : Visited after.1
  | sortQueue {pool : TxPool lib} {addr : Address} {list : TxList false}
      (prior : Visited pool) (got : pool.queue.lookup addr = some list) :
      Visited (pool.setQueue addr list.flatten.2)
  | removeTx {pool : TxPool lib} {hash : Hash} (prior : Visited pool)
      (allowed : removes pool hash) : Visited (pool.removeTx hash)
  | chooseDiscards {pool : TxPool lib} (tx : Transaction) (prior : Visited pool) :
      Visited (pool.chooseDiscards tx).2
  | insertTx {pool : TxPool lib} {hash : Hash} {tx : Transaction} (isLocal : Bool)
      (prior : Visited pool) (allowed : inserts pool hash tx) :
      Visited (pool.insertTx hash tx isLocal).1
  | reprice {pool : TxPool lib} (price : Int) (prior : Visited pool) :
      Visited (pool.reprice price).2
  | demoteAccount {pool after : TxPool lib} {addr : Address}
      (prior : Visited pool) (ret : pool.demoteAccount addr = .ok after) : Visited after
  | updateVirtualNonce {pool after : TxPool lib} {addr : Address}
      (prior : Visited pool) (ret : pool.updateVirtualNonce addr = .ok after) : Visited after

end

def AllowsAll (removes : TxPool lib → Hash → Prop) (pool : TxPool lib)
    (txs : List Transaction) : Prop :=
  EachFold (fun pool tx => pool.removeTx tx.hash) (fun pool tx => removes pool tx.hash) pool txs

namespace Visited

theorem removeAll {txs : List Transaction} (visited : Visited removes inserts origin pool)
    (allowed : AllowsAll removes pool txs) : Visited removes inserts origin (pool.removeAll txs) :=
  foldl_invariant (Visited removes inserts origin) .removeTx visited allowed

theorem add (visited : Visited removes inserts origin pool)
    (discards : AllowsAll removes (pool.discards env view tx isLocal).2
      (pool.discards env view tx isLocal).1) (inserted : ∀ valid, pool.all.lookup tx.hash = none →
      pool.validateTx env view tx isLocal = .ok valid →
      inserts ((pool.discards env view tx isLocal).2.removeAll
        (pool.discards env view tx isLocal).1) tx.hash valid) :
    Visited removes inserts origin (pool.add env view tx isLocal).1 := by
  cases add_addition env view pool tx isLocal with
  | nothing same => rwa [same]
  | underpriced valid chosen =>
    have asked := visited.chooseDiscards valid
    rwa [chosen] at asked
  | inserted valid drop chosenPool unknown validated chosen dropped isInserted =>
    have asked := visited.chooseDiscards valid
    rw [chosen] at asked
    rw [dropped] at discards inserted
    rw [isInserted]
    exact (asked.removeAll discards).insertTx isLocal (inserted valid unknown validated)

end Visited

/-- What a run owes to the conditions of its points. -/
structure Allows (env : PoolEnv) (conds : Conditions lib) (removes : TxPool lib → Hash → Prop)
    (inserts : TxPool lib → Hash → Transaction → Prop) (origin : TxPool lib) : Prop where
  add : ∀ {pool view tx isLocal}, Visited removes inserts origin pool →
    conds.add view isLocal pool tx →
    AllowsAll removes (pool.discards env view tx isLocal).2 (pool.discards env view tx isLocal).1 ∧
      ∀ valid, pool.all.lookup tx.hash = none → pool.validateTx env view tx isLocal = .ok valid →
        inserts ((pool.discards env view tx isLocal).2.removeAll
          (pool.discards env view tx isLocal).1) tx.hash valid
  reprice : ∀ {pool price}, Visited removes inserts origin pool →
    conds.reprice pool price → AllowsAll removes (pool.reprice price).2 (pool.reprice price).1
  queued : ∀ {pool addr list txs}, Visited removes inserts origin pool →
    pool.queue.lookup addr = some list → (∀ tx ∈ txs, tx ∈ list.flatten.1) →
      AllowsAll removes (pool.setQueue addr list.flatten.2) txs

namespace Allows

variable (allows : Allows env conds removes inserts origin)

include allows

theorem kept : Kept env conds (Visited removes inserts origin) where
  draw := fun used visited => visited.draw used
  tick := fun visited => visited.tick _
  promoteAccount := .promoteAccount
  trimAccount := .trimAccount
  removeQueued := fun visited got queued =>
    (visited.sortQueue got).removeAll (allows.queued visited got queued)
  directCalls := fun calls visited => visited.directCalls calls
  add := fun visited meets => visited.add (allows.add visited meets).1 (allows.add visited meets).2

theorem settle (visited : Visited removes inserts origin pool)
    (ret : pool.settle = .ok after) : Visited removes inserts origin after := by
  unfold TxPool.settle at ret
  split at ret
  · cases ret
  · rename_i demoted demoteReturned
    have demotedVisited : Visited removes inserts origin demoted :=
      run_keeps _ .demoteAccount (visited.draw 1) demoteReturned
    split at ret
    · cases ret
    · rename_i updateReturned
      exact allows.kept.promoteExecutables
        (run_keeps _ .updateVirtualNonce (demotedVisited.draw 1) updateReturned) ret

theorem preserves :
    Preserves env conds (Visited removes inserts origin) (Visited removes inserts origin) where
  kept := allows.kept
  keptEntered := allows.kept
  pangu := fun flag visited => visited.pangu flag
  setGasPrice := fun {_ price} visited meets =>
    (visited.reprice price).removeAll (allows.reprice visited meets)
  enterState := fun state maxGas visited => visited.enterState state maxGas
  settle := fun visited _ ret => allows.settle visited ret

end Allows

section

theorem Visited.placed
    (lossless : ∀ {pool hash}, removes pool hash → level.Complete → pool.Lossless hash)
    (new : ∀ {pool hash tx}, inserts pool hash tx →
      good tx ∧ (level.Known → hash = tx.hash ∧ pool.contents.all hash = none ∧ tx.sender.isSome))
    (start : Placed level good origin.contents [])
    (visited : Visited removes inserts origin pool) : Placed level good pool.contents [] := by
  have tidy {pool : TxPool lib} (placed : Placed level good pool.contents []) :
      Tidy ⟨level, True, good⟩ pool pool [] :=
    .of_placed placed
  induction visited with
  | start => exact start
  | draw used prior placed => exact placed
  | tick clock prior placed => exact placed
  | directCalls calls prior placed => exact placed
  | pangu flag prior placed => exact placed
  | enterState state maxGas prior placed => exact placed
  | promoteAccount prior ret placed => exact ((tidy placed).promoteAccount ret).placed
  | trimAccount prior ret placed => exact ((tidy placed).trimAccount ret).placed
  | sortQueue prior got placed => rwa [contents_flattenQueue got]
  | removeTx prior allowed placed =>
    exact ((tidy placed).removeTx (lossless allowed) fun _ => .inl trivial).placed
  | @chooseDiscards pool tx prior placed => rwa [contents_chooseDiscards]
  | insertTx isLocal prior allowed placed =>
    exact placed.insertion (new allowed).1 (new allowed).2 (insertTx_insertion _ _ _ _)
  | reprice price prior placed => exact placed
  | demoteAccount prior ret placed =>
    exact ((tidy placed).demoteAccount (fun _ => .inl trivial) ret).placed
  | updateVirtualNonce prior ret placed =>
    exact ((tidy placed).updateVirtualNonce ret).placed

end

def EnqueuesAll (pool : TxPool lib) (txs : List Transaction) : Prop :=
  EachFold (fun pool tx => (pool.enqueueTx tx.hash tx).1)
    (fun pool tx => (pool.enqueueTx tx.hash tx).2 = .ok false) pool txs

/-- Whatever is removed or demoted in the pool, what is postponed finds its slot in
the queue free. -/
structure PostponesAll (pool : TxPool lib) : Prop where
  /-- In `removeTx`, the invalidated transactions. -/
  removal : ∀ {hash tx list}, pool.all.lookup hash = some tx →
    pool.pending.lookup tx.owner = some list → (list.get tx.nonce).isSome →
    EnqueuesAll (((pool.dropTx hash).draw 2).setPending tx.owner
        (list.remove (pool.dropTx hash).choices tx).2.2)
      (list.remove (pool.dropTx hash).choices tx).2.1
  /-- In `demoteUnexecutables`, the followers of unpayable transactions. -/
  demotion : ∀ {addr list}, pool.pending.lookup addr = some list →
    EnqueuesAll (pool.dropUnpayable addr list) (pool.unpayableFollowers addr list)
  /-- In `demoteUnexecutables`, a list with a gap in front. -/
  gap : ∀ {addr list drops capped}, pool.pending.lookup addr = some list →
    (pool.dropUnpayablePending addr list).2.cap 0 = .ok (drops, capped) →
    EnqueuesAll ((pool.dropUnpayablePending addr list).1.setPending addr capped) drops

end TxPool

namespace Placed

theorem enqueuesAll (placed : Placed .untracked good pool.contents (removed ++ loose)) :
    EnqueuesAll pool removed := by
  induction removed generalizing pool with
  | nil => trivial
  | cons tx removed ih =>
    have slotFree := placed.free tx mem_cons_self .queue
    have tidy : Tidy ⟨.untracked, True, good⟩ pool pool (tx :: (removed ++ loose)) :=
      .of_placed placed
    refine ⟨?_, ih (tidy.enqueueTx fun _ => trivial).placed⟩
    simp only [enqueueTx_of_free slotFree]

theorem postponesAll (placed : Placed .untracked good pool.contents []) : pool.PostponesAll := by
  have tidy : Tidy ⟨.untracked, True, good⟩ pool pool [] := .of_placed placed
  refine ⟨fun {hash tx list} indexed got held => ?_, fun got => ?_,
    fun {addr list drops capped} got capReturned => ?_⟩
  · have removes := (@TxList.remove_found true list (pool.dropTx hash).choices tx held).2.removes
    have listGet : pool.contents.held .pending tx.owner = list.get := listAt_of_lookup got
    rw [← listGet] at removes
    have followers := (placed.take removes).forget
      ((sublist_append_right _ _).append_right []) False.elim
    refine (followers.of_held_eq id ?_).enqueuesAll
    simp [Contents.setList, Contents.setAll]
  · exact (tidy.dropUnpayable (listAt_of_lookup got)).1.placed.enqueuesAll
  · obtain ⟨dropped, droppedGet⟩ := tidy.dropUnpayablePending (listAt_of_lookup got) False.elim
    exact (dropped.takePending droppedGet (TxList.cap_spec capReturned).1).placed.enqueuesAll

end Placed

namespace Placed

variable {contents : Contents} {other : Transaction}

open TxPool
open RawSortedMap (Removes)

theorem present_enqueueAll (placed : Placed .exact good pool.contents (removed ++ loose)) :
    (pool.enqueueAll removed).contents.Present loose other ↔
      pool.contents.Present (removed ++ loose) other := by
  induction removed generalizing pool with
  | nil => exact Iff.rfl
  | cons tx removed ih =>
    have tidy : Tidy ⟨.exact, True, good⟩ pool pool (tx :: (removed ++ loose)) := .of_placed placed
    have next := (tidy.enqueueTx fun _ => trivial).placed
    refine (ih next).trans ?_
    rw [contents_enqueueTx (placed.free tx mem_cons_self .queue)]
    exact placed.present_put .queue

theorem present_takeSlot (placed : Placed .exact good contents []) {place : Place}
    {after : Nat → Option Transaction} {followers : List Transaction}
    (removes : Removes (contents.held place tx.owner) after (tx :: followers)) :
    ((contents.setAll hash none).setList place tx.owner after).Present followers other ↔
      contents.Present [] other ∧ other ≠ tx := by
  have taken := placed.take removes
  rw [← placed.present_take removes]
  simp only [append_nil] at taken ⊢
  obtain ⟨txDistinct, -⟩ := pairwise_cons.mp taken.distinct
  constructor
  · intro present
    refine ⟨present.imp_right (mem_cons_of_mem tx), ?_⟩
    rintro rfl
    rcases present with ⟨spot, held⟩ | mem
    · cases (taken.free other mem_cons_self spot).symm.trans held
    · exact txDistinct other mem rfl rfl
  · rintro ⟨present, ne⟩
    exact present.imp_right fun mem => (mem_cons.mp mem).resolve_left ne

end Placed

namespace TxPool

def RemovesExactly (pool : TxPool lib) (hash : Hash) : Prop :=
  ∀ tx, pool.all.lookup hash = some tx → ∀ other,
    (pool.removeTx hash).contents.Present [] other ↔ pool.contents.Present [] other ∧ other ≠ tx

theorem removesExactly_of_exact (exact : pool.Exact) (lossless : pool.Lossless hash) :
    pool.RemovesExactly hash := by
  intro tx got other
  obtain ⟨place, held⟩ := (exact.only trivial got).resolve_right not_mem_nil
  cases place with
  | pending =>
    obtain ⟨list, listFound, listHeld⟩ := exists_list held
    have isHeld : (list.get tx.nonce).isSome := by simp [listHeld]
    have listGet : pool.contents.held .pending tx.owner = list.get := listAt_of_lookup listFound
    have removes := (@TxList.remove_found true list (pool.dropTx hash).choices tx isHeld).2.removes
    have nothingLost := lossless_followers (pool.dropTx hash).choices isHeld
      (lossless tx got list listFound isHeld)
    rw [removeTx_of_found got, removePending_eq_some (pool.dropTx hash) listFound isHeld,
      getD_some, contents_lowerVirtualNonce]
    have followers : Tidy ⟨.exact, True, fun _ => True⟩ (pool.dropTx hash) _ _ :=
      Tidy.takePendingSlot exact got listFound isHeld fun _ => listHeld
    generalize list.remove (pool.dropTx hash).choices tx = res at removes nothingLost followers
    rw [← listGet, held, toList_some, singleton_append] at removes
    have taken : ((pool.contents.setAll hash none).setList .pending tx.owner
        res.2.2.get).Present res.2.1 other ↔ _ :=
      exact.present_takeSlot removes
    split
    · rename_i isEmpty
      rw [nothingLost isEmpty, get_eq_of_empty isEmpty] at taken
      simpa using taken
    · rw [← append_nil res.2.1] at followers
      rw [followers.placed.present_enqueueAll]
      simpa using taken
  | queue =>
    have slotFree : pool.contents.held .pending tx.owner tx.nonce = none :=
      exact.apart_of_ne (show Place.pending ≠ .queue by decide) (by simp [held])
    obtain ⟨list, listFound, listHeld⟩ := exists_list held
    have listGet : pool.contents.held .queue tx.owner = list.get := listAt_of_lookup listFound
    have removes := remove_queued_removes list (pool.dropTx hash).choices tx
    rw [listHeld, ← listGet] at removes
    rw [removeTx_of_free got slotFree, contents_removeQueued (pool.dropTx hash) listFound,
      contents_dropTx]
    exact exact.present_takeSlot removes

/-- A transaction for the pool: recorded nowhere, under its own hash and signed. -/
def IsNew (pool : TxPool lib) (hash : Hash) (tx : Transaction) : Prop :=
  hash = tx.hash ∧ pool.contents.all hash = none ∧ tx.sender.isSome

theorem allows_everything :
    Allows env unconditional (fun _ _ => True) (fun _ _ _ => True) origin where
  add := fun _ _ => ⟨eachFold_of_forall (fun _ _ => trivial) _ _, fun _ _ _ => trivial⟩
  reprice := fun _ _ => eachFold_of_forall (fun _ _ => trivial) _ _
  queued := fun _ _ _ => eachFold_of_forall (fun _ _ => trivial) _ _

theorem exact_of_visited (start : origin.Exact) (visited : Visited Lossless IsNew origin pool) :
    pool.Exact :=
  visited.placed (fun lossless _ => lossless) (fun isNew => ⟨trivial, fun _ => isNew⟩) start

theorem losslessAll_of_notPending {txs : List Transaction}
    (notPending : ∀ tx ∈ txs, pool.NotPending tx.hash) : AllowsAll Lossless pool txs := by
  induction txs generalizing pool with
  | nil => trivial
  | cons tx txs ih =>
    have first := notPending tx mem_cons_self
    exact ⟨first.lossless, ih fun other mem =>
      first.removeTx (notPending other (mem_cons_of_mem tx mem))⟩

theorem isNew_of_validated {valid : Transaction} (known : level.Known)
    (placed : Placed level good pool.contents [])
    (lossless : level.Complete → (pool.discards env view tx isLocal).2.LosslessAll
      (pool.discards env view tx isLocal).1) (unknown : pool.all.lookup tx.hash = none)
    (validated : pool.validateTx env view tx isLocal = .ok valid) (hashEq : valid.hash = tx.hash) :
    IsNew ((pool.discards env view tx isLocal).2.removeAll
      (pool.discards env view tx isLocal).1) tx.hash valid := by
  refine ⟨hashEq.symm, ?_, (validateTx_eq_ok validated).signed⟩
  have placedChosen : Placed level good (pool.discards env view tx isLocal).2.contents [] := by
    rwa [contents_discards]
  have removed := placedChosen.removeAll lossless
  -- what is in the index afterwards was there before
  refine eq_none_iff_forall_ne_some.mpr fun other got => ?_
  have before : (pool.discards env view tx isLocal).2.contents.all tx.hash = some other :=
    (removed.reindex known).lookup_of got
  rw [contents_discards] at before
  cases before.symm.trans unknown

theorem allows_lossless (start : origin.Exact) :
    Allows env (lossless env) Lossless IsNew origin where
  add := fun visited meets => ⟨meets.2, fun _ unknown validated =>
    isNew_of_validated (show Tracking.exact.Known from trivial)
      (exact_of_visited start visited) (fun _ => meets.2) unknown validated
      (by rw [(validateTx_eq_ok validated).unchanged meets.1])⟩
  reprice := fun _ meets => meets
  queued := by
    intro pool addr list txs visited got queued
    have exact := exact_of_visited start visited
    exact losslessAll_of_notPending fun tx mem =>
      exact.notPending_of_flattened trivial got (queued tx mem)

/-- No nonce of an account is used both in its pending list and in its queue. -/
def SlotsApart (pool : TxPool lib) : Prop :=
  ∀ addr nonce, pool.contents.held .pending addr nonce = none ∨
    pool.contents.held .queue addr nonce = none

/-- At every point of every run the pending lists and the queue use different nonces and what is
demoted or postponed is enqueued. In runs that never remove the first of several pending
transactions, `removeTx` removes the transaction of its hash and no other, unless that is such a
first one. -/
theorem slots_of_run (env : PoolEnv) (config : TxPoolConfig) (state : lib.StateDB)
    (maxGas : Int) (choices : Nat → Nat) (clock : Nat → Int) :
    let origin := newTxPool config state maxGas choices clock
    (∀ pool, Visited (fun _ _ => True) (fun _ _ _ => True) origin pool →
      pool.SlotsApart ∧ pool.PostponesAll) ∧
    (∀ pool, Visited Lossless IsNew origin pool →
      ∀ hash, pool.Lossless hash → pool.RemovesExactly hash) ∧
    ∀ (inputs : List (Input lib)) (pool : TxPool lib),
      run (step env) origin inputs = .ok pool →
        Visited (fun _ _ => True) (fun _ _ _ => True) origin pool ∧
        (EachStep (step env) (Meets env (lossless env)) origin inputs →
          Visited Lossless IsNew origin pool) := by
  intro origin
  have start : origin.Exact := placed_newTxPool config state maxGas choices clock
  refine ⟨fun pool visited => ?_, fun pool visited hash => ?_, fun inputs pool ran => ?_⟩
  · have placed : Placed .untracked (fun _ => True) pool.contents [] :=
      visited.placed (fun _ full => nomatch full) (fun _ => ⟨trivial, fun known => nomatch known⟩)
        (placed_newTxPool config state maxGas choices clock)
    exact ⟨fun _ _ => placed.apart, placed.postponesAll⟩
  · exact removesExactly_of_exact (exact_of_visited start visited)
  · exact ⟨allows_everything.preserves.run .start
        (eachStep_of_forall (meets_unconditional env) _ inputs) ran,
      fun conds => (allows_lossless start).preserves.run .start conds ran⟩

/-- After a repricing lost transaction 11, another one with its nonce is pending;
removing 11 takes that one out, and so does the next repricing. -/
theorem removal_hits_other_transaction :
    ∃ pool, run (step .plain) freshPool
        [⟨genesisView, .addRemotes [transfer 10 0 1, transfer 11 1 2]⟩,
          ⟨genesisView, .setGasPrice 2⟩,
          ⟨genesisView, .addRemotes [transfer 20 0 3, transfer 21 1 3]⟩] = .ok pool ∧
      ¬ pool.RemovesExactly 11 ∧
      pool.contents.held .pending 1 1 = some (transfer 21 1 3) ∧
      (pool.setGasPrice 3).contents.held .pending 1 1 = none ∧
      (pool.setGasPrice 3).contents.held .queue 1 1 = none := by
  refine exists_ok_of (fun pool =>
      pool.all.lookup 11 = some (transfer 11 1 2) ∧
      pool.contents.held .pending 1 1 = some (transfer 21 1 3) ∧
      (pool.removeTx 11).contents.held .pending 1 1 = none ∧
      (pool.removeTx 11).contents.held .queue 1 1 = none ∧
      (pool.setGasPrice 3).contents.held .pending 1 1 = none ∧
      (pool.setGasPrice 3).contents.held .queue 1 1 = none) (by decide +kernel) ?_
  rintro pool ran ⟨got, pending, notPending, notQueued, repriced⟩
  refine ⟨fun exactly => ?_, pending, repriced⟩
  have stays := (exactly _ got (transfer 21 1 3)).mpr ⟨.inl ⟨.pending, pending⟩, by decide⟩
  obtain ⟨place, held⟩ := stays.resolve_right not_mem_nil
  cases place with
  | pending => cases notPending.symm.trans held
  | queue => cases notQueued.symm.trans held

/-- Removing the second of two pending transactions of an account. -/
theorem last_pending_removed_exactly :
    ∃ pool, run (step .plain) freshPool
        [⟨genesisView, .addRemotes [transfer 10 0 2, transfer 11 1 1, transfer 12 3 2]⟩] =
          .ok pool ∧
      pool.SlotsApart ∧ pool.RemovesExactly 11 := by
  obtain ⟨pool, ran, lossless⟩ :
      ∃ pool, run (step .plain) freshPool
          [⟨genesisView, .addRemotes [transfer 10 0 2, transfer 11 1 1, transfer 12 3 2]⟩] =
            .ok pool ∧ pool.Lossless 11 := by
    decide +kernel
  obtain ⟨everywhere, exactly, points⟩ :=
    @slots_of_run .plain .plain { priceLimit := 1 } (fun _ => (0, 10 ^ 9)) (10 ^ 6)
      (fun _ => 0) fun _ => 0
  obtain ⟨visited, visitedLossless⟩ := points _ pool ran
  exact ⟨pool, ran, (everywhere pool visited).1,
    exactly pool (visitedLossless (by decide +kernel)) 11 lossless⟩

end TxPool

end MoacVnode.Core
