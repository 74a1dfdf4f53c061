import MoacVnode.Core.TxPoolInvariant
import MoacVnode.Core.TxPoolPlacement

/-!
# Placement through promotion, demotion and the limits

What the loops of the pool do for one account keeps the pool tidy in every
regime.
-/

namespace MoacVnode.Core

open Lib
open RawSortedMap (Removes)
open List Contents TxPool

variable {lib : StateLib} {regime : Regime} {loose : List Transaction} {addr : Address}
  {origin pool after : TxPool lib}

namespace Tidy

variable {removed txs : List Transaction} {tx : Transaction}

theorem promoteAll (tidy : Tidy regime origin pool (txs ++ loose))
    (owned : ∀ tx ∈ txs, tx.owner = addr) :
    Tidy regime origin (txs.foldl (fun pool tx => pool.promoteTx addr tx.hash tx) pool) loose ∧
      (txs.foldl (fun pool tx => pool.promoteTx addr tx.hash tx) pool).contents.held .queue =
        pool.contents.held .queue := by
  induction txs generalizing pool with
  | nil => exact ⟨tidy, rfl⟩
  | cons tx txs ih =>
    obtain ⟨rfl, restOwned⟩ := forall_mem_cons.mp owned
    have sameQueue : (pool.promoteTx tx.owner tx.hash tx).contents.held .queue =
        pool.contents.held .queue := by
      rw [contents_promoteTx (tidy.placed.free tx mem_cons_self .pending)]
      have untouched := pool.contents.held_put_of_ne (show Place.queue ≠ .pending by decide) tx
      split <;> exact untouched
    rw [foldl_cons, ← sameQueue]
    exact ih tidy.promoteTx restOwned

section

variable (tidy : Tidy regime origin pool loose)

include tidy

theorem draw (used : Nat) : Tidy regime origin (pool.draw used) loose :=
  tidy.frame rfl ⟨rfl, rfl, rfl, rfl⟩

section

variable {list : TxList false} (listGet : pool.contents.held .queue addr = list.get)

include listGet

theorem takeQueue {rest : TxList false} (removes : Removes list.get rest.get removed) :
    Tidy regime origin (pool.setQueue addr rest) (removed ++ loose) := by
  refine ⟨?_, fun known => (tidy.reindex known).frame ⟨rfl, rfl, rfl, rfl⟩⟩
  rw [contents_setQueue]
  apply tidy.placed.take
  rwa [listGet]

theorem shrinkQueue {rest : TxList false} (removes : Removes list.get rest.get removed) :
    Tidy regime origin ((pool.setQueue addr rest).dropAll removed) loose ∧
      ((pool.setQueue addr rest).dropAll removed).contents.held .queue addr = rest.get := by
  refine ⟨(tidy.takeQueue listGet removes).dropAll, ?_⟩
  rw [held_dropAll, contents_setQueue, held_setList_self]

theorem dropUnpayableQueued :
    Tidy regime origin (pool.dropUnpayableQueued addr list).1 loose ∧
      (pool.dropUnpayableQueued addr list).1.contents.held .queue addr =
        (pool.dropUnpayableQueued addr list).2.get := by
  unfold TxPool.dropUnpayableQueued
  dsimp only
  have forwarded := list.forward_removes (pool.stateNonce addr)
  generalize list.forward (pool.stateNonce addr) = res at forwarded
  obtain ⟨mid, middleGet⟩ := tidy.shrinkQueue listGet forwarded
  generalize (pool.setQueue addr res.2).dropAll res.1 = cleaned at mid middleGet
  have filtered := res.2.filter_spec cleaned.choices (cleaned.balance addr) cleaned.currentMaxGas
  have removes := filtered.removes
  rw [filtered.loose rfl, append_nil] at removes
  exact (mid.draw 4).shrinkQueue middleGet removes

theorem ready_owned (mem : tx ∈ (list.ready (pool.virtualNonce addr)).1) : tx.owner = addr := by
  have held := (list.ready_spec (pool.virtualNonce addr)).1.held tx mem
  rw [← listGet] at held
  exact (tidy.placed.slot held).1

theorem promoteReady :
    Tidy regime origin (pool.promoteReady addr list).1 loose ∧
      (pool.promoteReady addr list).1.contents.held .queue addr =
        (pool.promoteReady addr list).2.get := by
  obtain ⟨removes, -⟩ := list.ready_spec (pool.virtualNonce addr)
  obtain ⟨promoted, sameQueue⟩ := (tidy.takeQueue listGet removes).promoteAll
    fun _ => tidy.ready_owned listGet
  refine ⟨promoted, ?_⟩
  unfold TxPool.promoteReady
  rw [sameQueue, contents_setQueue, held_setList_self]

theorem capQueued {capped : TxList false} (ret : pool.capQueued addr list = .ok (after, capped)) :
    Tidy regime origin after loose ∧ after.contents.held .queue addr = capped.get := by
  unfold TxPool.capQueued at ret
  split at ret
  · cases ret
    exact ⟨tidy, listGet⟩
  · split at ret
    · cases ret
    · rename_i capReturned
      cases ret
      exact tidy.shrinkQueue listGet (TxList.cap_spec capReturned).1

end

theorem promoteAccount (ret : pool.promoteAccount addr = .ok after) :
    Tidy regime origin after loose := by
  unfold TxPool.promoteAccount at ret
  cases got : pool.queue.lookup addr with
  | none =>
    rw [got] at ret
    cases ret
    exact tidy
  | some list =>
    rw [got] at ret
    dsimp only at ret
    split at ret
    · cases ret
    · rename_i last rest capReturned
      cases ret
      obtain ⟨payable, payableGet⟩ := tidy.dropUnpayableQueued (listAt_of_lookup got)
      obtain ⟨promoted, promotedGet⟩ := payable.promoteReady payableGet
      obtain ⟨capped, cappedGet⟩ := promoted.capQueued promotedGet capReturned
      split
      · rename_i isEmpty
        refine capped.frame ?_ ⟨rfl, rfl, rfl, rfl⟩
        rw [contents_deleteQueue, ← get_eq_of_empty isEmpty, ← cappedGet, setList_self]
      · exact capped

theorem takePending {list rest : TxList true}
    (listGet : pool.contents.held .pending addr = list.get)
    (removes : Removes list.get rest.get removed) :
    Tidy regime origin (pool.setPending addr rest) (removed ++ loose) := by
  refine ⟨?_, fun known => (tidy.reindex known).frame ⟨rfl, rfl, rfl, rfl⟩⟩
  rw [contents_setPending]
  apply tidy.placed.take
  rwa [listGet]

end

theorem dropLowering (tidy : Tidy regime origin pool (txs ++ loose)) :
    Tidy regime origin
      (txs.foldl (fun pool tx => (pool.dropTx tx.hash).lowerVirtualNonce addr tx.nonce)
        pool) loose := by
  induction txs generalizing pool with
  | nil => exact tidy
  | cons tx txs ih =>
    apply ih
    exact tidy.dropTx.frame (contents_lowerVirtualNonce tx.nonce)
      (sameIndex_lowerVirtualNonce tx.nonce)

theorem trimAccount {counted after : TxPool lib × Nat} (tidy : Tidy regime origin counted.1 loose)
    (ret : TxPool.trimAccount counted addr = .ok after) :
    Tidy regime origin after.1 loose := by
  unfold TxPool.trimAccount at ret
  split at ret
  · cases ret
  · rename_i list got
    split at ret
    · cases ret
    · rename_i capReturned
      cases ret
      exact (tidy.takePending (listAt_of_lookup got) (TxList.cap_spec capReturned).1).dropLowering

theorem removeFlattened {list : TxList false} (tidy : Tidy regime origin pool [])
    (got : pool.queue.lookup addr = some list) (queued : ∀ tx ∈ txs, tx ∈ list.flatten.1) :
    Tidy regime origin ((pool.setQueue addr list.flatten.2).removeAll txs) [] := by
  have flattened : Tidy regime origin (pool.setQueue addr list.flatten.2) [] :=
    tidy.frame (contents_flattenQueue got) ⟨rfl, rfl, rfl, rfl⟩
  exact flattened.removeAll_queued fun known tx mem =>
    tidy.placed.notPending_of_flattened known got (queued tx mem)

theorem maintained : Maintained fun pool : TxPool lib => Tidy regime origin pool [] where
  draw := fun used tidy => tidy.draw used
  tick := fun tidy => tidy.frame rfl ⟨rfl, rfl, rfl, rfl⟩
  promoteAccount := Tidy.promoteAccount
  trimAccount := Tidy.trimAccount
  removeQueued := Tidy.removeFlattened

end Tidy

namespace TxPool

variable (pool)

/-- What follows the unpayable ones among the pending transactions of an
account. -/
def unpayableFollowers (addr : Address) (list : TxList true) : List Transaction :=
  let forwarded := list.forward (pool.stateNonce addr)
  let pool := (pool.setPending addr forwarded.2).dropAll forwarded.1
  (forwarded.2.filter pool.choices (pool.balance addr) pool.currentMaxGas).2.1

/-- The pool without the old and the unpayable ones, in which these followers are
put back. -/
def dropUnpayable (addr : Address) (list : TxList true) : TxPool lib :=
  let forwarded := list.forward (pool.stateNonce addr)
  let pool := (pool.setPending addr forwarded.2).dropAll forwarded.1
  let filtered := forwarded.2.filter pool.choices (pool.balance addr) pool.currentMaxGas
  ((pool.draw 4).setPending addr filtered.2.2).dropAll filtered.1

/-- There is no gap in front of the transactions of the list. -/
def NoGap (addr : Address) (list : TxList true) : Prop :=
  list.len = 0 ∨ (list.get (pool.stateNonce addr)).isSome
deriving Decidable

/-- Demotion puts no transaction of the account back into the queue. -/
def PostponesNothing (addr : Address) : Prop :=
  ∀ list ∈ pool.pending.lookup addr, pool.unpayableFollowers addr list = [] ∧
    (pool.dropUnpayablePending addr list).1.NoGap addr (pool.dropUnpayablePending addr list).2
deriving Decidable

variable {pool}

end TxPool

namespace Tidy

section

variable (tidy : Tidy regime origin pool loose)

include tidy

section

variable {list : TxList true} (listGet : pool.contents.held .pending addr = list.get)

include listGet

theorem dropUnpayable :
    Tidy regime origin (pool.dropUnpayable addr list) (pool.unpayableFollowers addr list ++ loose) ∧
      (pool.dropUnpayable addr list).contents.held .pending addr =
        (pool.dropUnpayablePending addr list).2.get := by
  unfold TxPool.dropUnpayable TxPool.dropUnpayablePending unpayableFollowers
  dsimp only
  have forwarded := list.forward_removes (pool.stateNonce addr)
  generalize list.forward (pool.stateNonce addr) = res at forwarded
  have mid := (tidy.takePending listGet forwarded).dropAll
  have middleGet : ((pool.setPending addr res.2).dropAll res.1).contents.held .pending addr =
        res.2.get := by
    rw [held_dropAll, contents_setPending, held_setList_self]
  generalize (pool.setPending addr res.2).dropAll res.1 = cleaned at mid middleGet
  have filtered := (res.2.filter_spec cleaned.choices (cleaned.balance addr)
    cleaned.currentMaxGas).removes
  have taken := (mid.draw 4).takePending middleGet filtered
  rw [append_assoc] at taken
  refine ⟨taken.dropAll, ?_⟩
  rw [held_dropAll, contents_setPending, held_setList_self]

theorem dropUnpayablePending
    (postpones : regime.level.Known → regime.postpones ∨ pool.unpayableFollowers addr list = []) :
    Tidy regime origin (pool.dropUnpayablePending addr list).1 loose ∧
      (pool.dropUnpayablePending addr list).1.contents.held .pending addr =
        (pool.dropUnpayablePending addr list).2.get := by
  obtain ⟨dropped, droppedGet⟩ := tidy.dropUnpayable listGet
  exact ⟨dropped.enqueueAll postpones, (congrFun (pending_enqueueAll _) addr).trans droppedGet⟩

theorem postponeGap {capped : TxList true}
    (postpones : regime.level.Known → regime.postpones ∨ pool.NoGap addr list)
    (ret : pool.postponeGap addr list = .ok (after, capped)) :
    Tidy regime origin after loose ∧ after.contents.held .pending addr = capped.get := by
  unfold TxPool.postponeGap at ret
  split at ret
  · rename_i gap
    split at ret
    · cases ret
    · rename_i drops capped capReturned
      cases ret
      have mayPostpone (known : regime.level.Known) : regime.postpones :=
        (postpones known).resolve_right fun noGap => by
          rcases noGap with isEmpty | held
          · omega
          · rw [gap.2] at held
            cases held
      have taken := tidy.takePending listGet (TxList.cap_spec capReturned).1
      refine ⟨taken.enqueueAll fun known => .inl (mayPostpone known), ?_⟩
      rw [pending_enqueueAll, contents_setPending, held_setList_self]
  · cases ret
    exact ⟨tidy, listGet⟩

end

theorem demoteAccount
    (postpones : regime.level.Known → regime.postpones ∨ pool.PostponesNothing addr)
    (ret : pool.demoteAccount addr = .ok after) : Tidy regime origin after loose := by
  unfold TxPool.demoteAccount at ret
  cases got : pool.pending.lookup addr with
  | none =>
    rw [got] at ret
    cases ret
    exact tidy
  | some list =>
    rw [got] at ret
    dsimp only at ret
    split at ret
    · cases ret
    · rename_i gapReturned
      cases ret
      obtain ⟨payable, payableGet⟩ :=
        tidy.dropUnpayablePending (listAt_of_lookup got)
          fun known => (postpones known).imp_right (· list got |>.1)
      obtain ⟨postponed, postponedGet⟩ := payable.postponeGap payableGet
        (fun known => (postpones known).imp_right (· list got |>.2)) gapReturned
      split
      · rename_i isEmpty
        refine postponed.frame ?_ ⟨rfl, rfl, rfl, rfl⟩
        rw [contents_deletePending, ← get_eq_of_empty isEmpty, ← postponedGet, setList_self]
      · exact postponed

end

end Tidy

namespace TxPool

def DemotesNothing (pool : TxPool lib) : Prop :=
  EachStep demoteAccount PostponesNothing (pool.draw 1) (shuffle (pool.choices 0) pool.pending.keys)
deriving Decidable

end TxPool

namespace Tidy

section

variable (tidy : Tidy regime origin pool loose)

include tidy

theorem demoteUnexecutables
    (postpones : regime.level.Known → regime.postpones ∨ pool.DemotesNothing)
    (ret : pool.demoteUnexecutables = .ok after) : Tidy regime origin after loose := by
  have drawn := tidy.draw 1
  by_cases free : regime.level.Known → regime.postpones
  · exact run_keeps (fun pool : TxPool lib => Tidy regime origin pool loose)
      (fun tidy demoted => tidy.demoteAccount (fun known => .inl (free known)) demoted)
      drawn ret
  · obtain ⟨known, strict⟩ := Classical.not_imp.mp free
    exact run_invariant (fun pool : TxPool lib => Tidy regime origin pool loose)
      (fun tidy nothing demoted => tidy.demoteAccount (fun _ => .inr nothing) demoted)
      drawn ((postpones known).resolve_left strict) ret

theorem updateVirtualNonce (ret : pool.updateVirtualNonce addr = .ok after) :
    Tidy regime origin after loose := by
  unfold TxPool.updateVirtualNonce at ret
  split at ret
  · cases ret
    exact tidy
  · rename_i list got
    split at ret
    · cases ret
    · cases ret
      refine tidy.frame ?_ ⟨rfl, rfl, rfl, rfl⟩
      rw [contents_setVirtualNonce, contents_setPending, TxList.get_flatten, ← listAt_of_lookup got]
      exact setList_self pool.contents .pending addr

theorem updateVirtualNonces {addrs : List Address}
    (ret : run TxPool.updateVirtualNonce (pool.draw 1) addrs = .ok after) :
    Tidy regime origin after loose :=
  run_keeps (fun pool : TxPool lib => Tidy regime origin pool loose)
    Tidy.updateVirtualNonce (tidy.draw 1) ret

end

theorem settle (tidy : Tidy regime origin pool [])
    (postpones : regime.level.Known → regime.postpones ∨ pool.DemotesNothing)
    (ret : pool.settle = .ok after) : Tidy regime origin after [] := by
  unfold TxPool.settle at ret
  split at ret
  · cases ret
  · rename_i demoted demoteReturned
    have demotedTidy := tidy.demoteUnexecutables postpones demoteReturned
    split at ret
    · cases ret
    · rename_i updateReturned
      exact maintained.promoteExecutables (demotedTidy.updateVirtualNonces updateReturned) ret

end Tidy

end MoacVnode.Core
