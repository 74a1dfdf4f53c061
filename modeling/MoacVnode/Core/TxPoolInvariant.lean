import MoacVnode.Core.TxPoolOps

/-!
# Invariants of the pool's loops

What the bodies of the loops keep, promotion with its two limits and the
eviction keep.  `Maintained` has what an invariant owes to them, `Kept` what it
owes to the adding of transactions and `Preserves` what it owes to an operation
that meets some conditions.  The operations are walked through here once for all
invariants.
-/

namespace MoacVnode.Core

open Lib List TxPool

namespace TxPool

variable {lib : StateLib} {pool after : TxPool lib}

section

variable {inv : TxPool lib → Prop} {allowed : Address → Prop}

section

variable (trim : ∀ {counted addr after}, allowed addr → inv counted.1 →
    trimAccount counted addr = .ok after → inv after.1)

include trim

theorem trimWhile_keeps {limit threshold fuel : Nat} {targets : List Address}
    {reference : Address} {counted last : TxPool lib × Nat}
    (allAllowed : ∀ addr ∈ targets, allowed addr) (start : inv counted.1)
    (ret : trimWhile limit targets reference threshold fuel counted = .ok last) :
    inv last.1 := by
  induction fuel generalizing counted with
  | zero => cases ret
  | succ fuel ih =>
    rw [trimWhile] at ret
    split at ret
    · cases ret
      exact start
    · split at ret
      · cases ret
      · split at ret
        · cases ret
          exact start
        · split at ret
          · cases ret
          · rename_i trimmed runReturned
            have kept : inv trimmed.1 :=
              run_keeps_of_mem (fun counted => inv counted.1)
                (fun mem => trim (allAllowed _ mem)) start runReturned
            exact ih kept ret

theorem equalize_keeps {limit : Nat} {spammers offenders last : List Address}
    {counted trimmed : TxPool lib × Nat} (spammersAllowed : ∀ addr ∈ spammers, allowed addr)
    (offendersAllowed : ∀ addr ∈ offenders, allowed addr) (start : inv counted.1)
    (ret : equalize limit spammers offenders counted = .ok (trimmed, last)) :
    inv trimmed.1 ∧ ∀ addr ∈ last, allowed addr := by
  induction spammers generalizing offenders counted with
  | nil =>
    cases ret
    exact ⟨start, offendersAllowed⟩
  | cons spammer spammers ih =>
    obtain ⟨spammerAllowed, restAllowed⟩ := forall_mem_cons.mp spammersAllowed
    unfold equalize at ret
    split at ret
    · cases ret
      exact ⟨start, offendersAllowed⟩
    · split at ret
      · exact ih restAllowed (forall_mem_singleton.mpr spammerAllowed) start ret
      · split at ret
        · cases ret
        · split at ret
          · cases ret
          · rename_i trimReturned
            have reversedAllowed := fun addr mem => offendersAllowed addr (mem_reverse.mp mem)
            exact ih restAllowed (forall_mem_cons.mpr ⟨spammerAllowed, offendersAllowed⟩)
              (trimWhile_keeps trim reversedAllowed start trimReturned) ret

theorem truncatePending_keeps (spammersAllowed : ∀ addr ∈ pool.spammers, allowed addr)
    (draw : inv (pool.draw 1)) (start : inv pool)
    (ret : pool.truncatePending = .ok after) : inv after := by
  unfold truncatePending at ret
  dsimp only at ret
  split at ret
  · cases ret
    exact start
  · split at ret
    · cases ret
    · rename_i equalized
      cases ret
      exact (equalize_keeps trim spammersAllowed (forall_mem_nil _) draw equalized).1
    · rename_i equalized
      obtain ⟨kept, offendersAllowed⟩ :=
        equalize_keeps trim spammersAllowed (forall_mem_nil _) draw equalized
      generalize trimmedEq : trimWhile _ _ _ _ _ _ = trimmed at ret
      cases trimmed with
      | error crash => cases ret
      | ok trimmed =>
        cases ret
        exact trimWhile_keeps trim (fun addr mem => offendersAllowed addr (mem_reverse.mp mem))
          kept trimmedEq

end

section

variable (removeQueued : ∀ {pool addr list txs}, allowed addr → inv pool →
    pool.queue.lookup addr = some list → (∀ tx ∈ txs, tx ∈ list.flatten.1) →
      inv ((pool.setQueue addr list.flatten.2).removeAll txs))

include removeQueued

theorem dropQueued_keeps {addrs : List Address} {drop : Nat}
    (allAllowed : ∀ addr ∈ addrs, allowed addr) (start : inv pool)
    (ret : dropQueued addrs drop pool = .ok after) : inv after := by
  induction addrs generalizing drop pool with
  | nil =>
    cases ret
    exact start
  | cons addr addrs ih =>
    obtain ⟨addrAllowed, restAllowed⟩ := forall_mem_cons.mp allAllowed
    rw [dropQueued] at ret
    split at ret
    · cases ret
      exact start
    · split at ret
      · cases ret
      · rename_i list got
        split at ret
        · exact ih restAllowed (removeQueued addrAllowed start got fun _ mem => mem) ret
        · cases ret
          refine removeQueued addrAllowed start got fun tx mem => ?_
          exact mem_reverse.mp (mem_of_mem_take mem)

theorem truncateQueue_keeps (allAllowed : ∀ addr ∈ pool.byHeartbeat, allowed addr)
    (draw : inv (pool.draw 1)) (start : inv pool)
    (ret : pool.truncateQueue = .ok after) : inv after := by
  unfold truncateQueue at ret
  dsimp only at ret
  split at ret
  · cases ret
    exact start
  · exact dropQueued_keeps removeQueued allAllowed draw ret

section

variable (tick : ∀ {pool : TxPool lib}, inv pool →
    inv { pool with clock := fun n => pool.clock (n + 1) })

include tick

theorem evictAccount_keeps {addr : Address} (remote : addr ∉ pool.locals → allowed addr)
    (start : inv pool) : inv (pool.evictAccount addr) := by
  unfold evictAccount
  split
  · exact start
  · rename_i list got
    split
    · exact start
    · rename_i notLocal
      dsimp only
      split
      · exact removeQueued (remote notLocal) (tick start) got fun _ mem => mem
      · exact tick start

theorem evict_keeps (remote : ∀ {pool addr}, inv pool → addr ∉ pool.locals → allowed addr)
    (draw : inv (pool.draw 1)) : inv pool.evict := by
  unfold evict
  generalize shuffle (pool.choices 0) pool.queue.keys = addrs
  generalize pool.draw 1 = drawnPool at draw
  induction addrs generalizing drawnPool with
  | nil => exact draw
  | cons addr addrs ih => exact ih _ (evictAccount_keeps removeQueued tick (remote draw) draw)

end

end

end

/-- The bodies of the loops keep the invariant. -/
structure Maintained (inv : TxPool lib → Prop) : Prop where
  draw : ∀ {pool} used, inv pool → inv (pool.draw used)
  tick : ∀ {pool : TxPool lib}, inv pool → inv { pool with clock := fun n => pool.clock (n + 1) }
  promoteAccount : ∀ {pool addr after}, inv pool → pool.promoteAccount addr = .ok after → inv after
  trimAccount : ∀ {counted addr after}, inv counted.1 →
    trimAccount counted addr = .ok after → inv after.1
  removeQueued : ∀ {pool addr list txs}, inv pool →
    pool.queue.lookup addr = some list → (∀ tx ∈ txs, tx ∈ list.flatten.1) →
      inv ((pool.setQueue addr list.flatten.2).removeAll txs)

namespace Maintained

variable {inv : TxPool lib → Prop} (maintained : Maintained inv)

include maintained

section

variable (start : inv pool)

include start

theorem truncatePending (ret : pool.truncatePending = .ok after) : inv after :=
  @truncatePending_keeps lib pool after inv (fun _ => True)
    (fun _ => maintained.trimAccount) (fun _ _ => trivial) (maintained.draw 1 start) start
    ret

theorem truncateQueue (ret : pool.truncateQueue = .ok after) : inv after :=
  @truncateQueue_keeps lib pool after inv (fun _ => True)
    (fun _ => maintained.removeQueued) (fun _ _ => trivial) (maintained.draw 1 start) start
    ret

theorem promoteExecutables {accounts : Option (List Address)}
    (ret : pool.promoteExecutables accounts = .ok after) : inv after := by
  unfold TxPool.promoteExecutables at ret
  dsimp only at ret
  split at ret
  · cases ret
  · rename_i promoted runReturned
    have kept : inv promoted := by
      cases accounts with
      | some accounts => exact run_keeps inv maintained.promoteAccount start runReturned
      | none =>
        exact run_keeps inv maintained.promoteAccount (maintained.draw 1 start) runReturned
    split at ret
    · cases ret
    · rename_i truncated truncateReturned
      exact maintained.truncateQueue (maintained.truncatePending kept truncateReturned) ret

theorem evict : inv pool.evict :=
  @evict_keeps lib pool inv (fun _ => True) (fun _ => maintained.removeQueued)
    maintained.tick (fun _ _ => trivial) (maintained.draw 1 start)

end

end Maintained

/-- What is asked of the operations in a run. -/
structure Conditions (lib : StateLib) where
  /-- Of adding a transaction to a pool. -/
  add : PoolView lib → Bool → TxPool lib → Transaction → Prop
  /-- Of setting the price of a pool. -/
  reprice : TxPool lib → Int → Prop
  /-- Of the pool in a reset, once transactions were put back. -/
  settle : TxPool lib → Prop

section

variable (env : PoolEnv) (conds : Conditions lib)
  [∀ view isLocal pool tx, Decidable (conds.add view isLocal pool tx)]
  [∀ pool price, Decidable (conds.reprice pool price)]
  [∀ pool, Decidable (conds.settle pool)]

/-- A direct call does not go into the pool. -/
def MeetsAdd (view : PoolView lib) (isLocal : Bool) (pool : TxPool lib) (tx : Transaction) : Prop :=
  tx.shardingFlag ≠ 0 ∨ conds.add view isLocal pool tx

instance (view : PoolView lib) (isLocal : Bool) (pool : TxPool lib) (tx : Transaction) :
    Decidable (MeetsAdd conds view isLocal pool tx) :=
  inferInstanceAs (Decidable (_ ∨ _))

def MeetsAddAll (view : PoolView lib) (isLocal : Bool) (pool : TxPool lib)
    (txs : List Transaction) : Prop :=
  EachFold (addStep env view isLocal)
    (fun state tx => MeetsAdd conds view isLocal state.1 tx) (pool, []) txs

instance (view : PoolView lib) (isLocal : Bool) (pool : TxPool lib) (txs : List Transaction) :
    Decidable (MeetsAddAll env conds view isLocal pool txs) :=
  inferInstanceAs (Decidable (EachFold _ _ _ _))

def MeetsSettle : Except Crash (TxPool lib) → Prop
  | .ok pool => conds.settle pool
  | .error _ => True

instance : DecidablePred (@MeetsSettle lib conds) := fun added => by
  unfold MeetsSettle
  split <;> infer_instance

/-- A reset that puts these transactions back meets the conditions. -/
def MeetsTarget (view : PoolView lib) (pool : TxPool lib) :
    Except Crash (Option (List Transaction × lib.StateDB × Int)) → Prop
  | .ok (some (reinject, state, maxGas)) =>
    MeetsAddAll env conds view false (pool.enterState state maxGas) reinject ∧
      MeetsSettle conds ((pool.enterState state maxGas).addTxsLocked env view reinject false)
  | _ => True

instance (view : PoolView lib) (pool : TxPool lib) :
    DecidablePred (MeetsTarget env conds view pool) := fun target => by
  unfold MeetsTarget
  split <;> infer_instance

def MeetsReset (view : PoolView lib) (pool : TxPool lib) (oldHead newHead : Option Header) : Prop :=
  MeetsTarget env conds view { pool with directCalls := ∅ } (resetTarget env view oldHead newHead)

instance (view : PoolView lib) (pool : TxPool lib) (oldHead newHead : Option Header) :
    Decidable (MeetsReset env conds view pool oldHead newHead) :=
  inferInstanceAs (Decidable (MeetsTarget env conds view _ _))

/-- The operation meets the conditions wherever it adds, reprices or settles. -/
def Meets (pool : TxPool lib) (input : Input lib) : Prop :=
  match input.op with
  | .addLocal tx => MeetsAdd conds input.view (!pool.config.noLocals) pool tx
  | .addRemote tx => MeetsAdd conds input.view false pool tx
  | .addLocals txs => MeetsAddAll env conds input.view (!pool.config.noLocals) pool txs
  | .addRemotes txs => MeetsAddAll env conds input.view false pool txs
  | .addSysCntCall tx => MeetsAdd conds input.view true pool tx
  | .setGasPrice price => conds.reprice pool price
  | .reset oldHead newHead => MeetsReset env conds input.view pool oldHead newHead
  | .chainHead head block =>
    MeetsReset env conds input.view { pool with pangu := pool.pangu || env.isPangu block.number }
      (some head.header) (some block.header)
  | .evict => True

instance (pool : TxPool lib) : DecidablePred (Meets env conds pool) := fun ⟨_, req⟩ => by
  cases req <;> unfold Meets <;> infer_instance

end

def unconditional : Conditions lib where
  add _ _ _ _ := True
  reprice _ _ := True
  settle _ := True

theorem meets_unconditional (env : PoolEnv) (pool : TxPool lib) (input : Input lib) :
    Meets env unconditional pool input := by
  have meetsAddAll (view : PoolView lib) (isLocal : Bool) (txs : List Transaction)
      (pool : TxPool lib) : MeetsAddAll env unconditional view isLocal pool txs :=
    eachFold_of_forall (fun _ _ => .inr trivial) _ txs
  have meetsReset (view : PoolView lib) (pool : TxPool lib) (oldHead newHead : Option Header) :
      MeetsReset env unconditional view pool oldHead newHead := by
    unfold MeetsReset
    rcases resetTarget env view oldHead newHead with crash | (_ | ⟨reinject, state, maxGas⟩)
    · trivial
    · trivial
    · refine ⟨meetsAddAll _ _ _ _, ?_⟩
      unfold MeetsSettle
      split <;> trivial
  obtain ⟨view, op⟩ := input
  cases op with
  | addLocal tx | addRemote tx | addSysCntCall tx => exact .inr trivial
  | addLocals txs | addRemotes txs => exact meetsAddAll _ _ _ _
  | setGasPrice price => trivial
  | reset oldHead newHead | chainHead head block => exact meetsReset _ _ _ _
  | evict => trivial

variable {env : PoolEnv} {conds : Conditions lib} {inv entered : TxPool lib → Prop}

/-- Adding transactions under the conditions keeps the invariant. -/
structure Kept (env : PoolEnv) (conds : Conditions lib)
    (inv : TxPool lib → Prop) : Prop extends Maintained inv where
  directCalls : ∀ {pool : TxPool lib} calls, inv pool → inv { pool with directCalls := calls }
  add : ∀ {pool view tx isLocal}, inv pool → conds.add view isLocal pool tx →
    inv (pool.add env view tx isLocal).1

namespace Kept

variable (kept : Kept env conds inv) {view : PoolView lib} {isLocal : Bool}
  {tx : Transaction} {txs : List Transaction}

include kept

theorem addTx (start : inv pool) (meets : MeetsAdd conds view isLocal pool tx)
    (ret : pool.addTx env view tx isLocal = .ok after) : inv after := by
  unfold TxPool.addTx at ret
  split at ret
  · cases ret
    exact start
  · split at ret
    · cases ret
      exact kept.directCalls _ start
    · rename_i plain
      have added := kept.add start (meets.resolve_left plain)
      split at ret
      · rename_i accepted
        rw [accepted] at added
        exact kept.promoteExecutables added ret
      · rename_i other
        cases ret
        rwa [other] at added

theorem addStep {state : TxPool lib × List Address} (start : inv state.1)
    (meets : MeetsAdd conds view isLocal state.1 tx) :
    inv (addStep env view isLocal state tx).1 := by
  unfold TxPool.addStep
  split
  · exact kept.directCalls _ start
  · rename_i plain
    have added := kept.add start (meets.resolve_left plain)
    split
    · next accepted => rwa [accepted] at added
    · next other => rwa [other] at added

theorem addTxsLocked (start : inv pool) (meets : MeetsAddAll env conds view isLocal pool txs)
    (ret : pool.addTxsLocked env view txs isLocal = .ok after) : inv after := by
  have added : inv (txs.foldl (TxPool.addStep env view isLocal) (pool, [])).1 :=
    foldl_invariant (fun state : TxPool lib × List Address => inv state.1) kept.addStep start meets
  unfold TxPool.addTxsLocked at ret
  dsimp only at ret
  split at ret
  · cases ret
    exact added
  · exact kept.promoteExecutables (kept.draw 1 added) ret

end Kept

/-- An operation that meets the conditions preserves the invariant.  While a
reset puts transactions back another one may hold. -/
structure Preserves (env : PoolEnv) (conds : Conditions lib)
    (inv entered : TxPool lib → Prop) : Prop where
  kept : Kept env conds inv
  keptEntered : Kept env conds entered
  pangu : ∀ {pool : TxPool lib} flag, inv pool → inv { pool with pangu := flag }
  setGasPrice : ∀ {pool price}, inv pool → conds.reprice pool price → inv (pool.setGasPrice price)
  enterState : ∀ {pool} state maxGas, inv pool → entered (pool.enterState state maxGas)
  settle : ∀ {pool after}, entered pool → conds.settle pool → pool.settle = .ok after → inv after

namespace Preserves

variable (preserves : Preserves env conds inv entered)

include preserves

theorem reset {view : PoolView lib} {oldHead newHead : Option Header} (start : inv pool)
    (meets : MeetsReset env conds view pool oldHead newHead)
    (ret : pool.reset env view oldHead newHead = .ok after) : inv after := by
  have cleared := preserves.kept.directCalls ∅ start
  unfold TxPool.reset at ret
  unfold MeetsReset at meets
  dsimp only at ret
  split at ret
  · cases ret
  · cases ret
    exact cleared
  · rename_i reinject state maxGas target
    rw [target] at meets
    obtain ⟨meetsAdd, meetsSettle⟩ := meets
    split at ret
    · cases ret
    · rename_i reinjected addReturned
      rw [addReturned] at meetsSettle
      have added := preserves.keptEntered.addTxsLocked
        (preserves.enterState state maxGas cleared) meetsAdd addReturned
      exact preserves.settle added meetsSettle ret

theorem step {input : Input lib} (start : inv pool)
    (meets : Meets env conds pool input) (ret : step env pool input = .ok after) :
    inv after := by
  obtain ⟨view, op⟩ := input
  cases op with
  | addLocal tx | addRemote tx | addSysCntCall tx => exact preserves.kept.addTx start meets ret
  | addLocals txs | addRemotes txs => exact preserves.kept.addTxsLocked start meets ret
  | setGasPrice price =>
    cases ret
    exact preserves.setGasPrice start meets
  | reset oldHead newHead => exact preserves.reset start meets ret
  | chainHead head block => exact preserves.reset (preserves.pangu _ start) meets ret
  | evict =>
    cases ret
    exact preserves.kept.evict start

theorem run {inputs : List (Input lib)} (start : inv pool)
    (meets : EachStep (TxPool.step env) (Meets env conds) pool inputs)
    (ran : Lib.run (TxPool.step env) pool inputs = .ok after) : inv after :=
  run_invariant inv preserves.step start meets ran

end Preserves

end TxPool

end MoacVnode.Core
