import MoacVnode.Miner.MinedBlocks

/-!
# The work of a worker between heads

`commitTransactions` fills a work from a gas pool of its own, and begins with a system transaction.
-/

namespace MoacVnode.Core.StateTransition

variable {Rest : Type} {evm : Machine Rest} {ctx : BlockContext} {msg : Message}
  {st : StateTransition Rest}

/-- What a transition took out of the pool covers the gas it used. -/
structure Covers (before after : Int) (usedGas : Int) : Prop where
  nonneg : 0 ≤ before → 0 ≤ after
  covered : after + usedGas ≤ before

def reportedGas : Except TransitionError TransitionResult → Int
  | .error _ => 0
  | .ok res => res.usedGas

theorem settle_gas (nonneg : 0 ≤ st.initialGas) (vmError : Option VmError) :
    st.gasPool ≤ (settle evm ctx msg st vmError).1.gasPool ∧
      (settle evm ctx msg st vmError).1.gasPool + reportedGas (settle evm ctx msg st vmError).2 ≤
        st.gasPool + st.initialGas := by
  unfold settle
  split
  · simp only [reportedGas]
    omega
  · simp only [reportedGas, refundGas, touchSender, gasUsed, GasPool.addGas]
    split_ifs <;> omega

theorem covers_transitionDb (evm : Machine Rest) (ctx : BlockContext) (msg : Message)
    (st : StateTransition Rest) :
    Covers st.gasPool (transitionDb evm ctx msg st).1.gasPool
      (reportedGas (transitionDb evm ctx msg st).2) := by
  rcases transitionDb_cases evm ctx msg st with ⟨_, failed, outcome⟩ | ⟨passes, later⟩
  · rw [outcome, gasPool_preCheck_of_error failed]
    exact ⟨id, (add_zero _).le⟩
  · have checked := checked_of_preCheck passes
    have room := checked.room
    have pool : (preCheck evm msg st).1.gasPool = st.gasPool - msg.gasLimit := by
      rw [preCheck_of_checked checked]
    have gas : (preCheck evm msg st).1.initialGas = msg.gasLimit := by
      rw [preCheck_of_checked checked]
    rcases later with ⟨_, -, outcome⟩ | ⟨-, outcome⟩
    · rw [outcome, gasPool_paid, pool]
      exact ⟨fun _ => by omega, show _ + 0 ≤ _ by omega⟩
    · obtain ⟨more, ret⟩ := @settle_gas Rest evm ctx msg
        (ran evm ctx msg st).1 (by simp [ran, gas]) (ran evm ctx msg st).2
      simp only [ran, gasPool_execute, gasPool_paid, initialGas_execute, initialGas_paid, pool,
        gas] at more ret
      rw [outcome]
      exact ⟨fun _ => le_trans (by omega) more, ret.trans (sub_add_cancel _ _).le⟩

end MoacVnode.Core.StateTransition

namespace MoacVnode.Core

variable {Rest : Type} {evm : Machine Rest} {lib : BlockLib} {ctx : BlockContext}

open Core.StateTransition (Covers)

theorem covers_applyInContext (progress : Progress Rest) (tx : Transaction) :
    let applied := (applyInContext evm lib ctx progress tx).1
    Covers progress.gasPool applied.gasPool (applied.usedGas - progress.usedGas) := by
  unfold applyInContext
  cases messageOf evm ctx tx progress.state with
  | none => exact ⟨id, by simp⟩
  | some msg =>
    have covers := StateTransition.covers_transitionDb evm ctx msg
      { gasPool := progress.gasPool, state := progress.state }
    simp only
    cases applied : (StateTransition.transitionDb evm ctx msg
        { gasPool := progress.gasPool, state := progress.state }).2 with
    | error error | ok res =>
      rw [applied] at covers
      simpa [StateTransition.reportedGas] using covers

end MoacVnode.Core

namespace MoacVnode.Miner

open MoacVnode.Core Lib Consensus.Ethash List
open Core.StateTransition (Covers)

variable {Rest : Type} {evm : Machine Rest} {lib : BlockLib} {queues : TxQueues}
  {coinbase : Address} {assembly : Assembly Rest}

theorem covers_countTransaction (assembly : Assembly Rest) (tx : Transaction) :
    let counted := (countTransaction evm lib coinbase assembly tx).1
    counted.work.header.gasLimit = assembly.work.header.gasLimit ∧
      Covers assembly.gasPool counted.gasPool
        (counted.work.header.gasUsed - assembly.work.header.gasUsed) := by
  have covers := @covers_applyInContext Rest evm lib
    (newEVMContext (some coinbase) assembly.work.header) assembly.progress tx
  rcases applied : applyInContext evm lib
      (newEVMContext (some coinbase) assembly.work.header) assembly.progress tx with
    ⟨progress, res⟩
  rw [applied] at covers
  cases res with
  | error error | ok receipt =>
    simp only [countTransaction, commitTransaction, applyTransaction, applied, true_and]
    exact covers

/-- The gas used so far and what is left in the pool keep to the limit. -/
structure WithinLimit (limit : Int) (assembly : Assembly Rest) : Prop where
  gasLimit : assembly.work.header.gasLimit = limit
  pool : 0 ≤ assembly.gasPool
  covered : assembly.work.header.gasUsed + assembly.gasPool ≤ limit

theorem WithinLimit.countTransaction {limit : Int} (within : WithinLimit limit assembly)
    (tx : Transaction) :
    WithinLimit limit (countTransaction evm lib coinbase assembly tx).1 := by
  obtain ⟨sameLimit, covers⟩ := @covers_countTransaction Rest evm lib coinbase assembly tx
  have covered := covers.covered
  have before := within.covered
  exact ⟨sameLimit.trans within.gasLimit, covers.nonneg within.pool, by omega⟩

/-- What is kept of a work: it keeps to its gas limit and has one system transaction, in
front. -/
structure Work.Regular (work : Work Rest) : Prop where
  gasUsed_le : work.header.gasUsed ≤ work.header.gasLimit
  oneSystemTx : OneSystemTx work.txs

structure WorkerState (Rest : Type) where
  worker : Worker
  current : Option (Work Rest) := none

/-- The events of the worker, with what it reads of the chain and the pool. Those that bring
possible uncles or another extra field do not touch the work. -/
inductive WorkerEvent (Rest : Type) where
  /-- A new head, a mined block that did not become one, or the start of the miner: the
  header and the state of the parent, unless one of them could not be had. -/
  | newHead (prepared : Option (Header × StateDb Rest))
      (pendingH pendingL : AList fun _ : Address => List Transaction) (uncles : List Header)
  | txPre (tx : Transaction)
  | start
  | stop
  | setMoacbase (addr : Address)

section

variable (evm : Machine Rest) (lib : BlockLib) (queues : TxQueues)

/-- What `update` does with an announced transaction of a worker that does not mine. -/
def commitAnnounced (coinbase : Address) (work : Work Rest) (tx : Transaction) : Work Rest :=
  commitTransactions evm lib queues coinbase work [queues.ofPending (AList.singleton tx.owner [tx])]

def handle (state : WorkerState Rest) : WorkerEvent Rest → Except Crash (WorkerState Rest)
  | .newHead none _ _ _ => .ok state
  | .newHead (some (header, parentState)) pendingH pendingL uncles =>
    .ok { state with
      current := (commitNewWork evm lib queues state.worker header parentState pendingH
        pendingL uncles).1 }
  | .txPre tx =>
    if state.worker.mining then .ok state
    else
      match state.current with
      | none => .error .nilDereference
      | some work =>
        .ok { state with
          current := commitAnnounced evm lib queues state.worker.coinbase work tx }
  | .start => .ok { state with worker := { state.worker with mining := true } }
  | .stop => .ok { state with worker := { state.worker with mining := false } }
  | .setMoacbase addr => .ok { state with worker := { state.worker with coinbase := addr } }

/-- The system transaction succeeds as the first one of a new work. -/
def SystemTxRuns (worker : Worker) (header : Header) (parentState : StateDb Rest) : Prop :=
  ((commitTransaction evm lib worker.coinbase
    { work := { state := parentState, header := worker.workHeader header }
      gasPool := GasPool.addGas 0 header.gasLimit } (createSysTx lib parentState)).2.isOk : Prop)
deriving Decidable

/-- A new work has plain transactions behind a system transaction that does not fail, and a
transaction is announced to a worker that mines. -/
def Orderly (state : WorkerState Rest) : WorkerEvent Rest → Prop
  | .newHead (some (header, parentState)) pendingH pendingL _ =>
    0 ≤ header.gasLimit ∧ SystemTxRuns evm lib state.worker header parentState ∧
      Unflagged pendingH ∧ Unflagged (pendingL.erase systemContractCallAddr)
  | .txPre _ => state.worker.mining = true
  | _ => True

instance (state : WorkerState Rest) : DecidablePred (Orderly evm lib state) := fun event => by
  unfold Orderly
  split <;> infer_instance

end

theorem regular_commitTransactions {holds : queues.Queue → Transaction → Prop}
    (faithful : queues.Faithful holds) {work : Work Rest} {txs : List queues.Queue}
    (empty : work.txs = []) (unused : work.header.gasUsed = 0) (nonneg : 0 ≤ work.header.gasLimit)
    (runs : (commitTransaction evm lib coinbase
      { work := work, gasPool := GasPool.addGas 0 work.header.gasLimit }
      (createSysTx lib work.state)).2.isOk)
    (plain : ∀ queue ∈ txs, ∀ tx, holds queue tx → tx.systemFlag = 0) :
    (commitTransactions evm lib queues coinbase work txs).Regular := by
  have start : WithinLimit work.header.gasLimit
      { work := work, gasPool := GasPool.addGas 0 work.header.gasLimit } :=
    ⟨rfl, by simpa [GasPool.addGas] using nonneg, by simp [GasPool.addGas, unused]⟩
  have called := @WithinLimit.countTransaction Rest evm lib coinbase _ _ start
    (createSysTx lib work.state)
  have within := @foldl_commitLoop_keeps Rest evm lib queues coinbase
    (WithinLimit work.header.gasLimit) (fun _ tx kept => kept.countTransaction tx) txs _ called
  have pool := within.pool
  have covered := within.covered
  obtain ⟨rest, isFirst, restPlain⟩ := begins_commitTransactions faithful empty runs plain
  refine ⟨?_, _, rest, isFirst, Nat.succ_ne_zero 100, restPlain⟩
  simp only [commitTransactions, within.gasLimit]
  omega

theorem handle_regular {holds : queues.Queue → Transaction → Prop}
    (faithful : queues.Faithful holds) {state next : WorkerState Rest} {event : WorkerEvent Rest}
    (regular : ∀ work ∈ state.current, work.Regular) (orderly : Orderly evm lib state event)
    (handled : handle evm lib queues state event = .ok next) :
    ∀ work ∈ next.current, work.Regular := by
  match event, orderly with
  | .newHead none _ _ _, _ | .start, _ | .stop, _ | .setMoacbase addr, _ =>
    cases handled
    exact regular
  | .newHead (some (header, parentState)) pendingH pendingL uncles,
      ⟨nonneg, runs, plainH, plainL⟩ =>
      cases handled
      rintro work ⟨⟩
      have filled := @regular_commitTransactions Rest evm lib queues state.worker.coinbase
        holds faithful { state := parentState, header := state.worker.workHeader header }
        [queues.ofPending pendingH, queues.ofPending (pendingL.erase systemContractCallAddr)]
        rfl rfl nonneg runs
        (plain_ofPending faithful plainH plainL)
      -- finalizing changes the state only
      exact ⟨filled.gasUsed_le, filled.oneSystemTx⟩
  | .txPre tx, mining =>
    simp only [handle, if_pos (show state.worker.mining = true from mining)] at handled
    cases handled
    exact regular

/-- If transactions are announced only while the worker mines, none carries a system flag and the
system transaction does not fail, the work keeps to its gas limit and has one system transaction, in
front. -/
theorem work_regular_of_run (evm : Machine Rest) (lib : BlockLib) (queues : TxQueues)
    (holds : queues.Queue → Transaction → Prop) (faithful : queues.Faithful holds)
    (worker : Worker) (events : List (WorkerEvent Rest)) (state : WorkerState Rest)
    (orderly : EachStep (handle evm lib queues) (Orderly evm lib) { worker := worker } events)
    (reached : run (handle evm lib queues) { worker := worker } events = .ok state) :
    ∀ work ∈ state.current, work.Regular :=
  run_invariant (fun state : WorkerState Rest => ∀ work ∈ state.current, work.Regular)
    (handle_regular faithful) (by simp) orderly reached

private def restingState : StateDb Unit where
  balance _ := 0
  nonce _ := 0
  rest := ()

private def narrowHeader : Header := { easyHeader 3 2 2 with gasLimit := 30000 }

private def announced (nonce : Fin 10) : Transaction where
  hash := 1000
  sender := some 7
  nonce := nonce
  nonce_lt := nonce.isLt.trans (by decide)
  gasLimit := 21000
  toAddress := some 8

/-- Two announced transactions use more gas than the limit, and each brings another system
transaction with it. -/
theorem announced_transactions_exceed_limit :
    ∃ state, run (handle (idleMachine fun _ => none) countingLib .ordered)
        { worker := { coinbase := 9, mining := false } }
        [.newHead (some (narrowHeader, restingState)) ∅ ∅ [], .txPre (announced 0),
          .txPre (announced 1)] = .ok state ∧
      ∃ work ∈ state.current, work.header.gasLimit = 30000 ∧
        work.header.gasUsed = 42000 ∧
        work.txs.map Transaction.systemFlag = [101, 101, 0, 101, 0] := by
  decide +kernel

/-- A worker that mines leaves announced transactions alone. -/
theorem mining_work_regular :
    ∃ state, run (handle (idleMachine fun _ => none) countingLib .ordered)
        { worker := { coinbase := 9, mining := false } }
        [.start, .newHead (some (narrowHeader, restingState)) ∅
          (AList.singleton 7 [announced 0, announced 1]) [], .txPre (announced 1)] = .ok state ∧
      ∃ work ∈ state.current, work.Regular ∧ work.txs.length = 2 := by
  refine exists_ok_of (fun state => ∃ work ∈ state.current, work.txs.length = 2)
    (by decide +kernel) ?_
  rintro state reached ⟨work, isCurrent, length⟩
  exact ⟨work, isCurrent,
    work_regular_of_run _ _ _ _ TxQueues.faithful_ordered _ _ state (by decide +kernel) reached
      work isCurrent, length⟩

end MoacVnode.Miner
