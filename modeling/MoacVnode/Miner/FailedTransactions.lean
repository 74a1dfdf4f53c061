import MoacVnode.Core.GasAccounting
import MoacVnode.Miner.MinedBlocks

/-!
# Transactions that fail

A transaction that fails is reverted in the state. The gas pool is not part of the snapshot:
the gas is bought from it first, and stays bought if a later check fails.
-/

namespace MoacVnode.Miner

open MoacVnode.Core Consensus.Ethash StateTransition

variable {Rest : Type} {evm : Machine Rest} {lib : BlockLib} {coinbase : Address}
  {assembly : Assembly Rest} {tx : Transaction} {msg : Message}

def Assembly.context (coinbase : Address) (assembly : Assembly Rest) : BlockContext :=
  newEVMContext (some coinbase) assembly.work.header

def Assembly.message (evm : Machine Rest) (coinbase : Address) (assembly : Assembly Rest)
    (tx : Transaction) : Option Message :=
  messageOf evm (assembly.context coinbase) tx assembly.work.state

def Assembly.start (assembly : Assembly Rest) : StateTransition Rest :=
  StateTransition.start assembly.gasPool assembly.work.state

theorem commitTransaction_cases (evm : Machine Rest) (lib : BlockLib) (coinbase : Address)
    (assembly : Assembly Rest) (tx : Transaction) :
    match assembly.message evm coinbase tx with
    | none => commitTransaction evm lib coinbase assembly tx =
        (assembly, .error .invalidSender)
    | some msg =>
      let transition := transitionDb evm (assembly.context coinbase) msg assembly.start
      match transition.2 with
      | .error error => commitTransaction evm lib coinbase assembly tx =
          ({ assembly with gasPool := transition.1.gasPool }, .error error)
      | .ok _ =>
        ∃ receipt, (commitTransaction evm lib coinbase assembly tx).2 = .ok receipt := by
  unfold commitTransaction applyTransaction applyInContext
  dsimp only
  rw [show messageOf evm (newEVMContext (some coinbase) assembly.work.header) tx
    assembly.progress.state = assembly.message evm coinbase tx from rfl]
  cases assembly.message evm coinbase tx with
  | none => rfl
  | some msg =>
    dsimp only
    rw [show transitionDb evm (newEVMContext (some coinbase) assembly.work.header) msg
      { gasPool := assembly.progress.gasPool, state := assembly.progress.state } =
        transitionDb evm (assembly.context coinbase) msg assembly.start from rfl]
    cases (transitionDb evm (assembly.context coinbase) msg assembly.start).2 with
    | error error => rfl
    | ok res => exact ⟨_, rfl⟩

theorem gasPool_transitionDb_of_refused {context : BlockContext} {st : StateTransition Rest}
    {error : TransitionError} (refused : (preCheck evm msg st).2 = some error) :
    (transitionDb evm context msg st).1.gasPool = st.gasPool := by
  rcases transitionDb_cases evm context msg st with ⟨_, -, outcome⟩ | ⟨passed, -⟩
  · rw [outcome]
    exact gasPool_preCheck_of_error refused
  · cases passed.symm.trans refused

/-- A transaction that fails costs the block nothing if and only if it bought no gas: its sender
is unknown, preCheck refused it, or its gas limit is zero. -/
theorem failed_transaction_free_iff (evm : Machine Rest) (lib : BlockLib)
    (coinbase : Address) (assembly : Assembly Rest) (tx : Transaction) (error : TransitionError)
    (failed : (commitTransaction evm lib coinbase assembly tx).2 = .error error) :
    (commitTransaction evm lib coinbase assembly tx).1 = assembly ↔
      ∀ msg, assembly.message evm coinbase tx = some msg →
        (preCheck evm msg assembly.start).2 = none → msg.gasLimit = 0 := by
  have committed := commitTransaction_cases evm lib coinbase assembly tx
  cases valid : assembly.message evm coinbase tx with
  | none =>
    simp only [valid] at committed
    simp [committed]
  | some msg =>
    cases outcome : (transitionDb evm (assembly.context coinbase) msg assembly.start).2 with
    | ok res =>
      simp only [valid, outcome] at committed
      obtain ⟨receipt, succeeds⟩ := committed
      rw [succeeds] at failed
      cases failed
    | error transitionError =>
      simp only [valid, outcome] at committed
      rw [committed]
      have sameIff : ({ assembly with gasPool := (transitionDb evm
          (assembly.context coinbase) msg assembly.start).1.gasPool } : Assembly Rest) = assembly ↔
          (transitionDb evm (assembly.context coinbase) msg assembly.start).1.gasPool =
            assembly.gasPool :=
        ⟨congrArg Assembly.gasPool, fun same => by rw [same]⟩
      rw [sameIff]
      cases checked : (preCheck evm msg assembly.start).2 with
      | some checkError =>
        refine ⟨?_, fun _ => gasPool_transitionDb_of_refused checked⟩
        rintro - _ ⟨⟩ passed
        cases passed.symm.trans checked
      | none =>
        -- the gas that was bought is missing from the pool
        have kept : _ = assembly.gasPool - msg.gasLimit :=
          gasPool_transitionDb_of_bought checked outcome
        rw [kept]
        constructor
        · rintro same _ ⟨⟩ -
          omega
        · intro free
          have zero := free msg rfl checked
          omega

private def halfFull : Assembly Unit where
  work :=
    { state := { balance := fun _ => 0, nonce := fun _ => 0, rest := () }
      header := { easyHeader 3 2 2 with gasLimit := 50000 } }
  gasPool := 50000

private def limitedTx (gasLimit : Nat) : Transaction where
  hash := 1000
  sender := some 7
  nonce_lt := uint64Size_pos
  gasLimit := gasLimit
  toAddress := some 8

/-- A limit of 60000 is more than the pool has: preCheck refuses the transaction, and nothing
changes. -/
theorem oversized_transaction_free :
    (commitTransaction (idleMachine fun _ => none) countingLib 9 halfFull (limitedTx 60000)).2 =
        .error .gasLimitReached ∧
      (commitTransaction (idleMachine fun _ => none) countingLib 9 halfFull
        (limitedTx 60000)).1 = halfFull := by
  have failed : (commitTransaction (idleMachine fun _ => none) countingLib 9 halfFull
      (limitedTx 60000)).2 = .error .gasLimitReached := by
    decide +kernel
  refine ⟨failed, (failed_transaction_free_iff _ _ _ _ _ _ failed).mpr ?_⟩
  rintro _ ⟨⟩ passed
  exact absurd passed (by decide +kernel)

/-- A limit of 20000 does not cover the intrinsic gas of 21000: the transaction is refused, and
the pool has 20000 less for the others. -/
theorem refused_transaction_takes_gas :
    (commitTransaction (idleMachine fun _ => none) countingLib 9 halfFull (limitedTx 20000)).2 =
        .error .outOfGas ∧
      (commitTransaction (idleMachine fun _ => none) countingLib 9 halfFull
        (limitedTx 20000)).1.gasPool = 30000 ∧
      halfFull.gasPool = 50000 := by
  decide +kernel

end MoacVnode.Miner
