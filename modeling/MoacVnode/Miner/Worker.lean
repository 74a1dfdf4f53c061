import MoacVnode.Core.StateProcessor

/-!
# Mining work

The worker runs a system transaction and then the pending transactions of the pool on the state of
the parent, and makes a block of those that do not fail.
-/

namespace MoacVnode.Miner

open MoacVnode.Core Lib Consensus.Ethash

variable {tx : Transaction}

/-- `types.TransactionsByPriceAndNonce`: the queues of the accounts, of which the one with
the best price is looked at, moved on or dropped. -/
structure TxQueues where
  Queue : Type
  ofPending : (AList fun _ : Address => List Transaction) → Queue
  peek : Queue → Option Transaction
  shift : Queue → Queue
  pop : Queue → Queue
  size : Queue → Nat
  size_shift_lt : ∀ queue tx, peek queue = some tx → size (shift queue) < size queue
  size_pop_lt : ∀ queue tx, peek queue = some tx → size (pop queue) < size queue

namespace TxQueues

def paysMore (queue other : List Transaction) : Prop :=
  (other.head?.map Transaction.gasPrice).getD 0 ≤ (queue.head?.map Transaction.gasPrice).getD 0

instance : DecidableRel paysMore := fun _ _ => by
  unfold paysMore
  infer_instance

/-- The queues as a list that is ordered by the price of their first transactions. -/
def ordered : TxQueues where
  Queue := List (List Transaction)
  ofPending pending :=
    (pending.entries.map Sigma.snd).foldl
      (fun queues queue => if queue = [] then queues else queues.orderedInsert paysMore queue) []
  peek
    | (tx :: _) :: _ => some tx
    | _ => none
  shift
    | (_ :: next :: queue) :: queues => queues.orderedInsert paysMore (next :: queue)
    | _ :: queues => queues
    | [] => []
  pop := List.tail
  size queues := (queues.map List.length).sum
  size_shift_lt queues tx isFirst := by
    match queues with
    | (_ :: next :: queue) :: queues =>
      have permuted := (queues.perm_orderedInsert paysMore (next :: queue)).map List.length
      simp [permuted.sum_eq]
    | [_] :: queues => simp
    | [] :: queues => cases isFirst
    | [] => cases isFirst
  size_pop_lt queues tx isFirst := by
    match queues with
    | (_ :: _) :: queues => simp
    | [] :: queues => cases isFirst
    | [] => cases isFirst

end TxQueues

/-- The parts of a `Work` that transactions change. -/
structure Work (Rest : Type) where
  state : StateDb Rest
  header : Header
  txs : List Transaction := []
  receipts : List Receipt := []
  tcount : Nat := 0

/-- A work and the gas pool from which it is filled. -/
structure Assembly (Rest : Type) where
  work : Work Rest
  gasPool : Int

def Assembly.progress {Rest : Type} (assembly : Assembly Rest) : Progress Rest where
  gasPool := assembly.gasPool
  state := assembly.work.state
  usedGas := assembly.work.header.gasUsed

section

variable {Rest : Type} (evm : Machine Rest) (lib : BlockLib) (queues : TxQueues)
  (coinbase : Address)

/-- `commitTransaction`; a transaction that fails is reverted, but not in the gas pool. -/
def commitTransaction (assembly : Assembly Rest) (tx : Transaction) :
    Assembly Rest × Except TransitionError Receipt :=
  let work := assembly.work
  let applied := applyTransaction evm lib (some coinbase) work.header assembly.progress tx
  let header := { work.header with gasUsed := applied.1.usedGas }
  match applied.2 with
  | .error error =>
    ({ work := { work with header := header }, gasPool := applied.1.gasPool }, .error error)
  | .ok receipt =>
    ({ work :=
        { work with
          state := applied.1.state
          header := header
          txs := work.txs ++ [tx]
          receipts := work.receipts ++ [receipt] }
       gasPool := applied.1.gasPool }, .ok receipt)

def countTransaction (assembly : Assembly Rest) (tx : Transaction) :
    Assembly Rest × Except TransitionError Receipt :=
  let committed := commitTransaction evm lib coinbase assembly tx
  match committed.2 with
  | .error error => (committed.1, .error error)
  | .ok receipt =>
    ({ committed.1 with
       work := { committed.1.work with tcount := committed.1.work.tcount + 1 } }, .ok receipt)

def nextQueue (queue : queues.Queue) : Except TransitionError Receipt → queues.Queue
  | .error .gasLimitReached => queues.pop queue
  | .error .nonceTooLow => queues.shift queue
  | .error .nonceTooHigh => queues.pop queue
  | .error .emptyCode => queues.pop queue
  | .error .invalidCode => queues.pop queue
  | .error _ => queues.shift queue
  | .ok _ => queues.shift queue

def commitLoop : Nat → queues.Queue → Assembly Rest → Assembly Rest × queues.Queue
  | 0, queue, assembly => (assembly, queue)
  | fuel + 1, queue, assembly =>
    match queues.peek queue with
    | none => (assembly, queue)
    | some tx =>
      let tried := countTransaction evm lib coinbase assembly tx
      commitLoop fuel (nextQueue queues queue tried.2) tried.1

def commitTransactions (work : Work Rest) (txs : List queues.Queue) : Work Rest :=
  let start : Assembly Rest := { work := work, gasPool := GasPool.addGas 0 work.header.gasLimit }
  let called := (countTransaction evm lib coinbase start (createSysTx lib work.state)).1
  (txs.foldl (fun assembly queue =>
      (commitLoop evm lib queues coinbase (queues.size queue) queue assembly).1)
    called).work

structure Worker where
  coinbase : Address
  mining : Bool

/-- The header that is filled: it names the coinbase only if the worker is mining. -/
def Worker.workHeader (worker : Worker) (header : Header) : Header :=
  { header with
    gasUsed := 0
    coinbase := if worker.mining then worker.coinbase else 0 }

/-- `commitNewWork` for a header that was prepared and uncles that were chosen: the work and its
block. -/
def commitNewWork (worker : Worker) (header : Header) (parentState : StateDb Rest)
    (pendingH pendingL : AList fun _ : Address => List Transaction) (uncles : List Header) :
    Work Rest × FullBlock :=
  let work := commitTransactions evm lib queues worker.coinbase
    { state := parentState, header := worker.workHeader header }
    [queues.ofPending pendingH, queues.ofPending (pendingL.erase systemContractCallAddr)]
  let finalized := finalize evm lib work.header work.state work.txs uncles work.receipts
  ({ work with state := finalized.1 }, finalized.2)

/-- The block with a seal, which determines its hash. -/
def withSeal (block : FullBlock) (nonce : BitVec 64) (mixDigest hash : Hash) : FullBlock :=
  { block with
    header := { block.header with nonce := nonce, mixDigest := mixDigest, hash := hash } }

end

variable {Rest : Type} {evm : Machine Rest} {lib : BlockLib} {queues : TxQueues}
  {coinbase : Address}

theorem commitTransaction_error {assembly : Assembly Rest} {error : TransitionError}
    (fails : (commitTransaction evm lib coinbase assembly tx).2 = .error error) :
    ∃ gasPool, gasPool ≤ assembly.gasPool ∧
      (commitTransaction evm lib coinbase assembly tx).1 =
        { assembly with gasPool := gasPool } := by
  unfold commitTransaction at *
  cases applied : (applyTransaction evm lib (some coinbase) assembly.work.header
      assembly.progress tx).2 with
  | error error =>
    obtain ⟨gasPoolLe, sameGas⟩ := applyInContext_error applied
    refine ⟨_, gasPoolLe, ?_⟩
    simp only [applied]
    rw [show (applyTransaction evm lib (some coinbase) assembly.work.header
      assembly.progress tx).1.usedGas = assembly.work.header.gasUsed from sameGas]
    rfl
  | ok receipt =>
    simp only [applied] at fails
    cases fails

theorem commitTransaction_ok {assembly : Assembly Rest} {receipt : Receipt}
    (succeeds : (commitTransaction evm lib coinbase assembly tx).2 = .ok receipt) :
    ∃ progress,
      applyTransaction evm lib (some coinbase) assembly.work.header assembly.progress tx =
          (progress, .ok receipt) ∧
        (commitTransaction evm lib coinbase assembly tx).1 =
          { work :=
              { assembly.work with
                state := progress.state
                header := { assembly.work.header with gasUsed := progress.usedGas }
                txs := assembly.work.txs ++ [tx]
                receipts := assembly.work.receipts ++ [receipt] }
            gasPool := progress.gasPool } := by
  unfold commitTransaction at *
  rcases applied : applyTransaction evm lib (some coinbase) assembly.work.header
      assembly.progress tx with ⟨progress, error | made⟩
  · simp only [applied] at succeeds
    cases succeeds
  · simp only [applied] at succeeds
    cases succeeds
    refine ⟨progress, rfl, ?_⟩
    simp only [applied]

theorem countTransaction_eq (assembly : Assembly Rest) (tx : Transaction) :
    ∃ tcount,
      countTransaction evm lib coinbase assembly tx =
        ({ (commitTransaction evm lib coinbase assembly tx).1 with
           work :=
            { (commitTransaction evm lib coinbase assembly tx).1.work with tcount := tcount } },
          (commitTransaction evm lib coinbase assembly tx).2) := by
  unfold countTransaction
  rcases commitTransaction evm lib coinbase assembly tx with ⟨committed, error | receipt⟩
  · exact ⟨committed.work.tcount, rfl⟩
  · exact ⟨committed.work.tcount + 1, rfl⟩

theorem txs_countTransaction (assembly : Assembly Rest) (tx : Transaction) :
    (countTransaction evm lib coinbase assembly tx).1.work.txs =
      assembly.work.txs ++
        match (commitTransaction evm lib coinbase assembly tx).2 with
        | .error _ => []
        | .ok _ => [tx] := by
  obtain ⟨tcount, counted⟩ := @countTransaction_eq Rest evm lib coinbase assembly tx
  rw [counted]
  cases res : (commitTransaction evm lib coinbase assembly tx).2 with
  | error error =>
    obtain ⟨gasPool, -, committed⟩ := commitTransaction_error res
    simp [committed]
  | ok receipt =>
    obtain ⟨progress, -, committed⟩ := commitTransaction_ok res
    simp [committed]

section

variable {inv : Assembly Rest → Prop} {allowed : queues.Queue → Prop}
  (next : ∀ {queue tx} res, allowed queue → queues.peek queue = some tx →
    allowed (nextQueue queues queue res))
  (keeps : ∀ {assembly queue tx}, allowed queue → queues.peek queue = some tx →
    inv assembly → inv (countTransaction evm lib coinbase assembly tx).1)

include next keeps

theorem commitLoop_keeps_of (fuel : Nat) {queue : queues.Queue} {assembly : Assembly Rest}
    (isAllowed : allowed queue) (holds : inv assembly) :
    inv (commitLoop evm lib queues coinbase fuel queue assembly).1 := by
  induction fuel generalizing queue assembly with
  | zero => exact holds
  | succ fuel ih =>
    rw [commitLoop]
    cases first : queues.peek queue with
    | none => exact holds
    | some tx => exact ih (next _ isAllowed first) (keeps isAllowed first holds)

theorem foldl_commitLoop_keeps_of {txs : List queues.Queue} {assembly : Assembly Rest}
    (allAllowed : ∀ queue ∈ txs, allowed queue) (holds : inv assembly) :
    inv (txs.foldl (fun assembly queue =>
          (commitLoop evm lib queues coinbase (queues.size queue) queue assembly).1)
        assembly) := by
  induction txs generalizing assembly with
  | nil => exact holds
  | cons queue txs ih =>
    obtain ⟨isAllowed, restAllowed⟩ := List.forall_mem_cons.mp allAllowed
    exact ih restAllowed (commitLoop_keeps_of next keeps _ isAllowed holds)

end

theorem foldl_commitLoop_keeps {inv : Assembly Rest → Prop} (keeps : ∀ assembly tx, inv assembly →
      inv (countTransaction evm lib coinbase assembly tx).1)
    (txs : List queues.Queue) {assembly : Assembly Rest} (holds : inv assembly) :
    inv (txs.foldl (fun assembly queue =>
          (commitLoop evm lib queues coinbase (queues.size queue) queue assembly).1)
        assembly) :=
  @foldl_commitLoop_keeps_of Rest evm lib queues coinbase inv (fun _ => True)
    (fun _ _ _ => trivial) (fun _ _ => keeps _ _) txs assembly (fun _ _ => trivial) holds

end MoacVnode.Miner
