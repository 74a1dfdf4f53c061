import MoacVnode.Miner.Worker

/-!
# Mined blocks are imported

A block that the worker assembled is run again when it is imported.
-/

namespace MoacVnode.Miner

open MoacVnode.Core Lib Consensus.Ethash List

variable {Rest : Type} {evm : Machine Rest} {lib : BlockLib} {queues : TxQueues}
  {parentState : StateDb Rest}

namespace TxQueues

variable {tx : Transaction}

/-- A queue of `TransactionsByPriceAndNonce` holds transactions that it was made from, gives those
that it holds, and gets no others. -/
structure Faithful (queues : TxQueues) (holds : queues.Queue → Transaction → Prop) :
    Prop where
  ofPending : ∀ {pending tx}, holds (queues.ofPending pending) tx →
    ∃ entry ∈ pending.entries, tx ∈ entry.2
  peek : ∀ {queue tx}, queues.peek queue = some tx → holds queue tx
  shift : ∀ {queue tx}, holds (queues.shift queue) tx → holds queue tx
  pop : ∀ {queue tx}, holds (queues.pop queue) tx → holds queue tx

variable {holds : queues.Queue → Transaction → Prop}

theorem Faithful.nextQueue (faithful : queues.Faithful holds) {queue : queues.Queue}
    (res : Except TransitionError Receipt) (isHeld : holds (nextQueue queues queue res) tx) :
    holds queue tx := by
  rcases res with error | receipt
  · cases error <;> first | exact faithful.shift isHeld | exact faithful.pop isHeld
  · exact faithful.shift isHeld

def Held (queue : List (List Transaction)) (tx : Transaction) : Prop := ∃ txs ∈ queue, tx ∈ txs

theorem held_of_foldl {lists queue : List (List Transaction)}
    (held : Held (lists.foldl (fun queues queue => if queue = [] then queues else
      queues.orderedInsert paysMore queue) queue) tx) : Held queue tx ∨ Held lists tx := by
  induction lists generalizing queue with
  | nil => exact .inl held
  | cons list lists ih =>
    rcases ih held with ⟨txs, mem, inTxs⟩ | ⟨txs, mem, inTxs⟩
    · dsimp only at mem
      split at mem
      · exact .inl ⟨txs, mem, inTxs⟩
      · rcases (mem_orderedInsert paysMore).mp mem with rfl | inQueue
        · exact .inr ⟨txs, mem_cons_self, inTxs⟩
        · exact .inl ⟨txs, inQueue, inTxs⟩
    · exact .inr ⟨txs, mem_cons_of_mem list mem, inTxs⟩

theorem faithful_ordered : ordered.Faithful Held where
  ofPending := by
    intro pending tx held
    rcases held_of_foldl held with ⟨txs, mem, -⟩ | ⟨txs, mem, inTxs⟩
    · cases mem
    · obtain ⟨entry, isEntry, rfl⟩ := mem_map.mp mem
      exact ⟨entry, isEntry, inTxs⟩
  peek := by
    intro queue tx first
    match queue with
    | (_ :: _) :: _ =>
      cases first
      exact ⟨_, mem_cons_self, mem_cons_self⟩
    | [] :: _ => cases first
    | [] => cases first
  shift := by
    intro queue tx held
    match queue with
    | (first :: next :: queue) :: queues =>
      obtain ⟨txs, mem, inTxs⟩ := held
      rcases (mem_orderedInsert paysMore).mp mem with rfl | inQueues
      · exact ⟨_, mem_cons_self, mem_cons_of_mem first inTxs⟩
      · exact ⟨txs, mem_cons_of_mem _ inQueues, inTxs⟩
    | [_] :: queues | [] :: queues =>
      obtain ⟨txs, mem, inTxs⟩ := held
      exact ⟨txs, mem_cons_of_mem _ mem, inTxs⟩
    | [] => exact held
  pop := by
    rintro queue tx ⟨txs, mem, inTxs⟩
    exact ⟨txs, mem_of_mem_tail mem, inTxs⟩

end TxQueues

/-- The transactions begin with a system transaction, and no other one is flagged. -/
def OneSystemTx (txs : List Transaction) : Prop :=
  ∃ sysTx rest, txs = sysTx :: rest ∧ sysTx.systemFlag ≠ 0 ∧ ∀ tx ∈ rest, tx.systemFlag = 0

/-- No pending transaction carries a system flag. -/
def Unflagged (pending : AList fun _ : Address => List Transaction) : Prop :=
  ∀ entry ∈ pending.entries, ∀ tx ∈ entry.2, tx.systemFlag = 0
deriving Decidable

section

variable {coinbase : Address} {assembly : Assembly Rest}

/-- The system transaction is followed by transactions that are not flagged. -/
def Begins (sysTx : Transaction) (txs : List Transaction) : Prop :=
  ∃ rest, txs = sysTx :: rest ∧ ∀ tx ∈ rest, tx.systemFlag = 0

theorem Begins.countTransaction {sysTx tx : Transaction} (begins : Begins sysTx assembly.work.txs)
    (plain : tx.systemFlag = 0) :
    Begins sysTx (countTransaction evm lib coinbase assembly tx).1.work.txs := by
  obtain ⟨rest, isFirst, restPlain⟩ := begins
  rw [txs_countTransaction, isFirst]
  refine ⟨_, cons_append, forall_mem_append.mpr ⟨restPlain, ?_⟩⟩
  cases (commitTransaction evm lib coinbase assembly tx).2 with
  | error error => exact forall_mem_nil _
  | ok receipt => exact forall_mem_singleton.mpr plain

theorem begins_sysTx (state : StateDb Rest) (empty : assembly.work.txs = [])
    (runs : (commitTransaction evm lib coinbase assembly (createSysTx lib state)).2.isOk) :
    Begins (createSysTx lib state)
      (countTransaction evm lib coinbase assembly (createSysTx lib state)).1.work.txs := by
  rw [txs_countTransaction, empty]
  cases res : (commitTransaction evm lib coinbase assembly (createSysTx lib state)).2 with
  | error error =>
    rw [res] at runs
    cases runs
  | ok receipt => exact ⟨[], rfl, forall_mem_nil _⟩

variable {holds : queues.Queue → Transaction → Prop} (faithful : queues.Faithful holds)

include faithful

theorem begins_commitTransactions {work : Work Rest} {txs : List queues.Queue}
    (empty : work.txs = []) (runs : (commitTransaction evm lib coinbase
      { work := work, gasPool := GasPool.addGas 0 work.header.gasLimit }
      (createSysTx lib work.state)).2.isOk)
    (plain : ∀ queue ∈ txs, ∀ tx, holds queue tx → tx.systemFlag = 0) :
    Begins (createSysTx lib work.state) (commitTransactions evm lib queues coinbase work txs).txs :=
  @foldl_commitLoop_keeps_of Rest evm lib queues coinbase
    (fun assembly => Begins (createSysTx lib work.state) assembly.work.txs)
    (fun queue => ∀ tx, holds queue tx → tx.systemFlag = 0)
    (fun res allPlain _ tx isHeld => allPlain tx (faithful.nextQueue res isHeld))
    (fun allPlain first begins => begins.countTransaction (allPlain _ (faithful.peek first)))
    txs _ plain (begins_sysTx work.state empty runs)

theorem plain_of_unflagged {pending : AList fun _ : Address => List Transaction}
    (plain : Unflagged pending) (tx : Transaction) (isHeld : holds (queues.ofPending pending) tx) :
    tx.systemFlag = 0 := by
  obtain ⟨entry, isEntry, inEntry⟩ := faithful.ofPending isHeld
  exact plain entry isEntry tx inEntry

theorem plain_ofPending {pendingH pendingL : AList fun _ : Address => List Transaction}
    (plainH : Unflagged pendingH) (plainL : Unflagged (pendingL.erase systemContractCallAddr)) :
    ∀ queue ∈ [queues.ofPending pendingH,
        queues.ofPending (pendingL.erase systemContractCallAddr)],
      ∀ tx, holds queue tx → tx.systemFlag = 0 :=
  forall_mem_cons.mpr ⟨plain_of_unflagged faithful plainH,
    forall_mem_singleton.mpr (plain_of_unflagged faithful plainL)⟩

end

def startAssembly (header : Header) (parentState : StateDb Rest) : Assembly Rest where
  work := { state := parentState, header := header }
  gasPool := GasPool.addGas 0 header.gasLimit

/-- The transactions of a work, run again from the start, lead to where the work is. -/
structure Replays (evm : Machine Rest) (lib : BlockLib) (header : Header)
    (parentState : StateDb Rest) (assembly : Assembly Rest) : Prop where
  sameHeader : assembly.work.header = { header with gasUsed := assembly.work.header.gasUsed }
  /-- The pool of the run has what failed transactions took from the worker's. -/
  replayed : ∃ extra logs, 0 ≤ extra ∧
    run (processTx evm lib (newEVMContext none header))
        (startProcessing header parentState) assembly.work.txs =
      .ok
        { progress := assembly.progress.addPool extra
          receipts := assembly.work.receipts
          logs := logs }

namespace Replays

variable {header : Header} {parentState : StateDb Rest} {assembly : Assembly Rest}

theorem commitTransaction (replays : Replays evm lib header parentState assembly)
    (tx : Transaction) :
    Replays evm lib header parentState
      (Miner.commitTransaction evm lib header.coinbase assembly tx).1 := by
  obtain ⟨sameHeader, extra, logs, nonneg, replayed⟩ := replays
  cases res : (Miner.commitTransaction evm lib header.coinbase assembly tx).2 with
  | error error =>
    obtain ⟨gasPool, gasPoolLe, committed⟩ := commitTransaction_error res
    rw [committed]
    refine ⟨sameHeader, assembly.gasPool - gasPool + extra, logs, by omega, ?_⟩
    have samePool : gasPool + (assembly.gasPool - gasPool + extra) = assembly.gasPool + extra := by
      omega
    simpa only [Progress.addPool, Assembly.progress, samePool] using replayed
  | ok receipt =>
    obtain ⟨progress, applied, committed⟩ := commitTransaction_ok res
    have sameContext : newEVMContext (some header.coinbase) assembly.work.header =
        newEVMContext none header := by
      rw [sameHeader]
      rfl
    rw [applyTransaction, sameContext] at applied
    have more := applyInContext_addPool nonneg (congrArg Prod.snd applied)
    rw [applied] at more
    rw [committed]
    refine ⟨?_, extra, logs ++ receipt.logs, nonneg, ?_⟩
    · rw [sameHeader]
    · refine (run_append_of_ok _ replayed).trans
        (run_cons_eq_ok.mpr ⟨_, processTx_eq_ok.mpr ⟨receipt, ?_, rfl⟩, ?_⟩)
      · exact congrArg Prod.snd more
      · rw [run_nil, more]
        rfl

theorem countTransaction (replays : Replays evm lib header parentState assembly)
    (tx : Transaction) :
    Replays evm lib header parentState
      (Miner.countTransaction evm lib header.coinbase assembly tx).1 := by
  have committed := replays.commitTransaction tx
  obtain ⟨tcount, counted⟩ := @countTransaction_eq Rest evm lib header.coinbase assembly tx
  rw [counted]
  exact ⟨committed.sameHeader, committed.replayed⟩

theorem start (header : Header) (parentState : StateDb Rest) (noGas : header.gasUsed = 0) :
    Replays evm lib header parentState (startAssembly header parentState) := by
  refine ⟨rfl, 0, [], le_rfl, ?_⟩
  simp only [startAssembly, run_nil, startProcessing, Progress.addPool, Assembly.progress,
    noGas, add_zero]

end Replays

/-- The system transaction succeeds on the state of the parent. -/
def SysTxSucceeds (evm : Machine Rest) (lib : BlockLib) (header : Header)
    (parentState : StateDb Rest) : Prop :=
  ∃ receipt,
    (applyInContext evm lib (newEVMContext none header)
      (startProcessing header parentState).progress (createSysTx lib parentState)).2 = .ok receipt

theorem commitTransaction_sysTx {header : Header} (noGas : header.gasUsed = 0)
    (succeeds : SysTxSucceeds evm lib header parentState) :
    (commitTransaction evm lib header.coinbase (startAssembly header parentState)
      (createSysTx lib parentState)).2.isOk := by
  obtain ⟨receipt, applied⟩ := succeeds
  have sameProgress : (startAssembly header parentState).progress =
      (startProcessing header parentState).progress := by
    simp only [Assembly.progress, startAssembly, startProcessing, noGas]
  have sameApplied : (applyTransaction evm lib (some header.coinbase)
      (startAssembly header parentState).work.header (startAssembly header parentState).progress
      (createSysTx lib parentState)).2 = .ok receipt := by
    rw [sameProgress]
    exact applied
  unfold commitTransaction
  simp only [sameApplied]
  rfl

theorem replays_commitTransactions {header : Header} {parentState : StateDb Rest}
    (noGas : header.gasUsed = 0) (txs : List queues.Queue) :
    ∃ gasPool, Replays evm lib header parentState
      { work := commitTransactions evm lib queues header.coinbase
          { state := parentState, header := header } txs
        gasPool := gasPool } :=
  ⟨_, foldl_commitLoop_keeps (fun _ tx replays => replays.countTransaction tx) txs
    ((Replays.start header parentState noGas).countTransaction _)⟩

theorem processedTxs_of_begins {block : FullBlock}
    (begins : Begins (createSysTx lib parentState) block.transactions) :
    processedTxs lib block parentState = block.transactions := by
  obtain ⟨rest, isFirst, plain⟩ := begins
  have flagged : (createSysTx lib parentState).systemFlag = systemCntEntry := rfl
  rw [processedTxs, isFirst, filter_cons_of_neg (by simp [flagged, systemCntEntry]),
    filter_eq_self.mpr fun tx mem => decide_eq_true (plain tx mem)]

/-- The block is accepted with the receipts, the gas and the state of the work. -/
def Imports (evm : Machine Rest) (lib : BlockLib) (block : FullBlock)
    (parentState : StateDb Rest) (work : Work Rest) : Prop :=
  ∃ res, process evm lib block parentState = .ok res ∧
    res.receipts = work.receipts ∧
    res.usedGas = work.header.gasUsed ∧
    res.state = work.state ∧
    validateState evm lib block res.state res.receipts res.usedGas = .ok ()

/-- If no pending transaction carries a system flag, those of the system account apart that are
without priority, the block that a worker assembles is imported exactly if the system transaction
succeeds on the state of the parent. -/
theorem mined_block_imports_iff (evm : Machine Rest) (lib : BlockLib) (queues : TxQueues)
    (holds : queues.Queue → Transaction → Prop) (faithful : queues.Faithful holds)
    (worker : Worker) (isMining : worker.mining = true) (header : Header)
    (parentState : StateDb Rest)
    (pendingH pendingL : AList fun _ : Address => List Transaction) (plainH : Unflagged pendingH)
    (plainL : Unflagged (pendingL.erase systemContractCallAddr)) (uncles : List Header)
    (nonce : BitVec 64) (mixDigest hash : Hash) :
    let mined := commitNewWork evm lib queues worker header parentState pendingH pendingL
      uncles
    let block := withSeal mined.2 nonce mixDigest hash
    Imports evm lib block parentState mined.1 ↔
      SysTxSucceeds evm lib (worker.workHeader header) parentState := by
  have sameCoinbase : (worker.workHeader header).coinbase = worker.coinbase := by
    simp [Worker.workHeader, isMining]
  intro mined block
  obtain ⟨gasPool, sameHeader, extra, logs, -, replayed⟩ :=
    @replays_commitTransactions Rest evm lib queues (worker.workHeader header) parentState
      rfl [queues.ofPending pendingH, queues.ofPending (pendingL.erase systemContractCallAddr)]
  rw [sameCoinbase] at sameHeader replayed
  change mined.1.header = _ at sameHeader
  have sameStart : startProcessing block.header parentState =
      startProcessing (worker.workHeader header) parentState := by
    change startProcessing mined.1.header parentState = _
    rw [sameHeader]
    rfl
  have sameContext : newEVMContext none block.header =
      newEVMContext none (worker.workHeader header) := by
    change newEVMContext none mined.1.header = _
    rw [sameHeader]
    simp only [newEVMContext, sameCoinbase]
  constructor
  · rintro ⟨res, processed, -⟩
    obtain ⟨processing, ran, rfl⟩ := process_eq_ok.mp processed
    rw [sameStart, sameContext] at ran
    obtain ⟨next, stepped, -⟩ := run_cons_eq_ok.mp ran
    obtain ⟨receipt, applied, -⟩ := processTx_eq_ok.mp stepped
    exact ⟨receipt, applied⟩
  · intro succeeds
    have runs := commitTransaction_sysTx rfl succeeds
    rw [sameCoinbase] at runs
    have sameTxs : processedTxs lib block parentState = block.transactions :=
      processedTxs_of_begins (@begins_commitTransactions Rest evm lib queues worker.coinbase holds
        faithful { state := parentState, header := worker.workHeader header } _ rfl runs
        (plain_ofPending faithful plainH plainL))
    rw [← sameStart, ← sameContext] at replayed
    refine ⟨_, process_eq_ok.mpr ⟨_, (congrArg _ sameTxs).trans replayed, rfl⟩, rfl, rfl, rfl, ?_⟩
    unfold validateState
    simp only [Lib.ite_error_eq_ok, not_not]
    exact ⟨rfl, rfl, rfl, rfl, trivial⟩

def idleMachine (callError : Address → Option VmError) : Machine Unit where
  env := .plain
  asMessage _ tx :=
    some
      { sender := tx.sender.getD systemContractCallAddr
        toAddress := tx.toAddress
        nonce := UInt64.ofNat tx.nonce
        gasLimit := tx.gasLimit.toNat
        gasPrice := tx.gasPrice.toNat
        value := tx.value.toNat
        data := tx.data
        system := tx.systemFlag
        hash := tx.hash }
  createAccount state _ := state
  getFlag _ _ := 0
  setFlag state _ _ := state
  getRefund _ := 0
  getLogs _ _ := []
  finalise state := state
  intermediateRoot _ := 0
  create _ _ state gas := { state := state, gasRemaining := gas }
  createSystemContract _ _ state := (state, none)
  call _ msg state gas :=
    { state := state
      gasRemaining := gas
      error := msg.toAddress.bind callError }

def countingLib : BlockLib where
  sysTxHash nonce := BitVec.ofNat 256 nonce.toNat
  createAddress addr _ := addr
  createBloom _ := []
  deriveTxSha txs := BitVec.ofNat 256 txs.length
  deriveReceiptSha receipts := BitVec.ofNat 256 receipts.length
  calcUncleHash _ := 0

def emptyState : StateDb Unit where
  balance _ := 0
  nonce _ := 0
  rest := ()

def miningHeader : Header := { easyHeader 3 2 2 with gasLimit := 100000 }

private def transferTx (sender : Address) (nonce : Nat) (nonce_lt : nonce < uint64Size)
    (systemFlag : Nat) : Transaction where
  hash := 1000
  sender := some sender
  nonce := nonce
  nonce_lt := nonce_lt
  gasLimit := 21000
  toAddress := some 8
  systemFlag := systemFlag

private def imported (evm : Machine Unit)
    (pendingH pendingL : AList fun _ : Address => List Transaction) :
    Except TransitionError (Except ValidationError Unit) :=
  let block := (commitNewWork evm countingLib .ordered { coinbase := 9, mining := true }
    miningHeader emptyState pendingH pendingL []).2
  (process evm countingLib block emptyState).map fun res =>
    validateState evm countingLib block res.state res.receipts res.usedGas

/-- A mined block is refused if it holds a flagged transaction, of an account or filed under the
system address with priority; it cannot be run if the system transaction failed. -/
theorem flagged_transaction_not_imported :
    imported (idleMachine fun _ => none) ∅
        (AList.singleton 7 [transferTx 7 0 (by decide) 1]) = .ok (.error (.receiptRoot 2 1)) ∧
      imported (idleMachine fun _ => none) (AList.singleton systemContractCallAddr
          [transferTx systemContractCallAddr 1 (by decide) 1]) ∅ =
          .ok (.error (.receiptRoot 2 1)) ∧
      imported (idleMachine fun _ => some .insufficientBalance) ∅ ∅ =
        .error .insufficientBalance := by
  decide +kernel

/-- A block with a transfer is imported. -/
theorem mined_transfer_imports :
    ∃ res,
      process (idleMachine fun _ => none) countingLib
          (withSeal (commitNewWork (idleMachine fun _ => none) countingLib .ordered
            { coinbase := 9, mining := true } miningHeader emptyState ∅
            (AList.singleton 7 [transferTx 7 0 (by decide) 0]) []).2 5 6 7) emptyState =
          .ok res ∧
        res.receipts.length = 2 := by
  obtain ⟨res, processed, sameReceipts, -⟩ :=
    (mined_block_imports_iff (idleMachine fun _ => none) countingLib .ordered
      _ TxQueues.faithful_ordered { coinbase := 9, mining := true } rfl miningHeader emptyState ∅
      (AList.singleton 7 [transferTx 7 0 (by decide) 0]) (by decide) (by decide) [] 5 6 7).mpr
      ⟨_, rfl⟩
  refine ⟨res, processed, ?_⟩
  rw [sameReceipts]
  decide +kernel

end MoacVnode.Miner
