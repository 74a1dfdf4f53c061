import MoacVnode.Core.StateTransition
import MoacVnode.Consensus.Ethash.Rewards

/-!
# Processing a block

`Process` runs the transactions of a block on the state of its parent.  It drops every transaction
that carries a system flag and puts a system transaction of its own in front.
-/

namespace MoacVnode.Core

open Lib Consensus.Ethash MoacVnode.Core.StateTransition

variable {tx : Transaction}

def systemCntEntry : Nat := 101

def systemContractCallAddr : Address := 100

def systemContractEntryAddrV1 : Address := 101

def sysCallGasPrice : Nat := 20000000000

structure Receipt where
  failed : Bool
  cumulativeGasUsed : Int
  txHash : Hash
  gasUsed : Int
  contractAddress : Address
  logs : List Log
  bloom : List UInt8
  deriving DecidableEq, Repr

/-- What the type library computes from transactions, receipts and uncles. -/
structure BlockLib where
  /-- The hash of the system transaction with a nonce. -/
  sysTxHash : UInt64 → Hash
  createAddress : Address → Nat → Address
  /-- The bloom filter over the logs of some receipts. -/
  createBloom : List (List Log) → List UInt8
  deriveTxSha : List Transaction → Hash
  deriveReceiptSha : List Receipt → Hash
  calcUncleHash : List Header → Hash

def createSysTx {Rest : Type} (lib : BlockLib) (state : StateDb Rest) : Transaction :=
  let nonce := state.nonce systemContractCallAddr
  { hash := lib.sysTxHash nonce
    nonce := nonce.toNat
    nonce_lt := nonce.toNat_lt
    toAddress := some systemContractEntryAddrV1
    gasPrice := sysCallGasPrice
    -- `EXEC`
    data := [0xc1, 0xc0, 0xe9, 0xc4]
    systemFlag := systemCntEntry }

/-- `NewEVMContext`; the author of an ethash header is its coinbase. -/
def newEVMContext (author : Option Address) (header : Header) : BlockContext where
  coinbase := author.getD header.coinbase
  parentHash := header.parentHash
  number := header.number
  time := header.time
  difficulty := header.difficulty
  gasLimit := header.gasLimit

structure Progress (Rest : Type) where
  gasPool : Int
  state : StateDb Rest
  usedGas : Int := 0

section

variable {Rest : Type} (evm : Machine Rest) (lib : BlockLib)

variable (ctx : BlockContext)

def messageOf (tx : Transaction) (state : StateDb Rest) : Option Message :=
  (evm.asMessage ctx.number tx).map fun msg =>
    { msg with
      shardFlag :=
        match msg.toAddress with
        | none => 0
        | some recipient => evm.getFlag state recipient }

def makeReceipt (tx : Transaction) (msg : Message) (state : StateDb Rest) (usedGas : Int)
    (res : TransitionResult) : StateDb Rest × Receipt :=
  let contractAddress :=
    match msg.toAddress with
    | none => lib.createAddress msg.sender tx.nonce
    | some recipient => recipient
  let flagged :=
    if msg.toAddress = none then evm.setFlag state contractAddress tx.shardingFlag
    else state
  let logs := evm.getLogs flagged tx.hash
  (flagged,
    { failed := res.failed
      cumulativeGasUsed := usedGas
      txHash := tx.hash
      gasUsed := res.usedGas
      contractAddress := contractAddress
      logs := logs
      bloom := lib.createBloom [logs] })

def applyInContext (progress : Progress Rest) (tx : Transaction) :
    Progress Rest × Except TransitionError Receipt :=
  match messageOf evm ctx tx progress.state with
  | none => (progress, .error .invalidSender)
  | some msg =>
    let start : StateTransition Rest := { gasPool := progress.gasPool, state := progress.state }
    let applied := start.transitionDb evm ctx msg
    match applied.2 with
    | .error error =>
      ({ progress with gasPool := applied.1.gasPool, state := applied.1.state }, .error error)
    | .ok res =>
      let usedGas := progress.usedGas + res.usedGas
      let made := makeReceipt evm lib tx msg (evm.finalise applied.1.state)
        usedGas res
      ({ gasPool := applied.1.gasPool, state := made.1, usedGas := usedGas }, .ok made.2)

def applyTransaction (author : Option Address) (header : Header) (progress : Progress Rest)
    (tx : Transaction) : Progress Rest × Except TransitionError Receipt :=
  applyInContext evm lib (newEVMContext author header) progress tx

def newBlock (header : Header) (txs : List Transaction) (uncles : List Header)
    (receipts : List Receipt) : FullBlock where
  header :=
    { header with
      txHash := lib.deriveTxSha txs
      receiptHash := lib.deriveReceiptSha receipts
      bloom := lib.createBloom (receipts.map Receipt.logs)
      uncleHash := lib.calcUncleHash uncles }
  transactions := txs
  uncles := uncles

/-- `Finalize` of the ethash engine: the state with the rewards, and the block. -/
def finalize (header : Header) (state : StateDb Rest) (txs : List Transaction)
    (uncles : List Header) (receipts : List Receipt) : StateDb Rest × FullBlock :=
  let rewarded := { state with balance := accumulateRewards state.balance header uncles }
  (rewarded, newBlock lib { header with root := evm.intermediateRoot rewarded } txs uncles receipts)

structure Processing (Rest : Type) where
  progress : Progress Rest
  receipts : List Receipt := []
  logs : List Log := []

def processTx (processing : Processing Rest) (tx : Transaction) :
    Except TransitionError (Processing Rest) :=
  match applyInContext evm lib ctx processing.progress tx with
  | (_, .error error) => .error error
  | (progress, .ok receipt) =>
    .ok
      { progress := progress
        receipts := processing.receipts ++ [receipt]
        logs := processing.logs ++ receipt.logs }

structure ProcessResult (Rest : Type) where
  receipts : List Receipt
  logs : List Log
  usedGas : Int
  state : StateDb Rest

/-- The state in which `Process` and the worker start. -/
def startProcessing (header : Header) (state : StateDb Rest) : Processing Rest where
  progress := { gasPool := GasPool.addGas 0 header.gasLimit, state := state }

def processedTxs (block : FullBlock) (state : StateDb Rest) : List Transaction :=
  createSysTx lib state :: block.transactions.filter fun tx => tx.systemFlag = 0

def process (block : FullBlock) (state : StateDb Rest) :
    Except TransitionError (ProcessResult Rest) :=
  let txs := processedTxs lib block state
  match run (processTx evm lib (newEVMContext none block.header))
      (startProcessing block.header state) txs with
  | .error error => .error error
  | .ok processing =>
    .ok
      { receipts := processing.receipts
        logs := processing.logs
        usedGas := processing.progress.usedGas
        state :=
          (finalize evm lib block.header processing.progress.state txs block.uncles
            processing.receipts).1 }

inductive ValidationError where
  /-- `invalid gasRemaining used (remote: %v local: %v)`. -/
  | gasUsed (remote computed : Int)
  /-- `invalid bloom (remote: %x  local: %x)`. -/
  | bloom (remote computed : List UInt8)
  /-- `invalid receipt root hash (remote: %x local: %x)`. -/
  | receiptRoot (remote computed : Hash)
  /-- `invalid merkle root (remote: %x local: %x)`. -/
  | merkleRoot (remote computed : Hash)
  deriving DecidableEq, Repr

def validateState (block : FullBlock) (state : StateDb Rest) (receipts : List Receipt)
    (usedGas : Int) : Except ValidationError Unit :=
  let header := block.header
  let bloom := lib.createBloom (receipts.map Receipt.logs)
  let receiptSha := lib.deriveReceiptSha receipts
  let root := evm.intermediateRoot state
  if header.gasUsed ≠ usedGas then .error (.gasUsed header.gasUsed usedGas)
  else if header.bloom ≠ bloom then .error (.bloom header.bloom bloom)
  else if header.receiptHash ≠ receiptSha then .error (.receiptRoot header.receiptHash receiptSha)
  else if header.root ≠ root then .error (.merkleRoot header.root root)
  else .ok ()

end

variable {Rest : Type} {evm : Machine Rest} {lib : BlockLib} {ctx : BlockContext}

namespace Progress

def addPool (progress : Progress Rest) (extra : Int) : Progress Rest :=
  { progress with gasPool := progress.gasPool + extra }

end Progress

theorem applyInContext_addPool {progress : Progress Rest} {receipt : Receipt} {extra : Int}
    (nonneg : 0 ≤ extra) (succeeds : (applyInContext evm lib ctx progress tx).2 = .ok receipt) :
    applyInContext evm lib ctx (progress.addPool extra) tx =
      ((applyInContext evm lib ctx progress tx).1.addPool extra, .ok receipt) := by
  unfold applyInContext at *
  simp only [Progress.addPool]
  cases got : messageOf evm ctx tx progress.state with
  | none =>
    rw [got] at succeeds
    cases succeeds
  | some msg =>
    simp only [got] at succeeds ⊢
    have more := @transitionDb_addPool Rest evm ctx msg
      { gasPool := progress.gasPool, state := progress.state } extra
    cases applied : (transitionDb evm ctx msg
        { gasPool := progress.gasPool, state := progress.state }).2 with
    | error error =>
      simp only [applied] at succeeds
      cases succeeds
    | ok res =>
      have moreApplied := more nonneg applied
      simp only [addPool] at moreApplied
      simp only [applied, moreApplied] at succeeds ⊢
      rw [succeeds]

theorem applyInContext_error {progress : Progress Rest} {error : TransitionError}
    (fails : (applyInContext evm lib ctx progress tx).2 = .error error) :
    (applyInContext evm lib ctx progress tx).1.gasPool ≤ progress.gasPool ∧
      (applyInContext evm lib ctx progress tx).1.usedGas = progress.usedGas := by
  unfold applyInContext at *
  cases got : messageOf evm ctx tx progress.state with
  | none => exact ⟨le_rfl, rfl⟩
  | some msg =>
    simp only [got] at fails ⊢
    cases applied : (transitionDb evm ctx msg
        { gasPool := progress.gasPool, state := progress.state }).2 with
    | error error =>
      simp only [and_true]
      rw [gasPool_transitionDb_eq_preCheck applied]
      rcases preCheck_cases evm msg _ with ⟨-, -, same⟩ | checked
      · exact same.le
      · rw [preCheck_of_checked checked]
        exact Int.sub_le_self _ (Int.natCast_nonneg _)
    | ok res =>
      simp only [applied] at fails
      cases fails

theorem processTx_eq_ok {processing next : Processing Rest} :
    processTx evm lib ctx processing tx = .ok next ↔
      ∃ receipt,
        (applyInContext evm lib ctx processing.progress tx).2 = .ok receipt ∧
          next =
            { progress := (applyInContext evm lib ctx processing.progress tx).1
              receipts := processing.receipts ++ [receipt]
              logs := processing.logs ++ receipt.logs } := by
  unfold processTx
  rcases applyInContext evm lib ctx processing.progress tx with ⟨progress, error | receipt⟩
  · simp
  · simp [eq_comm]

theorem process_eq_ok {block : FullBlock} {state : StateDb Rest} {res : ProcessResult Rest} :
    process evm lib block state = .ok res ↔
      ∃ processing,
        run (processTx evm lib (newEVMContext none block.header))
            (startProcessing block.header state) (processedTxs lib block state) = .ok processing ∧
          res =
            { receipts := processing.receipts
              logs := processing.logs
              usedGas := processing.progress.usedGas
              state :=
                (finalize evm lib block.header processing.progress.state
                  (processedTxs lib block state) block.uncles processing.receipts).1 } := by
  unfold process
  cases ran : run (processTx evm lib (newEVMContext none block.header))
      (startProcessing block.header state) (processedTxs lib block state) with
  | error error => simp [ran]
  | ok processing => simp [ran, eq_comm]

end MoacVnode.Core
