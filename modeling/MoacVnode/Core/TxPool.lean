import MoacVnode.Core.BlockChain
import MoacVnode.Core.PoolContents
import MoacVnode.Core.TxPricedList

/-!
# The transaction pool

`TxPool` of `tx_pool.go`: its state, the validation of a transaction and the
operations that put single transactions into the pool or take them out.

The order in which a map is iterated and the times the clock shows are not
determined by the program.  The pool carries a stream of choices and a stream of
times from which they are drawn.  The journal, the event feeds and the messages
pushed to the relay do not act on the pool and are left out.
-/

namespace MoacVnode.Core

open Lib

/-- The account states and the managed state over them, which tracks virtual
nonces. -/
structure StateLib where
  StateDB : Type
  ManagedState : Type
  getNonce : StateDB → Address → Nat
  getBalance : StateDB → Address → Int
  manageState : StateDB → ManagedState
  managedNonce : ManagedState → Address → Nat
  setNonce : ManagedState → Address → Nat → ManagedState
  managedNonce_manageState :
    ∀ state addr, managedNonce (manageState state) addr = getNonce state addr
  managedNonce_setNonce :
    ∀ managed addr nonce, managedNonce (setNonce managed addr nonce) addr = nonce
  managedNonce_setNonce_of_ne :
    ∀ managed addr nonce other, other ≠ addr →
      managedNonce (setNonce managed addr nonce) other = managedNonce managed other

def StateLib.plain : StateLib where
  StateDB := Address → Nat × Int
  ManagedState := Address → Nat
  getNonce state addr := (state addr).1
  getBalance state addr := (state addr).2
  manageState state addr := (state addr).1
  managedNonce managed addr := managed addr
  setNonce managed addr nonce := Function.update managed addr nonce
  managedNonce_manageState _ _ := rfl
  managedNonce_setNonce managed addr nonce := Function.update_self addr nonce managed
  managedNonce_setNonce_of_ne managed _ nonce _ ne := Function.update_of_ne ne nonce managed

/-- The parameters of the chain and what the pool uses of the type library. -/
structure PoolEnv where
  types : TypesLib
  /-- `tx.UpdateNonce`, the transaction after the call. -/
  updateNonce : Transaction → Nat → Transaction
  updateNonce_sender : ∀ tx nonce, (updateNonce tx nonce).sender = tx.sender
  updateNonce_gasLimit : ∀ tx nonce, (updateNonce tx nonce).gasLimit = tx.gasLimit
  maximumTxSize : Nat
  maxChainId : Int
  minSpecGasPrice : Nat
  enableClassicTx : Nat
  isPangu : Nat → Bool
  txGas : Nat
  txGasContractCreation : Nat
  txDataNonZeroGas : Nat
  txDataZeroGas : Nat

/-- An environment in which `UpdateNonce` only sets the nonce. -/
def PoolEnv.plain : PoolEnv where
  types := .byHash
  updateNonce tx nonce :=
    { tx with nonce := nonce % uint64Size, nonce_lt := Nat.mod_lt nonce (by decide) }
  updateNonce_sender _ _ := rfl
  updateNonce_gasLimit _ _ := rfl
  maximumTxSize := 32 * 1024
  maxChainId := 100
  minSpecGasPrice := 1000000000
  enableClassicTx := 0
  isPangu _ := false
  txGas := 21000
  txGasContractCreation := 53000
  txDataNonZeroGas := 68
  txDataZeroGas := 4

/-- What the pool reads of the chain and of the network relay during a call. -/
structure PoolView (lib : StateLib) where
  currentBlock : Block
  getBlock : Hash → Nat → Option Block
  stateAt : Hash → Option lib.StateDB
  /-- `Priority` of the relay instance, if there is one. -/
  priority : Option (Address → Address → List UInt8 → Bool)

structure TxPoolConfig where
  noLocals : Bool := false
  priceLimit : Nat := 1000000000
  priceBump : Nat := 10
  accountSlots : Nat := 16
  globalSlots : Nat := 40960
  accountQueue : Nat := 64
  globalQueue : Nat := 1024
  /-- In nanoseconds. -/
  lifetime : Int := 3 * 3600 * 1000000000
  deriving DecidableEq, Repr

/-- `sanitize`, except for the journal interval. -/
def TxPoolConfig.sanitize (config : TxPoolConfig) : TxPoolConfig :=
  let defaults : TxPoolConfig := {}
  { config with
    priceLimit := if config.priceLimit < 1 then defaults.priceLimit else config.priceLimit
    priceBump := if config.priceBump < 1 then defaults.priceBump else config.priceBump }

inductive TxPoolError where
  /-- "known transaction: %x". -/
  | known (hash : Hash)
  | invalidSender
  | nonceTooLow
  | underpriced
  | replaceUnderpriced
  | insufficientFunds
  | intrinsicGas
  | gasLimit
  | negativeValue
  | oversizedData
  | classicTxFields
  | maximumChainId
  | classicTxNotEnabled
  deriving DecidableEq, Repr

structure TxPool (lib : StateLib) where
  config : TxPoolConfig
  gasPrice : Int
  currentState : lib.StateDB
  pendingState : lib.ManagedState
  currentMaxGas : Int
  locals : Finset Address := ∅
  pending : AList fun _ : Address => TxList true := ∅
  queue : AList fun _ : Address => TxList false := ∅
  /-- The time of the last heartbeat; a missing one is the zero time. -/
  beats : AList fun _ : Address => Int := ∅
  all : TxMap := ∅
  priced : TxPricedList := {}
  directCalls : AList fun _ : Address => TxList true := ∅
  pangu : Bool := false
  choices : Nat → Nat
  clock : Nat → Int

/-- The pool that `NewTxPool` returns when it found the state of the head. -/
def newTxPool {lib : StateLib} (config : TxPoolConfig) (state : lib.StateDB)
    (maxGas : Int) (choices : Nat → Nat) (clock : Nat → Int) : TxPool lib where
  config := config.sanitize
  gasPrice := config.sanitize.priceLimit
  currentState := state
  pendingState := lib.manageState state
  currentMaxGas := maxGas
  choices := choices
  clock := clock

namespace TxPool

variable {lib : StateLib}

variable (pool : TxPool lib)

def draw (used : Nat) : TxPool lib := { pool with choices := fun n => pool.choices (n + used) }

variable (addr : Address)

def setPending (list : TxList true) : TxPool lib :=
  { pool with pending := pool.pending.insert addr list }

def setQueue (list : TxList false) : TxPool lib :=
  { pool with queue := pool.queue.insert addr list }

def deletePending : TxPool lib :=
  { pool with pending := pool.pending.erase addr, beats := pool.beats.erase addr }

def deleteQueue : TxPool lib := { pool with queue := pool.queue.erase addr }

variable (hash : Hash)

def dropTx : TxPool lib :=
  { pool with
    all := pool.all.erase hash
    priced := pool.priced.removed (pool.choices 0) (pool.all.erase hash)
    choices := fun n => pool.choices (n + 1) }

variable (txs : List Transaction)

def dropAll : TxPool lib :=
  txs.foldl (fun pool tx => pool.dropTx tx.hash) pool

def dropOld (old : Option Transaction) : TxPool lib := pool.dropAll old.toList

def track (tx : Transaction) : TxPool lib :=
  { pool with all := pool.all.insert hash tx, priced := pool.priced.put tx }

def stateNonce : Nat := lib.getNonce pool.currentState addr

def balance : Int := lib.getBalance pool.currentState addr

def virtualNonce : Nat := lib.managedNonce pool.pendingState addr

def setVirtualNonce (nonce : Nat) : TxPool lib :=
  { pool with pendingState := lib.setNonce pool.pendingState addr nonce }

def lowerVirtualNonce (nonce : Nat) : TxPool lib :=
  if nonce < pool.virtualNonce addr then pool.setVirtualNonce addr nonce else pool

variable (env : PoolEnv)

def intrinsicGas (data : List UInt8) (contractCreation pangu : Bool) : Int :=
  let base := if contractCreation && pangu then env.txGasContractCreation else env.txGas
  let nonZero := data.countP (· ≠ 0)
  base + nonZero * env.txDataNonZeroGas + (data.length - nonZero) * env.txDataZeroGas

variable (view : PoolView lib)

/-- A transaction that is not local pays too little: a prioritised call needs the special price, any
other the price of the pool. -/
def pricedTooLow (pool : TxPool lib) (sender : Address) (tx : Transaction) : Bool :=
  let prioritised :=
    match view.priority, tx.toAddress with
    | some priority, some recipient =>
      4 ≤ tx.data.length && priority recipient sender (tx.data.take 4)
    | _, _ => false
  if prioritised then tx.gasPrice.natAbs % uint64Size < env.minSpecGasPrice
  else tx.gasPrice < pool.gasPrice

/-- A system transaction without a nonce gets the nonce of its sender. -/
def assignNonce (pool : TxPool lib) (sender : Address) (tx : Transaction) : Transaction :=
  if 0 < tx.systemFlag ∧ tx.nonce = 0 then env.updateNonce tx (pool.stateNonce sender)
  else tx

/-- The checks of a transaction, which is returned as it goes into the pool. -/
def validateTx (pool : TxPool lib) (tx : Transaction) (isLocal : Bool) :
    Except TxPoolError Transaction :=
  if env.maximumTxSize < tx.size then .error .oversizedData
  else if tx.value < 0 then .error .negativeValue
  else if tx.isClassic ∧ view.currentBlock.number < env.enableClassicTx then
    .error .classicTxNotEnabled
  else if tx.isClassic ∧ (tx.shardingFlag ≠ 0 ∨ tx.via ≠ none ∨ tx.systemFlag ≠ 0) then
    .error .classicTxFields
  else if env.maxChainId ≤ tx.chainId then .error .maximumChainId
  else if pool.currentMaxGas < tx.gasLimit then .error .gasLimit
  else
    match tx.sender with
    | none => .error .invalidSender
    | some sender =>
      if ¬ (isLocal ∨ sender ∈ pool.locals) ∧ pool.pricedTooLow env view sender tx then
        .error .underpriced
      else
        let numEq := pool.assignNonce env sender tx
        if numEq.nonce < pool.stateNonce sender then .error .nonceTooLow
        else if pool.balance sender < numEq.cost then .error .insufficientFunds
        else if numEq.systemFlag = 0 ∧
            numEq.gasLimit < intrinsicGas env numEq.data (numEq.toAddress = none) pool.pangu then
          .error .intrinsicGas
        else .ok numEq

theorem assignNonce_sender (pool : TxPool lib) (sender : Address) (tx : Transaction) :
    (pool.assignNonce env sender tx).sender = tx.sender := by
  unfold assignNonce
  split
  · exact env.updateNonce_sender tx _
  · rfl

theorem assignNonce_gasLimit (pool : TxPool lib) (sender : Address) (tx : Transaction) :
    (pool.assignNonce env sender tx).gasLimit = tx.gasLimit := by
  unfold assignNonce
  split
  · exact env.updateNonce_gasLimit tx _
  · rfl

structure Validated (env : PoolEnv) (pool : TxPool lib) (tx valid : Transaction) :
    Prop where
  signed : valid.sender.isSome
  sameSender : valid.sender = tx.sender
  assigned : valid = tx ∨ ∃ nonce, valid = env.updateNonce tx nonce
  unchanged : tx.systemFlag = 0 ∨ tx.nonce ≠ 0 → valid = tx
  nonce_le : pool.stateNonce valid.owner ≤ valid.nonce
  cost_le : valid.cost ≤ pool.balance valid.owner
  gas_le : valid.gasLimit ≤ pool.currentMaxGas

section

variable {env : PoolEnv} {view : PoolView lib} {pool : TxPool lib} {tx valid : Transaction}
  {isLocal : Bool}

theorem validateTx_eq_ok (ret : pool.validateTx env view tx isLocal = .ok valid) :
    Validated env pool tx valid := by
  obtain ⟨-, ret⟩ := ite_error_eq_ok.mp ret
  obtain ⟨-, ret⟩ := ite_error_eq_ok.mp ret
  obtain ⟨-, ret⟩ := ite_error_eq_ok.mp ret
  obtain ⟨-, ret⟩ := ite_error_eq_ok.mp ret
  obtain ⟨-, ret⟩ := ite_error_eq_ok.mp ret
  obtain ⟨gasWithin, ret⟩ := ite_error_eq_ok.mp ret
  cases hasSender : tx.sender with
  | none =>
    rw [hasSender] at ret
    cases ret
  | some sender =>
    rw [hasSender] at ret
    obtain ⟨-, ret⟩ := ite_error_eq_ok.mp ret
    obtain ⟨notTooLow, ret⟩ := ite_error_eq_ok.mp ret
    obtain ⟨covered, ret⟩ := ite_error_eq_ok.mp ret
    obtain ⟨-, ret⟩ := ite_error_eq_ok.mp ret
    cases ret
    have sameSender := pool.assignNonce_sender env sender tx
    have owner : (pool.assignNonce env sender tx).owner = sender := by
      rw [Transaction.owner, sameSender, hasSender, Option.getD_some]
    refine ⟨by rw [sameSender, hasSender]; rfl, sameSender, ?_, fun unnumbered => ?_, ?_, ?_, ?_⟩
    · unfold assignNonce
      split
      · exact .inr ⟨_, rfl⟩
      · exact .inl rfl
    · exact if_neg fun system => by omega
    · rw [owner]
      exact Nat.le_of_not_lt notTooLow
    · rw [owner]
      exact Int.not_lt.mp covered
    · rw [assignNonce_gasLimit]
      exact Int.not_lt.mp gasWithin

theorem validateTx_hash (keepsHash : ∀ tx nonce, (env.updateNonce tx nonce).hash = tx.hash)
    (ret : pool.validateTx env view tx isLocal = .ok valid) : valid.hash = tx.hash := by
  rcases (validateTx_eq_ok ret).assigned with rfl | ⟨nonce, rfl⟩
  · rfl
  · exact keepsHash tx nonce

end

def enqueueTx (tx : Transaction) : TxPool lib × Except TxPoolError Bool :=
  let list := (pool.queue.lookup tx.owner).getD (newTxList false)
  match list.add tx pool.config.priceBump with
  | (false, _, _) => (pool.setQueue tx.owner list, .error .replaceUnderpriced)
  | (true, old, list) => (((pool.setQueue tx.owner list).dropOld old).track hash tx, .ok old.isSome)

def enqueueAll : TxPool lib :=
  txs.foldl (fun pool tx => (pool.enqueueTx tx.hash tx).1) pool

def promoteTx (tx : Transaction) : TxPool lib :=
  let list := (pool.pending.lookup addr).getD (newTxList true)
  match list.add tx pool.config.priceBump with
  | (false, _, _) => (pool.setPending addr list).dropTx hash
  | (true, old, list) =>
    let pool := (pool.setPending addr list).dropOld old
    let pool := if (pool.all.lookup hash).isNone then pool.track hash tx else pool
    { pool.setVirtualNonce addr (next64 tx.nonce) with
      beats := pool.beats.insert addr (pool.clock 0)
      clock := fun n => pool.clock (n + 1) }

variable (tx : Transaction)

/-- Remove a transaction and what follows it from the pending list of its
sender; `none` if it is not there. -/
def removePending : Option (TxPool lib) :=
  match pool.pending.lookup tx.owner with
  | none => none
  | some list =>
    match list.remove pool.choices tx with
    | (false, _, _) => none
    | (true, invalids, list) =>
      let pool := pool.draw 2
      let pool :=
        if list.empty then pool.deletePending tx.owner
        else (pool.setPending tx.owner list).enqueueAll invalids
      some (pool.lowerVirtualNonce tx.owner tx.nonce)

def removeQueued : TxPool lib :=
  match pool.queue.lookup tx.owner with
  | none => pool
  | some list =>
    let rest := (list.remove pool.choices tx).2.2
    if rest.empty then pool.deleteQueue tx.owner else pool.setQueue tx.owner rest

def removeTx : TxPool lib :=
  match pool.all.lookup hash with
  | none => pool
  | some tx =>
    let pool := pool.dropTx hash
    (pool.removePending tx).getD (pool.removeQueued tx)

def removeAll : TxPool lib :=
  txs.foldl (fun pool tx => pool.removeTx tx.hash) pool

/-- The sum of the two global limits, on `uint64`. -/
def capacity : Nat := (pool.config.globalSlots + pool.config.globalQueue) % uint64Size

/-- How many transactions to discard to make room for one. -/
def overflow : Int := pool.all.entries.length - Int.bmod (prev64 pool.capacity) uint64Size

/-- The transactions to discard for a new one, which leave the price index; `none` if the new one is
underpriced. -/
def chooseDiscards : Option (List Transaction) × TxPool lib :=
  if pool.all.entries.length < pool.capacity then (some [], pool)
  else
    let asked := pool.priced.underpriced pool.all tx pool.locals
    if asked.1 then (none, { pool with priced := asked.2 })
    else
      let discarded := asked.2.discard pool.all pool.overflow pool.locals
      (some discarded.1, { pool with priced := discarded.2 })

def replacePending (list : TxList true) (tx : Transaction) : TxPool lib × Except TxPoolError Bool :=
  match list.add tx pool.config.priceBump with
  | (false, _, _) => (pool, .error .replaceUnderpriced)
  | (true, old, list) =>
    (((pool.setPending tx.owner list).dropOld old).track tx.hash tx, .ok old.isSome)

def enqueueNew (tx : Transaction) (isLocal : Bool) : TxPool lib × Except TxPoolError Bool :=
  match pool.enqueueTx hash tx with
  | (pool, .error error) => (pool, .error error)
  | (pool, .ok replace) =>
    (if isLocal then { pool with locals := insert tx.owner pool.locals } else pool, .ok replace)

def insertTx (tx : Transaction) (isLocal : Bool) : TxPool lib × Except TxPoolError Bool :=
  match pool.pending.lookup tx.owner with
  | none => pool.enqueueNew hash tx isLocal
  | some list =>
    if list.overlaps tx then pool.replacePending list tx
    else pool.enqueueNew hash tx isLocal

/-- Validate a transaction, make room for it and insert it; the flag says
whether it replaced another one. -/
def add (pool : TxPool lib) (tx : Transaction) (isLocal : Bool) :
    TxPool lib × Except TxPoolError Bool :=
  if (pool.all.lookup tx.hash).isSome then (pool, .error (.known tx.hash))
  else
    match pool.validateTx env view tx isLocal with
    | .error error => (pool, .error error)
    | .ok valid =>
      match pool.chooseDiscards valid with
      | (none, pool) => (pool, .error .underpriced)
      | (some drop, pool) => (pool.removeAll drop).insertTx tx.hash valid isLocal

/-- The transactions that `add` discards and the pool it removes them from. -/
def discards (pool : TxPool lib) (tx : Transaction) (isLocal : Bool) :
    List Transaction × TxPool lib :=
  if (pool.all.lookup tx.hash).isSome then ([], pool)
  else
    match pool.validateTx env view tx isLocal with
    | .error _ => ([], pool)
    | .ok valid =>
      match pool.chooseDiscards valid with
      | (none, pool) => ([], pool)
      | (some drop, pool) => (drop, pool)

def manageDirectCall : TxPool lib :=
  let list := (pool.directCalls.lookup addr).getD (newTxList true)
  { pool with directCalls := pool.directCalls.insert addr (list.add tx 0).2.2 }

end TxPool

end MoacVnode.Core
