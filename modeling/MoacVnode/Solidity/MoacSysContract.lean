import MoacVnode.Core.Types
import MoacVnode.Lib.ContractStorage
import MoacVnode.Lib.Run

/-!
# The system contract

Payments that are due at a later block.
-/

namespace MoacVnode.Solidity.MoacSysContract

open MoacVnode.Core Lib
open Function (update)

structure DelayedSendTask where
  block : Nat
  /-- The field `from`. -/
  fromAddress : Address
  /-- The field `to`. -/
  toAddress : Address
  value : Nat
  revertable : Bool
  deriving DecidableEq, Repr

structure DelayedSendTaskBonded extends DelayedSendTask where
  locked : Bool
  hashUnLock : Hash
  unlockaddr : Address
  deriving DecidableEq, Repr

def SYSCALLADDR : Address := 100

def SYSCNTADDR : Address := 101

structure Transfer where
  source : Address
  target : Address
  value : Nat
  deriving DecidableEq, Repr

structure State where
  queueToSend : Nat → List DelayedSendTask := fun _ => []
  queueToSendBonded : Nat → List DelayedSendTaskBonded := fun _ => []
  balances : Address → Nat
  transfers : List Transfer := []

def moveValue (balances : Address → Nat) (source target : Address) (value : Nat) : Address → Nat :=
  let debited := update balances source (balances source - value)
  update debited target (debited target + value)

variable (state : State)

/-- A call of precompile 12 from the system contract: `evm.Call` reads the value from the last 20
bytes of the input, moves it between the two accounts and fails if the first does not have it. -/
def delegateSend (source target : Address) (amount : Nat) : Option State :=
  let value := amount % 2 ^ 160
  if state.balances source < value then none
  else
    some
      { state with
        balances := moveValue state.balances source target value
        transfers :=
          if value = 0 then state.transfers
          else state.transfers ++ [{ source := source, target := target, value := value }] }

def DelayedSendTask.cancellableBy (sender : Address) (task : DelayedSendTask) : Bool :=
  task.fromAddress = sender ∧ task.revertable

def DelayedSendTask.clear (task : DelayedSendTask) : DelayedSendTask :=
  { task with fromAddress := 0, toAddress := 0, value := 0 }

def DelayedSendTaskBonded.clear (task : DelayedSendTaskBonded) : DelayedSendTaskBonded :=
  { task with toDelayedSendTask := task.toDelayedSendTask.clear }

variable (number : Nat)

def cancelDelayedSend (sender : Address) (blk : Nat) : State × Bool :=
  if blk ≤ number then (state, false)
  else if ((state.queueToSend blk).find? (·.cancellableBy sender)).isSome then
    let queue := updateFirst (·.cancellableBy sender) (·.clear) (state.queueToSend blk)
    ({ state with queueToSend := update state.queueToSend blk queue }, true)
  else if ((state.queueToSendBonded blk).find? (·.cancellableBy sender)).isSome then
    let queue := updateFirst (·.cancellableBy sender) (·.clear) (state.queueToSendBonded blk)
    ({ state with queueToSendBonded := update state.queueToSendBonded blk queue }, true)
  else (state, false)

/-- The tasks of one sender with one lock, of which a block takes only one. -/
def DelayedSendTaskBonded.isOf (sender : Address) (hash : Hash)
    (task : DelayedSendTaskBonded) : Bool :=
  task.fromAddress = sender ∧ task.hashUnLock = hash

/-- The gas that `GASSPENT.spendGas` takes is not modelled. -/
def delayedSendBonded (sender : Address) (msgValue blk : Nat) (target : Address) (value : Nat)
    (revertable locked : Bool) (hashlock : Hash) (unlockaddr : Address) : State × Bool :=
  if blk ≤ number then (state, false)
  else if value ≠ msgValue then (state, false)
  else if (state.queueToSendBonded blk).any (·.isOf sender hashlock) then (state, false)
  else
    let task : DelayedSendTaskBonded :=
      { block := blk
        fromAddress := sender
        toAddress := target
        value := value
        revertable := revertable
        locked := locked
        hashUnLock := hashlock
        unlockaddr := unlockaddr }
    let queue := state.queueToSendBonded blk ++ [task]
    ({ state with queueToSendBonded := update state.queueToSendBonded blk queue }, true)

def sendDelayed (tasks : List DelayedSendTask) : Option State :=
  tasks.foldlM (fun state task =>
      if task.fromAddress ≠ 0 then delegateSend state task.fromAddress task.toAddress task.value
      else some state)
    state

/-- The loop over the bonded tasks, which returns after the first one it sends. -/
def sendBonded : List DelayedSendTaskBonded → Option State
  | [] => some state
  | task :: tasks =>
    if task.fromAddress ≠ 0 then
      if task.locked then delegateSend state SYSCNTADDR task.fromAddress task.value
      else delegateSend state SYSCNTADDR task.toAddress task.value
    else sendBonded tasks

def sendTask (sender : Address) : Option State :=
  if sender ≠ SYSCALLADDR then some state
  else do
    let state ← sendDelayed state (state.queueToSend number)
    sendBonded state (state.queueToSendBonded number)

def unlockTask (msgSender : Address) (blk : Nat) (sender : Address) (hash : Hash) : State × Bool :=
  match (state.queueToSendBonded blk).find? (·.isOf sender hash) with
  | none => (state, false)
  | some task =>
    if ¬ task.locked ∨ task.unlockaddr = msgSender then
      let queue :=
        updateFirst (·.isOf sender hash) (fun task => { task with locked := false })
          (state.queueToSendBonded blk)
      ({ state with queueToSendBonded := update state.queueToSendBonded blk queue }, true)
    else (state, false)

/-- `sendTask` is called inside the contract and sees the same sender. -/
def exec (sender : Address) : Option State :=
  if sender ≠ SYSCALLADDR then some state
  else sendTask state number sender

structure Caller where
  address : Address
  nonzero : address ≠ 0
  notSystem : address ≠ SYSCALLADDR
  external : address ≠ SYSCNTADDR

inductive Call where
  | delayedSendBonded (blk : Nat) (target : Address) (value : Nat) (revertable locked : Bool)
      (hashlock : Hash) (unlockaddr : Address)
  | cancelDelayedSend (blk : Nat)
  | unlockTask (blk : Nat) (sender : Address) (hash : Hash)
  | sendTask
  | exec

def Call.payable : Call → Bool
  | .delayedSendBonded _ _ _ _ _ _ _ => true
  | _ => false

/-- The body of the called function; what reverts changes nothing. -/
def body (sender : Address) (msgValue : Nat) : Call → State
  | .delayedSendBonded blk target value revertable locked hashlock unlockaddr =>
    (delayedSendBonded state number sender msgValue blk target value revertable locked
      hashlock unlockaddr).1
  | .cancelDelayedSend blk => (cancelDelayedSend state number sender blk).1
  | .unlockTask blk owner hash => (unlockTask state sender blk owner hash).1
  | .sendTask => (sendTask state number sender).getD state
  | .exec => (exec state number sender).getD state

structure Deposit where
  sender : Address
  target : Address
  value : Nat
  deriving DecidableEq, Repr

def Call.deposits (sender : Address) (msgValue : Nat) : Call → List Deposit
  | .delayedSendBonded _ target _ _ _ _ _ =>
    if msgValue = 0 then [] else [{ sender := sender, target := target, value := msgValue }]
  | _ => []

/-- The contract in the current block, with all deposits there have been. -/
structure Chain where
  state : State
  number : Nat
  /-- The system caller has run `exec` in this block. -/
  executed : Bool := false
  received : List Deposit := []

inductive Event where
  | call (caller : Caller) (msgValue : Nat) (call : Call)
  | exec
  | nextBlock

def paidState (caller : Caller) (msgValue : Nat) : State :=
  { state with balances := moveValue state.balances caller.address SYSCNTADDR msgValue }

/-- One event.  The system caller runs `exec` once in every block. -/
def step (chain : Chain) : Event → Chain
  | .call caller msgValue call =>
    if chain.state.balances caller.address < msgValue ∨
        msgValue ≠ 0 ∧ call.payable = false then
      chain
    else
      { chain with
        state :=
          body (paidState chain.state caller msgValue) chain.number caller.address msgValue call
        received := chain.received ++ call.deposits caller.address msgValue }
  | .exec =>
    if chain.executed then chain
    else
      { chain with
        state := (exec chain.state chain.number SYSCALLADDR).getD chain.state
        executed := true }
  | .nextBlock =>
    if chain.executed then { chain with number := chain.number + 1, executed := false }
    else chain

end MoacVnode.Solidity.MoacSysContract
