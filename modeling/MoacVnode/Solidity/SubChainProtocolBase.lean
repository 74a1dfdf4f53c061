import Mathlib.Data.BitVec
import MoacVnode.Core.Types
import MoacVnode.Lib.ContractStorage
import MoacVnode.Lib.Run

/-!
# The protocol contract of the subchain servers

A subchain server (SCS) registers with a bond.  A subchain that the server
signed for approves a part of the bond for itself; it can take that part or give
it back.  Numbers are `uint256` and wrap around; a call that reverts has no
result and changes nothing.
-/

namespace MoacVnode.Solidity

open MoacVnode.Core Lib

abbrev Uint256 := BitVec 256

/-- What a contract sees of the call and of the block it is made in. -/
structure Message where
  sender : Address
  value : Uint256 := 0
  blockNumber : Uint256
  deriving DecidableEq, Repr

/-- The precompiled contracts that check a signature. -/
structure Signatures where
  /-- `sha256(scs, msg.sender)`. -/
  sha256 : Address → Address → Hash
  ecrecover : Hash → UInt8 → Hash → Hash → Address

namespace SubChainProtocolBase

inductive SCSStatus where
  | notRegistered
  | performing
  | withdrawPending
  | initialPending
  | withdrawDone
  | badActor
  deriving DecidableEq, Repr

structure SCS where
  /-- The field `from`. -/
  fromAddress : Address := 0
  bond : Uint256 := 0
  state : SCSStatus := .notRegistered
  registerBlock : Uint256 := 0
  withdrawBlock : Uint256 := 0
  deriving DecidableEq, Repr

structure SCSApproval where
  bondApproved : Uint256 := 0
  bondedCount : Nat := 0
  subchainAddr : List Address := []
  amount : List Uint256 := []
  deriving DecidableEq, Repr

structure State where
  scsList : Address → SCS := fun _ => {}
  scsApprovalList : Address → SCSApproval := fun _ => {}
  scsCount : Uint256 := 0
  bondMin : Uint256
  subChainLastActiveBlock : Address → Uint256 := fun _ => 0
  subChainExpireBlock : Address → Uint256 := fun _ => 0
  scsArray : List Address := []
  poolSize : Uint256 := 50
  owner : Address
  balance : Nat := 0

def PENDING_BLOCK_DELAY : Uint256 := 5

def WITHDRAW_BLOCK_DELAY : Uint256 := 8640

def deploy (msg : Message) (bmin : Uint256) : State := { bondMin := bmin, owner := msg.sender }

variable (base : State) (msg : Message)

/-- `to.transfer(amount)`: what the receiver does with the money is not modelled. -/
def transfer (amount : Uint256) : Option State :=
  if base.balance < amount.toNat then none
  else some { base with balance := base.balance - amount.toNat }

variable (scs : Address)

def setSCS (entry : SCS) : State := { base with scsList := Function.update base.scsList scs entry }

variable (approval : SCSApproval)

def setApproval : State :=
  { base with scsApprovalList := Function.update base.scsApprovalList scs approval }

@[simp]
theorem setApproval_scsList : (setApproval base scs approval).scsList = base.scsList := rfl

@[simp]
theorem setApproval_self : (setApproval base scs approval).scsApprovalList scs = approval :=
  Function.update_self _ _ _

def updatePoolSize (size : Uint256) : Option State :=
  if base.owner = msg.sender then some { base with poolSize := size }
  else none

def addScsId (scsId : Address) : List Address :=
  if (base.scsList scsId).state = .notRegistered then base.scsArray ++ [scsId]
  else base.scsArray

def register : Option (State × Bool) :=
  let old := base.scsList scs
  if ¬ (base.scsArray.length < base.poolSize.toNat) then none
  else if ¬ ((old.state = .notRegistered ∨ old.state = .performing) ∧
      msg.value ≥ base.bondMin * 10 ^ 18) then
    none
  else
    let scsArray := addScsId base scs
    if old.state = .notRegistered then
      let entry : SCS :=
        { fromAddress := scs
          bond := msg.value
          state := .performing
          registerBlock := msg.blockNumber + PENDING_BLOCK_DELAY
          withdrawBlock := BitVec.allOnes 256 }
      let base := { base with scsArray := scsArray, scsCount := base.scsCount + 1 }
      some (setSCS base scs entry, true)
    else
      let entry : SCS :=
        { old with fromAddress := scs, bond := old.bond + msg.value, state := .performing }
      some (setSCS { base with scsArray := scsArray } scs entry, true)

/-- The loop of `removeScsId`: `len` is the length the array had before it. -/
def removeScsIdLoop (scsId : Address) (len : Nat) : Nat → List Address → Option (List Address)
  | 0, scsArray => some scsArray
  | i + 1, scsArray => do
      if (← scsArray[i]?) = scsId then
        removeScsIdLoop scsId len i (← swapDelete 0 scsArray i (len - 1))
      else removeScsIdLoop scsId len i scsArray

def removeScsId (scsId : Address) : Option (List Address) :=
  removeScsIdLoop scsId base.scsArray.length base.scsArray.length base.scsArray

def withdrawRequest : Option (State × Bool) :=
  let old := base.scsList msg.sender
  if old.state ≠ .performing then none
  else if (base.scsApprovalList msg.sender).bondedCount ≠ 0 then none
  else do
    let entry : SCS := { old with withdrawBlock := msg.blockNumber, state := .withdrawPending }
    let scsArray ← removeScsId base msg.sender
    let base := { base with scsCount := base.scsCount - 1, scsArray := scsArray }
    return (setSCS base msg.sender entry, true)

def withdraw : Option State :=
  let old := base.scsList msg.sender
  if old.state = .withdrawPending ∧
      msg.blockNumber > old.withdrawBlock + WITHDRAW_BLOCK_DELAY then
    transfer (setSCS base msg.sender { old with state := .withdrawDone }) old.bond
  else some base

def isPerforming (blockNumber : Uint256) (scs : Address) : Bool :=
  (base.scsList scs).state = .performing ∧ (base.scsList scs).registerBlock < blockNumber

def getSelectionTarget (thousandth minnum : Uint256) : Uint256 :=
  let minnum := if minnum < 50 then 50 else minnum
  if base.scsCount < minnum then 255
  else
    let m := thousandth * base.scsCount / 1000
    let m := if m < minnum then minnum else m
    (m * 256 / base.scsCount + 1) / 2

def getSelectionTargetByCount (targetnum : Uint256) : Uint256 :=
  if targetnum = 0 then 0
  else if base.scsCount ≤ targetnum then 255
  else (targetnum * 256 / base.scsCount + 1) / 2

def setSubchainExpireBlock (blk : Uint256) : State :=
  { base with subChainExpireBlock := Function.update base.subChainExpireBlock msg.sender blk }

def setSubchainActiveBlock : State :=
  { base with
    subChainLastActiveBlock :=
      Function.update base.subChainLastActiveBlock msg.sender msg.blockNumber }

def approveBond (signatures : Signatures) (scs : Address) (amount : Uint256) (v : UInt8)
    (r s : Hash) : State × Bool :=
  let approval := base.scsApprovalList scs
  if ¬ isPerforming base msg.blockNumber scs then (base, false)
  else if signatures.ecrecover (signatures.sha256 scs msg.sender) v r s ≠ scs then (base, false)
  else if (base.scsList scs).bond < approval.bondApproved + amount then (base, false)
  else
    let approval : SCSApproval :=
      { bondApproved := approval.bondApproved + amount
        subchainAddr := approval.subchainAddr ++ [msg.sender]
        amount := approval.amount ++ [amount]
        bondedCount := approval.bondedCount + 1 }
    (setApproval base scs approval, true)

/-- Deducts an approval of `amount` and deletes entry `i` of both arrays: the
lines that `forfeitBond`, `releaseRequest` and `releaseFromSubchain` share. -/
def deleteApproval (amount : Uint256) (i : Nat) :
    Option SCSApproval := do
  let bondedCount := approval.bondedCount - 1
  let subchainAddr ← swapDelete 0 approval.subchainAddr i bondedCount
  let amounts ← swapDelete 0 approval.amount i bondedCount
  return {
    bondApproved := approval.bondApproved - amount
    bondedCount := bondedCount
    subchainAddr := subchainAddr
    amount := amounts }

/-- The condition `subchainAddr[i] == subchain && amount[i] == amount`. -/
def isApproval (subchain : Address) (amount : Uint256) (i : Nat) :
    Option Bool := do
  if (← approval.subchainAddr[i]?) = subchain then return (← approval.amount[i]?) = amount
  else return false

def forfeitBond (amount : Uint256) : Option (State × Bool) := do
  let approval := base.scsApprovalList scs
  match ← (List.range approval.bondedCount).findM? (isApproval approval msg.sender amount) with
  | none => return (base, false)
  | some i =>
    let base := setApproval base scs (← deleteApproval approval amount i)
    let old := base.scsList scs
    let base := setSCS base scs { old with bond := old.bond - amount }
    return (← transfer base amount, true)

def isInactive (subchain : Address) (i : Nat) : Option Bool := do
  return (← approval.subchainAddr[i]?) = subchain ∧
    base.subChainLastActiveBlock subchain + base.subChainExpireBlock subchain < msg.blockNumber

def releaseRequest (scs subchain : Address) : Option (State × Bool) := do
  let approval := base.scsApprovalList scs
  match ← (List.range approval.bondedCount).findM? (isInactive base msg approval subchain) with
  | none => return (base, false)
  | some i =>
    let amount ← approval.amount[i]?
    return (setApproval base scs (← deleteApproval approval amount i), true)

def releaseFromSubchain (amount : Uint256) : Option (State × Bool) := do
  let approval := base.scsApprovalList scs
  match ← (List.range approval.bondedCount).findM? (isApproval approval msg.sender amount) with
  | none => return (base, false)
  | some i => return (setApproval base scs (← deleteApproval approval amount i), true)

inductive Call where
  | updatePoolSize (size : Uint256)
  | register (scs : Address)
  | withdrawRequest
  | withdraw
  | setSubchainExpireBlock (blk : Uint256)
  | setSubchainActiveBlock
  | approveBond (scs : Address) (amount : Uint256) (v : UInt8) (r s : Hash)
  | forfeitBond (scs : Address) (amount : Uint256)
  | releaseRequest (scs subchain : Address)
  | releaseFromSubchain (scs : Address) (amount : Uint256)
  deriving DecidableEq, Repr

def Call.payable : Call → Bool
  | .register _ => true
  | .forfeitBond _ _ => true
  | _ => false

def body (signatures : Signatures) : Call → Option State
  | .updatePoolSize size => updatePoolSize base msg size
  | .register scs => (register base msg scs).map Prod.fst
  | .withdrawRequest => (withdrawRequest base msg).map Prod.fst
  | .withdraw => withdraw base msg
  | .setSubchainExpireBlock blk => some (setSubchainExpireBlock base msg blk)
  | .setSubchainActiveBlock => some (setSubchainActiveBlock base msg)
  | .approveBond scs amount v r s => some (approveBond base msg signatures scs amount v r s).1
  | .forfeitBond scs amount => (forfeitBond base msg scs amount).map Prod.fst
  | .releaseRequest scs subchain => (releaseRequest base msg scs subchain).map Prod.fst
  | .releaseFromSubchain scs amount => (releaseFromSubchain base msg scs amount).map Prod.fst

/-- The contract is paid before its code runs; all the money there is fits a `uint256`, and
a function that is not payable takes none. -/
def receive (call : Call) : Option State :=
  if msg.value ≠ 0 ∧ call.payable = false then none
  else if base.balance + msg.value.toNat < 2 ^ 256 then
    some { base with balance := base.balance + msg.value.toNat }
  else none

/-- A call as a transaction makes it: the state is kept if it reverts. -/
def perform (signatures : Signatures) (state : State) (call : Message × Call) : State :=
  ((receive state call.1 call.2).bind fun paid => body paid call.1 signatures call.2).getD state

end SubChainProtocolBase

end MoacVnode.Solidity
