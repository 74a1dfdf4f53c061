import MoacVnode.Solidity.SubChainProtocolBase

/-!
# The contract of a subchain

The nodes of a subchain are listed in `nodeList`.  They take turns in proposing
a new state, vote on the proposal by their position in the list, and settle it
in two calls: `requestProposalAction` punishes, removes and adds nodes, and
`requestDistributeAction` pays the rewards.

The state includes the protocol contract, which holds the bonds of the nodes.
The token functions are in `HoldingPool` (`BALANCE` is 0 here); the notifications
through `SCS_RELAY`, which change no storage, are not modelled.
-/

namespace MoacVnode.Solidity.SubChainBase

open MoacVnode.Core Lib
open Function (update)

inductive ProposalFlag where
  | noState
  | pending
  | disputed
  | approved
  | rejected
  | expired
  | pendingAccept
  deriving DecidableEq, Repr

inductive ProposalCheckStatus where
  | undecided
  | approval
  | expired
  deriving DecidableEq, Repr

inductive SubChainStatus where
  | open
  | pending
  | close
  deriving DecidableEq, Repr

structure Proposal where
  proposedBy : Address := 0
  lastApproved : Hash := 0
  hash : Hash := 0
  start : Uint256 := 0
  /-- The field `end`. -/
  endBlock : Uint256 := 0
  distributionAmount : List Uint256 := []
  flag : ProposalFlag := .noState
  startingBlock : Uint256 := 0
  /-- Positions in `nodeList`. -/
  voters : List Nat := []
  votecount : Nat := 0
  badActors : List Nat := []
  viaNodeAddress : Address := 0
  redeemAddr : List Address := []
  redeemAmt : List Uint256 := []
  minerAddr : List Address := []
  distributeFlag : Nat := 0
  redeemAgreeList : List Address := []
  deriving DecidableEq, Repr

structure MonitorInfo where
  /-- The field `from`. -/
  fromAddress : Address
  bond : Uint256
  deriving DecidableEq, Repr

/-- The calls to the protocol contract that concern the bond of one node. -/
inductive ProtocolCall where
  | forfeitBond (scs : Address)
  | releaseFromSubchain (scs : Address)
  deriving DecidableEq, Repr

structure State where
  protocol : SubChainProtocolBase.State
  calls : List ProtocolCall := []
  balance : Nat := 0
  minMember : Nat
  maxMember : Nat
  selTarget : Uint256
  flushInRound : Uint256
  proposalHashInProgress : Hash := 0
  proposalHashApprovedLast : Hash := 0
  curFlushIndex : Nat := 0
  pendingFlushIndex : Nat := 0
  lastFlushBlk : Uint256 := BitVec.allOnes 256
  owner : Address
  nodeCount : Nat := 0
  nodeList : List Address := []
  randIndex : Nat × Nat := (0, 1)
  nodePerformance : Address → Nat := fun _ => 0
  proposals : Hash → Proposal := fun _ => {}
  currentRefundGas : Address → Uint256 := fun _ => 0
  registerFlag : Nat := 0
  scsBeneficiary : Address → Address := fun _ => 0
  blockReward : Uint256 := 5 * 10 ^ 14
  txReward : Uint256 := 10 ^ 11
  viaReward : Uint256 := 10 ^ 16
  syncReward : Uint256 := 10 ^ 11
  nodeToReleaseCount : Nat := 0
  nodesToRelease : List Nat := List.replicate 5 0
  nodesToDispel : List Nat := []
  nodesToJoin : List Address := []
  joinCntMax : Nat := 0
  joinCntNow : Nat := 0
  nodesWatching : Address → Uint256 := fun _ => 0
  monitors : List MonitorInfo := []
  subchainstatus : SubChainStatus := .open
  contractNeedFund : Uint256 := 0
  dappRedeemPos : Uint256 := 0
  max_redeem_microchain : Uint256 := 80

/-! The public variables that no function writes. -/

def proposalExpiration : Uint256 := 12

def penaltyBond : Uint256 := 10 ^ 18

def NODE_INIT_PERFORMANCE : Nat := 5

def MAX_DELETE_NUM : Nat := 5

def MAX_GAS_PRICE : Uint256 := 20 * 10 ^ 9

def MONITOR_MIN_FEE : Uint256 := 10 ^ 12

def DEFLATOR_VALUE : Uint256 := 80

/-- The address of the contract and the precompiled contracts. -/
structure Env where
  this : Address
  signatures : Signatures
  /-- The first two bytes of `sha256(hash, block.number)`. -/
  randSeed : Hash → Uint256 → UInt8 × UInt8
  /-- Set by the constructor. -/
  VnodeProtocolBaseAddr : Address := 0

structure Tx where
  sender : Address
  nonzero : sender ≠ 0
  value : Uint256 := 0
  blockNumber : Nat
  blockNumber_lt : blockNumber < uint64Size
  gasPrice : Uint256 := 0
  /-- `gasinit - msg.gas`. -/
  gasSpent : Uint256 := 0

def Tx.number (tx : Tx) : Uint256 := BitVec.ofNat 256 tx.blockNumber

variable (env : Env) (tx : Tx) (base : State)

def transfer (amount : Uint256) : Option State :=
  if base.balance < amount.toNat then none
  else some { base with balance := base.balance - amount.toNat }

/-- The message of a call that the contract makes. -/
def innerMessage : Message := { sender := env.this, blockNumber := tx.number }

/-- `protocnt.forfeitBond(scs, penaltyBond)`, which pays the bond to the contract. -/
def forfeitBond (scs : Address) : Option State := do
  let (protocol, paid) ←
    SubChainProtocolBase.forfeitBond base.protocol (innerMessage env tx) scs penaltyBond
  return { base with
    protocol := protocol
    balance := base.balance + if paid then penaltyBond.toNat else 0
    calls := base.calls ++ [.forfeitBond scs] }

def releaseFromSubchain (scs : Address) : Option State := do
  let (protocol, _) ←
    SubChainProtocolBase.releaseFromSubchain base.protocol (innerMessage env tx) scs penaltyBond
  return { base with
    protocol := protocol
    calls := base.calls ++ [.releaseFromSubchain scs] }

def isPerforming (scs : Address) : Bool :=
  SubChainProtocolBase.isPerforming base.protocol tx.number scs

def isMemberValid (addr : Address) : Bool := 0 < base.nodePerformance addr

def isSCSValid (addr : Address) : Bool := isMemberValid base addr ∧ isPerforming tx base addr

def getindexByte (a : Address) (randIndex1 randIndex2 : Nat) : Nat :=
  let first := a.toNat / 2 ^ (4 * (39 - randIndex1)) * 2 ^ 4 % 256
  let second := a.toNat / 2 ^ (4 * (39 - randIndex2)) * 2 ^ 4 % 256 / 2 ^ 4
  (first + second) % 256

/-- The branch for `cont0 - selTarget < 0` is missing: the difference is unsigned. -/
def matchSelTarget (addr : Address) (index1 index2 : Nat) : Bool :=
  let addr0 := getindexByte addr index1 index2
  let cont0 := getindexByte env.this index1 index2
  let selTarget := base.selTarget.toNat
  if selTarget = 255 then true
  else if addr0 ≥ cont0 then addr0 - cont0 ≤ selTarget
  else if cont0 - addr0 ≤ selTarget then true
  else cont0 + selTarget ≥ 256 ∧ cont0 - addr0 ≥ 256 - selTarget

def isSelected (scs : Address) : Bool :=
  matchSelTarget env base scs base.randIndex.1 base.randIndex.2

def getSCSRole (scs : Address) : Nat :=
  if scs ∈ base.nodeList then 1
  else if base.nodesWatching scs ≥ 10 ^ 9 then 2
  else if scs ∈ base.nodesToJoin then 3
  else if isPerforming tx base scs ∧ isSelected env base scs then 4
  else 0

def registerAsMonitor (monitor : Address) : Option (State × Bool) :=
  if base.subchainstatus ≠ .open ∨ tx.value < MONITOR_MIN_FEE ∨
      base.nodesWatching monitor ≠ 0 ∨ monitor = 0 ∨
      ¬ (getSCSRole env tx base monitor = 4 ∨ getSCSRole env tx base monitor = 0) then
    none
  else
    some
      ({ base with
          nodesWatching := update base.nodesWatching monitor tx.value
          monitors := base.monitors ++ [{ fromAddress := monitor, bond := tx.value }] }, true)

/-- The loop of `removeMonitorInfo`: `cnt` is the length the array had before it. -/
def removeMonitorLoop (monitor : Address) (cnt : Nat) : Nat → State → Option State
  | 0, base => some base
  | i + 1, base => do
      let info ← base.monitors[i]?
      if info.fromAddress = monitor then
        let base ← transfer base info.bond
        let monitors ← swapDelete { fromAddress := 0, bond := 0 } base.monitors i (cnt - 1)
        let nodesWatching := update base.nodesWatching monitor 0
        removeMonitorLoop monitor cnt i
          { base with monitors := monitors, nodesWatching := nodesWatching }
      else removeMonitorLoop monitor cnt i base

def removeMonitorInfo (monitor : Address) : Option (State × Bool) := do
  return (← removeMonitorLoop monitor base.monitors.length base.monitors.length base, true)

/-- The loop that looks for the sender among the first `count` entries of a list. -/
def isListed (list : List Address) (count : Nat) : Option Bool := do
  let got ← (List.range count).findM? fun i => do return (← list[i]?) = tx.sender
  return got.isSome

def setBeneficiary (beneficiary : Address) : Address → Address :=
  update base.scsBeneficiary tx.sender (if beneficiary = 0 then tx.sender else beneficiary)

def approveBond (v : UInt8) (r s : Hash) : SubChainProtocolBase.State × Bool :=
  SubChainProtocolBase.approveBond base.protocol (innerMessage env tx) env.signatures tx.sender
    penaltyBond v r s

def registerAsSCS (beneficiary : Address) (v : UInt8) (r s : Hash) : Option (State × Bool) :=
  if base.subchainstatus ≠ .open ∨ getSCSRole env tx base tx.sender ≠ 4 then none
  else if base.registerFlag ≠ 1 then some (base, false)
  else if isPerforming tx base tx.sender = false then some (base, false)
  else if isSelected env base tx.sender = false then some (base, false)
  else if base.nodeCount > base.maxMember then some (base, false)
  else do
    if ← isListed tx base.nodeList base.nodeCount then return (base, false)
    let (protocol, approved) := approveBond env tx base v r s
    if approved = false then return ({ base with protocol := protocol }, false)
    return ({ base with
      protocol := protocol
      nodeList := base.nodeList ++ [tx.sender]
      nodeCount := base.nodeCount + 1
      nodePerformance := update base.nodePerformance tx.sender NODE_INIT_PERFORMANCE
      scsBeneficiary := setBeneficiary tx base beneficiary }, true)

def registerAsBackup (beneficiary : Address) (v : UInt8) (r s : Hash) : Option (State × Bool) :=
  if base.subchainstatus ≠ .open ∨ getSCSRole env tx base tx.sender ≠ 4 then none
  else if base.registerFlag ≠ 2 then some (base, false)
  else if isPerforming tx base tx.sender = false then some (base, false)
  else if isSelected env base tx.sender = false then some (base, false)
  else if base.joinCntNow ≥ base.joinCntMax then some (base, false)
  else do
    if ← isListed tx base.nodeList base.nodeCount then return (base, false)
    if tx.sender ∈ base.nodesToJoin then return (base, false)
    let (protocol, approved) := approveBond env tx base v r s
    if approved = false then return ({ base with protocol := protocol }, false)
    return ({ base with
      protocol := protocol
      nodesToJoin := base.nodesToJoin ++ [tx.sender]
      joinCntNow := base.joinCntNow + 1
      nodePerformance := update base.nodePerformance tx.sender 0
      scsBeneficiary := setBeneficiary tx base beneficiary }, true)

def BackupUpToDate (index : Nat) : Option (State × Bool) :=
  if base.registerFlag ≠ 2 ∨ base.nodesToJoin[index]? ≠ some tx.sender then none
  else
    some
      ({ base with
          nodePerformance := update base.nodePerformance tx.sender NODE_INIT_PERFORMANCE }, true)

/-- The requests for a release, `nodesToRelease[0]` to `nodesToRelease[count - 1]`. -/
def requested : Option (List Nat) :=
  (List.range base.nodeToReleaseCount).mapM fun i => base.nodesToRelease[i]?

def requestRelease (index : Nat) : Option (State × Bool) :=
  if base.nodeList[index]? ≠ some tx.sender then none
  else if base.nodeToReleaseCount ≥ 5 then some (base, false)
  else do
    if index ∈ (← requested base) then return (base, false)
    return ({ base with
      nodesToRelease := base.nodesToRelease.set base.nodeToReleaseCount index
      nodeToReleaseCount := base.nodeToReleaseCount + 1 }, true)

def registerOpen : Option (State × Bool) :=
  if base.subchainstatus ≠ .open ∨ tx.sender ≠ base.owner then none
  else some ({ base with registerFlag := 1 }, true)

/-- The loop that releases the nodes from position `i - 1` down and clears their entries;
the array keeps its length. -/
def releaseNodes : Nat → State → Option State
  | 0, base => some base
  | i + 1, base => do
      let cur ← base.nodeList[i]?
      let base ← releaseFromSubchain env tx base cur
      releaseNodes i { base with nodeList := base.nodeList.set i 0 }

def registerClose : Option (State × Bool) :=
  if base.subchainstatus ≠ .open ∨ tx.sender ≠ base.owner then none
  else
    let base := { base with registerFlag := 0 }
    if base.nodeCount < base.minMember then do
      let base ← releaseNodes env tx base.nodeCount base
      return ({ base with nodeCount := 0 }, false)
    else some ({ base with lastFlushBlk := tx.number, curFlushIndex := 0 }, true)

def registerAdd (nodeToAdd : Uint256) : Option (State × Bool) :=
  if base.subchainstatus ≠ .open ∨ tx.sender ≠ base.owner then none
  else
    some
      ({ base with
          registerFlag := 2
          joinCntMax := nodeToAdd.toNat
          joinCntNow := base.nodesToJoin.length
          selTarget :=
            SubChainProtocolBase.getSelectionTargetByCount base.protocol nodeToAdd }, true)

def getEstFlushBlock (index : Nat) : Uint256 :=
  let blk := base.lastFlushBlk + base.flushInRound
  let turns : Uint256 :=
    if index ≥ base.curFlushIndex then BitVec.ofNat 256 (index - base.curFlushIndex)
    else BitVec.ofNat 256 (index + base.nodeCount) - BitVec.ofNat 256 base.curFlushIndex
  blk + turns * 2 * proposalExpiration

def lowerPerformance (node : Address) : Address → Nat :=
  update base.nodePerformance node (base.nodePerformance node - 1)

def expire (hash : Hash) : State :=
  let prop := base.proposals hash
  { base with
    proposals := update base.proposals hash { prop with flag := .expired }
    nodePerformance := lowerPerformance base prop.proposedBy }

/-- What `createProposal` does with a proposal that is still in progress. -/
def expireInProgress : State :=
  if (base.proposals base.proposalHashInProgress).flag = .pending then
    expire base base.proposalHashInProgress
  else base

/-- The gas that the caller is refunded. -/
def refundGas (gas : Uint256) : Uint256 := (tx.gasSpent + gas) * tx.gasPrice

structure ProposalArgs where
  hashlist : List Hash
  blocknum : List Uint256
  distAmount : List Uint256
  badactors : List Nat
  viaNodeAddress : Address
  redeemAddr : List Address
  redeemAmt : List Uint256

variable (indexInlist : Nat)

def isNodeAt : Bool := indexInlist < base.nodeCount ∧ base.nodeList[indexInlist]? = some tx.sender

def storedProposal (args : ProposalArgs) (curhash : Hash) (start endBlock : Uint256) : Proposal :=
  let prop := base.proposals curhash
  { proposedBy := tx.sender
    lastApproved := base.proposalHashApprovedLast
    hash := curhash
    start := start
    endBlock := endBlock
    distributionAmount := prop.distributionAmount ++ args.distAmount
    flag := .pending
    startingBlock := tx.number
    voters := prop.voters ++ [indexInlist]
    votecount := prop.votecount + 1
    badActors := prop.badActors ++ args.badactors
    viaNodeAddress := args.viaNodeAddress
    redeemAddr := prop.redeemAddr ++ args.redeemAddr
    redeemAmt := prop.redeemAmt ++ args.redeemAmt.take args.redeemAddr.length
    minerAddr := prop.minerAddr ++ base.nodeList.take base.nodeCount
    distributeFlag := 0
    redeemAgreeList := prop.redeemAgreeList ++ [tx.sender] }

def createProposal (args : ProposalArgs) : Option (State × Bool) :=
  let est := getEstFlushBlock base indexInlist
  if isNodeAt tx base indexInlist = false ∨
      ¬ (tx.number ≥ est ∧ tx.number < est + 2 * proposalExpiration) ∨
      args.distAmount.length ≠ base.nodeCount ∨
      ¬ (args.badactors.length < base.nodeCount / 2) ∨
      tx.gasPrice > MAX_GAS_PRICE ∨
      base.contractNeedFund.toNat ≥ base.balance then
    none
  else do
    let base := expireInProgress base
    if (← args.hashlist[0]?) ≠ base.proposalHashApprovedLast then return (base, false)
    if isSCSValid tx base tx.sender = false then return (base, false)
    let curhash ← args.hashlist[1]?
    if (base.proposals curhash).flag ≠ .noState then return (base, false)
    let start ← args.blocknum[0]?
    let endBlock ← args.blocknum[1]?
    if base.nodeList.length < base.nodeCount ∨ args.redeemAmt.length < args.redeemAddr.length then
      none
    else
      let prop := storedProposal tx base indexInlist args curhash start endBlock
      let refund := base.currentRefundGas tx.sender + refundGas tx 21486
      return ({ base with
        proposals := update base.proposals curhash prop
        proposalHashInProgress := curhash
        pendingFlushIndex := indexInlist
        currentRefundGas := update base.currentRefundGas tx.sender refund }, true)

variable (prop : Proposal)

def votes : Option (List Nat) := (List.range prop.votecount).mapM fun i => prop.voters[i]?

def isLate : Bool := prop.startingBlock + 2 * proposalExpiration < tx.number

def voteOnProposal (hash : Hash) (erc : Bool) : Option (State × Bool) :=
  let prop := base.proposals hash
  if isNodeAt tx base indexInlist = false ∨ tx.gasPrice > MAX_GAS_PRICE then none
  else if isSCSValid tx base tx.sender = false then some (base, false)
  else if prop.flag ≠ .pending then some (base, false)
  else if isLate tx prop then some (base, false)
  else do
    if indexInlist ∈ (← votes prop) then return (base, false)
    let prop :=
      { prop with
        redeemAgreeList := if erc then prop.redeemAgreeList ++ [tx.sender] else prop.redeemAgreeList
        voters := prop.voters ++ [indexInlist]
        votecount := prop.votecount + 1 }
    let refund := base.currentRefundGas tx.sender + refundGas tx 21486
    return ({ base with
      proposals := update base.proposals hash prop
      currentRefundGas := update base.currentRefundGas tx.sender refund }, true)

def checkProposalStatus (hash : Hash) : ProposalCheckStatus :=
  if isLate tx (base.proposals hash) then .expired
  else if (base.proposals hash).votecount * 2 > base.nodeCount then .approval
  else .undecided

def markDispelled : List Nat → List Bool → Option (List Bool)
  | [], nodeMark => some nodeMark
  | idx :: rest, nodeMark =>
    if idx < nodeMark.length then markDispelled rest (nodeMark.set idx true)
    else none

def markReleased : List Nat → List Bool → State → Option (List Bool × State)
  | [], nodeMark, base => some (nodeMark, base)
  | idx :: rest, nodeMark, base => do
      if ← nodeMark[idx]? then markReleased rest nodeMark base
      else
        let cur ← base.nodeList[idx]?
        let base ← releaseFromSubchain env tx base cur
        markReleased rest (nodeMark.set idx true) base

def removeMarked (nodeMark : List Bool) : Nat → State → Option State
  | 0, base => some base
  | i + 1, base => do
      if ← nodeMark[i]? then
        let nodeCount := base.nodeCount - 1
        let nodeList ← swapDelete 0 base.nodeList i nodeCount
        removeMarked nodeMark i { base with nodeCount := nodeCount, nodeList := nodeList }
      else removeMarked nodeMark i base

def removeDispelled : Option State :=
  if base.nodesToDispel.length = 0 then some base
  else do
    let nodeMark ← markDispelled base.nodesToDispel (List.replicate base.nodeCount false)
    let base ← removeMarked nodeMark base.nodeCount base
    return { base with nodesToDispel := [] }

def removeReleased : Option State :=
  if base.nodeToReleaseCount = 0 then some base
  else do
    let (nodeMark, base) ←
      markReleased env tx (← requested base) (List.replicate base.nodeCount false) base
    let base ← removeMarked nodeMark base.nodeCount base
    return { base with nodeToReleaseCount := 0 }

def joinLoop : Nat → State → Option State
  | 0, base => some base
  | i + 1, base => do
      let node ← base.nodesToJoin[i]?
      if base.nodePerformance node = NODE_INIT_PERFORMANCE then
        let nodesToJoin ← swapDelete 0 base.nodesToJoin i (base.nodesToJoin.length - 1)
        joinLoop i
          { base with
            nodeList := base.nodeList ++ [node]
            nodeCount := base.nodeCount + 1
            nodesToJoin := nodesToJoin }
      else joinLoop i base

def applyJoinNodes : Option State := do
  let base ← joinLoop base.joinCntNow base
  let base := { base with joinCntNow := base.nodesToJoin.length }
  if base.joinCntNow = 0 then return { base with joinCntMax := 0, registerFlag := 0 }
  else return base

def punishBadActors : List Nat → State → Option State
  | [], base => some base
  | badguy :: rest, base => do
      let node ← base.nodeList[badguy]?
      let base ← forfeitBond env tx base node
      punishBadActors rest
        { base with
          nodePerformance := update base.nodePerformance node 0
          nodesToDispel := base.nodesToDispel ++ [badguy] }

/-- The loop over the nodes that punishes up to `num` nodes of performance 0. -/
def punishIdle : List Nat → Nat → State → Option State
  | [], _, base => some base
  | _ :: _, 0, base => some base
  | i :: rest, num + 1, base => do
      let node ← base.nodeList[i]?
      if base.nodePerformance node = 0 then
        let base ← forfeitBond env tx { base with nodesToDispel := base.nodesToDispel ++ [i] } node
        punishIdle rest num base
      else punishIdle rest (num + 1) base

def rewardVoters : List Nat → State → Option State
  | [], base => some base
  | voter :: rest, base => do
      let vt ← base.nodeList[voter]?
      if base.nodePerformance vt < NODE_INIT_PERFORMANCE then
        let performance := base.nodePerformance vt + 1
        rewardVoters rest
          { base with nodePerformance := update base.nodePerformance vt performance }
      else rewardVoters rest base

def punish : Option State := do
  let base ← punishBadActors env tx prop.badActors base
  if base.nodesToDispel.length < MAX_DELETE_NUM then
    punishIdle env tx (List.range base.nodeCount) (MAX_DELETE_NUM - base.nodesToDispel.length) base
  else return base

/-- The effects of an approved proposal on the nodes and their bonds. -/
def settleNodes : Option State := do
  let base ← punish env tx base prop
  let base ← rewardVoters (← votes prop) base
  let base ← removeDispelled base
  let base ← removeReleased env tx base
  if base.registerFlag = 2 then applyJoinNodes base
  else return base

def adjustReward : State :=
  let adjust (reward : Uint256) : Uint256 := reward - reward * DEFLATOR_VALUE / 10 ^ 6
  { base with
    blockReward := adjust base.blockReward
    txReward := adjust base.txReward
    viaReward := adjust base.viaReward
    syncReward := adjust base.syncReward }

/-- `randIndex`, as it is drawn after the removals. -/
def drawRandIndex (hash : Hash) : Nat × Nat :=
  let randseed := env.randSeed hash tx.number
  (randseed.1.toNat / 8, randseed.2.toNat / 8)

def requestProposalAction (hash : Hash) : Option (State × Bool) :=
  let prop := base.proposals hash
  if isNodeAt tx base indexInlist = false ∨ prop.flag ≠ .pending ∨
      tx.gasPrice > MAX_GAS_PRICE then
    none
  else if isSCSValid tx base tx.sender = false then some (base, false)
  else if base.proposalHashInProgress ≠ hash then some (base, false)
  else
    match checkProposalStatus tx base hash with
    | .undecided => some (base, false)
    | .expired => some (expire base hash, false)
    | .approval => do
        let base ← settleNodes env tx base prop
        let base :=
          { base with
            randIndex := drawRandIndex env tx hash
            protocol :=
              SubChainProtocolBase.setSubchainActiveBlock base.protocol (innerMessage env tx) }
        let base ← transfer (adjustReward base) (refundGas tx 15000)
        let prop := { base.proposals hash with distributeFlag := 1 }
        return ({ base with proposals := update base.proposals hash prop }, true)

/-- What the distribution of a proposal costs. -/
def totalAmount : Option Uint256 :=
  (List.range prop.minerAddr.length).foldlM (fun total i => do
      return total + base.currentRefundGas (← prop.minerAddr[i]?) + (← prop.distributionAmount[i]?))
    base.viaReward

def payMiners (prop : Proposal) : List Nat → State → Option State
  | [], base => some base
  | i :: rest, base => do
      let cur ← prop.minerAddr[i]?
      let refund := base.currentRefundGas cur
      let base := { base with currentRefundGas := update base.currentRefundGas cur 0 }
      let base ← transfer base refund
      let base ← transfer base (← prop.distributionAmount[i]?)
      payMiners prop rest base

def releaseBackups : Nat → State → Option State
  | 0, base => some base
  | i + 1, base => do
      let cur ← base.nodesToJoin[i]?
      let base ← releaseFromSubchain env tx base cur
      releaseBackups i { base with nodesToJoin := (base.nodesToJoin.set i 0).dropLast }

def withdrawal : Option State := do
  let base := { base with subchainstatus := .close, registerFlag := 0 }
  let base ← releaseNodes env tx base.nodeCount base
  let base ← releaseBackups env tx base.joinCntNow { base with nodeCount := 0 }
  return { base with joinCntNow := 0, joinCntMax := 0, balance := 0 }

def requestDistributeAction (hash : Hash) : Option (State × Bool) :=
  let prop := base.proposals hash
  if prop.distributeFlag ≠ 1 ∨ prop.flag ≠ .pending then none
  else do
    let totalamount ← totalAmount base prop
    if base.balance < totalamount.toNat then
      return ({ base with contractNeedFund := base.contractNeedFund + totalamount }, false)
    let base ← transfer base base.viaReward
    let base ← payMiners prop (List.range prop.minerAddr.length) base
    let curFlushIndex := base.pendingFlushIndex + 1
    let prop := { prop with distributeFlag := 2, flag := .approved }
    let base :=
      { base with
        proposals := update base.proposals hash prop
        proposalHashInProgress := 0
        proposalHashApprovedLast := hash
        lastFlushBlk := tx.number
        curFlushIndex := if curFlushIndex > base.nodeCount then 0 else curFlushIndex }
    let base ← transfer base (refundGas tx 15000)
    if base.subchainstatus = .pending then return (← withdrawal env tx base, true)
    else return (base, true)

def setOwner : Option (State × Bool) :=
  some (if base.owner = 0 then { base with owner := tx.sender } else base, true)

/-- The block at which the turns of all nodes are over. -/
def lastTurn : Uint256 :=
  base.lastFlushBlk + base.flushInRound + BitVec.ofNat 256 base.nodeCount * 2 * proposalExpiration

/-- `this.balance` includes the value of the call already. -/
def addFund : Option (State × Bool) :=
  if base.owner ≠ tx.sender then none
  else if (base.balance + tx.value.toNat) % 2 ^ 256 > base.contractNeedFund.toNat then
    let base := { base with contractNeedFund := 0 }
    some (if tx.number ≥ lastTurn base then { base with lastFlushBlk := tx.number } else base, true)
  else some (base, true)

def withdraw (amount : Uint256) : Option (State × Bool) := do
  if base.owner ≠ tx.sender then none
  else return (← transfer base amount, true)

def close : Option (State × Bool) :=
  if base.owner ≠ tx.sender then none
  else
    let base := { base with subchainstatus := .pending }
    some (if base.proposalHashInProgress = 0 then
        { base with lastFlushBlk := tx.number - base.flushInRound }
      else base, true)

def reset : Option (State × Bool) :=
  if base.owner ≠ tx.sender then none
  else
    some (if tx.number ≥ lastTurn base then { base with lastFlushBlk := tx.number } else base, true)

def rebuildFromLastFlushPoint : Option (State × Bool) :=
  if tx.sender ≠ base.owner then none
  else some ({ base with curFlushIndex := 0 }, true)

def updateMaxRedeemNum (num : Uint256) : Option (State × Bool) :=
  if base.owner ≠ tx.sender then none
  else some ({ base with max_redeem_microchain := num }, true)

def SubChainStatus.number : SubChainStatus → Nat
  | .open => 0
  | .pending => 1
  | .close => 2

/-- `getVnodeInfo` fills in a storage pointer that it never sets, so the 16 fields of a `VnodeInfo`
are written over the first 16 slots: the length of `members` over `minMember`, `curFlushIndex` over
`maxMember`, and so on to `nodesToJoin` over `nodeList`.  As a transaction this lasts. -/
def getVnodeInfo : State :=
  { base with
    minMember := 2
    maxMember := base.curFlushIndex
    selTarget := base.lastFlushBlk
    flushInRound := 3
    proposalHashInProgress := proposalExpiration
    -- an address takes 160 bits of its slot, the others stay
    proposalHashApprovedLast :=
      base.proposalHashApprovedLast.extractLsb 255 160 ++ env.VnodeProtocolBaseAddr
    curFlushIndex := penaltyBond.toNat
    pendingFlushIndex := base.subchainstatus.number
    lastFlushBlk := base.dappRedeemPos
    owner := base.max_redeem_microchain.setWidth 160
    nodeCount := base.nodeList.length
    nodeList := base.nodesToJoin }

inductive Call where
  | registerAsMonitor (monitor : Address)
  | removeMonitorInfo (monitor : Address)
  | registerAsSCS (beneficiary : Address) (v : UInt8) (r s : Hash)
  | registerAsBackup (beneficiary : Address) (v : UInt8) (r s : Hash)
  | BackupUpToDate (index : Nat)
  | requestRelease (index : Nat)
  | registerOpen
  | registerClose
  | registerAdd (nodeToAdd : Uint256)
  | createProposal (indexInlist : Nat) (args : ProposalArgs)
  | voteOnProposal (indexInlist : Nat) (hash : Hash) (erc : Bool)
  | requestProposalAction (indexInlist : Nat) (hash : Hash)
  | requestDistributeAction (hash : Hash)
  | setOwner
  | addFund
  | withdraw (recv : Address) (amount : Uint256)
  | close
  | reset
  | rebuildFromLastFlushPoint
  | updateMaxRedeemNum (num : Uint256)
  | getVnodeInfo
  /-- A call of another account to the protocol contract. -/
  | protocol (msg : Message) (call : SubChainProtocolBase.Call)

def Call.payable : Call → Bool
  | .registerAsMonitor _ => true
  | .requestProposalAction _ _ => true
  | .requestDistributeAction _ => true
  | .addFund => true
  | .withdraw _ _ => true
  | _ => false

/-- The body of the called function with the value it returns. -/
def body : Call → Option (State × Bool)
  | .registerAsMonitor monitor => registerAsMonitor env tx base monitor
  | .removeMonitorInfo monitor => removeMonitorInfo base monitor
  | .registerAsSCS beneficiary v r s => registerAsSCS env tx base beneficiary v r s
  | .registerAsBackup beneficiary v r s => registerAsBackup env tx base beneficiary v r s
  | .BackupUpToDate index => BackupUpToDate tx base index
  | .requestRelease index => requestRelease tx base index
  | .registerOpen => registerOpen tx base
  | .registerClose => registerClose env tx base
  | .registerAdd nodeToAdd => registerAdd tx base nodeToAdd
  | .createProposal indexInlist args => createProposal tx base indexInlist args
  | .voteOnProposal indexInlist hash erc => voteOnProposal tx base indexInlist hash erc
  | .requestProposalAction indexInlist hash => requestProposalAction env tx base indexInlist hash
  | .requestDistributeAction hash => requestDistributeAction env tx base hash
  | .setOwner => setOwner tx base
  | .addFund => addFund tx base
  | .withdraw _ amount => withdraw tx base amount
  | .close => close tx base
  | .reset => reset tx base
  | .rebuildFromLastFlushPoint => rebuildFromLastFlushPoint tx base
  | .updateMaxRedeemNum num => updateMaxRedeemNum tx base num
  | .getVnodeInfo => some (getVnodeInfo env base, true)
  | .protocol msg call =>
    if msg.sender = env.this then none
    else
      some
        ({ base with
            protocol :=
              SubChainProtocolBase.perform env.signatures base.protocol (msg, call) }, true)

/-- The contract is paid before its code runs. -/
def receive (call : Call) : Option State :=
  if tx.value ≠ 0 ∧ call.payable = false then none
  else some { base with balance := base.balance + tx.value.toNat }

/-- A call as a transaction makes it: one that reverts changes nothing. -/
def perform (call : Call) : State × Bool :=
  ((receive tx base call).bind fun paid => body env tx paid call).getD (base, false)

def deploy (protocol : SubChainProtocolBase.State) (min max : Nat)
    (thousandth flushRound : Uint256) : Option State :=
  if min ∉ [1, 3, 5, 7] ∨ max ∉ [11, 21, 31, 51, 99] ∨ flushRound < 40 ∨ 500 < flushRound then none
  else
    let msg := innerMessage env tx
    let protocol' := SubChainProtocolBase.setSubchainExpireBlock protocol msg (flushRound * 5)
    some
      { protocol := SubChainProtocolBase.setSubchainActiveBlock protocol' msg
        minMember := min
        maxMember := max
        selTarget :=
          SubChainProtocolBase.getSelectionTarget protocol thousandth (BitVec.ofNat 256 min)
        flushInRound := flushRound
        owner := tx.sender }

end MoacVnode.Solidity.SubChainBase
