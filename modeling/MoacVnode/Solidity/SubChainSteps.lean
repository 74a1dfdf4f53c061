import MoacVnode.Solidity.NodeChanges

/-!
# What a call can do

The part of the state that the nodes and the proposals live in, and for every
call the ways in which it can change that part.
-/

namespace MoacVnode.Solidity.SubChainBase

open MoacVnode.Core Lib
open Option (bind_eq_bind ite_none_left_eq_some some_inj pure_def)
open Function (update)

variable {prop : Proposal} {beneficiary : Address} {v : UInt8} {r s hash : Hash} {indexInlist : Nat}

structure Core where
  calls : List ProtocolCall
  minMember : Nat
  maxMember : Nat
  closed : Bool
  nodeCount : Nat
  nodeList : List Address
  nodesToJoin : List Address
  joinCntNow : Nat
  nodeToReleaseCount : Nat
  nodesToRelease : List Nat
  nodesToDispel : List Nat
  nodePerformance : Address → Nat
  proposals : Hash → Proposal
  proposalHashInProgress : Hash

def State.core (base : State) : Core :=
  { calls := base.calls
    minMember := base.minMember
    maxMember := base.maxMember
    closed := base.subchainstatus ≠ .open
    nodeCount := base.nodeCount
    nodeList := base.nodeList
    nodesToJoin := base.nodesToJoin
    joinCntNow := base.joinCntNow
    nodeToReleaseCount := base.nodeToReleaseCount
    nodesToRelease := base.nodesToRelease
    nodesToDispel := base.nodesToDispel
    nodePerformance := base.nodePerformance
    proposals := base.proposals
    proposalHashInProgress := base.proposalHashInProgress }

/-- The lists of an approved proposal: the nodes that are not dispelled, those of them
that do not leave, and the nodes that join or go on waiting. -/
structure NodeChange where
  kept : List Address
  left : List Address
  joined : List Address
  waiting : List Address
  performance : Address → Nat

/-- The changes that a proposal makes when the nodes at these positions leave. -/
structure NodeChange.Of (change : NodeChange) (base : State) (prop : Proposal)
    (positions : List Nat) : Prop where
  dispelInside : ∀ idx ∈ dispelled base prop, idx < base.nodeCount
  releaseInside : ∀ idx ∈ positions, idx < change.kept.length
  kept : Remains (fun pos => decide (pos ∈ dispelled base prop)) base.nodeList change.kept 0
  left : Remains (fun pos => decide (pos ∈ positions)) change.kept change.left 0
  joined : (change.joined ++ change.waiting).Perm base.nodesToJoin
  ready : ∀ node ∈ change.joined, change.performance node = NODE_INIT_PERFORMANCE
  noJoin : base.registerFlag ≠ 2 → change.joined = []
  performance : ∀ node, node ∉ base.nodeList → change.performance node = base.nodePerformance node

def NodeChange.core (change : NodeChange) (base : State) (prop : Proposal)
    (positions : List Nat) : Core :=
  { base.core with
    nodeList := change.left ++ change.joined
    nodeCount := change.left.length + change.joined.length
    nodesToJoin := change.waiting
    joinCntNow := change.waiting.length
    nodePerformance := change.performance
    nodeToReleaseCount := 0
    nodesToDispel := []
    calls :=
      base.calls ++
        (dispelled base prop).map (fun idx => .forfeitBond (nodeAt base.nodeList idx)) ++
        positions.map fun idx => .releaseFromSubchain (nodeAt change.kept idx) }

variable {env : Env} {tx : Tx} {base next : State}

theorem join_eq
    (done :
      (if base.registerFlag = 2 then applyJoinNodes base else some base) = some next)
    (joinCounted : base.joinCntNow = base.nodesToJoin.length) :
    ∃ joined waiting joinCntMax registerFlag,
      (joined ++ waiting).Perm base.nodesToJoin ∧
        (∀ node ∈ joined, base.nodePerformance node = NODE_INIT_PERFORMANCE) ∧
        (base.registerFlag ≠ 2 → joined = []) ∧
        next =
          { base with
            nodeList := base.nodeList ++ joined
            nodeCount := base.nodeCount + joined.length
            nodesToJoin := waiting
            joinCntNow := waiting.length
            joinCntMax := joinCntMax
            registerFlag := registerFlag } := by
  split at done
  · rename_i adding
    simp only [applyJoinNodes, bind_some_iff] at done
    obtain ⟨after, looped, done⟩ := done
    obtain ⟨joined, waiting, perm, ready, rfl⟩ := joinLoop_eq looped
    refine ⟨joined, waiting, next.joinCntMax, next.registerFlag, perm, ready,
      fun other => absurd adding other, ?_⟩
    split at done
    · cases done
      rfl
    · cases done
      rfl
  · cases done
    refine ⟨[], base.nodesToJoin, base.joinCntMax, base.registerFlag, .refl _, by simp,
      fun _ => rfl, ?_⟩
    rw [← joinCounted]
    simp

theorem settleNodes_eq {positions : List Nat} (counted : base.nodeCount = base.nodeList.length)
    (none : base.nodesToDispel = []) (joinCounted : base.joinCntNow = base.nodesToJoin.length)
    (isRequested : requested base = some positions) (nodup : positions.Nodup)
    (done : settleNodes env tx base prop = some next) :
    ∃ change : NodeChange,
      change.Of base prop positions ∧ next.core = change.core base prop positions := by
  simp only [settleNodes, bind_some_iff] at done
  obtain ⟨punished, punishment, voters, -, rewarded, reward, dispelledState, dispel,
    releasedState, release, done⟩ := done
  obtain ⟨badInside, protocol, balance, rfl⟩ := punish_eq none punishment
  obtain ⟨performance, rfl, elsewhere⟩ := rewardVoters_eq reward
  obtain ⟨dispelInside, kept, remainsKept, rfl⟩ := removeDispelled_eq dispel counted
  obtain ⟨releaseInside, left, protocol, remainsLeft, rfl⟩ :=
    removeReleased_eq release rfl isRequested nodup
  obtain ⟨joined, waiting, joinCntMax, registerFlag, perm, ready, noJoin, rfl⟩ :=
    join_eq done joinCounted
  refine ⟨⟨kept, left, joined, waiting, performance⟩, ?_, rfl⟩
  exact
    { dispelInside := dispelInside
      releaseInside := releaseInside
      kept := remainsKept
      left := remainsLeft
      joined := perm
      ready := ready
      noJoin := noJoin
      performance := by
        intro node absent
        refine (elsewhere node absent).trans (if_neg ?_)
        simp only [List.mem_map, not_exists, not_and]
        rintro badguy isBad rfl
        exact absent (List.mem_of_getElem? (getElem?_nodeAt (badInside badguy isBad))) }

/-- The calls whose success leaves the nodes, the proposals and the votes as they are. -/
def Call.Silent : Call → Prop
  | .registerAsMonitor _ => True
  | .removeMonitorInfo _ => True
  | .registerOpen => True
  | .registerClose => True
  | .setOwner => True
  | .addFund => True
  | .withdraw _ _ => True
  | .reset => True
  | .rebuildFromLastFlushPoint => True
  | .updateMaxRedeemNum _ => True
  | .protocol _ _ => True
  | _ => False

def storedCore (tx : Tx) (base : State) (indexInlist : Nat) (args : ProposalArgs)
    (curhash : Hash) (start endBlock : Uint256) : Core :=
  { base.core with
    proposals :=
      update base.proposals curhash (storedProposal tx base indexInlist args curhash start endBlock)
    proposalHashInProgress := curhash }

def votedProposal (tx : Tx) (prop : Proposal) (indexInlist : Nat) (erc : Bool) : Proposal :=
  { prop with
    redeemAgreeList := if erc then prop.redeemAgreeList ++ [tx.sender] else prop.redeemAgreeList
    voters := prop.voters ++ [indexInlist]
    votecount := prop.votecount + 1 }

def distributedCore (base : State) (hash : Hash) : Core :=
  { base.core with
    proposals :=
      update base.proposals hash { base.proposals hash with distributeFlag := 2, flag := .approved }
    proposalHashInProgress := 0 }

/-- What a call with the result it returns can make of the nodes and the proposals. -/
inductive Outcome (env : Env) (tx : Tx) (base : State) : Call → Core → Bool → Prop
  | stutter {call : Call} {res : Bool} (silent : call.Silent ∨ res = false) :
      Outcome env tx base call base.core res
  | shut : Outcome env tx base .close { base.core with closed := true } true
  | enrol {beneficiary : Address} {v : UInt8} {r s : Hash}
      (isOpen : base.subchainstatus = .open) (room : base.nodeCount ≤ base.maxMember)
      (notNode : tx.sender ∉ base.nodeList) (notWaiting : tx.sender ∉ base.nodesToJoin) :
      Outcome env tx base (.registerAsSCS beneficiary v r s)
        { base.core with
          nodeList := base.nodeList ++ [tx.sender]
          nodeCount := base.nodeCount + 1
          nodePerformance := update base.nodePerformance tx.sender NODE_INIT_PERFORMANCE }
        true
  | backUp {beneficiary : Address} {v : UInt8} {r s : Hash} (isOpen : base.subchainstatus = .open)
      (notNode : tx.sender ∉ base.nodeList) (notWaiting : tx.sender ∉ base.nodesToJoin) :
      Outcome env tx base (.registerAsBackup beneficiary v r s)
        { base.core with
          nodesToJoin := base.nodesToJoin ++ [tx.sender]
          joinCntNow := base.joinCntNow + 1
          nodePerformance := update base.nodePerformance tx.sender 0 }
        true
  | upToDate {index : Nat} (waiting : base.nodesToJoin[index]? = some tx.sender) :
      Outcome env tx base (.BackupUpToDate index)
        { base.core with
          nodePerformance := update base.nodePerformance tx.sender NODE_INIT_PERFORMANCE }
        true
  | ask {index : Nat} {old : List Nat} (isNode : base.nodeList[index]? = some tx.sender)
      (room : base.nodeToReleaseCount < 5) (isRequested : requested base = some old)
      (fresh : index ∉ old) :
      Outcome env tx base (.requestRelease index)
        { base.core with
          nodesToRelease := base.nodesToRelease.set base.nodeToReleaseCount index
          nodeToReleaseCount := base.nodeToReleaseCount + 1 }
        true
  | recount {nodeToAdd : Uint256} (isOpen : base.subchainstatus = .open) :
      Outcome env tx base (.registerAdd nodeToAdd)
        { base.core with joinCntNow := base.nodesToJoin.length } true
  | scatter {cleared : State} (isOpen : base.subchainstatus = .open)
      (few : base.nodeCount < base.minMember)
      (released :
        releaseNodes env tx base.nodeCount { base with registerFlag := 0 } = some cleared) :
      Outcome env tx base .registerClose { cleared.core with nodeCount := 0 } false
  | drop {indexInlist : Nat} {args : ProposalArgs} (isNode : isNodeAt tx base indexInlist = true) :
      Outcome env tx base (.createProposal indexInlist args) (expireInProgress base).core false
  | create {indexInlist : Nat} {args : ProposalArgs} {curhash : Hash}
      {start endBlock : Uint256} (isNode : isNodeAt tx base indexInlist = true)
      (isHash : args.hashlist[1]? = some curhash)
      (new : ((expireInProgress base).proposals curhash).flag = .noState) :
      Outcome env tx base (.createProposal indexInlist args)
        (storedCore tx (expireInProgress base) indexInlist args curhash start endBlock) true
  | vote {indexInlist : Nat} {hash : Hash} {erc : Bool} {old : List Nat}
      (isNode : isNodeAt tx base indexInlist = true)
      (pending : (base.proposals hash).flag = .pending)
      (inTime : isLate tx (base.proposals hash) = false)
      (isVotes : votes (base.proposals hash) = some old) (fresh : indexInlist ∉ old) :
      Outcome env tx base (.voteOnProposal indexInlist hash erc)
        { base.core with
          proposals :=
            update base.proposals hash (votedProposal tx (base.proposals hash) indexInlist erc) }
        true
  | lapse {indexInlist : Nat} {hash : Hash} (isNode : isNodeAt tx base indexInlist = true)
      (pending : (base.proposals hash).flag = .pending)
      (inProgress : base.proposalHashInProgress = hash)
      (late : isLate tx (base.proposals hash) = true) :
      Outcome env tx base (.requestProposalAction indexInlist hash) (expire base hash).core false
  | settle {indexInlist : Nat} {hash : Hash} {settled : State}
      (isNode : isNodeAt tx base indexInlist = true)
      (pending : (base.proposals hash).flag = .pending)
      (inProgress : base.proposalHashInProgress = hash)
      (inTime : isLate tx (base.proposals hash) = false)
      (majority : base.nodeCount < (base.proposals hash).votecount * 2)
      (done : settleNodes env tx base (base.proposals hash) = some settled) :
      Outcome env tx base (.requestProposalAction indexInlist hash)
        { settled.core with
          proposals :=
            update settled.proposals hash { settled.proposals hash with distributeFlag := 1 } }
        true
  | distribute {hash : Hash} (pending : (base.proposals hash).flag = .pending)
      (approved : (base.proposals hash).distributeFlag = 1)
      (staying : base.subchainstatus ≠ .pending) :
      Outcome env tx base (.requestDistributeAction hash) (distributedCore base hash) true
  | retire {hash : Hash} {paid retired : State} (pending : (base.proposals hash).flag = .pending)
      (approved : (base.proposals hash).distributeFlag = 1)
      (leaving : base.subchainstatus = .pending) (isPaid : paid.core = distributedCore base hash)
      (done : withdrawal env tx paid = some retired) :
      Outcome env tx base (.requestDistributeAction hash) retired.core true
  | overwrite : Outcome env tx base .getVnodeInfo (getVnodeInfo env base).core true

variable {call : Call} {res : Bool}

theorem not_mem_of_role {scs : Address} (role : getSCSRole env tx base scs = 4) :
    scs ∉ base.nodeList ∧ scs ∉ base.nodesToJoin := by
  constructor
  · intro isNode
    simp [getSCSRole, isNode] at role
  · intro isWaiting
    simp only [getSCSRole] at role
    split_ifs at role <;> omega

theorem transfer_eq {amount : Uint256} (done : transfer base amount = some next) :
    ∃ balance, next = { base with balance := balance } := by
  simp only [transfer, ite_none_left_eq_some, some_inj] at done
  exact ⟨_, done.2.symm⟩

theorem Outcome.of_refuse {check : Prop} [Decidable check] {rest : Option (State × Bool)}
    (done : (if check then some (base, false) else rest) = some (next, res))
    (passed : ¬ check → rest = some (next, res) → Outcome env tx base call next.core res) :
    Outcome env tx base call next.core res := by
  split at done
  · cases done
    exact .stutter (.inr rfl)
  · rename_i notRefused
    exact passed notRefused done

theorem outcome_registerAsSCS
    (done : registerAsSCS env tx base beneficiary v r s = some (next, res)) :
    Outcome env tx base (.registerAsSCS beneficiary v r s) next.core res := by
  simp only [registerAsSCS, ite_none_left_eq_some] at done
  obtain ⟨allowed, done⟩ := done
  rw [not_or, not_not, not_not] at allowed
  obtain ⟨notNode, notWaiting⟩ := not_mem_of_role allowed.2
  refine .of_refuse done fun _ done => .of_refuse done fun _ done =>
    .of_refuse done fun _ done => .of_refuse done fun room done => ?_
  simp only [bind_some_iff] at done
  obtain ⟨listed, -, done⟩ := done
  refine .of_refuse done fun _ done => ?_
  split at done
  · cases done
    exact .stutter (.inr rfl)
  · cases done
    exact .enrol allowed.1 (Nat.le_of_not_lt room) notNode notWaiting

theorem outcome_registerAsBackup
    (done : registerAsBackup env tx base beneficiary v r s = some (next, res)) :
    Outcome env tx base (.registerAsBackup beneficiary v r s) next.core res := by
  simp only [registerAsBackup, ite_none_left_eq_some] at done
  obtain ⟨allowed, done⟩ := done
  rw [not_or, not_not, not_not] at allowed
  obtain ⟨notNode, notWaiting⟩ := not_mem_of_role allowed.2
  refine .of_refuse done fun _ done => .of_refuse done fun _ done =>
    .of_refuse done fun _ done => .of_refuse done fun _ done => ?_
  simp only [bind_some_iff] at done
  obtain ⟨listed, -, done⟩ := done
  refine .of_refuse done fun _ done => .of_refuse done fun _ done => ?_
  split at done
  · cases done
    exact .stutter (.inr rfl)
  · cases done
    exact .backUp allowed.1 notNode notWaiting

theorem outcome_requestRelease {index : Nat}
    (done : requestRelease tx base index = some (next, res)) :
    Outcome env tx base (.requestRelease index) next.core res := by
  simp only [requestRelease, ite_none_left_eq_some] at done
  obtain ⟨isNode, done⟩ := done
  refine .of_refuse done fun room done => ?_
  simp only [bind_some_iff] at done
  obtain ⟨old, isRequested, done⟩ := done
  refine .of_refuse done fun fresh done => ?_
  cases done
  exact .ask (not_not.mp isNode) (Nat.lt_of_not_le room) isRequested fresh

theorem outcome_registerClose (done : registerClose env tx base = some (next, res)) :
    Outcome env tx base .registerClose next.core res := by
  simp only [registerClose, ite_none_left_eq_some] at done
  obtain ⟨allowed, done⟩ := done
  rw [not_or, not_not] at allowed
  split at done
  · rename_i few
    simp only [bind_some_iff, pure_def, some_inj] at done
    obtain ⟨cleared, released, rfl, rfl⟩ := done
    exact .scatter allowed.1 few released
  · cases done
    exact .stutter (.inl trivial)

theorem outcome_createProposal {args : ProposalArgs}
    (done : createProposal tx base indexInlist args = some (next, res)) :
    Outcome env tx base (.createProposal indexInlist args) next.core res := by
  simp only [createProposal, ite_none_left_eq_some] at done
  obtain ⟨allowed, done⟩ := done
  have isNode : isNodeAt tx base indexInlist = true := by simpa using (not_or.mp allowed).1
  simp only [bind_some_iff] at done
  obtain ⟨parent, -, done⟩ := done
  split at done
  · cases done
    exact .drop isNode
  · split at done
    · cases done
      exact .drop isNode
    · simp only [bind_some_iff] at done
      obtain ⟨curhash, isHash, done⟩ := done
      split at done
      · cases done
        exact .drop isNode
      · rename_i new
        simp only [bind_some_iff, ite_none_left_eq_some] at done
        obtain ⟨start, -, endBlock, -, -, rfl, rfl⟩ := done
        exact .create isNode isHash (not_not.mp new)

theorem outcome_voteOnProposal {erc : Bool}
    (done : voteOnProposal tx base indexInlist hash erc = some (next, res)) :
    Outcome env tx base (.voteOnProposal indexInlist hash erc) next.core res := by
  simp only [voteOnProposal, ite_none_left_eq_some] at done
  obtain ⟨allowed, done⟩ := done
  have isNode : isNodeAt tx base indexInlist = true := by simpa using (not_or.mp allowed).1
  refine .of_refuse done fun _ done => .of_refuse done fun pending done =>
    .of_refuse done fun inTime done => ?_
  simp only [bind_some_iff] at done
  obtain ⟨old, isVotes, done⟩ := done
  refine .of_refuse done fun fresh done => ?_
  cases done
  exact .vote isNode (not_not.mp pending) (by simpa using inTime) isVotes fresh

theorem outcome_requestProposalAction
    (done : requestProposalAction env tx base indexInlist hash = some (next, res)) :
    Outcome env tx base (.requestProposalAction indexInlist hash) next.core res := by
  simp only [requestProposalAction, ite_none_left_eq_some] at done
  obtain ⟨allowed, done⟩ := done
  simp only [not_or, Bool.not_eq_false, not_not] at allowed
  obtain ⟨isNode, pending, -⟩ := allowed
  refine .of_refuse done fun _ done => .of_refuse done fun inProgress done => ?_
  rw [not_not] at inProgress
  cases status : checkProposalStatus tx base hash with
  | undecided =>
    rw [status] at done
    cases done
    exact .stutter (.inr rfl)
  | expired =>
    rw [status] at done
    cases done
    refine .lapse isNode pending inProgress ?_
    simp only [checkProposalStatus] at status
    split at status
    · assumption
    · split at status
      · simp at status
      · simp at status
  | approval =>
    rw [status] at done
    simp only [checkProposalStatus] at status
    split at status
    · simp at status
    · rename_i inTime
      split at status
      · rename_i majority
        simp only [bind_some_iff, pure_def, some_inj] at done
        obtain ⟨settled, settling, paid, payment, rfl, rfl⟩ := done
        obtain ⟨balance, rfl⟩ := transfer_eq payment
        exact @Outcome.settle env tx base indexInlist hash settled isNode pending inProgress
            (by simpa using inTime) majority settling
      · simp at status

theorem payMiners_eq {indices : List Nat} (done : payMiners prop indices base = some next) :
    ∃ balance currentRefundGas,
      next = { base with balance := balance, currentRefundGas := currentRefundGas } := by
  induction indices generalizing base with
  | nil =>
    cases done
    exact ⟨next.balance, next.currentRefundGas, rfl⟩
  | cons i indices ih =>
    simp only [payMiners, bind_some_iff] at done
    obtain ⟨cur, -, refunded, refund, reward, -, rewarded, pay, done⟩ := done
    obtain ⟨balance, rfl⟩ := transfer_eq refund
    obtain ⟨balance, rfl⟩ := transfer_eq pay
    obtain ⟨balance, currentRefundGas, rfl⟩ := ih done
    exact ⟨balance, currentRefundGas, rfl⟩

theorem outcome_requestDistributeAction
    (done : requestDistributeAction env tx base hash = some (next, res)) :
    Outcome env tx base (.requestDistributeAction hash) next.core res := by
  simp only [requestDistributeAction, ite_none_left_eq_some] at done
  obtain ⟨allowed, done⟩ := done
  simp only [not_or, not_not] at allowed
  obtain ⟨approved, pending⟩ := allowed
  simp only [bind_some_iff] at done
  obtain ⟨totalamount, -, done⟩ := done
  split at done
  · cases done
    exact .stutter (.inr rfl)
  · simp only [bind_some_iff] at done
    obtain ⟨via, payVia, paid, payment, refunded, refund, done⟩ := done
    obtain ⟨balance, rfl⟩ := transfer_eq payVia
    obtain ⟨balance, currentRefundGas, rfl⟩ := payMiners_eq payment
    obtain ⟨balance, rfl⟩ := transfer_eq refund
    by_cases leaving : base.subchainstatus = .pending
    · rw [if_pos leaving] at done
      simp only [bind_some_iff] at done
      obtain ⟨retired, retiring, rfl, rfl⟩ := done
      exact .retire pending approved leaving rfl retiring
    · rw [if_neg leaving] at done
      cases done
      exact .distribute pending approved leaving

theorem removeMonitorLoop_eq {monitor : Address} {cnt i : Nat}
    (done : removeMonitorLoop monitor cnt i base = some next) :
    ∃ balance monitors nodesWatching, next =
      { base with balance := balance, monitors := monitors, nodesWatching := nodesWatching } := by
  induction i generalizing base with
  | zero =>
    cases done
    exact ⟨next.balance, next.monitors, next.nodesWatching, rfl⟩
  | succ i ih =>
    simp only [removeMonitorLoop, bind_some_iff] at done
    obtain ⟨info, -, done⟩ := done
    split at done
    · simp only [bind_some_iff] at done
      obtain ⟨paid, payment, monitors, -, done⟩ := done
      obtain ⟨balance, rfl⟩ := transfer_eq payment
      exact (ih done :)
    · exact ih done

theorem Outcome.of_core (silent : call.Silent) (same : next.core = base.core) :
    Outcome env tx base call next.core res := by
  rw [same]
  exact .stutter (.inl silent)

theorem outcome_body (done : body env tx base call = some (next, res)) :
    Outcome env tx base call next.core res := by
  cases call with
  | registerAsMonitor monitor =>
    simp only [body, registerAsMonitor, ite_none_left_eq_some, some_inj] at done
    obtain ⟨-, rfl, -⟩ := done
    exact .of_core trivial rfl
  | removeMonitorInfo monitor =>
    simp only [body, removeMonitorInfo, bind_some_iff, pure_def, some_inj] at done
    obtain ⟨removed, loop, rfl, -⟩ := done
    obtain ⟨balance, monitors, nodesWatching, rfl⟩ := removeMonitorLoop_eq loop
    exact .of_core trivial rfl
  | registerAsSCS beneficiary v r s => exact outcome_registerAsSCS done
  | registerAsBackup beneficiary v r s => exact outcome_registerAsBackup done
  | BackupUpToDate index =>
    simp only [body, BackupUpToDate, ite_none_left_eq_some, some_inj, not_or, not_not] at done
    obtain ⟨⟨-, waiting⟩, rfl, rfl⟩ := done
    exact .upToDate waiting
  | requestRelease index => exact outcome_requestRelease done
  | registerOpen =>
    simp only [body, registerOpen, ite_none_left_eq_some, some_inj] at done
    obtain ⟨-, rfl, -⟩ := done
    exact .of_core trivial rfl
  | registerClose => exact outcome_registerClose done
  | registerAdd nodeToAdd =>
    simp only [body, registerAdd, ite_none_left_eq_some, some_inj, not_or, not_not] at done
    obtain ⟨⟨isOpen, -⟩, rfl, rfl⟩ := done
    exact .recount isOpen
  | createProposal indexInlist args => exact outcome_createProposal done
  | voteOnProposal indexInlist hash erc => exact outcome_voteOnProposal done
  | requestProposalAction indexInlist hash => exact outcome_requestProposalAction done
  | requestDistributeAction hash => exact outcome_requestDistributeAction done
  | setOwner =>
    obtain ⟨rfl, -⟩ := done
    split
    · exact .of_core trivial rfl
    · exact .of_core trivial rfl
  | addFund =>
    simp only [body, addFund, ite_none_left_eq_some] at done
    obtain ⟨-, done⟩ := done
    split at done
    · obtain ⟨rfl, -⟩ := done
      split
      · exact .of_core trivial rfl
      · exact .of_core trivial rfl
    · cases done
      exact .of_core trivial rfl
  | withdraw recv amount =>
    simp only [body, withdraw, ite_none_left_eq_some, bind_some_iff, pure_def, some_inj] at done
    obtain ⟨-, paid, payment, rfl, -⟩ := done
    obtain ⟨balance, rfl⟩ := transfer_eq payment
    exact .of_core trivial rfl
  | close =>
    simp only [body, close, ite_none_left_eq_some, some_inj] at done
    obtain ⟨-, rfl, rfl⟩ := done
    split
    · exact .shut
    · exact .shut
  | reset =>
    simp only [body, reset, ite_none_left_eq_some, some_inj] at done
    obtain ⟨-, rfl, -⟩ := done
    split
    · exact .of_core trivial rfl
    · exact .of_core trivial rfl
  | rebuildFromLastFlushPoint =>
    simp only [body, rebuildFromLastFlushPoint, ite_none_left_eq_some] at done
    obtain ⟨-, rfl, -⟩ := done
    exact .of_core trivial rfl
  | updateMaxRedeemNum num =>
    simp only [body, updateMaxRedeemNum, ite_none_left_eq_some, some_inj] at done
    obtain ⟨-, rfl, -⟩ := done
    exact .of_core trivial rfl
  | getVnodeInfo =>
    cases done
    exact .overwrite
  | protocol msg inner =>
    simp only [body, ite_none_left_eq_some, some_inj] at done
    obtain ⟨-, rfl, -⟩ := done
    exact .of_core trivial rfl

theorem outcome_perform (env : Env) (tx : Tx) (base : State) (call : Call) :
    ∃ balance,
      Outcome env tx { base with balance := balance } call (perform env tx base call).1.core
        (perform env tx base call).2 := by
  cases done : (receive tx base call).bind fun paid => body env tx paid call with
  | none =>
    refine ⟨base.balance, ?_⟩
    simp only [perform, done]
    exact .stutter (.inr rfl)
  | some after =>
    obtain ⟨paid, received, ran⟩ := Option.bind_eq_some_iff.mp done
    simp only [receive, ite_none_left_eq_some, some_inj] at received
    obtain ⟨-, rfl⟩ := received
    simp only [perform, done]
    exact ⟨_, outcome_body ran⟩

theorem Outcome.of_action {core : Core}
    (taken : Outcome env tx base (.requestProposalAction indexInlist hash) core true) :
    isNodeAt tx base indexInlist = true ∧ (base.proposals hash).flag = .pending ∧
      ∃ settled, settleNodes env tx base (base.proposals hash) = some settled ∧
        core =
          { settled.core with
            proposals :=
              update settled.proposals hash
                { settled.proposals hash with distributeFlag := 1 } } := by
  cases taken with
  | stutter stutters =>
    rcases stutters with silent | failed
    · exact silent.elim
    · cases failed
  | settle isNode pending inProgress inTime majority done => exact ⟨isNode, pending, _, done, rfl⟩

inductive ProposalsChange (tx : Tx) (base : State) : Call → (Hash → Proposal) → Prop
  | same {call : Call} : ProposalsChange tx base call base.proposals
  | drop {indexInlist : Nat} {args : ProposalArgs} :
      ProposalsChange tx base (.createProposal indexInlist args) (expireInProgress base).proposals
  | create {indexInlist : Nat} {args : ProposalArgs} {curhash : Hash}
      {start endBlock : Uint256} (isNode : isNodeAt tx base indexInlist = true)
      (new : ((expireInProgress base).proposals curhash).flag = .noState) :
      ProposalsChange tx base (.createProposal indexInlist args)
        (update (expireInProgress base).proposals curhash
          (storedProposal tx (expireInProgress base) indexInlist args curhash start endBlock))
  | vote {indexInlist : Nat} {hash : Hash} {erc : Bool}
      (pending : (base.proposals hash).flag = .pending) :
      ProposalsChange tx base (.voteOnProposal indexInlist hash erc)
        (update base.proposals hash (votedProposal tx (base.proposals hash) indexInlist erc))
  | lapse {indexInlist : Nat} {hash : Hash} (pending : (base.proposals hash).flag = .pending)
      (late : isLate tx (base.proposals hash) = true) :
      ProposalsChange tx base (.requestProposalAction indexInlist hash)
        (update base.proposals hash { base.proposals hash with flag := .expired })
  | settle {indexInlist : Nat} {hash : Hash} (pending : (base.proposals hash).flag = .pending) :
      ProposalsChange tx base (.requestProposalAction indexInlist hash)
        (update base.proposals hash { base.proposals hash with distributeFlag := 1 })
  | distribute {hash : Hash} :
      ProposalsChange tx base (.requestDistributeAction hash) (update base.proposals hash
          { base.proposals hash with distributeFlag := 2, flag := .approved })

theorem proposals_retired {hash : Hash} {paid retired : State}
    (isPaid : paid.core = distributedCore base hash)
    (done : withdrawal env tx paid = some retired) :
    retired.core.proposals = (distributedCore base hash).proposals :=
  (SameProposals.of_ledger (ledger_withdrawal done)).1.trans (congrArg Core.proposals isPaid)

theorem Outcome.proposalsChange {core : Core} (taken : Outcome env tx base call core res) :
    ProposalsChange tx base call core.proposals := by
  cases taken with
  | scatter isOpen few released =>
    simp only [State.core, (SameProposals.of_ledger (ledger_releaseNodes released)).1]
    exact .same
  | drop => exact .drop
  | create isNode isHash new => exact .create isNode new
  | vote isNode pending => exact .vote pending
  | lapse isNode pending inProgress late => exact .lapse pending late
  | settle isNode pending inProgress inTime majority done =>
    simp only [(SameProposals.of_ledger (ledger_settleNodes done)).1]
    exact .settle pending
  | distribute => exact .distribute
  | @retire hash paid retired pending approved leaving isPaid done =>
    rw [proposals_retired isPaid done]
    exact .distribute
  | _ => exact .same

end MoacVnode.Solidity.SubChainBase
