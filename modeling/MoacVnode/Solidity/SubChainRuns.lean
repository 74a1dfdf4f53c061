import MoacVnode.Solidity.SubChainSteps

/-!
# Runs of the subchain contract

A trace is the contract together with what its storage does not keep: who cast the votes for each
proposal, which nodes asked for their release since the last approval, and which proposals were
approved.
-/

namespace MoacVnode.Solidity.SubChainBase

open MoacVnode.Core Lib
open Function (update update_self update_of_ne)

structure Record where
  /-- The senders of the votes for a proposal, in the order of `voters`. -/
  votes : Hash → List Address := fun _ => []
  /-- The nodes that asked for their release since the last approval. -/
  requests : List Address := []
  /-- The proposals that `requestProposalAction` approved, one entry for each time. -/
  settled : List Hash := []

def Record.after (record : Record) (sender : Address) : Call → Bool → Record
  | .createProposal _ args, true =>
    let hash := args.hashlist.getD 1 0
    { record with votes := update record.votes hash (record.votes hash ++ [sender]) }
  | .voteOnProposal _ hash _, true =>
    { record with votes := update record.votes hash (record.votes hash ++ [sender]) }
  | .requestRelease _, true => { record with requests := record.requests ++ [sender] }
  | .requestProposalAction _ hash, true =>
    { record with requests := [], settled := record.settled ++ [hash] }
  | _, _ => record

structure Trace where
  state : State
  record : Record := {}

def Trace.next (env : Env) (trace : Trace) (event : Tx × Call) : Trace :=
  let after := perform env event.1 trace.state event.2
  { state := after.1
    record := trace.record.after event.1.sender event.2 after.2 }

variable {env : Env} {tx : Tx} {base next : State} {call : Call} {core : Core}
  {res : Bool} {record : Record} {hash : Hash}

theorem Record.after_of_stutter {sender : Address} (stutters : call.Silent ∨ res = false) :
    record.after sender call res = record := by
  rcases stutters with silent | rfl
  · cases call <;> first | rfl | exact silent.elim
  · cases call <;> rfl

/-! ## Expiring the proposal in progress

Only the proposals and the performance of a node change. -/

@[simp]
theorem expireInProgress_keeps :
    (expireInProgress base).nodeList = base.nodeList ∧
      (expireInProgress base).nodeCount = base.nodeCount ∧
      (expireInProgress base).maxMember = base.maxMember ∧
      (expireInProgress base).nodesToRelease = base.nodesToRelease ∧
      (expireInProgress base).nodeToReleaseCount = base.nodeToReleaseCount := by
  unfold expireInProgress
  split <;> exact ⟨rfl, rfl, rfl, rfl, rfl⟩

structure Ballot (prop : Proposal) (senders : List Address) (approved : Prop) : Prop where
  blank : prop.flag = .noState → prop = {}
  counted : prop.votecount = prop.voters.length
  cast : senders.length = prop.voters.length
  approved : approved → prop.distributeFlag ≠ 0
  started : prop.startingBlock.toNat < uint64Size

def Cast (proposals : Hash → Proposal) (record : Record) : Prop :=
  ∀ hash, Ballot (proposals hash) (record.votes hash) (hash ∈ record.settled)

structure Ballots (core : Core) (record : Record) : Prop where
  current : ∀ hash, (core.proposals hash).flag = .pending → core.proposalHashInProgress = hash
  ballot : Cast core.proposals record

namespace Ballot

variable {prop : Proposal} {senders : List Address} {approved : Prop}

theorem initial : Ballot {} [] False where
  blank _ := rfl
  counted := rfl
  cast := rfl
  approved := False.elim
  started := by decide

theorem expire (ballot : Ballot prop senders approved) :
    Ballot { prop with flag := .expired } senders approved where
  __ := ballot
  blank noState := nomatch noState

theorem create (ballot : Ballot (base.proposals hash) senders approved)
    (new : (base.proposals hash).flag = .noState) {indexInlist : Nat} {args : ProposalArgs}
    {start endBlock : Uint256} :
    Ballot (storedProposal tx base indexInlist args hash start endBlock)
      (senders ++ [tx.sender]) approved where
  blank noState := nomatch noState
  counted := by simp [storedProposal, ballot.counted]
  cast := by simp [storedProposal, ballot.cast]
  approved isApproved := by
    -- A proposal without a state was never approved.
    have unset := ballot.approved isApproved
    rw [ballot.blank new] at unset
    exact absurd rfl unset
  started := by
    have inRange := tx.blockNumber_lt
    exact lt_of_le_of_lt (Nat.mod_le _ _) inRange

theorem vote (ballot : Ballot prop senders approved) (pending : prop.flag = .pending)
    {indexInlist : Nat} {erc : Bool} :
    Ballot (votedProposal tx prop indexInlist erc) (senders ++ [tx.sender]) approved where
  blank noState := by simp [votedProposal, pending] at noState
  counted := by simp [votedProposal, ballot.counted]
  cast := by simp [votedProposal, ballot.cast]
  __ := ballot

theorem settle (ballot : Ballot prop senders approved) (pending : prop.flag = .pending)
    (approved' : Prop) :
    Ballot { prop with distributeFlag := 1 } senders approved' where
  __ := ballot
  blank noState := by simp [pending] at noState
  approved _ := one_ne_zero

theorem distribute (ballot : Ballot prop senders approved) :
    Ballot { prop with distributeFlag := 2, flag := .approved } senders approved where
  __ := ballot
  blank noState := nomatch noState
  approved _ := two_ne_zero

end Ballot

namespace Cast

variable {proposals : Hash → Proposal} {recorded : Record} {prop : Proposal}

theorem update (cast : Cast proposals record)
    (ballot : Ballot prop (recorded.votes hash) (hash ∈ recorded.settled))
    (votes : ∀ other, other ≠ hash → recorded.votes other = record.votes other)
    (settled : ∀ other, other ≠ hash → other ∈ recorded.settled → other ∈ record.settled) :
    Cast (update proposals hash prop) recorded := by
  intro other
  by_cases same : other = hash
  · subst same
    rw [update_self]
    exact ballot
  · rw [update_of_ne same, votes other same]
    exact { cast other with approved := (cast other).approved ∘ settled other same }

theorem replace (cast : Cast proposals record)
    (ballot : Ballot prop (record.votes hash) (hash ∈ record.settled)) :
    Cast (Function.update proposals hash prop) record :=
  cast.update ballot (fun _ _ => rfl) fun _ _ => id

theorem unvoted (cast : Cast proposals record) (new : (proposals hash).flag = .noState) :
    record.votes hash = [] := by
  have counted := (cast hash).cast
  rw [(cast hash).blank new] at counted
  exact List.length_eq_zero_iff.mp counted

section

variable (cast : Cast base.proposals record)

include cast

theorem expireInProgress : Cast (SubChainBase.expireInProgress base).proposals record := by
  unfold SubChainBase.expireInProgress
  split
  · exact cast.replace (cast _).expire
  · exact cast

theorem outcome (taken : Outcome env tx base call core res) :
    Cast core.proposals (record.after tx.sender call res) := by
  cases taken with
  | stutter stutters =>
    rw [Record.after_of_stutter stutters]
    exact cast
  | shut | enrol | backUp | upToDate | ask | recount | overwrite => exact cast
  | scatter isOpen few released =>
    simp only [State.core, (SameProposals.of_ledger (ledger_releaseNodes released)).1]
    exact cast
  | drop => exact cast.expireInProgress
  | @create indexInlist args curhash start endBlock isNode isHash new =>
    have named : args.hashlist.getD 1 0 = curhash := by simp [isHash]
    refine cast.expireInProgress.update ?_ (fun other ne => ?_) fun _ _ => id
    · simpa only [Record.after, named, update_self] using (cast.expireInProgress curhash).create new
    · simp only [Record.after, named, update_of_ne ne]
  | @vote indexInlist hash erc old isNode pending inTime isVotes fresh =>
    refine cast.update ?_ (fun other ne => ?_) fun _ _ => id
    · simpa only [Record.after, update_self] using (cast hash).vote pending
    · simp only [Record.after, update_of_ne ne]
  | lapse => exact cast.replace (cast _).expire
  | @settle indexInlist hash settled isNode pending inProgress inTime majority done =>
    simp only [(SameProposals.of_ledger (ledger_settleNodes done)).1]
    refine cast.update ((cast hash).settle pending _) (fun _ _ => rfl) fun other ne => ?_
    simp [Record.after, ne]
  | distribute => exact cast.replace (cast _).distribute
  | @retire hash paid retired pending approved leaving isPaid done =>
    rw [proposals_retired isPaid done]
    exact cast.replace (cast _).distribute

end

theorem step {trace : Trace} {event : Tx × Call} (cast : Cast trace.state.proposals trace.record) :
    Cast (trace.next env event).state.proposals (trace.next env event).record := by
  obtain ⟨balance, taken⟩ := outcome_perform env event.1 trace.state event.2
  have paid : Cast { trace.state with balance := balance }.proposals trace.record := cast
  exact paid.outcome taken

end Cast

namespace Ballots

theorem initial (base : State) (unused : base.proposals = fun _ => {}) : Ballots base.core {} where
  current hash pending := by simp [State.core, unused] at pending
  ballot hash := by simpa [State.core, unused] using Ballot.initial

theorem not_pending (ballots : Ballots core record) {other : Hash}
    (ne : other ≠ core.proposalHashInProgress) : (core.proposals other).flag ≠ .pending :=
  fun pending => ne (ballots.current other pending).symm

theorem pending_unique (ballots : Ballots core record) {other : Hash}
    (pending : (core.proposals hash).flag = .pending)
    (isPending : (core.proposals other).flag = .pending) : other = hash :=
  (ballots.current other isPending).symm.trans (ballots.current hash pending)

section

variable (ballots : Ballots base.core record)

include ballots

theorem none_pending (other : Hash) :
    ((SubChainBase.expireInProgress base).proposals other).flag ≠ .pending := by
  unfold SubChainBase.expireInProgress
  split
  case isTrue inProgress =>
      by_cases same : other = base.proposalHashInProgress
      · simp [SubChainBase.expire, same]
      · simp only [SubChainBase.expire, update_of_ne same]
        exact ballots.not_pending same
  case isFalse notPending =>
      by_cases same : other = base.proposalHashInProgress
      · rwa [same]
      · exact ballots.not_pending same

theorem none_distributed (pending : (base.proposals hash).flag = .pending) (other : Hash) :
    ((distributedCore base hash).proposals other).flag ≠ .pending := by
  by_cases same : other = hash
  · simp [distributedCore, same]
  · simp only [distributedCore, update_of_ne same]
    exact fun isPending => same (ballots.pending_unique pending isPending)

theorem current_outcome (taken : Outcome env tx base call core res)
    (keeps : call ≠ .getVnodeInfo) (other : Hash)
    (isPending : (core.proposals other).flag = .pending) : core.proposalHashInProgress = other := by
  have current : (base.proposals other).flag = .pending → base.proposalHashInProgress = other :=
    ballots.current other
  cases taken with
  | stutter | shut | enrol | backUp | upToDate | ask | recount => exact current isPending
  | scatter isOpen few released =>
    have same := SameProposals.of_ledger (ledger_releaseNodes released)
    simp only [State.core, same.1, same.2] at isPending ⊢
    exact current isPending
  | drop => exact absurd isPending (ballots.none_pending other)
  | @create indexInlist args curhash start endBlock isNode isHash new =>
    by_contra isOld
    have ne : other ≠ curhash := Ne.symm isOld
    simp only [storedCore, update_of_ne ne] at isPending
    exact ballots.none_pending other isPending
  | @vote indexInlist hash erc old isNode pending inTime isVotes fresh =>
    by_cases same : other = hash
    · exact same ▸ ballots.current hash pending
    · exact current (by simpa only [update_of_ne same] using isPending)
  | @lapse indexInlist hash isNode pending inProgress late =>
    by_cases same : other = hash
    · exact inProgress.trans same.symm
    · exact current (by simpa only [State.core, expire, update_of_ne same] using isPending)
  | @settle indexInlist hash settled isNode pending inProgress inTime majority done =>
    have same := SameProposals.of_ledger (ledger_settleNodes done)
    by_cases isHash : other = hash
    · exact same.2.trans (inProgress.trans isHash.symm)
    · exact same.2.trans (current (by simpa only [update_of_ne isHash, same.1] using isPending))
  | distribute pending => exact absurd isPending (ballots.none_distributed pending other)
  | @retire hash paid retired pending approved leaving isPaid done =>
    rw [proposals_retired isPaid done] at isPending
    exact absurd isPending (ballots.none_distributed pending other)
  | overwrite => exact absurd rfl keeps

theorem outcome (taken : Outcome env tx base call core res) (keeps : call ≠ .getVnodeInfo) :
    Ballots core (record.after tx.sender call res) where
  current := ballots.current_outcome taken keeps
  ballot := Cast.outcome ballots.ballot taken

end

end Ballots

theorem ballots_of_deploy {protocol : SubChainProtocolBase.State} {min max : Nat}
    {thousandth flushRound : Uint256}
    (deployed : deploy env tx protocol min max thousandth flushRound = some base) :
    Ballots base.core {} := by
  simp only [deploy, Option.ite_none_left_eq_some, Option.some_inj] at deployed
  obtain ⟨-, rfl⟩ := deployed
  exact .initial _ rfl

/-! ## A small subchain

The servers 1 to 13 have registered with the protocol contract, and server 13 owns the
subchain. -/

def plainEnv : Env where
  this := 100
  signatures :=
    { sha256 := fun _ _ => 0
      ecrecover := fun _ _ r _ => r.setWidth 160 }
  randSeed := fun _ _ => (0, 8)

def server (n : UInt8) : Address := BitVec.ofNat 160 (n.toNat + 1)

def sentBy (n : UInt8) (block : UInt16) (val : Uint256 := 0) : Tx where
  sender := server n
  nonzero := by
    have small := n.toNat_lt
    intro zero
    have number : (n.toNat + 1) % 2 ^ 160 = 0 := congrArg BitVec.toNat zero
    omega
  value := val
  blockNumber := block.toNat
  blockNumber_lt := lt_trans block.toNat_lt (by decide)

def servers : SubChainProtocolBase.State :=
  ((List.range 13).map UInt8.ofNat).foldl (fun base n =>
      SubChainProtocolBase.perform plainEnv.signatures base
        ({ sender := server n, value := 10 ^ 18, blockNumber := 1 }, .register (server n)))
    (SubChainProtocolBase.deploy { sender := 1, blockNumber := 1 } 1)

theorem one_allowed : 1 ∈ [1, 3, 5, 7] := by decide

def smallSubchain (min : Nat) (allowed : min ∈ [1, 3, 5, 7]) : State :=
  (deploy plainEnv (sentBy 12 10) servers min 11 0 40).get (by
    simp only [deploy, allowed]
    rfl)

theorem deploy_smallSubchain (min : Nat) (allowed : min ∈ [1, 3, 5, 7]) :
    deploy plainEnv (sentBy 12 10) servers min 11 0 40 = some (smallSubchain min allowed) :=
  (Option.some_get _).symm

def enrolment (nodes : List UInt8) : List (Tx × Call) :=
  (sentBy 12 11 (10 ^ 18), .addFund) :: (sentBy 12 12, .registerOpen) ::
    nodes.map fun n => (sentBy n 13, .registerAsSCS 0 27 (BitVec.ofNat 256 (n.toNat + 1)) 0)

def opening (nodes : List UInt8) : List (Tx × Call) :=
  enrolment nodes ++ [(sentBy 12 20, .registerClose)]

def propose (n : UInt8) (pos : Nat) (block : UInt16) (hash : Hash) (count : Nat)
    (badactors : List Nat) : Tx × Call :=
  (sentBy n block,
    .createProposal pos
      { hashlist := [0, hash]
        blocknum := [0, 0]
        distAmount := List.replicate count 0
        badactors := badactors
        viaNodeAddress := 0
        redeemAddr := []
        redeemAmt := [] })

end MoacVnode.Solidity.SubChainBase
