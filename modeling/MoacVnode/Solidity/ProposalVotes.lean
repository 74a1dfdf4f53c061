import MoacVnode.Solidity.NodePositions

/-!
# One address, one vote

`voteOnProposal` compares positions, not addresses.  Until a proposal is approved each node keeps
its position, so a node votes once.
-/

namespace MoacVnode.Solidity.SubChainBase

open MoacVnode.Core Lib List

variable {env : Env} {tx : Tx} {base : State} {call : Call} {core : Core}
  {res : Bool} {record : Record} {hash : Hash} {trace : Trace}

/-- Votes and requests for action are for proposals that were not approved, `registerClose` clears
no node, and `getVnodeInfo` is not sent as a transaction. -/
def OnUnapproved (base : State) : Call → Prop
  | .voteOnProposal _ hash _ => (base.proposals hash).distributeFlag = 0
  | .requestProposalAction _ hash => (base.proposals hash).distributeFlag = 0
  | .registerClose => base.nodeCount = 0 ∨ base.minMember ≤ base.nodeCount
  | .getVnodeInfo => False
  | _ => True

instance (base : State) : DecidablePred (OnUnapproved base) := fun call => by
  apply @Call.casesOn (fun call => Decidable (OnUnapproved base call)) call <;> intros <;>
    unfold OnUnapproved <;> infer_instance

theorem OnUnapproved.gathered (unapproved : OnUnapproved base call) : Gathered base call := by
  cases call with
  | registerClose | getVnodeInfo => exact unapproved
  | _ => trivial

theorem Alive.fresh_sender (alive : Alive base.core record) (isOpen : (base.proposals hash).Open)
    {indexInlist : Nat} (isNode : isNodeAt tx base indexInlist = true)
    (fresh : indexInlist ∉ (base.proposals hash).voters) : tx.sender ∉ record.votes hash := by
  intro voted
  obtain ⟨pos, isVoter, isAt⟩ := exists_position (alive.pointing.voted hash isOpen) voted
  have nodup := (nodup_append.mp alive.whole.nodup).1
  exact fresh (isAt.unique nodup (isAt_of_isNodeAt isNode) ▸ isVoter)

theorem distinct_of_outcome (steady : Steady base.core record)
    (distinct : ∀ hash, (record.votes hash).Nodup) (unapproved : OnUnapproved base call)
    (taken : Outcome env tx base call core res) (hash : Hash) :
    ((record.after tx.sender call res).votes hash).Nodup := by
  cases taken with
  | stutter stutters =>
    rw [Record.after_of_stutter stutters]
    exact distinct hash
  | @create indexInlist args curhash start endBlock isNode isHash new =>
    have named : args.hashlist.getD 1 0 = curhash := by simp [isHash]
    have unvoted := (Cast.expireInProgress steady.ballots.ballot).unvoted new
    by_cases same : hash = curhash
    · subst same
      simp only [Record.after, named, Function.update_self, unvoted]
      exact nodup_singleton _
    · simp only [Record.after, named, Function.update_of_ne same]
      exact distinct hash
  | @vote indexInlist voted erc old isNode pending inTime isVotes fresh =>
    by_cases same : hash = voted
    · subst same
      have ballot : Ballot (base.proposals hash) _ _ := steady.ballots.ballot hash
      rw [votes, mapM_range_getElem? ballot.counted.le, ballot.counted, take_length,
        Option.some_inj] at isVotes
      subst isVotes
      rcases steady.alive with alive | dead
      · have newSender := alive.fresh_sender ⟨pending, unapproved⟩ isNode fresh
        simp only [Record.after, Function.update_self]
        exact (perm_append_singleton _ _).nodup_iff.mpr (nodup_cons.mpr ⟨newSender, distinct hash⟩)
      · exact (dead.not_nodeAt isNode).elim
    · simp only [Record.after, Function.update_of_ne same]
      exact distinct hash
  | _ => exact distinct hash

def votedNodes (trace : Trace) (hash : Hash) : List Address :=
  trace.state.nodeList.filter fun node => node ∈ trace.record.votes hash

structure OneVote (trace : Trace) : Prop where
  distinct : ∀ hash, (trace.record.votes hash).Nodup
  cast : ∀ hash, (trace.record.votes hash).length = (trace.state.proposals hash).voters.length
  counted : ∀ hash,
    (trace.state.proposals hash).votecount = (trace.state.proposals hash).voters.length
  majority :
    ∀ tx indexInlist hash,
      OnUnapproved trace.state (.requestProposalAction indexInlist hash) →
        (trace.state.proposals hash).flag = .pending →
        checkProposalStatus tx trace.state hash = .approval →
        trace.state.nodeList.length = trace.state.nodeCount ∧
          trace.state.nodeCount < 2 * (votedNodes trace hash).length

theorem Steady.oneVote (steady : Steady trace.state.core trace.record)
    (distinct : ∀ hash, (trace.record.votes hash).Nodup) : OneVote trace where
  distinct := distinct
  cast hash := (steady.ballots.ballot hash).cast
  counted hash := (steady.ballots.ballot hash).counted
  majority tx indexInlist hash unapproved pending approval := by
    rcases steady.alive with alive | dead
    · have enough : (trace.record.votes hash).length ≤ (votedNodes trace hash).length := by
        refine (subperm_of_subset (distinct hash) fun node voted => ?_).length_le
        obtain ⟨pos, -, isAt⟩ :=
          exists_position (alive.pointing.voted hash ⟨pending, unapproved⟩) voted
        exact mem_filter.mpr ⟨mem_of_getElem? isAt, decide_eq_true voted⟩
      have ballot : Ballot (trace.state.proposals hash) _ _ := steady.ballots.ballot hash
      have counted := ballot.counted
      have cast := ballot.cast
      refine ⟨alive.whole.counted.symm, ?_⟩
      simp only [checkProposalStatus] at approval
      split_ifs at approval with late many
      omega
    · exact absurd pending (dead.noProposal hash)

/-- In every run of calls that are `OnUnapproved`, a node votes once for a proposal, and only a
majority approves it. -/
theorem one_vote_of_run {creation : Tx} {protocol : SubChainProtocolBase.State}
    {min max : Nat} {thousandth flushRound : Uint256}
    (deployed : deploy env creation protocol min max thousandth flushRound = some base)
    (events : List (Tx × Call))
    (unapproved :
      EachFold (Trace.next env) (fun trace event => OnUnapproved trace.state event.2)
        { state := base } events) :
    OneVote (events.foldl (Trace.next env) { state := base }) := by
  have ran :=
    foldl_invariant (fun trace : Trace =>
        Steady trace.state.core trace.record ∧ ∀ hash, (trace.record.votes hash).Nodup)
      (fun {trace event} kept unapproved => by
        obtain ⟨balance, taken⟩ := outcome_perform env event.1 trace.state event.2
        have paid : Steady { trace.state with balance := balance }.core trace.record := kept.1
        exact ⟨kept.1.step unapproved.gathered, distinct_of_outcome paid kept.2 unapproved taken⟩)
      ⟨steady_of_deploy deployed, fun _ => nodup_nil⟩ unapproved
  exact ran.1.oneVote ran.2

def accusation : List (Tx × Call) :=
  opening [0, 1, 2, 3, 4] ++
    [propose 0 0 60 7 5 [1], (sentBy 4 61, .voteOnProposal 4 7 false),
      (sentBy 2 61, .voteOnProposal 2 7 false)]

def secondVote : List (Tx × Call) :=
  [(sentBy 0 62, .requestProposalAction 0 7), (sentBy 4 63, .voteOnProposal 1 7 false)]

/-- The approval moves the fifth node to the place of the second, from where it votes for
the proposal a second time. -/
theorem moved_node_votes_twice :
    let trace :=
      (accusation ++ secondVote).foldl (Trace.next plainEnv)
        { state := smallSubchain 1 (by decide) }
    trace.record.votes 7 = [1, 5, 3, 5] ∧ (trace.state.proposals 7).voters = [0, 4, 2, 1] := by
  decide +kernel

/-- Three of five nodes vote for a proposal, which is then approved. -/
theorem three_of_five_voted :
    let trace := accusation.foldl (Trace.next plainEnv) { state := smallSubchain 1 (by decide) }
    OneVote trace ∧ (trace.state.proposals 7).flag = .pending ∧
      checkProposalStatus (sentBy 0 62) trace.state 7 = .approval := by
  intro trace
  refine ⟨?_, by decide +kernel⟩
  exact one_vote_of_run (deploy_smallSubchain 1 (by decide)) accusation (by decide +kernel)

end MoacVnode.Solidity.SubChainBase
