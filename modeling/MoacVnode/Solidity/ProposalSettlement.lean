import MoacVnode.Solidity.NodeRelease

/-!
# A proposal is settled once

`requestProposalAction` punishes the bad actors of a proposal by their positions in the list of
nodes, but leaves the proposal pending until its distribution is paid.
-/

namespace MoacVnode.Solidity.SubChainBase

open MoacVnode.Core Lib List

variable {proposals : Hash → Proposal} {trace : Trace} {event : Tx × Call} {indexInlist : Nat}

/-- The proposal accuses the node: it names its position in the list of the nodes at the
time of the proposal. -/
def Accuses (prop : Proposal) (node : Address) : Prop :=
  ∃ badguy ∈ prop.badActors, IsAt prop.minerAddr badguy node

/-- The node loses its bond or its membership in a call. -/
def Loses (before after : Core) (node : Address) : Prop :=
  .forfeitBond node ∈ after.calls.drop before.calls.length ∨
    .releaseFromSubchain node ∈ after.calls.drop before.calls.length ∨
    node ∈ before.nodeList ∧ node ∉ after.nodeList

/-- The bad actors of every proposal are nodes of its list. -/
def BadActorsListed (proposals : Hash → Proposal) : Prop :=
  ∀ hash, ∀ badguy ∈ (proposals hash).badActors, badguy < (proposals hash).minerAddr.length

/-- A proposal accuses nodes, action is requested on a proposal once and with requests that are on
place, `registerClose` clears no node, and `getVnodeInfo` is not sent as a transaction. -/
def ActsOnce (base : State) : Call → Prop
  | .createProposal _ args => ∀ badguy ∈ args.badactors, badguy < base.nodeCount
  | .requestProposalAction _ hash =>
    (base.proposals hash).distributeFlag = 0 ∧ RequestsOnPlace base (base.proposals hash)
  | .registerClose => base.nodeCount = 0 ∨ base.minMember ≤ base.nodeCount
  | .getVnodeInfo => False
  | _ => True

instance (base : State) : DecidablePred (ActsOnce base) := fun call => by
  apply @Call.casesOn (fun call => Decidable (ActsOnce base call)) call <;> intros <;>
    unfold ActsOnce <;> infer_instance

variable {env : Env} {tx : Tx} {base : State} {call : Call} {core : Core}
  {res : Bool} {record : Record} {hash : Hash} {node : Address}

theorem ActsOnce.onPlace (actsOnce : ActsOnce base call) : OnPlace base call := by
  cases call with
  | requestProposalAction indexInlist hash => exact actsOnce.2
  | registerClose | getVnodeInfo => exact actsOnce
  | _ => trivial

theorem BadActorsListed.update (listed : BadActorsListed proposals) (hash : Hash)
    (prop : Proposal) (inside : ∀ badguy ∈ prop.badActors, badguy < prop.minerAddr.length) :
    BadActorsListed (Function.update proposals hash prop) := by
  intro other
  by_cases same : other = hash
  · subst same
    rw [Function.update_self]
    exact inside
  · rw [Function.update_of_ne same]
    exact listed other

theorem BadActorsListed.expireInProgress (listed : BadActorsListed base.proposals) :
    BadActorsListed (SubChainBase.expireInProgress base).proposals := by
  unfold SubChainBase.expireInProgress
  split
  · exact listed.update _ _ (listed base.proposalHashInProgress)
  · exact listed

theorem badActorsListed_of_change (changed : ProposalsChange tx base call proposals)
    (listed : BadActorsListed base.proposals) (steady : Steady base.core record)
    (actsOnce : ActsOnce base call) : BadActorsListed proposals := by
  cases changed with
  | same => exact listed
  | drop => exact listed.expireInProgress
  | @create indexInlist args curhash start endBlock isNode new =>
    refine listed.expireInProgress.update curhash _ ?_
    have blank : (expireInProgress base).proposals curhash = {} :=
      (Cast.expireInProgress steady.ballots.ballot curhash).blank new
    rcases steady.alive with alive | dead
    · have counted : base.nodeCount = base.nodeList.length := alive.whole.counted
      intro badguy isBad
      simp only [storedProposal, blank] at isBad
      have inside : badguy < base.nodeCount := actsOnce badguy isBad
      simp only [storedProposal, blank, nil_append, length_take,
        expireInProgress_keeps, ← counted, min_self]
      exact inside
    · exact (dead.not_nodeAt isNode).elim
  | @vote indexInlist hash | @lapse indexInlist hash | @settle indexInlist hash
  | @distribute hash => exact listed.update hash _ (listed hash)

theorem accused_of_badActor (listed : BadActorsListed base.proposals)
    (pointing : Pointing base.core record) (isOpen : (base.proposals hash).Open)
    {badguy : Nat} (isBad : badguy ∈ (base.proposals hash).badActors) :
    ∃ node, IsAt (base.proposals hash).minerAddr badguy node ∧ IsAt base.nodeList badguy node := by
  have inside : badguy < (base.proposals hash).minerAddr.length := listed hash badguy isBad
  have isAt : IsAt (base.proposals hash).minerAddr badguy (base.proposals hash).minerAddr[badguy] :=
    List.getElem?_eq_getElem inside
  exact ⟨_, isAt, isAt.mono (pointing.listed hash isOpen)⟩

theorem accused_of_dispelled (listed : BadActorsListed base.proposals)
    (pointing : Pointing base.core record) (isOpen : (base.proposals hash).Open)
    (gone : node ∈ dispelledNodes base (base.proposals hash)) :
    Accuses (base.proposals hash) node ∨ base.nodePerformance node = 0 := by
  have accused {badguy : Nat} (isBad : badguy ∈ (base.proposals hash).badActors) :
      Accuses (base.proposals hash) (nodeAt base.nodeList badguy) := by
    obtain ⟨named, inProposal, inList⟩ := accused_of_badActor listed pointing isOpen isBad
    rw [nodeAt_of_getElem? inList]
    exact ⟨badguy, isBad, inProposal⟩
  simp only [dispelledNodes, mem_map] at gone
  obtain ⟨pos, isDispelled, rfl⟩ := gone
  rcases mem_append.mp isDispelled with isBad | idle
  · exact .inl (accused isBad)
  · have noPerformance := (mem_filter.mp (mem_of_mem_take idle)).2
    simp only [zeroed] at noPerformance
    split at noPerformance
    case isTrue isBad =>
        obtain ⟨badguy, isBad, same⟩ := mem_map.mp isBad
        exact .inl (same ▸ accused isBad)
    case isFalse => exact .inr (of_decide_eq_true noPerformance)

theorem RemovesRequesters.of_loses {requests dispelled : List Address} {before after : Core}
    (removes : RemovesRequesters before after requests dispelled)
    (loses : Loses before after node) : node ∈ requests ∨ node ∈ dispelled := by
  rw [Loses, removes.calls, append_assoc, drop_left] at loses
  rcases loses with forfeited | released | ⟨isNode, gone⟩
  · right
    simpa using forfeited
  · left
    have released : node ∈ requests ∧ node ∉ dispelled := by simpa using released
    exact released.1
  · exact (removes.removed node isNode).mp gone

/-- A proposal is settled at most once, on the nodes it was made for. -/
structure SettlesOnce (env : Env) (before : Trace) (event : Tx × Call) : Prop where
  once : (before.next env event).record.settled.Nodup
  /-- A request for action that is refused touches no bond and no node. -/
  refused :
    ∀ indexInlist hash, event.2 = .requestProposalAction indexInlist hash →
      (perform env event.1 before.state event.2).2 = false →
        (before.next env event).state.calls = before.state.calls ∧
          (before.next env event).state.nodeList = before.state.nodeList
  /-- Bad actors are the nodes that had their positions when the proposal was made. -/
  samePositions :
    ∀ indexInlist hash, event.2 = .requestProposalAction indexInlist hash →
      (perform env event.1 before.state event.2).2 = true →
        ∀ badguy ∈ (before.state.proposals hash).badActors,
          ∃ node, IsAt (before.state.proposals hash).minerAddr badguy node ∧
            IsAt before.state.nodeList badguy node
  deserved :
    ∀ indexInlist hash, event.2 = .requestProposalAction indexInlist hash →
      (perform env event.1 before.state event.2).2 = true →
        ∀ node, Loses before.state.core (before.next env event).state.core node →
          Accuses (before.state.proposals hash) node ∨
            before.state.nodePerformance node = 0 ∨ node ∈ before.record.requests

/-- The invariant of the runs. -/
structure Settled (trace : Trace) : Prop where
  steady : Steady trace.state.core trace.record
  listed : BadActorsListed trace.state.proposals
  once : trace.record.settled.Nodup

theorem once_of_outcome (ballots : Ballots base.core record) (once : record.settled.Nodup)
    (actsOnce : ActsOnce base call) : (record.after tx.sender call res).settled.Nodup := by
  cases call with
  | requestProposalAction indexInlist hash =>
    cases res with
    | false => exact once
    | true =>
      have fresh : hash ∉ record.settled := fun settled =>
        (ballots.ballot hash).approved settled actsOnce.1
      exact (perm_append_singleton _ _).nodup_iff.mpr (nodup_cons.mpr ⟨fresh, once⟩)
  | _ => cases res <;> exact once

theorem Settled.step (settled : Settled trace) (actsOnce : ActsOnce trace.state event.2) :
    Settled (trace.next env event) := by
  obtain ⟨balance, taken⟩ := outcome_perform env event.1 trace.state event.2
  exact
    { steady := settled.steady.step actsOnce.onPlace.gathered
      listed :=
        badActorsListed_of_change taken.proposalsChange settled.listed settled.steady actsOnce
      once := once_of_outcome settled.steady.ballots settled.once actsOnce }

theorem open_of_outcome
    (taken : Outcome env tx base (.requestProposalAction indexInlist hash) core true)
    (steady : Steady base.core record) (unapproved : (base.proposals hash).distributeFlag = 0) :
    (base.proposals hash).Open ∧ Alive base.core record := by
  obtain ⟨isNode, pending, -⟩ := taken.of_action
  exact ⟨⟨pending, unapproved⟩, steady.alive.resolve_right fun dead => dead.not_nodeAt isNode⟩

theorem refused_of_outcome
    (taken : Outcome env tx base (.requestProposalAction indexInlist hash) core false) :
    core.calls = base.calls ∧ core.nodeList = base.nodeList := by
  cases taken with
  | stutter | lapse => exact ⟨rfl, rfl⟩

theorem Settled.settlesOnce (settled : Settled trace) (actsOnce : ActsOnce trace.state event.2) :
    SettlesOnce env trace event := by
  have steady := settled.steady
  obtain ⟨balance, taken⟩ := outcome_perform env event.1 trace.state event.2
  refine ⟨(settled.step actsOnce).once, ?_, ?_, ?_⟩
  · intro indexInlist hash isAction refused
    rw [isAction] at taken refused
    rw [refused] at taken
    simp only [Trace.next, isAction]
    exact refused_of_outcome taken
  · intro indexInlist hash isAction approved
    rw [isAction] at taken approved actsOnce
    rw [approved] at taken
    obtain ⟨isOpen, alive⟩ := open_of_outcome taken steady actsOnce.1
    exact fun badguy isBad => accused_of_badActor settled.listed alive.pointing isOpen isBad
  · intro indexInlist hash isAction approved node loses
    have removes :=
      (steady.actionRemovesRequesters actsOnce.onPlace : ActionRemovesRequesters env trace event)
        indexInlist hash isAction approved
    rw [isAction] at taken approved actsOnce
    rw [approved] at taken
    obtain ⟨isOpen, alive⟩ := open_of_outcome taken steady actsOnce.1
    rcases removes.of_loses loses with asked | gone
    · exact .inr (.inr asked)
    · exact (accused_of_dispelled settled.listed alive.pointing isOpen gone).imp_right .inl

/-- In every run of calls that are `ActsOnce`, a proposal is settled at most once, on the nodes it
was made for. -/
theorem proposal_settled_once_of_run {creation : Tx}
    {protocol : SubChainProtocolBase.State} {min max : Nat} {thousandth flushRound : Uint256}
    (deployed : deploy env creation protocol min max thousandth flushRound = some base)
    (events : List (Tx × Call)) (event : Tx × Call)
    (actsOnce :
      EachFold (Trace.next env) (fun trace event => ActsOnce trace.state event.2)
        { state := base } (events ++ [event])) :
    SettlesOnce env (events.foldl (Trace.next env) { state := base }) event := by
  obtain ⟨prior, last, -⟩ := eachFold_append.mp actsOnce
  refine (foldl_invariant Settled Settled.step ?_ prior).settlesOnce last
  refine ⟨steady_of_deploy deployed, ?_, nodup_nil⟩
  simp only [deploy, Option.ite_none_left_eq_some, Option.some_inj] at deployed
  obtain ⟨-, rfl⟩ := deployed
  exact fun hash badguy isBad => absurd isBad not_mem_nil

def charge : List (Tx × Call) :=
  opening [0, 1, 2, 3, 4] ++
    [propose 0 0 60 7 5 [1], (sentBy 2 61, .voteOnProposal 2 7 false),
      (sentBy 3 61, .voteOnProposal 3 7 false)]

def charged : Trace := charge.foldl (Trace.next plainEnv) { state := smallSubchain 1 one_allowed }

/-- The approval moves the fifth node to the place of the second.  A second request for
action on the same proposal takes its bond and dispels it. -/
theorem second_action_punishes_another :
    let first := charged.next plainEnv firstAction
    let second := first.next plainEnv (sentBy 0 63, .requestProposalAction 0 7)
    (second.state.proposals 7).badActors = [1] ∧
      (second.state.proposals 7).minerAddr = [1, 2, 3, 4, 5] ∧
      first.state.nodeList = [1, 5, 3, 4] ∧ first.state.nodePerformance 5 = 5 ∧
      first.record.requests = [] ∧ second.record.settled = [7, 7] ∧
      second.state.nodeList = [1, 4, 3] ∧ .forfeitBond 5 ∈ second.state.calls := by
  decide +kernel

/-- The first action dispels the accused node only. -/
theorem first_action_settles_once :
    (charged.next plainEnv firstAction).state.nodeList = [1, 5, 3, 4] ∧
      SettlesOnce plainEnv charged firstAction := by
  refine ⟨by decide +kernel, ?_⟩
  exact proposal_settled_once_of_run (deploy_smallSubchain 1 (by decide)) charge firstAction
    (by decide +kernel)

end MoacVnode.Solidity.SubChainBase
