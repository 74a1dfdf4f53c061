import MoacVnode.Solidity.NodePositions

/-!
# The nodes that ask for their release

A request is kept as a position.
-/

namespace MoacVnode.Solidity.SubChainBase

open MoacVnode.Core Lib List

def dispelledNodes (base : State) (prop : Proposal) : List Address :=
  (dispelled base prop).map (nodeAt base.nodeList)

def releasePositions (base : State) : List Nat := base.nodesToRelease.take base.nodeToReleaseCount

/-- The nodes that are dispelled and those that asked leave the list, and the protocol
contract is told of each. -/
structure RemovesRequesters (before after : Core) (requests dispelled : List Address) :
    Prop where
  removed : ∀ node ∈ before.nodeList, node ∉ after.nodeList ↔ node ∈ requests ∨ node ∈ dispelled
  calls :
    after.calls =
      before.calls ++ dispelled.map .forfeitBond ++
        (requests.filter fun node => node ∉ dispelled).map .releaseFromSubchain

variable {env : Env} {tx : Tx} {base : State} {call : Call} {core : Core}
  {record : Record} {hash : Hash} {node : Address} {prop : Proposal} {change : NodeChange}
  {positions : List Nat} {nodes nodeList : List Address}

theorem map_nodeAt (isAt : List.Forall₂ (IsAt nodeList) positions nodes) :
    positions.map (nodeAt nodeList) = nodes := by
  induction isAt with
  | nil => rfl
  | cons first rest ih => rw [map_cons, ih, nodeAt_of_getElem? first]

section

variable (isChange : change.Of base prop positions)

include isChange

theorem NodeChange.Of.mem_dispelledNodes (counted : base.nodeCount = base.nodeList.length) :
    node ∈ dispelledNodes base prop ↔ ∃ pos ∈ dispelled base prop, IsAt base.nodeList pos node := by
  have inside {pos : Nat} (isDispelled : pos ∈ dispelled base prop) :
      IsAt base.nodeList pos (nodeAt base.nodeList pos) :=
    getElem?_nodeAt (counted ▸ isChange.dispelInside pos isDispelled)
  simp only [dispelledNodes, mem_map]
  constructor
  · rintro ⟨pos, isDispelled, rfl⟩
    exact ⟨pos, isDispelled, inside isDispelled⟩
  · rintro ⟨pos, isDispelled, isAt⟩
    exact ⟨pos, isDispelled, nodeAt_of_getElem? isAt⟩

theorem NodeChange.Of.kept_eq {pos : Nat} (isRequest : pos ∈ positions)
    (untouched : pos ∉ dispelled base prop) :
    change.kept[pos]? = base.nodeList[pos]? :=
  isChange.kept.kept pos (isChange.releaseInside pos isRequest) (.inr (decide_eq_false untouched))

variable (isAt : List.Forall₂ (IsAt base.nodeList) positions nodes)
  (untouched : ∀ pos ∈ positions, pos ∉ dispelled base prop)

include isAt untouched

theorem NodeChange.Of.mem_left (counted : base.nodeCount = base.nodeList.length)
    (nodup : base.nodeList.Nodup) (isNode : node ∈ base.nodeList) :
    node ∈ change.left ↔ node ∉ nodes ∧ node ∉ dispelledNodes base prop := by
  have nodupKept := isChange.kept.nodup nodup
  rw [isChange.left.mem_iff]
  constructor
  · rintro ⟨pos, notRequested, got⟩
    obtain ⟨place, notDispelled, isPlace⟩ := isChange.kept.mem_iff.mp (mem_of_getElem? got)
    refine ⟨fun asked => ?_, fun gone => ?_⟩
    · obtain ⟨req, isRequest, isThere⟩ := exists_position isAt asked
      have stays : IsAt change.kept req node :=
        (isChange.kept_eq isRequest (untouched req isRequest)).trans isThere
      have same : pos = req := IsAt.unique nodupKept got stays
      exact of_decide_eq_false notRequested (same ▸ isRequest)
    · obtain ⟨other, isDispelled, isThere⟩ := (isChange.mem_dispelledNodes counted).mp gone
      have same : place = other := IsAt.unique nodup isPlace isThere
      exact of_decide_eq_false notDispelled (same ▸ isDispelled)
  · rintro ⟨unasked, stays⟩
    obtain ⟨place, isPlace⟩ := mem_iff_getElem?.mp isNode
    have notDispelled : place ∉ dispelled base prop := fun isDispelled =>
      stays ((isChange.mem_dispelledNodes counted).mpr ⟨place, isDispelled, isPlace⟩)
    have isKept : node ∈ change.kept :=
      isChange.kept.mem_iff.mpr ⟨place, decide_eq_false notDispelled, isPlace⟩
    obtain ⟨pos, got⟩ := mem_iff_getElem?.mp isKept
    refine ⟨pos, decide_eq_false fun isRequest => ?_, got⟩
    -- A requested position holds the node that asked, so this node asked.
    obtain ⟨asker, asked, isThere⟩ := exists_node isAt isRequest
    have stillThere := (isChange.kept_eq isRequest (untouched pos isRequest)).trans isThere
    have same : node = asker := Option.some_inj.mp (got.symm.trans stillThere)
    exact unasked (same ▸ asked)

theorem NodeChange.Of.removesRequesters (whole : Whole base.core) :
    RemovesRequesters base.core (change.core base prop positions) nodes
      (dispelledNodes base prop) := by
  have nodup : (base.nodeList ++ base.nodesToJoin).Nodup := whole.nodup
  obtain ⟨nodupNodes, -, disjoint⟩ := nodup_append.mp nodup
  refine ⟨fun node isNode => ?_, ?_⟩
  · have stays := isChange.mem_left isAt untouched whole.counted nodupNodes isNode
    have notJoined : node ∉ change.joined := fun joined =>
      disjoint node isNode node (isChange.joined.mem_iff.mp (mem_append_left _ joined)) rfl
    simp only [NodeChange.core, mem_append, stays]
    tauto
  · have notDispelled : ∀ node ∈ nodes, node ∉ dispelledNodes base prop := by
      intro node asked gone
      obtain ⟨req, isRequest, isThere⟩ := exists_position isAt asked
      obtain ⟨other, isDispelled, isOther⟩ := (isChange.mem_dispelledNodes whole.counted).mp gone
      have same : req = other := isThere.unique nodupNodes isOther
      exact untouched req isRequest (same ▸ isDispelled)
    have released : positions.map (nodeAt change.kept) = nodes := by
      rw [← map_nodeAt isAt]
      refine map_congr_left fun pos isRequest => ?_
      simp only [nodeAt, getD_eq_getElem?_getD,
        isChange.kept_eq isRequest (untouched pos isRequest)]
    have all : (nodes.filter fun node => node ∉ dispelledNodes base prop) = nodes :=
      filter_eq_self.mpr fun node asked => decide_eq_true (notDispelled node asked)
    rw [all, ← released]
    simp [NodeChange.core, dispelledNodes, State.core, Function.comp_def]

end

/-- No node that asked for its release is dispelled, and all of them are before the places that
become empty when the dispelled nodes leave. -/
def RequestsOnPlace (base : State) (prop : Proposal) : Prop :=
  ∀ pos ∈ releasePositions base, pos ∉ dispelled base prop ∧
    pos < ((List.range base.nodeCount).filter fun place =>
      place ∉ dispelled base prop).length
deriving Decidable

/-- The requests are on place when action is requested, `registerClose` clears no node, and
`getVnodeInfo` is not sent as a transaction. -/
def OnPlace (base : State) : Call → Prop
  | .requestProposalAction _ hash => RequestsOnPlace base (base.proposals hash)
  | .registerClose => base.nodeCount = 0 ∨ base.minMember ≤ base.nodeCount
  | .getVnodeInfo => False
  | _ => True

instance (base : State) : DecidablePred (OnPlace base) := fun call => by
  apply @Call.casesOn (fun call => Decidable (OnPlace base call)) call <;> intros <;>
    unfold OnPlace <;> infer_instance

theorem OnPlace.gathered (onPlace : OnPlace base call) : Gathered base call := by
  cases call with
  | registerClose | getVnodeInfo => exact onPlace
  | _ => trivial

theorem removesRequesters_of_outcome {indexInlist : Nat}
    (taken : Outcome env tx base (.requestProposalAction indexInlist hash) core true)
    (steady : Steady base.core record)
    (onPlace : OnPlace base (.requestProposalAction indexInlist hash)) :
    RemovesRequesters base.core core record.requests
      (dispelledNodes base (base.proposals hash)) := by
  obtain ⟨isNode, -, settled, done, rfl⟩ := taken.of_action
  rcases steady.alive with alive | dead
  · obtain ⟨change, isChange, changed⟩ := alive.whole.settleNodes_eq done
    have untouched := fun pos isRequest => (onPlace pos isRequest).1
    have removes := isChange.removesRequesters alive.pointing.requested untouched alive.whole
    rw [changed]
    exact ⟨removes.removed, removes.calls⟩
  · exact (dead.not_nodeAt isNode).elim

/-- What the call does if it is a request for action that succeeds. -/
def ActionRemovesRequesters (env : Env) (before : Trace) (event : Tx × Call) : Prop :=
  ∀ indexInlist hash, event.2 = .requestProposalAction indexInlist hash →
    (perform env event.1 before.state event.2).2 = true →
      RemovesRequesters before.state.core (before.next env event).state.core before.record.requests
        (dispelledNodes before.state (before.state.proposals hash))

theorem Steady.actionRemovesRequesters {trace : Trace} {event : Tx × Call}
    (steady : Steady trace.state.core trace.record) (onPlace : OnPlace trace.state event.2) :
    ActionRemovesRequesters env trace event := by
  obtain ⟨tx, call⟩ := event
  rintro indexInlist hash rfl approved
  obtain ⟨balance, taken⟩ :=
    outcome_perform env tx trace.state (.requestProposalAction indexInlist hash)
  rw [approved] at taken
  exact (removesRequesters_of_outcome taken steady onPlace :)

def firstAction : Tx × Call := (sentBy 0 62, .requestProposalAction 0 7)

end MoacVnode.Solidity.SubChainBase
