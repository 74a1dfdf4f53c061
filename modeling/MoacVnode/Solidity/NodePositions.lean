import MoacVnode.Solidity.NodeMembership

/-!
# Positions that stand for nodes

Votes, requests for a release and the list of miners of a proposal are kept as positions in
`nodeList` or as a copy of it.
-/

namespace MoacVnode.Solidity.SubChainBase

open MoacVnode.Core Lib
open Function (update_of_ne update_self update)
open List

variable {pos : Nat}

def Proposal.Open (prop : Proposal) : Prop := prop.flag = .pending ∧ prop.distributeFlag = 0

def IsAt (nodeList : List Address) (pos : Nat) (node : Address) : Prop :=
  nodeList[pos]? = some node

/-- The stored positions name the nodes of the record. -/
structure Pointing (core : Core) (record : Record) : Prop where
  voted :
    ∀ hash, (core.proposals hash).Open →
      List.Forall₂ (IsAt core.nodeList) (core.proposals hash).voters (record.votes hash)
  listed : ∀ hash, (core.proposals hash).Open → (core.proposals hash).minerAddr <+: core.nodeList
  requested :
    List.Forall₂ (IsAt core.nodeList) (core.nodesToRelease.take core.nodeToReleaseCount)
      record.requests

variable {env : Env} {tx : Tx} {base next : State} {call : Call} {core : Core}
  {res : Bool} {record : Record} {hash : Hash} {node : Address}
  {nodeList longer : List Address} {positions : List Nat} {nodes : List Address}

theorem IsAt.mono (isAt : IsAt nodeList pos node) (grows : nodeList <+: longer) :
    IsAt longer pos node := by
  obtain ⟨more, rfl⟩ := grows
  have inside := (List.getElem?_eq_some_iff.mp isAt).1
  exact (List.getElem?_append_left inside).trans isAt

theorem IsAt.unique {pos other : Nat} (nodup : nodeList.Nodup)
    (isAt : IsAt nodeList pos node) (isAtOther : IsAt nodeList other node) :
    pos = other :=
  (List.getElem?_inj (List.getElem?_eq_some_iff.mp isAt).1 nodup).mp (isAt.trans isAtOther.symm)

section

variable (isAt : List.Forall₂ (IsAt nodeList) positions nodes)

include isAt

theorem forall₂_concat (last : IsAt nodeList pos node) :
    List.Forall₂ (IsAt nodeList) (positions ++ [pos]) (nodes ++ [node]) :=
  rel_append isAt (.cons last .nil)

theorem exists_position (mem : node ∈ nodes) : ∃ pos ∈ positions, IsAt nodeList pos node := by
  induction isAt with
  | nil => exact absurd mem not_mem_nil
  | @cons pos other positions nodes first rest ih =>
    rcases mem_cons.mp mem with rfl | later
    · exact ⟨pos, mem_cons_self, first⟩
    · obtain ⟨got, isFound, isAt⟩ := ih later
      exact ⟨got, mem_cons_of_mem _ isFound, isAt⟩

theorem exists_node (mem : pos ∈ positions) : ∃ node ∈ nodes, IsAt nodeList pos node := by
  induction isAt with
  | nil => exact absurd mem not_mem_nil
  | @cons first node positions nodes isFirst rest ih =>
    rcases mem_cons.mp mem with rfl | later
    · exact ⟨node, mem_cons_self, isFirst⟩
    · obtain ⟨got, isFound, isAt⟩ := ih later
      exact ⟨got, mem_cons_of_mem _ isFound, isAt⟩

end

theorem isAt_of_isNodeAt (isNode : isNodeAt tx base pos = true) :
    IsAt base.nodeList pos tx.sender := by
  simp only [isNodeAt, decide_eq_true_eq] at isNode
  exact isNode.2

namespace Pointing

variable {before after : Core} {recorded : Record}

theorem initial (nothing : core.proposals = fun _ => {}) (unasked : core.nodeToReleaseCount = 0) :
    Pointing core {} where
  voted hash isOpen := by simp [nothing, Proposal.Open] at isOpen
  listed hash isOpen := by simp [nothing, Proposal.Open] at isOpen
  requested := by simp [unasked]

section

variable (pointing : Pointing before record) (grows : before.nodeList <+: after.nodeList)
  (sameSlots : after.nodesToRelease.take after.nodeToReleaseCount =
    before.nodesToRelease.take before.nodeToReleaseCount)
  (sameRequests : recorded.requests = record.requests)

include pointing grows sameSlots sameRequests

theorem grow (kept : ∀ hash, (after.proposals hash).Open →
      after.proposals hash = before.proposals hash ∧ recorded.votes hash = record.votes hash) :
    Pointing after recorded where
  voted hash isOpen := by
    obtain ⟨same, sameVotes⟩ := kept hash isOpen
    rw [same] at isOpen
    rw [same, sameVotes]
    exact (pointing.voted hash isOpen).imp fun _ _ isAt => isAt.mono grows
  listed hash isOpen := by
    have same := (kept hash isOpen).1
    rw [same] at isOpen
    rw [same]
    exact (pointing.listed hash isOpen).trans grows
  requested := by
    rw [sameSlots, sameRequests]
    exact pointing.requested.imp fun _ _ isAt => isAt.mono grows

theorem close (none : ∀ hash, ¬ (after.proposals hash).Open) : Pointing after recorded :=
  pointing.grow grows sameSlots sameRequests fun hash isOpen => absurd isOpen (none hash)

end

section

variable {indexInlist : Nat} (pointing : Pointing base.core record)
  (isNode : isNodeAt tx base indexInlist = true)

include pointing isNode

theorem create (ballots : Ballots base.core record) {args : ProposalArgs} {curhash : Hash}
    {start endBlock : Uint256} (new : ((expireInProgress base).proposals curhash).flag = .noState)
    (recordedVotes : recorded.votes curhash = record.votes curhash ++ [tx.sender])
    (sameRequests : recorded.requests = record.requests) :
    Pointing (storedCore tx (expireInProgress base) indexInlist args curhash start endBlock)
      recorded := by
  have blank : (expireInProgress base).proposals curhash = {} :=
    (Cast.expireInProgress ballots.ballot curhash).blank new
  have onlyNew (hash : Hash)
      (isOpen : ((storedCore tx (expireInProgress base) indexInlist args curhash start
          endBlock).proposals hash).Open) : hash = curhash := by
    by_contra ne
    simp only [storedCore, update_of_ne ne] at isOpen
    exact ballots.none_pending hash isOpen.1
  refine ⟨fun hash isOpen => ?_, fun hash isOpen => ?_, ?_⟩
  · cases onlyNew hash isOpen
    have unvoted := (Cast.expireInProgress ballots.ballot).unvoted new
    simp only [storedCore, update_self, storedProposal, blank, recordedVotes, unvoted, State.core,
      expireInProgress_keeps]
    exact .cons (isAt_of_isNodeAt isNode) .nil
  · cases onlyNew hash isOpen
    simp only [storedCore, update_self, storedProposal, blank]
    exact take_prefix _ _
  · rw [sameRequests]
    simpa [storedCore, State.core] using pointing.requested

theorem vote {erc : Bool}
    (recordedVotes : recorded.votes = update record.votes hash (record.votes hash ++ [tx.sender]))
    (sameRequests : recorded.requests = record.requests) :
    Pointing
      { base.core with
        proposals :=
          update base.proposals hash (votedProposal tx (base.proposals hash) indexInlist erc) }
      recorded := by
  refine ⟨fun other isOpen => ?_, fun other isOpen => ?_, ?_⟩
  · by_cases same : other = hash
    · subst same
      simp only [update_self, recordedVotes] at isOpen ⊢
      exact forall₂_concat (pointing.voted other isOpen) (isAt_of_isNodeAt isNode)
    · simp only [update_of_ne same, recordedVotes] at isOpen ⊢
      exact pointing.voted other isOpen
  · by_cases same : other = hash
    · subst same
      simp only [update_self] at isOpen ⊢
      exact pointing.listed other isOpen
    · simp only [update_of_ne same] at isOpen ⊢
      exact pointing.listed other isOpen
  · rw [sameRequests]
    exact pointing.requested

end

theorem settle (ballots : Ballots base.core record) {change : NodeChange} {prop : Proposal}
    (pending : (base.proposals hash).flag = .pending) (noRequests : recorded.requests = []) :
    Pointing
      { change.core base prop positions with
        proposals := update base.proposals hash { base.proposals hash with distributeFlag := 1 } }
      recorded := by
  have none (other : Hash) : ¬ (update base.proposals hash
        { base.proposals hash with distributeFlag := 1 } other).Open := by
    intro isOpen
    by_cases same : other = hash
    · simp [same, Proposal.Open] at isOpen
    · rw [update_of_ne same] at isOpen
      exact same (ballots.pending_unique pending isOpen.1)
  refine ⟨fun other isOpen => absurd isOpen (none other),
    fun other isOpen => absurd isOpen (none other), ?_⟩
  simp [NodeChange.core, noRequests]

theorem not_open_distributed (ballots : Ballots base.core record)
    (pending : (base.proposals hash).flag = .pending) (other : Hash) :
    ¬ ((distributedCore base hash).proposals other).Open := by
  intro isOpen
  by_cases same : other = hash
  · simp [same, distributedCore, Proposal.Open] at isOpen
  · simp only [distributedCore, update_of_ne same] at isOpen
    exact same (ballots.pending_unique pending isOpen.1)

theorem outcome (pointing : Pointing base.core record) (whole : Whole base.core)
    (ballots : Ballots base.core record) (gathered : Gathered base call)
    (stays : ¬ Closes base call) (taken : Outcome env tx base call core res) :
    Pointing core (record.after tx.sender call res) := by
  have same : base.nodeList <+: base.nodeList := prefix_refl _
  cases taken with
  | stutter stutters =>
    rw [Record.after_of_stutter stutters]
    exact pointing
  | shut | backUp | upToDate | recount => exact pointing.grow same rfl rfl fun _ _ => ⟨rfl, rfl⟩
  | enrol => exact pointing.grow (prefix_append _ _) rfl rfl fun _ _ => ⟨rfl, rfl⟩
  | ask isNode room isRequested fresh =>
    refine ⟨pointing.voted, pointing.listed, ?_⟩
    simp only [whole.take_ask room]
    exact forall₂_concat pointing.requested isNode
  | scatter isOpen few released =>
    have none : base.nodeCount = 0 := gathered.resolve_right few.not_ge
    rw [none] at released
    cases released
    exact pointing.grow same rfl rfl fun _ _ => ⟨rfl, rfl⟩
  | drop =>
    refine pointing.close ?_ ?_ rfl fun hash isOpen => ballots.none_pending hash isOpen.1
    · simp [State.core]
    · simp [State.core]
  | @create indexInlist args curhash start endBlock isNode isHash new =>
    have named : args.hashlist.getD 1 0 = curhash := by simp [isHash]
    refine pointing.create isNode ballots new ?_ rfl
    simp only [Record.after, named, update_self]
  | vote isNode => exact pointing.vote isNode rfl rfl
  | @lapse indexInlist hash isNode pending inProgress late =>
    refine pointing.close same rfl rfl fun other isOpen => ?_
    by_cases isHash : other = hash
    · simp [State.core, expire, isHash, Proposal.Open] at isOpen
    · simp only [State.core, expire, update_of_ne isHash] at isOpen
      exact isHash (ballots.pending_unique pending isOpen.1)
  | overwrite => exact gathered.elim
  | @settle indexInlist hash settled isNode pending inProgress inTime majority done =>
    obtain ⟨change, isChange, changed⟩ := whole.settleNodes_eq done
    have sameProposals : settled.proposals = base.proposals :=
      (SameProposals.of_ledger (ledger_settleNodes done)).1
    rw [changed, sameProposals]
    exact settle ballots pending rfl
  | distribute pending => exact pointing.close same rfl rfl (not_open_distributed ballots pending)
  | @retire hash paid retired pending approved leaving isPaid done =>
    have none : base.nodeCount = 0 := not_not.mp fun some => stays ⟨leaving, some⟩
    have empty : base.nodeList = [] := length_eq_zero_iff.mp (whole.counted.symm.trans none)
    have wholePaid := whole.distribute isPaid
    obtain ⟨calls, isRetired⟩ := withdrawal_eq wholePaid.joinCounted done
    rw [isRetired, isPaid]
    refine pointing.close ?_ rfl rfl (not_open_distributed ballots pending)
    simp [State.core, empty]

end Pointing

/-- The lists are whole and the positions name the nodes of the record. -/
structure Alive (core : Core) (record : Record) : Prop where
  whole : Whole core
  pointing : Pointing core record

/-- What holds in every run of gathered calls. -/
structure Steady (core : Core) (record : Record) : Prop where
  ballots : Ballots core record
  alive : Alive core record ∨ Dead core

theorem Steady.outcome (steady : Steady base.core record) (gathered : Gathered base call)
    (taken : Outcome env tx base call core res) :
    Steady core (record.after tx.sender call res) := by
  refine ⟨steady.ballots.outcome taken gathered.keeps, ?_⟩
  rcases steady.alive with alive | dead
  · by_cases closes : Closes base call
    · rcases alive.whole.closes steady.ballots closes taken with ⟨rfl, rfl⟩ | dead
      · rw [Record.after_of_stutter (.inr rfl)]
        exact .inl alive
      · exact .inr dead
    · exact .inl ⟨alive.whole.outcome gathered closes taken,
          alive.pointing.outcome alive.whole steady.ballots gathered closes taken⟩
  · exact .inr (dead.outcome gathered taken)

theorem Steady.step {trace : Trace} {event : Tx × Call}
    (steady : Steady trace.state.core trace.record) (gathered : Gathered trace.state event.2) :
    Steady (trace.next env event).state.core (trace.next env event).record := by
  obtain ⟨balance, taken⟩ := outcome_perform env event.1 trace.state event.2
  have paid : Steady { trace.state with balance := balance }.core trace.record := steady
  exact paid.outcome gathered taken

theorem steady_of_deploy {protocol : SubChainProtocolBase.State} {min max : Nat}
    {thousandth flushRound : Uint256}
    (deployed : deploy env tx protocol min max thousandth flushRound = some base) :
    Steady base.core {} := by
  have ballots := ballots_of_deploy deployed
  have whole := (whole_of_deploy deployed).1
  simp only [deploy, Option.ite_none_left_eq_some, Option.some_inj] at deployed
  obtain ⟨-, rfl⟩ := deployed
  exact ⟨ballots, .inl ⟨whole, .initial rfl rfl⟩⟩

end MoacVnode.Solidity.SubChainBase
