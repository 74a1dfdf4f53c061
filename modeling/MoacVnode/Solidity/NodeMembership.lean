import MoacVnode.Solidity.SubChainRuns

/-!
# The nodes of a subchain

`Whole` is what the functions that look a node up by its position rely on: the counters agree with
the arrays, and no address is listed twice.
-/

namespace MoacVnode.Solidity.SubChainBase

open MoacVnode.Core Lib List Nat

variable {prop : Proposal} {change : NodeChange}

/-- The lists, their counters and the requests agree. -/
structure Whole (core : Core) : Prop where
  counted : core.nodeCount = core.nodeList.length
  joinCounted : core.joinCntNow = core.nodesToJoin.length
  nodup : (core.nodeList ++ core.nodesToJoin).Nodup
  nonzero : 0 ∉ core.nodeList ++ core.nodesToJoin
  settled : core.nodesToDispel = []
  slots : core.nodesToRelease.length = 5
  requestCount : core.nodeToReleaseCount ≤ 5
  requests : (core.nodesToRelease.take core.nodeToReleaseCount).Nodup

/-- The contract after its closing: no call brings it back. -/
structure Dead (core : Core) : Prop where
  closed : core.closed = true
  empty : core.nodeCount = 0
  cleared : ∀ node ∈ core.nodeList, node = 0
  noProposal : ∀ hash, (core.proposals hash).flag ≠ .pending

variable {env : Env} {tx : Tx} {base next : State} {call : Call} {core : Core}
  {res : Bool} {record : Record} {hash : Hash} {node : Address}

theorem nodup_insert {first second : List Address} (nodup : (first ++ second).Nodup)
    (notFirst : node ∉ first) (notSecond : node ∉ second) : (first ++ [node] ++ second).Nodup := by
  rw [append_assoc]
  refine perm_middle.nodup_iff.mpr (nodup_cons.mpr ⟨?_, nodup⟩)
  simp [notFirst, notSecond]

theorem releaseBackups_eq {i : Nat} (done : releaseBackups env tx i base = some next)
    (counted : i = base.nodesToJoin.length) :
    ∃ protocol calls,
      next = { base with protocol := protocol, calls := calls, nodesToJoin := [] } := by
  induction i generalizing base with
  | zero =>
    cases done
    have none : next.nodesToJoin = [] := length_eq_zero_iff.mp counted.symm
    exact ⟨next.protocol, next.calls, by rw [← none]⟩
  | succ i ih =>
    simp only [releaseBackups, bind_some_iff] at done
    obtain ⟨cur, -, released, release, done⟩ := done
    obtain ⟨protocol, rfl⟩ := releaseFromSubchain_eq release
    obtain ⟨protocol, calls, rfl⟩ := ih done (by simp [← counted])
    exact ⟨protocol, calls, rfl⟩

theorem withdrawal_eq (joinCounted : base.joinCntNow = base.nodesToJoin.length)
    (done : withdrawal env tx base = some next) :
    ∃ calls,
      next.core =
        { base.core with
          calls := calls
          closed := true
          nodeCount := 0
          nodeList := List.replicate base.nodeCount 0 ++ base.nodeList.drop base.nodeCount
          nodesToJoin := []
          joinCntNow := 0 } := by
  simp only [withdrawal, bind_some_iff, Option.pure_def, Option.some_inj] at done
  obtain ⟨released, release, backups, backup, rfl⟩ := done
  obtain ⟨protocol, calls, rfl⟩ := releaseNodes_eq release
  obtain ⟨protocol, calls, rfl⟩ := releaseBackups_eq backup joinCounted
  exact ⟨calls, rfl⟩

namespace Whole

variable {performance : Address → Nat} {idx : Nat}

section

variable (whole : Whole base.core)

include whole

theorem requested_eq :
    requested base = some (base.nodesToRelease.take base.nodeToReleaseCount) := by
  refine mapM_range_getElem? ?_
  have slots : base.nodesToRelease.length = 5 := whole.slots
  rw [slots]
  exact whole.requestCount

theorem enrol (nonzero : node ≠ 0) (notNode : node ∉ base.nodeList)
    (notWaiting : node ∉ base.nodesToJoin) :
    Whole
      { base.core with
        nodeList := base.nodeList ++ [node]
        nodeCount := base.nodeCount + 1
        nodePerformance := performance } :=
  { whole with
    counted := by
      have counted : base.nodeCount = base.nodeList.length := whole.counted
      simp [counted]
    nodup := nodup_insert whole.nodup notNode notWaiting
    nonzero := by
      have old := whole.nonzero
      simp only [mem_append, not_or, mem_singleton] at old ⊢
      exact ⟨⟨old.1, nonzero.symm⟩, old.2⟩ }

theorem backUp (nonzero : node ≠ 0) (notNode : node ∉ base.nodeList)
    (notWaiting : node ∉ base.nodesToJoin) :
    Whole
      { base.core with
        nodesToJoin := base.nodesToJoin ++ [node]
        joinCntNow := base.joinCntNow + 1
        nodePerformance := performance } :=
  { whole with
    joinCounted := by
      have joinCounted : base.joinCntNow = base.nodesToJoin.length := whole.joinCounted
      simp [joinCounted]
    nodup := by
      have old : (base.nodeList ++ base.nodesToJoin ++ []).Nodup := by
        simpa [State.core] using whole.nodup
      simpa [State.core] using nodup_insert old (by simp [notNode, notWaiting]) not_mem_nil
    nonzero := by
      have old := whole.nonzero
      simp only [mem_append, not_or, mem_singleton] at old ⊢
      exact ⟨old.1, old.2, nonzero.symm⟩ }

theorem take_ask (room : base.nodeToReleaseCount < 5) :
    (base.nodesToRelease.set base.nodeToReleaseCount idx).take (base.nodeToReleaseCount + 1) =
      base.nodesToRelease.take base.nodeToReleaseCount ++ [idx] := by
  have slots : base.nodesToRelease.length = 5 := whole.slots
  rw [take_succ_eq_append_getElem (by simpa [slots] using room), getElem_set_self,
    take_set_of_le le_rfl]

theorem ask {old : List Nat} (room : base.nodeToReleaseCount < 5)
    (isRequested : requested base = some old) (fresh : idx ∉ old) :
    Whole
      { base.core with
        nodesToRelease := base.nodesToRelease.set base.nodeToReleaseCount idx
        nodeToReleaseCount := base.nodeToReleaseCount + 1 } := by
  rw [whole.requested_eq, Option.some_inj] at isRequested
  have slots : base.nodesToRelease.length = 5 := whole.slots
  refine { whole with slots := ?_, requestCount := room, requests := ?_ }
  · simpa using slots
  · have requests : old.Nodup := isRequested ▸ whole.requests
    simp only [whole.take_ask room, isRequested]
    refine nodup_append.mpr ⟨requests, by simp, ?_⟩
    rintro asked isAsked other isIndex rfl
    exact fresh (mem_singleton.mp isIndex ▸ isAsked)

end

theorem settle (whole : Whole base.core) {positions : List Nat}
    (isChange : change.Of base prop positions) :
    Whole (change.core base prop positions) := by
  have nodup : (base.nodeList ++ base.nodesToJoin).Nodup := whole.nodup
  have nonzero : 0 ∉ base.nodeList ++ base.nodesToJoin := whole.nonzero
  obtain ⟨nodupNodes, nodupWaiting, disjoint⟩ := nodup_append.mp nodup
  have within : change.left ⊆ base.nodeList :=
    fun _ mem => isChange.kept.subset (isChange.left.subset mem)
  refine { whole with
    counted := ?_, joinCounted := rfl, nodup := ?_, nonzero := ?_, settled := rfl
    requestCount := ?_, requests := ?_ }
  · simp [NodeChange.core]
  · simp only [NodeChange.core, append_assoc]
    refine nodup_append.mpr ⟨isChange.left.nodup (isChange.kept.nodup nodupNodes),
      isChange.joined.nodup_iff.mpr nodupWaiting, ?_⟩
    exact fun node isLeft other isOther =>
      disjoint node (within isLeft) other (isChange.joined.mem_iff.mp isOther)
  · simp only [NodeChange.core, append_assoc, mem_append] at nonzero ⊢
    rintro (isLeft | isOther)
    · exact nonzero (.inl (within isLeft))
    · exact nonzero (.inr (isChange.joined.mem_iff.mp (mem_append.mpr isOther)))
  · exact zero_le 5
  · simp [NodeChange.core]

theorem settleNodes_eq (whole : Whole base.core) (done : settleNodes env tx base prop = some next) :
    ∃ change : NodeChange,
      change.Of base prop (base.nodesToRelease.take base.nodeToReleaseCount) ∧
        next.core = change.core base prop (base.nodesToRelease.take base.nodeToReleaseCount) :=
  SubChainBase.settleNodes_eq whole.counted whole.settled whole.joinCounted whole.requested_eq
    whole.requests done

theorem expireInProgress (whole : Whole base.core) :
    Whole (SubChainBase.expireInProgress base).core := by
  unfold SubChainBase.expireInProgress
  split
  · exact { whole with }
  · exact whole

theorem distribute (whole : Whole base.core) {paid : State}
    (isPaid : paid.core = distributedCore base hash) : Whole paid.core := by
  rw [isPaid]
  exact { whole with }

end Whole

/-- `registerClose` is not called with some nodes, but too few of them, and `getVnodeInfo` is not
sent as a transaction. -/
def Gathered (base : State) : Call → Prop
  | .registerClose => base.nodeCount = 0 ∨ base.minMember ≤ base.nodeCount
  | .getVnodeInfo => False
  | _ => True

theorem Gathered.keeps (gathered : Gathered base call) : call ≠ .getVnodeInfo := by
  rintro rfl
  exact gathered

/-- The call is one that closes a subchain with nodes when it pays. -/
def Closes (base : State) : Call → Prop
  | .requestDistributeAction _ => base.subchainstatus = .pending ∧ base.nodeCount ≠ 0
  | _ => False

theorem Whole.outcome (whole : Whole base.core) (gathered : Gathered base call)
    (stays : ¬ Closes base call) (taken : Outcome env tx base call core res) : Whole core := by
  cases taken with
  | stutter => exact whole
  | shut | upToDate | vote | lapse | distribute => exact { whole with }
  | enrol isOpen room notNode notWaiting => exact whole.enrol tx.nonzero notNode notWaiting
  | backUp isOpen notNode notWaiting => exact whole.backUp tx.nonzero notNode notWaiting
  | ask isNode room isRequested fresh => exact whole.ask room isRequested fresh
  | recount => exact { whole with joinCounted := rfl }
  | overwrite => exact gathered.elim
  | @scatter cleared isOpen few released =>
    have none : base.nodeCount = 0 := gathered.resolve_right few.not_ge
    rw [none] at released
    cases released
    exact { whole with counted := none.symm.trans whole.counted }
  | drop => exact whole.expireInProgress
  | create => exact { whole.expireInProgress with }
  | settle isNode pending inProgress inTime majority done =>
    obtain ⟨change, isChange, changed⟩ := whole.settleNodes_eq done
    rw [changed]
    exact { whole.settle isChange with }
  | @retire hash paid retired pending approved leaving isPaid done =>
    have none : base.nodeCount = 0 := not_not.mp fun some => stays ⟨leaving, some⟩
    have wholePaid := whole.distribute isPaid
    have nonePaid : paid.core.nodeCount = 0 := isPaid ▸ none
    obtain ⟨calls, isRetired⟩ := withdrawal_eq wholePaid.joinCounted done
    have empty : paid.nodeList = [] := length_eq_zero_iff.mp (wholePaid.counted.symm.trans nonePaid)
    have noCount : paid.nodeCount = 0 := nonePaid
    rw [isRetired, empty, noCount]
    exact
      { wholePaid with
        counted := rfl
        joinCounted := rfl
        nodup := nodup_nil
        nonzero := not_mem_nil }

theorem Whole.closes (whole : Whole base.core) (ballots : Ballots base.core record)
    (closes : Closes base call) (taken : Outcome env tx base call core res) :
    core = base.core ∧ res = false ∨ Dead core := by
  cases taken with
  | stutter stutters =>
    refine .inl ⟨rfl, stutters.resolve_left fun silent => ?_⟩
    cases call <;> first | exact closes.elim | exact silent.elim
  | distribute pending approved staying => exact absurd closes.1 staying
  | @retire hash paid retired pending approved leaving isPaid done =>
    have wholePaid := whole.distribute isPaid
    obtain ⟨calls, isRetired⟩ := withdrawal_eq wholePaid.joinCounted done
    have counted : paid.nodeCount = paid.nodeList.length := wholePaid.counted
    right
    rw [isRetired]
    refine ⟨rfl, rfl, fun node mem => ?_, fun other isPending => ?_⟩
    · simp only [counted, drop_length, append_nil] at mem
      exact (mem_replicate.mp mem).2
    · -- Only the distributed proposal was pending.
      have proposals : paid.proposals = (distributedCore base hash).proposals :=
        congrArg Core.proposals isPaid
      simp only [State.core, proposals, distributedCore] at isPending
      by_cases same : other = hash
      · simp [same] at isPending
      · rw [Function.update_of_ne same] at isPending
        exact same (ballots.pending_unique pending isPending)
  | _ => exact closes.elim

theorem Dead.not_nodeAt (dead : Dead base.core) {pos : Nat}
    (isNode : isNodeAt tx base pos = true) : False := by
  have empty : base.nodeCount = 0 := dead.empty
  simp [isNodeAt, empty] at isNode

theorem Dead.outcome (dead : Dead base.core) (gathered : Gathered base call)
    (taken : Outcome env tx base call core res) : Dead core := by
  have notOpen : base.subchainstatus ≠ .open := by simpa [State.core] using dead.closed
  cases taken with
  | stutter => exact dead
  | shut => exact { dead with closed := rfl }
  | upToDate => exact { dead with }
  | ask isNode => exact absurd (dead.cleared _ (mem_of_getElem? isNode)) tx.nonzero
  | enrol isOpen | backUp isOpen | recount isOpen | scatter isOpen => exact absurd isOpen notOpen
  | drop isNode | create isNode | vote isNode | lapse isNode | settle isNode =>
    exact (dead.not_nodeAt isNode).elim
  | distribute pending | retire pending => exact absurd pending (dead.noProposal _)
  | overwrite => exact gathered.elim

def remaining (base : State) (prop : Proposal) : Nat :=
  ((List.range base.nodeCount).filter fun pos =>
    decide (pos ∈ dispelled base prop) = false).length - base.nodeToReleaseCount

def readyToJoin (base : State) : List Address :=
  base.nodesToJoin.filter fun node => base.nodePerformance node = NODE_INIT_PERFORMANCE

/-- Nobody registers as a node when the limit is reached, the nodes that join after an approval fit,
neither `registerClose` nor the last distribution clears entries of `nodeList`, and `getVnodeInfo`
is not sent as a transaction. -/
def Roomy (base : State) : Call → Prop
  | .registerAsSCS _ _ _ _ => base.nodeCount < base.maxMember
  | .registerClose => base.nodeCount = 0 ∨ base.minMember ≤ base.nodeCount
  | .requestProposalAction _ hash =>
    base.registerFlag = 2 →
      remaining base (base.proposals hash) + (readyToJoin base).length ≤ base.maxMember
  | .requestDistributeAction _ => base.subchainstatus = .pending → base.nodeCount = 0
  | .getVnodeInfo => False
  | _ => True

instance (base : State) : DecidablePred (Roomy base) := fun call => by
  cases call <;> unfold Roomy <;> infer_instance

theorem Roomy.gathered (roomy : Roomy base call) : Gathered base call := by
  cases call with
  | registerClose | getVnodeInfo => exact roomy
  | _ => trivial

theorem Roomy.stays (roomy : Roomy base call) : ¬ Closes base call := by
  cases call with
  | requestDistributeAction hash => exact fun closes => closes.2 (roomy closes.1)
  | _ => exact id

theorem Whole.length_left (whole : Whole base.core)
    (isChange : change.Of base prop (base.nodesToRelease.take base.nodeToReleaseCount)) :
    change.left.length = remaining base prop := by
  have counted : base.nodeCount = base.nodeList.length := whole.counted
  have slots : base.nodesToRelease.length = 5 := whole.slots
  have requestCount : base.nodeToReleaseCount ≤ 5 := whole.requestCount
  have requests : (base.nodesToRelease.take base.nodeToReleaseCount).Nodup := whole.requests
  rw [isChange.left.length_eq, length_filter_not_mem requests isChange.releaseInside,
    isChange.kept.length_eq, remaining, counted, length_take, slots,
    min_eq_left requestCount]

theorem remaining_le (base : State) (prop : Proposal) : remaining base prop ≤ base.nodeCount := by
  refine (sub_le _ _).trans ((length_filter_le _ _).trans ?_)
  rw [length_range]

theorem Whole.bounded (whole : Whole base.core) (bounded : base.nodeCount ≤ base.maxMember)
    (roomy : Roomy base call) (taken : Outcome env tx base call core res) :
    core.nodeCount ≤ core.maxMember := by
  cases taken with
  | enrol => exact roomy
  | scatter => exact zero_le _
  | drop => simpa [State.core] using bounded
  | create => simpa [storedCore, State.core] using bounded
  | settle isNode pending inProgress inTime majority done =>
    obtain ⟨change, isChange, changed⟩ := whole.settleNodes_eq done
    have left := whole.length_left isChange
    have joined : change.joined.length ≤ (readyToJoin base).length := by
      obtain ⟨-, nodupWaiting, disjoint⟩ := nodup_append.mp whole.nodup
      have nodup : change.joined.Nodup :=
        (nodup_append.mp (isChange.joined.nodup_iff.mpr nodupWaiting)).1
      refine (subperm_of_subset nodup fun node mem => ?_).length_le
      have waits : node ∈ base.nodesToJoin := isChange.joined.mem_iff.mp (mem_append_left _ mem)
      have notNode : node ∉ base.nodeList := fun isNode => disjoint node isNode node waits rfl
      refine mem_filter.mpr ⟨waits, ?_⟩
      rw [← isChange.performance node notNode]
      exact decide_eq_true (isChange.ready node mem)
    rw [changed]
    change change.left.length + change.joined.length ≤ base.maxMember
    by_cases adding : base.registerFlag = 2
    · have room := roomy adding
      omega
    · rw [isChange.noJoin adding, left]
      exact (remaining_le base _).trans bounded
  | retire pending approved leaving isPaid done =>
    have wholePaid := whole.distribute isPaid
    obtain ⟨calls, isRetired⟩ := withdrawal_eq wholePaid.joinCounted done
    rw [isRetired]
    exact zero_le _
  | overwrite => exact roomy.elim
  | _ => exact bounded

/-- What the contract keeps about its nodes. -/
structure Membership (base : State) : Prop where
  counted : base.nodeList.length = base.nodeCount
  bounded : base.nodeCount ≤ base.maxMember
  nodup : base.nodeList.Nodup
  nonzero : 0 ∉ base.nodeList
  joinCounted : base.joinCntNow = base.nodesToJoin.length
  disjoint : base.nodeList.Disjoint base.nodesToJoin

def step (env : Env) (base : State) (event : Tx × Call) : State :=
  (perform env event.1 base event.2).1

theorem Whole.membership (whole : Whole base.core) (bounded : base.nodeCount ≤ base.maxMember) :
    Membership base where
  counted := whole.counted.symm
  bounded := bounded
  nodup := (nodup_append.mp whole.nodup).1
  nonzero isNode := whole.nonzero (mem_append_left _ isNode)
  joinCounted := whole.joinCounted
  disjoint := disjoint_of_nodup_append whole.nodup

theorem Whole.initial (unused : base.nodeList = [] ∧ base.nodesToJoin = [])
    (counts : base.nodeCount = 0 ∧ base.joinCntNow = 0 ∧ base.nodeToReleaseCount = 0)
    (positions : base.nodesToDispel = [] ∧ base.nodesToRelease = List.replicate 5 0) :
    Whole base.core := by
  constructor <;> simp [State.core, unused, counts, positions]

theorem whole_of_deploy {protocol : SubChainProtocolBase.State} {min max : Nat}
    {thousandth flushRound : Uint256}
    (deployed : deploy env tx protocol min max thousandth flushRound = some base) :
    Whole base.core ∧ base.nodeCount = 0 := by
  simp only [deploy, Option.ite_none_left_eq_some, Option.some_inj] at deployed
  obtain ⟨-, rfl⟩ := deployed
  exact ⟨.initial ⟨rfl, rfl⟩ ⟨rfl, rfl, rfl⟩ ⟨rfl, rfl⟩, rfl⟩

theorem Whole.step {event : Tx × Call}
    (alive : Whole base.core ∧ base.nodeCount ≤ base.maxMember) (roomy : Roomy base event.2) :
    Whole (step env base event).core ∧
      (SubChainBase.step env base event).nodeCount ≤
        (SubChainBase.step env base event).maxMember := by
  obtain ⟨whole, bounded⟩ := alive
  obtain ⟨balance, taken⟩ := outcome_perform env event.1 base event.2
  have paid : Whole { base with balance := balance }.core := whole
  exact ⟨paid.outcome roomy.gathered roomy.stays taken, paid.bounded bounded roomy taken⟩

/-- In every run of `Roomy` calls, the list of the nodes agrees with its count, its limit and the
nodes that wait to join. -/
theorem node_membership_of_run {creation : Tx} {protocol : SubChainProtocolBase.State}
    {min max : Nat} {thousandth flushRound : Uint256}
    (deployed : deploy env creation protocol min max thousandth flushRound = some base)
    (events : List (Tx × Call))
    (roomy : EachFold (step env) (fun base event => Roomy base event.2) base events) :
    Membership (events.foldl (step env) base) := by
  obtain ⟨whole, empty⟩ := whole_of_deploy deployed
  have alive :=
    foldl_invariant (fun base => Whole base.core ∧ base.nodeCount ≤ base.maxMember)
      Whole.step ⟨whole, empty.le.trans (zero_le _)⟩ roomy
  exact alive.1.membership alive.2

/-- With one node of the three it needs, `registerClose` clears the entry and not the
array; and a twelfth node registers although there may be eleven. -/
theorem close_clears_and_limit_passed :
    let closed := (opening [0]).foldl (step plainEnv) (smallSubchain 3 (by decide))
    let full :=
      (enrolment [0, 1, 2, 3, 4, 5, 6, 7, 8, 9, 10, 11]).foldl (step plainEnv)
        (smallSubchain 1 (by decide))
    (closed.nodeList = [0] ∧ closed.nodeCount = 0) ∧ full.nodeCount = 12 ∧ full.maxMember = 11 := by
  decide +kernel

/-- Three nodes register. -/
theorem three_nodes_membership :
    let nodes := (opening [0, 1, 2]).foldl (step plainEnv) (smallSubchain 3 (by decide))
    nodes.nodeCount = 3 ∧ Membership nodes := by
  intro nodes
  refine ⟨by decide +kernel, ?_⟩
  exact node_membership_of_run (deploy_smallSubchain 3 (by decide)) (opening [0, 1, 2])
    (by decide +kernel)

end MoacVnode.Solidity.SubChainBase
