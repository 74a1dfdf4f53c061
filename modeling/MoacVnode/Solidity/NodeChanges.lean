import MoacVnode.Lib.MarkedRemoval
import MoacVnode.Solidity.SubChainBase

/-!
# What an approved proposal does to the nodes

Each loop of `requestProposalAction` is described by the state it leaves: which
nodes are punished, which positions are taken out of the list, and which nodes
join.
-/

namespace MoacVnode.Solidity.SubChainBase

open MoacVnode.Core Lib
open Option (bind_eq_bind pure_def some_inj)
open Nat

variable {nodeList : List Address} {pos i : Nat} {scs : Address} {prop : Proposal}
  {nodeMark marked : List Bool} {positions : List Nat}

def nodeAt (nodeList : List Address) (pos : Nat) : Address := nodeList.getD pos 0

theorem nodeAt_of_getElem? {node : Address} (got : nodeList[pos]? = some node) :
    nodeAt nodeList pos = node := by
  simp [nodeAt, got]

theorem getElem?_nodeAt (inside : pos < nodeList.length) :
    nodeList[pos]? = some (nodeAt nodeList pos) := by
  simp [nodeAt, inside]

variable {env : Env} {tx : Tx} {base next : State}

theorem forfeitBond_eq (done : forfeitBond env tx base scs = some next) :
    ∃ protocol balance,
      next =
        { base with
          protocol := protocol
          balance := balance
          calls := base.calls ++ [.forfeitBond scs] } := by
  simp only [forfeitBond, bind_some_iff, pure_def, some_inj] at done
  obtain ⟨⟨protocol, paid⟩, -, rfl⟩ := done
  exact ⟨protocol, _, rfl⟩

theorem releaseFromSubchain_eq (done : releaseFromSubchain env tx base scs = some next) :
    ∃ protocol,
      next =
        { base with
          protocol := protocol
          calls := base.calls ++ [.releaseFromSubchain scs] } := by
  simp only [releaseFromSubchain, bind_some_iff, pure_def, some_inj] at done
  obtain ⟨⟨protocol, released⟩, -, rfl⟩ := done
  exact ⟨protocol, rfl⟩

variable (performance : Address → Nat)

def zeroed (nodes : List Address) (node : Address) : Nat :=
  if node ∈ nodes then 0 else performance node

@[simp]
theorem zeroed_nil : zeroed performance [] = performance := by
  funext node
  simp [zeroed]

theorem zeroed_update (first : Address) (nodes : List Address) :
    zeroed (Function.update performance first 0) nodes = zeroed performance (first :: nodes) := by
  funext node
  by_cases same : node = first
  · simp [zeroed, same]
  · simp [zeroed, same]

theorem punishBadActors_eq {bad : List Nat} (done : punishBadActors env tx bad base = some next) :
    (∀ badguy ∈ bad, badguy < base.nodeList.length) ∧
      ∃ protocol balance,
        next =
          { base with
            protocol := protocol
            balance := balance
            nodePerformance := zeroed base.nodePerformance (bad.map (nodeAt base.nodeList))
            nodesToDispel := base.nodesToDispel ++ bad
            calls :=
              base.calls ++ bad.map fun badguy => .forfeitBond (nodeAt base.nodeList badguy) } := by
  induction bad generalizing base with
  | nil =>
    cases done
    exact ⟨by simp, next.protocol, next.balance, by simp⟩
  | cons badguy bad ih =>
    simp only [punishBadActors, bind_some_iff] at done
    obtain ⟨node, got, forfeited, forfeit, done⟩ := done
    obtain ⟨protocol, balance, rfl⟩ := forfeitBond_eq forfeit
    obtain ⟨inside, protocol, balance, rfl⟩ := ih done
    have isNode := nodeAt_of_getElem? got
    refine ⟨?_, protocol, balance, ?_⟩
    · exact List.forall_mem_cons.mpr ⟨(List.getElem?_eq_some_iff.mp got).1, inside⟩
    · simp [zeroed_update, isNode]

theorem punishIdle_eq {indices : List Nat} {num : Nat}
    (done : punishIdle env tx indices num base = some next) :
    ∃ protocol balance,
      next =
        { base with
          protocol := protocol
          balance := balance
          nodesToDispel :=
            base.nodesToDispel ++
              (indices.filter fun i => base.nodePerformance (nodeAt base.nodeList i) = 0).take num
          calls :=
            base.calls ++ ((indices.filter fun i =>
                base.nodePerformance (nodeAt base.nodeList i) = 0).take num).map fun i =>
                  .forfeitBond (nodeAt base.nodeList i) } := by
  induction indices generalizing base num with
  | nil =>
    cases done
    exact ⟨next.protocol, next.balance, by simp⟩
  | cons i indices ih =>
    cases num with
    | zero =>
      cases done
      exact ⟨next.protocol, next.balance, by simp⟩
    | succ num =>
      simp only [punishIdle, bind_some_iff] at done
      obtain ⟨node, got, done⟩ := done
      have isNode := nodeAt_of_getElem? got
      split at done
      · rename_i idle
        simp only [bind_some_iff] at done
        obtain ⟨forfeited, forfeit, done⟩ := done
        obtain ⟨protocol, balance, rfl⟩ := forfeitBond_eq forfeit
        obtain ⟨protocol, balance, rfl⟩ := ih done
        exact ⟨protocol, balance, by simp [isNode, idle]⟩
      · rename_i active
        obtain ⟨protocol, balance, rfl⟩ := ih done
        exact ⟨protocol, balance, by simp [isNode, active]⟩

/-- The positions that an approved proposal dispels: those of its bad actors, and of
nodes of performance 0 as long as there are less than `MAX_DELETE_NUM`. -/
def dispelled (base : State) (prop : Proposal) : List Nat :=
  let performance := zeroed base.nodePerformance (prop.badActors.map (nodeAt base.nodeList))
  prop.badActors ++ ((List.range base.nodeCount).filter fun i =>
      performance (nodeAt base.nodeList i) = 0).take (MAX_DELETE_NUM - prop.badActors.length)

theorem punish_eq (none : base.nodesToDispel = []) (done : punish env tx base prop = some next) :
    (∀ badguy ∈ prop.badActors, badguy < base.nodeList.length) ∧
      ∃ protocol balance,
        next =
          { base with
            protocol := protocol
            balance := balance
            nodePerformance :=
              zeroed base.nodePerformance (prop.badActors.map (nodeAt base.nodeList))
            nodesToDispel := dispelled base prop
            calls :=
              base.calls ++ (dispelled base prop).map fun i =>
                  .forfeitBond (nodeAt base.nodeList i) } := by
  simp only [punish, bind_some_iff] at done
  obtain ⟨punished, badPunished, done⟩ := done
  obtain ⟨inside, protocol, balance, rfl⟩ := punishBadActors_eq badPunished
  refine ⟨inside, ?_⟩
  split at done
  · obtain ⟨protocol, balance, rfl⟩ := punishIdle_eq done
    exact ⟨protocol, balance, by simp [dispelled, none]⟩
  · rename_i full
    cases done
    have noneLeft : MAX_DELETE_NUM - prop.badActors.length = 0 := by
      simpa [none, Nat.sub_eq_zero_iff_le] using full
    exact ⟨protocol, balance, by simp [dispelled, none, noneLeft]⟩

theorem rewardVoters_eq {voters : List Nat} (done : rewardVoters voters base = some next) :
    ∃ performance,
      next = { base with nodePerformance := performance } ∧
        ∀ node, node ∉ base.nodeList → performance node = base.nodePerformance node := by
  induction voters generalizing base with
  | nil =>
    cases done
    exact ⟨next.nodePerformance, rfl, fun _ _ => rfl⟩
  | cons voter voters ih =>
    simp only [rewardVoters, bind_some_iff] at done
    obtain ⟨vt, got, done⟩ := done
    split at done
    · obtain ⟨performance, rfl, elsewhere⟩ := ih done
      refine ⟨performance, rfl, fun node absent => ?_⟩
      have ne : node ≠ vt := by
        rintro rfl
        exact absent (List.mem_of_getElem? got)
      exact (elsewhere node absent).trans (Function.update_of_ne ne _ _)
    · exact ih done

theorem removeMarked_eq {array : List Address} (marks : i ≤ nodeMark.length)
    (counted : base.nodeCount = base.nodeList.length)
    (remains : Remains (fun pos => nodeMark.getD pos false) array base.nodeList i) :
    ∃ rest,
      removeMarked nodeMark i base = some { base with nodeList := rest, nodeCount := rest.length } ∧
        Remains (fun pos => nodeMark.getD pos false) array rest 0 := by
  induction i generalizing base with
  | zero =>
    refine ⟨base.nodeList, ?_, remains⟩
    rw [removeMarked, ← counted]
  | succ i ih =>
    have mark : nodeMark[i]? = some (nodeMark.getD i false) := by simp [lt_of_succ_le marks]
    cases marked : nodeMark.getD i false with
    | true =>
      have long := remains.length_gt
      obtain ⟨shorter, deleted⟩ :
          ∃ shorter, swapDelete 0 base.nodeList i (base.nodeList.length - 1) = some shorter :=
        exists_swapDelete long (by omega)
      have removed := remains.remove marked deleted
      have shorterLength := length_of_swapDelete deleted
      obtain ⟨rest, done, finished⟩ :=
        @ih { base with nodeCount := base.nodeCount - 1, nodeList := shorter }
          (le_of_succ_le marks) (by simp [counted, shorterLength]) removed
      have step : removeMarked nodeMark (i + 1) base =
            removeMarked nodeMark i
              { base with nodeCount := base.nodeCount - 1, nodeList := shorter } := by
        rw [← counted] at deleted
        rw [marked] at mark
        simp only [removeMarked, mark, deleted, bind_eq_bind, Option.bind_some, if_true]
      exact ⟨rest, step.trans done, finished⟩
    | false =>
      obtain ⟨rest, done, finished⟩ := ih (le_of_succ_le marks) counted (remains.skip marked)
      rw [marked] at mark
      exact ⟨rest, by simpa [removeMarked, mark] using done, finished⟩

/-- The marks after these positions were marked too. -/
structure Marks (positions : List Nat) (before after : List Bool) : Prop where
  length : after.length = before.length
  inside : ∀ idx ∈ positions, idx < before.length
  marked : ∀ pos, after.getD pos false = true ↔ before.getD pos false = true ∨ pos ∈ positions

theorem marks_nil (nodeMark : List Bool) : Marks [] nodeMark nodeMark := ⟨rfl, by simp, by simp⟩

theorem Marks.cons {idx : Nat} {before after : List Bool}
    (inside : idx < before.length) (marks : Marks positions (before.set idx true) after) :
    Marks (idx :: positions) before after where
  length := marks.length.trans (List.length_set ..)
  inside := by
    refine List.forall_mem_cons.mpr ⟨inside, fun other otherMem => ?_⟩
    simpa using marks.inside other otherMem
  marked := by
    intro pos
    rw [marks.marked pos, List.mem_cons]
    by_cases same : pos = idx
    · subst same
      simp [inside]
    · simp [List.getElem?_set_ne (Ne.symm same), same]

theorem getD_replicate_false (count pos : Nat) :
    (List.replicate count false).getD pos false = false := by
  simp [List.getElem?_replicate, apply_ite (Option.getD · false)]

theorem Marks.getD_eq {count : Nat} {after : List Bool}
    (marks : Marks positions (List.replicate count false) after) :
    (fun pos => after.getD pos false) = fun pos => decide (pos ∈ positions) := by
  funext pos
  rw [Bool.eq_iff_iff, marks.marked pos, getD_replicate_false]
  simp

theorem marks_of_markDispelled (done : markDispelled positions nodeMark = some marked) :
    Marks positions nodeMark marked := by
  induction positions generalizing nodeMark with
  | nil =>
    cases done
    exact marks_nil marked
  | cons idx positions ih =>
    simp only [markDispelled] at done
    split at done
    · rename_i inside
      exact (ih done).cons inside
    · simp at done

theorem markReleased_eq (nodup : positions.Nodup)
    (unmarked : ∀ idx ∈ positions, nodeMark.getD idx false = false)
    (done : markReleased env tx positions nodeMark base = some (marked, next)) :
    Marks positions nodeMark marked ∧
      ∃ protocol,
        next =
          { base with
            protocol := protocol
            calls :=
              base.calls ++ positions.map fun idx =>
                  .releaseFromSubchain (nodeAt base.nodeList idx) } := by
  induction positions generalizing nodeMark base with
  | nil =>
    cases done
    exact ⟨marks_nil marked, next.protocol, by simp⟩
  | cons idx positions ih =>
    obtain ⟨fresh, nodupRest⟩ := List.nodup_cons.mp nodup
    obtain ⟨first, others⟩ := List.forall_mem_cons.mp unmarked
    simp only [markReleased, bind_some_iff] at done
    obtain ⟨mark, got, done⟩ := done
    have inside := (List.getElem?_eq_some_iff.mp got).1
    have notYet : mark = false := by simpa [got] using first
    subst notYet
    simp only [Bool.false_eq_true, if_false, bind_some_iff] at done
    obtain ⟨cur, isCur, released, release, done⟩ := done
    obtain ⟨protocol, rfl⟩ := releaseFromSubchain_eq release
    have stillUnmarked : ∀ other ∈ positions, (nodeMark.set idx true).getD other false = false := by
      intro other otherMem
      have ne : idx ≠ other := by
        rintro rfl
        exact fresh otherMem
      simpa [List.getElem?_set_ne ne] using others other otherMem
    obtain ⟨marks, protocol, rfl⟩ := ih nodupRest stillUnmarked done
    exact ⟨marks.cons inside, protocol, by simp [nodeAt_of_getElem? isCur]⟩

theorem removeMarked_of_marks {positions : List Nat} {nodeMark : List Bool}
    (counted : base.nodeCount = base.nodeList.length)
    (marks : Marks positions (List.replicate base.nodeCount false) nodeMark) :
    ∃ rest,
      removeMarked nodeMark base.nodeCount base =
          some { base with nodeList := rest, nodeCount := rest.length } ∧
        Remains (fun pos => decide (pos ∈ positions)) base.nodeList rest 0 := by
  have long : base.nodeCount ≤ nodeMark.length := by simp [marks.length]
  have start : Remains (fun pos => nodeMark.getD pos false) base.nodeList base.nodeList
        base.nodeCount := by
    rw [counted]
    exact remains_start
  obtain ⟨rest, done, remains⟩ := removeMarked_eq long counted start
  rw [marks.getD_eq] at remains
  exact ⟨rest, done, remains⟩

theorem removeDispelled_eq (done : removeDispelled base = some next)
    (counted : base.nodeCount = base.nodeList.length) :
    (∀ idx ∈ base.nodesToDispel, idx < base.nodeCount) ∧
      ∃ rest,
        Remains (fun pos => decide (pos ∈ base.nodesToDispel)) base.nodeList rest 0 ∧
          next = { base with nodeList := rest, nodeCount := rest.length, nodesToDispel := [] } := by
  simp only [removeDispelled] at done
  split at done
  · rename_i empty
    cases done
    have none : base.nodesToDispel = [] := List.length_eq_zero_iff.mp empty
    refine ⟨by simp [none], base.nodeList, remains_of_unmarked (by simp [none]), ?_⟩
    rw [← counted, ← none]
  · simp only [bind_some_iff, pure_def, some_inj] at done
    obtain ⟨nodeMark, marked, removed, removal, rfl⟩ := done
    have marks := marks_of_markDispelled marked
    obtain ⟨rest, isRemoved, remains⟩ := removeMarked_of_marks counted marks
    rw [isRemoved, some_inj] at removal
    subst removal
    refine ⟨fun idx idxMem => ?_, rest, remains, rfl⟩
    simpa using marks.inside idx idxMem

theorem removeReleased_eq (done : removeReleased env tx base = some next)
    (counted : base.nodeCount = base.nodeList.length)
    (isRequested : requested base = some positions) (nodup : positions.Nodup) :
    (∀ idx ∈ positions, idx < base.nodeCount) ∧
      ∃ rest protocol,
        Remains (fun pos => decide (pos ∈ positions)) base.nodeList rest 0 ∧
          next =
            { base with
              nodeList := rest
              nodeCount := rest.length
              nodeToReleaseCount := 0
              protocol := protocol
              calls :=
                base.calls ++ positions.map fun idx =>
                    .releaseFromSubchain (nodeAt base.nodeList idx) } := by
  simp only [removeReleased] at done
  split at done
  · rename_i empty
    cases done
    have none : positions = [] := by simpa [requested, empty] using isRequested.symm
    subst none
    refine ⟨by simp, base.nodeList, base.protocol, remains_of_unmarked (by simp), ?_⟩
    rw [← counted, ← empty]
    simp
  · simp only [isRequested, bind_some_iff, pure_def, some_inj, exists_eq_left'] at done
    obtain ⟨⟨nodeMark, released⟩, marked, removed, removal, rfl⟩ := done
    obtain ⟨marks, protocol, rfl⟩ :=
      markReleased_eq nodup (fun idx _ => getD_replicate_false base.nodeCount idx) marked
    obtain ⟨rest, isRemoved, remains⟩ :=
      @removeMarked_of_marks
        { base with
          protocol := protocol
          calls :=
            base.calls ++ positions.map fun idx => .releaseFromSubchain (nodeAt base.nodeList idx) }
        positions nodeMark counted marks
    rw [isRemoved, some_inj] at removal
    subst removal
    refine ⟨fun idx idxMem => ?_, rest, protocol, remains, rfl⟩
    simpa using marks.inside idx idxMem

theorem joinLoop_eq (done : joinLoop i base = some next) :
    ∃ joined waiting,
      (joined ++ waiting).Perm base.nodesToJoin ∧
        (∀ node ∈ joined, base.nodePerformance node = NODE_INIT_PERFORMANCE) ∧
        next =
          { base with
            nodeList := base.nodeList ++ joined
            nodeCount := base.nodeCount + joined.length
            nodesToJoin := waiting } := by
  induction i generalizing base with
  | zero =>
    cases done
    exact ⟨[], next.nodesToJoin, .refl _, by simp, by simp⟩
  | succ i ih =>
    simp only [joinLoop, bind_some_iff] at done
    obtain ⟨node, got, done⟩ := done
    split at done
    · rename_i ready
      simp only [bind_some_iff] at done
      obtain ⟨shorter, deleted, done⟩ := done
      have inside := (List.getElem?_eq_some_iff.mp got).1
      have perm := perm_of_swapDelete deleted (by omega) got
      obtain ⟨joined, waiting, permRest, readyRest, rfl⟩ := ih done
      refine ⟨node :: joined, waiting, (permRest.cons node).trans perm, ?_, ?_⟩
      · exact List.forall_mem_cons.mpr ⟨ready, readyRest⟩
      · simp [add_assoc, add_comm 1]
    · exact ih done

def SameProposals (base next : State) : Prop :=
  next.proposals = base.proposals ∧ next.proposalHashInProgress = base.proposalHashInProgress

/-- The part of the storage that changes of the nodes leave alone. -/
def State.ledger (base : State) : (Hash → Proposal) × Hash × Uint256 :=
  (base.proposals, base.proposalHashInProgress, base.contractNeedFund)

theorem SameProposals.of_ledger (same : next.ledger = base.ledger) : SameProposals base next :=
  ⟨congrArg Prod.fst same, congrArg (·.2.1) same⟩

theorem ledger_removeMarked (done : removeMarked nodeMark i base = some next) :
    next.ledger = base.ledger := by
  induction i generalizing base with
  | zero =>
    cases done
    rfl
  | succ i ih =>
    simp only [removeMarked, bind_some_iff] at done
    obtain ⟨mark, -, done⟩ := done
    split at done
    · simp only [bind_some_iff] at done
      obtain ⟨shorter, -, done⟩ := done
      exact (ih done :)
    · exact ih done

theorem ledger_markReleased
    (done : markReleased env tx positions nodeMark base = some (marked, next)) :
    next.ledger = base.ledger := by
  induction positions generalizing nodeMark base with
  | nil =>
    cases done
    rfl
  | cons idx positions ih =>
    simp only [markReleased, bind_some_iff] at done
    obtain ⟨mark, -, done⟩ := done
    split at done
    · exact ih done
    · simp only [bind_some_iff] at done
      obtain ⟨cur, -, released, release, done⟩ := done
      obtain ⟨protocol, rfl⟩ := releaseFromSubchain_eq release
      exact (ih done :)

theorem ledger_punish (done : punish env tx base prop = some next) :
    next.ledger = base.ledger := by
  simp only [punish, bind_some_iff] at done
  obtain ⟨punished, badPunished, done⟩ := done
  obtain ⟨-, protocol, balance, rfl⟩ := punishBadActors_eq badPunished
  split at done
  · obtain ⟨protocol, balance, rfl⟩ := punishIdle_eq done
    rfl
  · cases done
    rfl

theorem ledger_removeDispelled (done : removeDispelled base = some next) :
    next.ledger = base.ledger := by
  simp only [removeDispelled] at done
  split at done
  · cases done
    rfl
  · simp only [bind_some_iff, pure_def, some_inj] at done
    obtain ⟨nodeMark, -, removed, removal, rfl⟩ := done
    exact (ledger_removeMarked removal :)

theorem ledger_removeReleased (done : removeReleased env tx base = some next) :
    next.ledger = base.ledger := by
  simp only [removeReleased] at done
  split at done
  · cases done
    rfl
  · simp only [bind_some_iff, pure_def, some_inj] at done
    obtain ⟨positions, -, ⟨nodeMark, released⟩, marked, removed, removal, rfl⟩ := done
    exact ((ledger_removeMarked removal).trans (ledger_markReleased marked) :)

theorem ledger_applyJoinNodes (done : applyJoinNodes base = some next) :
    next.ledger = base.ledger := by
  simp only [applyJoinNodes, bind_some_iff] at done
  obtain ⟨after, looped, done⟩ := done
  obtain ⟨joined, waiting, -, -, rfl⟩ := joinLoop_eq looped
  split at done
  · cases done
    rfl
  · cases done
    rfl

theorem ledger_settleNodes (done : settleNodes env tx base prop = some next) :
    next.ledger = base.ledger := by
  simp only [settleNodes, bind_some_iff] at done
  obtain ⟨punished, punishment, voters, -, rewarded, reward, dispelledState, dispel,
    releasedState, release, done⟩ := done
  obtain ⟨performance, rfl, -⟩ := rewardVoters_eq reward
  have settled : releasedState.ledger = base.ledger := by
    rw [ledger_removeReleased release, ledger_removeDispelled dispel]
    exact (ledger_punish punishment :)
  split at done
  · exact (ledger_applyJoinNodes done).trans settled
  · cases done
    exact settled

theorem releaseNodes_eq (done : releaseNodes env tx i base = some next) :
    ∃ protocol calls,
      next =
        { base with
          protocol := protocol
          calls := calls
          nodeList := List.replicate i 0 ++ base.nodeList.drop i } := by
  induction i generalizing base with
  | zero =>
    cases done
    exact ⟨next.protocol, next.calls, by simp⟩
  | succ i ih =>
    simp only [releaseNodes, bind_some_iff] at done
    obtain ⟨cur, got, released, release, done⟩ := done
    obtain ⟨protocol, rfl⟩ := releaseFromSubchain_eq release
    obtain ⟨protocol, calls, rfl⟩ := ih done
    have inside := (List.getElem?_eq_some_iff.mp got).1
    refine ⟨protocol, calls, ?_⟩
    have shifted : (base.nodeList.set i 0).drop i = 0 :: base.nodeList.drop (i + 1) := by
      rw [List.drop_eq_getElem_cons (by simpa using inside), List.getElem_set_self,
        List.drop_set_of_lt i.lt_succ_self]
    simp only [shifted, List.replicate_succ', List.append_assoc, List.singleton_append]

theorem ledger_releaseNodes (done : releaseNodes env tx i base = some next) :
    next.ledger = base.ledger := by
  obtain ⟨protocol, calls, rfl⟩ := releaseNodes_eq done
  rfl

theorem ledger_releaseBackups (done : releaseBackups env tx i base = some next) :
    next.ledger = base.ledger := by
  induction i generalizing base with
  | zero =>
    cases done
    rfl
  | succ i ih =>
    simp only [releaseBackups, bind_some_iff] at done
    obtain ⟨cur, -, released, release, done⟩ := done
    obtain ⟨protocol, rfl⟩ := releaseFromSubchain_eq release
    exact (ih done :)

theorem ledger_withdrawal (done : withdrawal env tx base = some next) :
    next.ledger = base.ledger := by
  simp only [withdrawal, bind_some_iff, pure_def, some_inj] at done
  obtain ⟨released, release, backups, backup, rfl⟩ := done
  exact (ledger_releaseBackups backup :).trans (ledger_releaseNodes release :)

end MoacVnode.Solidity.SubChainBase
