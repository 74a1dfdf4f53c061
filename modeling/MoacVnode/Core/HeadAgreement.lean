import MoacVnode.Core.FullSync

/-!
# The three heads of the block chain

`insert` moves the header head and the fast-sync head only if the block is not yet the canonical one
of its number.
-/

namespace MoacVnode.Core

open Lib HashTree.Ancestor HashTree
open TypesLib (byHash)

namespace BlockChain

variable {tree : BlockTree} {lib : TypesLib} {bc next : BlockChain}
  {block : Block} {req : BlockWrite}

def callWrite (lib : TypesLib) (bc : BlockChain) (req : tree.Write) : Except Crash BlockChain :=
  match bc.writeBlockAndState lib req.1 with
  | .error crash => .error crash
  | .ok (next, _) => .ok next

/-- All heads, in memory and in the database, denote one block. -/
structure HeadsAt (bc : BlockChain) (block : Block) : Prop where
  currentBlock : bc.currentBlock = block
  currentFastBlock : bc.currentFastBlock = block
  currentHeader : bc.hc.currentHeader = block.header
  currentHeaderHash : bc.hc.currentHeaderHash = block.hash
  headBlockHash : bc.db.headBlockHash = some block.hash
  headFastBlockHash : bc.db.headFastBlockHash = some block.hash
  headHeaderHash : bc.db.headHeaderHash = some block.hash

theorem HeadsAt.insert
    (moves :
      bc.db.getCanonicalHash block.number ≠ block.hash ∨ HeadsAt bc block) :
    HeadsAt (bc.insert block false) block := by
  unfold BlockChain.insert
  split
  · exact ⟨rfl, rfl, rfl, rfl, rfl, rfl, rfl⟩
  · rename_i unmoved
    have heads := moves.resolve_left fun ne => unmoved (.inl ne)
    exact ⟨rfl, heads.currentFastBlock, heads.currentHeader,
      heads.currentHeaderHash, rfl, heads.headFastBlockHash,
      heads.headHeaderHash⟩

theorem HeadsAt.withLookups (heads : HeadsAt bc block) (lookups : Hash → Option TxLookupEntry) :
    HeadsAt (bc.withDb (bc.db.withLookups lookups)) block :=
  ⟨heads.currentBlock, heads.currentFastBlock, heads.currentHeader,
    heads.currentHeaderHash, heads.headBlockHash, heads.headFastBlockHash,
    heads.headHeaderHash⟩

theorem HeadsAt.headBatch (heads : HeadsAt bc block) (other : Block) :
    HeadsAt (bc.headBatch other) block :=
  ⟨heads.currentBlock, heads.currentFastBlock, heads.currentHeader,
    heads.currentHeaderHash, heads.headBlockHash, heads.headFastBlockHash,
    heads.headHeaderHash⟩

/-- What a run keeps: the branch of the head is stored, and the index names
stored blocks only. -/
structure Grounded (tree : BlockTree) (bc : BlockChain) : Prop where
  storedMem : ∀ {block}, StoredBlock bc.db block → tree.mem block
  currentStored : StoredBlock bc.db bc.currentBlock
  walkable : BlockTree.Walkable tree bc.db bc.currentBlock
  indexKnown : ∀ {num hash}, bc.db.canonicalHash num = some hash → bc.hasBlock hash num = true

theorem Grounded.withLookups (grounded : Grounded tree bc) (lookups : Hash → Option TxLookupEntry) :
    Grounded tree (bc.withDb (bc.db.withLookups lookups)) where
  __ := grounded
  walkable := ⟨grounded.walkable.rooted, grounded.walkable.stored⟩

theorem Grounded.withTd (grounded : Grounded tree bc) (block : Block) (td : Nat) :
    Grounded tree (bc.withTd block td) where
  __ := grounded
  walkable := ⟨grounded.walkable.rooted, grounded.walkable.stored⟩

namespace Grounded

variable {parent : Block} {td fuel : Nat} {ready : BlockChain}

theorem hasBlock_of_stored (stored : StoredBlock bc.db block) :
    bc.hasBlock block.hash block.number = true := by
  unfold hasBlock
  rw [(ChainDb.getBlock_eq_some.mp stored).2]
  rfl

section

variable (grounded : Grounded tree bc)

include grounded

theorem walkable_of_parent (link : tree.Parent parent block)
    (path : tree.Ancestor parent bc.currentBlock) : BlockTree.Walkable tree bc.db block := by
  have branchStored : ∀ {ancestor}, tree.Ancestor ancestor bc.currentBlock →
      StoredBlock bc.db ancestor := by
    intro ancestor lower
    rcases Relation.ReflTransGen.cases_tail lower with isCurrent | ⟨mid, below, last⟩
    · rw [← isCurrent]
      exact grounded.currentStored
    · exact grounded.walkable.stored last below
  have rootNumber : tree.root.number = 0 := tree.root_number
  refine ⟨?_, ?_⟩
  · refine Ancestor.trans ?_ (of_parent link)
    refine grounded.walkable.rooted.ancestor_of_number_le path ?_
    change tree.root.number ≤ _
    omega
  · intro other otherLink ancestor lower
    rw [parent_unique otherLink link] at lower
    exact branchStored (lower.trans path)

theorem newChain_eq (unknown : bc.hasBlock block.hash block.number = false)
    (link : tree.Parent parent block) (path : tree.Ancestor parent bc.currentBlock)
    {common : Block} {newChain : List Block} (commonPath : tree.Ancestor common bc.currentBlock)
    (newSegment : tree.Segment block newChain common)
    (last : ∀ {shared}, tree.Ancestor shared bc.currentBlock → tree.Ancestor shared block →
      tree.Ancestor shared common) : newChain = [block] := by
  have parentPath := last path (of_parent link)
  cases newSegment with
  | nil =>
    have stored : StoredBlock bc.db block := by
      rcases Relation.ReflTransGen.cases_tail commonPath with isCurrent | ⟨mid, below, step⟩
      · rw [← isCurrent]
        exact grounded.currentStored
      · exact grounded.walkable.stored step below
    rw [hasBlock_of_stored stored] at unknown
    cases unknown
  | @cons other _ _ nodes otherLink rest =>
    rw [parent_unique otherLink link] at rest
    have low := number_le parentPath
    congr 1
    apply List.eq_nil_iff_forall_not_mem.mpr
    intro node nodeMem
    have above := rest.number_lt nodeMem
    have below := number_le (rest.ancestor_of_mem nodeMem)
    omega

theorem canonicalHash_ne (blockMem : tree.mem block)
    (unknown : bc.hasBlock block.hash block.number = false) :
    bc.db.getCanonicalHash block.number ≠ block.hash := by
  unfold ChainDb.getCanonicalHash
  cases named : bc.db.canonicalHash block.number with
  | none => exact (tree.hash_ne_empty blockMem).symm
  | some hash =>
    intro isBlock
    have isHash : hash = block.hash := isBlock
    rw [isHash] at named
    rw [grounded.indexKnown named] at unknown
    cases unknown

theorem prepared (unknown : bc.hasBlock req.block.hash req.block.number = false)
    (link : tree.Parent parent req.block) (path : tree.Ancestor parent bc.currentBlock)
    (enough : uint64Size < fuel) (made : Prepared lib fuel bc req ready) :
    (ready.db.getCanonicalHash req.block.number ≠ req.block.hash ∨
        HeadsAt ready req.block) ∧
      ∀ {num hash}, ready.db.canonicalHash num = some hash →
        (num = req.block.number ∧ hash = req.block.hash) ∨ bc.hasBlock hash num = true := by
  have blockMem : tree.mem req.block := link.2.1
  cases made with
  | extension =>
    refine ⟨Or.inl (grounded.canonicalHash_ne blockMem unknown), ?_⟩
    intro num hash named
    exact .inr (grounded.indexKnown named)
  | reorganisation notHead res =>
    obtain ⟨oldChain, newChain, switched, walked, inserted, isReady⟩ := reorg_ok res
    have currentMem := grounded.walkable.mem
    have currentBound := tree.number_bound currentMem
    have blockBound := tree.number_bound blockMem
    obtain ⟨common, oldNodes, newNodes, got, oldSegment, newSegment, last⟩ :=
      findBranches_spec (Nat.lt_trans (Nat.lt_of_succ_lt currentBound) enough)
        (Nat.lt_trans (Nat.lt_of_succ_lt blockBound) enough)
        grounded.walkable (grounded.walkable_of_parent link path)
    have sameBranches : newChain = newNodes := by
      have same := walked.symm.trans got
      cases same
      rfl
    have alone : newChain = [req.block] := by
      rw [sameBranches]
      exact grounded.newChain_eq unknown link path oldSegment.ancestor newSegment last
    subst alone
    have isSwitched := (Prod.mk.inj (insertBranch_cons_ok inserted)).1
    have moved := HeadsAt.insert (.inl (grounded.canonicalHash_ne blockMem unknown))
    constructor
    · right
      rw [isReady, ← isSwitched, deleteTxLookupEntries_eq]
      exact (moved.withLookups _).withLookups _
    · intro num hash named
      rw [isReady, deleteTxLookupEntries_eq] at named
      change switched.db.canonicalHash num = some hash at named
      rw [insertBranch_canonicalHash inserted, List.map_singleton,
        updates_cons, updates_nil] at named
      by_cases atBlock : num = req.block.number
      · rw [atBlock, Function.update_self] at named
        exact .inl ⟨atBlock, (Option.some.inj named).symm⟩
      · rw [Function.update_of_ne atBlock] at named
        exact .inr (grounded.indexKnown named)

end

private theorem hasBlock_of_adds (adds : AddsBlock block td bc.db next.db) {hash : Hash} {num : Nat}
    (known : (num = block.number ∧ hash = block.hash) ∨ bc.hasBlock hash num = true) :
    next.hasBlock hash num = true := by
  unfold hasBlock at *
  rw [adds.getBody]
  split
  · rfl
  · rename_i keysDiffer
    rcases known with ⟨sameNumber, hashEq⟩ | before
    · exact False.elim (keysDiffer (by rw [sameNumber, hashEq]))
    · exact before

private theorem of_adds (grounded : Grounded tree bc)
    (adds : AddsBlock block td bc.db next.db) (blockMem : tree.mem block)
    {head : Block} (isHead : next.currentBlock = head) (headStored : StoredBlock next.db head)
    (headWalkable : BlockTree.Walkable tree bc.db head)
    (idx :
      ∀ {num hash}, next.db.canonicalHash num = some hash →
        (num = block.number ∧ hash = block.hash) ∨ bc.hasBlock hash num = true) :
    Grounded tree next where
  storedMem := by
    intro other otherStored
    rcases (adds.storedBlock_iff grounded.storedMem blockMem).mp otherStored with isBlock | before
    · rw [isBlock]
      exact blockMem
    · exact grounded.storedMem before
  currentStored := by
    rw [isHead]
    exact headStored
  walkable := by
    rw [isHead]
    refine ⟨headWalkable.rooted, ?_⟩
    intro parent link ancestor path
    exact (adds.storedBlock_iff grounded.storedMem blockMem).mpr
      (.inr (headWalkable.stored link path))
  indexKnown := fun named => hasBlock_of_adds adds (idx named)

end Grounded

/-- None of the writes of a call after it may have begun to reorganise the chain fails. -/
def NoLateFailure (req : BlockWrite) : Prop :=
  (∀ hash idx, req.lookupFails hash idx = false) ∧
    req.batchLookupFails = false ∧ req.preimagesFail = false ∧
    req.batchFails = false

/-- A call that makes its block the head finds the block's parent on the branch
of the old head. -/
def ForksFromHead (lib : TypesLib) (bc : BlockChain) (req : tree.Write) : Prop :=
  ∀ next,
    bc.writeBlockAndState lib req.1 = .ok (next, .ok .canonStatTy) →
      ∃ parent, tree.Parent parent req.1.block ∧ tree.Ancestor parent bc.currentBlock

/-- No write fails once blocks have been re-inserted, and a new head forks off the old branch. -/
def KeepsHeads (lib : TypesLib) (bc : BlockChain) (req : tree.Write) :
    Prop :=
  (reinserted bc req.1 ≠ [] → NoLateFailure req.1) ∧ ForksFromHead lib bc req

namespace Grounded

theorem not_lateFailure (inTime : NoLateFailure req) {branches : Branches} :
    ¬ LateFailure lib bc req branches next := by
  intro late
  obtain ⟨lookups, batchLookup, preimages, batch⟩ := inTime
  rcases late.failure with switching | failed | failed | failed
  · exact switching (switchBranches_complete lookups lib bc branches)
  · rw [batchLookup] at failed
    cases failed
  · rw [preimages] at failed
    cases failed
  · rw [batch] at failed
    cases failed

theorem lateFailure (grounded : Grounded tree bc) {branches : Branches}
    (inTime : branches.newChain ≠ [] → NoLateFailure req)
    (late : LateFailure lib bc req branches next) : Grounded tree next := by
  by_cases adds : branches.newChain = []
  · obtain ⟨lookups, isNext⟩ := switchBranches_of_nil adds req.lookupFails
    rw [late.leaves, isNext]
    exact grounded.withLookups lookups
  · exact False.elim (not_lateFailure (inTime adds) late)

theorem writeBlockAndState (grounded : Grounded tree bc) {req : tree.Write}
    (keeps : KeepsHeads lib bc req) {outcome : Except WriteBlockError WriteStatus}
    (res : bc.writeBlockAndState lib req.1 = .ok (next, outcome)) :
    Grounded tree next ∧ (outcome = .ok .canonStatTy → HeadsAt next req.1.block) := by
  cases outcome with
  | error error =>
    refine ⟨?_, fun impossible => by cases impossible⟩
    rcases writeBlockAndState_error res with
      ⟨_, unchanged⟩ | ⟨ptd, _, _, ⟨early, _⟩ | ⟨_, _, isNew, late⟩⟩
    · rw [unchanged]
      exact grounded
    · rw [early]
      exact grounded.withTd _ _
    · exact (grounded.withTd _ _).lateFailure (fun adds => keeps.1 (isNew ▸ adds)) late
  | ok status =>
    rcases writeBlockAndState_ok res with
      ⟨_, isNone, unchanged⟩ |
      ⟨ptd, localTd, _, unknown, _, ⟨_, isSide, isNext⟩ | ⟨_, isCanon, ready, made, isNext⟩⟩
    · subst isNone
      rw [unchanged]
      exact ⟨grounded, fun impossible => by cases impossible⟩
    · subst isSide
      refine ⟨?_, fun impossible => by cases impossible⟩
      have adds : AddsBlock req.1.block (req.1.block.difficulty + ptd) bc.db next.db := by
        rw [isNext]
        exact ⟨rfl, rfl, rfl⟩
      have head : next.currentBlock = bc.currentBlock := by
        rw [isNext]
        rfl
      refine grounded.of_adds adds req.2 head ?_ grounded.walkable ?_
      · exact (adds.storedBlock_iff grounded.storedMem req.2).mpr (.inr grounded.currentStored)
      · intro num hash named
        rw [isNext] at named
        exact .inr (grounded.indexKnown named)
    · subst isCanon
      obtain ⟨parent, link, path⟩ := keeps.2 next res
      have timed := grounded.withTd req.1.block (req.1.block.difficulty + ptd)
      obtain ⟨heads, idx⟩ := timed.prepared unknown link path (Nat.lt_succ_self uint64Size) made
      have adds : AddsBlock req.1.block (req.1.block.difficulty + ptd) bc.db next.db := by
        rw [isNext]
        exact addsBlock_canon (sameBlocks_of_prepared made)
      have headsNext : HeadsAt next req.1.block := by
        rw [isNext, becomeHead_eq]
        exact HeadsAt.insert (heads.imp id fun ready => ready.headBatch _)
      refine ⟨?_, fun _ => headsNext⟩
      refine grounded.of_adds adds req.2 headsNext.currentBlock
        adds.storedBlock_self (grounded.walkable_of_parent link path) ?_
      intro num hash named
      rw [isNext, becomeHead_eq, insert_canonicalHash] at named
      by_cases atBlock : num = req.1.block.number
      · rw [atBlock, Function.update_self] at named
        exact .inl ⟨atBlock, (Option.some.inj named).symm⟩
      · rw [Function.update_of_ne atBlock] at named
        exact idx named

end Grounded

theorem grounded_atGenesis (tree : BlockTree) (td : Nat) :
    Grounded tree (atGenesis tree.root td) where
  storedMem := by
    intro block blockStored
    rw [(storedBlock_atGenesis_iff _ _).mp blockStored]
    exact tree.root_mem
  currentStored := (storedBlock_atGenesis_iff _ _).mpr rfl
  walkable := by
    refine ⟨ancestor_self _, ?_⟩
    intro parent link
    exact False.elim (not_parent_root parent link)
  indexKnown := by
    intro num hash named
    rw [atGenesis_canonicalHash] at named
    split at named
    · rename_i isRoot
      rw [isRoot, ← Option.some.inj named]
      exact Grounded.hasBlock_of_stored ((storedBlock_atGenesis_iff _ _).mpr rfl)
    · cases named

/-- In every run whose writes do not fail after blocks were re-inserted and whose new heads fork
off the branch of the old head, a call that makes its block the head leaves all heads there. -/
theorem heads_agree (tree : BlockTree) (lib : TypesLib) (genesisTd : Nat)
    (prior : List tree.Write) (req : tree.Write)
    (keeps :
      EachStep (callWrite lib) (KeepsHeads lib) (atGenesis tree.root genesisTd) (prior ++ [req]))
    {bc next : BlockChain}
    (ran : run (callWrite lib) (atGenesis tree.root genesisTd) prior = .ok bc)
    (canonical : bc.writeBlockAndState lib req.1 = .ok (next, .ok .canonStatTy)) :
    next.currentBlock = req.1.block ∧
      next.currentFastBlock = req.1.block ∧
      next.hc.currentHeader = req.1.block.header ∧
      next.db.getHeadBlockHash = req.1.block.hash ∧
      next.db.getHeadFastBlockHash = req.1.block.hash ∧
      next.db.getHeadHeaderHash = req.1.block.hash := by
  obtain ⟨before, here⟩ := eachStep_append keeps ran
  have grounded : Grounded tree bc := by
    refine run_invariant (Grounded tree) ?_ (grounded_atGenesis tree genesisTd) before ran
    intro state input after kept met taken
    unfold callWrite at taken
    split at taken
    · cases taken
    · rename_i res
      cases taken
      exact (kept.writeBlockAndState met res).1
  have heads := (grounded.writeBlockAndState here.1 canonical).2 rfl
  refine ⟨heads.currentBlock, heads.currentFastBlock, heads.currentHeader, ?_, ?_, ?_⟩
  · rw [ChainDb.getHeadBlockHash, heads.headBlockHash]
    rfl
  · rw [ChainDb.getHeadFastBlockHash, heads.headFastBlockHash]
    rfl
  · rw [ChainDb.getHeadHeaderHash, heads.headHeaderHash]
    rfl

section

def headGenesis : Block := { header := { hash := 1, parentHash := emptyHash, difficulty := 1 } }

def headTrunk : Block := { header := { hash := 2, parentHash := 1, difficulty := 2, number := 1 } }

def headSide : Block := { header := { hash := 3, parentHash := 1, difficulty := 1, number := 1 } }

def headSideNext : Block :=
  { header := { hash := 4, parentHash := 3, difficulty := 5, number := 2 } }

def headRival : Block := { header := { hash := 5, parentHash := 1, difficulty := 9, number := 1 } }

abbrev headTree : BlockTree :=
  BlockTree.ofList headGenesis [headTrunk, headSide, headSideNext, headRival]
    (by decide) (by decide) (by decide) (by decide) (by decide) (by decide)

def headWrite (block : Block) (blockMem : headTree.mem block) : headTree.Write :=
  ⟨{ block, commitRoot := some block.root }, blockMem⟩

/-- A reorganisation to a side branch of two blocks leaves the header head and
the fast-sync head at the lower one. -/
theorem reorg_leaves_heads_behind :
    ∃ bc,
      run (callWrite byHash) (atGenesis headTree.root 1)
          [headWrite headTrunk (by decide), headWrite headSide (by decide)] =
        .ok bc ∧
      ∃ outcome,
        bc.writeBlockAndState byHash (headWrite headSideNext (by decide)).1 = .ok outcome ∧
        outcome.2 = .ok .canonStatTy ∧
        outcome.1.currentBlock = headSideNext ∧
        outcome.1.currentFastBlock = headSide ∧
        outcome.1.hc.currentHeader = headSide.header ∧
        outcome.1.db.getHeadFastBlockHash = headSide.hash ∧
        outcome.1.db.getHeadHeaderHash = headSide.hash := by
  decide +kernel

/-- A rival of the head replaces it at all heads. -/
theorem heads_agree_rival :
    ∃ bc next,
      run (callWrite byHash) (atGenesis headTree.root 1)
          [headWrite headTrunk (by decide)] = .ok bc ∧
      bc.writeBlockAndState byHash (headWrite headRival (by decide)).1 =
        .ok (next, .ok .canonStatTy) ∧
      next.currentBlock = headRival ∧
      next.currentFastBlock = headRival ∧
      next.hc.currentHeader = headRival.header ∧
      next.db.getHeadBlockHash = headRival.hash ∧
      next.db.getHeadFastBlockHash = headRival.hash ∧
      next.db.getHeadHeaderHash = headRival.hash := by
  have computed :
      ∃ bc,
        run (callWrite byHash) (atGenesis headTree.root 1)
            [headWrite headTrunk (by decide)] = .ok bc ∧
        bc.currentBlock = headTrunk ∧
        ∃ outcome,
          bc.writeBlockAndState byHash (headWrite headRival (by decide)).1 = .ok outcome ∧
          outcome.2 = .ok .canonStatTy := by
    decide +kernel
  obtain ⟨bc, ran, isTrunk, ⟨next, status⟩, called, isCanon⟩ := computed
  have canonical :
      bc.writeBlockAndState byHash (headWrite headRival (by decide)).1 =
        .ok (next, .ok .canonStatTy) := by
    rw [called]
    exact congrArg (fun status => Except.ok (next, status)) isCanon
  have trunkLink : headTree.Parent headTree.root headTrunk := ⟨headTree.root_mem, by decide, rfl⟩
  have rivalLink : headTree.Parent headTree.root headRival := ⟨headTree.root_mem, by decide, rfl⟩
  have inTime : ∀ (block : Block) (blockMem : headTree.mem block),
      NoLateFailure (headWrite block blockMem).1 :=
    fun _ _ => ⟨fun _ _ => rfl, rfl, rfl, rfl⟩
  obtain ⟨first, taken, rest⟩ := run_cons_eq_ok.mp ran
  cases rest
  refine ⟨bc, next, ran, canonical,
    heads_agree headTree byHash 1 [headWrite headTrunk (by decide)]
      (headWrite headRival (by decide)) ?_ ran canonical⟩
  refine (eachStep_cons_of_ok taken).mpr
    ⟨⟨fun _ => inTime _ _, fun _ _ => ⟨_, trunkLink, ancestor_self _⟩⟩, ?_⟩
  refine ⟨⟨fun _ => inTime _ _, fun _ _ => ⟨_, rivalLink, ?_⟩⟩, ?_⟩
  · rw [isTrunk]
    exact of_parent trunkLink
  · split
    · trivial
    · trivial

end

end BlockChain

end MoacVnode.Core
