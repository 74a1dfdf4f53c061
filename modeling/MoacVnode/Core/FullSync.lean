import MoacVnode.Core.BlockWrite
import MoacVnode.Lib.Run

/-!
# The block chain in full sync

While every write succeeds, blocks come with their bodies, their total
difficulties and their parents.
-/

namespace MoacVnode.Core

open Lib

abbrev BlockTree.Write (tree : BlockTree) := { req : BlockWrite // tree.mem req.block }

namespace BlockChain

variable {tree : BlockTree} {lib : TypesLib} {bc next : BlockChain}
  {block parent : Block} {req : BlockWrite} {td fuel : Nat}

/-- The stored blocks hold whole branches, each block with a body and a total
difficulty. -/
structure FullSync (tree : BlockTree) (bc : BlockChain) : Prop where
  storedMem : ∀ {block}, StoredBlock bc.db block → tree.mem block
  closed : tree.Closed (StoredBlock bc.db)
  tdOfStored :
    ∀ {block}, StoredBlock bc.db block → ∃ td, bc.db.getTd block.hash block.number = some td
  storedOfTd :
    ∀ {hash num td}, bc.db.getTd hash num = some td → ∃ block, bc.db.getBlock hash num = some block
  storedOfBody :
    ∀ {hash num}, bc.hasBlock hash num = true → ∃ block, bc.db.getBlock hash num = some block
  currentStored : StoredBlock bc.db bc.currentBlock

/-- The lookup entries after the switch from one branch to another. -/
def switchedLookups (lib : TypesLib) (oldChain newChain : List Block)
    (lookups : Hash → Option TxLookupEntry) (hash : Hash) :
    Option TxLookupEntry :=
  if hash ∈ (lib.txDifference (blockTransactions oldChain)
      (blockTransactions newChain)).map Transaction.hash then
    none
  else updates lookups (newChain.flatMap txLookupEntries) hash

namespace FullSync

section

variable (sync : FullSync tree bc)

include sync

theorem exists_parent (blockMem : tree.mem block) {ptd : Nat}
    (got : bc.db.getTd block.parentHash (prev64 block.number) = some ptd) :
    ∃ parent, StoredBlock bc.db parent ∧ tree.Parent parent block ∧
      bc.db.getTd parent.hash parent.number = some ptd := by
  obtain ⟨parent, parentFound⟩ := sync.storedOfTd got
  have hasParent := storedBlock_of_getBlock parentFound
  refine ⟨parent, hasParent,
    ⟨sync.storedMem hasParent, blockMem, (ChainDb.hash_of_getBlock parentFound).symm⟩, ?_⟩
  rw [ChainDb.number_of_getBlock parentFound, ChainDb.hash_of_getBlock parentFound]
  exact got

theorem stored_of_hasBlock (blockMem : tree.mem block)
    (known : bc.hasBlock block.hash block.number = true) : StoredBlock bc.db block := by
  obtain ⟨other, got⟩ := sync.storedOfBody known
  have isBlock : other = block :=
    tree.hash_injective (sync.storedMem (storedBlock_of_getBlock got))
      blockMem (ChainDb.hash_of_getBlock got)
  rw [isBlock] at got
  exact got

theorem walkable_of_parent (hasParent : StoredBlock bc.db parent)
    (link : tree.Parent parent block) : BlockTree.Walkable tree bc.db block := by
  refine ⟨?_, ?_⟩
  · exact (sync.closed.root_ancestor hasParent).trans (HashTree.Ancestor.of_parent link)
  · intro other otherLink ancestor path
    rw [HashTree.parent_unique otherLink link] at path
    exact sync.closed.ancestor path hasParent

theorem walkable_of_stored (stored : StoredBlock bc.db block) :
    BlockTree.Walkable tree bc.db block :=
  ⟨sync.closed.root_ancestor stored, fun link _ path =>
    sync.closed.ancestor (path.trans (HashTree.Ancestor.of_parent link)) stored⟩

theorem branches (hasParent : StoredBlock bc.db parent) (link : tree.Parent parent block)
    (enough : uint64Size < fuel) :
    ∃ common oldChain newChain,
      findBranches bc.db fuel bc.currentBlock block = .ok (.ok ⟨oldChain, newChain⟩) ∧
      tree.Segment bc.currentBlock oldChain common ∧
      tree.Segment block newChain common ∧
      ∀ {shared}, tree.Ancestor shared bc.currentBlock →
        tree.Ancestor shared block → tree.Ancestor shared common := by
  have currentBound := tree.number_bound (sync.storedMem sync.currentStored)
  have blockBound := tree.number_bound link.2.1
  exact findBranches_spec (Nat.lt_trans (Nat.lt_of_succ_lt currentBound) enough)
    (Nat.lt_trans (Nat.lt_of_succ_lt blockBound) enough)
    (sync.walkable_of_stored sync.currentStored) (sync.walkable_of_parent hasParent link)

theorem prepared_cases {ready : BlockChain} (hasParent : StoredBlock bc.db parent)
    (link : tree.Parent parent req.block) (enough : uint64Size < fuel)
    (made : Prepared lib fuel (bc.withTd req.block td) req ready) :
    (parent = bc.currentBlock ∧ ready = bc.withTd req.block td) ∨
    ∃ common oldChain newChain, tree.Segment bc.currentBlock oldChain common ∧
      tree.Segment req.block newChain common ∧
      ready.db.canonicalHash =
        updates bc.db.canonicalHash (newChain.map fun block => (block.number, block.hash)) ∧
      ready.db.lookups = switchedLookups lib oldChain newChain bc.db.lookups := by
  cases made with
  | extension isHead =>
    exact .inl ⟨tree.hash_injective link.1 (sync.storedMem sync.currentStored)
        (link.2.2.symm.trans isHead), rfl⟩
  | reorganisation notHead res =>
    obtain ⟨oldChain, newChain, switched, walked, inserted, isReady⟩ := reorg_ok res
    obtain ⟨common, oldNodes, newNodes, got, oldSegment, newSegment, _⟩ :=
      sync.branches hasParent link enough
    have sameBranches : (⟨oldChain, newChain⟩ : Branches) = ⟨oldNodes, newNodes⟩ := by
      rw [findBranches_withTd] at walked
      exact Except.ok.inj (Except.ok.inj (walked.symm.trans got))
    cases sameBranches
    refine .inr ⟨common, oldChain, newChain, oldSegment, newSegment, ?_, ?_⟩
    · rw [isReady, deleteTxLookupEntries_eq]
      change switched.db.canonicalHash = _
      rw [insertBranch_canonicalHash inserted]
      rfl
    · rw [isReady, deleteTxLookupEntries_eq]
      funext hash
      rw [insertBranch_lookups inserted]
      rfl

theorem of_adds (adds : AddsBlock block td bc.db next.db)
    (hasParent : StoredBlock bc.db parent) (link : tree.Parent parent block)
    (head : next.currentBlock = bc.currentBlock ∨ next.currentBlock = block) :
    FullSync tree next := by
  have blockMem : tree.mem block := link.2.1
  have storedIff : ∀ {other}, StoredBlock next.db other ↔ other = block ∨ StoredBlock bc.db other :=
    adds.storedBlock_iff sync.storedMem blockMem
  have blockFound : next.db.getBlock block.hash block.number = some block := adds.storedBlock_self
  -- A key is the new block's or reads as before.
  have keyCases : ∀ hash num,
      (hash = block.hash ∧ num = block.number) ∨
        (next.db.getBlock hash num = bc.db.getBlock hash num ∧
          next.db.getTd hash num = bc.db.getTd hash num ∧
          next.hasBlock hash num = bc.hasBlock hash num) := by
    intro hash num
    by_cases sameKey : (num, hash) = (block.number, block.hash)
    · exact .inl ⟨(Prod.mk.inj sameKey).2, (Prod.mk.inj sameKey).1⟩
    · right
      unfold hasBlock ChainDb.getBlock
      rw [adds.getTd, adds.getHeader, adds.getBody, if_neg sameKey, if_neg sameKey, if_neg sameKey]
      exact ⟨rfl, rfl, rfl⟩
  constructor
  case storedMem =>
    intro other otherStored
    rcases storedIff.mp otherStored with isBlock | before
    · rw [isBlock]
      exact blockMem
    · exact sync.storedMem before
  case closed =>
    intro node nodeStored notRoot
    rcases storedIff.mp nodeStored with isBlock | before
    · rw [isBlock]
      exact ⟨parent, storedIff.mpr (.inr hasParent), link⟩
    · obtain ⟨lower, lowerStored, lowerLink⟩ := sync.closed node before notRoot
      exact ⟨lower, storedIff.mpr (.inr lowerStored), lowerLink⟩
  case tdOfStored =>
    intro other otherStored
    rcases storedIff.mp otherStored with isBlock | before
    · rw [isBlock, adds.getTd, if_pos rfl]
      exact ⟨td, rfl⟩
    · obtain ⟨otherTd, got⟩ := sync.tdOfStored before
      rw [adds.getTd]
      split
      · exact ⟨td, rfl⟩
      · exact ⟨otherTd, got⟩
  case storedOfTd =>
    intro hash num otherTd got
    rcases keyCases hash num with ⟨rfl, rfl⟩ | ⟨sameBlock, sameTd, _⟩
    · exact ⟨block, blockFound⟩
    · rw [sameBlock]
      exact sync.storedOfTd (sameTd.symm.trans got)
  case storedOfBody =>
    intro hash num known
    rcases keyCases hash num with ⟨rfl, rfl⟩ | ⟨sameBlock, _, sameBody⟩
    · exact ⟨block, blockFound⟩
    · rw [sameBlock]
      exact sync.storedOfBody (sameBody.symm.trans known)
  case currentStored =>
    rcases head with unmoved | isBlock
    · rw [unmoved]
      exact storedIff.mpr (.inr sync.currentStored)
    · rw [isBlock]
      exact adds.storedBlock_self

theorem writeBlockAndState (blockMem : tree.mem req.block) {status : WriteStatus}
    (res : bc.writeBlockAndState lib req = .ok (next, .ok status)) : FullSync tree next := by
  rcases writeBlockAndState_ok res with
    ⟨_, _, kept⟩ |
    ⟨ptd, localTd, parentTd, _, _, ⟨_, _, isNext⟩ | ⟨_, _, ready, made, isNext⟩⟩
  · rw [kept]
    exact sync
  · obtain ⟨parent, hasParent, link, _⟩ := sync.exists_parent blockMem parentTd
    rw [isNext]
    exact sync.of_adds ⟨rfl, rfl, rfl⟩ hasParent link (.inl rfl)
  · obtain ⟨parent, hasParent, link, _⟩ := sync.exists_parent blockMem parentTd
    rw [isNext]
    refine sync.of_adds (addsBlock_canon (sameBlocks_of_prepared made)) hasParent link (.inr ?_)
    rw [becomeHead_eq, insert_currentBlock]

end

end FullSync

theorem fullSync_atGenesis (tree : BlockTree) (td : Nat) :
    FullSync tree (atGenesis tree.root td) where
  storedMem := by
    intro block stored
    rw [(storedBlock_atGenesis_iff _ _).mp stored]
    exact tree.root_mem
  closed := by
    intro node stored notRoot
    exact False.elim (notRoot ((storedBlock_atGenesis_iff _ _).mp stored))
  tdOfStored := by
    intro block stored
    rw [(storedBlock_atGenesis_iff _ _).mp stored, atGenesis_getTd]
    exact ⟨td, if_pos rfl⟩
  storedOfTd := by
    intro hash num otherTd got
    rw [atGenesis_getTd] at got
    split at got
    · rename_i sameKey
      obtain ⟨rfl, rfl⟩ := Prod.mk.inj sameKey
      exact ⟨tree.root, (storedBlock_atGenesis_iff _ _).mpr rfl⟩
    · cases got
  storedOfBody := by
    intro hash num known
    unfold hasBlock at known
    rw [atGenesis_getBody] at known
    split at known
    · rename_i sameKey
      obtain ⟨rfl, rfl⟩ := Prod.mk.inj sameKey
      exact ⟨tree.root, (storedBlock_atGenesis_iff _ _).mpr rfl⟩
    · cases known
  currentStored := (storedBlock_atGenesis_iff _ _).mpr rfl

end BlockChain

end MoacVnode.Core
