import MoacVnode.Core.FullSync

/-!
# The transaction lookup index

In full sync the lookup entries are the positions of the transactions on the
branch of the head, whatever reorganisations led there.
-/

namespace MoacVnode.Core

open Lib List

variable {block : Block} {hash : Hash} {parent common : Block}
  {lookups : Hash → Option TxLookupEntry} {blocks : List Block}

def Block.HasTxAt (block : Block) (hash : Hash) (idx : Nat) : Prop :=
  ∃ tx, block.transactions[idx]? = some tx ∧ tx.hash = hash

/-- No transaction hash occurs twice on a branch. -/
def BlockTree.NoRepeats (tree : BlockTree) : Prop :=
  ∀ {top first second hash firstIndex secondIndex}, tree.mem top →
    tree.Ancestor first top → tree.Ancestor second top →
    first.HasTxAt hash firstIndex → second.HasTxAt hash secondIndex →
      first = second ∧ firstIndex = secondIndex

def Block.lookupEntry (block : Block) (idx : Nat) : TxLookupEntry :=
  { blockHash := block.hash, blockIndex := block.number, index := idx }

theorem mem_txLookupEntries {entry : TxLookupEntry} :
    (hash, entry) ∈ txLookupEntries block ↔
      ∃ idx, block.HasTxAt hash idx ∧ entry = block.lookupEntry idx := by
  unfold txLookupEntries
  rw [mem_map]
  constructor
  · rintro ⟨⟨tx, idx⟩, indexed, equal⟩
    obtain ⟨hashEq, sameEntry⟩ := Prod.mk.inj equal
    exact ⟨idx, ⟨tx, mem_zipIdx_iff_getElem?.mp indexed, hashEq⟩, sameEntry.symm⟩
  · rintro ⟨idx, ⟨tx, got, hashEq⟩, sameEntry⟩
    exact ⟨(tx, idx), mem_zipIdx_iff_getElem?.mpr got, Prod.ext hashEq sameEntry.symm⟩

theorem mem_transactionHashes :
    hash ∈ block.transactions.map Transaction.hash ↔ ∃ idx, block.HasTxAt hash idx := by
  rw [mem_map]
  constructor
  · rintro ⟨tx, transactionMem, hashEq⟩
    obtain ⟨idx, got⟩ := mem_iff_getElem?.mp transactionMem
    exact ⟨idx, tx, got, hashEq⟩
  · rintro ⟨idx, tx, got, hashEq⟩
    exact ⟨tx, mem_iff_getElem?.mpr ⟨idx, got⟩, hashEq⟩

namespace BlockChain

variable {tree : BlockTree} {lib : TypesLib} {bc next : BlockChain} {oldChain newChain : List Block}
  {req : BlockWrite}

/-- The lookup entries are the positions on the branch that ends at a block. -/
structure IndexesBranch (tree : BlockTree) (top : Block)
    (lookups : Hash → Option TxLookupEntry) : Prop where
  present :
    ∀ {block hash idx}, tree.Ancestor block top →
      block.HasTxAt hash idx → lookups hash = some (block.lookupEntry idx)
  absent :
    ∀ {hash},
      (∀ block idx, tree.Ancestor block top → ¬ block.HasTxAt hash idx) → lookups hash = none

namespace IndexesBranch

variable {top : Block}

theorem updates_present (noRepeats : tree.NoRepeats) (topMem : tree.mem top)
    (onBranch : ∀ block ∈ blocks, tree.Ancestor block top) (blockMem : block ∈ blocks)
    {idx : Nat} (pos : block.HasTxAt hash idx) :
    updates lookups (blocks.flatMap txLookupEntries) hash = some (block.lookupEntry idx) := by
  apply updates_of_mem
  · exact mem_flatMap.mpr ⟨block, blockMem, mem_txLookupEntries.mpr ⟨idx, pos, rfl⟩⟩
  · rintro ⟨otherHash, entry⟩ entryMem hashEq
    obtain ⟨other, otherMem, otherEntry⟩ := mem_flatMap.mp entryMem
    obtain ⟨otherIndex, otherPosition, isEntry⟩ := mem_txLookupEntries.mp otherEntry
    have hashEq : otherHash = hash := hashEq
    rw [hashEq] at otherPosition
    obtain ⟨isBlock, isIndex⟩ :=
      noRepeats topMem (onBranch other otherMem) (onBranch block blockMem) otherPosition pos
    rw [isEntry, isBlock, isIndex]

theorem updates_absent (absent : ∀ block ∈ blocks, ∀ idx, ¬ block.HasTxAt hash idx) :
    updates lookups (blocks.flatMap txLookupEntries) hash = lookups hash := by
  apply updates_of_not_mem
  rintro ⟨otherHash, entry⟩ entryMem hashEq
  obtain ⟨other, otherMem, otherEntry⟩ := mem_flatMap.mp entryMem
  obtain ⟨otherIndex, otherPosition, _⟩ := mem_txLookupEntries.mp otherEntry
  have hashEq : otherHash = hash := hashEq
  rw [hashEq] at otherPosition
  exact absent other otherMem otherIndex otherPosition

theorem top_entries (noRepeats : tree.NoRepeats) (topMem : tree.mem top)
    (below :
      ∀ {block hash idx}, tree.Ancestor block top → block ≠ top →
        block.HasTxAt hash idx → lookups hash = some (block.lookupEntry idx))
    (outside : ∀ {hash},
        (∀ block idx, tree.Ancestor block top → ¬ block.HasTxAt hash idx) → lookups hash = none) :
    IndexesBranch tree top (updates lookups (txLookupEntries top)) := by
  have alone : txLookupEntries top = [top].flatMap txLookupEntries := by simp
  have onBranch : ∀ block ∈ [top], tree.Ancestor block top := by
    intro block blockMem
    rw [mem_singleton.mp blockMem]
    exact HashTree.ancestor_self top
  rw [alone]
  constructor
  · intro block hash idx path pos
    by_cases isTop : block = top
    · rw [isTop] at pos ⊢
      exact updates_present noRepeats topMem onBranch (mem_singleton.mpr rfl) pos
    · rw [updates_absent, below path isTop pos]
      intro other otherMem otherIndex otherPosition
      apply isTop
      rw [← mem_singleton.mp otherMem]
      exact (noRepeats topMem path (onBranch other otherMem) pos otherPosition).1
  · intro hash nowhere
    rw [updates_absent, outside nowhere]
    intro other otherMem otherIndex
    exact nowhere other otherIndex (onBranch other otherMem)

theorem extension (indexes : IndexesBranch tree parent lookups)
    (noRepeats : tree.NoRepeats) (link : tree.Parent parent block) :
    IndexesBranch tree block (updates lookups (txLookupEntries block)) := by
  have branch : ∀ {other}, tree.Ancestor other block ↔ other = block ∨ tree.Ancestor other parent :=
    HashTree.ancestor_iff_of_parent link
  apply top_entries noRepeats link.2.1
  · intro other hash idx path notTop pos
    exact indexes.present ((branch.mp path).resolve_left notTop) pos
  · intro hash nowhere
    apply indexes.absent
    intro other idx path
    exact nowhere other idx (branch.mpr (.inr path))

end IndexesBranch

theorem mem_blockTransactions :
    hash ∈ (blockTransactions blocks).map Transaction.hash ↔
      ∃ block ∈ blocks, ∃ idx, block.HasTxAt hash idx := by
  unfold blockTransactions
  rw [map_flatMap, mem_flatMap]
  constructor
  · rintro ⟨block, blockMem, occurs⟩
    exact ⟨block, blockMem, mem_transactionHashes.mp occurs⟩
  · rintro ⟨block, blockMem, occurs⟩
    exact ⟨block, blockMem, mem_transactionHashes.mpr occurs⟩

theorem mem_txDifference_hashes :
    hash ∈ (lib.txDifference (blockTransactions oldChain)
        (blockTransactions newChain)).map Transaction.hash ↔
      (∃ block ∈ oldChain, ∃ idx, block.HasTxAt hash idx) ∧
        ¬ ∃ block ∈ newChain, ∃ idx, block.HasTxAt hash idx := by
  rw [← mem_blockTransactions, ← mem_blockTransactions, mem_map, mem_map]
  constructor
  · rintro ⟨tx, kept, rfl⟩
    obtain ⟨old, notNew⟩ := lib.mem_txDifference.mp kept
    exact ⟨⟨tx, old, rfl⟩, notNew⟩
  · rintro ⟨⟨tx, old, rfl⟩, notNew⟩
    exact ⟨tx, lib.mem_txDifference.mpr ⟨old, notNew⟩, rfl⟩

theorem switchedLookups_indexes (lib : TypesLib) {oldTop newTop : Block}
    (noRepeats : tree.NoRepeats) (oldMem : tree.mem oldTop) (newMem : tree.mem newTop)
    (oldSegment : tree.Segment oldTop oldChain common)
    (newSegment : tree.Segment newTop newChain common)
    (indexes :
      IndexesBranch tree oldTop lookups) :
    IndexesBranch tree newTop (switchedLookups lib oldChain newChain lookups) := by
  -- A block of the new branch is above the common one or below both tops.
  have split : ∀ {block}, tree.Ancestor block newTop →
      block ∈ newChain ∨ (tree.Ancestor block common ∧ block ∉ newChain ∧ block ∉ oldChain) := by
    intro block path
    by_cases onNew : block ∈ newChain
    · exact .inl onNew
    · have low : block.number ≤ common.number :=
        Nat.le_of_not_lt fun above => onNew (newSegment.mem_iff.mpr ⟨path, above⟩)
      refine .inr ⟨path.ancestor_of_number_le newSegment.ancestor low, onNew, ?_⟩
      intro onOld
      exact Nat.not_lt.mpr low (oldSegment.number_lt onOld)
  constructor
  · intro block hash idx path pos
    unfold switchedLookups
    rcases split path with onNew | ⟨low, notNew, notOld⟩
    · rw [if_neg, IndexesBranch.updates_present noRepeats newMem
        (fun _ => newSegment.ancestor_of_mem) onNew pos]
      intro dropped
      exact (mem_txDifference_hashes.mp dropped).2 ⟨block, onNew, idx, pos⟩
    · have oldPath := low.trans oldSegment.ancestor
      rw [if_neg, IndexesBranch.updates_absent, indexes.present oldPath pos]
      · intro other otherMem otherIndex otherPosition
        apply notNew
        rw [(noRepeats newMem path (newSegment.ancestor_of_mem otherMem) pos otherPosition).1]
        exact otherMem
      · intro dropped
        obtain ⟨other, otherMem, otherIndex, otherPosition⟩ :=
          (mem_txDifference_hashes.mp dropped).1
        apply notOld
        rw [(noRepeats oldMem oldPath (oldSegment.ancestor_of_mem otherMem) pos otherPosition).1]
        exact otherMem
  · intro hash nowhere
    have notNew : ¬ ∃ block ∈ newChain, ∃ idx, block.HasTxAt hash idx := by
      rintro ⟨block, onNew, idx, pos⟩
      exact nowhere block idx (newSegment.ancestor_of_mem onNew) pos
    unfold switchedLookups
    split
    · rfl
    · rename_i notDropped
      rw [IndexesBranch.updates_absent]
      · apply indexes.absent
        intro block idx path pos
        -- The block is not on the old chain, so it is below the common one.
        by_cases onOld : block ∈ oldChain
        · exact notDropped (mem_txDifference_hashes.mpr ⟨⟨block, onOld, idx, pos⟩, notNew⟩)
        · have low : block.number ≤ common.number :=
            Nat.le_of_not_lt fun above => onOld (oldSegment.mem_iff.mpr ⟨path, above⟩)
          exact nowhere block idx ((path.ancestor_of_number_le oldSegment.ancestor low).trans
              newSegment.ancestor) pos
      · intro block onNew idx pos
        exact notNew ⟨block, onNew, idx, pos⟩

/-- Full sync with a lookup index of the branch of the head. -/
structure LookupSync (tree : BlockTree) (bc : BlockChain) : Prop
    extends FullSync tree bc where
  indexes : IndexesBranch tree bc.currentBlock bc.db.lookups

private theorem prepared_indexes (sync : LookupSync tree bc) (noRepeats : tree.NoRepeats)
    {fuel td : Nat} {ready : BlockChain} (hasParent : StoredBlock bc.db parent)
    (link : tree.Parent parent req.block) (enough : uint64Size < fuel)
    (made : Prepared lib fuel (bc.withTd req.block td) req ready) :
    IndexesBranch tree req.block (updates ready.db.lookups (txLookupEntries req.block)) := by
  rcases sync.prepared_cases hasParent link enough made with
    ⟨isCurrent, isReady⟩ |
    ⟨common, oldChain, newChain, oldSegment, newSegment, _, readyLookups⟩
  · rw [isCurrent] at link
    rw [isReady]
    exact sync.indexes.extension noRepeats link
  · have switchedIndexes :=
      switchedLookups_indexes lib noRepeats
        (sync.storedMem sync.currentStored) link.2.1 oldSegment newSegment
        sync.indexes
    rw [readyLookups]
    apply IndexesBranch.top_entries noRepeats link.2.1
    · intro block hash idx path _ pos
      exact switchedIndexes.present path pos
    · intro hash nowhere
      exact switchedIndexes.absent nowhere

theorem LookupSync.writeBlockAndState (sync : LookupSync tree bc) (noRepeats : tree.NoRepeats)
    (blockMem : tree.mem req.block) {status : WriteStatus}
    (res : bc.writeBlockAndState lib req = .ok (next, .ok status)) :
    LookupSync tree next := by
  refine ⟨sync.toFullSync.writeBlockAndState blockMem res, ?_⟩
  rcases writeBlockAndState_ok res with
    ⟨_, _, unchanged⟩ |
    ⟨ptd, localTd, parentTd, _, _, ⟨_, _, isNext⟩ | ⟨_, _, ready, made, isNext⟩⟩
  · rw [unchanged]
    exact sync.indexes
  · rw [isNext]
    exact sync.indexes
  · obtain ⟨parent, hasParent, link, _⟩ := sync.exists_parent blockMem parentTd
    have indexes :=
      prepared_indexes sync noRepeats hasParent link (Nat.lt_succ_self uint64Size) made
    rw [isNext, becomeHead_eq, insert_currentBlock, insert_lookups]
    exact indexes

theorem lookupSync_atGenesis (tree : BlockTree) (td : Nat) :
    LookupSync tree (atGenesis tree.root td) where
  toFullSync := fullSync_atGenesis tree td
  indexes := by
    constructor
    · rintro block hash idx path ⟨tx, got, _⟩
      rw [HashTree.ancestor_root_iff.mp path, tree.root_transactions] at got
      cases got
    · intro hash _
      rfl

/-- Why an import stopped. -/
inductive ImportFailure where
  | crashed (crash : Crash)
  | rejected (error : WriteBlockError)
  deriving DecidableEq

/-- A write that has to succeed. -/
def importBlock (lib : TypesLib) (bc : BlockChain) (req : tree.Write) :
    Except ImportFailure BlockChain :=
  match bc.writeBlockAndState lib req.1 with
  | .error crash => .error (.crashed crash)
  | .ok (_, .error error) => .error (.rejected error)
  | .ok (next, .ok _) => .ok next

/-- After any sequence of successful writes the lookup index holds exactly the
positions of the transactions on the branch of the head. -/
theorem lookups_index_head_branch (tree : BlockTree)
    (noRepeats : tree.NoRepeats) (lib : TypesLib) (genesisTd : Nat)
    (requests : List tree.Write) {bc : BlockChain}
    (succeeded : run (importBlock lib) (atGenesis tree.root genesisTd) requests = .ok bc)
    (hash : Hash) :
    (∀ block idx, tree.Ancestor block bc.currentBlock →
      block.HasTxAt hash idx → bc.db.getTxLookupEntry hash = (block.hash, block.number, idx)) ∧
    ((∀ block idx, tree.Ancestor block bc.currentBlock → ¬ block.HasTxAt hash idx) →
      bc.db.lookups hash = none ∧ bc.db.getTxLookupEntry hash = (emptyHash, 0, 0)) := by
  have sync : LookupSync tree bc := by
    refine run_keeps (LookupSync tree) ?_ (lookupSync_atGenesis tree genesisTd) succeeded
    intro state req after kept taken
    unfold importBlock at taken
    split at taken
    · cases taken
    · cases taken
    · rename_i res
      cases taken
      exact kept.writeBlockAndState noRepeats req.2 res
  constructor
  · intro block idx path pos
    rw [ChainDb.getTxLookupEntry, sync.indexes.present path pos]
    rfl
  · intro nowhere
    have missing := sync.indexes.absent nowhere
    exact ⟨missing, by rw [ChainDb.getTxLookupEntry, missing]⟩

section

def lookupGenesis : Block := { header := { hash := 1, parentHash := emptyHash, difficulty := 1 } }

def lookupOld : Block where
  header := { hash := 2, parentHash := 1, difficulty := 2, number := 1 }
  transactions := [{ hash := 10 }, { hash := 11 }]

def lookupNew : Block where
  header := { hash := 3, parentHash := 1, difficulty := 5, number := 1 }
  transactions := [{ hash := 11 }, { hash := 12 }]

abbrev lookupTree : BlockTree :=
  BlockTree.ofList lookupGenesis [lookupOld, lookupNew]
    (by decide) (by decide) (by decide) (by decide) (by decide) (by decide)

private theorem lookupTree_noRepeats : lookupTree.NoRepeats := by
  have rows : ∀ block ∈ lookupGenesis :: [lookupOld, lookupNew],
        block.number ≤ 1 ∧ (block.number = 0 → block.transactions = []) ∧
          (block.transactions.map Transaction.hash).Nodup := by
    decide
  intro top first second hash firstIndex secondIndex topMem firstPath secondPath firstAt secondAt
  have onTop : ∀ {block idx}, lookupTree.Ancestor block top →
      block.HasTxAt hash idx → block = top := by
    rintro block idx path ⟨tx, got, _⟩
    apply path.eq_of_number_le
    change top.number ≤ block.number
    have blockRow := rows block (path.mem topMem)
    have topRow := rows top topMem
    rcases Nat.eq_zero_or_pos block.number with zero | positive
    · rw [blockRow.2.1 zero] at got
      cases got
    · omega
  have isFirst := onTop firstPath firstAt
  have isSecond := onTop secondPath secondAt
  refine ⟨isFirst.trans isSecond.symm, ?_⟩
  rw [isFirst] at firstAt
  rw [isSecond] at secondAt
  obtain ⟨firstTx, firstFound, firstHash⟩ := firstAt
  obtain ⟨secondTx, secondFound, secondHash⟩ := secondAt
  have firstEntry : (top.transactions.map Transaction.hash)[firstIndex]? = some hash := by
    rw [List.getElem?_map, firstFound, Option.map_some, firstHash]
  have secondEntry : (top.transactions.map Transaction.hash)[secondIndex]? = some hash := by
    rw [List.getElem?_map, secondFound, Option.map_some, secondHash]
  exact (List.getElem?_inj (List.getElem?_eq_some_iff.mp firstEntry).1
    (rows top topMem).2.2).mp (firstEntry.trans secondEntry.symm)

def lookupWrites : List lookupTree.Write :=
  [⟨{ block := lookupOld, commitRoot := some 0 }, by decide⟩,
    ⟨{ block := lookupNew, commitRoot := some 0 }, by decide⟩]

/-- After the reorganisation the shared transaction is found at its new place
and the dropped one is gone. -/
theorem lookups_index_after_reorg :
    ∃ bc,
      run (importBlock TypesLib.byHash) (atGenesis lookupTree.root 1) lookupWrites = .ok bc ∧
      bc.db.getTxLookupEntry 11 = (lookupNew.hash, lookupNew.number, 0) ∧
      bc.db.getTxLookupEntry 10 = (emptyHash, 0, 0) := by
  have computed :
      ∃ bc,
        run (importBlock TypesLib.byHash) (atGenesis lookupTree.root 1) lookupWrites = .ok bc ∧
        bc.currentBlock = lookupNew := by
    decide +kernel
  obtain ⟨bc, succeeded, isNew⟩ := computed
  have branch : ∀ {block}, lookupTree.Ancestor block bc.currentBlock ↔
      block = lookupNew ∨ block = lookupGenesis := by
    intro block
    have link : lookupTree.Parent lookupGenesis lookupNew := ⟨by decide, by decide, rfl⟩
    rw [isNew, HashTree.ancestor_iff_of_parent link]
    exact or_congr Iff.rfl HashTree.ancestor_root_iff
  have idx :=
    lookups_index_head_branch lookupTree lookupTree_noRepeats
      TypesLib.byHash 1 lookupWrites succeeded
  refine ⟨bc, succeeded, ?_, ?_⟩
  · exact (idx 11).1 lookupNew 0 (branch.mpr (.inl rfl)) ⟨{ hash := 11 }, rfl, rfl⟩
  · refine ((idx 10).2 ?_).2
    rintro block idx path ⟨tx, got, hashEq⟩
    have transactionMem := mem_of_getElem? got
    have absent :
        ∀ block ∈ [lookupNew, lookupGenesis], ∀ tx ∈ block.transactions, tx.hash ≠ 10 := by
      decide
    exact absent block (by simpa using branch.mp path) tx transactionMem hashEq

end

end BlockChain

end MoacVnode.Core
