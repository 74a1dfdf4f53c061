import MoacVnode.Core.FullSync
import MoacVnode.Core.HeaviestChain

/-!
# Headers and blocks choose the same fork

The header chain deletes the canonical hashes above a new head, the block chain
does not.  The two agree as long as a new head is not below the old one.
-/

namespace MoacVnode.Core

open Lib Nat HashTree.Ancestor HeaderChain HeaderChain

namespace BlockTree

variable {tree : BlockTree} {first second : Block}

abbrev Node (tree : BlockTree) := { block // tree.mem block }

def headers (tree : BlockTree) : HeaderTree where
  mem header := ∃ block, tree.mem block ∧ block.header = header
  root := tree.root.header
  root_mem := ⟨tree.root, tree.root_mem, rfl⟩
  root_number := tree.root_number
  hash_injective := by
    rintro _ _ ⟨left, leftMem, rfl⟩ ⟨right, rightMem, rfl⟩ hashEq
    rw [tree.hash_injective leftMem rightMem hashEq]
  number_parent := by
    rintro _ _ ⟨parent, parentMem, rfl⟩ ⟨child, childMem, rfl⟩ link
    exact tree.number_parent parentMem childMem link
  hash_ne_empty := by
    rintro _ ⟨block, blockMem, rfl⟩
    exact tree.hash_ne_empty blockMem
  number_bound := by
    rintro _ ⟨block, blockMem, rfl⟩
    exact tree.number_bound blockMem

theorem eq_of_header_eq (firstMem : tree.mem first) (secondMem : tree.mem second)
    (same : first.header = second.header) : first = second :=
  tree.hash_injective firstMem secondMem (congrArg Header.hash same)

theorem headers_ancestor (path : tree.Ancestor first second) :
    tree.headers.Ancestor first.header second.header := by
  induction path with
  | refl => exact HashTree.ancestor_self _
  | tail _ last ih => exact ih.trans (of_parent ⟨⟨_, last.1, rfl⟩, ⟨_, last.2.1, rfl⟩, last.2.2⟩)

end BlockTree

namespace BlockChain

variable {tree : BlockTree} {lib : TypesLib} {bc next : BlockChain}
  {hc : HeaderChain} {block : Block} {coin : Bool} {req : BlockWrite}

def cleanWrite (block : Block) (coin : Bool) : BlockWrite :=
  { block, coin, commitRoot := some block.root }

def insertBlock (lib : TypesLib) (bc : BlockChain)
    (input : tree.Node × Bool) : Except Crash BlockChain :=
  match bc.writeBlockAndState lib (cleanWrite input.1 input.2) with
  | .error crash => .error crash
  | .ok (next, _) => .ok next

theorem FullSync.write_returns (sync : FullSync tree bc) (lib : TypesLib)
    (blockMem : tree.mem block) (coin : Bool) {ptd : Nat}
    (parentTd : bc.db.getTd block.parentHash (prev64 block.number) = some ptd) :
    ∃ next status, bc.writeBlockAndState lib (cleanWrite block coin) = .ok (next, .ok status) := by
  obtain ⟨parent, hasParent, link, _⟩ := sync.exists_parent blockMem parentTd
  obtain ⟨localTd, localFound⟩ := sync.tdOfStored sync.currentStored
  have prepared : prepareError (cleanWrite block coin) = none := by simp [prepareError, cleanWrite]
  unfold BlockChain.writeBlockAndState
  dsimp only [cleanWrite] at prepared ⊢
  rw [parentTd, localFound, prepared]
  cases known : bc.hasBlock block.hash block.number with
  | true => exact ⟨bc, .nonStatTy, rfl⟩
  | false =>
    obtain ⟨common, oldChain, newChain, walked, _⟩ :=
      sync.branches hasParent link (lt_succ_self uint64Size)
    rw [← findBranches_withTd bc block (block.difficulty + ptd)] at walked
    obtain ⟨ready, isReady⟩ := @reorg_of_branches lib _ _ _ _ _ _ walked fun _ _ =>
      (rfl : (cleanWrite block coin).lookupFails _ _ = false)
    exact chooseFork_returns isReady rfl rfl rfl

/-- Full sync with an index that is the branch of the head. -/
structure IndexSync (tree : BlockTree) (bc : BlockChain) : Prop
    extends FullSync tree bc where
  branchIndexed :
    ∀ {ancestor}, tree.Ancestor ancestor bc.currentBlock →
      bc.db.canonicalHash ancestor.number = some ancestor.hash
  emptyAbove : ∀ {num}, bc.currentBlock.number < num → bc.db.canonicalHash num = none

private theorem prepared_index (sync : IndexSync tree bc) {parent : Block} {fuel td : Nat}
    {ready : BlockChain} (hasParent : StoredBlock bc.db parent)
    (link : tree.Parent parent req.block) (enough : uint64Size < fuel)
    (notBelow : bc.currentBlock.number ≤ req.block.number)
    (made : Prepared lib fuel (bc.withTd req.block td) req ready) :
    (∀ {ancestor}, tree.Ancestor ancestor parent →
      ready.db.canonicalHash ancestor.number = some ancestor.hash) ∧
    ∀ {num}, req.block.number < num → ready.db.canonicalHash num = none := by
  rcases sync.prepared_cases hasParent link enough made with
    ⟨isCurrent, isReady⟩ |
    ⟨common, oldChain, newChain, oldSegment, newSegment, readyIndex, _⟩
  · rw [isCurrent, isReady]
    exact ⟨sync.branchIndexed, fun higher => sync.emptyAbove (lt_of_le_of_lt notBelow higher)⟩
  rw [readyIndex]
  constructor
  · intro ancestor path
    have newPath := path.trans (of_parent link)
    by_cases onNew : ancestor ∈ newChain
    · apply updates_of_mem
      · exact List.mem_map_of_mem onNew
      · intro entry entryMem sameNumber
        obtain ⟨other, otherMem, rfl⟩ := List.mem_map.mp entryMem
        have same := (newSegment.ancestor_of_mem otherMem).unique newPath sameNumber
        rw [same]
    · have low : ancestor.number ≤ common.number :=
        Nat.le_of_not_lt fun above => onNew (newSegment.mem_iff.mpr ⟨newPath, above⟩)
      rw [updates_of_not_mem]
      · exact sync.branchIndexed
          ((newPath.ancestor_of_number_le newSegment.ancestor low).trans oldSegment.ancestor)
      · intro entry entryMem sameNumber
        obtain ⟨other, otherMem, rfl⟩ := List.mem_map.mp entryMem
        have above : common.number < other.number := newSegment.number_lt otherMem
        omega
  · intro num higher
    rw [updates_of_not_mem]
    · exact sync.emptyAbove (lt_of_le_of_lt notBelow higher)
    · intro entry entryMem sameNumber
      obtain ⟨other, otherMem, rfl⟩ := List.mem_map.mp entryMem
      have below : other.number ≤ req.block.number :=
        number_le (newSegment.ancestor_of_mem otherMem)
      omega

theorem IndexSync.writeBlockAndState (sync : IndexSync tree bc)
    (blockMem : tree.mem req.block) {status : WriteStatus}
    (res : bc.writeBlockAndState lib req = .ok (next, .ok status))
    (notBelow : status = .canonStatTy → bc.currentBlock.number ≤ req.block.number) :
    IndexSync tree next := by
  have full := sync.toFullSync.writeBlockAndState blockMem res
  rcases writeBlockAndState_ok res with
    ⟨_, _, kept⟩ |
    ⟨ptd, localTd, parentTd, _, _, ⟨_, _, isNext⟩ | ⟨_, isCanon, ready, made, isNext⟩⟩
  · rw [kept]
    exact sync
  · refine ⟨full, ?_, ?_⟩
    · rw [isNext]
      exact sync.branchIndexed
    · rw [isNext]
      exact sync.emptyAbove
  · obtain ⟨parent, hasParent, link, _⟩ := sync.exists_parent blockMem parentTd
    obtain ⟨indexed, above⟩ :=
      prepared_index sync hasParent link (lt_succ_self uint64Size) (notBelow isCanon) made
    have numEq : req.block.number = parent.number + 1 := HashTree.number_of_parent link
    have head : next.currentBlock = req.block := by
      rw [isNext, becomeHead_eq, insert_currentBlock]
    have idx : next.db.canonicalHash =
          Function.update ready.db.canonicalHash req.block.number (some req.block.hash) := by
      rw [isNext, becomeHead_eq, insert_canonicalHash]
      rfl
    refine ⟨full, ?_, ?_⟩
    · intro ancestor path
      rw [head] at path
      rw [idx]
      rcases (HashTree.ancestor_iff_of_parent link).mp path with isBlock | lower
      · rw [isBlock]
        exact Function.update_self _ _ _
      · have below : ancestor.number ≤ parent.number := number_le lower
        rw [Function.update_of_ne (by omega)]
        exact indexed lower
    · intro num higher
      rw [head] at higher
      rw [idx, Function.update_of_ne (ne_of_gt higher)]
      exact above higher

/-- Block chain and header chain hold the same headers with the same total
difficulties and have the same head. -/
structure Agree (tree : BlockTree) (bc : BlockChain) (hc : HeaderChain) :
    Prop where
  sync : IndexSync tree bc
  heaviest : Heaviest tree.headers hc
  head : hc.currentHeader = bc.currentBlock.header
  tds : ∀ hash num, hc.db.getTd hash num = bc.db.getTd hash num
  stored_iff : ∀ {block}, tree.mem block → (Stored hc.db block.header ↔ StoredBlock bc.db block)

def insertHeaderOf (hc : HeaderChain) (input : tree.Node × Bool) : Except Crash HeaderChain :=
  hc.insertHeader input.1.1.header input.2

/-- A block that would win the fork choice is the head already, or it is new
and not below the head. -/
def WinsOnTop (bc : BlockChain) (input : tree.Node × Bool) : Prop :=
  ∀ ptd ∈ bc.db.getTd input.1.1.parentHash (prev64 input.1.1.number),
    ∀ localTd ∈ bc.db.getTd bc.currentBlock.hash bc.currentBlock.number,
      Wins localTd (input.1.1.difficulty + ptd) input.2 →
        input.1.1 = bc.currentBlock ∨
          (bc.hasBlock input.1.1.hash input.1.1.number = false ∧
            bc.currentBlock.number ≤ input.1.1.number)

namespace Agree

variable {nextHc : HeaderChain} {ptd : Nat}

section

variable (agree : Agree tree bc hc)

include agree

theorem canonicalHash_eq (num : Nat) : bc.db.canonicalHash num = hc.db.canonicalHash num := by
  by_cases below : num ≤ bc.currentBlock.number
  · obtain ⟨ancestor, _, path, isNumber⟩ :=
      agree.sync.closed.exists_ancestor agree.sync.currentStored below
    have headerPath : tree.headers.Ancestor ancestor.header hc.currentHeader := by
      rw [agree.head]
      exact BlockTree.headers_ancestor path
    have ancestorNumber : ancestor.number = num := isNumber
    rw [← ancestorNumber, agree.sync.branchIndexed path]
    exact (agree.heaviest.branchIndexed headerPath).symm
  · have higher : bc.currentBlock.number < num := Nat.lt_of_not_le below
    rw [agree.sync.emptyAbove higher]
    symm
    apply agree.heaviest.emptyAbove
    rw [agree.head]
    exact higher

section

variable (heaviest : Heaviest tree.headers nextHc)
  (tds : ∀ hash num, nextHc.db.getTd hash num = (recordHeader hc.db
    block.header (block.difficulty + ptd)).getTd hash num)
  (storedIff : ∀ {other}, Stored nextHc.db other ↔ other = block.header ∨ Stored hc.db other)
  (blockMem : tree.mem block)

include heaviest tds storedIff blockMem

private theorem known {parent : Header} (isKnown : bc.hasBlock block.hash block.number = true)
    (link : tree.headers.Parent parent block.header)
    (ptdFound : hc.db.getTd parent.hash parent.number = some ptd)
    (head : nextHc.currentHeader = bc.currentBlock.header) : Agree tree bc nextHc := by
  have blockStored := agree.sync.stored_of_hasBlock blockMem isKnown
  have headerStored := (agree.stored_iff blockMem).mpr blockStored
  refine ⟨agree.sync, heaviest, head, ?_, ?_⟩
  · intro hash num
    rw [tds, ← agree.tds]
    by_cases sameKey : (num, hash) = (block.number, block.hash)
    · obtain ⟨rfl, rfl⟩ := Prod.mk.inj sameKey
      exact agree.heaviest.getTd_recordHeader_of_stored link ptdFound headerStored
    · rw [recordHeader_getTd, if_neg sameKey]
  · intro other otherMem
    rw [storedIff, agree.stored_iff otherMem]
    constructor
    · rintro (isBlock | stored)
      · rw [BlockTree.eq_of_header_eq otherMem blockMem isBlock]
        exact blockStored
      · exact stored
    · exact .inr

private theorem added (sync : IndexSync tree next)
    (adds : AddsBlock block (block.difficulty + ptd) bc.db next.db)
    (head : nextHc.currentHeader = next.currentBlock.header) : Agree tree next nextHc := by
  refine ⟨sync, heaviest, head, ?_, ?_⟩
  · intro hash num
    rw [tds, recordHeader_getTd, adds.getTd, agree.tds]
  · intro other otherMem
    rw [storedIff, adds.storedBlock_iff agree.sync.storedMem blockMem, agree.stored_iff otherMem]
    constructor
    · rintro (isBlock | stored)
      · exact .inl (BlockTree.eq_of_header_eq otherMem blockMem isBlock)
      · exact .inr stored
    · rintro (isBlock | stored)
      · exact .inl (congrArg Block.header isBlock)
      · exact .inr stored

end

theorem step (lib : TypesLib) {input : tree.Node × Bool} (onTop : WinsOnTop bc input) :
    ∃ nextBc nextHc, insertBlock lib bc input = .ok nextBc ∧
      insertHeaderOf hc input = .ok nextHc ∧ Agree tree nextBc nextHc := by
  obtain ⟨⟨block, blockMem⟩, coin⟩ := input
  cases parentTd : bc.db.getTd block.parentHash (prev64 block.number) with
  | none =>
    have rejected :
        bc.writeBlockAndState lib (cleanWrite block coin) = .ok (bc, .error .unknownAncestor) := by
      unfold BlockChain.writeBlockAndState
      dsimp only [cleanWrite]
      rw [parentTd]
    refine ⟨bc, hc, ?_, ?_, agree⟩
    · unfold insertBlock
      rw [rejected]
    · have headerTd := (agree.tds _ _).trans parentTd
      unfold insertHeaderOf HeaderChain.insertHeader HeaderChain.writeHeader
      rw [headerTd]
  | some ptd =>
    obtain ⟨localTd, localFound⟩ := agree.sync.tdOfStored agree.sync.currentStored
    have headerTd := (agree.tds _ _).trans parentTd
    have headerLocal :
        hc.db.getTd hc.currentHeader.hash hc.currentHeader.number = some localTd := by
      rw [agree.head, agree.tds]
      exact localFound
    obtain ⟨nextHc, parent, inserted, heaviest, link, ptdFound, tds, storedIff, head⟩ :=
      agree.heaviest.insertHeader_effect ⟨block, blockMem, rfl⟩ coin headerTd headerLocal
    obtain ⟨nextBc, status, res⟩ := agree.sync.write_returns lib blockMem coin parentTd
    have insertedBlock :
        insertBlock lib bc (⟨⟨block, blockMem⟩, coin⟩ : tree.Node × Bool) = .ok nextBc := by
      unfold insertBlock
      rw [res]
    have winning := onTop ptd parentTd localTd localFound
    refine ⟨nextBc, nextHc, insertedBlock, inserted, ?_⟩
    rcases writeBlockAndState_ok res with
      ⟨isKnown, _, kept⟩ |
      ⟨otherPtd, otherLocal, otherParentTd, unknown, otherLocalFound, effect⟩
    · rw [kept]
      refine agree.known heaviest tds storedIff blockMem isKnown link ptdFound ?_
      rw [head]
      split
      · rename_i wins
        rcases winning wins with isCurrent | ⟨unknown, _⟩
        · rw [← isCurrent]
        · rw [show bc.hasBlock block.hash block.number = true from isKnown] at unknown
          cases unknown
      · exact agree.head
    · have samePtd : ptd = otherPtd := Option.some.inj (parentTd.symm.trans otherParentTd)
      have sameLocal : localTd = otherLocal :=
        Option.some.inj (localFound.symm.trans otherLocalFound)
      subst samePtd
      subst sameLocal
      rcases effect with ⟨loses, isSide, isNext⟩ | ⟨wins, isCanon, ready, made, isNext⟩
      · have sync := agree.sync.writeBlockAndState blockMem res (by
          intro impossible
          rw [isSide] at impossible
          cases impossible)
        refine agree.added heaviest tds storedIff blockMem sync ?_ ?_
        · rw [isNext]
          exact ⟨rfl, rfl, rfl⟩
        · refine (head.trans (if_neg loses)).trans ?_
          rw [agree.head, isNext]
          rfl
      · have onTopOf : bc.currentBlock.number ≤ block.number := by
          rcases winning wins with isCurrent | ⟨_, notBelow⟩
          · exact le_of_eq (congrArg Block.number isCurrent).symm
          · exact notBelow
        have sync := agree.sync.writeBlockAndState blockMem res fun _ => onTopOf
        refine agree.added heaviest tds storedIff blockMem sync ?_ ?_
        · rw [isNext]
          exact addsBlock_canon (sameBlocks_of_prepared made)
        · refine (head.trans (if_pos wins)).trans ?_
          rw [isNext, becomeHead_eq, insert_currentBlock]
          rfl

end

end Agree

theorem agree_atGenesis (tree : BlockTree) (td : Nat) :
    Agree tree (atGenesis tree.root td) (HeaderChain.atGenesis tree.root.header td) where
  sync := by
    refine ⟨fullSync_atGenesis tree td, ?_, ?_⟩
    · intro ancestor path
      rw [HashTree.ancestor_root_iff.mp path, atGenesis_canonicalHash]
      exact if_pos rfl
    · intro num higher
      rw [atGenesis_canonicalHash]
      exact if_neg (ne_of_gt higher)
  heaviest := heaviest_atGenesis tree.headers td
  head := rfl
  tds := by
    intro hash num
    rw [HeaderChain.atGenesis_getTd, atGenesis_getTd]
  stored_iff := by
    intro block blockMem
    rw [stored_atGenesis_iff, storedBlock_atGenesis_iff]
    constructor
    · exact BlockTree.eq_of_header_eq blockMem tree.root_mem
    · exact congrArg Block.header

/-- In every run in which a block that wins is the head already or is new and not below the head,
block chain and header chain end with the same head and the branch of the head as canonical index.
-/
theorem fork_choice_agrees (tree : BlockTree) (lib : TypesLib)
    (genesisTd : Nat) (inputs : List (tree.Node × Bool))
    (onTop : EachStep (insertBlock lib) WinsOnTop (atGenesis tree.root genesisTd) inputs) :
    ∃ (bc : BlockChain) (hc : HeaderChain),
      run (insertBlock lib) (atGenesis tree.root genesisTd) inputs = .ok bc ∧
      run insertHeaderOf (HeaderChain.atGenesis tree.root.header genesisTd) inputs = .ok hc ∧
      hc.currentHeader = bc.currentBlock.header ∧
      (∀ num, bc.db.getCanonicalHash num = hc.db.getCanonicalHash num) ∧
      (∀ num ≤ bc.currentBlock.number,
        ∃ ancestor, tree.Ancestor ancestor bc.currentBlock ∧
          ancestor.number = num ∧
          bc.db.getCanonicalHash num = ancestor.hash) ∧
      ∀ num > bc.currentBlock.number, bc.db.getCanonicalHash num = emptyHash := by
  obtain ⟨bc, hc, blocks, headers, agree⟩ :=
    run_simulation (insertBlock lib) insertHeaderOf (Agree tree)
      (fun agree met => agree.step lib met) (agree_atGenesis tree genesisTd)
      onTop
  refine ⟨bc, hc, blocks, headers, agree.head, ?_, ?_, ?_⟩
  · intro num
    unfold ChainDb.getCanonicalHash
    rw [agree.canonicalHash_eq]
  · intro num below
    obtain ⟨ancestor, _, path, isNumber⟩ :=
      agree.sync.closed.exists_ancestor agree.sync.currentStored below
    have ancestorNumber : ancestor.number = num := isNumber
    refine ⟨ancestor, path, ancestorNumber, ?_⟩
    rw [ChainDb.getCanonicalHash, ← ancestorNumber, agree.sync.branchIndexed path]
    rfl
  · intro num higher
    rw [ChainDb.getCanonicalHash, agree.sync.emptyAbove higher]
    rfl

section

def agreeGenesis : Block := { header := { hash := 1, parentHash := emptyHash, difficulty := 1 } }

def agreeFirst : Block := { header := { hash := 2, parentHash := 1, difficulty := 2, number := 1 } }

def agreeSecond : Block :=
  { header := { hash := 3, parentHash := 2, difficulty := 2, number := 2 } }

def agreeShort : Block := { header := { hash := 4, parentHash := 1, difficulty := 9, number := 1 } }

abbrev agreeTree : BlockTree :=
  BlockTree.ofList agreeGenesis [agreeFirst, agreeSecond, agreeShort]
    (by decide) (by decide) (by decide) (by decide) (by decide) (by decide)

instance (tree : BlockTree) (bc : BlockChain) (input : tree.Node × Bool) :
    Decidable (WinsOnTop bc input) := by
  unfold WinsOnTop
  infer_instance

def agreeLong : List (agreeTree.Node × Bool) :=
  [(⟨agreeFirst, by decide⟩, false), (⟨agreeSecond, by decide⟩, false)]

def agreeRival : agreeTree.Node × Bool := (⟨agreeShort, by decide⟩, false)

/-- After a reorganisation to a shorter branch the block chain still names the dropped block above
the head, the header chain does not. -/
theorem shorter_branch_keeps_stale_hash :
    (∃ bc,
      run (insertBlock TypesLib.byHash) (atGenesis agreeTree.root 1)
          (agreeLong ++ [agreeRival]) = .ok bc ∧
      bc.currentBlock = agreeShort ∧
      bc.db.getCanonicalHash agreeSecond.number = agreeSecond.hash) ∧
    ∃ hc,
      run insertHeaderOf (HeaderChain.atGenesis agreeTree.root.header 1)
          (agreeLong ++ [agreeRival]) = .ok hc ∧
      hc.currentHeader = agreeShort.header ∧
      hc.db.getCanonicalHash agreeSecond.number = emptyHash := by
  decide +kernel

/-- The rival that comes before the longer branch replaces the head on both
sides. -/
theorem fork_choice_agrees_rival :
    ∃ (bc : BlockChain) (hc : HeaderChain),
      run (insertBlock TypesLib.byHash) (atGenesis agreeTree.root 1)
          (agreeLong.take 1 ++ agreeRival :: agreeLong.drop 1) = .ok bc ∧
      run insertHeaderOf (HeaderChain.atGenesis agreeTree.root.header 1)
          (agreeLong.take 1 ++ agreeRival :: agreeLong.drop 1) = .ok hc ∧
      hc.currentHeader = bc.currentBlock.header ∧
      (∀ num, bc.db.getCanonicalHash num = hc.db.getCanonicalHash num) ∧
      (∀ num ≤ bc.currentBlock.number,
        ∃ ancestor, agreeTree.Ancestor ancestor bc.currentBlock ∧
          ancestor.number = num ∧
          bc.db.getCanonicalHash num = ancestor.hash) ∧
      ∀ num > bc.currentBlock.number, bc.db.getCanonicalHash num = emptyHash :=
  fork_choice_agrees agreeTree TypesLib.byHash 1
    (agreeLong.take 1 ++ agreeRival :: agreeLong.drop 1) (by decide +kernel)

end

end BlockChain

end MoacVnode.Core
