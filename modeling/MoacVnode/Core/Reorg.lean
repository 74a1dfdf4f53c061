import Mathlib.Data.List.TakeWhile
import MoacVnode.Core.BlockChain
import MoacVnode.Lib.Updates

/-!
# What a reorganisation does

The walk of `reorg` finds the two branches above the last common block.
-/

namespace MoacVnode.Core

open Lib List HashTree ChainDb HashTree.Ancestor

variable {block : Block} {db : ChainDb} {lookupFails : Hash → Nat → Bool} {bc next : BlockChain}

/-- Blocks around a genesis without transactions whose hashes identify them and are not empty, with
numbers that have a successor in a `uint64`. -/
structure BlockTree extends HashTree blockLinks where
  hash_ne_empty : ∀ {block}, mem block → block.hash ≠ emptyHash
  number_bound : ∀ {block}, mem block → block.number + 1 < uint64Size
  root_transactions : root.transactions = []

def BlockTree.ofList (genesis : Block) (blocks : List Block) (rootNumber : genesis.number = 0)
    (rootEmpty : genesis.transactions = [])
    (hashes :
      ∀ left ∈ genesis :: blocks, ∀ right ∈ genesis :: blocks,
        left.hash = right.hash → left = right)
    (numbers :
      ∀ parent ∈ genesis :: blocks, ∀ child ∈ genesis :: blocks,
        child.parentHash = parent.hash → child.number = parent.number + 1)
    (notEmpty : ∀ block ∈ genesis :: blocks, block.hash ≠ emptyHash)
    (bounded : ∀ block ∈ genesis :: blocks, block.number + 1 < uint64Size) :
    BlockTree where
  toHashTree := HashTree.ofList blockLinks genesis blocks rootNumber hashes numbers
  hash_ne_empty blockMem := notEmpty _ blockMem
  number_bound blockMem := bounded _ blockMem
  root_transactions := rootEmpty

instance (genesis : Block) (blocks : List Block)
    (rootNumber rootEmpty hashes numbers notEmpty bounded) (block : Block) :
    Decidable ((BlockTree.ofList genesis blocks rootNumber rootEmpty hashes numbers
        notEmpty bounded).mem block) :=
  inferInstanceAs (Decidable (block ∈ genesis :: blocks))

def StoredBlock (db : ChainDb) (block : Block) : Prop :=
  db.getBlock block.hash block.number = some block

theorem storedBlock_of_getBlock {hash : Hash} {num : Nat}
    (got : db.getBlock hash num = some block) : StoredBlock db block := by
  have sameNumber := number_of_getBlock got
  have hashEq := hash_of_getBlock got
  unfold StoredBlock
  rw [sameNumber, hashEq]
  exact got

namespace BlockTree

variable {tree : BlockTree} {parent child : Block}

theorem prev64_of_parent (link : tree.Parent parent child) :
    prev64 child.number = parent.number := by
  rw [show child.number = parent.number + 1 from number_of_parent link]
  exact prev64_succ (tree.number_bound link.1)

/-- A branch that can be walked down from its top to genesis: the blocks below
the top are stored. -/
structure Walkable (tree : BlockTree) (db : ChainDb) (top : Block) : Prop where
  rooted : tree.Ancestor tree.root top
  stored :
    ∀ {parent}, tree.Parent parent top →
      ∀ {ancestor}, tree.Ancestor ancestor parent → StoredBlock db ancestor

namespace Walkable

variable {top : Block}

section

variable (walkable : Walkable tree db top)

include walkable

theorem step (positive : 0 < top.number) :
    ∃ parent, tree.Parent parent top ∧ Walkable tree db parent ∧
      db.getBlock top.parentHash (prev64 top.number) = some parent := by
  obtain ⟨parent, link, rooted⟩ := walkable.rooted.exists_parent positive
  refine ⟨parent, link, ⟨rooted, ?_⟩, ?_⟩
  · intro lower lowerLink ancestor path
    exact walkable.stored link (path.trans (of_parent lowerLink))
  · have hashEq : top.parentHash = parent.hash := link.2.2
    rw [prev64_of_parent link, hashEq]
    exact walkable.stored link (ancestor_self parent)

theorem mem : tree.mem top := by
  rcases Relation.ReflTransGen.cases_tail walkable.rooted with isRoot | ⟨parent, _, link⟩
  · rw [isRoot]
    exact tree.root_mem
  · exact link.2.1

theorem eq_root (zero : top.number = 0) : top = tree.root := by
  exact (walkable.rooted.eq_of_number_le (by
    change top.number ≤ _
    omega)).symm

end

end Walkable

end BlockTree

namespace BlockChain

variable {tree : BlockTree} {other : ChainDb}

section

variable (genesis : Block) (td : Nat)

theorem atGenesis_getHeader (hash : Hash) (num : Nat) :
    (atGenesis genesis td).db.getHeader hash num =
      if (num, hash) = (genesis.number, genesis.hash) then some genesis.header
      else none :=
  Function.update_apply _ _ _ _

theorem atGenesis_getBody (hash : Hash) (num : Nat) :
    (atGenesis genesis td).db.getBody hash num =
      if (num, hash) = (genesis.number, genesis.hash) then some genesis.transactions
      else none :=
  Function.update_apply _ _ _ _

theorem atGenesis_getTd (hash : Hash) (num : Nat) :
    (atGenesis genesis td).db.getTd hash num =
      if (num, hash) = (genesis.number, genesis.hash) then some td
      else none :=
  Function.update_apply _ _ _ _

theorem atGenesis_canonicalHash (num : Nat) :
    (atGenesis genesis td).db.canonicalHash num =
      if num = genesis.number then some genesis.hash else none :=
  Function.update_apply _ _ _ _

theorem storedBlock_atGenesis_iff :
    StoredBlock (atGenesis genesis td).db block ↔ block = genesis := by
  unfold StoredBlock
  rw [getBlock_eq_some, atGenesis_getHeader, atGenesis_getBody]
  constructor
  · rintro ⟨sameHeader, sameBody⟩
    split at sameHeader
    · rename_i sameKey
      rw [if_pos sameKey] at sameBody
      cases block
      cases genesis
      cases sameHeader
      cases sameBody
      rfl
    · cases sameHeader
  · rintro rfl
    exact ⟨if_pos rfl, if_pos rfl⟩

end

theorem reduceTo_spec (num : Nat) :
    ∀ (fuel : Nat) (chain : List Block) {top : Block}, top.number < fuel + num →
      num ≤ top.number →
      BlockTree.Walkable tree db top →
        ∃ last nodes,
          reduceTo db num fuel (some top) chain = .ok (some last, chain ++ nodes) ∧
          tree.Segment top nodes last ∧
          last.number = num ∧
          BlockTree.Walkable tree db last
  | 0, _, _, enough, bound, _ => by omega
  | fuel + 1, chain, top, enough, bound, walkable => by
    by_cases arrived : top.number = num
    · refine ⟨top, [], ?_, .nil top, arrived, walkable⟩
      rw [reduceTo, if_neg (fun ne => ne arrived), append_nil]
    · obtain ⟨parent, link, parentWalkable, got⟩ := walkable.step (by omega)
      have numEq : top.number = parent.number + 1 := number_of_parent link
      obtain ⟨last, nodes, res, segment, lastNumber, lastWalkable⟩ :=
        reduceTo_spec num fuel (chain ++ [top]) (by omega) (by omega) parentWalkable
      refine ⟨last, top :: nodes, ?_, .cons link segment, lastNumber, lastWalkable⟩
      rw [reduceTo, if_pos arrived, got, res, append_assoc]
      rfl

theorem findCommon_spec :
    ∀ (fuel : Nat) (branches : Branches) {oldBlock newBlock : Block}, oldBlock.number < fuel →
      oldBlock.number = newBlock.number →
      BlockTree.Walkable tree db oldBlock →
      BlockTree.Walkable tree db newBlock →
      (oldBlock.hash = newBlock.hash → oldBlock = newBlock) →
        ∃ common oldNodes newNodes,
          findCommon db fuel oldBlock newBlock branches =
            .ok (.ok {
              oldChain := branches.oldChain ++ oldNodes
              newChain := branches.newChain ++ newNodes }) ∧
          tree.Segment oldBlock oldNodes common ∧
          tree.Segment newBlock newNodes common ∧
          ∀ {shared}, tree.Ancestor shared oldBlock →
            tree.Ancestor shared newBlock → tree.Ancestor shared common
  | 0, _, _, _, enough, _, _, _, _ => by omega
  | fuel + 1, branches, oldBlock, newBlock, enough, level, oldWalkable,
      newWalkable, identified => by
      by_cases same : oldBlock.hash = newBlock.hash
      · have isSame := identified same
        subst isSame
        refine ⟨oldBlock, [], [], ?_, .nil oldBlock, .nil oldBlock, fun path _ => path⟩
        rw [findCommon, if_pos rfl, append_nil, append_nil]
      · have positive : 0 < oldBlock.number := by
          apply Nat.pos_of_ne_zero
          intro zero
          apply same
          rw [oldWalkable.eq_root zero, newWalkable.eq_root (level.symm.trans zero)]
        obtain ⟨oldParent, oldLink, oldParentWalkable, oldFound⟩ := oldWalkable.step positive
        obtain ⟨newParent, newLink, newParentWalkable, newFound⟩ := newWalkable.step (by omega)
        have oldNumbered : oldBlock.number = oldParent.number + 1 := number_of_parent oldLink
        have newNumbered : newBlock.number = newParent.number + 1 := number_of_parent newLink
        obtain ⟨common, oldNodes, newNodes, res, oldSegment, newSegment, last⟩ :=
          findCommon_spec fuel ⟨branches.oldChain ++ [oldBlock], branches.newChain ++ [newBlock]⟩
            (by omega) (by omega) oldParentWalkable newParentWalkable
            (tree.hash_injective oldLink.1 newLink.1)
        refine ⟨common, oldBlock :: oldNodes, newBlock :: newNodes, ?_,
          .cons oldLink oldSegment, .cons newLink newSegment, ?_⟩
        · rw [findCommon, if_neg same, oldFound, newFound]
          dsimp only
          rw [res, append_assoc, append_assoc]
          rfl
        · intro shared oldPath newPath
          -- A shared block at the top would make the two tops equal.
          rcases (ancestor_iff_of_parent oldLink).mp oldPath with isOld | oldLower
          · rw [isOld] at newPath
            have isNew := newPath.eq_of_number_le (Nat.le_of_eq level.symm)
            exact False.elim (same (by rw [isNew]))
          rcases (ancestor_iff_of_parent newLink).mp newPath with isNew | newLower
          · rw [isNew] at oldPath
            have isOld := oldPath.eq_of_number_le (Nat.le_of_eq level)
            exact False.elim (same (by rw [isOld]))
          exact last oldLower newLower

section

variable (same : ∀ hash num, other.getBlock hash num = db.getBlock hash num)

include same

theorem reduceTo_congr (num fuel : Nat) (top : Option Block) (chain : List Block) :
    reduceTo other num fuel top chain = reduceTo db num fuel top chain := by
  induction fuel generalizing top chain with
  | zero => rfl
  | succ fuel ih =>
    cases top with
    | none => rfl
    | some top => rw [reduceTo, reduceTo, same, ih]

theorem findCommon_congr (fuel : Nat) (oldBlock newBlock : Block) (branches : Branches) :
    findCommon other fuel oldBlock newBlock branches =
      findCommon db fuel oldBlock newBlock branches := by
  induction fuel generalizing oldBlock newBlock branches with
  | zero => rfl
  | succ fuel ih =>
    rw [findCommon, findCommon, same, same]
    simp only [ih]

end

theorem findBranches_spec {fuel : Nat} {oldBlock newBlock : Block}
    (oldEnough : oldBlock.number < fuel) (newEnough : newBlock.number < fuel)
    (oldWalkable : BlockTree.Walkable tree db oldBlock)
    (newWalkable : BlockTree.Walkable tree db newBlock) :
    ∃ common oldNodes newNodes,
      findBranches db fuel oldBlock newBlock = .ok (.ok ⟨oldNodes, newNodes⟩) ∧
      tree.Segment oldBlock oldNodes common ∧
      tree.Segment newBlock newNodes common ∧
      ∀ {shared}, tree.Ancestor shared oldBlock →
        tree.Ancestor shared newBlock → tree.Ancestor shared common := by
  have memOf : ∀ {block}, BlockTree.Walkable tree db block → tree.mem block :=
    fun walkable => walkable.mem
  by_cases higher : newBlock.number < oldBlock.number
  · obtain ⟨reduced, upper, res, segment, level, reducedWalkable⟩ :=
      reduceTo_spec newBlock.number fuel [] (by omega) (Nat.le_of_lt higher) oldWalkable
    obtain ⟨common, lower, newNodes, walked, oldSegment, newSegment, last⟩ :=
      findCommon_spec fuel ⟨upper, []⟩ (by omega) level reducedWalkable newWalkable
        (tree.hash_injective (memOf reducedWalkable) (memOf newWalkable))
    refine ⟨common, upper ++ lower, newNodes, ?_, segment.append oldSegment, newSegment, ?_⟩
    · rw [findBranches, if_pos higher, res]
      exact walked
    · intro shared oldPath newPath
      have below : shared.number ≤ newBlock.number := number_le newPath
      refine last (oldPath.ancestor_of_number_le segment.ancestor ?_) newPath
      change shared.number ≤ reduced.number
      omega
  · obtain ⟨reduced, upper, res, segment, level, reducedWalkable⟩ :=
      reduceTo_spec oldBlock.number fuel [] (by omega) (Nat.le_of_not_lt higher) newWalkable
    obtain ⟨common, oldNodes, lower, walked, oldSegment, newSegment, last⟩ :=
      findCommon_spec fuel ⟨[], upper⟩ (by omega) level.symm oldWalkable reducedWalkable
        (tree.hash_injective (memOf oldWalkable) (memOf reducedWalkable))
    refine ⟨common, oldNodes, upper ++ lower, ?_, oldSegment, segment.append newSegment, ?_⟩
    · rw [findBranches, if_neg higher, res]
      exact walked
    · intro shared oldPath newPath
      have below : shared.number ≤ oldBlock.number := number_le oldPath
      refine last oldPath (newPath.ancestor_of_number_le segment.ancestor ?_)
      change shared.number ≤ reduced.number
      omega

structure SameBlocks (before after : ChainDb) : Prop where
  headers : after.headers = before.headers
  bodies : after.bodies = before.bodies
  tds : after.tds = before.tds

namespace SameBlocks

theorem refl (db : ChainDb) : SameBlocks db db := ⟨rfl, rfl, rfl⟩

end SameBlocks

theorem write_lookups (entries : List (Hash × TxLookupEntry)) :
    db.write (entries.map fun (hash, entry) => .lookup hash entry) =
      db.withLookups (updates db.lookups entries) := by
  induction entries generalizing db with
  | nil => rfl
  | cons entry entries ih => exact ih

section

variable (bc : BlockChain) (block : Block) (force : Bool)

@[simp]
theorem insert_currentBlock : (bc.insert block force).currentBlock = block := by
  unfold insert
  split
  · rfl
  · rfl

@[simp]
theorem insert_canonicalHash :
    (bc.insert block force).db.canonicalHash =
      Function.update bc.db.canonicalHash block.number (some block.hash) := by
  unfold insert
  split
  · rfl
  · rfl

@[simp]
theorem insert_lookups : (bc.insert block force).db.lookups = bc.db.lookups := by
  unfold insert
  split
  · rfl
  · rfl

theorem sameBlocks_insert : SameBlocks bc.db (bc.insert block force).db := by
  unfold insert
  split
  · exact ⟨rfl, rfl, rfl⟩
  · exact ⟨rfl, rfl, rfl⟩

end

theorem writeTxLookupEntriesUntil_ok {fails : Nat → Bool}
    (res : writeTxLookupEntriesUntil fails bc block = (next, true)) :
    next = bc.withDb (bc.db.withLookups (updates bc.db.lookups (txLookupEntries block))) := by
  unfold writeTxLookupEntriesUntil at res
  simp only [Prod.mk.injEq, decide_eq_true_eq] at res
  obtain ⟨isNext, full⟩ := res
  rw [← isNext, full, take_length]
  unfold write writeTxLookupEntries
  rw [write_lookups]

section

variable {blocks : List Block}

theorem insertBranch_cons_ok (res : insertBranch lookupFails bc (block :: blocks) = (next, none)) :
    insertBranch lookupFails ((bc.insert block false).withDb ((bc.insert block false).db.withLookups
            (updates bc.db.lookups (txLookupEntries block)))) blocks =
      (next, none) := by
  unfold insertBranch at res
  dsimp only at res
  cases written :
      writeTxLookupEntriesUntil (lookupFails block.hash) (bc.insert block false) block with
  | mk mid full =>
    rw [written] at res
    cases full with
    | false => cases res
    | true =>
      rw [writeTxLookupEntriesUntil_ok written, insert_lookups] at res
      exact res

theorem insertBranch_complete (full : ∀ hash idx, lookupFails hash idx = false)
    (bc : BlockChain) (blocks : List Block) : (insertBranch lookupFails bc blocks).2 = none := by
  induction blocks generalizing bc with
  | nil => rfl
  | cons block blocks ih =>
    have whole : (writeTxLookupEntriesUntil (lookupFails block.hash)
          (bc.insert block false) block).2 = true := by
      unfold writeTxLookupEntriesUntil
      dsimp only
      rw [takeWhile_eq_self_iff.mpr (by simp [full]), length_range]
      exact decide_eq_true rfl
    unfold insertBranch
    dsimp only
    cases written :
        writeTxLookupEntriesUntil (lookupFails block.hash) (bc.insert block false) block with
    | mk mid success =>
      rw [written] at whole
      subst whole
      exact ih mid

section

variable (res : insertBranch lookupFails bc blocks = (next, none))

include res

theorem insertBranch_canonicalHash :
    next.db.canonicalHash =
      updates bc.db.canonicalHash (blocks.map fun block => (block.number, block.hash)) := by
  induction blocks generalizing bc with
  | nil =>
    cases res
    rfl
  | cons block blocks ih =>
    rw [ih (insertBranch_cons_ok res), map_cons,
      updates_cons, ← insert_canonicalHash bc block false]
    rfl

theorem insertBranch_lookups :
    next.db.lookups = updates bc.db.lookups (blocks.flatMap txLookupEntries) := by
  induction blocks generalizing bc with
  | nil =>
    cases res
    rfl
  | cons block blocks ih =>
    rw [ih (insertBranch_cons_ok res), flatMap_cons]
    exact foldl_append.symm

theorem sameBlocks_insertBranch : SameBlocks bc.db next.db := by
  induction blocks generalizing bc with
  | nil =>
    cases res
    exact SameBlocks.refl _
  | cons block blocks ih =>
    have rest := ih (insertBranch_cons_ok res)
    have first := sameBlocks_insert bc block false
    exact ⟨rest.headers.trans first.headers, rest.bodies.trans first.bodies,
      rest.tds.trans first.tds⟩

end

end

theorem deleteTxLookupEntries_eq (bc : BlockChain) (transactions : List Transaction) :
    bc.deleteTxLookupEntries transactions = bc.withDb (bc.db.withLookups fun hash =>
        if hash ∈ transactions.map Transaction.hash then none
        else bc.db.lookups hash) := by
  unfold deleteTxLookupEntries
  congr 1
  generalize bc.db = db
  induction transactions generalizing db with
  | nil => simp [withLookups]
  | cons tx transactions ih =>
    rw [foldl_cons, ih]
    unfold deleteTxLookupEntry withLookups
    congr 1
    funext hash
    by_cases first : hash = tx.hash
    · subst first
      simp
    · simp [first]

theorem switchBranches_complete (full : ∀ hash idx, lookupFails hash idx = false)
    (lib : TypesLib) (bc : BlockChain) (branches : Branches) :
    (switchBranches lib lookupFails bc branches).2 = none := by
  unfold switchBranches
  cases inserted : insertBranch lookupFails bc branches.newChain with
  | mk switched failure =>
    have whole := insertBranch_complete full bc branches.newChain
    rw [inserted] at whole
    have isNone : failure = none := whole
    subst isNone
    rfl

end BlockChain

end MoacVnode.Core
