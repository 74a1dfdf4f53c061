import MoacVnode.Core.BlockWrite
import MoacVnode.Lib.Run

/-!
# What a failed block write leaves behind

`WriteBlockAndState` writes the total difficulty and the reorganised index directly and the block
through a batch.
-/

namespace MoacVnode.Core

open Lib List

namespace BlockChain

variable {num : Nat} {branches : Branches} {lookupFails : Hash → Nat → Bool}

structure SameView (before after : BlockChain) : Prop where
  currentBlock : after.currentBlock = before.currentBlock
  currentFastBlock : after.currentFastBlock = before.currentFastBlock
  currentHeader : after.hc.currentHeader = before.hc.currentHeader
  headBlockHash : after.db.getHeadBlockHash = before.db.getHeadBlockHash
  headFastBlockHash : after.db.getHeadFastBlockHash = before.db.getHeadFastBlockHash
  headHeaderHash : after.db.getHeadHeaderHash = before.db.getHeadHeaderHash
  canonicalHash : ∀ num, after.db.getCanonicalHash num = before.db.getCanonicalHash num
  blocks : ∀ hash num, after.db.getBlock hash num = before.db.getBlock hash num
  tds : ∀ hash num, after.db.getTd hash num = before.db.getTd hash num

/-- Numbers are `uint64` values, and none is the one that stands for a missing
number. -/
structure NumbersFit (bc : BlockChain) (block : Block) : Prop where
  current : bc.currentBlock.number < uint64Size
  new : block.number < uint64Size
  stored : ∀ hash, bc.db.getBlock hash ChainDb.missingNumber = none

variable {lib : TypesLib} {bc next : BlockChain} {req : BlockWrite}
  {block : Block} {db : ChainDb} {fuel : Nat}

private theorem number_lt_of_getBlock
    (missing : ∀ hash, db.getBlock hash ChainDb.missingNumber = none)
    {child parent : Block} (bound : child.number < uint64Size)
    (got : db.getBlock child.parentHash (prev64 child.number) = some parent) :
    parent.number < child.number := by
  have numEq := ChainDb.number_of_getBlock got
  rcases Nat.eq_zero_or_pos child.number with zero | positive
  · rw [zero, show prev64 0 = ChainDb.missingNumber from rfl, missing] at got
    cases got
  · unfold prev64 uint64Size at *
    omega

private theorem reduceTo_number_ne {last : Option Block} :
    ∀ (fuel : Nat) {top : Option Block} {chain nodes : List Block},
      reduceTo db num fuel top chain = .ok (last, nodes) →
      (∀ node ∈ chain, node.number ≠ num) →
        (∀ node ∈ nodes, node.number ≠ num) ∧ ∀ block, last = some block → block.number = num
  | 0, _, _, _, res, _ => by
    cases res
  | _ + 1, none, chain, _, res, collected => by
    cases res
    exact ⟨collected, fun block impossible => by cases impossible⟩
  | fuel + 1, some top, chain, nodes, res, collected => by
    rw [reduceTo] at res
    split at res
    · rename_i ne
      apply reduceTo_number_ne fuel res
      intro node nodeMem
      rcases mem_append.mp nodeMem with before | isTop
      · exact collected node before
      · rw [mem_singleton.mp isTop]
        exact ne
    · rename_i arrived
      cases res
      refine ⟨collected, fun block isTop => ?_⟩
      rw [← Option.some.inj isTop]
      exact Classical.not_not.mp arrived

private theorem findCommon_ne (missing : ∀ hash, db.getBlock hash ChainDb.missingNumber = none)
    {current : Block} :
    ∀ (fuel : Nat) {oldBlock newBlock : Block} {branches got : Branches},
      findCommon db fuel oldBlock newBlock branches = .ok (.ok got) →
      newBlock.number < uint64Size →
      ((oldBlock = current ∧ newBlock.number = current.number) ∨ newBlock.number < current.number) →
      current ∉ branches.newChain → current ∉ got.newChain
  | 0, _, _, _, _, res, _, _, _ => by
    cases res
  | fuel + 1, oldBlock, newBlock, branches, got, res, bound, level,
      collected => by
      rw [findCommon] at res
      split at res
      · cases res
        exact collected
      · rename_i hashesDiffer
        split at res
        · cases res
        · cases res
        · rename_i newFound
          have lower := number_lt_of_getBlock missing bound newFound
          refine findCommon_ne missing fuel res (Nat.lt_trans lower bound) (.inr ?_) ?_
          · rcases level with ⟨_, same⟩ | below
            · omega
            · omega
          · intro currentMem
            rcases mem_append.mp currentMem with before | isNew
            · exact collected before
            · have isNew := mem_singleton.mp isNew
              rcases level with ⟨isOld, _⟩ | below
              · exact hashesDiffer (by rw [isOld, isNew])
              · rw [isNew] at below
                exact Nat.lt_irrefl _ below

private theorem current_not_mem_newChain (fits : NumbersFit bc block)
    (walked : findBranches bc.db fuel bc.currentBlock block = .ok (.ok branches)) :
    bc.currentBlock ∉ branches.newChain := by
  unfold findBranches at walked
  split at walked
  · rename_i below
    split at walked
    · cases walked
    · cases walked
    · exact findCommon_ne fits.stored fuel walked fits.new (.inr below) not_mem_nil
  · split at walked
    · cases walked
    · cases walked
    · rename_i reduced newChain res
      obtain ⟨ne, arrives⟩ := reduceTo_number_ne fuel res (fun _ impossible => by cases impossible)
      have level := arrives reduced rfl
      refine findCommon_ne fits.stored fuel walked ?_ (.inl ⟨rfl, level⟩) ?_
      · rw [level]
        exact fits.current
      · intro currentMem
        exact ne _ currentMem rfl

private theorem insertBranch_currentBlock (lookupFails : Hash → Nat → Bool)
    (bc : BlockChain) (blocks : List Block) :
    (blocks = [] ∧ (insertBranch lookupFails bc blocks).1 = bc) ∨
      (insertBranch lookupFails bc blocks).1.currentBlock ∈ blocks := by
  induction blocks generalizing bc with
  | nil => exact .inl ⟨rfl, rfl⟩
  | cons block blocks ih =>
    right
    unfold insertBranch
    dsimp only
    have inserted : (writeTxLookupEntriesUntil (lookupFails block.hash)
          (bc.insert block false) block).1.currentBlock = block :=
      insert_currentBlock bc block false
    split
    · rename_i mid written
      rw [written] at inserted
      rw [inserted]
      exact mem_cons_self
    · rename_i mid written
      rw [written] at inserted
      rcases ih mid with ⟨_, kept⟩ | later
      · rw [kept, inserted]
        exact mem_cons_self
      · exact mem_cons_of_mem _ later

private theorem switchBranches_currentBlock (adds : branches.newChain ≠ []) :
    (switchBranches lib lookupFails bc branches).1.currentBlock ∈ branches.newChain := by
  have inserted :=
    (insertBranch_currentBlock lookupFails bc branches.newChain).resolve_left
      fun empty => adds empty.1
  unfold switchBranches
  cases switched : insertBranch lookupFails bc branches.newChain with
  | mk mid failure =>
    rw [switched] at inserted
    cases failure with
    | none | some error => exact inserted

private theorem failed_write_cases (fits : NumbersFit bc req.block) {error : WriteBlockError}
    {ptd : Nat} (parentTd : bc.db.getTd req.block.parentHash (prev64 req.block.number) = some ptd)
    (tdWritten : req.tdFails = false)
    (res : bc.writeBlockAndState lib req = .ok (next, .error error)) :
    (reinserted bc req = [] ∧
      ∃ lookups,
        next =
          (bc.withTd req.block (req.block.difficulty + ptd)).withDb
            ((bc.withTd req.block (req.block.difficulty + ptd)).db.withLookups lookups)) ∨
    (reinserted bc req ≠ [] ∧ next.currentBlock ≠ bc.currentBlock) := by
  rcases writeBlockAndState_error res with ⟨noParent | tdFails, _⟩ | ⟨other, otherTd, _, effect⟩
  · rw [noParent] at parentTd
    cases parentTd
  · rw [tdWritten] at tdFails
    cases tdFails
  rw [parentTd] at otherTd
  cases otherTd
  rcases effect with ⟨isNext, none⟩ | ⟨branches, walked, isNew, late⟩
  · exact .inl ⟨none, _, isNext⟩
  · rw [isNew, late.leaves]
    by_cases adds : branches.newChain = []
    · exact .inl ⟨adds, switchBranches_of_nil adds _⟩
    · refine .inr ⟨adds, ?_⟩
      intro unmoved
      apply current_not_mem_newChain fits walked
      rw [← unmoved]
      exact switchBranches_currentBlock adds

/-- A failed call shows nowhere exactly if it failed before it wrote the total difficulty, or that
was there already and no block had been re-inserted. -/
theorem failed_write_invisible_iff (lib : TypesLib) (bc next : BlockChain) (req : BlockWrite)
    (fits : NumbersFit bc req.block) (error : WriteBlockError)
    (failed : bc.writeBlockAndState lib req = .ok (next, .error error)) :
    SameView bc next ↔
      bc.db.getTd req.block.parentHash (prev64 req.block.number) = none ∨
      req.tdFails = true ∨
      ∃ ptd,
        bc.db.getTd req.block.parentHash (prev64 req.block.number) = some ptd ∧
        bc.db.getTd req.block.hash req.block.number = some (req.block.difficulty + ptd) ∧
        reinserted bc req = [] := by
  constructor
  · intro view
    rcases writeBlockAndState_error failed with ⟨early | early, _⟩ | ⟨ptd, parentTd, tdWritten, _⟩
    · exact .inl early
    · exact .inr (.inl early)
    · refine .inr (.inr ⟨ptd, parentTd, ?_⟩)
      rcases failed_write_cases fits parentTd tdWritten failed with
        ⟨none, lookups, isNext⟩ | ⟨_, moved⟩
      · refine ⟨?_, none⟩
        rw [← view.tds, isNext]
        exact Function.update_self _ _ _
      · exact False.elim (moved view.currentBlock)
  · intro holds
    rcases writeBlockAndState_error failed with ⟨_, kept⟩ | ⟨ptd, parentTd, tdWritten, _⟩
    · rw [kept]
      exact ⟨rfl, rfl, rfl, rfl, rfl, rfl, fun _ => rfl, fun _ _ => rfl, fun _ _ => rfl⟩
    rcases holds with noParent | tdFails | ⟨other, otherTd, present, none⟩
    · rw [noParent] at parentTd
      cases parentTd
    · rw [tdWritten] at tdFails
      cases tdFails
    · rw [parentTd] at otherTd
      cases otherTd
      rcases failed_write_cases fits parentTd tdWritten failed with ⟨_, lookups, isNext⟩ | ⟨some, _⟩
      · rw [isNext]
        refine ⟨rfl, rfl, rfl, rfl, rfl, rfl, fun _ => rfl, fun _ _ => rfl, fun hash num => ?_⟩
        exact congrFun (Function.update_eq_self_iff.mpr present.symm) (num, hash)
      · exact False.elim (some none)

section

def failGenesis : Block := { header := { hash := 1, parentHash := emptyHash, difficulty := 1 } }

def failBlock : Block :=
  { header := { hash := 2, parentHash := 1, root := 7, difficulty := 2, number := 1 } }

def failWrite : BlockWrite := { block := failBlock, commitRoot := some 8 }

/-- The rejected block has a total difficulty it did not have before. -/
theorem failed_write_leaves_td :
    (atGenesis failGenesis 1).db.getTd failBlock.hash failBlock.number = none ∧
      ∃ outcome,
        (atGenesis failGenesis 1).writeBlockAndState TypesLib.byHash failWrite = .ok outcome ∧
        outcome.2 = .error (.stateCommitDiff failBlock.number (some 8) failBlock.hash) ∧
        outcome.1.db.getTd failBlock.hash failBlock.number = some 3 := by
  decide +kernel

/-- The same rejected write once more leaves no further trace. -/
theorem failed_write_invisible_again :
    ∃ next error,
      ((atGenesis failGenesis 1).withTd failBlock 3).writeBlockAndState
          TypesLib.byHash failWrite = .ok (next, .error error) ∧
        error = .stateCommitDiff failBlock.number (some 8) failBlock.hash ∧
        SameView ((atGenesis failGenesis 1).withTd failBlock 3) next := by
  refine ⟨_, _, rfl, rfl, ?_⟩
  refine (failed_write_invisible_iff TypesLib.byHash _ _ failWrite ?_ _ rfl).mpr
    (.inr (.inr ⟨1, by decide +kernel, by decide +kernel, by decide +kernel⟩))
  refine ⟨by decide, by decide, ?_⟩
  intro hash
  change (atGenesis failGenesis 1).db.getBlock hash ChainDb.missingNumber = none
  unfold ChainDb.getBlock
  rw [atGenesis_getHeader, if_neg]
  · rfl
  · intro sameKey
    exact absurd (Prod.mk.inj sameKey).1 (by decide)

end

end BlockChain

end MoacVnode.Core
