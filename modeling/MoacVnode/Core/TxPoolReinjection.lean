import MoacVnode.Core.TxLookupIndex
import MoacVnode.Core.TxPoolOps

/-!
# Transactions of a branch that gives way

`reset` walks back from the old and the new head to their last common block.
-/

namespace MoacVnode.Core.TxPool

open Lib BlockChain Nat HashTree

variable {lib : StateLib} {env : PoolEnv} {view : PoolView lib} {tree : BlockTree}

/-- The branches of two blocks above their last common block. -/
structure Branches (tree : BlockTree) (old new common : Block) (removed added : List Block) :
    Prop where
  oldBranch : tree.Segment old removed common
  newBranch : tree.Segment new added common
  last : ∀ {block}, tree.Ancestor block old → tree.Ancestor block new → tree.Ancestor block common

def Holds (view : PoolView lib) (tree : BlockTree) : Prop :=
  ∀ {block}, tree.mem block → view.getBlock block.hash block.number = some block

theorem Holds.getBlock_parent (holds : Holds view tree) {parent block : Block}
    (link : tree.Parent parent block) :
    view.getBlock block.parentHash (prev64 block.number) = some parent := by
  have hashEq : block.parentHash = parent.hash := link.2.2
  rw [BlockTree.prev64_of_parent link, hashEq, holds link.1]

theorem mem_of_rooted {block : Block}
    (rooted : tree.Ancestor tree.root block) : tree.mem block := by
  rcases Relation.ReflTransGen.cases_tail rooted with rfl | ⟨_, -, link⟩
  · exact tree.root_mem
  · exact link.2.1

theorem walkDown_eq (holds : Holds view tree) {num fuel : Nat} {block : Block}
    {txs : List Transaction} (rooted : tree.Ancestor tree.root block)
    (enough : block.number < fuel) :
    ∃ low blocks,
      walkDown view num fuel block txs = .ok (some (low, txs ++ blockTransactions blocks)) ∧
      tree.Segment block blocks low ∧ tree.Ancestor tree.root low ∧
        low.number = min num block.number := by
  induction fuel generalizing block txs with
  | zero => omega
  | succ fuel ih =>
    rw [walkDown]
    by_cases ran : block.number ≤ num
    · rw [if_pos ran]
      exact ⟨block, [], by simp [blockTransactions], .nil block, rooted, by omega⟩
    · obtain ⟨parent, link, parentRooted⟩ := rooted.exists_parent (by
        change 0 < block.number
        omega)
      have numEq : block.number = parent.number + 1 := number_of_parent link
      obtain ⟨low, blocks, walked, segment, lowRooted, lowNumber⟩ :=
        @ih parent (txs ++ block.transactions) parentRooted (by omega)
      rw [if_neg ran, holds.getBlock_parent link]
      refine ⟨low, block :: blocks, ?_, .cons link segment, lowRooted, by omega⟩
      simpa [blockTransactions] using walked

theorem walkTogether_eq (holds : Holds view tree) {fuel : Nat} {rem add : Block}
    {discarded included : List Transaction} (remRooted : tree.Ancestor tree.root rem)
    (addRooted : tree.Ancestor tree.root add) (level : rem.number = add.number)
    (enough : rem.number < fuel) :
    ∃ common removed added,
      walkTogether view fuel rem discarded add included =
        .ok (some (discarded ++ blockTransactions removed, included ++ blockTransactions added)) ∧
      Branches tree rem add common removed added := by
  induction fuel generalizing rem add discarded included with
  | zero => omega
  | succ fuel ih =>
    rw [walkTogether]
    by_cases same : rem.hash = add.hash
    · obtain rfl : rem = add :=
        tree.hash_injective (mem_of_rooted remRooted) (mem_of_rooted addRooted) same
      exact ⟨rem, [], [], by simp [blockTransactions], .nil rem, .nil rem, fun path _ => path⟩
    · have positive : 0 < rem.number := by
        by_contra zero
        have remRoot := remRooted.eq_of_number_le (by change rem.number ≤ _; omega)
        have addRoot := addRooted.eq_of_number_le (by change add.number ≤ _; omega)
        exact same (by rw [← remRoot, ← addRoot])
      obtain ⟨remParent, remLink, remParentRooted⟩ := remRooted.exists_parent positive
      obtain ⟨addParent, addLink, addParentRooted⟩ := addRooted.exists_parent (by
        change 0 < add.number
        omega)
      have remNumber : rem.number = remParent.number + 1 := number_of_parent remLink
      have addNumber : add.number = addParent.number + 1 := number_of_parent addLink
      obtain ⟨common, removed, added, walked, branches⟩ := @ih remParent addParent
        (discarded ++ rem.transactions) (included ++ add.transactions) remParentRooted
        addParentRooted (by omega) (by omega)
      rw [if_neg same, holds.getBlock_parent remLink, holds.getBlock_parent addLink]
      refine ⟨common, rem :: removed, add :: added, by simpa [blockTransactions] using walked,
        .cons remLink branches.oldBranch, .cons addLink branches.newBranch,
        fun {block} toRem toAdd => ?_⟩
      -- a block of both branches is below both ends, which are different and of one number
      rcases (ancestor_iff_of_parent remLink).mp toRem with rfl | belowRem
      · exact absurd (congrArg Block.hash (toAdd.eq_of_number_le (le_of_eq level.symm))) same
      rcases (ancestor_iff_of_parent addLink).mp toAdd with rfl | belowAdd
      · exact absurd (congrArg Block.hash (toRem.eq_of_number_le (le_of_eq level)).symm) same
      exact branches.last belowRem belowAdd

theorem branchTransactions_eq (holds : Holds view tree) {old new : Block}
    (oldRooted : tree.Ancestor tree.root old) (newRooted : tree.Ancestor tree.root new) :
    ∃ common removed added, Branches tree old new common removed added ∧
      branchTransactions view old.header new.header =
        .ok (some (blockTransactions removed, blockTransactions added)) := by
  have oldBound := tree.number_bound (mem_of_rooted oldRooted)
  have newBound := tree.number_bound (mem_of_rooted newRooted)
  obtain ⟨oldLow, oldUpper, oldWalked, oldSegment, oldLowRooted, oldNumber⟩ :=
    @walkDown_eq _ _ _ holds new.number loopFuel old [] oldRooted (by unfold loopFuel; omega)
  obtain ⟨newLow, newUpper, newWalked, newSegment, newLowRooted, newNumber⟩ :=
    @walkDown_eq _ _ _ holds oldLow.number loopFuel new [] newRooted (by unfold loopFuel; omega)
  obtain ⟨common, removed, added, together, branches⟩ := @walkTogether_eq _ _ _ holds loopFuel
    oldLow newLow (blockTransactions oldUpper) (blockTransactions newUpper) oldLowRooted
    newLowRooted (by omega) (by unfold loopFuel; omega)
  refine ⟨common, oldUpper ++ removed, newUpper ++ added, ⟨oldSegment.append branches.oldBranch,
    newSegment.append branches.newBranch, fun {block} toOld toNew => ?_⟩, ?_⟩
  · have oldLe : block.number ≤ old.number := toOld.number_le
    have newLe : block.number ≤ new.number := toNew.number_le
    refine branches.last (toOld.ancestor_of_number_le oldSegment.ancestor ?_)
      (toNew.ancestor_of_number_le newSegment.ancestor ?_)
    · change block.number ≤ oldLow.number
      omega
    · change block.number ≤ newLow.number
      omega
  · unfold branchTransactions
    rw [holds (mem_of_rooted oldRooted), holds (mem_of_rooted newRooted)]
    simpa [oldWalked, newWalked, blockTransactions] using together

/-- `reset` puts back exactly what is only on the branch that gives way, for any two heads at most
64 apart; heads below `2 ^ 53` are compared without rounding. -/
theorem reinjection_exact (holds : Holds view tree) {old new : Block}
    (oldRooted : tree.Ancestor tree.root old) (newRooted : tree.Ancestor tree.root new)
    (oldBelow : old.number < 2 ^ 53) (newBelow : new.number < 2 ^ 53)
    (near : ((old.number : Int) - new.number).natAbs ≤ 64) :
    ∃ common removed added, Branches tree old new common removed added ∧
      reinjected env view (some old.header) (some new.header) =
        .ok (some (env.types.txDifference (blockTransactions removed)
          (blockTransactions added))) := by
  obtain ⟨common, removed, added, branches, walked⟩ :=
    branchTransactions_eq holds oldRooted newRooted
  refine ⟨common, removed, added, branches, ?_⟩
  unfold reinjected
  dsimp only
  by_cases child : old.header.hash = new.header.parentHash
  · -- the old head is the last common block
    have isParent : tree.Parent old new :=
      ⟨mem_of_rooted oldRooted, mem_of_rooted newRooted, child.symm⟩
    have below := (branches.last (ancestor_self old) (.of_parent isParent)).number_le
    have nothing : removed = [] := by
      refine List.eq_nil_iff_forall_not_mem.mpr fun block mem => ?_
      obtain ⟨path, above⟩ := branches.oldBranch.mem_iff.mp mem
      exact absurd (above.trans_le path.number_le) (not_lt.mpr below)
    rw [if_pos child]
    refine congrArg (fun txs => Except.ok (some txs)) (List.eq_nil_iff_forall_not_mem.mpr ?_).symm
    intro tx mem
    have isRemoved := (env.types.mem_txDifference.mp mem).1
    rw [nothing] at isRemoved
    cases isRemoved
  · rw [if_neg child, if_neg, walked]
    rw [float64, float64, roundToBits_of_lt oldBelow, roundToBits_of_lt newBelow]
    exact not_lt.mpr near

private def forkView : PoolView .plain :=
  { genesisView with
    getBlock := fun hash num => [lookupGenesis, lookupOld, lookupNew].find? fun block =>
      block.hash = hash ∧ block.number = num }

/-- One of the two transactions of the old head is also in the new one. -/
theorem fork_reinjected :
    ∃ common removed added,
      Branches lookupTree lookupOld lookupNew common removed added ∧
      reinjected .plain forkView (some lookupOld.header) (some lookupNew.header) =
        .ok (some (TypesLib.byHash.txDifference (blockTransactions removed)
          (blockTransactions added))) := by
  have linked (block : Block) (mem : block ∈ [lookupOld, lookupNew]) :
      lookupTree.Ancestor lookupGenesis block := by
    refine .of_parent ⟨by decide, List.mem_cons_of_mem _ mem, ?_⟩
    revert block
    decide
  exact @reinjection_exact _ .plain forkView lookupTree (fun {block} mem => by
    change block ∈ [lookupGenesis, lookupOld, lookupNew] at mem
    revert block
    decide) _ _ (linked lookupOld (by decide)) (linked lookupNew (by decide)) (by decide)
    (by decide) (by decide)

end MoacVnode.Core.TxPool
