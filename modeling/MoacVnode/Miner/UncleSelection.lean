import MoacVnode.Consensus.Ethash.UncleChain

/-!
# Choosing the uncles of a new block

The worker gathers the side blocks it hears of and, for a new block, takes at most two of them whose
parent is one of the last seven ancestors and that are neither ancestors nor uncles of them.
-/

namespace MoacVnode.Miner

open MoacVnode.Core Consensus.Ethash List Engine

inductive UncleError where
  /-- `uncle not unique`. -/
  | notUnique
  /-- `uncle's parent unknown (%x)`. -/
  | parentUnknown (parentHash : Hash)
  /-- `uncle already in family (%x)`. -/
  | inFamily (hash : Hash)
  deriving DecidableEq, Repr

structure Relatives where
  ancestors : Finset Hash := ∅
  family : Finset Hash := ∅
  uncles : Finset Hash := ∅

namespace Relatives

def addAncestor (work : Relatives) (ancestor : FullBlock) : Relatives :=
  { work with
    family := insert ancestor.hash (work.family ∪ (ancestor.uncles.map Header.hash).toFinset)
    ancestors := insert ancestor.hash work.ancestors }

def commitUncle (work : Relatives) (uncle : Header) : Except UncleError Relatives :=
  if uncle.hash ∈ work.uncles then .error .notUnique
  else if uncle.parentHash ∉ work.ancestors then .error (.parentUnknown uncle.parentHash)
  else if uncle.hash ∈ work.family then .error (.inFamily uncle.hash)
  else .ok { work with uncles := insert uncle.hash work.uncles }

end Relatives

variable (getBlock : Hash → Nat → Option FullBlock)

/-- `GetBlocksFromHash`; `getBlockNumber` is the number stored for a hash. -/
def getBlocksFromHash (getBlockNumber : Hash → Nat) (hash : Hash) (count : Nat) : List FullBlock :=
  ancestorsFrom getBlock count hash (getBlockNumber hash)

/-- The sets that `makeCurrent` fills. -/
def makeCurrent (getBlockNumber : Hash → Nat) (parent : FullBlock) : Relatives :=
  (getBlocksFromHash getBlock getBlockNumber parent.hash 7).foldl Relatives.addAncestor {}

/-- The loop of `commitNewWork` over the possible uncles, in the order of the map: the uncles it
takes and the hashes it forgets. -/
def chooseUncles (work : Relatives) (uncles : List Header) (badUncles : List Hash) :
    List FullBlock → List Header × List Hash
  | [] => (uncles, badUncles)
  | uncle :: possibleUncles =>
    if uncles.length = 2 then (uncles, badUncles)
    else
      match work.commitUncle uncle.header with
      | .error _ => chooseUncles work uncles (badUncles ++ [uncle.hash]) possibleUncles
      | .ok next => chooseUncles next (uncles ++ [uncle.header]) badUncles possibleUncles

namespace Relatives

variable {work next : Relatives} {recent : List FullBlock} {hash : Hash} {uncle : Header}

theorem mem_ancestors_foldl :
    hash ∈ (recent.foldl addAncestor work).ancestors ↔
      hash ∈ work.ancestors ∨ ∃ ancestor ∈ recent, ancestor.hash = hash := by
  induction recent generalizing work with
  | nil => simp
  | cons ancestor recent ih =>
    rw [foldl_cons, ih, addAncestor, Finset.mem_insert]
    simp only [mem_cons, or_and_right, exists_or, exists_eq_left]
    rw [or_comm (a := hash = ancestor.hash), or_assoc, eq_comm (a := hash)]

theorem mem_family_foldl :
    hash ∈ (recent.foldl addAncestor work).family ↔
      hash ∈ work.family ∨
        ∃ ancestor ∈ recent, ancestor.hash = hash ∨ ∃ uncle ∈ ancestor.uncles,
          uncle.hash = hash := by
  induction recent generalizing work with
  | nil => simp
  | cons ancestor recent ih =>
    rw [foldl_cons, ih]
    simp only [addAncestor, Finset.mem_insert, Finset.mem_union, mem_toFinset,
      mem_map, mem_cons, or_and_right, exists_or, exists_eq_left]
    constructor
    · rintro ((rfl | inFamily | isUncle) | further)
      · exact .inr (.inl (.inl rfl))
      · exact .inl inFamily
      · exact .inr (.inl (.inr isUncle))
      · exact .inr (.inr further)
    · rintro (inFamily | (isAncestor | isUncle) | further)
      · exact .inl (.inr (.inl inFamily))
      · exact .inl (.inl isAncestor.symm)
      · exact .inl (.inr (.inr isUncle))
      · exact .inr further

theorem uncles_foldl : (recent.foldl addAncestor work).uncles = work.uncles := by
  induction recent generalizing work with
  | nil => rfl
  | cons ancestor recent ih => exact ih

theorem commitUncle_eq_ok :
    work.commitUncle uncle = .ok next ↔
      uncle.hash ∉ work.uncles ∧ uncle.parentHash ∈ work.ancestors ∧
        uncle.hash ∉ work.family ∧
        next = { work with uncles := insert uncle.hash work.uncles } := by
  unfold commitUncle
  rw [Lib.ite_error_eq_ok, Lib.ite_error_eq_ok, Lib.ite_error_eq_ok, not_not]
  simp [eq_comm]

structure Chosen (work : Relatives) (possible : List FullBlock) (uncles : List Header) :
    Prop where
  few : uncles.length ≤ 2
  distinct : (uncles.map Header.hash).Nodup
  each : ∀ uncle ∈ uncles, uncle.hash ∈ work.uncles ∧ uncle.parentHash ∈ work.ancestors ∧
    uncle.hash ∉ work.family ∧ ∃ block ∈ possible, block.header = uncle

theorem Chosen.commitUncle {possible : List FullBlock} {uncles : List Header}
    {block : FullBlock} (chosen : Chosen work possible uncles) (mem : block ∈ possible)
    (room : uncles.length ≠ 2) (committed : work.commitUncle block.header = .ok next) :
    Chosen next possible (uncles ++ [block.header]) := by
  obtain ⟨new, parentKnown, notFamily, rfl⟩ := commitUncle_eq_ok.mp committed
  refine ⟨?_, ?_, ?_⟩
  · have few := chosen.few
    rw [length_append, length_singleton]
    omega
  · rw [map_append, map_singleton]
    refine nodup_append.mpr ⟨chosen.distinct, nodup_singleton _, ?_⟩
    intro hash taken other added hashEq
    obtain ⟨uncle, uncleMem, rfl⟩ := mem_map.mp taken
    have seen := (chosen.each uncle uncleMem).1
    rw [hashEq, mem_singleton.mp added] at seen
    exact new seen
  · refine forall_mem_append.mpr ⟨fun uncle before => ?_, forall_mem_singleton.mpr ?_⟩
    · obtain ⟨seen, kept⟩ := chosen.each uncle before
      exact ⟨Finset.mem_insert_of_mem seen, kept⟩
    · exact ⟨Finset.mem_insert_self _ _, parentKnown, notFamily, block, mem, rfl⟩

end Relatives

theorem chooseUncles_chosen {work : Relatives} {possible rest : List FullBlock}
    {uncles : List Header} (badUncles : List Hash)
    (chosen : work.Chosen possible uncles) (included : ∀ block ∈ rest, block ∈ possible) :
    ∃ last : Relatives, last.ancestors = work.ancestors ∧ last.family = work.family ∧
      last.Chosen possible (chooseUncles work uncles badUncles rest).1 := by
  induction rest generalizing work uncles badUncles with
  | nil => exact ⟨work, rfl, rfl, chosen⟩
  | cons block rest ih =>
    have includedRest : ∀ block ∈ rest, block ∈ possible :=
      fun other mem => included other (mem_cons_of_mem block mem)
    rw [chooseUncles]
    by_cases full : uncles.length = 2
    · rw [if_pos full]
      exact ⟨work, rfl, rfl, chosen⟩
    · rw [if_neg full]
      cases committed : work.commitUncle block.header with
      | error error => exact ih _ chosen includedRest
      | ok next =>
        obtain ⟨last, sameAncestors, sameFamily, chosenLast⟩ := ih badUncles
          (chosen.commitUncle (included block mem_cons_self) full committed)
          includedRest
        obtain ⟨-, -, -, rfl⟩ := Relatives.commitUncle_eq_ok.mp committed
        exact ⟨last, sameAncestors, sameFamily, chosenLast⟩

theorem exists_chosen (work : Relatives) (possible : List FullBlock) :
    ∃ last : Relatives, last.ancestors = work.ancestors ∧ last.family = work.family ∧
      last.Chosen possible (chooseUncles work [] [] possible).1 :=
  chooseUncles_chosen [] ⟨Nat.zero_le _, nodup_nil, forall_mem_nil _⟩ fun _ mem => mem

def ValidatedBlock (engine : Engine) (known : Header → Prop) (block : FullBlock) : Prop :=
  known block.header ∧
    ∃ time parent, time ≤ maxBig256 ∧ known parent ∧ parent.hash = block.parentHash ∧
      engine.verifyHeader block.header parent (.block time) true = .ok ()

theorem subset_chooseUncles {work : Relatives} {uncles : List Header} {badUncles : List Hash}
    {possible : List FullBlock} : uncles ⊆ (chooseUncles work uncles badUncles possible).1 := by
  induction possible generalizing work uncles badUncles with
  | nil => exact Subset.refl _
  | cons block possible ih =>
    rw [chooseUncles]
    split
    · exact Subset.refl _
    · split
      · exact ih
      · exact List.Subset.trans (subset_append_left _ _) ih

/-- The parent is on a chain whose blocks passed `VerifyUncles`, a hash identifies a header, and no
uncle is a child of the block that includes it. -/
structure StoredChain (engine : Engine) (getBlock : Hash → Nat → Option FullBlock)
    (getBlockNumber : Hash → Nat) (known : Header → Prop) (parent : FullBlock) : Prop where
  reads : ReadsChain getBlock parent
  number : getBlockNumber parent.hash = parent.number % uint64Size
  stored : getBlock parent.hash (parent.number % uint64Size) = some parent
  injective : ∀ left right, known left → known right → left.hash = right.hash → left = right
  block : ∀ hash number got, getBlock hash number = some got →
    known got.header ∧ engine.verifyUncles getBlock got = .ok ()
  uncle : ∀ hash number got, getBlock hash number = some got →
    ∀ uncle ∈ got.uncles, known uncle ∧ uncle.parentHash ≠ got.hash

/-- The block that the worker assembles when it goes through the possible uncles in this order. -/
structure Mined (getBlock : Hash → Nat → Option FullBlock) (getBlockNumber : Hash → Nat)
    (known : Header → Prop) (parent : FullBlock) (possibleUncles : List FullBlock)
    (block : FullBlock) : Prop where
  known : known block.header
  onParent : block.parentHash = parent.hash
  numbered : block.number = parent.number + 1
  uncles : block.uncles =
    (chooseUncles (makeCurrent getBlock getBlockNumber parent) [] [] possibleUncles).1

section

variable {engine : Engine} {getBlock : Hash → Nat → Option FullBlock} {getBlockNumber : Hash → Nat}
  {known : Header → Prop} {parent : FullBlock}
  (chain : StoredChain engine getBlock getBlockNumber known parent)

include chain

theorem StoredChain.number_le {ancestor : FullBlock}
    (mem : ancestor ∈ getBlocksFromHash getBlock getBlockNumber parent.hash 7) :
    ancestor.number ≤ parent.number := by
  rw [getBlocksFromHash, ancestorsFrom, chain.number, chain.stored] at mem
  rcases mem_cons.mp mem with rfl | further
  · exact le_refl _
  · have below := (chain.reads.ancestorsFrom_number (.inl rfl) further).2
    omega

/-- A child of the parent is numbered above all ancestors and their uncles. -/
theorem StoredChain.commitUncle_child {child : FullBlock}
    (validated : ValidatedBlock engine known child) (isChild : child.parentHash = parent.hash) :
    ∃ next, (makeCurrent getBlock getBlockNumber parent).commitUncle child.header = .ok next := by
  obtain ⟨childKnown, time, other, -, otherKnown, isParent, verified⟩ := validated
  have sameParent : other = parent.header :=
    chain.injective other parent.header otherKnown (chain.block _ _ _ chain.stored).1
      (isParent.trans isChild)
  have above : child.number = parent.number + 1 := by
    rw [sameParent] at verified
    exact number_of_verifyHeader verified
  refine ⟨_, Relatives.commitUncle_eq_ok.mpr ⟨?_, ?_, ?_, rfl⟩⟩
  · rw [makeCurrent, Relatives.uncles_foldl]
    exact Finset.notMem_empty _
  · refine Relatives.mem_ancestors_foldl.mpr (.inr ⟨parent, ?_, isChild.symm⟩)
    rw [getBlocksFromHash, ancestorsFrom, chain.number, chain.stored]
    exact mem_cons_self
  · rw [makeCurrent, Relatives.mem_family_foldl]
    rintro (impossible | ⟨ancestor, mem, isAncestor | ⟨uncle, uncleMem, isUncle⟩⟩)
    · exact absurd impossible (Finset.notMem_empty _)
    all_goals
      have low := chain.number_le mem
      obtain ⟨hash, number, got⟩ := exists_of_mem_ancestorsFrom mem
      obtain ⟨ancestorKnown, accepted⟩ := chain.block hash number ancestor got
    · have same := chain.injective _ _ ancestorKnown childKnown isAncestor
      unfold Block.number at low above
      rw [same] at low
      omega
    · obtain ⟨uncleKnown, acyclic⟩ := chain.uncle hash number ancestor got uncle uncleMem
      have reads : ReadsChain getBlock ancestor :=
        ⟨chain.reads.hash_eq, fun isRead => chain.reads.numbered
          (.inr (isRead.elim (fun same => ⟨hash, number, same ▸ got⟩) id))⟩
      have below := (reads.uncle_number accepted uncleMem acyclic).1
      rw [chain.injective _ _ uncleKnown childKnown isUncle] at below
      unfold Block.number at low above below
      omega

theorem StoredChain.accepted_iff {possibleUncles : List FullBlock} {block : FullBlock}
    (validated : ∀ uncle ∈ possibleUncles, ValidatedBlock engine known uncle)
    (mined : Mined getBlock getBlockNumber known parent possibleUncles block) :
    engine.verifyUncles getBlock block = .ok () ↔
      ∀ uncle ∈ block.uncles, uncle.parentHash ≠ parent.hash := by
  obtain ⟨blockKnown, onParent, numbered, uncles⟩ := mined
  have recentEq : recentAncestors getBlock block =
      getBlocksFromHash getBlock getBlockNumber parent.hash 7 := by
    have numberEq : prev64 (parent.number + 1) = parent.number % uint64Size := by
      unfold prev64 uint64Size
      omega
    unfold recentAncestors getBlocksFromHash
    rw [onParent, numbered, chain.number, numberEq]
  obtain ⟨last, sameAncestors, sameFamily, chosen⟩ :=
    exists_chosen (makeCurrent getBlock getBlockNumber parent) possibleUncles
  rw [← uncles] at chosen
  constructor
  · intro accepted uncle mem
    rw [← onParent]
    exact ((acceptable_of_verifyUncles accepted).2.2 uncle mem).notSibling
  · intro noSibling
    have recentKnown {ancestor : FullBlock} (mem : ancestor ∈ recentAncestors getBlock block) :
        known ancestor.header := by
      obtain ⟨hash, number, got⟩ := exists_of_mem_ancestorsFrom mem
      exact (chain.block hash number ancestor got).1
    refine verifyUncles_of_acceptable ?_ chosen.few chosen.distinct ?_
    · have allKnown {other : FullBlock} (mem : other ∈ block :: recentAncestors getBlock block) :
          known other.header := by
        rcases mem_cons.mp mem with rfl | inRecent
        · exact blockKnown
        · exact recentKnown inRecent
      intro left leftMem right rightMem hashEq
      exact chain.injective left.header right.header (allKnown leftMem) (allKnown rightMem) hashEq
    · intro uncle mem
      obtain ⟨-, hasAncestor, notFamily, side, sideMem, rfl⟩ := chosen.each uncle mem
      obtain ⟨sideKnown, time, sideParent, inRange, parentKnown, isParent, verified⟩ :=
        validated side sideMem
      rw [sameFamily, makeCurrent, Relatives.mem_family_foldl, ← recentEq, not_or] at notFamily
      rw [sameAncestors, makeCurrent, Relatives.mem_ancestors_foldl, ← recentEq] at hasAncestor
      rcases hasAncestor with impossible | ⟨ancestor, ancestorMem, isAncestor⟩
      · exact absurd impossible (Finset.notMem_empty _)
      refine ⟨?_, ?_, ?_, ?_, ancestor, .inr ancestorMem, isAncestor, ?_⟩
      · -- the new block itself would be a child of its parent
        intro hashEq
        refine noSibling side.header mem ?_
        rw [chain.injective side.header block.header sideKnown blockKnown hashEq]
        exact onParent
      · intro other otherMem hashEq
        exact notFamily.2 ⟨other, otherMem, .inl hashEq.symm⟩
      · intro other otherMem otherUncle otherUncleMem hashEq
        exact notFamily.2 ⟨other, otherMem, .inr ⟨otherUncle, otherUncleMem, hashEq.symm⟩⟩
      · rw [onParent]
        exact noSibling side.header mem
      · rw [chain.injective ancestor.header sideParent (recentKnown ancestorMem) parentKnown
          (isAncestor.trans isParent.symm)]
        exact verifyHeader_uncle verified inRange

end

/-- `VerifyUncles` accepts the block in whatever order the worker goes through the possible uncles
exactly if none of them is a child of the parent that the block is mined on. -/
theorem chosen_uncles_accepted_iff (engine : Engine)
    (getBlock : Hash → Nat → Option FullBlock) (getBlockNumber : Hash → Nat)
    (known : Header → Prop) (parent : FullBlock)
    (chain : StoredChain engine getBlock getBlockNumber known parent)
    (possibleUncles : List FullBlock)
    (validated : ∀ uncle ∈ possibleUncles, ValidatedBlock engine known uncle)
    (mined : List FullBlock → FullBlock) (assembled : ∀ order, order.Perm possibleUncles →
      Mined getBlock getBlockNumber known parent order (mined order)) :
    (∀ order, order.Perm possibleUncles →
        engine.verifyUncles getBlock (mined order) = .ok ()) ↔
      ∀ uncle ∈ possibleUncles, uncle.parentHash ≠ parent.hash := by
  have accepted_iff {order : List FullBlock} (perm : order.Perm possibleUncles) :=
    chain.accepted_iff (fun uncle mem => validated uncle (perm.mem_iff.mp mem))
      (assembled order perm)
  constructor
  · intro accepted child mem isChild
    -- the order that begins with the child, which is then taken
    have perm : (child :: possibleUncles.erase child).Perm possibleUncles :=
      (perm_cons_erase mem).symm
    obtain ⟨next, committed⟩ := chain.commitUncle_child (validated child mem) isChild
    refine (accepted_iff perm).mp (accepted _ perm) child.header ?_ isChild
    rw [(assembled _ perm).uncles, chooseUncles, if_neg (by simp), committed]
    exact subset_chooseUncles (mem_singleton.mpr rfl)
  · intro noChild order perm
    refine (accepted_iff perm).mpr fun uncle mem => ?_
    rw [(assembled order perm).uncles] at mem
    obtain ⟨last, -, -, chosen⟩ := exists_chosen (makeCurrent getBlock getBlockNumber parent) order
    obtain ⟨-, -, -, block, blockMem, rfl⟩ := chosen.each uncle mem
    exact noChild block (perm.mem_iff.mp blockMem)

private def mainChain : List FullBlock :=
  [{ header := easyHeader 2 1 1 }, { header := easyHeader 1 0 0 }]

/-- A child of the head block is taken as an uncle of the next block on it. -/
theorem sibling_chosen_and_refused :
    unsealed.verifyHeader (easyHeader 13 2 2) (easyHeader 2 1 1) (.block 10) true = .ok () ∧
      (chooseUncles
        (makeCurrent (chainReader mainChain) (fun _ => 1) { header := easyHeader 2 1 1 })
        [] [] [{ header := easyHeader 13 2 2 }]).1 = [easyHeader 13 2 2] ∧
      unsealed.verifyUncles (chainReader mainChain)
        { header := easyHeader 3 2 2, uncles := [easyHeader 13 2 2] } = .error .danglingUncle := by
  decide +kernel

private def knownHeaders : List Header :=
  [easyHeader 1 0 0, easyHeader 2 1 1, easyHeader 12 1 1, easyHeader 3 2 2]

/-- A sibling of the head block is accepted. -/
theorem chosen_uncle_accepted_fork :
    unsealed.verifyUncles (chainReader mainChain)
      { header := easyHeader 3 2 2, uncles := [easyHeader 12 1 1] } = .ok () := by
  have distinct : ∀ left ∈ knownHeaders, ∀ right ∈ knownHeaders,
      left.hash = right.hash → left = right := by
    decide
  have stored : ∀ block ∈ mainChain, block.header ∈ knownHeaders ∧
      unsealed.verifyUncles (chainReader mainChain) block = .ok () ∧ block.uncles = [] := by
    decide +kernel
  have numbered : ∀ child ∈ mainChain, ∀ parent ∈ mainChain,
      parent.hash = child.parentHash → child.number = parent.number + 1 := by
    decide
  refine (chosen_uncles_accepted_iff .unsealed (chainReader mainChain) (fun _ => 1)
    (· ∈ knownHeaders) { header := easyHeader 2 1 1 } ?_ [{ header := easyHeader 12 1 1 }] ?_
    (fun _ => { header := easyHeader 3 2 2, uncles := [easyHeader 12 1 1] }) ?_).mpr (by decide)
    [{ header := easyHeader 12 1 1 }] (.refl _)
  · have read {hash : Hash} {number : Nat} {got : FullBlock}
        (isFound : chainReader mainChain hash number = some got) :
        got ∈ mainChain ∧ got.hash = hash := by
      have matching := List.find?_some isFound
      simp only [decide_eq_true_eq] at matching
      exact ⟨mem_of_find?_eq_some isFound, matching.1⟩
    refine ⟨⟨fun isFound => (read isFound).2, fun isRead isFound => ?_⟩, rfl, rfl,
      fun left right leftMem rightMem => distinct left leftMem right rightMem, ?_, ?_⟩
    · refine numbered _ ?_ _ (read isFound).1 (read isFound).2
      rcases isRead with rfl | ⟨hash, number, isChild⟩
      · decide
      · exact (read isChild).1
    · intro hash number got isFound
      have valid := stored got (read isFound).1
      exact ⟨valid.1, valid.2.1⟩
    · intro hash number got isFound uncle mem
      rw [(stored got (read isFound).1).2.2] at mem
      cases mem
  · intro uncle mem
    rw [mem_singleton.mp mem]
    exact ⟨by decide, 10, easyHeader 1 0 0, by decide, by decide, rfl, by decide +kernel⟩
  · intro order perm
    rw [perm_singleton.mp perm]
    exact ⟨by decide, rfl, rfl, by decide +kernel⟩

end MoacVnode.Miner
