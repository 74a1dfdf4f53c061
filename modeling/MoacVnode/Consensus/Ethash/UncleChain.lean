import MoacVnode.Consensus.Ethash.Uncles

/-!
# Uncles along a chain

Each block is checked against its last seven ancestors only.  An uncle is numbered above its parent,
which is one of these ancestors, and below the block that includes it.
-/

namespace MoacVnode.Consensus.Ethash

open MoacVnode.Core Lib List

variable {block : FullBlock} {blocks front : List FullBlock} {engine : Engine} {uncle : Header}

def chainReader (blocks : List FullBlock) (hash : Hash) (num : Nat) : Option FullBlock :=
  blocks.find? fun block => block.hash = hash ∧ block.number % uint64Size = num

/-- Every block is a child of the one after it, down to a block with number zero. -/
def Linked : List FullBlock → Prop
  | [] => True
  | [genesis] => genesis.number = 0
  | block :: parent :: rest => block.parentHash = parent.hash ∧ Linked (parent :: rest)

def headersOf (blocks : List FullBlock) : List Header :=
  blocks.map (fun block => block.header) ++ blocks.flatMap FullBlock.uncles

/-- A chain from the genesis block in which a hash identifies a header, a child is numbered above
its parent and no uncle is a child of the block that includes it. -/
structure GenesisChain (blocks : List FullBlock) : Prop where
  linked : Linked blocks
  injective :
    ∀ left ∈ headersOf blocks, ∀ right ∈ headersOf blocks, left.hash = right.hash → left = right
  numbered :
    ∀ parent ∈ blocks, ∀ child ∈ blocks, child.parentHash = parent.hash →
      child.number = parent.number + 1
  acyclic : ∀ block ∈ blocks, ∀ uncle ∈ block.uncles, uncle.parentHash ≠ block.hash

/-- Every block passes `VerifyUncles` against its own ancestors. -/
def Verified (engine : Engine) : List FullBlock → Prop
  | [] => True
  | block :: rest => engine.verifyUncles (chainReader rest) block = .ok () ∧ Verified engine rest

namespace GenesisChain

variable {rest : List FullBlock} {other : FullBlock}

theorem tail (chain : GenesisChain (block :: rest)) : GenesisChain rest where
  linked := by
    cases rest with
    | nil => trivial
    | cons parent rest => exact chain.linked.2
  injective := by
    have included {header : Header} (mem : header ∈ headersOf rest) :
        header ∈ headersOf (block :: rest) := by
      rcases mem_append.mp mem with ofBlock | ofUncle
      · exact mem_append_left _ (mem_cons_of_mem _ ofBlock)
      · refine mem_append_right _ ?_
        exact mem_append_right _ ofUncle
    intro left leftMem right rightMem
    exact chain.injective left (included leftMem) right (included rightMem)
  numbered := fun parent parentMem child childMem =>
    chain.numbered parent (mem_cons_of_mem _ parentMem) child (mem_cons_of_mem _ childMem)
  acyclic := fun other mem => chain.acyclic other (mem_cons_of_mem _ mem)

theorem number_eq (chain : GenesisChain (block :: rest)) : block.number = rest.length := by
  induction rest generalizing block with
  | nil => exact chain.linked
  | cons parent rest ih =>
    rw [chain.numbered parent (mem_cons_of_mem _ mem_cons_self) block
      mem_cons_self chain.linked.1, ih chain.tail]
    rfl

theorem below (chain : GenesisChain (front ++ blocks)) : GenesisChain blocks := by
  induction front with
  | nil => exact chain
  | cons first front ih => exact ih chain.tail

theorem number_lt (chain : GenesisChain (block :: rest)) (mem : other ∈ rest) :
    other.number < block.number := by
  obtain ⟨front, back, split⟩ := append_of_mem mem
  rw [chain.number_eq]
  subst split
  rw [chain.tail.below.number_eq, length_append, length_cons]
  omega

theorem hash_ne (chain : GenesisChain (block :: rest)) (mem : other ∈ rest) :
    other.hash ≠ block.hash := by
  intro hashEq
  have sameHeader : other.header = block.header :=
    chain.injective other.header
      (mem_append_left _ (mem_map.mpr ⟨other, mem_cons_of_mem _ mem, rfl⟩))
      block.header (mem_append_left _ mem_cons_self) hashEq
  have below := chain.number_lt mem
  unfold Block.number at below
  rw [sameHeader] at below
  exact lt_irrefl _ below

theorem chainReader_eq (chain : GenesisChain blocks) (mem : block ∈ blocks) :
    chainReader blocks block.hash (block.number % uint64Size) = some block := by
  induction blocks with
  | nil => cases mem
  | cons first rest ih =>
    unfold chainReader
    rcases mem_cons.mp mem with rfl | inRest
    · simp
    · rw [List.find?_cons_of_neg]
      · exact ih chain.tail inRest
      · simp [(chain.hash_ne inRest).symm]

theorem chainReader_genesis {genesis : FullBlock} (num : Nat)
    (chain : GenesisChain (block :: rest)) (mem : genesis ∈ block :: rest)
    (atZero : genesis.number = 0) : chainReader rest genesis.parentHash num = none := by
  refine List.find?_eq_none.mpr fun parent parentMem => ?_
  rw [decide_eq_true_eq, not_and]
  intro isParent
  have above := chain.numbered parent (mem_cons_of_mem _ parentMem) genesis mem isParent.symm
  omega

section

variable (chain : GenesisChain (block :: rest))

include chain

theorem ancestorsFrom_eq (count : Nat) {tail : List FullBlock} {child : FullBlock}
    (split : block :: rest = front ++ child :: tail) :
    ancestorsFrom (chainReader rest) count child.parentHash (prev64 child.number) =
      tail.take count := by
  induction count generalizing front tail child with
  | zero => rfl
  | succ count ih =>
    have lower : GenesisChain (child :: tail) := by
      rw [split] at chain
      exact chain.below
    have childMem : child ∈ block :: rest := by
      rw [split]
      exact mem_append_right _ mem_cons_self
    rw [ancestorsFrom]
    cases tail with
    | nil =>
      rw [chain.chainReader_genesis _ childMem lower.number_eq]
      rfl
    | cons parent tail =>
      have isParent : child.parentHash = parent.hash := lower.linked.1
      have above : child.number = parent.number + 1 :=
        lower.numbered parent (mem_cons_of_mem _ mem_cons_self) child mem_cons_self isParent
      have parentMem : parent ∈ rest := by
        cases front with
        | nil =>
          cases split
          exact mem_cons_self
        | cons first front =>
          cases split
          exact mem_append_right _ (mem_cons_of_mem _ mem_cons_self)
      have truncated : prev64 child.number = parent.number % uint64Size := by
        unfold prev64 uint64Size
        omega
      have truncatedAgain : prev64 (parent.number % uint64Size) = prev64 parent.number := by
        unfold prev64
        rw [Nat.mod_add_mod]
      have nextSplit : block :: rest = (front ++ [child]) ++ parent :: tail := by
        rw [split, append_assoc]
        rfl
      rw [isParent, truncated, chain.tail.chainReader_eq parentMem]
      dsimp only
      rw [truncatedAgain, ih nextSplit]
      rfl

theorem recentAncestors_eq : Engine.recentAncestors (chainReader rest) block = rest.take 7 :=
  chain.ancestorsFrom_eq 7 (show block :: rest = [] ++ block :: rest from rfl)

theorem mem_take {count : Nat} (mem : other ∈ rest)
    (close : block.number ≤ other.number + count) : other ∈ rest.take count := by
  obtain ⟨front, back, split⟩ := append_of_mem mem
  have numberEq := chain.number_eq
  have tail := chain.tail
  rw [split] at tail numberEq ⊢
  rw [numberEq, tail.below.number_eq, length_append, length_cons] at close
  rw [take_append]
  refine mem_append_right _ ?_
  rw [show count - front.length = (count - front.length - 1) + 1 by omega, take_succ_cons]
  exact mem_cons_self

theorem readsChain :
    ReadsChain (chainReader rest) block where
  hash_eq := by
    intro hash num got isFound
    have matching := List.find?_some isFound
    simp only [decide_eq_true_eq] at matching
    exact matching.1
  numbered := by
    intro child parent num isRead isFound
    have matching := List.find?_some isFound
    simp only [decide_eq_true_eq] at matching
    refine chain.numbered parent (mem_cons_of_mem _ (mem_of_find?_eq_some isFound))
      child ?_ matching.1.symm
    rcases isRead with rfl | ⟨_, _, read⟩
    · exact mem_cons_self
    · exact mem_cons_of_mem _ (mem_of_find?_eq_some read)

end

section

variable (chain : GenesisChain (block :: rest))
  (accepted : engine.verifyUncles (chainReader rest) block = .ok ())

include chain accepted

theorem acceptable (mem : uncle ∈ block.uncles) : Acceptable engine block (rest.take 7) uncle := by
  have checked := (Engine.acceptable_of_verifyUncles accepted).2.2 uncle mem
  rwa [chain.recentAncestors_eq] at checked

theorem uncle_number (mem : uncle ∈ block.uncles) :
    uncle.number < block.number ∧ block.number ≤ uncle.number + 6 :=
  chain.readsChain.uncle_number accepted mem (chain.acyclic block mem_cons_self uncle mem)

end

theorem header_mem (mem : other ∈ blocks) : other.header ∈ headersOf blocks :=
  mem_append_left _ (mem_map.mpr ⟨other, mem, rfl⟩)

theorem uncle_mem (mem : other ∈ blocks) (included : uncle ∈ other.uncles) :
    uncle ∈ headersOf blocks :=
  mem_append_right _ (mem_flatMap.mpr ⟨other, mem, included⟩)

end GenesisChain

theorem Verified.of_mem (verified : Verified engine blocks) (mem : block ∈ blocks) :
    ∃ front rest, blocks = front ++ block :: rest ∧
      engine.verifyUncles (chainReader rest) block = .ok () := by
  induction blocks with
  | nil => cases mem
  | cons first blocks ih =>
    rcases mem_cons.mp mem with rfl | inRest
    · exact ⟨[], blocks, rfl, verified.1⟩
    · obtain ⟨front, rest, split, accepted⟩ := ih verified.2 inRest
      exact ⟨first :: front, rest, by rw [split]; rfl, accepted⟩

/-- No uncle is included twice in a chain, and no uncle is a block of the chain. -/
theorem uncles_included_once (engine : Engine) (blocks : List FullBlock)
    (chain : GenesisChain blocks) (verified : Verified engine blocks) :
    ((blocks.flatMap FullBlock.uncles).map Header.hash).Nodup ∧
      ∀ uncle ∈ blocks.flatMap FullBlock.uncles, ∀ block ∈ blocks, uncle.hash ≠ block.hash := by
  induction blocks with
  | nil => exact ⟨nodup_nil, fun _ mem => (nomatch mem)⟩
  | cons block rest ih =>
    obtain ⟨distinctRest, notBlockRest⟩ := ih chain.tail verified.2
    have distinct := (Engine.acceptable_of_verifyUncles verified.1).2.1
    -- what the checks of an older block say about its uncles
    have older {other : FullBlock} {uncle : Header} (otherMem : other ∈ rest)
        (included : uncle ∈ other.uncles) : uncle.number < other.number := by
      obtain ⟨front, tail, split, accepted⟩ := verified.2.of_mem otherMem
      have lower := chain.tail
      rw [split] at lower
      exact (lower.below.uncle_number accepted included).1
    rw [flatMap_cons, map_append]
    constructor
    · refine nodup_append.mpr ⟨distinct, distinctRest, ?_⟩
      intro hash ofBlock otherHash ofRest hashEq
      obtain ⟨uncle, mem, rfl⟩ := mem_map.mp ofBlock
      obtain ⟨again, againMem, rfl⟩ := mem_map.mp ofRest
      obtain ⟨other, otherMem, included⟩ := mem_flatMap.mp againMem
      have same := chain.injective uncle (GenesisChain.uncle_mem mem_cons_self mem) again
        (GenesisChain.uncle_mem (mem_cons_of_mem _ otherMem) included) hashEq
      have close := (chain.uncle_number verified.1 mem).2
      have below := older otherMem included
      rw [same] at close
      have recent : other ∈ rest.take 7 := chain.mem_take otherMem (by omega)
      exact (chain.acceptable verified.1 mem).notUncle other recent again included hashEq
    · intro uncle uncleMem other otherMem hashEq
      rcases mem_append.mp uncleMem with mem | inRest
      · rcases mem_cons.mp otherMem with rfl | otherMem
        · exact (chain.acceptable verified.1 mem).notBlock hashEq
        · have same := chain.injective uncle (GenesisChain.uncle_mem mem_cons_self mem) other.header
            (GenesisChain.header_mem (mem_cons_of_mem _ otherMem)) hashEq
          have close : block.number ≤ other.number + 6 := by
            have bound := (chain.uncle_number verified.1 mem).2
            rwa [same] at bound
          have recent : other ∈ rest.take 7 := chain.mem_take otherMem (by omega)
          exact (chain.acceptable verified.1 mem).notAncestor other recent hashEq
      · rcases mem_cons.mp otherMem with rfl | otherMem
        · obtain ⟨including, includingMem, included⟩ := mem_flatMap.mp inRest
          have same := chain.injective uncle
            (GenesisChain.uncle_mem (mem_cons_of_mem _ includingMem) included)
            other.header (GenesisChain.header_mem mem_cons_self) hashEq
          have below := older includingMem included
          have lower := chain.number_lt includingMem
          rw [same] at below
          exact absurd below (not_lt.mpr lower.le)
        · exact notBlockRest uncle inRest other otherMem hashEq

def Engine.unsealed : Engine where
  maximumExtraDataSize := 32
  gasLimitBoundDivisor := 1024
  minGasLimit := 5000
  difficultyBoundDivisor := 2048
  minimumDifficulty := 100
  diffBombDefuseBlock := 0
  emptyUncleHash := 0
  verifySeal _ := .ok ()

def easyHeader (hash parentHash : Hash) (num : Nat) : Header where
  hash := hash
  parentHash := parentHash
  number := num
  difficulty := 100
  gasLimit := 10000
  time := num

private def forkedChain : List FullBlock :=
  [{ header := easyHeader 3 2 2, uncles := [easyHeader 12 1 1] },
    { header := easyHeader 2 1 1 }, { header := easyHeader 1 0 0 }]

/-- The second block includes the sibling of the first. -/
theorem uncles_included_once_fork :
    easyHeader 12 1 1 ∈ forkedChain.flatMap FullBlock.uncles ∧
      ∀ uncle ∈ forkedChain.flatMap FullBlock.uncles, ∀ block ∈ forkedChain,
        uncle.hash ≠ block.hash := by
  have chain : GenesisChain forkedChain := ⟨⟨rfl, rfl, rfl⟩, by decide, by decide, by decide⟩
  have verified : Verified .unsealed forkedChain :=
    ⟨by decide +kernel, by decide +kernel, by decide +kernel, trivial⟩
  exact ⟨by decide, (uncles_included_once .unsealed forkedChain chain verified).2⟩

end MoacVnode.Consensus.Ethash
