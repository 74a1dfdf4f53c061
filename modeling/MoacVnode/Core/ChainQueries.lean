import MoacVnode.Core.HeaderChainInvariant

/-!
# Reading a chain

What a node that serves its chain reads: headers by number and by hash, and the hashes of the
ancestors of a header.
-/

namespace MoacVnode.Core

open Lib HashTree.Ancestor ChainDb

namespace ChainDb

def hashesBelow (db : ChainDb) : Nat → Header → List Hash
  | 0, _ => []
  | max + 1, header =>
    match db.getHeader header.parentHash (prev64 header.number) with
    | none => []
    | some parent =>
      header.parentHash :: if parent.number = 0 then [] else db.hashesBelow max parent

end ChainDb

structure HashList where
  hashes : List Hash
  capacity : Nat
  deriving DecidableEq, Repr

def ChainDb.getBlockHashesFromHash (db : ChainDb) (hash : Hash) (max : Nat) : HashList :=
  match db.getHeaderByHash hash with
  | none => ⟨[], 0⟩
  | some header => ⟨db.hashesBelow max header, max⟩

/-- A chain database that is not being written. -/
structure ServedChain where
  tree : HeaderTree
  db : ChainDb
  head : Header
  storedMem : ∀ {header}, Stored db header → tree.mem header
  closed : tree.Closed (Stored db)
  headStored : Stored db head
  branchIndexed :
    ∀ {ancestor}, tree.Ancestor ancestor head →
      db.canonicalHash ancestor.number = some ancestor.hash
  emptyAbove : ∀ {num}, head.number < num → db.canonicalHash num = none
  numbered : ∀ {header}, Stored db header → db.blockNumber header.hash = some header.number

def Numbered (db : ChainDb) : Prop :=
  ∀ {header}, Stored db header → db.blockNumber header.hash = some header.number

def ServedChain.ofSound {tree : HeaderTree} {hc : HeaderChain}
    (sound : HeaderChain.Sound tree hc) (numbered : Numbered hc.db) : ServedChain where
  tree := tree
  db := hc.db
  head := hc.currentHeader
  storedMem := sound.storedMem
  closed := sound.closed
  headStored := sound.currentStored
  branchIndexed := sound.branchIndexed
  emptyAbove := sound.emptyAbove
  numbered := numbered

theorem numbered_atGenesis (genesis : Header) (td : Nat) :
    Numbered (HeaderChain.atGenesis genesis td).db := by
  intro header stored
  rw [(HeaderChain.stored_atGenesis_iff genesis td).mp stored]
  exact Function.update_self _ _ _

namespace ServedChain

variable {chain : ServedChain} {header parent : Header} {num : Nat}

theorem number_bound (stored : Stored chain.db header) : header.number + 1 < uint64Size :=
  chain.tree.number_bound (chain.storedMem stored)

theorem stored_of_ancestor (path : chain.tree.Ancestor header parent)
    (stored : Stored chain.db parent) : Stored chain.db header :=
  chain.closed.ancestor path stored

theorem stored_of_canonical (path : chain.tree.Ancestor header chain.head) :
    Stored chain.db header :=
  stored_of_ancestor path chain.headStored

theorem number_le_head (path : chain.tree.Ancestor header chain.head) :
    header.number ≤ chain.head.number :=
  number_le path

theorem getHeaderByNumber_eq_some :
    chain.db.getHeaderByNumber num = some header ↔
      chain.tree.Ancestor header chain.head ∧ header.number = num := by
  constructor
  · intro got
    rw [getHeaderByNumber] at got
    split at got
    · cases got
    · rename_i notEmpty
      have stored := stored_of_getHeader got
      have sameNumber := number_of_getHeader got
      have named : chain.db.canonicalHash header.number = some header.hash := by
        rw [sameNumber, hash_of_getHeader got]
        exact (HeaderChain.getCanonicalHash_eq_iff notEmpty).mp rfl
      have below : header.number ≤ chain.head.number := by
        apply Nat.le_of_not_lt
        intro higher
        rw [chain.emptyAbove higher] at named
        cases named
      obtain ⟨node, nodeStored, path, nodeNumber⟩ :=
        chain.closed.exists_ancestor chain.headStored below
      have nodeNumber : node.number = header.number := nodeNumber
      have nodeNamed := chain.branchIndexed path
      rw [nodeNumber, named] at nodeNamed
      rw [chain.tree.hash_injective (chain.storedMem stored) (chain.storedMem nodeStored)
        (Option.some.inj nodeNamed)]
      exact ⟨path, nodeNumber.trans sameNumber⟩
  · rintro ⟨path, rfl⟩
    have stored := stored_of_canonical path
    have named : chain.db.getCanonicalHash header.number = header.hash := by
      simp [getCanonicalHash, chain.branchIndexed path]
    rw [getHeaderByNumber, named, if_neg (chain.tree.hash_ne_empty (chain.storedMem stored))]
    exact stored

theorem exists_canonical (below : num ≤ chain.head.number) :
    ∃ header, chain.tree.Ancestor header chain.head ∧ header.number = num := by
  obtain ⟨node, _, path, nodeNumber⟩ := chain.closed.exists_ancestor chain.headStored below
  exact ⟨node, path, nodeNumber⟩

theorem getHeaderByHash_eq_some {hash : Hash} :
    chain.db.getHeaderByHash hash = some header ↔ Stored chain.db header ∧ header.hash = hash := by
  constructor
  · intro got
    exact ⟨stored_of_getHeader got, hash_of_getHeader got⟩
  · rintro ⟨stored, rfl⟩
    rw [getHeaderByHash, getBlockNumber, chain.numbered stored]
    exact stored

theorem getHeader_parent_eq_some (stored : Stored chain.db header) :
    chain.db.getHeader header.parentHash (prev64 header.number) = some parent ↔
      chain.tree.Parent parent header := by
  constructor
  · intro got
    exact HeaderTree.parent_of_getHeader chain.storedMem (chain.storedMem stored) got
  · intro link
    exact HeaderTree.getHeader_of_parent link (stored_of_ancestor (of_parent link) stored)

theorem exists_parent (stored : Stored chain.db header) (positive : 0 < header.number) :
    ∃ parent, chain.tree.Parent parent header := by
  have notRoot : header ≠ chain.tree.root := by
    rintro rfl
    have rootNumber : chain.tree.root.number = 0 := chain.tree.root_number
    omega
  obtain ⟨parent, _, link⟩ := chain.closed header stored notRoot
  exact ⟨parent, link⟩

theorem number_of_parent (link : chain.tree.Parent parent header) :
    header.number = parent.number + 1 :=
  HashTree.number_of_parent link

theorem not_parent_of_number_zero (zero : header.number = 0) :
    ¬ chain.tree.Parent parent header := by
  intro link
  have numbered := number_of_parent link
  omega

theorem getElem_hashesBelow {ancestor : Header} (stored : Stored chain.db header)
    (path : chain.tree.Ancestor ancestor header) {max idx : Nat} (enough : idx < max)
    (distance : ancestor.number + (idx + 1) = header.number) :
    (chain.db.hashesBelow max header)[idx]? = some ancestor.hash := by
  induction max generalizing header idx with
  | zero => omega
  | succ max ih =>
    obtain ⟨parent, link⟩ := exists_parent stored (by omega)
    have parentNumber := number_of_parent link
    have hasParent := stored_of_ancestor (of_parent link) stored
    have belowParent : chain.tree.Ancestor ancestor parent := by
      rcases (HashTree.ancestor_iff_of_parent link).mp path with same | below
      · rw [same] at distance
        omega
      · exact below
    rw [hashesBelow, (getHeader_parent_eq_some stored).mpr link]
    cases idx with
    | zero =>
      have isParent : ancestor = parent :=
        belowParent.eq_of_number_le (by
          change parent.number ≤ ancestor.number
          omega)
      rw [isParent]
      exact congrArg some link.2.2
    | succ idx =>
      have positive : parent.number ≠ 0 := by omega
      simp only [positive, if_false]
      exact ih hasParent belowParent (by omega) (by omega)

theorem length_hashesBelow_le (stored : Stored chain.db header) (max : Nat) :
    (chain.db.hashesBelow max header).length ≤ header.number := by
  induction max generalizing header with
  | zero => exact Nat.zero_le _
  | succ max ih =>
    rw [hashesBelow]
    cases got : chain.db.getHeader header.parentHash (prev64 header.number) with
    | none => exact Nat.zero_le _
    | some parent =>
      have link := (getHeader_parent_eq_some stored).mp got
      have parentNumber := number_of_parent link
      have hasParent := stored_of_ancestor (of_parent link) stored
      by_cases zero : parent.number = 0
      · simp only [zero, if_true, List.length_cons, List.length_nil]
        omega
      · simp only [zero, if_false, List.length_cons]
        have shorter := ih hasParent
        omega

end ServedChain

end MoacVnode.Core
