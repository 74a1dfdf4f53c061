import MoacVnode.Core.HeaderChain

/-!
# What the header chain keeps

A run writes headers of one tree.
-/

namespace MoacVnode.Core

open Lib ChainDb HashTree.Ancestor
open Function (update update_of_ne update_apply)
open HashTree

variable {db : ChainDb} {hash : Hash} {num td : Nat} {header parent : Header}

/-- Headers around a genesis whose hashes identify them and are not empty, with numbers that have a
successor in a `uint64`. -/
structure HeaderTree extends HashTree headerLinks where
  hash_ne_empty : ∀ {header}, mem header → header.hash ≠ emptyHash
  number_bound : ∀ {header}, mem header → header.number + 1 < uint64Size

def HeaderTree.ofList (genesis : Header) (headers : List Header) (rootNumber : genesis.number = 0)
    (hashes :
      ∀ left ∈ genesis :: headers, ∀ right ∈ genesis :: headers,
        left.hash = right.hash → left = right)
    (numbers :
      ∀ parent ∈ genesis :: headers, ∀ child ∈ genesis :: headers,
        child.parentHash = parent.hash → child.number = parent.number + 1)
    (notEmpty : ∀ header ∈ genesis :: headers, header.hash ≠ emptyHash)
    (bounded : ∀ header ∈ genesis :: headers, header.number + 1 < uint64Size) :
    HeaderTree where
  toHashTree := HashTree.ofList headerLinks genesis headers rootNumber hashes numbers
  hash_ne_empty headerMem := notEmpty _ headerMem
  number_bound headerMem := bounded _ headerMem

instance (genesis : Header) (headers : List Header)
    (rootNumber hashes numbers notEmpty bounded) (header : Header) :
    Decidable
      ((HeaderTree.ofList genesis headers rootNumber hashes numbers notEmpty bounded).mem header) :=
  inferInstanceAs (Decidable (header ∈ genesis :: headers))

def Stored (db : ChainDb) (header : Header) : Prop :=
  db.getHeader header.hash header.number = some header

theorem stored_of_getHeader (got : db.getHeader hash num = some header) : Stored db header := by
  have sameNumber := number_of_getHeader got
  have hashEq := hash_of_getHeader got
  unfold Stored
  rw [sameNumber, hashEq]
  exact got

namespace HeaderTree

variable {tree : HeaderTree} {child : Header}

theorem prev64_of_parent (link : tree.Parent parent child) :
    prev64 child.number = parent.number := by
  rw [show child.number = parent.number + 1 from number_of_parent link]
  exact prev64_succ (tree.number_bound link.1)

theorem getHeader_of_parent (link : tree.Parent parent child) (hasParent : Stored db parent) :
    db.getHeader child.parentHash (prev64 child.number) = some parent := by
  have hashEq : child.parentHash = parent.hash := link.2.2
  rw [prev64_of_parent link, hashEq]
  exact hasParent

theorem parent_of_getHeader (storedMem : ∀ {header}, Stored db header → tree.mem header)
    (childMem : tree.mem child)
    (got : db.getHeader child.parentHash (prev64 child.number) = some parent) :
    tree.Parent parent child :=
  ⟨storedMem (stored_of_getHeader got), childMem, (hash_of_getHeader got).symm⟩

end HeaderTree

namespace HeaderChain

variable {tree : HeaderTree}

theorem getCanonicalHash_eq_iff (notEmpty : hash ≠ emptyHash) :
    db.getCanonicalHash num = hash ↔ db.canonicalHash num = some hash := by
  unfold getCanonicalHash
  cases got : db.canonicalHash num with
  | none => simp [notEmpty.symm]
  | some stored => simp

theorem deleteCanonicalFrom_eq {top : Nat} (bound : top + 1 < uint64Size) :
    ∀ (fuel start : Nat) (db : ChainDb), top + 1 - start < fuel →
      (∀ num, start ≤ num → num ≤ top → db.getCanonicalHash num ≠ emptyHash) →
      (∀ num, top < num → db.canonicalHash num = none) →
        deleteCanonicalFrom fuel db start = .ok (db.withCanonical fun num =>
            if num < start then db.canonicalHash num else none)
  | 0, _, _, enough, _, _ => by omega
  | fuel + 1, start, db, enough, filled, above => by
    by_cases past : top < start
    · have missing : db.getCanonicalHash start = emptyHash := by
        simp [getCanonicalHash, above start past]
      have unchanged : (fun num =>
            if num < start then db.canonicalHash num else none) = db.canonicalHash := by
        funext num
        split
        · rfl
        · exact (above num (by omega)).symm
      rw [deleteCanonicalFrom, if_pos missing, unchanged]
      rfl
    · have present : db.getCanonicalHash start ≠ emptyHash :=
        filled start (Nat.le_refl start) (by omega)
      have step : next64 start = start + 1 := next64_of_lt (by omega)
      have rest :=
        deleteCanonicalFrom_eq bound fuel (start + 1) (db.deleteCanonicalHash start) (by omega) (by
            intro num lower upper
            have ne : num ≠ start := by omega
            have kept := filled num (by omega) upper
            simpa [getCanonicalHash, deleteCanonicalHash, ne] using kept)
          (by
            intro num higher
            have ne : num ≠ start := by omega
            simpa [deleteCanonicalHash, ne] using above num higher)
      rw [deleteCanonicalFrom, if_neg present, step, rest]
      congr 1
      unfold withCanonical deleteCanonicalHash
      congr 1
      funext num
      by_cases same : num = start
      · subst same
        simp
      · have shift : num < start + 1 ↔ num < start := by omega
        simp [same, shift]

/-- The index names, below `top`, only whole branches of stored headers. -/
def BranchIndex (tree : HeaderTree) (db : ChainDb) (top : Nat)
    (canonical : Nat → Option Hash) : Prop :=
  ∀ {header}, Stored db header → header.number ≤ top →
    canonical header.number = some header.hash →
      ∀ {ancestor}, tree.Ancestor ancestor header → canonical ancestor.number = some ancestor.hash

theorem overwriteCanonical_spec (closed : tree.Closed (Stored db))
    (storedMem : ∀ {header}, Stored db header → tree.mem header) :
    ∀ (fuel : Nat) {head : Header} {canonical : Nat → Option Hash}, Stored db head →
      head.number < fuel →
      canonical 0 = some tree.root.hash →
      BranchIndex tree db head.number canonical →
        ∃ rewritten,
          overwriteCanonical fuel (db.withCanonical canonical) head.hash head.number (some head) =
            .ok (db.withCanonical rewritten) ∧
          (∀ num, head.number < num → rewritten num = canonical num) ∧
          ∀ {ancestor}, tree.Ancestor ancestor head → rewritten ancestor.number = some ancestor.hash
  | 0, _, _, _, enough, _, _ => by omega
  | fuel + 1, head, canonical, headStored, enough, rootIndexed, indexed => by
    have headMem := storedMem headStored
    have agrees : (db.withCanonical canonical).getCanonicalHash head.number = head.hash ↔
          canonical head.number = some head.hash :=
      getCanonicalHash_eq_iff (tree.hash_ne_empty headMem)
    by_cases got : canonical head.number = some head.hash
    · refine ⟨canonical, ?_, fun _ _ => rfl, ?_⟩
      · rw [overwriteCanonical, if_pos (agrees.mpr got)]
      · intro ancestor path
        exact indexed headStored (Nat.le_refl _) got path
    · have notRoot : head ≠ tree.root := by
        intro isRoot
        have rootNumber : head.number = 0 := by
          rw [isRoot]
          exact tree.root_number
        apply got
        rw [rootNumber, rootIndexed, isRoot]
      obtain ⟨parent, hasParent, link⟩ := closed head headStored notRoot
      have numEq : head.number = parent.number + 1 := number_of_parent link
      have parentHash : head.parentHash = parent.hash := link.2.2
      have parentNumber := HeaderTree.prev64_of_parent link
      let written := update canonical head.number (some head.hash)
      -- The write at `head.number` does not touch the numbers below it.
      have writtenBelow : ∀ num, num ≤ parent.number → written num = canonical num := by
        intro num below
        exact update_of_ne (by omega) _ _
      have writtenIndexed : BranchIndex tree db parent.number written := by
        intro header headerStored below present ancestor path
        have ancestorBelow : ancestor.number ≤ header.number := number_le path
        rw [writtenBelow _ below] at present
        rw [writtenBelow _ (by omega)]
        exact indexed headerStored (by omega) present path
      obtain ⟨rewritten, res, above, branch⟩ :=
        overwriteCanonical_spec closed storedMem fuel hasParent (by omega)
          (by rw [writtenBelow 0 (by omega)]; exact rootIndexed)
          writtenIndexed
      have parentFound :
          (db.withCanonical written).getHeader parent.hash parent.number = some parent :=
        hasParent
      refine ⟨rewritten, ?_, ?_, ?_⟩
      · rw [overwriteCanonical, if_neg (fun same => got (agrees.mp same))]
        change
          overwriteCanonical fuel (db.withCanonical written) head.parentHash (prev64 head.number)
              ((db.withCanonical written).getHeader head.parentHash (prev64 head.number)) =
            .ok (db.withCanonical rewritten)
        rw [parentHash, parentNumber, parentFound]
        exact res
      · intro num higher
        rw [above num (by omega)]
        exact update_of_ne (by omega) _ _
      · intro ancestor path
        rcases (ancestor_iff_of_parent link).mp path with isHead | lower
        · rw [isHead, above head.number (by omega)]
          exact Function.update_self _ _ _
        · exact branch lower

/-- The state of a header chain over a tree between two calls. -/
structure Sound (tree : HeaderTree) (hc : HeaderChain) : Prop where
  storedMem : ∀ {header}, Stored hc.db header → tree.mem header
  closed : tree.Closed (Stored hc.db)
  tdOfStored :
    ∀ {header}, Stored hc.db header → ∃ td, hc.db.getTd header.hash header.number = some td
  storedOfTd :
    ∀ {hash num td}, hc.db.getTd hash num = some td →
      ∃ header, hc.db.getHeader hash num = some header
  genesisHeader : hc.genesisHeader = tree.root
  currentStored : Stored hc.db hc.currentHeader
  currentHash : hc.currentHeaderHash = hc.currentHeader.hash
  branchIndexed :
    ∀ {ancestor}, tree.Ancestor ancestor hc.currentHeader →
      hc.db.canonicalHash ancestor.number = some ancestor.hash
  emptyAbove : ∀ {num}, hc.currentHeader.number < num → hc.db.canonicalHash num = none

section

theorem recordHeader_getTd (hash : Hash) (num : Nat) :
    (recordHeader db header td).getTd hash num =
      if (num, hash) = (header.number, header.hash) then some td
      else db.getTd hash num :=
  update_apply _ _ _ _

theorem recordHeader_getHeader (hash : Hash) (num : Nat) :
    (recordHeader db header td).getHeader hash num =
      if (num, hash) = (header.number, header.hash) then some header
      else db.getHeader hash num :=
  update_apply _ _ _ _

theorem stored_recordHeader_self : Stored (recordHeader db header td) header := by
  unfold Stored
  rw [recordHeader_getHeader, if_pos rfl]

theorem stored_recordHeader_iff (storedMem : ∀ {header}, Stored db header → tree.mem header)
    (headerMem : tree.mem header) {other : Header} :
    Stored (recordHeader db header td) other ↔ other = header ∨ Stored db other := by
  constructor
  · intro otherStored
    unfold Stored at otherStored
    rw [recordHeader_getHeader] at otherStored
    split at otherStored
    · exact .inl (Option.some.inj otherStored).symm
    · exact .inr otherStored
  · intro otherStored
    by_cases same : other = header
    · rw [same]
      exact stored_recordHeader_self
    · have beforeStored := otherStored.resolve_left same
      have keysDiffer : ¬ (other.number, other.hash) = (header.number, header.hash) := by
        intro keys
        exact same <| tree.hash_injective (storedMem beforeStored) headerMem (Prod.mk.inj keys).2
      unfold Stored
      rw [recordHeader_getHeader, if_neg keysDiffer]
      exact beforeStored

end

namespace Sound

variable {hc : HeaderChain} {other : Header}

section

variable (sound : Sound tree hc)

include sound

theorem ancestor_of_indexed {indexed : Header} (indexedStored : Stored hc.db indexed)
    (named : hc.db.canonicalHash indexed.number = some indexed.hash) :
    tree.Ancestor indexed hc.currentHeader := by
  have below : indexed.number ≤ hc.currentHeader.number := by
    apply Nat.le_of_not_lt
    intro higher
    rw [sound.emptyAbove higher] at named
    cases named
  obtain ⟨node, nodeStored, path, sameNumber⟩ :=
    sound.closed.exists_ancestor sound.currentStored below
  have nodeNamed := sound.branchIndexed path
  have nodeNumber : node.number = indexed.number := sameNumber
  rw [nodeNumber, named] at nodeNamed
  have hashEq : indexed.hash = node.hash := Option.some.inj nodeNamed
  rw [tree.hash_injective (sound.storedMem indexedStored) (sound.storedMem nodeStored) hashEq]
  exact path

theorem indexFilled (below : num ≤ hc.currentHeader.number) :
    hc.db.getCanonicalHash num ≠ emptyHash := by
  obtain ⟨node, nodeStored, path, rfl⟩ := sound.closed.exists_ancestor sound.currentStored below
  have named : hc.db.getCanonicalHash node.number = node.hash := by
    simp [getCanonicalHash, sound.branchIndexed path]
  change hc.db.getCanonicalHash node.number ≠ emptyHash
  rw [named]
  exact tree.hash_ne_empty (sound.storedMem nodeStored)

theorem rootIndexed : hc.db.canonicalHash 0 = some tree.root.hash := by
  have path := sound.closed.root_ancestor sound.currentStored
  have named := sound.branchIndexed path
  have rootNumber : tree.root.number = 0 := tree.root_number
  rw [rootNumber] at named
  exact named

theorem closed_recordHeader (hasParent : Stored hc.db parent)
    (link : tree.Parent parent header) : tree.Closed (Stored (recordHeader hc.db header td)) := by
  intro node nodeStored notRoot
  have storedIff := @stored_recordHeader_iff hc.db td header tree sound.storedMem link.2.1
  rcases storedIff.mp nodeStored with isHeader | beforeStored
  · rw [isHeader]
    exact ⟨parent, storedIff.mpr (.inr hasParent), link⟩
  · obtain ⟨lower, lowerStored, lowerLink⟩ := sound.closed node beforeStored notRoot
    exact ⟨lower, storedIff.mpr (.inr lowerStored), lowerLink⟩

theorem storedMem_recordHeader (headerMem : tree.mem header)
    (otherStored : Stored (recordHeader hc.db header td) other) : tree.mem other := by
  rcases (stored_recordHeader_iff sound.storedMem headerMem).mp otherStored
    with isHeader | beforeStored
  · rw [isHeader]
    exact headerMem
  · exact sound.storedMem beforeStored

theorem canonicalize_spec (hasParent : Stored hc.db parent) (link : tree.Parent parent header)
    (td : Nat) {fuel : Nat} (enough : uint64Size < fuel) :
    ∃ canonical,
      canonicalize fuel (recordHeader hc.db header td) header =
        .ok { recordHeader hc.db header td with
          canonicalHash := canonical
          headHeaderHash := some header.hash } ∧
      (∀ {ancestor}, tree.Ancestor ancestor header →
        canonical ancestor.number = some ancestor.hash) ∧
      ∀ {num}, header.number < num → canonical num = none := by
  let db := recordHeader hc.db header td
  let kept := fun num => if num < header.number + 1 then hc.db.canonicalHash num else none
  have headerMem : tree.mem header := link.2.1
  have headerBound := tree.number_bound headerMem
  have currentBound := tree.number_bound (sound.storedMem sound.currentStored)
  have numEq : header.number = parent.number + 1 := number_of_parent link
  have nextNumber : next64 header.number = header.number + 1 := next64_of_lt headerBound
  have deleted : deleteCanonicalFrom fuel db (header.number + 1) = .ok (db.withCanonical kept) := by
    apply deleteCanonicalFrom_eq currentBound
    · omega
    · intro num _ below
      exact sound.indexFilled below
    · intro num higher
      exact sound.emptyAbove higher
  have storedIff : ∀ {other}, Stored db other ↔ other = header ∨ Stored hc.db other :=
    stored_recordHeader_iff sound.storedMem headerMem
  have keptIndexed : BranchIndex tree db parent.number kept := by
    intro indexed indexedStored below named ancestor path
    have notHeader : indexed ≠ header := by
      intro isHeader
      rw [isHeader] at below
      omega
    have beforeStored := (storedIff.mp indexedStored).resolve_left notHeader
    have namedBefore : hc.db.canonicalHash indexed.number = some indexed.hash := by
      have inRange : indexed.number < header.number + 1 := by omega
      exact (if_pos inRange).symm.trans named
    have branch := sound.ancestor_of_indexed beforeStored namedBefore
    have ancestorBelow : ancestor.number ≤ indexed.number := number_le path
    have inRange : ancestor.number < header.number + 1 := by omega
    exact (if_pos inRange).trans (sound.branchIndexed (path.trans branch))
  obtain ⟨rewritten, overwritten, above, branch⟩ :=
    overwriteCanonical_spec (sound.closed_recordHeader hasParent link)
      (sound.storedMem_recordHeader headerMem) fuel
      (storedIff.mpr (.inr hasParent)) (by omega)
      ((if_pos (Nat.succ_pos _)).trans sound.rootIndexed) keptIndexed
  have parentFound :
      (db.withCanonical kept).getHeader header.parentHash (prev64 header.number) = some parent :=
    HeaderTree.getHeader_of_parent link (storedIff.mpr (.inr hasParent))
  have parentHash : header.parentHash = parent.hash := link.2.2
  have parentNumber := HeaderTree.prev64_of_parent link
  refine ⟨update rewritten header.number (some header.hash), ?_, ?_, ?_⟩
  · rw [canonicalize, nextNumber, deleted]
    dsimp only
    rw [parentFound, parentHash, parentNumber, overwritten]
    rfl
  · intro ancestor path
    rcases (ancestor_iff_of_parent link).mp path with isHeader | lower
    · rw [isHeader]
      exact Function.update_self _ _ _
    · have lowerBound : ancestor.number ≤ parent.number := number_le lower
      rw [update_of_ne (by omega)]
      exact branch lower
  · intro num higher
    have notBelow : ¬ num < header.number + 1 := by omega
    rw [update_of_ne (by omega), above num (by omega)]
    exact if_neg notBelow

theorem writeHeader_cases (headerMem : tree.mem header) (coin : Bool) :
    (hc.db.getHeader header.parentHash (prev64 header.number) = none ∧
      hc.writeHeader header coin = .error .unknownAncestor) ∨
    ∃ parent ptd localTd, Stored hc.db parent ∧ tree.Parent parent header ∧
      hc.db.getTd parent.hash parent.number = some ptd ∧
      hc.db.getTd hc.currentHeader.hash hc.currentHeader.number = some localTd ∧
      ((¬ Wins localTd (header.difficulty + ptd) coin ∧
          hc.writeHeader header coin =
            .ok ({ hc with
              db := recordHeader hc.db header (header.difficulty + ptd) },
              .sideStatTy)) ∨
        (Wins localTd (header.difficulty + ptd) coin ∧
          ∃ canonical,
            hc.writeHeader header coin =
              .ok ({ hc with
                db := {
                  recordHeader hc.db header (header.difficulty + ptd) with
                  canonicalHash := canonical
                  headHeaderHash := some header.hash }
                currentHeader := header
                currentHeaderHash := header.hash }, .canonStatTy) ∧
            (∀ {ancestor}, tree.Ancestor ancestor header →
              canonical ancestor.number = some ancestor.hash) ∧
            ∀ {num}, header.number < num → canonical num = none)) := by
  cases got : hc.db.getHeader header.parentHash (prev64 header.number) with
  | none =>
    have noTd : hc.db.getTd header.parentHash (prev64 header.number) = none := by
      cases tdFound : hc.db.getTd header.parentHash (prev64 header.number) with
      | none => rfl
      | some td =>
        obtain ⟨present, presentFound⟩ := sound.storedOfTd tdFound
        rw [got] at presentFound
        cases presentFound
    refine .inl ⟨rfl, ?_⟩
    rw [writeHeader, noTd]
  | some parent =>
    have hasParent := stored_of_getHeader got
    have link := HeaderTree.parent_of_getHeader sound.storedMem headerMem got
    obtain ⟨ptd, ptdFound⟩ := sound.tdOfStored hasParent
    obtain ⟨localTd, localFound⟩ := sound.tdOfStored sound.currentStored
    have parentHash : header.parentHash = parent.hash := link.2.2
    have parentNumber := HeaderTree.prev64_of_parent link
    refine .inr ⟨parent, ptd, localTd, hasParent, link, ptdFound, localFound, ?_⟩
    rw [writeHeader, parentHash, parentNumber, ptdFound, sound.currentHash, localFound]
    dsimp only
    by_cases wins : Wins localTd (header.difficulty + ptd) coin
    · obtain ⟨canonical, res, branch, above⟩ :=
        sound.canonicalize_spec hasParent link
          (header.difficulty + ptd) (Nat.lt_succ_self uint64Size)
      refine .inr ⟨wins, canonical, ?_, branch, above⟩
      rw [if_pos wins, loopFuel, res]
    · exact .inl ⟨wins, by rw [if_neg wins]⟩

private theorem tdOfStored_recordHeader (headerMem : tree.mem header)
    (otherStored : Stored (recordHeader hc.db header td) other) :
    ∃ otherTd, (recordHeader hc.db header td).getTd other.hash other.number = some otherTd := by
  rw [recordHeader_getTd]
  split
  · exact ⟨td, rfl⟩
  · rename_i keysDiffer
    rcases (stored_recordHeader_iff sound.storedMem headerMem).mp otherStored
      with isHeader | beforeStored
    · exact False.elim (keysDiffer (by rw [isHeader]))
    · exact sound.tdOfStored beforeStored

private theorem storedOfTd_recordHeader {otherTd : Nat}
    (got : (recordHeader hc.db header td).getTd hash num = some otherTd) :
    ∃ other, (recordHeader hc.db header td).getHeader hash num = some other := by
  rw [recordHeader_getTd] at got
  rw [recordHeader_getHeader]
  split at got
  · rename_i sameKey
    exact ⟨header, by rw [if_pos sameKey]⟩
  · rename_i keysDiffer
    obtain ⟨other, otherFound⟩ := sound.storedOfTd got
    exact ⟨other, by rw [if_neg keysDiffer, otherFound]⟩

theorem writeHeader (headerMem : tree.mem header) {coin : Bool} {next : HeaderChain}
    {status : WriteStatus} (res : hc.writeHeader header coin = .ok (next, status)) :
    Sound tree next := by
  rcases sound.writeHeader_cases headerMem coin with
    ⟨_, rejected⟩ | ⟨parent, ptd, localTd, hasParent, link, _, _, effect⟩
  · rw [rejected] at res
    cases res
  · have recorded :
        Sound tree { hc with db := recordHeader hc.db header (header.difficulty + ptd) } := {
      sound with
      storedMem := sound.storedMem_recordHeader headerMem
      closed := sound.closed_recordHeader hasParent link
      tdOfStored := sound.tdOfStored_recordHeader headerMem
      storedOfTd := sound.storedOfTd_recordHeader
      currentStored :=
        (stored_recordHeader_iff sound.storedMem headerMem).mpr (.inr sound.currentStored) }
    rcases effect with ⟨_, side⟩ | ⟨_, canonical, canon, branch, above⟩
    · rw [side] at res
      cases res
      exact recorded
    · rw [canon] at res
      cases res
      exact { recorded with
        currentStored := stored_recordHeader_self
        currentHash := rfl
        branchIndexed := branch
        emptyAbove := above }

end

end Sound

section

variable (genesis : Header) (td : Nat)

theorem atGenesis_getHeader (hash : Hash) (num : Nat) :
    (atGenesis genesis td).db.getHeader hash num =
      if (num, hash) = (genesis.number, genesis.hash) then some genesis
      else none :=
  update_apply _ _ _ _

theorem atGenesis_getTd (hash : Hash) (num : Nat) :
    (atGenesis genesis td).db.getTd hash num =
      if (num, hash) = (genesis.number, genesis.hash) then some td
      else none :=
  update_apply _ _ _ _

theorem atGenesis_canonicalHash (num : Nat) :
    (atGenesis genesis td).db.canonicalHash num =
      if num = genesis.number then some genesis.hash else none :=
  update_apply _ _ _ _

theorem stored_atGenesis_iff : Stored (atGenesis genesis td).db header ↔ header = genesis := by
  unfold Stored
  rw [atGenesis_getHeader]
  constructor
  · intro got
    split at got
    · exact (Option.some.inj got).symm
    · cases got
  · rintro rfl
    exact if_pos rfl

end

theorem sound_atGenesis (tree : HeaderTree) (td : Nat) : Sound tree (atGenesis tree.root td) where
  storedMem := by
    intro header headerStored
    rw [(stored_atGenesis_iff _ _).mp headerStored]
    exact tree.root_mem
  closed := by
    intro node nodeStored notRoot
    exact False.elim (notRoot ((stored_atGenesis_iff _ _).mp nodeStored))
  tdOfStored := by
    intro header headerStored
    rw [(stored_atGenesis_iff _ _).mp headerStored, atGenesis_getTd]
    exact ⟨td, if_pos rfl⟩
  storedOfTd := by
    intro hash num otherTd got
    rw [atGenesis_getTd] at got
    rw [atGenesis_getHeader]
    split at got
    · rename_i sameKey
      exact ⟨tree.root, if_pos sameKey⟩
    · cases got
  genesisHeader := rfl
  currentStored := (stored_atGenesis_iff _ _).mpr rfl
  currentHash := rfl
  branchIndexed := by
    intro ancestor path
    rw [ancestor_root_iff.mp path, atGenesis_canonicalHash]
    exact if_pos rfl
  emptyAbove := by
    intro num higher
    rw [atGenesis_canonicalHash]
    exact if_neg (Nat.ne_of_gt higher)

end HeaderChain

end MoacVnode.Core
