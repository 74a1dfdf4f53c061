import MoacVnode.Core.HeaviestChain

/-!
# Rewinding the header chain

`SetHead` deletes the headers of the current branch above the new head.
-/

namespace MoacVnode.Core

open Lib HashTree.Ancestor HashTree

namespace HeaderChain

variable {tree : HeaderTree} {db : ChainDb} {hc : HeaderChain}

theorem deleteCanonicalDown_eq (head height : Nat) (db : ChainDb) :
    deleteCanonicalDown head height db = db.withCanonical fun num =>
        if head < num ∧ num ≤ height then none
        else db.canonicalHash num := by
  induction height generalizing db with
  | zero =>
    have outside : ∀ num, ¬ (head < num ∧ num ≤ 0) := by
      intro num
      omega
    simp only [if_neg (outside _)]
    rfl
  | succ height ih =>
    unfold deleteCanonicalDown
    split
    · rename_i above
      rw [ih]
      unfold ChainDb.withCanonical ChainDb.deleteCanonicalHash
      congr 1
      funext num
      by_cases last : num = height + 1
      · subst last
        simp [above]
      · have shift : (head < num ∧ num ≤ height + 1) ↔ (head < num ∧ num ≤ height) := by
          omega
        simp [last, shift]
    · have outside : ∀ num, ¬ (head < num ∧ num ≤ height + 1) := by
        intro num
        omega
      simp only [if_neg (outside _)]
      rfl

/-- Deleting a header takes its record and its total difficulty and nothing
else that the chain reads. -/
private def deleteStep (delFn : DeleteCallback) (db : ChainDb) (header : Header) : ChainDb :=
  ((delFn.run db header.hash header.number).deleteHeader
    header.hash header.number).deleteTd header.hash header.number

section

variable (delFn : DeleteCallback)

include delFn

private theorem deleteStep_getHeader (header : Header) (hash : Hash) (num : Nat) :
    (deleteStep delFn db header).getHeader hash num =
      if (num, hash) = (header.number, header.hash) then none
      else db.getHeader hash num := by
  cases delFn
  · exact Function.update_apply _ _ _ _
  · exact Function.update_apply _ _ _ _

private theorem deleteStep_getTd (header : Header) (hash : Hash) (num : Nat) :
    (deleteStep delFn db header).getTd hash num =
      if (num, hash) = (header.number, header.hash) then none
      else db.getTd hash num := by
  cases delFn
  · exact Function.update_apply _ _ _ _
  · exact Function.update_apply _ _ _ _

private theorem stored_deleteStep_iff {header other : Header} (headerMem : tree.mem header)
    (storedMem : ∀ {header}, Stored db header → tree.mem header) :
    Stored (deleteStep delFn db header) other ↔ Stored db other ∧ other ≠ header := by
  unfold Stored
  rw [deleteStep_getHeader]
  constructor
  · intro got
    split at got
    · cases got
    · rename_i keysDiffer
      refine ⟨got, ?_⟩
      rintro rfl
      exact keysDiffer rfl
  · rintro ⟨got, ne⟩
    rw [if_neg]
    · exact got
    · intro sameKey
      exact ne <| tree.hash_injective (storedMem got) headerMem (Prod.mk.inj sameKey).2

end

structure Rewound (tree : HeaderTree) (head : Nat) (top : Header)
    (before after : ChainDb) : Prop where
  canonicalHash : after.canonicalHash = before.canonicalHash
  stored_iff :
    ∀ {header}, Stored after header ↔
      Stored before header ∧ ¬ (tree.Ancestor header top ∧ head < header.number)
  keptOrDeleted :
    ∀ hash num,
      (after.getHeader hash num = before.getHeader hash num ∧
        after.getTd hash num = before.getTd hash num) ∨
      (after.getHeader hash num = none ∧ after.getTd hash num = none)

namespace Rewound

variable {head : Nat} {header parent : Header} {before after : ChainDb}

private theorem refl (notAbove : header.number ≤ head) :
    Rewound tree head header before before where
  canonicalHash := rfl
  stored_iff := by
    intro other
    constructor
    · intro otherStored
      refine ⟨otherStored, ?_⟩
      rintro ⟨path, above⟩
      have below : other.number ≤ header.number := number_le path
      omega
    · exact fun kept => kept.1
  keptOrDeleted := fun _ _ => .inl ⟨rfl, rfl⟩

private theorem extend (delFn : DeleteCallback)
    (rewound : Rewound tree head parent (deleteStep delFn before header) after)
    (link : tree.Parent parent header)
    (storedMem : ∀ {header}, Stored before header → tree.mem header)
    (above : head < header.number) :
    Rewound tree head header before after where
  canonicalHash := by
    rw [rewound.canonicalHash]
    cases delFn <;> rfl
  stored_iff := by
    intro other
    rw [rewound.stored_iff, stored_deleteStep_iff delFn link.2.1 storedMem,
      ancestor_iff_of_parent link]
    constructor
    · rintro ⟨⟨otherStored, notHeader⟩, notRewound⟩
      refine ⟨otherStored, ?_⟩
      rintro ⟨isHeader | path, otherAbove⟩
      · exact notHeader isHeader
      · exact notRewound ⟨path, otherAbove⟩
    · rintro ⟨otherStored, notRewound⟩
      refine ⟨⟨otherStored, ?_⟩, ?_⟩
      · rintro rfl
        exact notRewound ⟨Or.inl rfl, above⟩
      · rintro ⟨path, otherAbove⟩
        exact notRewound ⟨Or.inr path, otherAbove⟩
  keptOrDeleted := by
    intro hash num
    rcases rewound.keptOrDeleted hash num with kept | deleted
    · rw [deleteStep_getHeader, deleteStep_getTd] at kept
      split at kept
      · exact .inr kept
      · exact .inl kept
    · exact .inr deleted

end Rewound

theorem rewind_spec (head : Nat) (delFn : DeleteCallback) :
    ∀ (fuel : Nat) {db : ChainDb} {header : Header}, header.number < fuel →
      (∀ {header}, Stored db header → tree.mem header) →
      tree.Ancestor tree.root header →
      (∀ {ancestor}, tree.Ancestor ancestor header → Stored db ancestor) →
        ∃ after last, rewind head delFn fuel db (some header) = .ok (after, some last) ∧
          tree.Ancestor last header ∧
          last.number = min head header.number ∧
          Rewound tree head header db after
  | 0, _, _, enough, _, _, _ => by omega
  | fuel + 1, db, header, enough, storedMem, rooted, branchStored => by
    by_cases above : head < header.number
    · obtain ⟨parent, link, parentRooted⟩ := rooted.exists_parent (Nat.zero_lt_of_lt above)
      have numEq : header.number = parent.number + 1 := number_of_parent link
      have storedIff : ∀ {other}, Stored (deleteStep delFn db header) other ↔
          Stored db other ∧ other ≠ header :=
        stored_deleteStep_iff delFn link.2.1 storedMem
      have parentBranch : ∀ {ancestor}, tree.Ancestor ancestor parent →
          Stored (deleteStep delFn db header) ancestor := by
        intro ancestor path
        have below : ancestor.number ≤ parent.number := number_le path
        refine storedIff.mpr ⟨branchStored (path.trans (of_parent link)), ?_⟩
        rintro rfl
        omega
      obtain ⟨after, last, res, path, lastNumber, rewound⟩ :=
        rewind_spec head delFn fuel (by omega)
          (fun otherStored => storedMem (storedIff.mp otherStored).1)
          parentRooted parentBranch
      refine ⟨after, last, ?_, path.trans (of_parent link), by omega, ?_⟩
      · have parentFound :=
          HeaderTree.getHeader_of_parent link (parentBranch (ancestor_self parent))
        rw [rewind, if_pos above]
        change rewind head delFn fuel (deleteStep delFn db header)
            ((deleteStep delFn db header).getHeader header.parentHash (prev64 header.number)) = _
        rw [parentFound]
        exact res
      · exact rewound.extend delFn link storedMem above
    · refine ⟨db, header, ?_, ancestor_self header, by omega, ?_⟩
      · rw [rewind, if_neg above]
      · exact Rewound.refl (by omega)

/-- A call on the header chain. -/
inductive Call (tree : HeaderTree) where
  | writeHeader (header : tree.Node) (coin : Bool)
  | setHead (head : Nat) (delFn : DeleteCallback)

def call (hc : HeaderChain) : Call tree → Except Crash HeaderChain
  | .writeHeader header coin => hc.insertHeader header coin
  | .setHead head delFn => hc.setHead head delFn

/-- What `VerifyHeaders` checks before a header is written. -/
def ParentPresent (hc : HeaderChain) : Call tree → Prop
  | .writeHeader header _ => hc.db.getHeader header.1.parentHash (prev64 header.1.number) ≠ none
  | .setHead _ _ => True

/-- No side branch forks off the canonical chain above `head`: a stored child
of a canonical header up there is canonical itself. -/
def NoForkAbove (tree : HeaderTree) (hc : HeaderChain) (head : Nat) : Prop :=
  ∀ parent child, tree.Parent parent child → Stored hc.db child → head < parent.number →
    hc.db.getCanonicalHash parent.number = parent.hash →
      hc.db.getCanonicalHash child.number = child.hash

/-- A rewind deletes no header that a side branch forks off from. -/
def RewindsNoFork (hc : HeaderChain) : Call tree → Prop
  | .writeHeader _ _ => True
  | .setHead head _ => NoForkAbove tree hc head

namespace Sound

section

variable (sound : Sound tree hc)

include sound

theorem ancestor_iff_canonical {header : Header} (headerStored : Stored hc.db header) :
    tree.Ancestor header hc.currentHeader ↔ hc.db.getCanonicalHash header.number = header.hash := by
  have notEmpty := tree.hash_ne_empty (sound.storedMem headerStored)
  rw [getCanonicalHash_eq_iff notEmpty]
  constructor
  · exact sound.branchIndexed
  · exact sound.ancestor_of_indexed headerStored

theorem closed_of_rewound {head : Nat} {after : ChainDb} (noFork : NoForkAbove tree hc head)
    (rewound : Rewound tree head hc.currentHeader hc.db after) : tree.Closed (Stored after) := by
  intro node nodeStored notRoot
  obtain ⟨nodeBefore, nodeKept⟩ := rewound.stored_iff.mp nodeStored
  obtain ⟨parent, parentBefore, link⟩ := sound.closed node nodeBefore notRoot
  refine ⟨parent, rewound.stored_iff.mpr ⟨parentBefore, ?_⟩, link⟩
  rintro ⟨path, above⟩
  have numEq : node.number = parent.number + 1 := number_of_parent link
  have nodeCanonical :=
    noFork parent node link nodeBefore above ((sound.ancestor_iff_canonical parentBefore).mp path)
  exact nodeKept ⟨(sound.ancestor_iff_canonical nodeBefore).mpr nodeCanonical, by omega⟩

theorem setHead {head : Nat} (noFork : NoForkAbove tree hc head) (delFn : DeleteCallback) :
    ∃ next, hc.setHead head delFn = .ok next ∧ Sound tree next := by
  have currentBound := tree.number_bound (sound.storedMem sound.currentStored)
  obtain ⟨after, last, res, path, lastNumber, rewound⟩ :=
    rewind_spec head delFn (uint64Size + 1) (by omega) sound.storedMem
      (sound.closed.root_ancestor sound.currentStored)
      (fun path => sound.closed.ancestor path sound.currentStored)
  let canonical := fun num =>
    if head < num ∧ num ≤ hc.currentHeader.number then none
    else hc.db.canonicalHash num
  let next : HeaderChain := { hc with
    db := (after.withCanonical canonical).put (.headHeaderHash last.hash)
    currentHeader := last
    currentHeaderHash := last.hash }
  have ret : hc.setHead head delFn = .ok next := by
    rw [HeaderChain.setHead, loopFuel, res]
    dsimp only
    rw [deleteCanonicalDown_eq, rewound.canonicalHash]
    rfl
  have storedBefore : ∀ {header}, Stored after header → Stored hc.db header :=
    fun headerStored => (rewound.stored_iff.mp headerStored).1
  have closed := sound.closed_of_rewound noFork rewound
  have lastStored : Stored after last := by
    refine rewound.stored_iff.mpr ⟨sound.closed.ancestor path sound.currentStored, ?_⟩
    rintro ⟨_, above⟩
    omega
  refine ⟨next, ret, ?_⟩
  -- Headers and total difficulties are those of `after`, only the index is new.
  exact {
    storedMem := fun {header} headerStored => sound.storedMem (storedBefore headerStored)
    closed := closed
    tdOfStored := by
      intro header headerStored
      obtain ⟨td, tdFound⟩ := sound.tdOfStored (storedBefore headerStored)
      rcases rewound.keptOrDeleted header.hash header.number with ⟨_, sameTd⟩ | ⟨deleted, _⟩
      · exact ⟨td, sameTd.trans tdFound⟩
      · cases deleted.symm.trans headerStored
    storedOfTd := by
      intro hash num td tdFound
      rcases rewound.keptOrDeleted hash num with ⟨sameHeader, sameTd⟩ | ⟨_, deleted⟩
      · obtain ⟨header, got⟩ := sound.storedOfTd (sameTd.symm.trans tdFound)
        exact ⟨header, sameHeader.trans got⟩
      · cases deleted.symm.trans tdFound
    genesisHeader := sound.genesisHeader
    currentStored := lastStored
    currentHash := rfl
    branchIndexed := by
      intro ancestor lower
      have below : ancestor.number ≤ last.number := number_le lower
      have kept : ¬ (head < ancestor.number ∧ ancestor.number ≤ hc.currentHeader.number) := by
        omega
      exact (if_neg kept).trans (sound.branchIndexed (lower.trans path))
    emptyAbove := by
      intro num higher
      have aboveLast : last.number < num := higher
      by_cases cleared : head < num ∧ num ≤ hc.currentHeader.number
      · exact if_pos cleared
      · exact (if_neg cleared).trans (sound.emptyAbove (by omega)) }

theorem call {req : Call tree} (noFork : RewindsNoFork hc req) :
    ∃ next, hc.call req = .ok next ∧ Sound tree next := by
  cases req with
  | writeHeader header coin => exact sound.insertHeader header.2 coin
  | setHead head delFn => exact sound.setHead noFork delFn

end

end Sound

/-- In every run whose rewinds delete no header that a side branch forks off from, every call
returns, and every stored header but genesis has its parent stored. -/
theorem rewinds_keep_parents (tree : HeaderTree) (genesisTd : Nat) (calls : List (Call tree))
    (noFork : EachStep call RewindsNoFork (atGenesis tree.root genesisTd) calls) :
    ∃ hc, run call (atGenesis tree.root genesisTd) calls = .ok hc ∧
      (∀ header, Stored hc.db header → header ≠ tree.root →
        ∃ parent, hc.db.getHeader header.parentHash (prev64 header.number) = some parent) ∧
      ∀ (header : tree.Node) (coin : Bool) (crash : Crash),
        hc.writeHeader header coin ≠ .error (.crash crash) := by
  obtain ⟨hc, ran, sound⟩ :=
    run_total (Sound tree) (fun sound safe => sound.call safe)
      (sound_atGenesis tree genesisTd) noFork
  refine ⟨hc, ran, ?_, ?_⟩
  · intro header headerStored notRoot
    obtain ⟨parent, hasParent, link⟩ := sound.closed header headerStored notRoot
    exact ⟨parent, HeaderTree.getHeader_of_parent link hasParent⟩
  · intro header coin crash crashed
    rcases sound.insertHeader_cases header.2 coin with unchanged | ⟨next, status, res, _⟩
    · rw [HeaderChain.insertHeader, crashed] at unchanged
      cases unchanged
    · rw [crashed] at res
      cases res

section

/-- A side branch is a bounded check on a tree of finitely many headers. -/
instance (genesis : Header) (headers : List Header)
    (rootNumber hashes numbers notEmpty bounded) (hc : HeaderChain) (head : Nat) :
    Decidable (NoForkAbove
      (HeaderTree.ofList genesis headers rootNumber hashes numbers notEmpty bounded) hc head) :=
  decidable_of_iff
    (∀ parent ∈ genesis :: headers, ∀ child ∈ genesis :: headers, child.parentHash = parent.hash →
      hc.db.getHeader child.hash child.number = some child →
      head < parent.number →
      hc.db.getCanonicalHash parent.number = parent.hash →
        hc.db.getCanonicalHash child.number = child.hash)
    ⟨fun checked parent child link =>
        checked parent link.1 child link.2.1 link.2.2,
      fun noFork parent parentMem child childMem link =>
        noFork parent child ⟨parentMem, childMem, link⟩⟩

instance (tree : HeaderTree) [∀ hc head, Decidable (NoForkAbove tree hc head)] (hc : HeaderChain)
    (req : Call tree) : Decidable (RewindsNoFork hc req) := by
  cases req <;> unfold RewindsNoFork <;> infer_instance

instance (tree : HeaderTree) (hc : HeaderChain) (req : Call tree) :
    Decidable (ParentPresent hc req) := by
  cases req <;> unfold ParentPresent <;> infer_instance

def forkGenesis : Header := { hash := 1, parentHash := emptyHash, difficulty := 1, number := 0 }

def forkFirst : Header := { hash := 2, parentHash := 1, difficulty := 2, number := 1 }

def forkSecond : Header := { hash := 3, parentHash := 2, difficulty := 3, number := 2 }

def forkSide : Header := { hash := 4, parentHash := 2, difficulty := 1, number := 2 }

def forkSideNext : Header := { hash := 5, parentHash := 4, difficulty := 5, number := 3 }

abbrev forkTree : HeaderTree :=
  HeaderTree.ofList forkGenesis [forkFirst, forkSecond, forkSide, forkSideNext]
    (by decide) (by decide) (by decide) (by decide) (by decide)

def forkCalls (head : Nat) : List (Call forkTree) :=
  [.writeHeader ⟨forkFirst, by decide⟩ false,
    .writeHeader ⟨forkSecond, by decide⟩ false,
    .writeHeader ⟨forkSide, by decide⟩ false,
    .setHead head .none]

def forkLateCall : Call forkTree := .writeHeader ⟨forkSideNext, by decide⟩ false

/-- Rewinding to genesis leaves the first side header without its parent, which the rewrite for the
next side header dereferences. -/
theorem setHead_orphans_fork :
    EachStep call ParentPresent (atGenesis forkTree.root 1) (forkCalls 0 ++ [forkLateCall]) ∧
      (∃ hc, run call (atGenesis forkTree.root 1) (forkCalls 0) = .ok hc ∧
        hc.db.getHeader forkSide.hash forkSide.number = some forkSide ∧
        hc.db.getHeader forkSide.parentHash (prev64 forkSide.number) = none) ∧
      run call (atGenesis forkTree.root 1) (forkCalls 0 ++ [forkLateCall]) =
        .error .nilDereference := by
  decide +kernel

/-- Rewinding only to the header where the side branch forks off is safe, and
the side branch can be extended. -/
theorem rewinds_keep_parents_fork :
    ∃ hc, run call (atGenesis forkTree.root 1) (forkCalls 1 ++ [forkLateCall]) = .ok hc ∧
      (∀ header, Stored hc.db header → header ≠ forkTree.root →
        ∃ parent, hc.db.getHeader header.parentHash (prev64 header.number) = some parent) ∧
      ∀ (header : forkTree.Node) (coin : Bool) (crash : Crash),
        hc.writeHeader header coin ≠ .error (.crash crash) :=
  rewinds_keep_parents forkTree 1 (forkCalls 1 ++ [forkLateCall]) (by decide +kernel)

end

end HeaderChain

end MoacVnode.Core
