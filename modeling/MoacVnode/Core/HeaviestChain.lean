import MoacVnode.Core.HeaderChainInvariant
import MoacVnode.Lib.Run

/-!
# The header chain follows the heaviest branch

Total difficulties add up along every branch, and no stored header outweighs
the current one.  Nodes that know each other's heads agree but for ties.
-/

namespace MoacVnode.Core

open Lib

abbrev HeaderTree.Node (tree : HeaderTree) := { header // tree.mem header }

namespace HeaderChain

variable {header : Header}

/-- One call of `WriteHeader` seen from outside: a header with an unknown
ancestor is rejected and leaves the chain as it is. -/
def insertHeader (hc : HeaderChain) (header : Header) (coin : Bool) : Except Crash HeaderChain :=
  match hc.writeHeader header coin with
  | .ok (next, _) => .ok next
  | .error .unknownAncestor => .ok hc
  | .error (.crash crash) => .error crash

def insertHeaders {tree : HeaderTree} :
    HeaderChain → List (tree.Node × Bool) → Except Crash HeaderChain :=
  run fun hc (header, coin) => hc.insertHeader header coin

variable {tree : HeaderTree} {hc next : HeaderChain} {coin : Bool} {status : WriteStatus}

theorem insertHeader_of_ok (res : hc.writeHeader header coin = .ok (next, status)) :
    hc.insertHeader header coin = .ok next := by
  rw [insertHeader, res]

theorem Sound.insertHeader_cases (sound : Sound tree hc) (headerMem : tree.mem header)
    (coin : Bool) :
    hc.insertHeader header coin = .ok hc ∨
      ∃ next status, hc.writeHeader header coin = .ok (next, status) ∧
        hc.insertHeader header coin = .ok next := by
  rcases sound.writeHeader_cases headerMem coin with
    ⟨_, rejected⟩ |
    ⟨parent, ptd, localTd, _, _, _, _, ⟨_, side⟩ | ⟨_, canonical, canon, _⟩⟩
  · exact .inl (by rw [HeaderChain.insertHeader, rejected])
  · exact .inr ⟨_, _, side, insertHeader_of_ok side⟩
  · exact .inr ⟨_, _, canon, insertHeader_of_ok canon⟩

theorem Sound.insertHeader (sound : Sound tree hc) (headerMem : tree.mem header) (coin : Bool) :
    ∃ next, hc.insertHeader header coin = .ok next ∧ Sound tree next := by
  rcases sound.insertHeader_cases headerMem coin with unchanged | ⟨next, status, res, written⟩
  · exact ⟨hc, unchanged, sound⟩
  · exact ⟨next, written, sound.writeHeader headerMem res⟩

def td (hc : HeaderChain) (header : Header) : Option Nat := hc.db.getTd header.hash header.number

/-- The headers of `hc` are still stored, with their total difficulties. -/
def Keeps (hc next : HeaderChain) : Prop :=
  ∀ {header}, Stored hc.db header → Stored next.db header ∧ next.td header = hc.td header

/-- Total difficulties add up and the current header has the largest one. -/
structure Heaviest (tree : HeaderTree) (hc : HeaderChain) : Prop
    extends Sound tree hc where
  tdAdds :
    ∀ {header parent td}, Stored hc.db header → tree.Parent parent header →
      hc.db.getTd parent.hash parent.number = some td →
        hc.db.getTd header.hash header.number = some (td + header.difficulty)
  heaviest :
    ∀ {header td currentTd}, Stored hc.db header → hc.db.getTd header.hash header.number = some td →
      hc.db.getTd hc.currentHeader.hash hc.currentHeader.number = some currentTd → td ≤ currentTd

namespace Heaviest

variable {header parent other : Header} {ptd : Nat}

theorem getTd_recordHeader_of_stored (heaviest : Heaviest tree hc)
    (link : tree.Parent parent header) (ptdFound : hc.db.getTd parent.hash parent.number = some ptd)
    (otherStored : Stored hc.db other) :
    (recordHeader hc.db header (header.difficulty + ptd)).getTd other.hash other.number =
      hc.db.getTd other.hash other.number := by
  rw [recordHeader_getTd]
  split
  · rename_i sameKey
    have isHeader : other = header :=
      tree.hash_injective (heaviest.storedMem otherStored) link.2.1 (Prod.mk.inj sameKey).2
    rw [isHeader] at otherStored ⊢
    rw [heaviest.tdAdds otherStored link ptdFound, Nat.add_comm]
  · rfl

private theorem getTd_recordHeader_self :
    (recordHeader hc.db header (header.difficulty + ptd)).getTd header.hash header.number =
      some (header.difficulty + ptd) := by
  rw [recordHeader_getTd, if_pos rfl]

section

variable (heaviest : Heaviest tree hc)

include heaviest

private theorem tdAdds_recordHeader (hasParent : Stored hc.db parent)
    (link : tree.Parent parent header)
    (ptdFound : hc.db.getTd parent.hash parent.number = some ptd) {upper lower : Header}
    {td : Nat} (upperStored : Stored (recordHeader hc.db header (header.difficulty + ptd)) upper)
    (upperLink : tree.Parent lower upper)
    (tdFound : (recordHeader hc.db header (header.difficulty + ptd)).getTd lower.hash lower.number
      = some td) :
    (recordHeader hc.db header (header.difficulty + ptd)).getTd upper.hash upper.number =
      some (td + upper.difficulty) := by
  have kept {other : Header} (otherStored : Stored hc.db other) :=
    heaviest.getTd_recordHeader_of_stored link ptdFound otherStored
  rcases (stored_recordHeader_iff heaviest.storedMem link.2.1).mp upperStored
    with isHeader | beforeStored
  · rw [isHeader] at upperLink ⊢
    rw [HashTree.parent_unique upperLink link, kept hasParent, ptdFound] at tdFound
    rw [getTd_recordHeader_self, ← Option.some.inj tdFound, Nat.add_comm]
  · have notRoot : upper ≠ tree.root := by
      intro isRoot
      rw [isRoot] at upperLink
      exact HashTree.not_parent_root lower upperLink
    obtain ⟨below, belowStored, belowLink⟩ := heaviest.closed upper beforeStored notRoot
    have sameParent := HashTree.parent_unique belowLink upperLink
    rw [sameParent] at belowStored
    rw [kept belowStored] at tdFound
    rw [kept beforeStored]
    exact heaviest.tdAdds beforeStored upperLink tdFound

section

variable (headerMem : tree.mem header)

include headerMem

theorem writeHeader (res : hc.writeHeader header coin = .ok (next, status)) :
    Heaviest tree next ∧ Keeps hc next := by
  have sound := heaviest.toSound.writeHeader headerMem res
  rcases heaviest.toSound.writeHeader_cases headerMem coin with
    ⟨_, rejected⟩ |
    ⟨parent, ptd, localTd, hasParent, link, ptdFound, localFound, effect⟩
  · rw [rejected] at res
    cases res
  have kept {other : Header} (otherStored : Stored hc.db other) :=
    heaviest.getTd_recordHeader_of_stored link ptdFound otherStored
  have storedIff := @stored_recordHeader_iff hc.db (header.difficulty + ptd) header tree
    heaviest.storedMem headerMem
  -- The new header weighs `header.difficulty + ptd`, all others weigh at most
  -- the old current header.
  have bounded : ∀ {other td}, Stored (recordHeader hc.db header (header.difficulty + ptd)) other →
      (recordHeader hc.db header (header.difficulty + ptd)).getTd
          other.hash other.number = some td →
        td = header.difficulty + ptd ∨ td ≤ localTd := by
    intro other td otherStored tdFound
    rcases storedIff.mp otherStored with isHeader | beforeStored
    · rw [isHeader, getTd_recordHeader_self] at tdFound
      exact .inl (Option.some.inj tdFound).symm
    · rw [kept beforeStored] at tdFound
      exact .inr (heaviest.heaviest beforeStored tdFound localFound)
  rcases effect with ⟨loses, side⟩ | ⟨wins, canonical, canon, _, _⟩
  · rw [side] at res
    cases res
    have lighter : header.difficulty + ptd ≤ localTd :=
      Nat.le_of_not_lt fun heavier => loses (.inl heavier)
    have currentTd := (kept heaviest.currentStored).trans localFound
    refine ⟨⟨sound, heaviest.tdAdds_recordHeader hasParent link ptdFound, ?_⟩,
      fun stored => ⟨storedIff.mpr (.inr stored), kept stored⟩⟩
    intro other td current otherStored tdFound currentFound
    rw [currentTd] at currentFound
    cases currentFound
    rcases bounded otherStored tdFound with isNew | atMost
    · omega
    · exact atMost
  · rw [canon] at res
    cases res
    have heavier : localTd ≤ header.difficulty + ptd := by
      rcases wins with more | ⟨tie, _⟩
      · omega
      · omega
    refine ⟨⟨sound, heaviest.tdAdds_recordHeader hasParent link ptdFound, ?_⟩,
      fun stored => ⟨storedIff.mpr (.inr stored), kept stored⟩⟩
    intro other td current otherStored tdFound currentFound
    have isCurrent : header.difficulty + ptd = current :=
      Option.some.inj (getTd_recordHeader_self.symm.trans currentFound)
    rcases bounded otherStored tdFound with isNew | atMost
    · omega
    · omega

theorem insertHeader (coin : Bool) :
    ∃ next, hc.insertHeader header coin = .ok next ∧ Heaviest tree next ∧ Keeps hc next := by
  rcases heaviest.toSound.insertHeader_cases headerMem coin with
    unchanged | ⟨next, status, res, written⟩
  · exact ⟨hc, unchanged, heaviest, fun stored => ⟨stored, rfl⟩⟩
  · exact ⟨next, written, heaviest.writeHeader headerMem res⟩

theorem insertHeader_effect (coin : Bool) {localTd : Nat}
    (parentTd : hc.db.getTd header.parentHash (prev64 header.number) = some ptd)
    (localFound : hc.db.getTd hc.currentHeader.hash hc.currentHeader.number = some localTd) :
    ∃ next parent, hc.insertHeader header coin = .ok next ∧
      Heaviest tree next ∧ tree.Parent parent header ∧
      hc.db.getTd parent.hash parent.number = some ptd ∧
      (∀ hash num,
        next.db.getTd hash num =
          (recordHeader hc.db header (header.difficulty + ptd)).getTd hash num) ∧
      (∀ {other}, Stored next.db other ↔ other = header ∨ Stored hc.db other) ∧
      next.currentHeader = if Wins localTd (header.difficulty + ptd) coin then header
        else hc.currentHeader := by
  have storedIff := @stored_recordHeader_iff hc.db (header.difficulty + ptd) header tree
    heaviest.storedMem headerMem
  rcases heaviest.toSound.writeHeader_cases headerMem coin with
    ⟨missing, _⟩ |
    ⟨parent, otherPtd, otherLocal, _, link, ptdFound, otherLocalFound, effect⟩
  · obtain ⟨parent, got⟩ := heaviest.storedOfTd parentTd
    rw [missing] at got
    cases got
  have parentHash : header.parentHash = parent.hash := link.2.2
  rw [parentHash, HeaderTree.prev64_of_parent link, ptdFound] at parentTd
  rw [otherLocalFound] at localFound
  cases parentTd
  cases localFound
  rcases effect with ⟨loses, side⟩ | ⟨wins, canonical, canon, _, _⟩
  · exact ⟨_, parent, insertHeader_of_ok side, (heaviest.writeHeader headerMem side).1,
      link, ptdFound, fun _ _ => rfl, storedIff, (if_neg loses).symm⟩
  · exact ⟨_, parent, insertHeader_of_ok canon, (heaviest.writeHeader headerMem canon).1,
      link, ptdFound, fun _ _ => rfl, storedIff, (if_pos wins).symm⟩

end

theorem insertHeaders_keeps (writes : List (tree.Node × Bool)) :
    ∃ last, hc.insertHeaders writes = .ok last ∧ Heaviest tree last ∧ Keeps hc last := by
  refine run_total (fun last => Heaviest tree last ∧ Keeps hc last) ?_
    ⟨heaviest, fun stored => ⟨stored, rfl⟩⟩ (eachStep_of_forall (fun _ _ => trivial) hc writes)
  rintro mid ⟨header, coin⟩ ⟨kept, keeps⟩ _
  obtain ⟨next, taken, nextKept, nextKeeps⟩ := kept.insertHeader header.2 coin
  refine ⟨next, taken, nextKept, fun stored => ?_⟩
  obtain ⟨middleStored, middleTd⟩ := keeps stored
  obtain ⟨nextStored, nextTd⟩ := nextKeeps middleStored
  exact ⟨nextStored, nextTd.trans middleTd⟩

theorem insertHeaders (writes : List (tree.Node × Bool)) :
    ∃ last, hc.insertHeaders writes = .ok last ∧ Heaviest tree last ∧
      ∃ before after,
        hc.db.getTd hc.currentHeader.hash hc.currentHeader.number = some before ∧
        last.db.getTd last.currentHeader.hash last.currentHeader.number = some after ∧
        before ≤ after := by
  obtain ⟨last, ran, kept, keeps⟩ := heaviest.insertHeaders_keeps writes
  obtain ⟨before, beforeFound⟩ := heaviest.tdOfStored heaviest.currentStored
  obtain ⟨after, afterFound⟩ := kept.tdOfStored kept.currentStored
  obtain ⟨stored, sameTd⟩ := keeps heaviest.currentStored
  exact ⟨last, ran, kept, before, after, beforeFound, afterFound,
    kept.heaviest stored (sameTd.trans beforeFound) afterFound⟩

theorem td_agrees {other : HeaderChain} (otherKept : Heaviest tree other)
    (sameRoot : hc.td tree.root = other.td tree.root) (path : tree.Ancestor tree.root header)
    (stored : Stored hc.db header) (otherStored : Stored other.db header) :
    hc.td header = other.td header := by
  induction path with
  | refl => exact sameRoot
  | tail _ link ih =>
    have hasParent := heaviest.closed.ancestor (.of_parent link) stored
    have otherParent := otherKept.closed.ancestor (.of_parent link) otherStored
    obtain ⟨td, got⟩ := heaviest.tdOfStored hasParent
    have otherFound := (ih hasParent otherParent).symm.trans got
    exact (heaviest.tdAdds stored link got).trans
      (otherKept.tdAdds otherStored link otherFound).symm

end

end Heaviest

theorem heaviest_atGenesis (tree : HeaderTree) (td : Nat) :
    Heaviest tree (atGenesis tree.root td) where
  toSound := sound_atGenesis tree td
  tdAdds := by
    intro header parent parentTd headerStored link
    rw [(stored_atGenesis_iff _ _).mp headerStored] at link
    exact False.elim (HashTree.not_parent_root parent link)
  heaviest := by
    intro header headerTd currentTd headerStored headerFound currentFound
    rw [(stored_atGenesis_iff _ _).mp headerStored] at headerFound
    exact Nat.le_of_eq (Option.some.inj (headerFound.symm.trans currentFound))

/-- After any `WriteHeader` calls on any tree, total difficulties add up, the current header is a
heaviest one, its total difficulty has never decreased, and the canonical index is its branch. -/
theorem heaviest_chain (tree : HeaderTree) (genesisTd : Nat)
    (prior later : List (tree.Node × Bool)) :
    ∃ before after : HeaderChain,
      (atGenesis tree.root genesisTd).insertHeaders prior = .ok before ∧
      before.insertHeaders later = .ok after ∧
      (∀ header, Stored after.db header → header ≠ tree.root →
        ∃ parent parentTd, Stored after.db parent ∧ tree.Parent parent header ∧
          after.db.getTd parent.hash parent.number = some parentTd ∧
          after.db.getTd header.hash header.number = some (parentTd + header.difficulty)) ∧
      (∃ beforeTd afterTd,
        before.db.getTd before.currentHeader.hash before.currentHeader.number = some beforeTd ∧
        after.db.getTd after.currentHeader.hash after.currentHeader.number = some afterTd ∧
        beforeTd ≤ afterTd ∧
        ∀ header, Stored after.db header →
          ∃ td, after.db.getTd header.hash header.number = some td ∧ td ≤ afterTd) ∧
      (∀ num ≤ after.currentHeader.number,
        ∃ ancestor, tree.Ancestor ancestor after.currentHeader ∧
          ancestor.number = num ∧
          after.db.getCanonicalHash num = ancestor.hash) ∧
      ∀ num > after.currentHeader.number, after.db.getCanonicalHash num = emptyHash := by
  obtain ⟨before, ran, beforeHeaviest, _⟩ := (heaviest_atGenesis tree genesisTd).insertHeaders prior
  obtain ⟨after, continued, heaviest, beforeTd, afterTd, beforeFound,
    afterFound, grows⟩ := beforeHeaviest.insertHeaders later
  refine ⟨before, after, ran, continued, ?_,
    ⟨beforeTd, afterTd, beforeFound, afterFound, grows, ?_⟩, ?_, ?_⟩
  · intro header headerStored notRoot
    obtain ⟨parent, hasParent, link⟩ := heaviest.closed header headerStored notRoot
    obtain ⟨parentTd, parentFound⟩ := heaviest.tdOfStored hasParent
    exact ⟨parent, parentTd, hasParent, link, parentFound,
      heaviest.tdAdds headerStored link parentFound⟩
  · intro header headerStored
    obtain ⟨td, tdFound⟩ := heaviest.tdOfStored headerStored
    exact ⟨td, tdFound, heaviest.heaviest headerStored tdFound afterFound⟩
  · intro num below
    obtain ⟨ancestor, _, path, numEq⟩ :=
      heaviest.closed.exists_ancestor heaviest.currentStored below
    have ancestorNumber : ancestor.number = num := numEq
    refine ⟨ancestor, path, ancestorNumber, ?_⟩
    rw [ChainDb.getCanonicalHash, ← ancestorNumber, heaviest.branchIndexed path]
    rfl
  · intro num higher
    rw [ChainDb.getCanonicalHash, heaviest.emptyAbove higher]
    rfl

/-- Two nodes of one genesis, whatever they write and in whichever order, give each header that both
store the same total difficulty.  Once each stores the other's head, the heads weigh the same, and
unless another header does too, head and canonical index are the same. -/
theorem nodes_converge (tree : HeaderTree) (genesisTd : Nat)
    (first second : List (tree.Node × Bool)) :
    ∃ left right : HeaderChain,
      (atGenesis tree.root genesisTd).insertHeaders first = .ok left ∧
      (atGenesis tree.root genesisTd).insertHeaders second = .ok right ∧
      (∀ header, Stored left.db header → Stored right.db header →
        left.td header = right.td header) ∧
      (Stored right.db left.currentHeader → Stored left.db right.currentHeader →
        left.td left.currentHeader = right.td right.currentHeader ∧
        ((∀ header, Stored left.db header → left.td header = left.td left.currentHeader →
            header = left.currentHeader) →
          right.currentHeader = left.currentHeader ∧
          right.db.canonicalHash = left.db.canonicalHash)) := by
  have start := heaviest_atGenesis tree genesisTd
  obtain ⟨left, leftRun, leftKept, leftKeeps⟩ := start.insertHeaders_keeps first
  obtain ⟨right, rightRun, rightKept, rightKeeps⟩ := start.insertHeaders_keeps second
  have agrees : ∀ header, Stored left.db header → Stored right.db header →
      left.td header = right.td header := by
    intro header leftStored
    have sameRoot := (leftKeeps start.currentStored).2.trans (rightKeeps start.currentStored).2.symm
    exact leftKept.td_agrees rightKept sameRoot
      (leftKept.closed.root_ancestor leftStored) leftStored
  refine ⟨left, right, leftRun, rightRun, agrees, ?_⟩
  intro leftKnown rightKnown
  obtain ⟨leftTd, leftFound⟩ := leftKept.tdOfStored leftKept.currentStored
  obtain ⟨rightTd, rightFound⟩ := rightKept.tdOfStored rightKept.currentStored
  have leftAgrees := agrees _ leftKept.currentStored leftKnown
  have rightAgrees := agrees _ rightKnown rightKept.currentStored
  have upper := leftKept.heaviest rightKnown (rightAgrees.trans rightFound) leftFound
  have lower := rightKept.heaviest leftKnown (leftAgrees.symm.trans leftFound) rightFound
  have sameTd : left.td left.currentHeader = right.td right.currentHeader :=
    leftFound.trans (Nat.le_antisymm lower upper ▸ rightFound.symm)
  refine ⟨sameTd, fun noTie => ?_⟩
  have sameHead := noTie _ rightKnown (rightAgrees.trans sameTd.symm)
  refine ⟨sameHead, funext fun num => ?_⟩
  by_cases below : num ≤ left.currentHeader.number
  · obtain ⟨ancestor, _, path, rfl⟩ := leftKept.closed.exists_ancestor leftKept.currentStored below
    exact (rightKept.branchIndexed (sameHead ▸ path)).trans (leftKept.branchIndexed path).symm
  · have higher : left.currentHeader.number < num := by omega
    rw [leftKept.emptyAbove higher, rightKept.emptyAbove (sameHead ▸ higher)]

end HeaderChain

end MoacVnode.Core
