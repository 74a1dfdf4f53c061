import MoacVnode.Core.Reorg

/-!
# What a successful block write does

`WriteBlockAndState` has many exits.
-/

namespace MoacVnode.Core

open Lib HeaderChain
open Function (update update_apply)
open Except (ok)

namespace BlockChain

variable {lib : TypesLib} {bc next : BlockChain} {req : BlockWrite} {fuel : Nat}
  {lookupFails : Hash → Nat → Bool} {oldBlock newBlock : Block} {status : WriteStatus}
  {localTd externTd ptd : Nat} {ready : BlockChain} {error : WriteBlockError}

theorem reorg_ok (res : reorg lib lookupFails fuel bc oldBlock newBlock = .ok (next, none)) :
    ∃ oldChain newChain switched,
      findBranches bc.db fuel oldBlock newBlock = .ok (.ok ⟨oldChain, newChain⟩) ∧
      insertBranch lookupFails bc newChain = (switched, none) ∧
      next = switched.deleteTxLookupEntries
        (lib.txDifference (blockTransactions oldChain) (blockTransactions newChain)) := by
  unfold reorg at res
  cases walked : findBranches bc.db fuel oldBlock newBlock with
  | error crash =>
    rw [walked] at res
    cases res
  | ok got =>
    rw [walked] at res
    cases got with
    | error error => cases res
    | ok branches =>
      have switch := ok.inj res
      unfold switchBranches at switch
      cases inserted : insertBranch lookupFails bc branches.newChain with
      | mk switched failure =>
        rw [inserted] at switch
        cases failure with
        | some error => cases switch
        | none =>
          exact ⟨branches.oldChain, branches.newChain, switched, rfl,
            inserted, (Prod.mk.inj switch).1.symm⟩

theorem reorg_of_branches {branches : Branches}
    (walked : findBranches bc.db fuel oldBlock newBlock = .ok (.ok branches))
    (full : ∀ hash idx, lookupFails hash idx = false) :
    ∃ ready, reorg lib lookupFails fuel bc oldBlock newBlock = .ok (ready, none) := by
  refine ⟨(switchBranches lib lookupFails bc branches).1, ?_⟩
  rw [reorg, walked, ← switchBranches_complete full lib bc branches]

/-- How the chain is made ready for a new head. -/
inductive Prepared (lib : TypesLib) (fuel : Nat) (bc : BlockChain)
    (req : BlockWrite) : BlockChain → Prop
  | extension (isHead : req.block.parentHash = bc.currentBlock.hash) :
      Prepared lib fuel bc req bc
  | reorganisation {next : BlockChain} (notHead : req.block.parentHash ≠ bc.currentBlock.hash)
      (res : reorg lib req.lookupFails fuel bc bc.currentBlock req.block = .ok (next, none)) :
      Prepared lib fuel bc req next

def becomeHead (bc : BlockChain) (block : Block) : BlockChain :=
  (bc.write (writeBlock block ++ writeTxLookupEntries block)).insert block false

theorem finishCanon_ok (res : bc.finishCanon req = (next, .ok status)) :
    next = bc.becomeHead req.block ∧ status = .canonStatTy := by
  unfold finishCanon at res
  split at res
  · cases res
  split at res
  · cases res
  split at res
  · cases res
  cases res
  exact ⟨rfl, rfl⟩

theorem chooseFork_ok (res : chooseFork lib fuel bc req localTd externTd = .ok (next, .ok status)) :
    (¬ Wins localTd externTd req.coin ∧
      status = .sideStatTy ∧ next = bc.write (writeBlock req.block)) ∨
    (Wins localTd externTd req.coin ∧
      status = .canonStatTy ∧
      ∃ ready, Prepared lib fuel bc req ready ∧ next = ready.becomeHead req.block) := by
  unfold chooseFork at res
  by_cases wins : Wins localTd externTd req.coin
  · rw [if_pos wins] at res
    by_cases notHead : req.block.parentHash ≠ bc.currentBlock.hash
    · rw [if_pos notHead] at res
      cases reorganised : reorg lib req.lookupFails fuel bc bc.currentBlock req.block with
      | error crash =>
        rw [reorganised] at res
        cases res
      | ok outcome =>
        obtain ⟨ready, failure⟩ := outcome
        rw [reorganised] at res
        cases failure with
        | some error => cases res
        | none =>
          obtain ⟨isNext, isCanon⟩ := finishCanon_ok (ok.inj res)
          exact .inr ⟨wins, isCanon, ready, .reorganisation notHead reorganised, isNext⟩
    · rw [if_neg notHead] at res
      obtain ⟨isNext, isCanon⟩ := finishCanon_ok (ok.inj res)
      exact .inr ⟨wins, isCanon, bc, .extension (Classical.not_not.mp notHead), isNext⟩
  · rw [if_neg wins] at res
    have finished := ok.inj res
    unfold finishSide at finished
    split at finished
    · cases finished
    · cases finished
      exact .inl ⟨wins, rfl, rfl⟩

theorem chooseFork_returns
    (reorganised : reorg lib req.lookupFails fuel bc bc.currentBlock req.block = .ok
      (ready, none)) (batchLookup : req.batchLookupFails = false)
    (preimages : req.preimagesFail = false) (batch : req.batchFails = false) :
    ∃ next status, chooseFork lib fuel bc req localTd externTd = .ok (next, .ok status) := by
  have finished : ∀ bc : BlockChain,
      bc.finishCanon req = (bc.becomeHead req.block, .ok .canonStatTy) := by
    intro bc
    simp [finishCanon, becomeHead, batchLookup, preimages, batch]
  unfold chooseFork
  by_cases wins : Wins localTd externTd req.coin
  · rw [if_pos wins]
    by_cases notHead : req.block.parentHash ≠ bc.currentBlock.hash
    · rw [if_pos notHead, reorganised]
      exact ⟨_, _, congrArg ok (finished ready)⟩
    · rw [if_neg notHead]
      exact ⟨_, _, congrArg ok (finished bc)⟩
  · rw [if_neg wins, finishSide, if_neg (by simp [batch])]
    exact ⟨_, _, rfl⟩

def withTd (bc : BlockChain) (block : Block) (td : Nat) : BlockChain :=
  bc.write [.td block.number block.hash td]

theorem findBranches_withTd (bc : BlockChain) (block : Block) (td fuel : Nat)
    (oldBlock newBlock : Block) :
    findBranches (bc.withTd block td).db fuel oldBlock newBlock =
      findBranches bc.db fuel oldBlock newBlock := by
  have same (hash : Hash) (num : Nat) :
      (bc.withTd block td).db.getBlock hash num = bc.db.getBlock hash num := rfl
  unfold findBranches
  simp only [reduceTo_congr same, findCommon_congr same]

theorem writeBlockAndState_ok (res : bc.writeBlockAndState lib req = .ok (next, .ok status)) :
    (bc.hasBlock req.block.hash req.block.number = true ∧ status = .nonStatTy ∧ next = bc) ∨
    ∃ ptd localTd,
      bc.db.getTd req.block.parentHash (prev64 req.block.number) = some ptd ∧
      bc.hasBlock req.block.hash req.block.number = false ∧
      bc.db.getTd bc.currentBlock.hash bc.currentBlock.number = some localTd ∧
      ((¬ Wins localTd (req.block.difficulty + ptd) req.coin ∧
          status = .sideStatTy ∧
          next = (bc.withTd req.block (req.block.difficulty + ptd)).write (writeBlock req.block)) ∨
        (Wins localTd (req.block.difficulty + ptd) req.coin ∧
          status = .canonStatTy ∧
          ∃ ready,
            Prepared lib loopFuel (bc.withTd req.block (req.block.difficulty + ptd)) req ready ∧
            next = ready.becomeHead req.block)) := by
  unfold writeBlockAndState at res
  dsimp only at res
  cases parentTd : bc.db.getTd req.block.parentHash (prev64 req.block.number) with
  | none =>
    rw [parentTd] at res
    cases res
  | some ptd =>
    rw [parentTd] at res
    dsimp only at res
    cases known : bc.hasBlock req.block.hash req.block.number with
    | true =>
      rw [if_pos known] at res
      cases res
      exact .inl ⟨rfl, rfl, rfl⟩
    | false =>
      rw [if_neg (by simp [known])] at res
      split at res
      · cases res
      split at res
      · cases res
      · cases res
      · rename_i localTd _ localFound
        exact .inr ⟨ptd, localTd, rfl, rfl, localFound, chooseFork_ok res⟩

/-- The database holds one more block with its total difficulty. -/
structure AddsBlock (block : Block) (td : Nat) (before after : ChainDb) :
    Prop where
  headers : after.headers = update before.headers (block.number, block.hash) (some block.header)
  bodies : after.bodies = update before.bodies (block.number, block.hash) (some block.transactions)
  tds : after.tds = update before.tds (block.number, block.hash) (some td)

namespace AddsBlock

variable {tree : BlockTree} {block other : Block} {td : Nat} {before after : ChainDb}

section

variable (adds : AddsBlock block td before after)

include adds

theorem getTd (hash : Hash) (num : Nat) :
    after.getTd hash num = if (num, hash) = (block.number, block.hash) then some td
      else before.getTd hash num := by
  rw [ChainDb.getTd, adds.tds]
  exact update_apply _ _ _ _

theorem getBody (hash : Hash) (num : Nat) :
    after.getBody hash num =
      if (num, hash) = (block.number, block.hash) then some block.transactions
      else before.getBody hash num := by
  rw [ChainDb.getBody, adds.bodies]
  exact update_apply _ _ _ _

theorem getHeader (hash : Hash) (num : Nat) :
    after.getHeader hash num =
      if (num, hash) = (block.number, block.hash) then some block.header
      else before.getHeader hash num := by
  rw [ChainDb.getHeader, adds.headers]
  exact update_apply _ _ _ _

theorem storedBlock_self : StoredBlock after block := by
  refine ChainDb.getBlock_eq_some.mpr ⟨?_, ?_⟩
  · rw [adds.getHeader, if_pos rfl]
  · rw [adds.getBody, if_pos rfl]

theorem storedBlock_iff (storedMem : ∀ {block}, StoredBlock before block → tree.mem block)
    (blockMem : tree.mem block) :
    StoredBlock after other ↔ other = block ∨ StoredBlock before other := by
  by_cases sameKey : (other.number, other.hash) = (block.number, block.hash)
  · constructor
    · intro otherStored
      obtain ⟨sameHeader, sameBody⟩ := ChainDb.getBlock_eq_some.mp otherStored
      rw [adds.getHeader, if_pos sameKey] at sameHeader
      rw [adds.getBody, if_pos sameKey] at sameBody
      left
      cases other
      cases block
      cases sameHeader
      cases sameBody
      rfl
    · rintro (isBlock | otherStored)
      · rw [isBlock]
        exact adds.storedBlock_self
      · rw [tree.hash_injective (storedMem otherStored) blockMem (Prod.mk.inj sameKey).2]
        exact adds.storedBlock_self
  · have notBlock : other ≠ block := by
      rintro rfl
      exact sameKey rfl
    unfold StoredBlock
    rw [ChainDb.getBlock_eq_some, ChainDb.getBlock_eq_some, adds.getHeader,
      adds.getBody, if_neg sameKey, if_neg sameKey]
    simp [notBlock]

end

end AddsBlock

theorem sameBlocks_of_prepared (prepared : Prepared lib fuel bc req ready) :
    SameBlocks bc.db ready.db := by
  cases prepared with
  | extension => exact SameBlocks.refl _
  | reorganisation notHead res =>
    obtain ⟨oldChain, newChain, switched, _, inserted, isReady⟩ := reorg_ok res
    have kept := sameBlocks_insertBranch inserted
    rw [isReady, deleteTxLookupEntries_eq]
    exact ⟨kept.headers, kept.bodies, kept.tds⟩

theorem write_append (db : ChainDb) (first second : List Put) :
    db.write (first ++ second) = (db.write first).write second :=
  List.foldl_append

def headBatch (bc : BlockChain) (block : Block) : BlockChain :=
  bc.withDb ((bc.db.write (writeBlock block)).withLookups
    (updates bc.db.lookups (txLookupEntries block)))

theorem becomeHead_eq (bc : BlockChain) (block : Block) :
    bc.becomeHead block = (bc.headBatch block).insert block false := by
  unfold becomeHead headBatch write
  rw [write_append, writeTxLookupEntries, write_lookups]
  rfl

theorem addsBlock_canon {block : Block} {td : Nat}
    (same : SameBlocks (bc.withTd block td).db ready.db) :
    AddsBlock block td bc.db (ready.becomeHead block).db := by
  have head := sameBlocks_insert (ready.headBatch block) block false
  rw [← becomeHead_eq] at head
  constructor
  · rw [head.headers]
    change update ready.db.headers _ _ = _
    rw [same.headers]
    rfl
  · rw [head.bodies]
    change update ready.db.bodies _ _ = _
    rw [same.bodies]
    rfl
  · rw [head.tds]
    change ready.db.tds = _
    rw [same.tds]
    rfl

def reinserted (bc : BlockChain) (req : BlockWrite) : List Block :=
  let block := req.block
  match bc.db.getTd block.parentHash (prev64 block.number),
    bc.db.getTd bc.currentBlock.hash bc.currentBlock.number,
    prepareError req with
  | some ptd, some localTd, none =>
    if Wins localTd (block.difficulty + ptd) req.coin ∧
        block.parentHash ≠ bc.currentBlock.hash then
      match findBranches bc.db loopFuel bc.currentBlock block with
      | .ok (.ok branches) => branches.newChain
      | _ => []
    else []
  | _, _, _ => []

/-- The writes that can fail once the chain is ready for its new head. -/
def FailsLate (req : BlockWrite) : Prop :=
  req.batchLookupFails = true ∨ req.preimagesFail = true ∨ req.batchFails = true

structure LateFailure (lib : TypesLib) (bc : BlockChain)
    (req : BlockWrite) (branches : Branches) (next : BlockChain) :
    Prop where
  leaves : next = (switchBranches lib req.lookupFails bc branches).1
  failure : (switchBranches lib req.lookupFails bc branches).2 ≠ none ∨ FailsLate req

theorem switchBranches_of_nil {branches : Branches} (none : branches.newChain = [])
    (lookupFails : Hash → Nat → Bool) : ∃ lookups,
      (switchBranches lib lookupFails bc branches).1 = bc.withDb (bc.db.withLookups lookups) := by
  unfold switchBranches
  rw [none]
  dsimp only [insertBranch]
  rw [deleteTxLookupEntries_eq]
  exact ⟨_, rfl⟩

theorem finishCanon_error (res : bc.finishCanon req = (next, .error error)) :
    next = bc ∧ FailsLate req := by
  unfold finishCanon at res
  split at res
  · rename_i failed
    cases res
    exact ⟨rfl, Or.inl failed⟩
  split at res
  · rename_i failed
    cases res
    exact ⟨rfl, Or.inr (.inl failed)⟩
  split at res
  · rename_i failed
    cases res
    exact ⟨rfl, Or.inr (.inr failed)⟩
  cases res

theorem chooseFork_error
    (res : chooseFork lib fuel bc req localTd externTd = .ok (next, .error error)) :
    (next = bc ∧
      ∀ branches, Wins localTd externTd req.coin →
        req.block.parentHash ≠ bc.currentBlock.hash →
        findBranches bc.db fuel bc.currentBlock req.block ≠ .ok (.ok branches)) ∨
    (Wins localTd externTd req.coin ∧
      req.block.parentHash ≠ bc.currentBlock.hash ∧
      ∃ branches,
        findBranches bc.db fuel bc.currentBlock req.block = .ok (.ok branches) ∧
        LateFailure lib bc req branches next) := by
  unfold chooseFork at res
  by_cases wins : Wins localTd externTd req.coin
  · rw [if_pos wins] at res
    by_cases notHead : req.block.parentHash ≠ bc.currentBlock.hash
    · rw [if_pos notHead, reorg] at res
      cases walked : findBranches bc.db fuel bc.currentBlock req.block with
      | error crash =>
        rw [walked] at res
        cases res
      | ok got =>
        rw [walked] at res
        cases got with
        | error error =>
          cases res
          exact .inl ⟨rfl, fun _ _ _ impossible => by cases impossible⟩
        | ok branches =>
          dsimp only at res
          refine .inr ⟨wins, notHead, branches, rfl, ?_⟩
          cases switched : switchBranches lib req.lookupFails bc branches with
          | mk ready failure =>
            rw [switched] at res
            cases failure with
            | some error =>
              cases res
              exact ⟨by rw [switched], Or.inl (by simp [switched])⟩
            | none =>
              obtain ⟨isReady, late⟩ := finishCanon_error (ok.inj res)
              exact ⟨by rw [switched, isReady], Or.inr late⟩
    · rw [if_neg notHead] at res
      exact .inl ⟨(finishCanon_error (ok.inj res)).1, fun _ _ isFork => False.elim (notHead isFork)⟩
  · rw [if_neg wins] at res
    have finished := ok.inj res
    unfold finishSide at finished
    split at finished
    · cases finished
      exact .inl ⟨rfl, fun _ isWin => False.elim (wins isWin)⟩
    · cases finished

theorem writeBlockAndState_error (res : bc.writeBlockAndState lib req = .ok (next, .error error)) :
    ((bc.db.getTd req.block.parentHash (prev64 req.block.number) = none ∨
        req.tdFails = true) ∧ next = bc) ∨
    ∃ ptd,
      bc.db.getTd req.block.parentHash (prev64 req.block.number) = some ptd ∧
      req.tdFails = false ∧
      ((next = bc.withTd req.block (req.block.difficulty + ptd) ∧
          reinserted bc req = []) ∨
        ∃ branches,
          findBranches bc.db loopFuel bc.currentBlock req.block = .ok (.ok branches) ∧
          reinserted bc req = branches.newChain ∧
          LateFailure lib (bc.withTd req.block (req.block.difficulty + ptd))
            req branches next) := by
  unfold writeBlockAndState at res
  dsimp only at res
  unfold reinserted
  dsimp only
  cases parentTd : bc.db.getTd req.block.parentHash (prev64 req.block.number) with
  | none =>
    rw [parentTd] at res
    cases res
    exact .inl ⟨Or.inl rfl, rfl⟩
  | some ptd =>
    rw [parentTd] at res
    dsimp only at res
    split at res
    · cases res
    cases tdFails : req.tdFails with
    | true =>
      rw [if_pos tdFails] at res
      cases res
      exact .inl ⟨Or.inr rfl, rfl⟩
    | false =>
      rw [if_neg (by simp [tdFails])] at res
      refine .inr ⟨ptd, rfl, rfl, ?_⟩
      split at res
      · rename_i failure failed
        cases res
        rw [failed]
        refine .inl ⟨rfl, ?_⟩
        split
        · rename_i impossible
          cases impossible
        · rfl
      · cases res
      · rename_i localTd prepared localFound
        rw [prepared, localFound]
        dsimp only
        rcases chooseFork_error res with
          ⟨unchanged, notWalked⟩ | ⟨wins, notHead, branches, walked, late⟩
        · refine .inl ⟨unchanged, ?_⟩
          split
          · rename_i forks
            split
            · rename_i branches got
              exact False.elim (notWalked branches forks.1 forks.2
                ((findBranches_withTd _ _ _ _ _ _).trans got))
            · rfl
          · rfl
        · have got : findBranches bc.db loopFuel bc.currentBlock req.block = .ok (.ok branches) :=
            (findBranches_withTd _ _ _ _ _ _).symm.trans walked
          refine .inr ⟨branches, got, ?_, late⟩
          rw [if_pos ⟨wins, notHead⟩, got]

end BlockChain

end MoacVnode.Core
