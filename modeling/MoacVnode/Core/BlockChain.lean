import MoacVnode.Core.HeaderChain

/-!
# The block chain

`BlockChain` of `blockchain.go`: writing a block with its state, the
reorganisation it may cause and the insertion of a new head.

A call of `WriteBlockAndState` depends on what the fallible calls inside it
return.  These outcomes are inputs of the model, so that every exit of the
function can be taken.  A batch that fails to be written leaves the database as
it was; a failing `Put` behind `log.Crit` ends the process and is not modelled.
-/

namespace MoacVnode.Core

/-- The set operation of the type library that a reorganisation uses. -/
structure TypesLib where
  txDifference : List Transaction → List Transaction → List Transaction
  mem_txDifference :
    ∀ {kept removed tx},
      tx ∈ txDifference kept removed ↔ tx ∈ kept ∧ tx.hash ∉ removed.map Transaction.hash

def TypesLib.byHash : TypesLib where
  txDifference kept removed :=
    kept.filter fun tx => tx.hash ∉ removed.map Transaction.hash
  mem_txDifference := by
    intro kept removed tx
    rw [List.mem_filter, decide_eq_true_eq]

inductive WriteBlockError where
  | unknownAncestor
  | writeTd
  | writeBlock
  /-- "State commit diff(block=%d), local root: %x, block root: %x", where the
  source prints the block's hash as its root. -/
  | stateCommitDiff (num : Nat) (localRoot : Option Hash) (blockRoot : Hash)
  | writeReceipts
  | invalidOldChain
  | invalidNewChain
  | writeTxLookup
  | writePreimages
  | writeBatch
  deriving DecidableEq, Repr

/-- The arguments of one call and the outcomes of the fallible calls in it. -/
structure BlockWrite where
  block : Block
  /-- `mrand.Float64() < 0.5`. -/
  coin : Bool := false
  tdFails : Bool := false
  blockFails : Bool := false
  /-- The root `state.CommitTo` returns, `none` on an error. -/
  commitRoot : Option Hash
  receiptsFail : Bool := false
  /-- Writing the lookup entry of a block's transaction to the database. -/
  lookupFails : Hash → Nat → Bool := fun _ _ => false
  batchLookupFails : Bool := false
  preimagesFail : Bool := false
  batchFails : Bool := false

def HeaderChain.setCurrentHeader (hc : HeaderChain) (head : Header) :
    HeaderChain :=
  { hc with
    db := hc.db.put (.headHeaderHash head.hash)
    currentHeader := head
    currentHeaderHash := head.hash }

structure BlockChain where
  /-- The header chain shares the database. -/
  hc : HeaderChain
  currentBlock : Block
  currentFastBlock : Block

namespace BlockChain

section

variable (bc : BlockChain)

def db : ChainDb := bc.hc.db

def withDb (db : ChainDb) : BlockChain := { bc with hc := { bc.hc with db := db } }

def write (puts : List Put) : BlockChain := bc.withDb (bc.db.write puts)

def hasBlock (hash : Hash) (num : Nat) : Bool := (bc.db.getBody hash num).isSome

def markHead (block : Block) : BlockChain :=
  { bc.write [.canonicalHash block.number block.hash, .headBlockHash block.hash] with
    currentBlock := block }

def updateHeads (block : Block) : BlockChain :=
  let bc := { bc with hc := bc.hc.setCurrentHeader block.header }
  { bc.write [.headFastBlockHash block.hash] with currentFastBlock := block }

def insert (block : Block) (forceUpdateHead : Bool) : BlockChain :=
  if bc.db.getCanonicalHash block.number ≠ block.hash ∨
      forceUpdateHead = true then
    (bc.markHead block).updateHeads block
  else bc.markHead block

end

def reduceTo (db : ChainDb) (num : Nat) :
    Nat → Option Block → List Block → Except Crash (Option Block × List Block)
  | 0, _, _ => .error .endlessLoop
  | _ + 1, none, chain => .ok (none, chain)
  | fuel + 1, some block, chain =>
    if block.number ≠ num then
      reduceTo db num fuel (db.getBlock block.parentHash (prev64 block.number)) (chain ++ [block])
    else .ok (some block, chain)

/-- What a reorganisation drops and adds, each with its top block first. -/
structure Branches where
  oldChain : List Block
  newChain : List Block
  deriving DecidableEq

def findCommon (db : ChainDb) :
    Nat → Block → Block → Branches → Except Crash (Except WriteBlockError Branches)
  | 0, _, _, _ => .error .endlessLoop
  | fuel + 1, oldBlock, newBlock, branches =>
    if oldBlock.hash = newBlock.hash then .ok (.ok branches)
    else
      match db.getBlock oldBlock.parentHash (prev64 oldBlock.number),
        db.getBlock newBlock.parentHash (prev64 newBlock.number) with
      | none, _ => .ok (.error .invalidOldChain)
      | some _, none => .ok (.error .invalidNewChain)
      | some oldParent, some newParent =>
        findCommon db fuel oldParent newParent {
          oldChain := branches.oldChain ++ [oldBlock]
          newChain := branches.newChain ++ [newBlock] }

def findBranches (db : ChainDb) (fuel : Nat) (oldBlock newBlock : Block) :
    Except Crash (Except WriteBlockError Branches) :=
  if newBlock.number < oldBlock.number then
    match reduceTo db newBlock.number fuel (some oldBlock) [] with
    | .error crash => .error crash
    | .ok (none, _) => .ok (.error .invalidOldChain)
    | .ok (some oldBlock, oldChain) =>
      findCommon db fuel oldBlock newBlock { oldChain, newChain := [] }
  else
    match reduceTo db oldBlock.number fuel (some newBlock) [] with
    | .error crash => .error crash
    | .ok (none, _) => .ok (.error .invalidNewChain)
    | .ok (some newBlock, newChain) =>
      findCommon db fuel oldBlock newBlock { oldChain := [], newChain }

/-- `WriteTxLookupEntries` on the database: it stops at the first entry that
fails to be written. -/
def writeTxLookupEntriesUntil (fails : Nat → Bool) (bc : BlockChain)
    (block : Block) : BlockChain × Bool :=
  let entries := writeTxLookupEntries block
  let written := (List.range entries.length).takeWhile fun idx => !fails idx
  (bc.write (entries.take written.length), written.length = entries.length)

def insertBranch (lookupFails : Hash → Nat → Bool) :
    BlockChain → List Block → BlockChain × Option WriteBlockError
  | bc, [] => (bc, none)
  | bc, block :: blocks =>
    let bc := bc.insert block false
    match writeTxLookupEntriesUntil (lookupFails block.hash) bc block with
    | (bc, false) => (bc, some .writeTxLookup)
    | (bc, true) => insertBranch lookupFails bc blocks

def deleteTxLookupEntries (bc : BlockChain) (transactions : List Transaction) : BlockChain :=
  bc.withDb <| transactions.foldl (fun db tx => db.deleteTxLookupEntry tx.hash) bc.db

def blockTransactions (blocks : List Block) : List Transaction := blocks.flatMap Block.transactions

variable (lib : TypesLib)

def switchBranches (lookupFails : Hash → Nat → Bool) (bc : BlockChain) (branches : Branches) :
    BlockChain × Option WriteBlockError :=
  match insertBranch lookupFails bc branches.newChain with
  | (bc, some error) => (bc, some error)
  | (bc, none) =>
    let deletedTxs := blockTransactions branches.oldChain
    let addedTxs := blockTransactions branches.newChain
    (bc.deleteTxLookupEntries (lib.txDifference deletedTxs addedTxs), none)

def reorg (lookupFails : Hash → Nat → Bool) (fuel : Nat) (bc : BlockChain)
    (oldBlock newBlock : Block) : Except Crash (BlockChain × Option WriteBlockError) :=
  match findBranches bc.db fuel oldBlock newBlock with
  | .error crash => .error crash
  | .ok (.error error) => .ok (bc, some error)
  | .ok (.ok branches) => .ok (switchBranches lib lookupFails bc branches)

/-- The first failure while the batch is filled. -/
def prepareError (req : BlockWrite) : Option WriteBlockError :=
  let block := req.block
  if req.blockFails then some .writeBlock
  else if req.commitRoot ≠ some block.root then
    some (.stateCommitDiff block.number req.commitRoot block.hash)
  else if req.receiptsFail then some .writeReceipts
  else none

def finishSide (bc : BlockChain) (req : BlockWrite) :
    BlockChain × Except WriteBlockError WriteStatus :=
  if req.batchFails then (bc, .error .writeBatch)
  else (bc.write (writeBlock req.block), .ok .sideStatTy)

def finishCanon (bc : BlockChain) (req : BlockWrite) :
    BlockChain × Except WriteBlockError WriteStatus :=
  let block := req.block
  if req.batchLookupFails then (bc, .error .writeTxLookup)
  else if req.preimagesFail then (bc, .error .writePreimages)
  else if req.batchFails then (bc, .error .writeBatch)
  else
    let bc := bc.write (writeBlock block ++ writeTxLookupEntries block)
    (bc.insert block false, .ok .canonStatTy)

/-- The part of `WriteBlockAndState` after the batch is filled: the fork
choice and what follows from it. -/
def chooseFork (fuel : Nat) (bc : BlockChain) (req : BlockWrite) (localTd externTd : Nat) :
    Except Crash (BlockChain × Except WriteBlockError WriteStatus) :=
  let block := req.block
  if HeaderChain.Wins localTd externTd req.coin then
    if block.parentHash ≠ bc.currentBlock.hash then
      match reorg lib req.lookupFails fuel bc bc.currentBlock block with
      | .error crash => .error crash
      | .ok (bc, some error) => .ok (bc, .error error)
      | .ok (bc, none) => .ok (bc.finishCanon req)
    else .ok (bc.finishCanon req)
  else .ok (bc.finishSide req)

def writeBlockAndState (bc : BlockChain) (req : BlockWrite) :
    Except Crash (BlockChain × Except WriteBlockError WriteStatus) :=
  let block := req.block
  match bc.db.getTd block.parentHash (prev64 block.number) with
  | none => .ok (bc, .error .unknownAncestor)
  | some ptd =>
    if bc.hasBlock block.hash block.number then .ok (bc, .ok .nonStatTy)
    else
      let localTd := bc.db.getTd bc.currentBlock.hash bc.currentBlock.number
      let externTd := block.difficulty + ptd
      if req.tdFails then .ok (bc, .error .writeTd)
      else
        let bc := bc.write [.td block.number block.hash externTd]
        match prepareError req, localTd with
        | some error, _ => .ok (bc, .error error)
        -- Comparing against a missing total difficulty dereferences nil.
        | none, none => .error .nilDereference
        | none, some localTd => chooseFork lib loopFuel bc req localTd externTd

/-- The chain over a database that holds only the genesis block.  The fast
block key is first written when a block is inserted. -/
def atGenesis (genesis : Block) (td : Nat) : BlockChain where
  hc := {
    db := genesisCommit genesis td
    genesisHeader := genesis.header
    currentHeader := genesis.header
    currentHeaderHash := genesis.hash }
  currentBlock := genesis
  currentFastBlock := genesis

end BlockChain

end MoacVnode.Core
