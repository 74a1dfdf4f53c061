import MoacVnode.Core.Types

/-!
# The chain database

`database_util.go` keeps every chain record under a key of its own family.  The
model has one partial map per family.  A header is filed under its own number
and hash, which the database carries as an invariant: what is read back under a
key belongs to that key.
-/

namespace MoacVnode.Core

open Function (update)

structure TxLookupEntry where
  blockHash : Hash
  blockIndex : Nat
  index : Nat
  deriving DecidableEq, Repr

/-- The record families of the chain database. -/
structure ChainDb where
  canonicalHash : Nat → Option Hash
  blockNumber : Hash → Option Nat
  headers : Nat × Hash → Option Header
  bodies : Nat × Hash → Option (List Transaction)
  tds : Nat × Hash → Option Nat
  lookups : Hash → Option TxLookupEntry
  headHeaderHash : Option Hash
  headBlockHash : Option Hash
  headFastBlockHash : Option Hash
  headers_key :
    ∀ {num hash header}, headers (num, hash) = some header →
      header.number = num ∧ header.hash = hash

/-- One record handed to a `Putter`, the database itself or a batch. -/
inductive Put where
  | canonicalHash (num : Nat) (hash : Hash)
  | blockNumber (hash : Hash) (num : Nat)
  | header (header : Header)
  | body (num : Nat) (hash : Hash) (transactions : List Transaction)
  | td (num : Nat) (hash : Hash) (td : Nat)
  | lookup (hash : Hash) (entry : TxLookupEntry)
  | headHeaderHash (hash : Hash)
  | headBlockHash (hash : Hash)
  | headFastBlockHash (hash : Hash)
  deriving DecidableEq, Repr

namespace ChainDb

variable (db : ChainDb) {num : Nat} {hash : Hash} {header : Header}

def empty : ChainDb where
  canonicalHash _ := none
  blockNumber _ := none
  headers _ := none
  bodies _ := none
  tds _ := none
  lookups _ := none
  headHeaderHash := none
  headBlockHash := none
  headFastBlockHash := none
  headers_key got := by simp at got

private theorem headers_key_insert (inserted : Header)
    (got : update db.headers (inserted.number, inserted.hash) (some inserted) (num, hash) =
      some header) : header.number = num ∧ header.hash = hash := by
  by_cases same : (num, hash) = (inserted.number, inserted.hash)
  · rw [same, Function.update_self] at got
    cases got
    exact ⟨(Prod.mk.inj same).1.symm, (Prod.mk.inj same).2.symm⟩
  · rw [Function.update_of_ne same] at got
    exact db.headers_key got

private theorem headers_key_erase (key : Nat × Hash)
    (got : update db.headers key none (num, hash) = some header) :
    header.number = num ∧ header.hash = hash := by
  by_cases same : (num, hash) = key
  · rw [same, Function.update_self] at got
    cases got
  · rw [Function.update_of_ne same] at got
    exact db.headers_key got

def put : Put → ChainDb
  | .canonicalHash num hash =>
    { db with canonicalHash := update db.canonicalHash num (some hash) }
  | .blockNumber hash num =>
    { db with blockNumber := update db.blockNumber hash (some num) }
  | .header header =>
    { db with
      headers := update db.headers (header.number, header.hash) (some header)
      headers_key := db.headers_key_insert header }
  | .body num hash transactions =>
    { db with bodies := update db.bodies (num, hash) (some transactions) }
  | .td num hash td => { db with tds := update db.tds (num, hash) (some td) }
  | .lookup hash entry => { db with lookups := update db.lookups hash (some entry) }
  | .headHeaderHash hash => { db with headHeaderHash := some hash }
  | .headBlockHash hash => { db with headBlockHash := some hash }
  | .headFastBlockHash hash => { db with headFastBlockHash := some hash }

def write (puts : List Put) : ChainDb := puts.foldl put db

def getCanonicalHash (num : Nat) : Hash := (db.canonicalHash num).getD emptyHash

/-- `missingNumber` is returned if no header of that hash is stored. -/
def missingNumber : Nat := uint64Size - 1

variable (hash)

def getBlockNumber : Nat := (db.blockNumber hash).getD missingNumber

def getHeadHeaderHash : Hash := db.headHeaderHash.getD emptyHash

def getHeadBlockHash : Hash := db.headBlockHash.getD emptyHash

def getHeadFastBlockHash : Hash := db.headFastBlockHash.getD emptyHash

def getHeader (num : Nat) : Option Header := db.headers (num, hash)

def getBody (num : Nat) : Option (List Transaction) := db.bodies (num, hash)

def getTd (num : Nat) : Option Nat := db.tds (num, hash)

/-- A block is assembled from its header and its body, if both are there. -/
def getBlock (num : Nat) : Option Block := do
  let header ← db.getHeader hash num
  let transactions ← db.getBody hash num
  return { header, transactions }

/-- `GetTxLookupEntry`; a missing entry reads as zeroes. -/
def getTxLookupEntry : Hash × Nat × Nat :=
  match db.lookups hash with
  | none => (emptyHash, 0, 0)
  | some entry => (entry.blockHash, entry.blockIndex, entry.index)

def deleteCanonicalHash (num : Nat) : ChainDb :=
  { db with canonicalHash := update db.canonicalHash num none }

def deleteHeader (num : Nat) : ChainDb :=
  { db with
    blockNumber := update db.blockNumber hash none
    headers := update db.headers (num, hash) none
    headers_key := db.headers_key_erase (num, hash) }

def deleteBody (num : Nat) : ChainDb :=
  { db with bodies := update db.bodies (num, hash) none }

def deleteTd (num : Nat) : ChainDb := { db with tds := update db.tds (num, hash) none }

def deleteTxLookupEntry : ChainDb := { db with lookups := update db.lookups hash none }

variable {hash}

end ChainDb

/-- `WriteHeader`: the number under the hash, then the header itself. -/
def writeHeader (header : Header) : List Put :=
  [.blockNumber header.hash header.number, .header header]

/-- `WriteBlock`: the body first, then the header. -/
def writeBlock (block : Block) : List Put :=
  .body block.number block.hash block.transactions :: writeHeader block.header

def txLookupEntries (block : Block) : List (Hash × TxLookupEntry) :=
  block.transactions.zipIdx.map fun (tx, index) =>
    (tx.hash, { blockHash := block.hash, blockIndex := block.number, index })

def writeTxLookupEntries (block : Block) : List Put :=
  (txLookupEntries block).map fun (hash, entry) => .lookup hash entry

namespace ChainDb

variable {db : ChainDb} {hash : Hash} {num : Nat} {header : Header} {block : Block}

theorem number_of_getHeader (got : db.getHeader hash num = some header) : header.number = num :=
  (db.headers_key got).1

theorem hash_of_getHeader (got : db.getHeader hash num = some header) : header.hash = hash :=
  (db.headers_key got).2

theorem getBlock_eq_some :
    db.getBlock hash num = some block ↔
      db.getHeader hash num = some block.header ∧
        db.getBody hash num = some block.transactions := by
  unfold getBlock
  cases header : db.getHeader hash num with
  | none => simp
  | some header =>
    cases body : db.getBody hash num with
    | none => simp
    | some transactions =>
      cases block
      simp

theorem number_of_getBlock (got : db.getBlock hash num = some block) : block.number = num :=
  number_of_getHeader (getBlock_eq_some.mp got).1

theorem hash_of_getBlock (got : db.getBlock hash num = some block) : block.hash = hash :=
  hash_of_getHeader (getBlock_eq_some.mp got).1

end ChainDb

end MoacVnode.Core
