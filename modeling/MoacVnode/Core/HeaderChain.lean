import MoacVnode.Core.Database

/-!
# The header chain

`HeaderChain` of `headerchain.go`: writing a header with the fork choice it
triggers, and rewinding to an earlier number.  The LRU caches in front of the
database hold what the database holds (they are filled on every read and write
and purged on a rewind), so the model reads the database.

The two loops of `WriteHeader` have no bound in the source.  They run here with
fuel for every `uint64` index; running out of it is the crash `endlessLoop`.
-/

namespace MoacVnode.Core

/-- One iteration for each `uint64` index and one for the last check. -/
def loopFuel : Nat := uint64Size + 1

namespace ChainDb

variable (db : ChainDb)

def getHeaderByNumber (num : Nat) : Option Header :=
  let hash := db.getCanonicalHash num
  if hash = emptyHash then none else db.getHeader hash num

def getHeaderByHash (hash : Hash) : Option Header := db.getHeader hash (db.getBlockNumber hash)

@[simps]
def withCanonical (canonical : Nat → Option Hash) : ChainDb :=
  { db with canonicalHash := canonical }

@[simps]
def withLookups (lookups : Hash → Option TxLookupEntry) : ChainDb := { db with lookups := lookups }

end ChainDb

/-- `Genesis.Commit`: the records of a freshly initialised database. -/
def genesisCommit (genesis : Block) (td : Nat) : ChainDb :=
  ChainDb.empty.write <|
    .td genesis.number genesis.hash td :: writeBlock genesis ++
      [.canonicalHash genesis.number genesis.hash,
        .headBlockHash genesis.hash, .headHeaderHash genesis.hash]

inductive WriteStatus where
  | nonStatTy
  | canonStatTy
  | sideStatTy
  deriving DecidableEq, Repr

inductive WriteHeaderError where
  | unknownAncestor
  | crash (crash : Crash)
  deriving DecidableEq, Repr

structure HeaderChain where
  db : ChainDb
  genesisHeader : Header
  currentHeader : Header
  currentHeaderHash : Hash

namespace HeaderChain

def deleteCanonicalFrom : Nat → ChainDb → Nat → Except Crash ChainDb
  | 0, _, _ => .error .endlessLoop
  | fuel + 1, db, i =>
    if db.getCanonicalHash i = emptyHash then .ok db
    else deleteCanonicalFrom fuel (db.deleteCanonicalHash i) (next64 i)

/-- Overwrite stale canonical hashes from a head downwards until the index
agrees with the branch. -/
def overwriteCanonical : Nat → ChainDb → Hash → Nat → Option Header → Except Crash ChainDb
  | 0, _, _, _, _ => .error .endlessLoop
  | fuel + 1, db, headHash, headNumber, headHeader =>
    if db.getCanonicalHash headNumber = headHash then .ok db
    else
      match headHeader with
      | none => .error .nilDereference
      | some header =>
        let db := db.put (.canonicalHash headNumber headHash)
        let headHash := header.parentHash
        let headNumber := prev64 header.number
        overwriteCanonical fuel db headHash headNumber (db.getHeader headHash headNumber)

def canonicalize (fuel : Nat) (db : ChainDb) (header : Header) : Except Crash ChainDb :=
  match deleteCanonicalFrom fuel db (next64 header.number) with
  | .error crash => .error crash
  | .ok db =>
    let headHash := header.parentHash
    let headNumber := prev64 header.number
    let headHeader := db.getHeader headHash headNumber
    match overwriteCanonical fuel db headHash headNumber headHeader with
    | .error crash => .error crash
    | .ok db =>
      .ok <| db.write [.canonicalHash header.number header.hash, .headHeaderHash header.hash]

def recordHeader (db : ChainDb) (header : Header) (td : Nat) : ChainDb :=
  db.write (.td header.number header.hash td :: Core.writeHeader header)

/-- The fork choice: more difficulty wins, and on a tie the coin decides. -/
def Wins (localTd externTd : Nat) (coin : Bool) : Prop :=
  localTd < externTd ∨ (externTd = localTd ∧ coin = true)
deriving Decidable

variable (hc : HeaderChain)

/-- `HeaderChain.WriteHeader`; `coin` is `mrand.Float64() < 0.5`. -/
def writeHeader (header : Header) (coin : Bool) :
    Except WriteHeaderError (HeaderChain × WriteStatus) :=
  match hc.db.getTd header.parentHash (prev64 header.number) with
  | none => .error .unknownAncestor
  | some ptd =>
    let localTd := hc.db.getTd hc.currentHeaderHash hc.currentHeader.number
    let externTd := header.difficulty + ptd
    let db := recordHeader hc.db header externTd
    match localTd with
    -- Comparing against a missing total difficulty dereferences nil.
    | none => .error (.crash .nilDereference)
    | some localTd =>
      if Wins localTd externTd coin then
        match canonicalize loopFuel db header with
        | .error crash => .error (.crash crash)
        | .ok db =>
          .ok ({ hc with
            db := db
            currentHeader := header
            currentHeaderHash := header.hash }, .canonStatTy)
      else .ok ({ hc with db := db }, .sideStatTy)

/-- What `SetHead` calls before it deletes a header. -/
inductive DeleteCallback where
  | none
  | deleteBody
  deriving DecidableEq, Repr

def DeleteCallback.run (db : ChainDb) (hash : Hash) (num : Nat) : DeleteCallback → ChainDb
  | .none => db
  | .deleteBody => db.deleteBody hash num

def rewind (head : Nat) (delFn : DeleteCallback) :
    Nat → ChainDb → Option Header → Except Crash (ChainDb × Option Header)
  | 0, _, _ => .error .endlessLoop
  | _ + 1, db, none => .ok (db, none)
  | fuel + 1, db, some header =>
    if head < header.number then
      let db := delFn.run db header.hash header.number
      let db := db.deleteHeader header.hash header.number
      let db := db.deleteTd header.hash header.number
      rewind head delFn fuel db (db.getHeader header.parentHash (prev64 header.number))
    else .ok (db, some header)

/-- Roll back the canonical numbering from a height to the new head. -/
def deleteCanonicalDown (head : Nat) : Nat → ChainDb → ChainDb
  | 0, db => db
  | i + 1, db =>
    if head < i + 1 then deleteCanonicalDown head i (db.deleteCanonicalHash (i + 1))
    else db

def setHead (head : Nat) (delFn : DeleteCallback) : Except Crash HeaderChain :=
  let height := hc.currentHeader.number
  match rewind head delFn loopFuel hc.db (some hc.currentHeader) with
  | .error crash => .error crash
  | .ok (db, current) =>
    let db := deleteCanonicalDown head height db
    let currentHeader := current.getD hc.genesisHeader
    .ok { hc with
      db := db.put (.headHeaderHash currentHeader.hash)
      currentHeader := currentHeader
      currentHeaderHash := currentHeader.hash }

def atGenesis (genesis : Header) (td : Nat) : HeaderChain where
  db := genesisCommit { header := genesis } td
  genesisHeader := genesis
  currentHeader := genesis
  currentHeaderHash := genesis.hash

end HeaderChain

end MoacVnode.Core
