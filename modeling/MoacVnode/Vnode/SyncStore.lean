import MoacVnode.Accounts.Abi.Layout

/-!
# The store of sync blocks

An SCS uploads blocks of its subchain to the node, from which they are downloaded again.  For
each block there are three records: the hash of its number, its data under number and hash,
and a count of its uploads under the hash.  A download takes one from the count and deletes the
records with the last one.

The keys are concatenations of a tag, the id of the SCS, the id of the subchain and the number
or the hash; the ids are taken from the request as they are.
-/

namespace MoacVnode.Vnode

open MoacVnode.Core Accounts.Abi
open Function (Injective update)
open List

theorem beNat_encodeBlockNumber (num : UInt64) : beNat (encodeBlockNumber num) = num.toNat := by
  rw [encodeBlockNumber, beNat_bigEndian]
  exact Nat.mod_eq_of_lt num.toNat_lt

theorem encodeBlockNumber_injective : Injective encodeBlockNumber := by
  intro left right same
  have numbers := congrArg beNat same
  rw [beNat_encodeBlockNumber, beNat_encodeBlockNumber] at numbers
  exact UInt64.toNat_inj.mp numbers

theorem hashBytes_injective : Injective hashBytes := by
  intro left right same
  rw [← bytesToHash_hashBytes left, same, bytesToHash_hashBytes]

theorem exists_encodeBlockNumber {bytes : List UInt8} (length : bytes.length = 8) :
    ∃ num, encodeBlockNumber num = bytes := by
  have small := beNat_lt bytes
  rw [length, pow_bytes] at small
  refine ⟨UInt64.ofNat (beNat bytes), ?_⟩
  rw [encodeBlockNumber, UInt64.toNat_ofNat', Nat.mod_eq_of_lt small, ← length, bigEndian_beNat]

theorem exists_hashBytes {bytes : List UInt8} (length : bytes.length = 32) :
    ∃ hash, hashBytes hash = bytes := by
  have small := beNat_lt bytes
  rw [length, pow_bytes] at small
  refine ⟨BitVec.ofNat 256 (beNat bytes), ?_⟩
  rw [hashBytes, BitVec.toNat_ofNat, Nat.mod_eq_of_lt small, ← length, bigEndian_beNat]

/-- Whose blocks they are: the ids of a request. -/
structure Owner where
  scsid : List UInt8
  subchainid : List UInt8
  deriving DecidableEq

/-- The records of an owner. -/
inductive SyncKey where
  | blockHash (num : UInt64)
  | block (num : UInt64) (hash : Hash)
  | count (hash : Hash)
  deriving DecidableEq

variable (owner : Owner)

def SyncKey.bytes : SyncKey → List UInt8
  | blockHash num =>
    bytesOf "p" ++ owner.scsid ++ owner.subchainid ++ encodeBlockNumber num ++ bytesOf "m"
  | block num hash =>
    bytesOf "p" ++ owner.scsid ++ owner.subchainid ++ encodeBlockNumber num ++ hashBytes hash
  | count hash => bytesOf "cP" ++ owner.scsid ++ owner.subchainid ++ hashBytes hash

def Owner.ids : List UInt8 := owner.scsid ++ owner.subchainid

def SyncKey.tag : SyncKey → List UInt8
  | blockHash _ => [112]
  | block _ _ => [112]
  | count _ => [99, 80]

def SyncKey.tail : SyncKey → List UInt8
  | blockHash num => encodeBlockNumber num ++ [109]
  | block num hash => encodeBlockNumber num ++ hashBytes hash
  | count hash => hashBytes hash

theorem SyncKey.bytes_eq (key : SyncKey) :
    key.bytes owner = key.tag ++ (owner.ids ++ key.tail) := by
  have tags : bytesOf "p" = [112] ∧ bytesOf "m" = [109] ∧ bytesOf "cP" = [99, 80] := by decide
  cases key with
  | blockHash num | block num hash | count hash => simp [bytes, tag, tail, Owner.ids, tags]

theorem SyncKey.tag_eq_of_bytes {owner other : Owner} {key otherKey : SyncKey}
    (same : key.bytes owner = otherKey.bytes other) :
    key.tag = otherKey.tag ∧ owner.ids ++ key.tail = other.ids ++ otherKey.tail := by
  rw [bytes_eq, bytes_eq] at same
  have tags : key.tag = otherKey.tag := by
    have first := congrArg List.head? same
    cases key <;> cases otherKey <;> first | rfl | cases first
  rw [tags] at same
  exact ⟨tags, append_cancel_left same⟩

theorem SyncKey.bytes_injective : Injective (SyncKey.bytes owner) := by
  intro key other same
  obtain ⟨tags, rest⟩ := tag_eq_of_bytes same
  have tails := append_cancel_left rest
  have lengths := congrArg List.length tails
  cases key with
  | blockHash num =>
    cases other with
    | blockHash otherNum => rw [encodeBlockNumber_injective (append_cancel_right tails)]
    | block otherNum otherHash => simp [tail] at lengths
    | count otherHash => cases tags
  | block num hash =>
    cases other with
    | blockHash otherNum => simp [tail] at lengths
    | block otherNum otherHash =>
      obtain ⟨numbers, hashes⟩ := append_inj tails (by simp)
      rw [encodeBlockNumber_injective numbers, hashBytes_injective hashes]
    | count otherHash => cases tags
  | count hash =>
    cases other with
    | blockHash otherNum => cases tags
    | block otherNum otherHash => cases tags
    | count otherHash => rw [hashBytes_injective tails]

abbrev SyncDb := List UInt8 → Option (List UInt8)

namespace SyncDb

variable (db : SyncDb) (owner : Owner)

def put (key val : List UInt8) : SyncDb := update db key (some val)

def delete (key : List UInt8) : SyncDb := update db key none

variable (num : UInt64)

def getSyncBlockHash : Hash :=
  match db ((SyncKey.blockHash num).bytes owner) with
  | none => emptyHash
  | some data => if data.length = 0 then emptyHash else bytesToHash data

variable (hash : Hash)

/-- `GetSyncBlock`; a block that is not found is empty. -/
def getSyncBlock (num : UInt64) : List UInt8 :=
  (db ((SyncKey.block num hash).bytes owner)).getD []

def getSyncBlockCnt : UInt64 :=
  match db ((SyncKey.count hash).bytes owner) with
  | none => 0
  | some data => if data.length ≠ 8 then 0 else UInt64.ofNat (beNat data)

def writeSyncBlock (num : UInt64) (data : List UInt8) : SyncDb :=
  (db.put ((SyncKey.blockHash num).bytes owner) (hashBytes hash)).put
    ((SyncKey.block num hash).bytes owner) data

def writeSyncBlockCnt (count : UInt64) : SyncDb :=
  db.put ((SyncKey.count hash).bytes owner) (encodeBlockNumber count)

def deleteSyncBlockHash : SyncDb := db.delete ((SyncKey.blockHash num).bytes owner)

def deleteSyncBlock (num : UInt64) : SyncDb :=
  (db.delete ((SyncKey.block num hash).bytes owner)).delete ((SyncKey.count hash).bytes owner)

def uploadBlock (data : List UInt8) : SyncDb :=
  let written := db.writeSyncBlock owner hash num data
  written.writeSyncBlockCnt owner hash (written.getSyncBlockCnt owner hash + 1)

/-- The block that a download asks for: without a hash, the one of the number. -/
def requested : Hash := if hash = emptyHash then db.getSyncBlockHash owner num else hash

def takeBlock : SyncDb :=
  if 1 < db.getSyncBlockCnt owner hash then
    db.writeSyncBlockCnt owner hash (db.getSyncBlockCnt owner hash - 1)
  else (db.deleteSyncBlockHash owner num).deleteSyncBlock owner hash num

def downloadBlock : List UInt8 × SyncDb :=
  let got := db.requested owner num hash
  if got = emptyHash then ([], db)
  else (db.getSyncBlock owner got num, db.takeBlock owner num got)

end SyncDb

/-- A request for the store; a hash that is not given is empty. -/
inductive SyncRequest where
  | upload (num : UInt64) (hash : Hash) (data : List UInt8)
  | download (num : UInt64) (hash : Hash)
  deriving DecidableEq

/-- The body of a reply and the store after a request. -/
def SyncDb.handle (db : SyncDb) (owner : Owner) : SyncRequest → List UInt8 × SyncDb
  | .upload num hash data => ([0x87] ++ bytesOf "success", db.uploadBlock owner num hash data)
  | .download num hash => db.downloadBlock owner num hash

/-- The store as one owner sees it. -/
def SyncDb.view (db : SyncDb) (owner : Owner) : SyncKey → Option (List UInt8) :=
  fun key => db (key.bytes owner)

section

variable (db : SyncDb) (owner : Owner)

theorem view_put (key : SyncKey) (val : List UInt8) :
    (db.put (key.bytes owner) val).view owner = update (db.view owner) key (some val) :=
  Function.update_comp_eq_of_injective db (SyncKey.bytes_injective owner) key (some val)

theorem view_delete (key : SyncKey) :
    (db.delete (key.bytes owner)).view owner = update (db.view owner) key none :=
  Function.update_comp_eq_of_injective db (SyncKey.bytes_injective owner) key none

end

theorem handle_of_foreign {db : SyncDb} {owner : Owner} {key : List UInt8}
    (foreign : ∀ own : SyncKey, key ≠ own.bytes owner) (req : SyncRequest) :
    (db.handle owner req).2 key = db key := by
  have put (db : SyncDb) (own : SyncKey) (val : List UInt8) :
      db.put (own.bytes owner) val key = db key :=
    Function.update_of_ne (foreign own) _ _
  have delete (db : SyncDb) (own : SyncKey) : db.delete (own.bytes owner) key = db key :=
    Function.update_of_ne (foreign own) _ _
  cases req with
  | upload num hash data =>
    simp only [SyncDb.handle, SyncDb.uploadBlock, SyncDb.writeSyncBlockCnt,
      SyncDb.writeSyncBlock, put]
  | download num hash =>
    simp only [SyncDb.handle, SyncDb.downloadBlock]
    split
    · rfl
    · simp only [SyncDb.takeBlock]
      split
      · simp only [SyncDb.writeSyncBlockCnt, put]
      · simp only [SyncDb.deleteSyncBlock, SyncDb.deleteSyncBlockHash, delete]

theorem handle_reply_congr {db other : SyncDb} {owner : Owner}
    (same : db.view owner = other.view owner) (req : SyncRequest) :
    (db.handle owner req).1 = (other.handle owner req).1 := by
  have each (key : SyncKey) : db (key.bytes owner) = other (key.bytes owner) := congrFun same key
  cases req with
  | upload num hash data => rfl
  | download num hash =>
    have requested : db.requested owner num hash = other.requested owner num hash := by
      simp only [SyncDb.requested, SyncDb.getSyncBlockHash, each]
    simp only [SyncDb.handle, SyncDb.downloadBlock, requested]
    split
    · rfl
    · simp only [SyncDb.getSyncBlock, each]

def KeysDiffer (owner other : Owner) : Prop :=
  ∀ key otherKey : SyncKey, key.bytes owner ≠ otherKey.bytes other

/-- A request of the second owner leaves the records of the first, and the replies to it. -/
def Isolated (owner other : Owner) : Prop :=
  ∀ (db : SyncDb) (req : SyncRequest),
    (db.handle other req).2.view owner = db.view owner ∧
      ∀ own : SyncRequest, ((db.handle other req).2.handle owner own).1 = (db.handle owner own).1

/-- The ids of one owner do not begin with those of the other, followed by 31 bytes. -/
def Apart (ids otherIds : List UInt8) : Prop :=
  ids ≠ otherIds ∧ ¬ (otherIds <+: ids ∧ ids.length = otherIds.length + 31) ∧
    ¬ (ids <+: otherIds ∧ otherIds.length = ids.length + 31)

theorem exists_same_key {owner other : Owner} (begins : other.ids <+: owner.ids)
    (length : owner.ids.length = other.ids.length + 31) :
    ∃ key otherKey : SyncKey, key.bytes owner = otherKey.bytes other := by
  obtain ⟨more, whole⟩ := begins
  have moreLength : more.length = 31 := by
    rw [← whole, length_append] at length
    omega
  obtain ⟨num, numberBytes⟩ := exists_encodeBlockNumber
    (show (more.take 8).length = 8 by rw [length_take]; omega)
  obtain ⟨hash, bytes⟩ := exists_hashBytes
    (show (more.drop 8 ++ (encodeBlockNumber 0 ++ [109])).length = 32 by simp [moreLength])
  refine ⟨.blockHash 0, .block num hash, ?_⟩
  rw [SyncKey.bytes_eq, SyncKey.bytes_eq, ← whole]
  simp only [SyncKey.tag, SyncKey.tail, numberBytes, bytes, append_assoc]
  rw [← append_assoc (more.take 8), take_append_drop]

theorem begins_of_same_key {owner other : Owner} {num otherNum : UInt64} {hash : Hash}
    (same : owner.ids ++ (encodeBlockNumber num ++ [109]) =
      other.ids ++ (encodeBlockNumber otherNum ++ hashBytes hash)) :
    other.ids <+: owner.ids ∧ owner.ids.length = other.ids.length + 31 := by
  have lengths := congrArg List.length same
  simp only [length_append, length_encodeBlockNumber, length_hashBytes, length_cons,
    length_nil] at lengths
  have length : owner.ids.length = other.ids.length + 31 := by omega
  refine ⟨?_, length⟩
  exact prefix_of_prefix_length_le (prefix_append _ _) (same ▸ prefix_append _ _) (by omega)

theorem keysDiffer_of_apart {owner other : Owner} (apart : Apart owner.ids other.ids) :
    KeysDiffer owner other := by
  intro key otherKey same
  obtain ⟨tags, rest⟩ := SyncKey.tag_eq_of_bytes same
  have equalTails (lengths : key.tail.length = otherKey.tail.length) : False :=
    apart.1 (append_inj_left' rest lengths)
  cases key with
  | blockHash num =>
    cases otherKey with
    | blockHash otherNum => exact equalTails (by simp [SyncKey.tail])
    | block otherNum otherHash => exact apart.2.1 (begins_of_same_key rest)
    | count otherHash => cases tags
  | block num hash =>
    cases otherKey with
    | blockHash otherNum => exact apart.2.2 (begins_of_same_key rest.symm)
    | block otherNum otherHash => exact equalTails (by simp [SyncKey.tail])
    | count otherHash => cases tags
  | count hash =>
    cases otherKey with
    | blockHash otherNum => cases tags
    | block otherNum otherHash => cases tags
    | count otherHash => exact equalTails (by simp [SyncKey.tail])

/-- The keys of two owners differ, and the requests of the one leave the records of the other,
exactly if their ids are apart. -/
theorem sync_isolation_iff (owner other : Owner) :
    (KeysDiffer owner other ∧ Isolated owner other) ↔ Apart owner.ids other.ids := by
  constructor
  · rintro ⟨differ, -⟩
    refine ⟨?_, ?_, ?_⟩
    · intro same
      apply differ (.count 0) (.count 0)
      rw [SyncKey.bytes_eq, SyncKey.bytes_eq, same]
    · rintro ⟨begins, length⟩
      obtain ⟨key, otherKey, same⟩ := exists_same_key begins length
      exact differ key otherKey same
    · rintro ⟨begins, length⟩
      obtain ⟨key, otherKey, same⟩ := exists_same_key begins length
      exact differ otherKey key same.symm
  · intro apart
    have differ := keysDiffer_of_apart apart
    refine ⟨differ, fun db req => ?_⟩
    have same : (db.handle other req).2.view owner = db.view owner := by
      funext key
      exact handle_of_foreign (differ key) req
    exact ⟨same, handle_reply_congr same⟩

/-- Two owners whose ids are split at another place have the same keys: what the one uploads,
the other downloads and deletes. -/
theorem split_ids_share_blocks :
    ({ scsid := [1, 2], subchainid := [3] } : Owner) ≠ { scsid := [1], subchainid := [2, 3] } ∧
      ((SyncDb.handle (fun _ => none) { scsid := [1, 2], subchainid := [3] }
        (.upload 5 7 [42])).2.handle { scsid := [1], subchainid := [2, 3] }
          (.download 5 7)).1 = [42] ∧
      (((SyncDb.handle (fun _ => none) { scsid := [1, 2], subchainid := [3] }
        (.upload 5 7 [42])).2.handle { scsid := [1], subchainid := [2, 3] }
          (.download 5 7)).2.handle { scsid := [1, 2], subchainid := [3] }
            (.download 5 7)).1 = [] := by
  decide +kernel

end MoacVnode.Vnode
