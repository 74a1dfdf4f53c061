import MoacVnode.Lib.Run
import MoacVnode.Vnode.SyncStore

/-!
# Uploads and downloads of sync blocks

The requests of one owner.  Beside the store a run keeps what was uploaded of each block and how
often it was downloaded.
-/

namespace MoacVnode.Vnode

open MoacVnode.Core Accounts.Abi Lib SyncDb
open Function (update update_apply)
open Option

variable {owner : Owner} {num : UInt64} {hash : Hash} {otherNum count : UInt64} {otherHash : Hash}

/-- The store, the uploads of each block (the last one first) and the number of its downloads. -/
structure SyncHistory where
  db : SyncDb := fun _ => none
  uploads : UInt64 → Hash → List (List UInt8) := fun _ _ => []
  downloads : UInt64 → Hash → Nat := fun _ _ => 0

def historyStep (owner : Owner) (hist : SyncHistory) : SyncRequest → SyncHistory
  | .upload num hash data =>
    { hist with
      db := (hist.db.handle owner (.upload num hash data)).2
      uploads := fun otherNum otherHash =>
        if otherNum = num ∧ otherHash = hash then
          data :: hist.uploads otherNum otherHash
        else hist.uploads otherNum otherHash }
  | .download num hash =>
    { hist with
      db := (hist.db.handle owner (.download num hash)).2
      downloads := fun otherNum otherHash =>
        if otherNum = num ∧ otherHash = hist.db.requested owner num hash then
          hist.downloads otherNum otherHash + 1
        else hist.downloads otherNum otherHash }

def SyncDb.stored (db : SyncDb) (owner : Owner) (num : UInt64) (hash : Hash) :
    Option (List UInt8) :=
  db.view owner (.block num hash)

/-- An upload has a hash, no other block of its number or hash is stored, and it can be counted; a
downloaded block is stored, or there is nothing of its number and hash. -/
def Separate (owner : Owner) (hist : SyncHistory) : SyncRequest → Prop
  | .upload num hash _ =>
    hash ≠ emptyHash ∧
      (hist.db.getSyncBlockHash owner num = emptyHash ∨ hist.db.getSyncBlockHash owner num = hash) ∧
      (hist.db.getSyncBlockCnt owner hash = 0 ∨ (hist.db.stored owner num hash).isSome) ∧
      hist.db.getSyncBlockCnt owner hash + 1 ≠ 0
  | .download num hash =>
    let got := hist.db.requested owner num hash
    got = emptyHash ∨ (hist.db.stored owner num got).isSome ∨
      hist.db.getSyncBlockHash owner num = emptyHash ∧ hist.db.getSyncBlockCnt owner got = 0

instance (owner : Owner) (hist : SyncHistory) : DecidablePred (Separate owner hist) :=
  fun req => by cases req <;> unfold Separate <;> infer_instance

/-! ## The records after a request -/

section

variable {db : SyncDb}

theorem getSyncBlockHash_of_record (record : db.view owner (.blockHash num) =
    some (hashBytes hash)) : db.getSyncBlockHash owner num = hash := by
  have got : db ((SyncKey.blockHash num).bytes owner) = some (hashBytes hash) := record
  rw [getSyncBlockHash, got]
  simp [bytesToHash_hashBytes]

theorem getSyncBlockCnt_of_record
    (record : db.view owner (.count hash) = some (encodeBlockNumber count)) :
    db.getSyncBlockCnt owner hash = count := by
  have got : db ((SyncKey.count hash).bytes owner) = some (encodeBlockNumber count) := record
  rw [getSyncBlockCnt, got]
  simp [beNat_encodeBlockNumber]

theorem view_uploadBlock (data : List UInt8) :
    (db.uploadBlock owner num hash data).view owner =
      update (update (update (db.view owner) (.blockHash num)
        (some (hashBytes hash))) (.block num hash) (some data)) (.count hash)
          (some (encodeBlockNumber (db.getSyncBlockCnt owner hash + 1))) := by
  have written : (db.writeSyncBlock owner hash num data).view owner =
      update (update (db.view owner) (.blockHash num)
        (some (hashBytes hash))) (.block num hash) (some data) := by
    rw [writeSyncBlock, view_put, view_put]
  have count : (db.writeSyncBlock owner hash num data).getSyncBlockCnt owner hash =
      db.getSyncBlockCnt owner hash := by
    have record : (db.writeSyncBlock owner hash num data).view owner (.count hash) =
        db.view owner (.count hash) := by
      simp [written]
    simp only [view] at record
    rw [getSyncBlockCnt, record, getSyncBlockCnt]
  rw [uploadBlock, count, writeSyncBlockCnt, view_put, written]

theorem view_takeBlock_of_lt (more : 1 < db.getSyncBlockCnt owner hash) :
    (db.takeBlock owner num hash).view owner =
      update (db.view owner) (.count hash)
        (some (encodeBlockNumber (db.getSyncBlockCnt owner hash - 1))) := by
  rw [takeBlock, if_pos more, writeSyncBlockCnt, view_put]

theorem view_takeBlock_of_not_lt (last : ¬ 1 < db.getSyncBlockCnt owner hash) :
    (db.takeBlock owner num hash).view owner =
      update (update (update (db.view owner) (.blockHash num) none)
        (.block num hash) none) (.count hash) none := by
  rw [takeBlock, if_neg last, deleteSyncBlock, view_delete, view_delete,
    deleteSyncBlockHash, view_delete]

theorem delete_of_none {key : SyncKey} (record : db.view owner key = none) :
    db.delete (key.bytes owner) = db := by
  rw [delete, ← show db (key.bytes owner) = none from record, Function.update_eq_self]

end

/-! ## Blocks that do not share records -/

/-- What the records of a stored block say of its history. -/
structure BlockRecords (owner : Owner) (hist : SyncHistory) (num : UInt64) (hash : Hash)
    (data : List UInt8) : Prop where
  nonempty : hash ≠ emptyHash
  hashRecord : hist.db.view owner (.blockHash num) = some (hashBytes hash)
  last : (hist.uploads num hash).head? = some data
  count : ∃ count : UInt64, count ≠ 0 ∧
    hist.db.view owner (.count hash) = some (encodeBlockNumber count) ∧
      (hist.uploads num hash).length ≤ hist.downloads num hash + count.toNat

/-- Every stored block has records of its own, and every record belongs to a stored block. -/
structure Accounted (owner : Owner) (hist : SyncHistory) : Prop where
  block : ∀ num hash data, hist.db.stored owner num hash = some data →
    BlockRecords owner hist num hash data
  ofHash : ∀ num, hist.db.view owner (.blockHash num) ≠ none →
    ∃ hash data, hist.db.stored owner num hash = some data
  ofCount : ∀ hash, hist.db.view owner (.count hash) ≠ none →
    ∃ num data, hist.db.stored owner num hash = some data
  alone : ∀ num other hash, hist.db.stored owner num hash ≠ none →
    hist.db.stored owner other hash ≠ none → num = other
  gone : ∀ num hash, hist.db.stored owner num hash = none →
    (hist.uploads num hash).length ≤ hist.downloads num hash

section

variable {hist : SyncHistory} (accounted : Accounted owner hist)

include accounted

theorem blockHash_none (empty : hist.db.getSyncBlockHash owner num = emptyHash) :
    hist.db.view owner (.blockHash num) = none := by
  by_contra present
  obtain ⟨hash, data, got⟩ := accounted.ofHash num present
  have records := accounted.block num hash data got
  rw [getSyncBlockHash_of_record records.hashRecord] at empty
  exact records.nonempty empty

theorem count_none (zero : hist.db.getSyncBlockCnt owner hash = 0) :
    hist.db.view owner (.count hash) = none := by
  by_contra present
  obtain ⟨num, data, got⟩ := accounted.ofCount hash present
  obtain ⟨count, positive, record, -⟩ := (accounted.block num hash data got).count
  rw [getSyncBlockCnt_of_record record] at zero
  exact positive zero

theorem accounted_of_elsewhere {later : SyncHistory}
    (away : ∀ {otherNum otherHash}, ¬ (otherNum = num ∧ otherHash = hash) →
      hist.db.stored owner otherNum otherHash ≠ none → otherNum ≠ num ∧ otherHash ≠ hash)
    (stored : ∀ {otherNum otherHash}, ¬ (otherNum = num ∧ otherHash = hash) →
      later.db.stored owner otherNum otherHash = hist.db.stored owner otherNum otherHash)
    (hashes : ∀ {otherNum}, otherNum ≠ num →
      later.db.view owner (.blockHash otherNum) = hist.db.view owner (.blockHash otherNum))
    (counts : ∀ {otherHash}, otherHash ≠ hash →
      later.db.view owner (.count otherHash) = hist.db.view owner (.count otherHash))
    (events : ∀ {otherNum otherHash}, ¬ (otherNum = num ∧ otherHash = hash) →
      later.uploads otherNum otherHash = hist.uploads otherNum otherHash ∧
        later.downloads otherNum otherHash = hist.downloads otherNum otherHash)
    (stays : ∀ data, later.db.stored owner num hash = some data →
      BlockRecords owner later num hash data)
    (goes : later.db.stored owner num hash = none →
      later.db.view owner (.blockHash num) = none ∧ later.db.view owner (.count hash) = none ∧
        (later.uploads num hash).length ≤ later.downloads num hash) :
    Accounted owner later := by
  constructor
  · intro otherNum otherHash data got
    by_cases same : otherNum = num ∧ otherHash = hash
    · obtain ⟨rfl, rfl⟩ := same
      exact stays data got
    · rw [stored same] at got
      have apart := away same (by simp [got])
      obtain ⟨nonempty, record, last, count, positive, countRecord, bound⟩ :=
        accounted.block otherNum otherHash data got
      exact ⟨nonempty, by rw [hashes apart.1, record], by rw [(events same).1, last], count,
        positive, by rw [counts apart.2, countRecord], by rwa [(events same).1, (events same).2]⟩
  · intro otherNum present
    by_cases same : otherNum = num
    · subst same
      cases got : later.db.stored owner otherNum hash with
      | none => exact absurd (goes got).1 present
      | some data => exact ⟨hash, data, got⟩
    · rw [hashes same] at present
      obtain ⟨otherHash, data, got⟩ := accounted.ofHash otherNum present
      exact ⟨otherHash, data, by rw [stored fun both => same both.1, got]⟩
  · intro otherHash present
    by_cases same : otherHash = hash
    · subst same
      cases got : later.db.stored owner num otherHash with
      | none => exact absurd (goes got).2.1 present
      | some data => exact ⟨num, data, got⟩
    · rw [counts same] at present
      obtain ⟨otherNum, data, got⟩ := accounted.ofCount otherHash present
      exact ⟨otherNum, data, by rw [stored fun both => same both.2, got]⟩
  · intro first second otherHash firstStored secondStored
    by_cases firstHere : first = num ∧ otherHash = hash
    · by_cases secondHere : second = num ∧ otherHash = hash
      · exact firstHere.1.trans secondHere.1.symm
      · rw [stored secondHere] at secondStored
        exact absurd firstHere.2 (away secondHere secondStored).2
    · rw [stored firstHere] at firstStored
      rw [stored fun both => (away firstHere firstStored).2 both.2] at secondStored
      exact accounted.alone first second otherHash firstStored secondStored
  · intro otherNum otherHash missing
    by_cases same : otherNum = num ∧ otherHash = hash
    · obtain ⟨rfl, rfl⟩ := same
      exact (goes missing).2.2
    · rw [stored same] at missing
      rw [(events same).1, (events same).2]
      exact accounted.gone otherNum otherHash missing

end

/-! ## An upload -/

theorem toNat_add_one (counted : count + 1 ≠ 0) : (count + 1).toNat = count.toNat + 1 := by
  have bound := count.toNat_lt
  have sum : (count + 1).toNat = (count.toNat + 1) % 2 ^ 64 := UInt64.toNat_add count 1
  have nonzero : (count + 1).toNat ≠ 0 := fun zero => counted (UInt64.toNat_inj.mp zero)
  omega

section

variable {hist : SyncHistory} {data : List UInt8}

theorem stored_upload (otherNum : UInt64) (otherHash : Hash) :
    (historyStep owner hist (.upload num hash data)).db.stored owner otherNum otherHash =
      if otherNum = num ∧ otherHash = hash then some data
      else hist.db.stored owner otherNum otherHash := by
  simp [historyStep, handle, stored, view_uploadBlock, update_apply]

theorem blockHash_upload (otherNum : UInt64) :
    (historyStep owner hist (.upload num hash data)).db.view owner (.blockHash otherNum) =
      if otherNum = num then some (hashBytes hash)
      else hist.db.view owner (.blockHash otherNum) := by
  simp [historyStep, handle, view_uploadBlock, update_apply]

theorem count_upload (otherHash : Hash) :
    (historyStep owner hist (.upload num hash data)).db.view owner (.count otherHash) =
      if otherHash = hash then some (encodeBlockNumber (hist.db.getSyncBlockCnt owner hash + 1))
      else hist.db.view owner (.count otherHash) := by
  simp [historyStep, handle, view_uploadBlock, update_apply]

variable (accounted : Accounted owner hist) (separate : Separate owner hist (.upload num hash data))

include accounted separate

theorem elsewhere_of_upload (ne : ¬ (otherNum = num ∧ otherHash = hash))
    (stored : hist.db.stored owner otherNum otherHash ≠ none) :
    otherNum ≠ num ∧ otherHash ≠ hash := by
  obtain ⟨nonempty, oneHash, oneNumber, -⟩ := separate
  obtain ⟨otherData, got⟩ := ne_none_iff_exists'.mp stored
  have records := accounted.block otherNum otherHash otherData got
  constructor
  · rintro rfl
    rw [getSyncBlockHash_of_record records.hashRecord] at oneHash
    rcases oneHash with empty | same
    · exact records.nonempty empty
    · exact ne ⟨rfl, same⟩
  · rintro rfl
    obtain ⟨count, positive, record, -⟩ := records.count
    rw [getSyncBlockCnt_of_record record] at oneNumber
    rcases oneNumber with zero | present
    · exact positive zero
    · exact ne ⟨accounted.alone otherNum num otherHash stored (isSome_iff_ne_none.mp present), rfl⟩

theorem accounted_upload : Accounted owner (historyStep owner hist (.upload num hash data)) := by
  refine accounted_of_elsewhere accounted (elsewhere_of_upload accounted separate)
    (fun apart => by rw [stored_upload, if_neg apart])
    (fun apart => by rw [blockHash_upload, if_neg apart])
    (fun apart => by rw [count_upload, if_neg apart])
    (fun apart => by simp [historyStep, apart]) ?_ ?_
  · intro otherData got
    rw [stored_upload, if_pos ⟨rfl, rfl⟩, Option.some.injEq] at got
    subst got
    obtain ⟨nonempty, -, oneNumber, counted⟩ := separate
    refine ⟨nonempty, by simp [blockHash_upload], by simp [historyStep],
      hist.db.getSyncBlockCnt owner hash + 1, counted, by simp [count_upload], ?_⟩
    have next := toNat_add_one counted
    have before : (hist.uploads num hash).length ≤
        hist.downloads num hash + (hist.db.getSyncBlockCnt owner hash).toNat := by
      cases got : hist.db.stored owner num hash with
      | none => exact Nat.le_add_right_of_le (accounted.gone num hash got)
      | some prior =>
        obtain ⟨count, -, record, bound⟩ := (accounted.block num hash prior got).count
        rwa [getSyncBlockCnt_of_record record]
    simp only [historyStep, and_self, if_true, List.length_cons]
    omega
  · intro missing
    simp [stored_upload] at missing

end

/-! ## A download -/

def tookBlock (owner : Owner) (hist : SyncHistory) (num : UInt64) (hash : Hash) :
    SyncHistory :=
  { hist with
    db := hist.db.takeBlock owner num hash
    downloads := fun otherNum otherHash =>
      if otherNum = num ∧ otherHash = hash then hist.downloads otherNum otherHash + 1
      else hist.downloads otherNum otherHash }

section

variable {hist : SyncHistory} (accounted : Accounted owner hist)

include accounted

theorem elsewhere_of_stored (here : hist.db.stored owner num hash ≠ none)
    (ne : ¬ (otherNum = num ∧ otherHash = hash))
    (stored : hist.db.stored owner otherNum otherHash ≠ none) :
    otherNum ≠ num ∧ otherHash ≠ hash := by
  constructor
  · rintro rfl
    obtain ⟨data, got⟩ := ne_none_iff_exists'.mp stored
    obtain ⟨hereData, hereFound⟩ := ne_none_iff_exists'.mp here
    have record := (accounted.block _ _ data got).hashRecord
    rw [(accounted.block _ _ hereData hereFound).hashRecord, Option.some.injEq] at record
    exact ne ⟨rfl, (hashBytes_injective record).symm⟩
  · rintro rfl
    exact ne ⟨accounted.alone otherNum num otherHash stored here, rfl⟩

theorem accounted_of_view {later : SyncHistory}
    (sameView : later.db.view owner = hist.db.view owner)
    (sameUploads : later.uploads = hist.uploads)
    (more : ∀ num hash, hist.downloads num hash ≤ later.downloads num hash) :
    Accounted owner later := by
  have stored (num : UInt64) (hash : Hash) :
      later.db.stored owner num hash = hist.db.stored owner num hash :=
    congrFun sameView _
  constructor
  · intro num hash data got
    rw [stored] at got
    obtain ⟨nonempty, record, last, count, positive, countRecord, bound⟩ :=
      accounted.block num hash data got
    refine ⟨nonempty, by rw [sameView, record], by rw [sameUploads, last], count, positive,
      by rw [sameView, countRecord], ?_⟩
    have loosened := more num hash
    rw [sameUploads]
    omega
  · intro num present
    simp only [sameView, stored] at present ⊢
    exact accounted.ofHash num present
  · intro hash present
    simp only [sameView, stored] at present ⊢
    exact accounted.ofCount hash present
  · intro num other hash
    simp only [stored]
    exact accounted.alone num other hash
  · intro num hash missing
    rw [stored] at missing
    rw [sameUploads]
    exact Nat.le_trans (accounted.gone num hash missing) (more num hash)

theorem accounted_take_of_lt (here : hist.db.stored owner num hash ≠ none)
    (left : 1 < hist.db.getSyncBlockCnt owner hash) :
    Accounted owner (tookBlock owner hist num hash) := by
  have view : (tookBlock owner hist num hash).db.view owner = update
      (hist.db.view owner) (.count hash)
        (some (encodeBlockNumber (hist.db.getSyncBlockCnt owner hash - 1))) :=
    view_takeBlock_of_lt left
  refine accounted_of_elsewhere accounted (elsewhere_of_stored accounted here)
    (fun _ => by simp [stored, view]) (fun _ => by simp [view])
    (fun apart => by simp [view, apart]) (fun apart => by simp [tookBlock, apart]) ?_ ?_
  · intro data got
    obtain ⟨nonempty, record, last, count, positive, countRecord, bound⟩ :=
      accounted.block num hash data (by simpa [stored, view] using got)
    rw [getSyncBlockCnt_of_record countRecord] at left view
    have less : (count - 1).toNat = count.toNat - 1 :=
      UInt64.toNat_sub_of_le count 1 (UInt64.le_of_lt left)
    have more : 1 < count.toNat := UInt64.lt_iff_toNat_lt.mp left
    refine ⟨nonempty, by simpa [view] using record, last, count - 1, ?_, by simp [view], ?_⟩
    · intro zero
      rw [zero] at less
      simp at less
      omega
    · simp only [tookBlock, and_self, if_true]
      omega
  · intro missing
    exact absurd (by simpa [stored, view] using missing) here

theorem accounted_take_of_last (here : hist.db.stored owner num hash ≠ none)
    (last : ¬ 1 < hist.db.getSyncBlockCnt owner hash) :
    Accounted owner (tookBlock owner hist num hash) := by
  have view : (tookBlock owner hist num hash).db.view owner = update
      (update (update (hist.db.view owner) (.blockHash num) none)
        (.block num hash) none) (.count hash) none :=
    view_takeBlock_of_not_lt last
  refine accounted_of_elsewhere accounted (elsewhere_of_stored accounted here)
    (fun apart => by simp [stored, view, apart])
    (fun apart => by simp [view, apart]) (fun apart => by simp [view, apart])
    (fun apart => by simp [tookBlock, apart]) ?_ ?_
  · intro data got
    simp [stored, view] at got
  · intro _
    obtain ⟨data, got⟩ := ne_none_iff_exists'.mp here
    obtain ⟨count, -, countRecord, bound⟩ := (accounted.block num hash data got).count
    rw [getSyncBlockCnt_of_record countRecord, UInt64.lt_iff_toNat_lt] at last
    have one : count.toNat ≤ 1 := Nat.le_of_not_lt last
    refine ⟨by simp [view], by simp [view], ?_⟩
    simp only [tookBlock, and_self, if_true]
    omega

theorem takeBlock_of_missing (missing : hist.db.stored owner num hash = none)
    (noHash : hist.db.getSyncBlockHash owner num = emptyHash)
    (noCount : hist.db.getSyncBlockCnt owner hash = 0) :
    hist.db.takeBlock owner num hash = hist.db := by
  have none : ¬ 1 < hist.db.getSyncBlockCnt owner hash := by
    rw [noCount]
    decide
  rw [takeBlock, if_neg none, deleteSyncBlockHash,
    delete_of_none (blockHash_none accounted noHash), deleteSyncBlock,
    delete_of_none missing, delete_of_none (count_none accounted noCount)]

end

theorem accounted_step {hist : SyncHistory} {req : SyncRequest}
    (accounted : Accounted owner hist) (separate : Separate owner hist req) :
    Accounted owner (historyStep owner hist req) := by
  cases req with
  | upload num hash data => exact accounted_upload accounted separate
  | download num hash =>
    by_cases empty : hist.db.requested owner num hash = emptyHash
    · refine accounted_of_view accounted
        (by simp [historyStep, handle, downloadBlock, empty]) rfl ?_
      intro otherNum otherHash
      simp only [historyStep]
      split <;> omega
    · have took : historyStep owner hist (.download num hash) =
          tookBlock owner hist num (hist.db.requested owner num hash) := by
        simp [historyStep, handle, downloadBlock, empty, tookBlock]
      rw [took]
      by_cases here : hist.db.stored owner num (hist.db.requested owner num hash) = none
      · rcases separate with nothing | present | ⟨noHash, noCount⟩
        · exact absurd nothing empty
        · rw [here] at present
          cases present
        · have same := takeBlock_of_missing accounted here noHash noCount
          refine accounted_of_view accounted (by rw [tookBlock, same]) rfl ?_
          intro otherNum otherHash
          simp only [tookBlock]
          split <;> omega
      · by_cases left : 1 < hist.db.getSyncBlockCnt owner (hist.db.requested owner num hash)
        · exact accounted_take_of_lt accounted here left
        · exact accounted_take_of_last accounted here left

/-! ## What a download finds and what it leaves -/

/-- A download with the hash finds the data. -/
def FoundByHash (db : SyncDb) (owner : Owner) (num : UInt64) (hash : Hash)
    (data : List UInt8) : Prop :=
  hash ≠ emptyHash ∧ db.stored owner num hash = some data

/-- A download without a hash finds the data of the block. -/
def FoundByNumber (db : SyncDb) (owner : Owner) (num : UInt64) (hash : Hash)
    (data : List UInt8) : Prop :=
  db.getSyncBlockHash owner num = hash ∧ FoundByHash db owner num hash data

/-- A download finds a block with more uploads than downloads, leaves all other blocks, and changes
nothing if the block is not stored. -/
structure DownloadsWell (owner : Owner) (hist : SyncHistory) (num : UInt64) (hash : Hash) :
    Prop where
  finds : hist.downloads num hash < (hist.uploads num hash).length →
    (hist.uploads num hash).head? = some (hist.db.downloadBlock owner num hash).1
  leaves : ∀ otherNum otherHash data,
    (otherNum, otherHash) ≠ (num, hist.db.requested owner num hash) →
      (FoundByHash hist.db owner otherNum otherHash data →
        FoundByHash (hist.db.downloadBlock owner num hash).2 owner otherNum otherHash data) ∧
      (FoundByNumber hist.db owner otherNum otherHash data →
        FoundByNumber (hist.db.downloadBlock owner num hash).2 owner otherNum otherHash data)
  unchanged : hist.db.stored owner num (hist.db.requested owner num hash) = none →
    (hist.db.downloadBlock owner num hash).2 = hist.db

section

variable {hist : SyncHistory} (accounted : Accounted owner hist)

include accounted

theorem finds_of_accounted (more : hist.downloads num hash < (hist.uploads num hash).length) :
    (hist.uploads num hash).head? = some (hist.db.downloadBlock owner num hash).1 := by
  cases got : hist.db.stored owner num hash with
  | none =>
    have gone := accounted.gone num hash got
    omega
  | some data =>
    have records := accounted.block num hash data got
    have requested : hist.db.requested owner num hash = hash := by
      rw [requested, if_neg records.nonempty]
    have block : hist.db ((SyncKey.block num hash).bytes owner) = some data := got
    rw [records.last, downloadBlock, requested, if_neg records.nonempty,
      getSyncBlock, block, getD_some]

theorem takeBlock_leaves (here : hist.db.stored owner num hash ≠ none)
    (ne : ¬ (otherNum = num ∧ otherHash = hash))
    (stored : hist.db.stored owner otherNum otherHash ≠ none) :
    (hist.db.takeBlock owner num hash).stored owner otherNum otherHash =
        hist.db.stored owner otherNum otherHash ∧
      (hist.db.takeBlock owner num hash).view owner (.blockHash otherNum) =
        hist.db.view owner (.blockHash otherNum) := by
  have away := elsewhere_of_stored accounted here ne stored
  by_cases left : 1 < hist.db.getSyncBlockCnt owner hash
  · simp [SyncDb.stored, view_takeBlock_of_lt left]
  · simp [SyncDb.stored, view_takeBlock_of_not_lt left, away]

theorem downloadsWell_of_accounted (separate : Separate owner hist (.download num hash)) :
    DownloadsWell owner hist num hash := by
  have after : (hist.db.downloadBlock owner num hash).2 =
      if hist.db.requested owner num hash = emptyHash then hist.db
      else hist.db.takeBlock owner num (hist.db.requested owner num hash) := by
    rw [downloadBlock]
    split <;> rfl
  -- a block that is not stored is left as it is
  have unchanged (missing : hist.db.stored owner num (hist.db.requested owner num hash) = none) :
      (hist.db.downloadBlock owner num hash).2 = hist.db := by
    rw [after]
    rcases separate with empty | present | ⟨noHash, noCount⟩
    · rw [if_pos empty]
    · rw [missing] at present
      cases present
    · rw [takeBlock_of_missing accounted missing noHash noCount, ite_self]
  refine ⟨finds_of_accounted accounted, ?_, unchanged⟩
  intro otherNum otherHash data ne
  by_cases here : hist.db.stored owner num (hist.db.requested owner num hash) = none
  · rw [unchanged here]
    exact ⟨id, id⟩
  · by_cases empty : hist.db.requested owner num hash = emptyHash
    · rw [after, if_pos empty]
      exact ⟨id, id⟩
    · rw [after, if_neg empty]
      have leaves (got : FoundByHash hist.db owner otherNum otherHash data) :=
        takeBlock_leaves accounted here (fun same => ne (Prod.ext same.1 same.2))
          (show hist.db.stored owner otherNum otherHash ≠ none by simp [got.2])
      have kept (got : FoundByHash hist.db owner otherNum otherHash data) :
          FoundByHash (hist.db.takeBlock owner num (hist.db.requested owner num hash))
            owner otherNum otherHash data :=
        ⟨got.1, (leaves got).1.trans got.2⟩
      refine ⟨kept, fun got => ⟨?_, kept got.2⟩⟩
      have records := accounted.block otherNum otherHash data got.2.2
      exact getSyncBlockHash_of_record ((leaves got.2).2.trans records.hashRecord)

end

/-- In a run in which the blocks that are stored at the same time have different numbers and
different hashes, every download is as it should be. -/
theorem downloads_well_of_run (owner : Owner) (before : List SyncRequest) (num : UInt64)
    (hash : Hash) (separate : EachFold (historyStep owner) (Separate owner) {}
      (before ++ [.download num hash])) :
    DownloadsWell owner (before.foldl (historyStep owner) {}) num hash := by
  obtain ⟨prior, last⟩ := eachFold_append.mp separate
  have start : Accounted owner {} := by
    constructor <;> intros <;> simp_all [SyncDb.stored, SyncDb.view]
  exact downloadsWell_of_accounted (foldl_invariant (Accounted owner) accounted_step start prior)
    last.1

def exampleOwner : Owner where
  scsid := List.replicate 20 1
  subchainid := List.replicate 20 2

def historyOf (requests : List SyncRequest) : SyncHistory :=
  requests.foldl (historyStep exampleOwner) {}

theorem two_uploads_download_well :
    DownloadsWell exampleOwner
      (historyOf [.upload 1 7 [1], .upload 2 8 [2], .upload 1 7 [3], .download 1 7]) 1 7 :=
  downloads_well_of_run exampleOwner
    [.upload 1 7 [1], .upload 2 8 [2], .upload 1 7 [3], .download 1 7] 1 7 (by decide +kernel)

/-- With two uploads of block 1, the download of its hash under another number changes the count,
and the second download of block 1 finds nothing. With two blocks of a number, the download of the
first makes the second unreachable by the number. -/
theorem shared_records_lose_blocks :
    (let hist := historyOf [.upload 1 7 [1], .upload 1 7 [1]]
     hist.db.stored exampleOwner 2 7 = none ∧
       (hist.db.downloadBlock exampleOwner 2 7).2.getSyncBlockCnt exampleOwner 7 ≠
         hist.db.getSyncBlockCnt exampleOwner 7) ∧
      (let hist := historyOf [.upload 1 7 [1], .upload 1 7 [1], .download 2 7, .download 1 7]
       hist.downloads 1 7 < (hist.uploads 1 7).length ∧
         (hist.db.downloadBlock exampleOwner 1 7).1 = []) ∧
      (let hist := historyOf [.upload 1 7 [1], .upload 1 8 [2]]
       (hist.db.downloadBlock exampleOwner 1 emptyHash).1 = [2] ∧
         ((hist.db.downloadBlock exampleOwner 1 7).2.downloadBlock exampleOwner 1
           emptyHash).1 = []) := by
  decide +kernel

end MoacVnode.Vnode
