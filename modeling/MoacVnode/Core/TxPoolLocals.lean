import MoacVnode.Core.TxPoolCapacity
import MoacVnode.Core.TxPoolSlots

/-!
# Local accounts

The rules that drop transactions for their price, for the size of the pool or for
their age spare the accounts in `locals`.  They recognise a transaction by its
hash, so that the hash has to determine the sender.  `add` marks the sender of a
local transaction when it enqueues it, and not when it replaces a pending one.
-/

namespace MoacVnode.Core

open Lib TxPricedList Transaction
open RawSortedMap (Removes)
open TxPricedList (Swept)
open List

variable {rest : TxPricedList} {drop : List Transaction} {tx : Transaction}
  {accounts : Finset Address} {addr : Address} {hash : Hash} {place : Place} {nonce : Nat}

namespace TxPricedList

variable {all : TxMap} {list : TxPricedList} {locals : Finset Address}

theorem Swept.mem_of_rest (swept : Swept all list drop rest) (mem : tx ∈ rest.items) :
    tx ∈ list.items := by
  obtain ⟨stale, -, perm, -⟩ := swept.entries
  simp [perm.mem_iff, mem]

theorem Sweeps.remote {swept : List Transaction × List Transaction × TxPricedList}
    (sweeps : Sweeps all locals list swept) : ∀ tx ∈ swept.1, containsTx locals tx = false := by
  induction sweeps with
  | done => exact forall_mem_nil _
  | stale _ _ _ ih | save _ _ _ ih => exact ih
  | drop _ _ remote _ ih => exact forall_mem_cons.mpr ⟨Bool.not_eq_true _ ▸ remote, ih⟩

end TxPricedList

/-! ## Contents of some accounts -/

namespace Contents

/-- The contents agree on what belongs to some accounts, where a hash stands for an
account. -/
structure SameFor (accounts : Finset Address) (ownerOf : Hash → Address)
    (contents other : Contents) : Prop where
  held : ∀ place, ∀ addr ∈ accounts, other.held place addr = contents.held place addr
  all : ∀ hash, ownerOf hash ∈ accounts → other.all hash = contents.all hash

namespace SameFor

variable {ownerOf : Hash → Address} {contents mid other : Contents}

theorem refl (contents : Contents) : SameFor accounts ownerOf contents contents :=
  ⟨fun _ _ _ => rfl, fun _ _ => rfl⟩

theorem trans (first : SameFor accounts ownerOf contents mid)
    (second : SameFor accounts ownerOf mid other) : SameFor accounts ownerOf contents other :=
  ⟨fun place addr mem => (second.held place addr mem).trans (first.held place addr mem),
    fun hash mem => (second.all hash mem).trans (first.all hash mem)⟩

theorem setList (same : SameFor accounts ownerOf contents other) (foreign : addr ∉ accounts)
    (list : Nat → Option Transaction) :
    SameFor accounts ownerOf contents (other.setList place addr list) := by
  refine same.trans ⟨fun spot owner mem => if_neg ?_, fun _ _ => rfl⟩
  rintro ⟨-, rfl⟩
  exact foreign mem

theorem setAll (same : SameFor accounts ownerOf contents other)
    (foreign : ownerOf hash ∉ accounts) (val : Option Transaction) :
    SameFor accounts ownerOf contents (other.setAll hash val) := by
  refine same.trans ⟨fun _ _ _ => rfl, fun key mem => ?_⟩
  rw [all_setAll, if_neg]
  rintro rfl
  exact foreign mem

end SameFor

end Contents

namespace TxPool

open Contents (SameFor)

variable {lib : StateLib} {env : PoolEnv} {pool after origin : TxPool lib} {valid : Transaction}
  {removed txs : List Transaction} {senderOf : Hash → Option Address} {view : PoolView lib}
  {isLocal : Bool} {replaced : Bool}

/-! ## Hashes that stand for senders -/

/-- The hash of the transaction stands for its sender. -/
def Signs (senderOf : Hash → Option Address) (tx : Transaction) : Prop :=
  senderOf tx.hash = tx.sender
deriving Decidable

def ownerBy (senderOf : Hash → Option Address) (hash : Hash) : Address := (senderOf hash).getD 0

theorem Signs.ownerBy (signs : Signs senderOf tx) : ownerBy senderOf tx.hash = tx.owner := by
  rw [TxPool.ownerBy, signs, owner]

def signedRegime (senderOf : Hash → Option Address) : Regime where
  level := .recorded
  postpones := True
  good := Signs senderOf

/-- From a pool on the accounts stay local, and hashes stand for senders in the index
and in the price heap. -/
structure Attributed (senderOf : Hash → Option Address) (origin pool : TxPool lib) :
    Prop where
  config : pool.config = origin.config
  locals : origin.locals ⊆ pool.locals
  entries : ∀ {hash tx}, pool.all.lookup hash = some tx → Signs senderOf tx
  items : ∀ tx ∈ pool.priced.items, Signs senderOf tx

namespace Attributed

section

variable (attributed : Attributed senderOf origin pool)

include attributed

theorem congr (sameAll : after.all = pool.all) (sameLocals : after.locals = pool.locals)
    (sameConfig : after.config = pool.config)
    (items : ∀ tx ∈ after.priced.items, tx ∈ pool.priced.items) :
    Attributed senderOf origin after := by
  refine ⟨sameConfig.trans attributed.config, ?_, ?_, fun tx mem =>
    attributed.items tx (items tx mem)⟩
  · rw [sameLocals]
    exact attributed.locals
  · rw [sameAll]
    exact attributed.entries

theorem dropTx (hash : Hash) : Attributed senderOf origin (pool.dropTx hash) := by
  refine ⟨attributed.config, attributed.locals, fun got =>
    attributed.entries (Indexes.lookup_erase_eq got).2, ?_⟩
  change ∀ tx ∈ (pool.priced.removed (pool.choices 0) (pool.all.erase hash)).items, _
  unfold removed
  split
  · exact attributed.items
  · intro tx mem
    obtain ⟨entry, entryMem, rfl⟩ :=
      mem_map.mp ((Heap.init_perm Transaction.gasPrice _).mem_iff.mp mem)
    exact attributed.entries
      (Indexes.lookup_erase_eq (AList.mem_lookup_iff.mpr (mem_shuffle.mp entryMem))).2

theorem track (signs : Signs senderOf tx) : Attributed senderOf origin (pool.track hash tx) := by
  refine ⟨attributed.config, attributed.locals, fun {key other} got => ?_, fun other mem => ?_⟩
  · change (pool.all.insert hash tx).lookup key = some other at got
    by_cases same : key = hash
    · rw [same, AList.lookup_insert] at got
      cases got
      exact signs
    · rw [AList.lookup_insert_ne same] at got
      exact attributed.entries got
  · have perm : (pool.priced.put tx).items.Perm (tx :: pool.priced.items) :=
      Heap.push_perm Transaction.gasPrice pool.priced.items tx
    rcases mem_cons.mp (perm.mem_iff.mp mem) with rfl | prior
    · exact signs
    · exact attributed.items other prior

theorem reindex {postpones : Prop} (reindex : Reindex postpones pool after) :
    Attributed senderOf origin after := by
  induction reindex with
  | start => exact attributed
  | frame prior same ih =>
    exact ih.congr same.all same.locals same.config fun tx mem => same.priced ▸ mem
  | drop prior recorded ih => exact ih.dropTx _
  | requeue prior postponed recorded ih => exact ih.track (ih.entries recorded)

theorem insertion (signs : Signs senderOf tx) (grows : pool.locals ⊆ after.locals)
    (inserted : Insertion pool hash tx after) : Attributed senderOf origin after := by
  have grown {mid : TxPool lib} (same : SameEntries tx.owner mid after)
      (attributed : Attributed senderOf origin mid) (grows : mid.locals ⊆ after.locals) :
      Attributed senderOf origin after := by
    refine ⟨same.config.trans attributed.config, attributed.locals.trans grows, ?_, ?_⟩
    · rw [same.all]
      exact attributed.entries
    · rw [same.priced]
      exact attributed.items
  cases inserted with
  | refused contents entries => exact grown entries attributed grows
  | queued free contents entries => exact grown entries (attributed.track signs) grows
  | replaced place old key occupied sameKey contents entries =>
    exact grown entries ((attributed.dropTx old.hash).track signs) grows

end

end Attributed

variable (senderOf)

theorem indexRule_attributed (origin : TxPool lib) :
    IndexRule (signedRegime senderOf) (Attributed senderOf origin) where
  known := trivial
  reindex := fun attributed reindex => attributed.reindex reindex

/-! ## Marking -/

theorem locals_dropAll (txs : List Transaction) : (pool.dropAll txs).locals = pool.locals := by
  induction txs generalizing pool with
  | nil => rfl
  | cons tx txs ih => exact ih

theorem locals_enqueueTx : (pool.enqueueTx hash tx).1.locals = pool.locals := by
  unfold enqueueTx
  dsimp only
  split
  · rfl
  · exact locals_dropAll _

theorem locals_enqueueNew :
    pool.locals ⊆ (pool.enqueueNew hash tx isLocal).1.locals ∧
      (isLocal = true → ∀ {replaced}, (pool.enqueueNew hash tx isLocal).2 = .ok replaced →
        tx.owner ∈ (pool.enqueueNew hash tx isLocal).1.locals) := by
  have enqueued := @locals_enqueueTx tx hash lib pool
  unfold enqueueNew
  split
  · rename_i refused
    rw [refused] at enqueued
    exact ⟨enqueued.ge, fun _ _ accepted => nomatch accepted⟩
  · rename_i accepted
    rw [accepted] at enqueued
    cases isLocal with
    | false => exact ⟨enqueued.ge, fun isTrue => nomatch isTrue⟩
    | true =>
      exact ⟨enqueued.ge.trans (Finset.subset_insert _ _), fun _ _ _ => Finset.mem_insert_self _ _⟩

theorem locals_insertTx (pool : TxPool lib) (hash : Hash) (tx : Transaction) (isLocal : Bool) :
    pool.locals ⊆ (pool.insertTx hash tx isLocal).1.locals := by
  unfold insertTx
  split
  · exact locals_enqueueNew.1
  · split
    · unfold replacePending
      split
      · rfl
      · apply Eq.ge
        exact locals_dropAll _
    · exact locals_enqueueNew.1

theorem mem_locals_insertTx (notPending : pool.contents.held .pending tx.owner tx.nonce = none)
    (accepted : (pool.insertTx hash tx true).2 = .ok replaced) :
    tx.owner ∈ (pool.insertTx hash tx true).1.locals := by
  unfold insertTx at accepted ⊢
  cases got : pool.pending.lookup tx.owner with
  | none =>
    rw [got] at accepted
    exact locals_enqueueNew.2 rfl accepted
  | some list =>
    have apart : ¬ list.overlaps tx := by
      change listAt pool.pending tx.owner tx.nonce = none at notPending
      rw [listAt_of_lookup got] at notPending
      simp [TxList.overlaps, notPending]
    rw [got] at accepted
    simp only [if_neg apart] at accepted ⊢
    exact locals_enqueueNew.2 rfl accepted

/-! ## The pools of a run -/

def IsNewBy (pool : TxPool lib) (hash : Hash) (tx : Transaction) : Prop :=
  pool.IsNew hash tx ∧ Signs senderOf tx

abbrev Point (origin : TxPool lib) : TxPool lib → Prop :=
  Visited (fun _ _ => True) (IsNewBy senderOf) origin

abbrev Sound (origin : TxPool lib) : TxPool lib → Prop :=
  Indexed (signedRegime senderOf) (Attributed senderOf origin)

variable {senderOf}

theorem sound_chooseDiscards (sound : Sound senderOf origin pool) (tx : Transaction) :
    Sound senderOf origin (pool.chooseDiscards tx).2 := by
  obtain ⟨sameAll, sameLocals, sameConfig⟩ := chooseDiscards_same pool tx
  refine ⟨?_, sound.index.congr sameAll sameLocals sameConfig fun other mem => ?_⟩
  · rw [contents_chooseDiscards]
    exact sound.placed
  · rcases chose : pool.chooseDiscards tx with ⟨_ | drop, chosen⟩
    · rw [chose] at mem
      exact (chooseDiscards_asked chose).2.mem_of_rest mem
    · rw [chose] at mem
      exact (chooseDiscards_swept chose).2.mem_of_rest mem

theorem sound_reprice (sound : Sound senderOf origin pool) (price : Int) :
    Sound senderOf origin (pool.reprice price).2 :=
  ⟨sound.placed, sound.index.congr rfl rfl rfl fun _ mem =>
    (cap_swept pool.priced price pool.locals).mem_of_rest mem⟩

theorem Visited.sound (start : Sound senderOf origin origin)
    (visited : Point senderOf origin pool) : Sound senderOf origin pool := by
  have rule := indexRule_attributed senderOf origin
  have tidy {pool : TxPool lib} (sound : Sound senderOf origin pool) :
      Tidy (signedRegime senderOf) pool pool [] :=
    .of_placed sound.placed
  induction visited with
  | start => exact start
  | draw used prior sound | tick clock prior sound | directCalls calls prior sound
  | pangu flag prior sound | enterState state maxGas prior sound =>
    exact rule.frame sound rfl ⟨rfl, rfl, rfl, rfl⟩
  | promoteAccount prior ret sound => exact rule.maintained.promoteAccount sound ret
  | trimAccount prior ret sound => exact rule.maintained.trimAccount sound ret
  | sortQueue prior got sound =>
    exact rule.frame sound (contents_flattenQueue got) ⟨rfl, rfl, rfl, rfl⟩
  | removeTx prior allowed sound =>
    exact rule.of_tidy sound
      ((tidy sound).removeTx (fun full => nomatch full) fun _ => .inl trivial)
  | chooseDiscards tx prior sound => exact sound_chooseDiscards sound tx
  | @insertTx pool hash tx isLocal prior allowed sound =>
    have inserted := insertTx_insertion pool hash tx isLocal
    exact ⟨sound.placed.insertion allowed.2 (fun _ => allowed.1) inserted,
      sound.index.insertion allowed.2 (locals_insertTx pool hash tx isLocal) inserted⟩
  | reprice price prior sound => exact sound_reprice sound price
  | demoteAccount prior ret sound =>
    exact rule.of_tidy sound ((tidy sound).demoteAccount (fun _ => .inl trivial) ret)
  | updateVirtualNonce prior ret sound =>
    exact rule.of_tidy sound ((tidy sound).updateVirtualNonce ret)

/-! ## Operations on other accounts -/

section

variable {loose : List Transaction}

theorem ownerBy_of_held (placed : Placed .recorded (Signs senderOf) pool.contents loose)
    (held : pool.contents.held place addr nonce = some tx) : ownerBy senderOf tx.hash = addr := by
  rw [(placed.goodHeld held).ownerBy, (placed.slot held).1]

theorem sameFor_dropTx (foreign : ownerBy senderOf hash ∉ accounts) :
    SameFor accounts (ownerBy senderOf) pool.contents (pool.dropTx hash).contents := by
  rw [contents_dropTx]
  exact (SameFor.refl _).setAll foreign none

theorem sameFor_dropAll (foreign : ∀ tx ∈ txs, ownerBy senderOf tx.hash ∉ accounts) :
    SameFor accounts (ownerBy senderOf) pool.contents (pool.dropAll txs).contents := by
  induction txs generalizing pool with
  | nil => exact .refl _
  | cons tx txs ih =>
    obtain ⟨first, rest⟩ := forall_mem_cons.mp foreign
    exact (sameFor_dropTx first).trans (ih rest)

theorem contents_dropLowering :
    (txs.foldl (fun pool tx => (pool.dropTx tx.hash).lowerVirtualNonce addr tx.nonce)
      pool).contents = (pool.dropAll txs).contents := by
  induction txs using List.reverseRecOn with
  | nil => rfl
  | append_singleton txs tx ih =>
    simp only [dropAll, foldl_append, foldl_cons, foldl_nil,
      contents_lowerVirtualNonce, contents_dropTx] at ih ⊢
    rw [ih]

theorem sameFor_enqueueAll
    (placed : Placed .recorded (Signs senderOf) pool.contents (removed ++ loose))
    (foreign : ∀ tx ∈ removed, tx.owner ∉ accounts) :
    SameFor accounts (ownerBy senderOf) pool.contents (pool.enqueueAll removed).contents := by
  induction removed generalizing pool with
  | nil => exact .refl _
  | cons tx removed ih =>
    obtain ⟨first, rest⟩ := forall_mem_cons.mp foreign
    have tidy : Tidy (signedRegime senderOf) pool pool (tx :: (removed ++ loose)) :=
      .of_placed placed
    have signs := placed.goodLoose tx mem_cons_self
    have enqueued : SameFor accounts (ownerBy senderOf) pool.contents
        (pool.enqueueTx tx.hash tx).1.contents := by
      rw [contents_enqueueTx (placed.free tx mem_cons_self .queue)]
      exact ((SameFor.refl _).setList first _).setAll (signs.ownerBy ▸ first) _
    exact enqueued.trans (ih (tidy.enqueueTx fun _ => trivial).placed rest)

section

variable (sound : Sound senderOf origin pool)

include sound

theorem sameFor_removeTx (foreign : ownerBy senderOf hash ∉ accounts) :
    SameFor accounts (ownerBy senderOf) pool.contents (pool.removeTx hash).contents := by
  cases got : pool.all.lookup hash with
  | none =>
    rw [removeTx_of_missing got]
    exact .refl _
  | some tx =>
    have notOwner : tx.owner ∉ accounts := by
      rw [← (sound.index.entries got).ownerBy, sound.placed.keyed trivial got]
      exact foreign
    have dropped : SameFor accounts _ pool.contents _ := sameFor_dropTx foreign
    cases pendingSlot : pool.contents.held .pending tx.owner tx.nonce with
    | none =>
      rw [removeTx_of_free got pendingSlot]
      cases queued : pool.queue.lookup tx.owner with
      | none =>
        rwa [removeQueued_of_missing (pool.dropTx hash) queued]
      | some list =>
        rw [contents_removeQueued (pool.dropTx hash) queued]
        exact dropped.setList notOwner _
    | some other =>
      obtain ⟨list, listFound, listHeld⟩ := exists_list pendingSlot
      have isHeld : (list.get tx.nonce).isSome := by simp [listHeld]
      have taken := (@Tidy.takePendingSlot lib pool tx hash (signedRegime senderOf) list
        sound.placed got listFound isHeld fun full => nomatch full).placed
      have followersOwner : ∀ follower ∈ (list.remove (pool.dropTx hash).choices tx).2.1,
            follower.owner ∉ accounts := by
        intro follower mem
        have held := (@TxList.remove_found true list (pool.dropTx hash).choices tx
          isHeld).2.removes.held follower (mem_append_right _ mem)
        rw [← listAt_of_lookup listFound] at held
        rwa [(sound.placed.slot (show pool.contents.held .pending _ _ = _ from held)).1]
      rw [removeTx_of_found got, removePending_eq_some (pool.dropTx hash) listFound isHeld,
        Option.getD_some, contents_lowerVirtualNonce]
      generalize list.remove (pool.dropTx hash).choices tx = res at taken followersOwner
      split
      · rw [contents_deletePending]
        exact dropped.setList notOwner _
      · have set : SameFor accounts (ownerBy senderOf) pool.contents
            (((pool.dropTx hash).draw 2).setPending tx.owner res.2.2).contents := by
          rw [contents_setPending]
          exact dropped.setList notOwner _
        rw [← append_nil res.2.1] at taken
        exact set.trans (sameFor_enqueueAll taken followersOwner)

theorem sameFor_removeAll (foreign : ∀ tx ∈ txs, ownerBy senderOf tx.hash ∉ accounts) :
    SameFor accounts (ownerBy senderOf) pool.contents (pool.removeAll txs).contents := by
  induction txs generalizing pool with
  | nil => exact .refl _
  | cons tx txs ih =>
    obtain ⟨first, rest⟩ := forall_mem_cons.mp foreign
    have tidy : Tidy (signedRegime senderOf) pool pool [] := .of_placed sound.placed
    have next : Sound senderOf origin (pool.removeTx tx.hash) :=
      (indexRule_attributed senderOf origin).of_tidy sound
        (tidy.removeTx (fun full => nomatch full) fun _ => .inl trivial)
    exact (sameFor_removeTx sound first).trans (ih next rest)

theorem sameFor_removeFlattened {list : TxList false} (foreign : addr ∉ accounts)
    (got : pool.queue.lookup addr = some list) (queued : ∀ tx ∈ txs, tx ∈ list.flatten.1) :
    SameFor accounts (ownerBy senderOf) pool.contents
      ((pool.setQueue addr list.flatten.2).removeAll txs).contents := by
  have flattened : Sound senderOf origin (pool.setQueue addr list.flatten.2) :=
    (indexRule_attributed senderOf origin).frame sound (contents_flattenQueue got)
      ⟨rfl, rfl, rfl, rfl⟩
  rw [← contents_flattenQueue got]
  refine sameFor_removeAll flattened fun tx mem => ?_
  rwa [ownerBy_of_held sound.placed (held_of_queued got (queued tx mem))]

end

theorem sameFor_trimAccount {counted trimmed : TxPool lib × Nat}
    (sound : Sound senderOf origin counted.1) (foreign : addr ∉ accounts)
    (ret : trimAccount counted addr = .ok trimmed) :
    SameFor accounts (ownerBy senderOf) counted.1.contents trimmed.1.contents := by
  unfold trimAccount at ret
  split at ret
  · cases ret
  · rename_i list got
    split at ret
    · cases ret
    · rename_i drops capped capReturned
      cases ret
      have set : SameFor accounts (ownerBy senderOf) counted.1.contents
          (counted.1.setPending addr capped).contents := by
        rw [contents_setPending]
        exact (SameFor.refl _).setList foreign _
      rw [contents_dropLowering]
      refine set.trans (sameFor_dropAll fun tx mem => ?_)
      have held := (TxList.cap_spec capReturned).1.held tx mem
      rw [← listAt_of_lookup got] at held
      rwa [ownerBy_of_held sound.placed
        (show counted.1.contents.held .pending addr tx.nonce = some tx from held)]

theorem sameFor_capQueued {list capped : TxList false} (sound : Sound senderOf origin pool)
    (listGet : pool.contents.held .queue addr = list.get)
    (ret : pool.capQueued addr list = .ok (after, capped)) :
    SameFor pool.locals (ownerBy senderOf) pool.contents after.contents := by
  unfold capQueued at ret
  split at ret
  · cases ret
    exact .refl _
  · rename_i foreign
    split at ret
    · cases ret
    · rename_i drops rest capReturned
      cases ret
      have set : SameFor pool.locals (ownerBy senderOf) pool.contents
          (pool.setQueue addr capped).contents := by
        rw [contents_setQueue]
        exact (SameFor.refl _).setList foreign _
      refine set.trans (sameFor_dropAll fun tx mem => ?_)
      have held := (TxList.cap_spec capReturned).1.held tx mem
      rw [← listGet] at held
      rwa [ownerBy_of_held sound.placed held]

end

/-! ## The rules spare local accounts -/

/-- No transaction of a local account leaves the pool. -/
structure KeepsLocals (pool after : TxPool lib) : Prop where
  held : ∀ place, ∀ addr ∈ pool.locals,
    after.contents.held place addr = pool.contents.held place addr
  all : ∀ {hash tx}, pool.all.lookup hash = some tx → tx.owner ∈ pool.locals →
    after.all.lookup hash = some tx

theorem keepsLocals_of_sameFor (sound : Sound senderOf origin pool)
    (same : SameFor pool.locals (ownerBy senderOf) pool.contents after.contents) :
    KeepsLocals pool after := by
  refine ⟨same.held, fun {hash tx} got isLocal => ?_⟩
  refine (same.all hash ?_).trans got
  rwa [← sound.placed.keyed trivial got, (sound.index.entries got).ownerBy]

/-- The rules that drop transactions spare the local accounts. -/
structure SparesLocals (env : PoolEnv) (pool : TxPool lib) : Prop where
  discard : ∀ view tx isLocal, KeepsLocals pool
    ((pool.discards env view tx isLocal).2.removeAll (pool.discards env view tx isLocal).1)
  setGasPrice : ∀ price, KeepsLocals pool (pool.setGasPrice price)
  truncatePending : ∀ {after}, pool.truncatePending = .ok after → KeepsLocals pool after
  /-- The limit of an account, applied in `promoteExecutables` once the executable
  transactions have been promoted. -/
  capQueued : ∀ {addr list after capped}, pool.queue.lookup addr = some list →
    let payable := pool.dropUnpayableQueued addr list
    let promoted := payable.1.promoteReady addr payable.2
    promoted.1.capQueued addr promoted.2 = .ok (after, capped) → KeepsLocals promoted.1 after
  truncateQueue : ∀ {after}, pool.truncateQueue = .ok after → KeepsLocals pool after
  evict : KeepsLocals pool pool.evict

theorem foreign_of_swept (sound : Sound senderOf origin pool)
    (swept : Swept pool.all pool.priced drop rest)
    (remote : ∀ tx ∈ drop, containsTx pool.locals tx = false) :
    ∀ tx ∈ drop, ownerBy senderOf tx.hash ∉ pool.locals := by
  intro tx mem
  obtain ⟨other, got⟩ := Option.isSome_iff_exists.mp (swept.dropped tx mem)
  obtain ⟨stale, -, perm, -⟩ := swept.entries
  have signs : senderOf tx.hash = tx.sender := sound.index.items tx (by simp [perm.mem_iff, mem])
  have otherSigns : senderOf other.hash = other.sender := sound.index.entries got
  rw [sound.placed.keyed trivial got, signs] at otherSigns
  obtain ⟨sender, isSender⟩ := Option.isSome_iff_exists.mp (sound.placed.signed trivial got)
  have notLocal := remote tx mem
  rw [← otherSigns] at isSender
  simp only [containsTx, isSender] at notLocal
  simpa [ownerBy, signs, isSender] using notLocal

theorem chooseDiscards_remote {chosen : TxPool lib}
    (chose : pool.chooseDiscards tx = (some drop, chosen)) :
    ∀ tx ∈ drop, containsTx pool.locals tx = false := by
  unfold chooseDiscards at chose
  split at chose
  · cases chose
    exact forall_mem_nil _
  · dsimp only at chose
    split at chose
    · cases chose
    · cases chose
      exact discardLoop_sweeps.remote

theorem sound_discards (sound : Sound senderOf origin pool) :
    Sound senderOf origin (pool.discards env view tx isLocal).2 ∧
      ∀ old ∈ (pool.discards env view tx isLocal).1, ownerBy senderOf old.hash ∉ pool.locals := by
  unfold discards
  split
  · exact ⟨sound, forall_mem_nil _⟩
  · split
    · exact ⟨sound, forall_mem_nil _⟩
    · rename_i valid validated
      have asked := sound_chooseDiscards sound valid
      split
      · rename_i chose
        rw [chose] at asked
        exact ⟨asked, forall_mem_nil _⟩
      · rename_i chose
        rw [chose] at asked
        exact ⟨asked, foreign_of_swept sound (chooseDiscards_swept chose).2
          (chooseDiscards_remote chose)⟩

theorem spammers_remote : ∀ addr ∈ pool.spammers, addr ∉ pool.locals := by
  intro addr mem
  simp only [spammers, mem_map, mem_insertionSort, mem_filter, decide_eq_true_eq] at mem
  obtain ⟨entry, ⟨-, notLocal, -⟩, rfl⟩ := mem
  exact notLocal

theorem byHeartbeat_remote : ∀ addr ∈ pool.byHeartbeat, addr ∉ pool.locals := by
  intro addr mem
  simp only [byHeartbeat, mem_reverse, mem_insertionSort, mem_filter, decide_eq_true_eq] at mem
  exact mem.2

theorem sparesLocals_of_sound (sound : Sound senderOf origin pool) : SparesLocals env pool := by
  have rule := indexRule_attributed senderOf pool
  have self : Sound senderOf pool pool :=
    ⟨sound.placed, rfl, Finset.Subset.refl _, sound.index.entries, sound.index.items⟩
  let spared (after : TxPool lib) : Prop :=
    Sound senderOf pool after ∧ SameFor pool.locals (ownerBy senderOf) pool.contents after.contents
  have start : spared pool := ⟨self, .refl _⟩
  have drawn : spared (pool.draw 1) := ⟨rule.maintained.draw 1 self, .refl _⟩
  have removeQueued {mid : TxPool lib} {addr : Address} {list : TxList false}
      {txs : List Transaction} (foreign : addr ∉ pool.locals) (kept : spared mid)
      (got : mid.queue.lookup addr = some list)
      (queued : ∀ tx ∈ txs, tx ∈ list.flatten.1) :
      spared ((mid.setQueue addr list.flatten.2).removeAll txs) :=
    ⟨rule.maintained.removeQueued kept.1 got queued,
      kept.2.trans (sameFor_removeFlattened kept.1 foreign got queued)⟩
  refine ⟨fun view tx isLocal => ?_, fun price => ?_, fun ret => ?_,
    fun {addr list after capped} got => ?_, fun ret => ?_, ?_⟩
  · obtain ⟨discarded, foreign⟩ := @sound_discards tx _ env pool pool senderOf view isLocal self
    have removed := sameFor_removeAll discarded foreign
    rw [contents_discards] at removed
    exact keepsLocals_of_sameFor self removed
  · exact keepsLocals_of_sameFor self (sameFor_removeAll (sound_reprice self price)
      (foreign_of_swept self (cap_swept pool.priced price pool.locals) capLoop_sweeps.remote))
  · have kept : spared _ := truncatePending_keeps
      (fun foreign kept trimmed => ⟨rule.maintained.trimAccount kept.1 trimmed,
        kept.2.trans (sameFor_trimAccount kept.1 foreign trimmed)⟩)
      spammers_remote drawn start ret
    exact keepsLocals_of_sameFor self kept.2
  · intro payable promoted ret
    have tidy : Tidy (signedRegime senderOf) pool pool [] := .of_placed sound.placed
    obtain ⟨payableTidy, payableGet⟩ := tidy.dropUnpayableQueued (listAt_of_lookup got)
    obtain ⟨promotedTidy, promotedGet⟩ := payableTidy.promoteReady payableGet
    have promotedSound : Sound senderOf pool promoted.1 := rule.of_tidy self promotedTidy
    exact keepsLocals_of_sameFor promotedSound (sameFor_capQueued promotedSound promotedGet ret)
  · have kept : spared _ := truncateQueue_keeps removeQueued byHeartbeat_remote drawn start ret
    exact keepsLocals_of_sameFor self kept.2
  · have kept : spared pool.evict :=
      evict_keeps removeQueued (fun kept => ⟨rule.maintained.tick kept.1, kept.2⟩)
        (fun kept notLocal isLocal => notLocal (kept.1.index.locals isLocal)) drawn
    exact keepsLocals_of_sameFor self kept.2

/-! ## Arrival -/

/-- The sender of a local transaction is local already, or it replaces no pending one and finds room
or a cheaper one. -/
def Welcomes (pool : TxPool lib) (tx : Transaction) : Prop :=
  tx.owner ∈ pool.locals ∨
    pool.contents.held .pending tx.owner tx.nonce = none ∧
      (pool.all.entries.length < pool.capacity ∨
        (pool.priced.underpriced pool.all tx pool.locals).1 = false)
deriving Decidable

def WelcomesValid (pool : TxPool lib) : Except TxPoolError Transaction → Prop
  | .ok valid => pool.Welcomes valid
  | .error _ => True

instance (pool : TxPool lib) : DecidablePred pool.WelcomesValid := fun validated => by
  cases validated <;> unfold WelcomesValid <;> infer_instance

theorem validateTx_local_ne_underpriced :
    pool.validateTx env view tx true ≠ .error .underpriced := by
  unfold validateTx
  cases tx.sender with
  | none => grind
  | some sender => grind

theorem insertTx_ne_underpriced : (pool.insertTx hash tx isLocal).2 ≠ .error .underpriced := by
  have enqueued : (pool.enqueueNew hash tx isLocal).2 ≠ .error .underpriced := by
    unfold enqueueNew enqueueTx
    split <;> grind
  unfold insertTx replacePending
  split
  · exact enqueued
  · split
    · split <;> simp
    · exact enqueued

theorem chooseDiscards_of_welcome (signed : tx.sender.isSome) (welcomes : pool.Welcomes tx) :
    ∃ drop chosen, pool.chooseDiscards tx = (some drop, chosen) := by
  have notAsked : pool.all.entries.length < pool.capacity ∨
      (pool.priced.underpriced pool.all tx pool.locals).1 = false := by
    rcases welcomes with isLocal | ⟨-, room⟩
    · obtain ⟨sender, isSender⟩ := Option.isSome_iff_exists.mp signed
      have contains : containsTx pool.locals tx = true := by
        simpa [containsTx, isSender, owner] using isLocal
      simp [underpriced, contains]
    · exact room
  unfold chooseDiscards
  rcases notAsked with room | notUnderpriced
  · simp [room]
  · by_cases room : pool.all.entries.length < pool.capacity
    · simp [room]
    · simp [room, notUnderpriced]

theorem add_ne_underpriced (welcomes : pool.WelcomesValid (pool.validateTx env view tx true)) :
    (pool.add env view tx true).2 ≠ .error .underpriced := by
  unfold add
  split
  · simp
  · split
    · rename_i failed
      intro underpriced
      cases underpriced
      exact validateTx_local_ne_underpriced failed
    · rename_i valid validated
      rw [validated] at welcomes
      obtain ⟨drop, chosen, chose⟩ :=
        chooseDiscards_of_welcome (validateTx_eq_ok validated).signed welcomes
      rw [chose]
      exact insertTx_ne_underpriced

theorem pending_removeTx_of_held {list : TxList true} (got : pool.all.lookup hash = some tx)
    (listFound : pool.pending.lookup tx.owner = some list) (isHeld : (list.get tx.nonce).isSome) :
    (pool.removeTx hash).contents.held .pending =
      (pool.contents.setList .pending tx.owner
        (list.remove (pool.dropTx hash).choices tx).2.2.get).held .pending := by
  rw [removeTx_of_found got, removePending_eq_some (pool.dropTx hash) listFound isHeld,
    Option.getD_some, contents_lowerVirtualNonce]
  split
  · rename_i isEmpty
    rw [contents_deletePending, ← get_eq_of_empty isEmpty]
    rfl
  · rw [pending_enqueueAll, contents_setPending]
    rfl

theorem pending_removeTx_of_free (free : pool.contents.held .pending addr nonce = none) :
    (pool.removeTx hash).contents.held .pending addr nonce = none := by
  cases got : pool.all.lookup hash with
  | none => rwa [removeTx_of_missing got]
  | some tx =>
    cases pendingSlot : pool.contents.held .pending tx.owner tx.nonce with
    | none =>
      rwa [removeTx_of_free got pendingSlot, pending_removeQueued, contents_dropTx]
    | some other =>
      obtain ⟨list, listFound, listHeld⟩ := exists_list pendingSlot
      have isHeld : (list.get tx.nonce).isSome := by simp [listHeld]
      have removes :=
        (@TxList.remove_found true list (pool.dropTx hash).choices tx isHeld).2.removes
      rw [← listAt_of_lookup listFound] at removes
      rw [pending_removeTx_of_held got listFound isHeld]
      rcases Placed.held_setList_of_removes (show Removes
        (pool.contents.held .pending tx.owner) _ _ from removes) .pending addr nonce with
        same | gone
      · rw [same, free]
      · exact gone.1

theorem pending_removeAll_of_free (free : pool.contents.held .pending addr nonce = none) :
    (pool.removeAll txs).contents.held .pending addr nonce = none := by
  induction txs generalizing pool with
  | nil => exact free
  | cons tx txs ih => exact ih (pending_removeTx_of_free free)

theorem signed_of_accepted (accepted : (pool.add env view tx isLocal).2 = .ok replaced) :
    tx.sender.isSome := by
  unfold add at accepted
  split at accepted
  · cases accepted
  · split at accepted
    · cases accepted
    · rename_i valid validated
      rw [← (validateTx_eq_ok validated).sameSender]
      exact (validateTx_eq_ok validated).signed

theorem mem_locals_add (sound : Sound senderOf origin pool)
    (welcomes : pool.WelcomesValid (pool.validateTx env view tx true))
    (accepted : (pool.add env view tx true).2 = .ok replaced) :
    tx.owner ∈ (pool.add env view tx true).1.locals := by
  unfold add at accepted ⊢
  split at accepted
  · cases accepted
  · rename_i unknown
    rw [if_neg unknown]
    split at accepted
    · cases accepted
    · rename_i valid validated
      have owner : valid.owner = tx.owner := by
        rw [owner, (validateTx_eq_ok validated).sameSender, owner]
      rw [validated] at welcomes
      split at accepted
      · cases accepted
      · rename_i drop chosen chose
        have asked := sound_chooseDiscards sound valid
        obtain ⟨-, sameLocals, -⟩ := chooseDiscards_same pool valid
        have sameContents := contents_chooseDiscards pool valid
        rw [chose] at asked sameLocals sameContents
        rw [← owner]
        rcases welcomes with isLocal | ⟨notPending, -⟩
        · have removed : Tidy (signedRegime senderOf) chosen (chosen.removeAll drop) [] :=
            Placed.removeAll asked.placed False.elim
          apply locals_insertTx
          rwa [(removed.reindex trivial).locals, sameLocals]
        · refine mem_locals_insertTx (pending_removeAll_of_free ?_) accepted
          rwa [sameContents]

/-! ## Local accounts along a run -/

/-- Every added transaction has a hash that stands for its sender, and a local one is
welcome. -/
def whitelisting (env : PoolEnv) (senderOf : Hash → Option Address) : Conditions lib where
  add view isLocal pool tx :=
    Signs senderOf tx ∧ (isLocal = true → pool.WelcomesValid (pool.validateTx env view tx isLocal))
  reprice _ _ := True
  settle _ := True

instance (view : PoolView lib) (isLocal : Bool) (pool : TxPool lib) (tx : Transaction) :
    Decidable ((whitelisting env senderOf).add view isLocal pool tx) :=
  inferInstanceAs (Decidable (_ ∧ (_ → _)))

instance (pool : TxPool lib) (price : Int) :
    Decidable ((whitelisting env senderOf).reprice pool price) :=
  .isTrue trivial

instance (pool : TxPool lib) : Decidable ((whitelisting env senderOf).settle pool) :=
  .isTrue trivial

theorem allows_signed {conds : Conditions lib}
    (signed : ∀ {view isLocal pool tx}, conds.add view isLocal pool tx → Signs senderOf tx)
    (keepsHash : ∀ tx nonce, (env.updateNonce tx nonce).hash = tx.hash)
    (start : Sound senderOf origin origin) :
    Allows env conds (fun _ _ => True) (IsNewBy senderOf) origin where
  add := by
    intro pool view tx isLocal visited meets
    refine ⟨eachFold_of_forall (fun _ _ => trivial) _ _, fun valid unknown validated => ?_⟩
    have spec := validateTx_eq_ok validated
    have hashEq := validateTx_hash keepsHash validated
    refine ⟨isNew_of_validated (show Tracking.recorded.Known from trivial)
      (visited.sound start).placed (fun full => nomatch full) unknown validated
      hashEq, ?_⟩
    rw [Signs, hashEq, spec.sameSender]
    exact signed meets
  reprice := fun _ _ => eachFold_of_forall (fun _ _ => trivial) _ _
  queued := fun _ _ _ => eachFold_of_forall (fun _ _ => trivial) _ _

theorem allows_whitelisting (keepsHash : ∀ tx nonce, (env.updateNonce tx nonce).hash = tx.hash)
    (start : Sound senderOf origin origin) :
    Allows env (whitelisting env senderOf) (fun _ _ => True) (IsNewBy senderOf) origin :=
  allows_signed And.left keepsHash start

theorem sound_self (sound : Sound senderOf origin pool) : Sound senderOf pool pool :=
  ⟨sound.placed, rfl, Finset.Subset.refl _, sound.index.entries, sound.index.items⟩

theorem sound_newTxPool (senderOf : Hash → Option Address) (config : TxPoolConfig)
    (state : lib.StateDB) (maxGas : Int) (choices : Nat → Nat) (clock : Nat → Int) :
    Sound senderOf (newTxPool config state maxGas choices clock)
      (newTxPool config state maxGas choices clock) :=
  ⟨placed_newTxPool config state maxGas choices clock, rfl, Finset.Subset.refl _,
    fun got => (nomatch got), forall_mem_nil _⟩

theorem addLocal_whitelists (keepsHash : ∀ tx nonce, (env.updateNonce tx nonce).hash = tx.hash)
    (sound : Sound senderOf origin pool) (honoured : pool.config.noLocals = false)
    (pooled : tx.shardingFlag = 0)
    (meets : Meets env (whitelisting env senderOf) pool ⟨view, .addLocal tx⟩) :
    (pool.add env view tx true).2 ≠ .error .underpriced ∧
      ∀ replaced, (pool.add env view tx true).2 = .ok replaced →
        ∀ after, step env pool ⟨view, .addLocal tx⟩ = .ok after →
          ∀ more last, EachStep (step env) (Meets env (whitelisting env senderOf)) after more →
            run (step env) after more = .ok last → tx.owner ∈ last.locals := by
  change MeetsAdd _ _ _ _ _ at meets
  rw [MeetsAdd, honoured, Bool.not_false] at meets
  have meetsAdd := meets.resolve_left fun sharded => sharded pooled
  have welcomes := meetsAdd.2 rfl
  refine ⟨add_ne_underpriced welcomes, fun replaced accepted after taken more last conds ran => ?_⟩
  have marked := mem_locals_add sound welcomes accepted
  have added : Sound senderOf pool (pool.add env view tx true).1 :=
    ((allows_whitelisting keepsHash (sound_self sound)).kept.add .start meetsAdd).sound
      (sound_self sound)
  have fromAdded := allows_whitelisting keepsHash (sound_self added)
  have visited : Point senderOf (pool.add env view tx true).1 after := by
    change pool.addTx env view tx (!pool.config.noLocals) = .ok after at taken
    rw [honoured, Bool.not_false, addTx] at taken
    split at taken
    · rename_i unsigned
      have signed := signed_of_accepted accepted
      rw [unsigned] at signed
      cases signed
    · rw [if_neg (not_not.mpr pooled)] at taken
      split at taken
      · rename_i mid isAdded
        rw [isAdded]
        rw [isAdded] at fromAdded
        exact fromAdded.kept.promoteExecutables .start taken
      · rename_i mid _ isAdded
        cases taken
        rw [isAdded]
        exact .start
  exact (((fromAdded.preserves.run visited conds ran).sound (sound_self added)).index.locals) marked

/-- In a run the rules spare the transactions of local accounts. If its local transactions are
welcome, `AddLocal` never answers that one is underpriced, and the sender of one that it accepts is
local from then on. -/
theorem local_exemption_of_run (env : PoolEnv)
    (keepsHash : ∀ tx nonce, (env.updateNonce tx nonce).hash = tx.hash)
    (senderOf : Hash → Option Address) (config : TxPoolConfig)
    (honoured : config.noLocals = false) (state : lib.StateDB) (maxGas : Int)
    (choices : Nat → Nat) (clock : Nat → Int) :
    let origin := newTxPool config state maxGas choices clock
    let meets := Meets env (whitelisting env senderOf)
    (∀ pool, Point senderOf origin pool → SparesLocals env pool) ∧
    ∀ inputs pool, EachStep (step env) meets origin inputs →
      run (step env) origin inputs = .ok pool → Point senderOf origin pool ∧
        ∀ view tx, tx.shardingFlag = 0 → meets pool ⟨view, .addLocal tx⟩ →
          (pool.add env view tx (!pool.config.noLocals)).2 ≠ .error .underpriced ∧
          ∀ replaced, (pool.add env view tx (!pool.config.noLocals)).2 = .ok replaced →
            ∀ after, step env pool ⟨view, .addLocal tx⟩ = .ok after →
              ∀ more last, EachStep (step env) meets after more →
                run (step env) after more = .ok last → tx.owner ∈ last.locals := by
  intro origin meets
  have start : Sound senderOf origin origin :=
    sound_newTxPool senderOf config state maxGas choices clock
  refine ⟨fun pool visited => sparesLocals_of_sound (visited.sound start),
    fun inputs pool conds ran => ?_⟩
  have visited : Point senderOf origin pool :=
    (allows_whitelisting keepsHash start).preserves.run .start conds ran
  refine ⟨visited, fun view tx pooled met => ?_⟩
  have sound := visited.sound start
  have stillHonoured : pool.config.noLocals = false := by
    rw [sound.index.config]
    exact honoured
  rw [stillHonoured]
  exact addLocal_whitelists keepsHash sound stillHonoured pooled met

def poolOfOne : TxPool .plain :=
  @newTxPool .plain { priceLimit := 1, globalSlots := 1, globalQueue := 0 }
    (fun _ => (0, 10 ^ 9)) (10 ^ 6) (fun _ => 0) fun _ => 0

/-- A local transaction that replaced a pending one leaves its sender unmarked, and the next price
drops it; the first one of an account does not get into a full pool. -/
theorem local_transaction_dropped :
    (∃ pool, run (step .plain) freshPool [⟨genesisView, .addRemote (transfer 10 0 1)⟩,
          ⟨genesisView, .addLocal (transfer 11 0 2)⟩] = .ok pool ∧
      pool.contents.held .pending 1 0 = some (transfer 11 0 2) ∧ 1 ∉ pool.locals ∧
      (pool.setGasPrice 3).all.lookup 11 = none) ∧
    ∃ pool, run (step .plain) poolOfOne [⟨genesisView, .addRemote (transfer 10 0 5)⟩] = .ok pool ∧
      (pool.add .plain genesisView (transferOf 2 12 0 1) true).2 = .error .underpriced := by
  decide +kernel

/-- The first local transaction of an account finds a full pool and pays more than the
one it finds there. -/
theorem first_local_transaction_marks :
    ∃ pool, run (step .plain) poolOfOne [⟨genesisView, .addRemote (transfer 10 0 1)⟩] =
        .ok pool ∧ SparesLocals .plain pool ∧
      ∃ after, step .plain pool ⟨genesisView, .addLocal (transferOf 2 12 0 5)⟩ = .ok after ∧
        2 ∈ after.locals := by
  let senderOf (hash : Hash) : Option Address := if hash = 10 then some 1 else some 2
  obtain ⟨pool, ran, meets, accepted, after, taken, -⟩ :
      ∃ pool, run (step .plain) poolOfOne [⟨genesisView, .addRemote (transfer 10 0 1)⟩] = .ok pool ∧
        Meets .plain (whitelisting .plain senderOf) pool
          ⟨genesisView, .addLocal (transferOf 2 12 0 5)⟩ ∧
        (pool.add .plain genesisView (transferOf 2 12 0 5) (!pool.config.noLocals)).2 = .ok false ∧
        ∃ after, step .plain pool ⟨genesisView, .addLocal (transferOf 2 12 0 5)⟩ =
          .ok after ∧ True := by
    decide +kernel
  obtain ⟨spares, alongRun⟩ :=
    @local_exemption_of_run .plain .plain (fun _ _ => rfl) senderOf
      { priceLimit := 1, globalSlots := 1, globalQueue := 0 } rfl (fun _ => (0, 10 ^ 9))
      (10 ^ 6) (fun _ => 0) fun _ => 0
  obtain ⟨visited, arrival⟩ := alongRun _ pool (by decide +kernel) ran
  exact ⟨pool, ran, spares pool visited, after, taken,
    (arrival genesisView _ rfl meets).2 false accepted after taken [] after trivial rfl⟩

end TxPool

end MoacVnode.Core
