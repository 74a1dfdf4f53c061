import MoacVnode.Core.NonceLane
import MoacVnode.Core.TxPoolAdmission

/-!
# Executability of the pending transactions

After every operation the pending nonces of an account reach from its nonce in
the state of the head up to its virtual nonce, provided that no reset finds a
gap behind a transaction with the account nonce.
-/

namespace MoacVnode.Core

open Lib
open RawSortedMap (Removes)
open Function (update update_self update_of_ne update_eq_self update_idem)
open List Nat TxList TxPool

variable {lib : StateLib} {pool after origin other : TxPool lib} {addr : Address}
  {tx valid : Transaction} {hash : Hash} {inv : Lane → Prop} {txs : List Transaction}
  {isLocal : Bool} {env : PoolEnv} {view : PoolView lib}

namespace TxPool

/-! ## The lanes of a pool -/

def lane (pool : TxPool lib) (addr : Address) : Lane where
  stateNonce := pool.stateNonce addr
  payable tx := TxList.exceeds (pool.balance addr) pool.currentMaxGas tx = false
  held := pool.contents.held .pending addr
  virtualNonce := pool.virtualNonce addr

@[simp]
theorem lane_setQueue (list : TxList false) : (pool.setQueue addr list).lane = pool.lane := rfl

@[simp]
theorem lane_dropAll (txs : List Transaction) : (pool.dropAll txs).lane = pool.lane := by
  induction txs generalizing pool with
  | nil => rfl
  | cons tx txs ih => exact ih.trans (rfl : (pool.dropTx tx.hash).lane = pool.lane)

@[simp]
theorem lane_enqueueTx : (pool.enqueueTx hash tx).1.lane = pool.lane := by
  unfold enqueueTx
  dsimp only
  split
  · rfl
  · rename_i old list added
    change ((pool.setQueue tx.owner list).dropAll old.toList).lane = pool.lane
    rw [lane_dropAll, lane_setQueue]

@[simp]
theorem lane_enqueueAll (txs : List Transaction) : (pool.enqueueAll txs).lane = pool.lane := by
  induction txs generalizing pool with
  | nil => rfl
  | cons tx txs ih => exact ih.trans lane_enqueueTx

theorem lane_setPending (list : TxList true) :
    (pool.setPending addr list).lane =
      update pool.lane addr { pool.lane addr with held := list.get } := by
  funext owner
  by_cases same : owner = addr
  · subst same
    rw [update_self]
    have listGet : (pool.setPending owner list).contents.held .pending owner = list.get := by
      rw [contents_setPending, Contents.held_setList_self]
    exact congrArg
      (Lane.mk (pool.stateNonce owner) (pool.lane owner).payable · (pool.virtualNonce owner))
      listGet
  · rw [update_of_ne same]
    have listGet : (pool.setPending addr list).contents.held .pending owner =
        pool.contents.held .pending owner := by
      rw [contents_setPending]
      exact if_neg fun both => same both.2
    exact congrArg
      (Lane.mk (pool.stateNonce owner) (pool.lane owner).payable · (pool.virtualNonce owner))
      listGet

theorem lane_deletePending :
    (pool.deletePending addr).lane =
      update pool.lane addr { pool.lane addr with held := fun _ => none } := by
  have emptied := @lane_setPending lib pool addr (newTxList true)
  rw [show (newTxList true).get = fun _ => none from funext get_new] at emptied
  rw [← emptied]
  funext owner
  have sameHeld : (pool.deletePending addr).contents.held =
      (pool.setPending addr (newTxList true)).contents.held := by
    rw [contents_deletePending, contents_setPending,
      show (newTxList true).get = fun _ => none from funext get_new]
  exact congrArg (fun held => Lane.mk (pool.stateNonce owner) (pool.lane owner).payable
    (held Place.pending owner) (pool.virtualNonce owner)) sameHeld

theorem lane_setVirtualNonce (nonce : Nat) :
    (pool.setVirtualNonce addr nonce).lane =
      update pool.lane addr { pool.lane addr with virtualNonce := nonce } := by
  funext owner
  by_cases same : owner = addr
  · subst same
    rw [update_self]
    exact congrArg (Lane.mk (pool.stateNonce owner) (pool.lane owner).payable
      (pool.contents.held .pending owner)) (lib.managedNonce_setNonce _ owner nonce)
  · rw [update_of_ne same]
    exact congrArg (Lane.mk (pool.stateNonce owner) (pool.lane owner).payable
      (pool.contents.held .pending owner)) (lib.managedNonce_setNonce_of_ne _ addr nonce owner same)

theorem lane_lowerVirtualNonce (nonce : Nat) :
    (pool.lowerVirtualNonce addr nonce).lane =
      update pool.lane addr
        { pool.lane addr with virtualNonce := min (pool.lane addr).virtualNonce nonce } := by
  unfold lowerVirtualNonce
  split
  · rename_i above
    rw [lane_setVirtualNonce, show min (pool.lane addr).virtualNonce nonce = nonce from
      min_eq_right (le_of_lt above)]
  · rename_i notAbove
    rw [show min (pool.lane addr).virtualNonce nonce = (pool.lane addr).virtualNonce from
      Nat.min_eq_left (Nat.le_of_not_lt notAbove)]
    exact (update_eq_self addr pool.lane).symm

def Lanes (inv : Lane → Prop) (pool : TxPool lib) : Prop := ∀ addr, inv (pool.lane addr)

theorem Lanes.of_eq (lanes : Lanes inv pool) (same : other.lane = pool.lane) : Lanes inv other := by
  intro addr
  rw [same]
  exact lanes addr

theorem Lanes.of_update {lane : Lane} (lanes : Lanes inv pool) (addr : Address)
    (updated : other.lane = update pool.lane addr lane) (kept : inv lane) :
    Lanes inv other := by
  intro owner
  rw [updated]
  by_cases same : owner = addr
  · rw [same, update_self]
    exact kept
  · rw [update_of_ne same]
    exact lanes owner

/-! ## Cuts -/

theorem cut_eq {list : TxList true} {choice : Nat → Nat}
    (held : (list.get tx.nonce).isSome) (nonce : Nat) :
    (list.remove choice tx).2.2.get nonce = if nonce < tx.nonce then list.get nonce else none := by
  obtain ⟨-, removed⟩ := @TxList.remove_found true list choice tx held
  obtain ⟨other, otherHeld⟩ := Option.isSome_iff_exists.mp held
  split
  · rw [removed.removes.get_eq, if_neg]
    rw [otherHeld, mem_map]
    rintro ⟨taken, mem, sameNonce⟩
    rcases mem_cons.mp mem with rfl | isFollower
    · rw [TxList.keyed otherHeld] at sameNonce
      omega
    · have above := removed.follows taken isFollower
      omega
  · rename_i notBelow
    rw [← Option.not_isSome_iff_eq_none]
    exact fun isHeld => notBelow (removed.below rfl nonce isHeld)

theorem lane_removePending (held : (pool.lane tx.owner).held tx.nonce ≠ none) :
    ∃ last, pool.removePending tx = some last ∧
      last.lane = update pool.lane tx.owner ((pool.lane tx.owner).cut tx.nonce) := by
  obtain ⟨other, otherHeld⟩ := Option.ne_none_iff_exists'.mp held
  obtain ⟨list, got, listHeld⟩ := exists_list otherHeld
  have isHeld : (list.get tx.nonce).isSome := by
    rw [listHeld]
    rfl
  refine ⟨_, removePending_eq_some pool got isHeld, ?_⟩
  have listGet : (pool.lane tx.owner).held = list.get := listAt_of_lookup got
  have restGet : (list.remove pool.choices tx).2.2.get =
      ((pool.lane tx.owner).cut tx.nonce).held := by
    funext nonce
    rw [cut_eq isHeld, ← listGet]
    rfl
  rw [lane_lowerVirtualNonce]
  split
  · rename_i isEmpty
    rw [lane_deletePending, ← get_eq_of_empty isEmpty, restGet, update_self, update_idem]
    rfl
  · rw [lane_enqueueAll, lane_setPending, restGet, update_self, update_idem]
    rfl

theorem lane_removeQueued : (pool.removeQueued tx).lane = pool.lane := by
  unfold removeQueued
  split
  · rfl
  · dsimp only
    split <;> rfl

theorem lane_removeTx :
    (pool.removeTx hash).lane = pool.lane ∨
      ∃ addr nonce, (pool.removeTx hash).lane =
        update pool.lane addr ((pool.lane addr).cut nonce) := by
  cases got : pool.all.lookup hash with
  | none =>
    rw [removeTx_of_missing got]
    exact .inl rfl
  | some tx =>
    by_cases held : ((pool.dropTx hash).lane tx.owner).held tx.nonce = none
    · rw [removeTx_of_free got held]
      exact .inl lane_removeQueued
    · obtain ⟨last, removed, cutLane⟩ := lane_removePending held
      rw [removeTx_of_found got, removed, Option.getD_some]
      exact .inr ⟨tx.owner, tx.nonce, cutLane⟩

theorem payable_removeAll (txs : List Transaction) (addr : Address) :
    ((pool.removeAll txs).lane addr).payable = (pool.lane addr).payable := by
  induction txs generalizing pool with
  | nil => rfl
  | cons tx txs ih =>
    refine (@ih (pool.removeTx tx.hash)).trans ?_
    rcases @lane_removeTx lib pool tx.hash with same | ⟨owner, nonce, cutLane⟩
    · rw [same]
    · rw [cutLane]
      by_cases same : addr = owner
      · rw [same, update_self]
        rfl
      · rw [update_of_ne same]

theorem lane_dropLowering (drops : List Transaction) :
    (drops.foldl (fun pool tx => (pool.dropTx tx.hash).lowerVirtualNonce addr tx.nonce) pool).lane =
      update pool.lane addr
        { pool.lane addr with
          virtualNonce := drops.foldl (fun virtual tx => min virtual tx.nonce)
            (pool.lane addr).virtualNonce } := by
  induction drops generalizing pool with
  | nil => exact (update_eq_self addr pool.lane).symm
  | cons tx drops ih =>
    rw [foldl_cons, ih, lane_lowerVirtualNonce, update_self, update_idem]
    rfl

end TxPool

namespace Lane.LaneRule

variable (rule : LaneRule inv)

include rule

theorem removeTx (lanes : Lanes inv pool) : Lanes inv (pool.removeTx hash) := by
  rcases @lane_removeTx lib pool hash with same | ⟨addr, nonce, cutLane⟩
  · exact lanes.of_eq same
  · exact lanes.of_update addr cutLane (rule.cut nonce (lanes addr))

theorem removeAll {txs : List Transaction} (lanes : Lanes inv pool) :
    Lanes inv (pool.removeAll txs) := by
  induction txs generalizing pool with
  | nil => exact lanes
  | cons tx txs ih => exact ih (rule.removeTx lanes)

theorem foldl_cut {drops : List Transaction} {lane : Lane} (start : inv lane) :
    inv (drops.foldl (fun lane tx => lane.cut tx.nonce) lane) := by
  induction drops generalizing lane with
  | nil => exact start
  | cons tx drops ih => exact ih (rule.cut tx.nonce start)

theorem trimAccount {counted last : TxPool lib × Nat} (lanes : Lanes inv counted.1)
    (ret : TxPool.trimAccount counted addr = .ok last) : Lanes inv last.1 := by
  unfold TxPool.trimAccount at ret
  split at ret
  · cases ret
  · rename_i list got
    split at ret
    · cases ret
    · rename_i drops capped capReturned
      cases ret
      obtain ⟨removes, highest, -⟩ := cap_spec capReturned
      have listGet : (counted.1.lane addr).held = list.get := listAt_of_lookup got
      rw [← listGet] at removes
      have cutLane := eq_foldl_cut removes highest
      have kept := @foldl_cut inv rule drops _ (lanes addr)
      refine lanes.of_update addr ?_ kept
      rw [lane_dropLowering, lane_setPending, update_self, ← cutLane, update_idem]

/-! ## Promotion -/

end Lane.LaneRule

namespace TxPool

/-- The virtual nonce does not wrap around behind the transaction. -/
def BelowLastNonce (tx : Transaction) : Prop := tx.nonce + 1 < uint64Size
deriving Decidable

/-- The regime in which executability is studied. -/
def nonceRegime : Regime where
  level := .untracked
  postpones := True
  good := BelowLastNonce

theorem lane_promoteTx (slotFree : (pool.lane tx.owner).held tx.nonce = none)
    (below : BelowLastNonce tx) :
    (pool.promoteTx tx.owner hash tx).lane =
      update pool.lane tx.owner ((pool.lane tx.owner).promote tx) := by
  have missing : ((pool.pending.lookup tx.owner).getD (newTxList true)).get tx.nonce = none := by
    rw [get_getD]
    exact slotFree
  unfold promoteTx
  dsimp only
  rw [add_of_missing missing, next64_of_lt below]
  generalize listEq : (pool.pending.lookup tx.owner).getD (newTxList true) = list
  have listGet : list.get = (pool.lane tx.owner).held := by
    rw [← listEq, get_getD]
    rfl
  have moved (tracked : TxPool lib)
      (same : tracked.lane = (pool.setPending tx.owner (list.overwrite tx)).lane) :
      (tracked.setVirtualNonce tx.owner (tx.nonce + 1)).lane =
        update pool.lane tx.owner ((pool.lane tx.owner).promote tx) := by
    rw [lane_setVirtualNonce, same, lane_setPending, update_self,
      update_idem, get_overwrite_eq, listGet]
    rfl
  change (TxPool.setVirtualNonce (if (pool.contents.all hash).isNone then
    (pool.setPending tx.owner (list.overwrite tx)).track hash tx
    else pool.setPending tx.owner (list.overwrite tx)) tx.owner (tx.nonce + 1)).lane = _
  apply moved
  split <;> rfl

end TxPool

namespace Lane.LaneRule

variable (rule : LaneRule inv)

include rule

theorem promoteAll {lowest : Nat} (tidy : Tidy nonceRegime origin pool txs)
    (lanes : Lanes inv pool) (owned : ∀ tx ∈ txs, tx.owner = addr)
    (consecutive : txs.map Transaction.nonce = List.range' lowest txs.length)
    (notAhead : txs ≠ [] → lowest ≤ (pool.lane addr).virtualNonce)
    (payable : ∀ tx ∈ txs, (pool.lane addr).payable tx)
    (notOld : ∀ tx ∈ txs, (pool.lane addr).stateNonce ≤ tx.nonce) :
    Lanes inv (txs.foldl (fun pool tx => pool.promoteTx addr tx.hash tx) pool) := by
  induction txs generalizing pool lowest with
  | nil => exact lanes
  | cons tx txs ih =>
    obtain ⟨rfl, restOwned⟩ := forall_mem_cons.mp owned
    obtain ⟨txPayable, restPayable⟩ := forall_mem_cons.mp payable
    obtain ⟨txNotOld, restNotOld⟩ := forall_mem_cons.mp notOld
    obtain ⟨atLowest, restConsecutive⟩ := List.cons.inj consecutive
    have slotFree : (pool.lane tx.owner).held tx.nonce = none :=
      tidy.placed.free tx mem_cons_self .pending
    have below : BelowLastNonce tx := tidy.placed.goodLoose tx mem_cons_self
    have promoted := @lane_promoteTx lib pool tx tx.hash slotFree below
    have promotedLane : (pool.promoteTx tx.owner tx.hash tx).lane tx.owner =
        (pool.lane tx.owner).promote tx := by
      rw [promoted, update_self]
    refine @ih _ (lowest + 1) tidy.promoteTx
      (lanes.of_update tx.owner promoted (rule.promote (lanes tx.owner) slotFree txNotOld ?_
        txPayable)) restOwned restConsecutive (fun _ => ?_) ?_ ?_
    · rw [atLowest]
      exact notAhead (cons_ne_nil tx txs)
    · rw [promotedLane, ← atLowest]
      exact le_refl _
    · rw [promotedLane]
      exact restPayable
    · rw [promotedLane]
      exact restNotOld

end Lane.LaneRule

namespace TxPool

theorem dropUnpayableQueued_spec (list : TxList false) :
    (pool.dropUnpayableQueued addr list).1.lane = pool.lane ∧
      ∀ nonce tx, (pool.dropUnpayableQueued addr list).2.get nonce = some tx →
        (pool.lane addr).stateNonce ≤ nonce ∧ (pool.lane addr).payable tx := by
  unfold dropUnpayableQueued
  dsimp only
  have atLeast (nonce : Nat) := @TxList.forward_atLeast false list (pool.stateNonce addr) nonce
  generalize list.forward (pool.stateNonce addr) = forwarded at atLeast
  have sameLane : ((pool.setQueue addr forwarded.2).dropAll forwarded.1).lane = pool.lane := by
    rw [lane_dropAll, lane_setQueue]
  generalize (pool.setQueue addr forwarded.2).dropAll forwarded.1 = cleaned at sameLane
  have filtered := forwarded.2.filter_spec cleaned.choices (cleaned.balance addr)
    cleaned.currentMaxGas
  refine ⟨?_, fun nonce tx held => ⟨?_, ?_⟩⟩
  · rw [lane_dropAll, lane_setQueue, ← sameLane]
    rfl
  · apply atLeast
    rw [filtered.removes.of_after held]
    rfl
  · rw [← sameLane]
    exact filtered.within nonce tx held

theorem lane_capQueued {list capped : TxList false}
    (ret : pool.capQueued addr list = .ok (after, capped)) : after.lane = pool.lane := by
  unfold capQueued at ret
  split at ret
  · cases ret
    rfl
  · split at ret
    · cases ret
    · cases ret
      rw [lane_dropAll, lane_setQueue]

end TxPool

namespace Lane.LaneRule

variable (rule : LaneRule inv)

include rule

theorem promoteReady {list : TxList false} (tidy : Tidy nonceRegime origin pool [])
    (lanes : Lanes inv pool) (listGet : pool.contents.held .queue addr = list.get)
    (ready : ∀ nonce tx, list.get nonce = some tx →
      (pool.lane addr).stateNonce ≤ nonce ∧ (pool.lane addr).payable tx) :
    Lanes inv (pool.promoteReady addr list).1 := by
  obtain ⟨removes, lowest, consecutive, notAhead⟩ := list.ready_spec (pool.virtualNonce addr)
  have taken := tidy.takeQueue listGet removes
  rw [append_nil] at taken
  have sameLanes : Lanes inv (pool.setQueue addr (list.ready (pool.virtualNonce addr)).2) := lanes
  exact rule.promoteAll taken sameLanes (fun _ => tidy.ready_owned listGet) consecutive notAhead
    (fun tx mem => (ready tx.nonce tx (removes.held tx mem)).2)
    fun tx mem => (ready tx.nonce tx (removes.held tx mem)).1

theorem promoteAccount (tidy : Tidy nonceRegime origin pool []) (lanes : Lanes inv pool)
    (ret : pool.promoteAccount addr = .ok after) : Lanes inv after := by
  unfold TxPool.promoteAccount at ret
  cases got : pool.queue.lookup addr with
  | none =>
    rw [got] at ret
    cases ret
    exact lanes
  | some list =>
    rw [got] at ret
    dsimp only at ret
    split at ret
    · cases ret
    · rename_i capReturned
      cases ret
      obtain ⟨payable, payableGet⟩ := tidy.dropUnpayableQueued (listAt_of_lookup got)
      obtain ⟨sameLane, ready⟩ := @dropUnpayableQueued_spec lib pool addr list
      rw [← sameLane] at ready
      have promoted := rule.promoteReady payable (lanes.of_eq sameLane) payableGet ready
      have capped := promoted.of_eq (lane_capQueued capReturned)
      split
      · exact capped
      · exact capped

end Lane.LaneRule

/-! ## Adding transactions -/

namespace TxPool

structure SameState (pool other : TxPool lib) : Prop where
  currentState : other.currentState = pool.currentState
  pendingState : other.pendingState = pool.pendingState
  currentMaxGas : other.currentMaxGas = pool.currentMaxGas

theorem SameState.of_dropAll (txs : List Transaction) : SameState pool (pool.dropAll txs) := by
  induction txs generalizing pool with
  | nil => exact ⟨rfl, rfl, rfl⟩
  | cons tx txs ih =>
    have rest := @ih (pool.dropTx tx.hash)
    exact ⟨rest.currentState, rest.pendingState, rest.currentMaxGas⟩

theorem sameState_insertTx (pool : TxPool lib) (hash : Hash) (tx : Transaction)
    (isLocal : Bool) : SameState pool (pool.insertTx hash tx isLocal).1 := by
  have enqueued : SameState pool (pool.enqueueTx hash tx).1 := by
    unfold enqueueTx
    dsimp only
    split
    · exact ⟨rfl, rfl, rfl⟩
    · rename_i old list added
      have dropped := @SameState.of_dropAll lib (pool.setQueue tx.owner list) old.toList
      exact ⟨dropped.currentState, dropped.pendingState, dropped.currentMaxGas⟩
  have enqueuedNew : SameState pool (pool.enqueueNew hash tx isLocal).1 := by
    unfold enqueueNew
    split
    · next refused => rwa [refused] at enqueued
    · rename_i accepted
      rw [accepted] at enqueued
      split
      · exact ⟨enqueued.currentState, enqueued.pendingState, enqueued.currentMaxGas⟩
      · exact enqueued
  unfold insertTx
  split
  · exact enqueuedNew
  · split
    · unfold replacePending
      split
      · exact ⟨rfl, rfl, rfl⟩
      · rename_i old list added
        have dropped := @SameState.of_dropAll lib (pool.setPending tx.owner list) old.toList
        exact ⟨dropped.currentState, dropped.pendingState, dropped.currentMaxGas⟩
    · exact enqueuedNew

theorem lane_of_sameState (same : SameState pool after) (addr : Address) :
    after.lane addr = { pool.lane addr with held := after.contents.held .pending addr } := by
  unfold lane stateNonce balance virtualNonce
  rw [same.currentState, same.pendingState, same.currentMaxGas]

theorem lane_eq_of_sameState (same : SameState pool after)
    (sameHeld : after.contents.held .pending = pool.contents.held .pending) :
    after.lane = pool.lane := by
  funext addr
  rw [lane_of_sameState same, sameHeld]
  rfl

end TxPool

namespace Lane.LaneRule

variable (rule : LaneRule inv)

include rule

theorem insertTx (lanes : Lanes inv pool) (payable : (pool.lane tx.owner).payable tx) :
    Lanes inv (pool.insertTx hash tx isLocal).1 := by
  have sameState := sameState_insertTx pool hash tx isLocal
  cases insertTx_insertion pool hash tx isLocal with
  | refused contents entries =>
    exact lanes.of_eq (lane_eq_of_sameState sameState (by rw [contents]))
  | queued free contents entries =>
    refine lanes.of_eq (lane_eq_of_sameState sameState ?_)
    rw [contents]
    exact pool.contents.held_put_of_ne (show Place.pending ≠ .queue by decide) tx
  | replaced place old key occupied sameKey contents entries =>
    cases place with
    | queue =>
      refine lanes.of_eq (lane_eq_of_sameState sameState ?_)
      rw [contents]
      exact pool.contents.held_put_of_ne (show Place.pending ≠ .queue by decide) tx
    | pending =>
      have isHeld : ((pool.lane tx.owner).held tx.nonce).isSome := by
        rw [show (pool.lane tx.owner).held tx.nonce = some old from occupied]
        rfl
      refine lanes.of_update tx.owner (funext fun owner => ?_)
        (rule.replace (lanes tx.owner) isHeld payable)
      rw [lane_of_sameState sameState, contents]
      change { pool.lane owner with
        held := (pool.contents.put .pending tx).held .pending owner } = _
      by_cases same : owner = tx.owner
      · rw [same, update_self, Contents.put, Contents.held_setList_self]
        rfl
      · have untouched : (pool.contents.put .pending tx).held .pending owner =
            pool.contents.held .pending owner := if_neg fun both => same both.2
        rw [update_of_ne same, untouched]
        rfl

theorem add (lanes : Lanes inv pool) : Lanes inv (pool.add env view tx isLocal).1 := by
  have lane_chosen (valid : Transaction) : (pool.chooseDiscards valid).2.lane = pool.lane := by
    unfold chooseDiscards
    split
    · rfl
    · dsimp only
      split <;> rfl
  cases add_addition env view pool tx isLocal with
  | nothing same => rwa [same]
  | underpriced valid chosen =>
    have same := lane_chosen valid
    rw [chosen] at same
    exact lanes.of_eq same
  | inserted valid drop chosenPool unknown validated chosen discards inserted =>
    have same := lane_chosen valid
    rw [chosen] at same
    have removed := @removeAll _ _ _ rule drop (lanes.of_eq same)
    rw [inserted]
    apply rule.insertTx removed
    have ensured := validateTx_eq_ok validated
    rw [payable_removeAll, same]
    exact not_exceeds.mpr ⟨ensured.cost_le, ensured.gas_le⟩

end Lane.LaneRule

/-! ## Demotion -/

namespace TxPool

/-- If the transaction with the account nonce is pending, every later one follows
another one. -/
def NoInnerGap (pool : TxPool lib) (addr : Address) : Prop :=
  ∀ list ∈ pool.pending.lookup addr, (list.get (pool.stateNonce addr)).isSome →
    ∀ tx ∈ list.flatten.1, pool.stateNonce addr < tx.nonce → (list.get (tx.nonce - 1)).isSome
deriving Decidable

theorem NoInnerGap.lane (noGap : pool.NoInnerGap addr) : (pool.lane addr).NoInnerGap := by
  intro firstHeld nonce above held
  obtain ⟨tx, heldTx⟩ := Option.isSome_iff_exists.mp held
  obtain ⟨list, got, listTx⟩ := exists_list heldTx
  have listGet : (pool.lane addr).held = list.get := listAt_of_lookup got
  rw [listGet] at firstHeld ⊢
  have sameNonce := TxList.keyed listTx
  rw [← sameNonce] at listTx above ⊢
  exact noGap list got firstHeld tx (mem_flatten.mpr listTx) above

/-- What is left of a list after demotion dropped and postponed unpayable
transactions. -/
structure Payable (pool : TxPool lib) (addr : Address) (list rest : TxList true) : Prop where
  of_rest : ∀ nonce tx, rest.get nonce = some tx → list.get nonce = some tx
  notOld : ∀ nonce, (rest.get nonce).isSome → pool.stateNonce addr ≤ nonce
  closed : ∀ nonce later, (rest.get later).isSome → pool.stateNonce addr ≤ nonce →
    nonce ≤ later → rest.get nonce = list.get nonce
  keepsFirst : ∀ tx, list.get (pool.stateNonce addr) = some tx →
    (pool.lane addr).payable tx → rest.get (pool.stateNonce addr) = some tx

theorem dropUnpayablePending_spec (list : TxList true) :
    (pool.dropUnpayablePending addr list).1.lane =
        update pool.lane addr
          { pool.lane addr with held := (pool.dropUnpayablePending addr list).2.get } ∧
      Payable pool addr list (pool.dropUnpayablePending addr list).2 := by
  unfold dropUnpayablePending
  dsimp only
  have below : ∀ tx ∈ (list.forward (pool.stateNonce addr)).1, tx.nonce < pool.stateNonce addr :=
    (list.txs.wellFormed.forward (pool.stateNonce addr)).2.2.1
  have atLeast (nonce : Nat) := @TxList.forward_atLeast true list (pool.stateNonce addr) nonce
  have forwards := list.forward_removes (pool.stateNonce addr)
  generalize list.forward (pool.stateNonce addr) = forwarded at below atLeast forwards
  have lanes : ((pool.setPending addr forwarded.2).dropAll forwarded.1).lane =
      update pool.lane addr { pool.lane addr with held := forwarded.2.get } := by
    rw [lane_dropAll, lane_setPending]
  generalize (pool.setPending addr forwarded.2).dropAll forwarded.1 = cleaned at lanes
  have filtered := forwarded.2.filter_spec cleaned.choices (cleaned.balance addr)
    cleaned.currentMaxGas
  generalize forwarded.2.filter cleaned.choices (cleaned.balance addr)
    cleaned.currentMaxGas = parts at filtered
  have samePayable : (cleaned.lane addr).payable = (pool.lane addr).payable := by
    rw [lanes, update_self]
  have forwarded_eq (nonce : Nat) (notOld : pool.stateNonce addr ≤ nonce) :
      forwarded.2.get nonce = list.get nonce := by
    rw [forwards.get_eq, if_neg]
    intro nonceMem
    obtain ⟨tx, mem, sameNonce⟩ := mem_map.mp nonceMem
    have lt := below tx mem
    omega
  have rest_eq (nonce : Nat) (early : ∀ tx ∈ parts.1, nonce < tx.nonce) :
      parts.2.2.get nonce = forwarded.2.get nonce := by
    rw [filtered.removes.get_eq, if_neg]
    intro nonceMem
    obtain ⟨tx, mem, sameNonce⟩ := mem_map.mp nonceMem
    rcases mem_append.mp mem with exceeding | follower
    · have lt := early tx exceeding
      omega
    · obtain ⟨removed, removedMem, lt⟩ := filtered.follows tx follower
      have first := early removed removedMem
      omega
  refine ⟨?_, fun nonce tx held => forwards.of_after (filtered.removes.of_after held),
    fun nonce held => ?_, fun nonce later held notOld le => ?_, fun tx held payable => ?_⟩
  · rw [lane_enqueueAll, lane_dropAll, lane_setPending]
    change update cleaned.lane addr { cleaned.lane addr with held := parts.2.2.get } = _
    rw [lanes, update_self, update_idem]
  · obtain ⟨tx, got⟩ := Option.isSome_iff_exists.mp held
    apply atLeast
    rw [filtered.removes.of_after got]
    rfl
  · rw [← forwarded_eq nonce notOld]
    exact rest_eq nonce fun tx mem => lt_of_le_of_lt le (filtered.below rfl later held tx mem)
  · rw [← forwarded_eq _ (le_refl _)] at held
    rw [← held]
    -- nothing at or before the account nonce is too costly
    refine rest_eq _ fun other mem => ?_
    have otherHeld := filtered.removes.held other (mem_append_left _ mem)
    have notOld := atLeast other.nonce (by rw [otherHeld]; rfl)
    have ne : other.nonce ≠ pool.stateNonce addr := by
      intro same
      rw [same, held] at otherHeld
      cases otherHeld
      rw [← samePayable] at payable
      have tooCostly := filtered.exceeding tx mem
      cases payable.symm.trans tooCostly
    omega

theorem postponeGap_spec {list capped : TxList true} (listGet : (pool.lane addr).held = list.get)
    (ret : pool.postponeGap addr list = .ok (after, capped)) :
    after.lane = update pool.lane addr { pool.lane addr with held := capped.get } ∧
      (list.get (pool.stateNonce addr) = none ∧ (∀ nonce, capped.get nonce = none) ∨
        capped = list ∧ (list.get (pool.stateNonce addr)).isSome) := by
  unfold postponeGap at ret
  split at ret
  · rename_i gap
    split at ret
    · cases ret
    · rename_i capReturned
      cases ret
      refine ⟨?_, .inl ⟨gap.2, cap_zero capReturned⟩⟩
      rw [lane_enqueueAll, lane_setPending]
  · rename_i noGap
    cases ret
    refine ⟨?_, ?_⟩
    · rw [← listGet]
      exact (update_eq_self addr pool.lane).symm
    · by_cases isEmpty : list.len = 0
      · have nothing := get_of_empty (decide_eq_true isEmpty)
        exact .inl ⟨nothing _, nothing⟩
      · refine .inr ⟨rfl, ?_⟩
        rw [Option.isSome_iff_ne_none]
        exact fun missing => noGap ⟨Nat.pos_of_ne_zero isEmpty, missing⟩

theorem Payable.demoted {list rest : TxList true} (payable : Payable pool addr list rest)
    (listGet : (pool.lane addr).held = list.get) (noGap : (pool.lane addr).NoInnerGap)
    (firstHeld : (rest.get (pool.stateNonce addr)).isSome) :
    ({ pool.lane addr with held := rest.get } : Lane).Demoted := by
  have listHeld (nonce : Nat) (held : (rest.get nonce).isSome) :
      ((pool.lane addr).held nonce).isSome := by
    obtain ⟨tx, restTx⟩ := Option.isSome_iff_exists.mp held
    rw [listGet, payable.of_rest nonce tx restTx]
    rfl
  have bounded (nonce : Nat) (held : (rest.get nonce).isSome) : nonce < uint64Size := by
    obtain ⟨tx, restTx⟩ := Option.isSome_iff_exists.mp held
    rw [← TxList.keyed restTx]
    exact tx.nonce_lt
  have closed (nonce : Nat) (above : pool.stateNonce addr < nonce)
      (held : (rest.get nonce).isSome) : (rest.get (nonce - 1)).isSome := by
    rw [payable.closed (nonce - 1) nonce held (by omega) (sub_le _ _), ← listGet]
    exact noGap (listHeld _ firstHeld) nonce above (listHeld nonce held)
  obtain ⟨last, above, interval⟩ := Lane.exists_last bounded payable.notOld closed firstHeld
  exact ⟨last, interval, fun notAbove => absurd above (not_lt.mpr notAbove)⟩

theorem lane_of_missing (missing : pool.pending.lookup addr = none) (nonce : Nat) :
    (pool.lane addr).held nonce = none := by
  change listAt pool.pending addr nonce = none
  rw [listAt, missing]

theorem demoteAccount_spec (fits : (pool.lane addr).Fits) (noGap : (pool.lane addr).NoInnerGap)
    (ret : pool.demoteAccount addr = .ok after) :
    ∃ lane, after.lane = update pool.lane addr lane ∧ lane.Demoted := by
  unfold demoteAccount at ret
  cases got : pool.pending.lookup addr with
  | none =>
    rw [got] at ret
    cases ret
    exact ⟨pool.lane addr, (update_eq_self addr pool.lane).symm,
      fits.demoted_of_nothing (lane_of_missing got)⟩
  | some list =>
    rw [got] at ret
    dsimp only at ret
    split at ret
    · cases ret
    · rename_i last capped gapReturned
      cases ret
      have listGet : (pool.lane addr).held = list.get := listAt_of_lookup got
      obtain ⟨payableLane, payable⟩ := @dropUnpayablePending_spec lib pool addr list
      generalize pool.dropUnpayablePending addr list = dropped at payableLane payable gapReturned
      have droppedGet : (dropped.1.lane addr).held = dropped.2.get := by
        rw [payableLane, update_self]
      have sameState : dropped.1.stateNonce addr = pool.stateNonce addr := by
        change (dropped.1.lane addr).stateNonce = _
        rw [payableLane, update_self]
        rfl
      obtain ⟨lastLane, kept⟩ := postponeGap_spec droppedGet gapReturned
      rw [payableLane, update_self, update_idem] at lastLane
      refine ⟨{ pool.lane addr with held := capped.get }, ?_, ?_⟩
      · split
        · rename_i isEmpty
          rw [lane_deletePending, ← get_eq_of_empty isEmpty, lastLane, update_self, update_idem]
        · exact lastLane
      · rcases kept with ⟨firstMissing, nothing⟩ | ⟨rfl, firstHeld⟩
        · refine Lane.Fits.demoted_of_nothing (.inl ?_) nothing
          rcases fits with notRaised | ⟨tx, held, isPayable⟩
          · exact notRaised
          -- a payable transaction with the account nonce would have been kept
          · rw [listGet] at held
            rw [sameState] at firstMissing
            cases firstMissing.symm.trans (payable.keepsFirst tx held isPayable)
        · rw [sameState] at firstHeld
          exact payable.demoted listGet noGap firstHeld

theorem lane_of_not_mem (absent : addr ∉ pool.pending.keys) (nonce : Nat) :
    (pool.lane addr).held nonce = none :=
  lane_of_missing (AList.lookup_eq_none.mpr (mt AList.mem_keys.mp absent)) nonce

theorem demoteUnexecutables_spec (fits : Lanes Lane.Fits pool)
    (noGap : ∀ addr ∈ pool.pending.keys, pool.NoInnerGap addr)
    (ret : pool.demoteUnexecutables = .ok after) : Lanes Lane.Demoted after := by
  have start (addr : Address) (mem : addr ∈ shuffle (pool.choices 0) pool.pending.keys) :
      ((pool.draw 1).lane addr).Fits ∧ ((pool.draw 1).lane addr).NoInnerGap :=
    ⟨fits addr, (noGap addr (mem_shuffle.mp mem)).lane⟩
  have demoted (addr : Address) :=
    run_pointwise TxPool.lane (fun lane => lane.Fits ∧ lane.NoInnerGap) Lane.Demoted
      (fun ⟨laneFits, laneNoGap⟩ taken => demoteAccount_spec laneFits laneNoGap taken)
      ((shuffle_perm _ _).nodup_iff.mpr pool.pending.nodupKeys) start ret addr
  intro addr
  by_cases mem : addr ∈ pool.pending.keys
  · exact (demoted addr).1 (mem_shuffle.mpr mem)
  · rw [(demoted addr).2 (mt mem_shuffle.mp mem)]
    exact (fits addr).demoted_of_nothing (lane_of_not_mem mem)

theorem updateVirtualNonce_spec (before : (pool.lane addr).Demoted ∧
      ∀ nonce tx, (pool.lane addr).held nonce = some tx → BelowLastNonce tx)
    (ret : pool.updateVirtualNonce addr = .ok after) :
    ∃ lane, after.lane = update pool.lane addr lane ∧ lane.Executable := by
  unfold updateVirtualNonce at ret
  cases got : pool.pending.lookup addr with
  | none =>
    rw [got] at ret
    cases ret
    exact ⟨pool.lane addr, (update_eq_self addr pool.lane).symm,
      before.1.executable_of_nothing (lane_of_missing got)⟩
  | some list =>
    rw [got] at ret
    dsimp only at ret
    split at ret
    · cases ret
    · rename_i last isLast
      cases ret
      have listGet : (pool.lane addr).held = list.get := listAt_of_lookup got
      have lastHeld : (pool.lane addr).held last.nonce = some last := by
        rw [listGet]
        exact mem_flatten.mp (mem_of_getLast? isLast)
      have highest (nonce : Nat) (held : ((pool.lane addr).held nonce).isSome) :
          nonce ≤ last.nonce := by
        rw [listGet] at held
        exact le_of_getLast isLast held
      refine ⟨_, ?_, before.1.raise lastHeld highest⟩
      rw [next64_of_lt (before.2 _ _ lastHeld), lane_setVirtualNonce, lane_setPending,
        update_self, update_idem, get_flatten, listGet]

/-! ## Resets and whole runs -/

/-- Every transaction in its place, below the last nonce, and every lane as the
invariant says. -/
structure Ordered (inv : Lane → Prop) (pool : TxPool lib) : Prop where
  placed : Placed .untracked BelowLastNonce pool.contents []
  lanes : Lanes inv pool

/-- The virtual nonce behind an added transaction does not wrap around, and no reset finds a gap
behind a transaction with the account nonce. -/
def gapless (env : PoolEnv) : Conditions lib where
  add view isLocal pool tx :=
    ∀ valid ∈ (pool.validateTx env view tx isLocal).toOption, BelowLastNonce valid
  reprice _ _ := True
  settle pool := ∀ addr ∈ pool.pending.keys, pool.NoInnerGap addr

section

instance (view : PoolView lib) (isLocal : Bool) (pool : TxPool lib) (tx : Transaction) :
    Decidable ((gapless env).add view isLocal pool tx) :=
  inferInstanceAs (Decidable (∀ valid ∈ (pool.validateTx env view tx isLocal).toOption, _))

instance (pool : TxPool lib) (price : Int) : Decidable ((gapless env).reprice pool price) :=
  .isTrue trivial

instance (pool : TxPool lib) : Decidable ((gapless env).settle pool) :=
  List.decidableBAll (fun addr => pool.NoInnerGap addr) pool.pending.keys

end

theorem maintained_ordered (rule : Lane.LaneRule inv) :
    Maintained (Ordered inv : TxPool lib → Prop) where
  draw := fun _ ordered => ⟨ordered.placed, ordered.lanes⟩
  tick := fun ordered => ⟨ordered.placed, ordered.lanes⟩
  promoteAccount := by
    intro pool addr after ordered ret
    have tidy : Tidy nonceRegime pool pool [] := .of_placed ordered.placed
    exact ⟨(tidy.promoteAccount ret).placed, rule.promoteAccount tidy ordered.lanes ret⟩
  trimAccount := by
    intro counted addr after ordered ret
    have tidy : Tidy nonceRegime counted.1 counted.1 [] := .of_placed ordered.placed
    exact ⟨(tidy.trimAccount ret).placed, rule.trimAccount ordered.lanes ret⟩
  removeQueued := by
    intro pool addr list txs ordered got queued
    have tidy : Tidy nonceRegime pool pool [] := .of_placed ordered.placed
    have flattened : (pool.setQueue addr list.flatten.2).lane = pool.lane := rfl
    exact ⟨(tidy.removeFlattened got queued).placed, rule.removeAll (ordered.lanes.of_eq flattened)⟩

theorem kept_ordered (rule : Lane.LaneRule inv) :
    Kept env (gapless env) (Ordered inv : TxPool lib → Prop) where
  toMaintained := maintained_ordered rule
  directCalls := fun _ ordered => ⟨ordered.placed, ordered.lanes⟩
  add := by
    intro pool view tx isLocal ordered meets
    refine ⟨ordered.placed.add (fun valid validated => ?_) (fun known => nomatch known)
      (fun full => nomatch full), rule.add ordered.lanes⟩
    apply meets
    rw [validated]
    exact Option.mem_some_self valid

theorem settle_ordered (ordered : Ordered Lane.Fits pool)
    (noGap : ∀ addr ∈ pool.pending.keys, pool.NoInnerGap addr)
    (ret : pool.settle = .ok after) : Ordered Lane.Executable after := by
  unfold settle at ret
  split at ret
  · cases ret
  · rename_i demoted demoteReturned
    have tidy : Tidy nonceRegime pool pool [] := .of_placed ordered.placed
    have demotedTidy := tidy.demoteUnexecutables (fun _ => .inl trivial) demoteReturned
    have demotedLanes := demoteUnexecutables_spec ordered.lanes noGap demoteReturned
    split at ret
    · cases ret
    · rename_i updated updateReturned
      have updatedTidy := demotedTidy.updateVirtualNonces updateReturned
      have start (addr : Address) (_ : addr ∈ shuffle (demoted.choices 0) demoted.pending.keys) :
          ((demoted.draw 1).lane addr).Demoted ∧
            ∀ nonce tx, ((demoted.draw 1).lane addr).held nonce = some tx → BelowLastNonce tx :=
        ⟨demotedLanes addr, fun nonce tx held =>
          @Placed.goodHeld _ _ _ _ demotedTidy.placed .pending addr nonce tx held⟩
      have updatedLanes (addr : Address) :=
        run_pointwise TxPool.lane
          (fun lane => lane.Demoted ∧ ∀ nonce tx, lane.held nonce = some tx → BelowLastNonce tx)
          Lane.Executable updateVirtualNonce_spec
          ((shuffle_perm _ _).nodup_iff.mpr demoted.pending.nodupKeys) start updateReturned addr
      refine (maintained_ordered Lane.laneRule_executable).promoteExecutables
        ⟨updatedTidy.placed, fun addr => ?_⟩ ret
      by_cases mem : addr ∈ demoted.pending.keys
      · exact (updatedLanes addr).1 (mem_shuffle.mpr mem)
      · rw [(updatedLanes addr).2 (mt mem_shuffle.mp mem)]
        exact (demotedLanes addr).executable_of_nothing (lane_of_not_mem mem)

theorem preserves_ordered :
    Preserves env (gapless env) (Ordered Lane.Executable : TxPool lib → Prop)
      (Ordered Lane.Fits) where
  kept := kept_ordered Lane.laneRule_executable
  keptEntered := kept_ordered Lane.laneRule_fits
  pangu := fun _ ordered => ⟨ordered.placed, ordered.lanes⟩
  setGasPrice := by
    intro pool price ordered _
    have repriced : Placed .untracked BelowLastNonce (pool.reprice price).2.contents [] :=
      ordered.placed
    have sameLane : (pool.reprice price).2.lane = pool.lane := rfl
    exact ⟨(repriced.removeAll fun full => nomatch full).placed,
      Lane.laneRule_executable.removeAll (ordered.lanes.of_eq sameLane)⟩
  enterState := fun state _ ordered => ⟨ordered.placed, fun addr =>
    .inl (le_of_eq (lib.managedNonce_manageState state addr))⟩
  settle := settle_ordered

/-- The pending nonces of an account are consecutive from the account nonce on, and the virtual
nonce follows them. -/
def Executability (pool : TxPool lib) : Prop :=
  ∀ addr list, pool.pending.lookup addr = some list →
    list.flatten.1.map Transaction.nonce = List.range' (pool.stateNonce addr) list.len ∧
      ∀ last ∈ list.flatten.1.getLast?, pool.virtualNonce addr = last.nonce + 1

/-- In every run without a reset that finds a gap behind a transaction with the account nonce,
pending nonces are consecutive from the account nonce on and the virtual nonce follows them. -/
theorem executability_of_run (env : PoolEnv) (config : TxPoolConfig) (state : lib.StateDB)
    (maxGas : Int) (choices : Nat → Nat) (clock : Nat → Int) (inputs : List (Input lib))
    (pool : TxPool lib) (conds : EachStep (step env) (Meets env (gapless env))
      (newTxPool config state maxGas choices clock) inputs)
    (ran : run (step env) (newTxPool config state maxGas choices clock) inputs = .ok pool) :
    pool.Executability := by
  have start : Ordered Lane.Executable
      (newTxPool config state maxGas choices clock : TxPool lib) := by
    refine ⟨placed_newTxPool config state maxGas choices clock, fun addr nonce => ?_⟩
    have fresh : (newTxPool config state maxGas choices clock : TxPool lib).virtualNonce
        addr = lib.getNonce state addr := lib.managedNonce_manageState state addr
    change (none : Option Transaction).isSome ↔ lib.getNonce state addr ≤ nonce ∧
      nonce < (newTxPool config state maxGas choices clock : TxPool lib).virtualNonce addr
    simp only [Option.isSome_none, Bool.false_eq_true, false_iff]
    omega
  have lanes := (preserves_ordered.run start conds ran).lanes
  intro addr list got
  have listGet : (pool.lane addr).held = list.get := listAt_of_lookup got
  have executable (nonce : Nat) : (list.get nonce).isSome ↔
      pool.stateNonce addr ≤ nonce ∧ nonce < pool.virtualNonce addr := by
    rw [← listGet]
    exact lanes addr nonce
  have nonces : list.flatten.1.map Transaction.nonce = List.range' (pool.stateNonce addr)
      (pool.virtualNonce addr - pool.stateNonce addr) := by
    refine list.flatten_sorts.nonces_eq (fun nonce => ?_) (fun _ _ => TxList.keyed)
      (pairwise_le_range' 1) (nodup_range' 1)
    rw [executable, mem_range'_1]
    omega
  have count : list.len = pool.virtualNonce addr - pool.stateNonce addr := by
    have lengths := congrArg List.length nonces
    rwa [length_map, list.length_flatten, length_range'] at lengths
  refine ⟨by rw [count]; exact nonces, fun last isLast => ?_⟩
  have lastHeld : (list.get last.nonce).isSome := by
    rw [mem_flatten.mp (mem_of_getLast? isLast)]
    rfl
  have lastWithin := (executable last.nonce).mp lastHeld
  have highest := le_of_getLast isLast ((executable (pool.virtualNonce addr - 1)).mpr (by omega))
  omega

def reorgView (balance : Int) : PoolView .plain where
  currentBlock := { header := { hash := 3, parentHash := 1, number := 1 } }
  getBlock hash _ :=
    if hash = 1 then some { header := { hash := 1, parentHash := 0 } }
    else if hash = 2 then
      some
        { header := { hash := 2, parentHash := 1, number := 1 }
          transactions := [transfer 13 3 1, transfer 14 4 3] }
    else some { header := { hash := 3, parentHash := 1, number := 1 } }
  stateAt _ := some fun _ => (3, balance)
  priority := none

def poolBeforeReorg : TxPool .plain :=
  @newTxPool .plain { priceLimit := 1 } (fun _ => (5, 10 ^ 9)) (10 ^ 6) (fun _ => 0) fun _ => 0

def reorgInputs (balance : Int) : List (Input .plain) :=
  [⟨reorgView balance, .addRemotes [transfer 15 5 1, transfer 16 6 1]⟩,
    ⟨reorgView balance,
      .reset (some { hash := 2, parentHash := 1, number := 1 })
        (some { hash := 3, parentHash := 1, number := 1, gasLimit := 10 ^ 6 })⟩]

/-- Of two transactions that the reorganisation gives back only the first can be paid; those that
were pending stay pending behind the gap. -/
theorem reorg_leaves_inner_gap :
    ∃ pool, run (step .plain) poolBeforeReorg (reorgInputs 50000) = .ok pool ∧
      (pool.pending.lookup 1).map (fun list => list.flatten.1.map Transaction.nonce) =
        some [3, 5, 6] ∧ ¬ pool.Executability := by
  refine exists_ok_of (fun pool =>
      (pool.pending.lookup 1).map (fun list => list.flatten.1.map Transaction.nonce) =
      some [3, 5, 6]) (by decide +kernel) ?_
  intro pool ran nonces
  refine ⟨nonces, fun executability => ?_⟩
  obtain ⟨list, got, listNonces⟩ := Option.map_eq_some_iff.mp nonces
  obtain ⟨consecutive, -⟩ := executability 1 list got
  rw [listNonces] at consecutive
  have count : 3 = list.len := by
    have lengths := congrArg List.length consecutive
    rwa [length_range'] at lengths
  rw [← count] at consecutive
  obtain ⟨atFirst, rest⟩ := List.cons.inj consecutive
  obtain ⟨atSecond, -⟩ := List.cons.inj rest
  omega

/-- With a balance for both the four transactions are pending. -/
theorem executability_after_reorg :
    ∃ pool, run (step .plain) poolBeforeReorg (reorgInputs 100000) = .ok pool ∧
      (pool.pending.lookup 1).map (fun list => list.flatten.1.map Transaction.nonce) =
        some [3, 4, 5, 6] ∧ pool.Executability := by
  refine exists_ok_of (fun pool =>
      (pool.pending.lookup 1).map (fun list => list.flatten.1.map Transaction.nonce) =
      some [3, 4, 5, 6]) (by decide +kernel) ?_
  intro pool ran nonces
  refine ⟨nonces, ?_⟩
  exact executability_of_run .plain _ _ _ _ _ _ pool (by decide +kernel) ran

end TxPool

end MoacVnode.Core
