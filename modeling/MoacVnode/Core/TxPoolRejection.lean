import MoacVnode.Core.TxPoolLocals

/-!
# Transactions that are rejected

`add` makes room in a full pool before it looks at the slot of the new transaction.
-/

namespace MoacVnode.Core

open Lib TxList TxPricedList

namespace TxList

variable {strict : Bool} {list : TxList strict} {tx : Transaction} {priceBump : Nat}

theorem add_refused {old : Transaction} (held : list.get tx.nonce = some old)
    (tooLow : tx.gasPrice ≤ replacementPrice old priceBump) :
    list.add tx priceBump = (false, none, list) := by
  rw [add, held]
  exact if_pos tooLow

theorem add_accepted
    (outbid : ∀ old, list.get tx.nonce = some old → replacementPrice old priceBump < tx.gasPrice) :
    list.add tx priceBump = (true, list.get tx.nonce, list.overwrite tx) := by
  cases held : list.get tx.nonce with
  | none => exact add_of_missing held priceBump
  | some old =>
    rw [add, held]
    exact if_neg (Int.not_le.mpr (outbid old held))

end TxList

namespace TxPricedList

variable {all : TxMap} {locals : Finset Address} {list : TxPricedList} {count : Int}

theorem discardLoop_of_count (none : count ≤ 0) (fuel : Nat) :
    (discardLoop all locals fuel count list).1 = [] := by
  cases fuel with
  | zero => rfl
  | succ fuel => rw [discardLoop, if_pos none]

theorem discardLoop_drops (asked : 0 < count) {fuel : Nat} (enough : list.items.length ≤ fuel)
    {tx : Transaction} (mem : tx ∈ list.items) (isLive : live all tx = true)
    (remote : containsTx locals tx = false) : (discardLoop all locals fuel count list).1 ≠ [] := by
  induction fuel generalizing list with
  | zero => exact absurd (List.length_pos_of_mem mem) (Nat.not_lt.mpr enough)
  | succ fuel ih =>
    rw [discardLoop, if_neg (Int.not_le.mpr asked)]
    rcases pop_eq list.items with ⟨-, empty⟩ | ⟨first, popped, pops, perm⟩
    · rw [empty] at mem
      cases mem
    · rw [pops]
      dsimp only
      have shorter : popped.length ≤ fuel := by
        have lengths := perm.length_eq
        rw [List.length_cons] at lengths
        omega
      have firstOrLater := List.mem_cons.mp (perm.mem_iff.mp mem)
      split
      · rename_i isStale
        refine ih shorter (firstOrLater.resolve_left ?_)
        rintro rfl
        rw [live_eq_false isStale] at isLive
        cases isLive
      · split
        · rename_i isLocal
          refine ih shorter (firstOrLater.resolve_left ?_)
          rintro rfl
          rw [remote] at isLocal
          cases isLocal
        · exact List.cons_ne_nil _ _

end TxPricedList

namespace TxPool

variable {lib : StateLib} {pool after : TxPool lib} {tx valid : Transaction} {hash : Hash}
  {isLocal : Bool} {env : PoolEnv} {view : PoolView lib} {txs : List Transaction}
  {old : Transaction}

/-- The pools agree in their lists, in the index, in the local accounts and in the virtual
nonces. -/
structure Unchanged (pool after : TxPool lib) : Prop where
  pending : after.pending.lookup = pool.pending.lookup
  queue : after.queue.lookup = pool.queue.lookup
  all : after.all.lookup = pool.all.lookup
  locals : after.locals = pool.locals
  pendingState : after.pendingState = pool.pendingState

theorem Unchanged.contents (kept : Unchanged pool after) : after.contents = pool.contents := by
  have sameLists {strict : Bool} {map other : AList fun _ : Address => TxList strict}
      (same : other.lookup = map.lookup) : listAt other = listAt map := by
    funext addr
    rw [listAt, listAt, congrFun same addr]
  refine congrArg₂ Contents.mk (funext fun place => ?_) kept.all
  cases place with
  | pending => exact sameLists kept.pending
  | queue => exact sameLists kept.queue

theorem Unchanged.refl (pool : TxPool lib) : Unchanged pool pool := ⟨rfl, rfl, rfl, rfl, rfl⟩

theorem Unchanged.symm (kept : Unchanged pool after) : Unchanged after pool :=
  ⟨kept.pending.symm, kept.queue.symm, kept.all.symm, kept.locals.symm, kept.pendingState.symm⟩

theorem Unchanged.trans {mid : TxPool lib} (first : Unchanged pool mid)
    (second : Unchanged mid after) : Unchanged pool after :=
  ⟨second.pending.trans first.pending, second.queue.trans first.queue,
    second.all.trans first.all, second.locals.trans first.locals,
    second.pendingState.trans first.pendingState⟩

def occupant (pool : TxPool lib) (tx : Transaction) : Option Transaction :=
  match pool.contents.held .pending tx.owner tx.nonce with
  | some old => some old
  | none => pool.contents.held .queue tx.owner tx.nonce

/-- The slot of the transaction is free, or the price of the one that has it is raised
enough. -/
def Outbids (pool : TxPool lib) (tx : Transaction) : Prop :=
  ∀ old, pool.occupant tx = some old → replacementPrice old pool.config.priceBump < tx.gasPrice

theorem insertTx_of_pending {list : TxList true}
    (got : pool.pending.lookup tx.owner = some list) (held : list.get tx.nonce = some old) :
    pool.insertTx hash tx isLocal = pool.replacePending list tx := by
  have overlaps : list.overlaps tx = true := by
    rw [overlaps, held]
    rfl
  unfold insertTx
  rw [got]
  exact if_pos overlaps

theorem insertTx_of_free (free : pool.contents.held .pending tx.owner tx.nonce = none) :
    pool.insertTx hash tx isLocal = pool.enqueueNew hash tx isLocal := by
  unfold insertTx
  cases got : pool.pending.lookup tx.owner with
  | none => rfl
  | some list =>
    change listAt pool.pending tx.owner tx.nonce = none at free
    rw [listAt_of_lookup got] at free
    have apart : ¬ list.overlaps tx = true := by
      rw [overlaps, free]
      decide
    exact if_neg apart

theorem insertTx_refused (refused : ¬ pool.Outbids tx) :
    (pool.insertTx hash tx isLocal).2 = .error .replaceUnderpriced ∧
      Unchanged pool (pool.insertTx hash tx isLocal).1 := by
  unfold Outbids at refused
  push Not at refused
  obtain ⟨old, occupied, tooLow⟩ := refused
  unfold occupant at occupied
  cases pendingSlot : pool.contents.held .pending tx.owner tx.nonce with
  | some other =>
    rw [pendingSlot] at occupied
    cases occupied
    obtain ⟨list, got, held⟩ := exists_list pendingSlot
    rw [insertTx_of_pending got held, replacePending, add_refused held tooLow]
    exact ⟨rfl, .refl pool⟩
  | none =>
    rw [pendingSlot] at occupied
    rw [insertTx_of_free pendingSlot]
    obtain ⟨list, got, held⟩ := exists_list occupied
    unfold enqueueNew enqueueTx
    rw [got, Option.getD_some]
    dsimp only
    rw [add_refused held tooLow]
    refine ⟨rfl, rfl, funext fun addr => ?_, rfl, rfl, rfl⟩
    show (pool.queue.insert tx.owner list).lookup addr = _
    by_cases same : addr = tx.owner
    · rw [same, AList.lookup_insert, got]
    · rw [AList.lookup_insert_ne same]

theorem insertTx_accepted (outbids : pool.Outbids tx) :
    ∃ replaced, (pool.insertTx hash tx isLocal).2 = .ok replaced := by
  unfold Outbids occupant at outbids
  cases pendingSlot : pool.contents.held .pending tx.owner tx.nonce with
  | some old =>
    rw [pendingSlot] at outbids
    obtain ⟨list, got, held⟩ := exists_list pendingSlot
    rw [insertTx_of_pending got held, replacePending, add_accepted]
    · exact ⟨_, rfl⟩
    · intro other otherHeld
      exact outbids other (held.symm.trans otherHeld)
  | none =>
    rw [pendingSlot] at outbids
    rw [insertTx_of_free pendingSlot]
    unfold enqueueNew enqueueTx
    dsimp only
    rw [add_accepted]
    · exact ⟨_, rfl⟩
    · rw [get_getD]
      exact outbids

def FreesPending (pool after : TxPool lib) : Prop :=
  ∃ addr nonce, pool.contents.held .pending addr nonce ≠ none ∧
    after.contents.held .pending addr nonce = none

theorem removeTx_frees_or_drops (pool : TxPool lib) (hash : Hash) :
    FreesPending pool (pool.removeTx hash) ∨
      (pool.removeTx hash).contents.all hash = none ∧
        ∀ other, pool.contents.all other = none →
          (pool.removeTx hash).contents.all other = none := by
  cases got : pool.all.lookup hash with
  | none =>
    rw [removeTx_of_missing got]
    exact .inr ⟨got, fun _ missing => missing⟩
  | some tx =>
    cases pendingSlot : pool.contents.held .pending tx.owner tx.nonce with
    | none =>
      rw [removeTx_of_free got pendingSlot, all_removeQueued, contents_dropTx]
      have dropped : (pool.contents.setAll hash none).all hash = none := by simp [Contents.setAll]
      refine .inr ⟨dropped, fun other missing => ?_⟩
      by_cases same : other = hash
      · rw [same, dropped]
      · simp [Contents.setAll, same, missing]
    | some other =>
      obtain ⟨list, listFound, listHeld⟩ := exists_list pendingSlot
      have isHeld : (list.get tx.nonce).isSome := by simp [listHeld]
      obtain ⟨-, removed⟩ := @remove_found true list (pool.dropTx hash).choices tx isHeld
      refine .inl ⟨tx.owner, tx.nonce, by simp [pendingSlot], ?_⟩
      rw [pending_removeTx_of_held got listFound isHeld, Contents.held_setList_self]
      rw [← Option.not_isSome_iff_eq_none]
      intro still
      exact Nat.lt_irrefl _ (removed.below rfl tx.nonce still)

theorem FreesPending.removeAll (frees : FreesPending pool after) (txs : List Transaction) :
    FreesPending pool (after.removeAll txs) := by
  obtain ⟨addr, nonce, held, free⟩ := frees
  exact ⟨addr, nonce, held, pending_removeAll_of_free free⟩

theorem removeAll_frees_or_keeps (pool : TxPool lib) (txs : List Transaction) :
    FreesPending pool (pool.removeAll txs) ∨
      ∀ hash, pool.contents.all hash = none → (pool.removeAll txs).contents.all hash = none := by
  induction txs generalizing pool with
  | nil => exact .inr fun _ missing => missing
  | cons tx txs ih =>
    rcases removeTx_frees_or_drops pool tx.hash with frees | ⟨-, drops⟩
    · exact .inl (frees.removeAll txs)
    · rcases ih (pool.removeTx tx.hash) with
        ⟨addr, nonce, held, free⟩ | keeps
      · refine .inl ⟨addr, nonce, fun wasFree => held ?_, free⟩
        exact pending_removeTx_of_free wasFree
      · exact .inr fun hash missing => keeps hash (drops hash missing)

theorem contents_removeAll_ne (recorded : (pool.all.lookup tx.hash).isSome) :
    (pool.removeAll (tx :: txs)).contents ≠ pool.contents := by
  intro same
  have notFreed : ¬ FreesPending pool (pool.removeAll (tx :: txs)) := by
    rintro ⟨addr, nonce, held, free⟩
    rw [same] at free
    exact held free
  rcases removeTx_frees_or_drops pool tx.hash with frees | ⟨dropped, -⟩
  · exact notFreed (frees.removeAll txs)
  · rcases removeAll_frees_or_keeps (pool.removeTx tx.hash) txs with
      ⟨addr, nonce, held, free⟩ | keeps
    · refine notFreed ⟨addr, nonce, fun wasFree => held ?_, free⟩
      exact pending_removeTx_of_free wasFree
    · have missing : pool.contents.all tx.hash = none := by
        rw [← same]
        exact keeps tx.hash dropped
      rw [show pool.all.lookup tx.hash = none from missing] at recorded
      cases recorded

theorem chooseDiscards_unchanged (pool : TxPool lib) (tx : Transaction) :
    Unchanged pool (pool.chooseDiscards tx).2 := by
  unfold chooseDiscards
  split
  · exact .refl pool
  · dsimp only
    split <;> exact ⟨rfl, rfl, rfl, rfl, rfl⟩

/-- The pool is full, the transaction is not underpriced, and the heap has a transaction of a remote
account to discard for it. -/
structure MakesRoom (pool : TxPool lib) (tx : Transaction) : Prop where
  full : pool.capacity ≤ pool.all.entries.length
  dear : (pool.priced.underpriced pool.all tx pool.locals).1 = false
  asked : 0 < pool.overflow
  remote : ∃ entry ∈ pool.priced.items,
    live pool.all entry = true ∧ containsTx pool.locals entry = false

section

variable {drop : List Transaction} {chosen : TxPool lib}

theorem makesRoom_of_chosen (chose : pool.chooseDiscards valid = (some drop, chosen))
    (nonempty : drop ≠ []) : pool.MakesRoom valid := by
  obtain ⟨first, mem⟩ := List.exists_mem_of_ne_nil drop nonempty
  obtain ⟨-, swept⟩ := chooseDiscards_swept chose
  obtain ⟨stale, -, perm, -⟩ := swept.entries
  have entry := perm.mem_iff.mpr (List.mem_append_left _ mem)
  have remote := chooseDiscards_remote chose first mem
  unfold chooseDiscards at chose
  split at chose
  · cases chose
    exact absurd rfl nonempty
  · dsimp only at chose
    split at chose
    · cases chose
    · rename_i room dear
      refine ⟨Nat.le_of_not_lt room, Bool.eq_false_iff.mpr dear, ?_,
        first, entry, swept.dropped first mem, remote⟩
      by_contra none
      exact nonempty ((Option.some.inj (Prod.mk.inj chose).1).symm.trans
        (discardLoop_of_count (Int.not_lt.mp none) _))

theorem chooseDiscards_of_makesRoom (room : pool.MakesRoom valid) :
    (pool.chooseDiscards valid).1 = some ((pool.priced.underpriced pool.all valid
      pool.locals).2.discard pool.all pool.overflow pool.locals).1 := by
  unfold chooseDiscards
  rw [if_neg (Nat.not_lt.mpr room.full)]
  dsimp only
  rw [room.dear, if_neg Bool.false_ne_true]

theorem drop_ne_nil_of_makesRoom (chose : pool.chooseDiscards valid = (some drop, chosen))
    (room : pool.MakesRoom valid) : drop ≠ [] := by
  obtain ⟨entry, mem, isLive, remote⟩ := room.remote
  obtain ⟨stale, areStale, perm, -⟩ :=
    (@underpriced_swept pool.all pool.priced valid pool.locals).entries
  have left : entry ∈ (pool.priced.underpriced pool.all valid pool.locals).2.items := by
    rw [List.nil_append] at perm
    refine (List.mem_append.mp (perm.mem_iff.mp mem)).resolve_left fun isStale => ?_
    rw [areStale entry isStale] at isLive
    cases isLive
  have discarded := chooseDiscards_of_makesRoom room
  rw [chose] at discarded
  rw [Option.some.inj discarded]
  exact discardLoop_drops room.asked (le_refl _) left isLive remote

theorem removeAll_unchanged_iff (chose : pool.chooseDiscards valid = (some drop, chosen)) :
    Unchanged pool (chosen.removeAll drop) ↔ drop = [] := by
  have sameChosen := chooseDiscards_unchanged pool valid
  obtain ⟨sameAll, swept⟩ := chooseDiscards_swept chose
  rw [chose] at sameChosen
  constructor
  · intro kept
    cases drop with
    | nil => rfl
    | cons first rest =>
      have recorded : (chosen.all.lookup first.hash).isSome := by
        rw [sameAll]
        exact swept.dropped first List.mem_cons_self
      exact absurd (kept.contents.trans sameChosen.contents.symm) (contents_removeAll_ne recorded)
  · intro nothing
    rw [nothing]
    exact sameChosen

end

/-- A rejected transaction leaves the pool as it was if and only if it was known, invalid, or no
room was made for it. -/
theorem rejected_add_unchanged_iff (env : PoolEnv) (view : PoolView lib) (pool : TxPool lib)
    (tx : Transaction) (isLocal : Bool) (error : TxPoolError)
    (rejected : (pool.add env view tx isLocal).2 = .error error) :
    Unchanged pool (pool.add env view tx isLocal).1 ↔
      (pool.all.lookup tx.hash).isSome ∨
        ∀ valid, pool.validateTx env view tx isLocal = .ok valid → ¬ pool.MakesRoom valid := by
  by_cases known : (pool.all.lookup tx.hash).isSome
  · have added : pool.add env view tx isLocal = (pool, .error (.known tx.hash)) := if_pos known
    rw [added]
    exact iff_of_true (.refl pool) (.inl known)
  rw [or_iff_right known]
  cases validated : pool.validateTx env view tx isLocal with
  | error invalid =>
    have added : pool.add env view tx isLocal = (pool, .error invalid) := by
      rw [add, if_neg known, validated]
    rw [added]
    exact iff_of_true (.refl pool) fun _ isValid => (by cases isValid)
  | ok valid =>
    have sameChosen := chooseDiscards_unchanged pool valid
    rcases chose : pool.chooseDiscards valid with ⟨_ | drop, chosen⟩
    · have added : pool.add env view tx isLocal = (chosen, .error .underpriced) := by
        rw [add, if_neg known, validated]
        dsimp only
        rw [chose]
      rw [chose] at sameChosen
      rw [added]
      refine iff_of_true sameChosen ?_
      rintro _ ⟨⟩ room
      have discarded := chooseDiscards_of_makesRoom room
      rw [chose] at discarded
      cases discarded
    · have added : pool.add env view tx isLocal =
          (chosen.removeAll drop).insertTx tx.hash valid isLocal := by
        rw [add, if_neg known, validated]
        dsimp only
        rw [chose]
      rw [added] at rejected ⊢
      have refused : ¬ (chosen.removeAll drop).Outbids valid := by
        intro outbids
        obtain ⟨replaced, accepted⟩ := @insertTx_accepted lib _ valid tx.hash isLocal outbids
        rw [accepted] at rejected
        cases rejected
      have same := (@insertTx_refused lib _ valid tx.hash isLocal refused).2
      have nothing : Unchanged pool ((chosen.removeAll drop).insertTx tx.hash valid isLocal).1 ↔
          drop = [] :=
        ⟨fun kept => (removeAll_unchanged_iff chose).mp (kept.trans same.symm),
          fun none => ((removeAll_unchanged_iff chose).mpr none).trans same⟩
      rw [nothing]
      constructor
      · rintro none _ ⟨⟩ room
        exact drop_ne_nil_of_makesRoom chose room none
      · intro noRoom
        by_contra nonempty
        exact noRoom valid rfl (makesRoom_of_chosen chose nonempty)

private def fullPool : TxPool .plain :=
  @newTxPool .plain { priceLimit := 1, globalSlots := 2, globalQueue := 0 }
    (fun _ => (0, 10 ^ 9)) (10 ^ 6) (fun _ => 0) fun _ => 0

private def onePooled : TxPool .plain :=
  (fullPool.add .plain genesisView (transferOf 11 21 0 10) false).1

/-- There is room for a second transaction, so the replacement that is refused costs nothing. -/
theorem refused_replacement_unchanged :
    (onePooled.add .plain genesisView (transferOf 11 23 0 10) false).2 =
        .error .replaceUnderpriced ∧
      Unchanged onePooled (onePooled.add .plain genesisView (transferOf 11 23 0 10) false).1 := by
  have rejected : (onePooled.add .plain genesisView (transferOf 11 23 0 10) false).2 =
      .error .replaceUnderpriced := by
    decide +kernel
  refine ⟨rejected, (rejected_add_unchanged_iff _ _ _ _ _ _ rejected).mpr (.inr ?_)⟩
  intro valid _ room
  exact absurd room.full (by decide +kernel)

/-- A second transaction of account 11 at the same nonce and price is rejected; the cheaper one of
account 12 was discarded for it. -/
theorem rejected_replacement_discards_other :
    ∃ pool, run (step .plain) fullPool
        [⟨genesisView, .addRemotes [transferOf 11 21 0 10, transferOf 12 22 0 1]⟩] = .ok pool ∧
      (pool.add .plain genesisView (transferOf 11 23 0 10) false).2 = .error .replaceUnderpriced ∧
      (pool.all.lookup 22).isSome ∧
      (pool.add .plain genesisView (transferOf 11 23 0 10) false).1.all.lookup 22 = none := by
  decide +kernel

end TxPool

end MoacVnode.Core
