import MoacVnode.Core.TxPoolLocals

/-!
# A new gas price

`Cap` pops the price heap until it meets a transaction of the pool that pays enough.
-/

namespace MoacVnode.Core

open Lib TxPricedList
open Heap (IsHeap)
open TxPricedList (live Swept)

namespace TxPricedList

variable {all : TxMap} {list : TxPricedList} {tx : Transaction} {locals : Finset Address}
  {fuel : Nat} {threshold : Int}

abbrev InOrder (list : TxPricedList) : Prop := IsHeap Transaction.gasPrice list.items

theorem isHeap_popped {items popped : List Transaction} (heap : IsHeap Transaction.gasPrice items)
    (pops : Heap.pop Transaction.gasPrice items = (some tx, popped)) :
    IsHeap Transaction.gasPrice popped ∧ ∀ other ∈ items, tx.gasPrice ≤ other.gasPrice := by
  have rest := Heap.isHeap_pop heap
  rw [pops] at rest
  refine ⟨rest, fun other mem => ?_⟩
  cases items with
  | nil => cases mem
  | cons root items =>
    have isRoot := (Heap.pop_perm Transaction.gasPrice
      (show (root :: items)[0]? = some root from rfl)).1
    rw [pops] at isRoot
    cases isRoot
    exact Heap.root_le heap rfl mem

theorem isHeap_foldl_put {save : List Transaction} (heap : list.InOrder) :
    (save.foldl put list).InOrder := by
  induction save generalizing list with
  | nil => exact heap
  | cons tx save ih => exact ih (Heap.isHeap_push heap tx)

theorem Sweeps.isHeap {swept : List Transaction × List Transaction × TxPricedList}
    (sweeps : Sweeps all locals list swept) (heap : list.InOrder) : swept.2.2.InOrder := by
  induction sweeps with
  | done => exact heap
  | stale pops _ _ ih | save pops _ _ ih | drop pops _ _ _ ih =>
    exact ih (isHeap_popped heap pops).1

theorem isHeap_cap (heap : list.InOrder) : (list.cap all threshold locals).2.InOrder :=
  isHeap_foldl_put (capLoop_sweeps.isHeap heap)

theorem isHeap_discard {count : Int} (heap : list.InOrder) :
    (list.discard all count locals).2.InOrder :=
  isHeap_foldl_put (discardLoop_sweeps.isHeap heap)

theorem isHeap_underpriced (heap : list.InOrder) : (list.underpriced all tx locals).2.InOrder := by
  have pruned := (@dropStale_sweeps all list locals list.items.length).isHeap heap
  unfold underpriced
  split
  · exact heap
  · dsimp only
    split <;> exact pruned

/-- The loop reaches every transaction of the pool below the threshold. -/
theorem mem_capLoop (heap : list.InOrder) (enough : list.items.length ≤ fuel)
    (mem : tx ∈ list.items) (isLive : live all tx = true) (below : tx.gasPrice < threshold)
    (remote : containsTx locals tx = false) : tx ∈ (capLoop all threshold locals fuel list).1 := by
  induction fuel generalizing list with
  | zero =>
    rw [List.length_eq_zero_iff.mp (Nat.le_zero.mp enough)] at mem
    cases mem
  | succ fuel ih =>
    rw [capLoop]
    rcases pop_eq list.items with ⟨-, nothing⟩ | ⟨first, items, pops, perm⟩
    · rw [nothing] at mem
      cases mem
    · obtain ⟨popped, least⟩ := isHeap_popped heap pops
      have shorter : items.length ≤ fuel := by
        have lengths := perm.length_eq
        rw [List.length_cons] at lengths
        omega
      have later (ne : tx ≠ first) (stales : Int) :
          tx ∈ (capLoop all threshold locals fuel ⟨items, stales⟩).1 :=
        ih popped shorter ((List.mem_cons.mp (perm.mem_iff.mp mem)).resolve_left ne)
      rw [pops]
      dsimp only
      split
      · rename_i isStale
        refine later ?_ _
        rintro rfl
        rw [live_eq_false isStale] at isLive
        cases isLive
      · rw [if_neg (Int.not_le.mpr (Int.lt_of_le_of_lt (least tx mem) below))]
        split
        · rename_i isLocal
          refine later ?_ _
          rintro rfl
          cases remote.symm.trans isLocal
        · by_cases same : tx = first
          · rw [same]
            exact List.mem_cons_self
          · exact List.mem_cons_of_mem first (later same _)

end TxPricedList

namespace TxPool

variable {lib : StateLib} {env : PoolEnv} {pool origin after : TxPool lib} {tx : Transaction}
  {hash : Hash}

/-- Every transaction of the pool has an entry in the price heap, which is in order. -/
structure Sorted (pool : TxPool lib) : Prop where
  covered : Covered (fun _ => False) pool
  heap : pool.priced.InOrder

theorem isHeap_dropTx (heap : pool.priced.InOrder) (hash : Hash) :
    (pool.dropTx hash).priced.InOrder := by
  change (pool.priced.removed (pool.choices 0) (pool.all.erase hash)).InOrder
  unfold removed
  split
  · exact heap
  · exact Heap.isHeap_init _

theorem isHeap_reindex {postpones : Prop} (heap : origin.priced.InOrder)
    (reindex : Reindex postpones origin pool) : pool.priced.InOrder := by
  induction reindex with
  | start => exact heap
  | frame prior same ih => rwa [same.priced]
  | drop prior recorded ih => exact isHeap_dropTx ih _
  | requeue prior postponed recorded ih => exact Heap.isHeap_push ih _

theorem isHeap_chooseDiscards (heap : pool.priced.InOrder) :
    (pool.chooseDiscards tx).2.priced.InOrder := by
  have asked := @isHeap_underpriced pool.all _ tx pool.locals heap
  unfold chooseDiscards
  split
  · exact heap
  · dsimp only
    split
    · exact asked
    · exact isHeap_discard asked

theorem isHeap_insertion (heap : pool.priced.InOrder) (inserted : Insertion pool hash tx after) :
    after.priced.InOrder := by
  cases inserted with
  | refused contents entries => rwa [entries.priced]
  | queued free contents entries =>
    rw [entries.priced]
    exact Heap.isHeap_push heap tx
  | replaced place old key occupied sameKey contents entries =>
    rw [entries.priced]
    exact Heap.isHeap_push (isHeap_dropTx heap old.hash) tx

theorem indexRule_sorted : IndexRule recordedRegime (Sorted : TxPool lib → Prop) where
  known := trivial
  reindex := fun sorted reindex =>
    ⟨sorted.covered.reindex reindex, isHeap_reindex sorted.heap reindex⟩

theorem Sorted.removeAll {drop : List Transaction} {chosen : TxPool lib} (sorted : Sorted pool)
    (recorded : chosen.Recorded) (sameAll : chosen.all = pool.all)
    (swept : Swept pool.all pool.priced drop chosen.priced)
    (heap : chosen.priced.InOrder) : Sorted (chosen.removeAll drop) :=
  ⟨sorted.covered.removeAll recorded sameAll swept,
    isHeap_reindex heap ((tidy_removeAll recorded drop).reindex trivial)⟩

theorem kept_sorted (keepsHash : ∀ tx nonce, (env.updateNonce tx nonce).hash = tx.hash) :
    Kept env unconditional (Indexed recordedRegime Sorted : TxPool lib → Prop) where
  toMaintained := indexRule_sorted.maintained
  directCalls := fun _ indexed => indexRule_sorted.frame indexed rfl ⟨rfl, rfl, rfl, rfl⟩
  add := by
    intro pool view tx isLocal indexed _
    refine ⟨indexed.placed.add (fun _ _ => trivial) (fun _ _ => validateTx_hash keepsHash)
      (fun full => nomatch full), ?_⟩
    cases add_addition env view pool tx isLocal with
    | nothing same =>
      rw [same]
      exact indexed.index
    | underpriced valid chose =>
      obtain ⟨sameAll, swept⟩ := chooseDiscards_asked chose
      have sameContents := contents_chooseDiscards pool valid
      have heap := @isHeap_chooseDiscards _ _ valid indexed.index.heap
      rw [chose] at heap sameContents
      refine indexed.index.removeAll ?_ sameAll swept heap
      rw [Recorded, sameContents]
      exact indexed.placed
    | inserted valid drop chosenPool unknown validated chose discards inserted =>
      obtain ⟨sameAll, swept⟩ := chooseDiscards_swept chose
      have sameContents := contents_chooseDiscards pool valid
      have heap := @isHeap_chooseDiscards _ _ valid indexed.index.heap
      rw [chose] at heap sameContents
      have recorded : chosenPool.Recorded := by
        rw [Recorded, sameContents]
        exact indexed.placed
      have removed := indexed.index.removeAll recorded sameAll swept heap
      have insertion := insertTx_insertion (chosenPool.removeAll drop) tx.hash valid isLocal
      rw [inserted]
      exact ⟨(removed.covered.insertion (validateTx_hash keepsHash validated) insertion).1,
        isHeap_insertion removed.heap insertion⟩

theorem preserves_sorted (keepsHash : ∀ tx nonce, (env.updateNonce tx nonce).hash = tx.hash) :
    Preserves env unconditional (Indexed recordedRegime Sorted : TxPool lib → Prop)
      (Indexed recordedRegime Sorted) where
  kept := kept_sorted keepsHash
  keptEntered := kept_sorted keepsHash
  pangu := fun _ indexed => indexRule_sorted.frame indexed rfl ⟨rfl, rfl, rfl, rfl⟩
  setGasPrice := by
    intro pool price indexed _
    have repriced : (pool.reprice price).2.Recorded := indexed.placed
    exact ⟨(tidy_removeAll repriced _).placed, indexed.index.removeAll repriced rfl
      (cap_swept pool.priced price pool.locals)
      (isHeap_cap indexed.index.heap)⟩
  enterState := fun _ _ indexed => indexRule_sorted.frame indexed rfl ⟨rfl, rfl, rfl, rfl⟩
  settle := fun indexed _ ret => indexRule_sorted.settle indexed (.inl trivial) ret

theorem setGasPrice_complete {price : Int} (recorded : pool.Recorded) (sorted : Sorted pool)
    (got : (pool.setGasPrice price).all.lookup hash = some tx) :
    price ≤ tx.gasPrice ∨ containsTx pool.locals tx = true := by
  have repriced : (pool.reprice price).2.Recorded := recorded
  have before : pool.all.lookup hash = some tx :=
    ((tidy_removeAll repriced _).reindex trivial).lookup_of got
  by_contra stays
  rw [not_or, Int.not_le, Bool.not_eq_true] at stays
  have isHash := sorted.covered.keyed before
  have isLive : live pool.all tx = true := by
    rw [live, isHash, before]
    rfl
  have dropped : tx ∈ (pool.reprice price).1 :=
    mem_capLoop sorted.heap (Nat.le_refl _)
      ((sorted.covered.covers before).resolve_left id) isLive stays.1 stays.2
  have gone := lookup_removeAll repriced dropped
  rw [isHash] at gone
  cases gone.symm.trans got

def signing (senderOf : Hash → Option Address) : Conditions lib where
  add _ _ _ tx := Signs senderOf tx
  reprice _ _ := True
  settle _ := True

instance (senderOf : Hash → Option Address) (view : PoolView lib) (isLocal : Bool)
    (pool : TxPool lib) (tx : Transaction) :
    Decidable ((signing senderOf).add view isLocal pool tx) :=
  inferInstanceAs (Decidable (Signs senderOf tx))

instance (senderOf : Hash → Option Address) (pool : TxPool lib) (price : Int) :
    Decidable ((signing senderOf).reprice pool price) :=
  .isTrue trivial

instance (senderOf : Hash → Option Address) (pool : TxPool lib) :
    Decidable ((signing senderOf).settle pool) :=
  .isTrue trivial

/-- Behind every run a new price leaves only transactions that pay it or come from local
accounts, and no transaction of a local account is lost. -/
theorem repricing_complete_of_run (env : PoolEnv)
    (keepsHash : ∀ tx nonce, (env.updateNonce tx nonce).hash = tx.hash)
    (senderOf : Hash → Option Address) (config : TxPoolConfig) (state : lib.StateDB)
    (maxGas : Int) (choices : Nat → Nat) (clock : Nat → Int) (inputs : List (Input lib))
    (pool : TxPool lib) (signed : EachStep (step env) (Meets env (signing senderOf))
      (newTxPool config state maxGas choices clock) inputs)
    (ran : run (step env) (newTxPool config state maxGas choices clock) inputs = .ok pool)
    (price : Int) :
    (∀ {hash tx}, (pool.setGasPrice price).all.lookup hash = some tx →
      price ≤ tx.gasPrice ∨ containsTx pool.locals tx = true) ∧
    KeepsLocals pool (pool.setGasPrice price) := by
  have start : Indexed recordedRegime Sorted
      (newTxPool config state maxGas choices clock : TxPool lib) :=
    ⟨placed_newTxPool config state maxGas choices clock,
      ⟨fun got => (nomatch got), fun got => (nomatch got)⟩, Heap.isHeap_nil⟩
  have sorted := (preserves_sorted keepsHash).run start
    (eachStep_of_forall (meets_unconditional env) _ inputs) ran
  have startSound := sound_newTxPool senderOf config state maxGas choices clock
  have visited : Point senderOf (newTxPool config state maxGas choices clock) pool :=
    (@allows_signed _ env _ senderOf (signing senderOf) id keepsHash startSound).preserves.run
      .start signed ran
  exact ⟨setGasPrice_complete sorted.placed sorted.index,
    (@sparesLocals_of_sound _ env _ _ _ (visited.sound startSound)).setGasPrice price⟩

/-- Of three transactions below the price the one of the local account stays. -/
theorem repricing_spares_local :
    ∃ pool, run (step .plain) freshPool
        [⟨genesisView, .addRemotes [transferOf 11 21 0 1, transferOf 12 22 0 1]⟩,
          ⟨genesisView, .addLocal (transferOf 13 23 0 1)⟩] = .ok pool ∧
      (pool.setGasPrice 2).all.entries.length = 1 ∧
      (∀ {hash tx}, (pool.setGasPrice 2).all.lookup hash = some tx →
        2 ≤ tx.gasPrice ∨ containsTx pool.locals tx = true) ∧
      KeepsLocals pool (pool.setGasPrice 2) := by
  refine exists_ok_of (fun pool => (pool.setGasPrice 2).all.entries.length = 1)
    (by decide +kernel) ?_
  intro pool ran one
  refine ⟨one, ?_⟩
  exact repricing_complete_of_run .plain (fun _ _ => rfl)
    (fun hash => some (hash.setWidth 160 - 10)) _ _ _ _ _ _ pool (by decide +kernel) ran 2

end TxPool

end MoacVnode.Core
