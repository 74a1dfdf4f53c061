import MoacVnode.Core.TxPoolAdmission

/-!
# The price index of the pool

Between operations every transaction of the pool has one entry in the price heap
and the other entries are counted as stale, provided that transactions leave the
pool for good, are not postponed by a reset, and are not discarded by price.
-/

namespace MoacVnode.Core

open Lib TxPricedList
open TxPricedList (live Swept)
open List AList
open Transaction (gasPrice)

/-- Every transaction of the index has one entry in the heap, and the other
entries are counted as stale. -/
structure Indexes (all : TxMap) (list : TxPricedList) : Prop where
  keyed : ∀ {hash tx}, all.lookup hash = some tx → tx.hash = hash
  once : (list.items.filter (live all)).Nodup
  entry : ∀ tx ∈ list.items, live all tx = true → all.lookup tx.hash = some tx
  covers : ∀ {hash tx}, all.lookup hash = some tx → tx ∈ list.items
  stale : ((list.items.countP fun tx => !live all tx : Nat) : Int) = list.stales

namespace Indexes

variable {all : TxMap} {list rest : TxPricedList} {hash : Hash} {tx : Transaction}

theorem live_of_lookup (indexes : Indexes all list) (got : all.lookup hash = some tx) :
    live all tx = true := by
  rw [live, indexes.keyed got, got]
  rfl

theorem swept (indexes : Indexes all list) (swept : Swept all list [] rest) : Indexes all rest := by
  obtain ⟨stale, areStale, perm, stales⟩ := swept.entries
  rw [nil_append] at perm
  have noneLive : stale.filter (live all) = [] := by
    rw [filter_eq_nil_iff]
    intro tx mem isLive
    cases (areStale tx mem).symm.trans isLive
  have allStale : stale.countP (fun tx => !live all tx) = stale.length := by
    rw [countP_eq_length]
    intro tx mem
    rw [areStale tx mem]
    rfl
  have livePerm := perm.filter (live all)
  rw [filter_append, noneLive, nil_append] at livePerm
  refine ⟨indexes.keyed, livePerm.nodup_iff.mp indexes.once, fun tx mem isLive => ?_,
    fun got => ?_, ?_⟩
  · exact indexes.entry tx (perm.mem_iff.mpr (mem_append_right _ mem)) isLive
  · have mem := perm.mem_iff.mp (indexes.covers got)
    refine (mem_append.mp mem).resolve_left fun inStale => ?_
    cases (areStale _ inStale).symm.trans (indexes.live_of_lookup got)
  · have counts := perm.countP_eq fun tx => !live all tx
    rw [countP_append, allStale] at counts
    have before := indexes.stale
    omega

theorem lookup_erase_eq {key : Hash} {other : Transaction}
    (got : (all.erase hash).lookup key = some other) :
    key ≠ hash ∧ all.lookup key = some other := by
  by_cases same : key = hash
  · rw [same, lookup_erase] at got
    cases got
  · rw [lookup_erase_ne same] at got
    exact ⟨same, got⟩

theorem reheap (keyed : ∀ {hash tx}, all.lookup hash = some tx → tx.hash = hash) (choice : Nat) :
    Indexes all
      { items := Heap.init gasPrice ((shuffle choice all.entries).map Sigma.snd)
        stales := 0 } := by
  have perm : (Heap.init gasPrice
      ((shuffle choice all.entries).map Sigma.snd)).Perm (all.entries.map Sigma.snd) :=
    (Heap.init_perm _ _).trans ((shuffle_perm choice all.entries).map Sigma.snd)
  have mem_iff (tx : Transaction) :
      tx ∈ Heap.init gasPrice ((shuffle choice all.entries).map Sigma.snd) ↔
        all.lookup tx.hash = some tx := by
    rw [perm.mem_iff, mem_values keyed]
  refine ⟨keyed, (perm.nodup_iff.mpr (nodup_values keyed)).filter _,
    fun tx mem _ => (mem_iff tx).mp mem, fun got => (mem_iff _).mpr ?_, ?_⟩
  · rw [keyed got]
    exact got
  · have noneStale : (Heap.init gasPrice
        ((shuffle choice all.entries).map Sigma.snd)).countP (fun tx => !live all tx) = 0 := by
      rw [countP_eq_zero]
      intro tx mem isStale
      rw [live, (mem_iff tx).mp mem] at isStale
      cases isStale
    rw [noneStale]
    rfl

theorem live_erase (hash : Hash) (tx : Transaction) :
    live (all.erase hash) tx = (live all tx && decide (tx.hash ≠ hash)) := by
  unfold live
  by_cases same : tx.hash = hash
  · rw [same, lookup_erase]
    simp
  · simp [same]

section

variable (indexes : Indexes all list)

include indexes

theorem countP_stale_erase (got : all.lookup hash = some tx) :
    list.items.countP (fun other => !live (all.erase hash) other) =
      list.items.countP (fun other => !live all other) + 1 := by
  have isLive := indexes.live_of_lookup got
  have hashEq := indexes.keyed got
  have theEntry : (list.items.filter (live all)).countP (· = tx) = 1 := by
    have isCount : (fun other => decide (other = tx)) = (· == tx) := by
      funext other
      exact (beq_eq_decide other tx).symm
    exact count_eq_one_of_mem indexes.once (mem_filter.mpr ⟨indexes.covers got, isLive⟩)
  have among (other : Transaction) (mem : other ∈ list.items.filter (live all)) :
      (!live (all.erase hash) other) = true ↔ decide (other = tx) = true := by
    obtain ⟨inItems, otherLive⟩ := mem_filter.mp mem
    have sameTx : other.hash = hash ↔ other = tx := by
      constructor
      · intro same
        have entry := indexes.entry other inItems otherLive
        rw [same, got] at entry
        exact (Option.some_inj.mp entry).symm
      · intro same
        rw [same, hashEq]
    rw [live_erase, otherLive]
    simp [sameTx]
  have others : (list.items.filter fun other => !live all other).countP
      (fun other => !live (all.erase hash) other) =
        list.items.countP fun other => !live all other := by
    rw [countP_filter]
    refine countP_congr fun other _ => ?_
    rw [live_erase]
    cases live all other <;> simp
  rw [countP_eq_countP_filter_add list.items _ (live all), countP_congr among,
    theEntry, others, Nat.add_comm]

theorem removed (recorded : (all.lookup hash).isSome) (choice : Nat) :
    Indexes (all.erase hash) (list.removed choice (all.erase hash)) := by
  obtain ⟨tx, got⟩ := Option.isSome_iff_exists.mp recorded
  have keyed {key other} (foundAfter : (all.erase hash).lookup key = some other) :
      other.hash = key :=
    indexes.keyed (lookup_erase_eq foundAfter).2
  unfold TxPricedList.removed
  split
  · have fewer : list.items.filter (live (all.erase hash)) =
        (list.items.filter (live all)).filter fun other => decide (other.hash ≠ hash) := by
      rw [filter_filter]
      refine filter_congr fun other _ => ?_
      rw [live_erase, Bool.and_comm]
    refine ⟨keyed, ?_, fun other mem isLive => ?_, fun foundAfter => ?_, ?_⟩
    · rw [fewer]
      exact indexes.once.filter _
    · rw [live_erase, Bool.and_eq_true, decide_eq_true_eq] at isLive
      rw [lookup_erase_ne isLive.2]
      exact indexes.entry other mem isLive.1
    · exact indexes.covers (lookup_erase_eq foundAfter).2
    · rw [indexes.countP_stale_erase got, ← indexes.stale]
      push_cast
      rfl
  · exact reheap keyed choice

theorem noEntry_removed {dropped : Hash} (unknown : all.lookup hash = none)
    (noEntry : ∀ other ∈ list.items, other.hash ≠ hash) (choice : Nat) :
    ∀ other ∈ (list.removed choice (all.erase dropped)).items, other.hash ≠ hash := by
  unfold TxPricedList.removed
  split
  · exact noEntry
  · intro other mem same
    obtain ⟨entry, entryMem, rfl⟩ := mem_map.mp ((Heap.init_perm gasPrice _).mem_iff.mp mem)
    obtain ⟨-, got⟩ := lookup_erase_eq (mem_lookup_iff.mpr (mem_shuffle.mp entryMem))
    rw [← indexes.keyed got, same, unknown] at got
    cases got

theorem put (hashEq : hash = tx.hash) (unknown : all.lookup hash = none)
    (noEntry : ∀ other ∈ list.items, other.hash ≠ hash) :
    Indexes (all.insert hash tx) (list.put tx) := by
  have perm : (list.put tx).items.Perm (tx :: list.items) := Heap.push_perm gasPrice list.items tx
  have lookup_eq {key other} (got : (all.insert hash tx).lookup key = some other) :
      key = hash ∧ other = tx ∨ key ≠ hash ∧ all.lookup key = some other := by
    by_cases same : key = hash
    · rw [same, lookup_insert] at got
      exact .inl ⟨same, (Option.some_inj.mp got).symm⟩
    · rw [lookup_insert_ne same] at got
      exact .inr ⟨same, got⟩
  have newLive : live (all.insert hash tx) tx = true := by
    rw [live, ← hashEq, lookup_insert]
    rfl
  have oldLive (other : Transaction) (mem : other ∈ list.items) :
      live (all.insert hash tx) other = live all other := by
    rw [live, live, lookup_insert_ne (noEntry other mem)]
  have oldFilter : list.items.filter (live (all.insert hash tx)) = list.items.filter (live all) :=
    filter_congr oldLive
  have notMember : tx ∉ list.items := fun mem => noEntry tx mem hashEq.symm
  refine ⟨fun got => ?_, ?_, fun other mem isLive => ?_, fun got => ?_, ?_⟩
  · rcases lookup_eq got with ⟨rfl, rfl⟩ | ⟨-, before⟩
    · exact hashEq.symm
    · exact indexes.keyed before
  · rw [(perm.filter _).nodup_iff, filter_cons_of_pos newLive, oldFilter, nodup_cons]
    exact ⟨fun mem => notMember (mem_filter.mp mem).1, indexes.once⟩
  · rcases mem_cons.mp (perm.mem_iff.mp mem) with rfl | mem
    · rw [← hashEq, lookup_insert]
    · rw [oldLive other mem] at isLive
      rw [lookup_insert_ne (noEntry other mem)]
      exact indexes.entry other mem isLive
  · rcases lookup_eq got with ⟨rfl, rfl⟩ | ⟨-, before⟩
    · exact perm.mem_iff.mpr mem_cons_self
    · exact perm.mem_iff.mpr (mem_cons_of_mem tx (indexes.covers before))
  · have counts := perm.countP_eq fun other => !live (all.insert hash tx) other
    rw [countP_cons_of_neg (by rw [newLive]; decide)] at counts
    have oldCounts : list.items.countP (fun other => !live (all.insert hash tx) other) =
        list.items.countP fun other => !live all other :=
      countP_congr fun other mem => by rw [oldLive other mem]
    rw [counts, oldCounts]
    exact indexes.stale

end

end Indexes

namespace TxPool

variable {lib : StateLib} {pool origin : TxPool lib} {env : PoolEnv} {hash : Hash}
  {tx : Transaction} {chosen : TxPool lib}

/-- Placement with every transaction in the index; nothing is postponed. -/
def strictRegime : Regime where
  level := .recorded
  postpones := False
  good _ := True

theorem indexRule_indexes :
    IndexRule strictRegime fun pool : TxPool lib => Indexes pool.all pool.priced where
  known := trivial
  reindex := by
    intro origin pool indexes reindex
    induction reindex with
    | start => exact indexes
    | frame prior same ih => rwa [same.all, same.priced]
    | drop prior recorded ih => exact ih.removed recorded _
    | requeue prior postponed recorded ih => exact postponed.elim

def Priced (pool : TxPool lib) : Prop :=
  Indexed strictRegime (fun pool : TxPool lib => Indexes pool.all pool.priced) pool

/-- An added transaction is not a system transaction that gets its nonce now and left no entry
behind when it was in the pool before; nothing is discarded for it or by a new price; a reset puts
nothing back into the queue. -/
def undisturbed (env : PoolEnv) : Conditions lib where
  add view isLocal pool tx :=
    (tx.systemFlag = 0 ∨ tx.nonce ≠ 0) ∧
      ((pool.all.lookup tx.hash).isSome ∨ ∀ other ∈ pool.priced.items, other.hash ≠ tx.hash) ∧
      (pool.discards env view tx isLocal).1 = []
  reprice pool price := (pool.reprice price).1 = []
  settle pool := pool.DemotesNothing

instance (view : PoolView lib) (isLocal : Bool) (pool : TxPool lib) (tx : Transaction) :
    Decidable ((undisturbed env).add view isLocal pool tx) :=
  inferInstanceAs (Decidable (_ ∧ (_ ∨ ∀ other ∈ pool.priced.items, _) ∧ _ = _))

instance (pool : TxPool lib) (price : Int) : Decidable ((undisturbed env).reprice pool price) :=
  inferInstanceAs (Decidable ((pool.reprice price).1 = []))

instance (pool : TxPool lib) : Decidable ((undisturbed env).settle pool) :=
  inferInstanceAs (Decidable pool.DemotesNothing)

theorem chooseDiscards_swept {drop : List Transaction}
    (chose : pool.chooseDiscards tx = (some drop, chosen)) :
    chosen.all = pool.all ∧ Swept pool.all pool.priced drop chosen.priced := by
  unfold chooseDiscards at chose
  split at chose
  · cases chose
    exact ⟨rfl, swept_refl _⟩
  · dsimp only at chose
    split at chose
    · cases chose
    · cases chose
      refine ⟨rfl, ?_⟩
      exact (underpriced_swept pool.priced tx pool.locals).trans discardLoop_sweeps.swept.save

theorem chooseDiscards_asked (chose : pool.chooseDiscards tx = (none, chosen)) :
    chosen.all = pool.all ∧ Swept pool.all pool.priced [] chosen.priced := by
  unfold chooseDiscards at chose
  split at chose
  · cases chose
  · dsimp only at chose
    split at chose
    · cases chose
      exact ⟨rfl, underpriced_swept pool.priced tx pool.locals⟩
    · cases chose

theorem indexes_insertion {after : TxPool lib}
    (placed : Placed .recorded (fun _ => True) pool.contents [])
    (indexes : Indexes pool.all pool.priced) (unknown : pool.all.lookup tx.hash = none)
    (noEntry : ∀ other ∈ pool.priced.items, other.hash ≠ tx.hash)
    (inserted : Insertion pool tx.hash tx after) : Indexes after.all after.priced := by
  cases inserted with
  | refused contents entries => rwa [entries.all, entries.priced]
  | queued free contents entries =>
    rw [entries.all, entries.priced]
    exact indexes.put rfl unknown noEntry
  | replaced place old key occupied sameKey contents entries =>
    have isKey : key = tx.hash := sameKey.elim id id
    rw [entries.all, entries.priced, isKey]
    obtain ⟨sameOwner, sameNonce⟩ := placed.slot occupied
    rw [← sameOwner, ← sameNonce] at occupied
    have recorded : pool.all.lookup old.hash = some old :=
      placed.recorded trivial (.inl ⟨place, occupied⟩)
    have removed := indexes.removed (by rw [recorded]; rfl) (pool.choices 0)
    refine removed.put rfl ?_ (indexes.noEntry_removed unknown noEntry _)
    have notOld : tx.hash ≠ old.hash := by
      intro same
      rw [same, recorded] at unknown
      cases unknown
    rw [lookup_erase_ne notOld]
    exact unknown

theorem kept_priced : Kept env (undisturbed env) (Priced : TxPool lib → Prop) where
  toMaintained := indexRule_indexes.maintained
  directCalls := fun _ priced => indexRule_indexes.frame priced rfl ⟨rfl, rfl, rfl, rfl⟩
  add := by
    intro pool view tx isLocal priced ⟨numEq, noEntry, discardsNothing⟩
    have placed := priced.placed.add (fun _ _ => trivial) (fun _ valid validated => by
        rw [(@validateTx_eq_ok lib env view pool tx valid isLocal validated).unchanged numEq])
      (fun full => nomatch full)
    refine ⟨placed, ?_⟩
    cases add_addition env view pool tx isLocal with
    | nothing same =>
      rw [same]
      exact priced.index
    | underpriced valid chosen =>
      obtain ⟨sameAll, swept⟩ := chooseDiscards_asked chosen
      rw [sameAll]
      exact priced.index.swept swept
    | inserted valid drop chosenPool unknown validated chosen discards inserted =>
      rw [discards] at discardsNothing
      cases discardsNothing
      cases (validateTx_eq_ok validated).unchanged numEq
      obtain ⟨sameAll, swept⟩ := chooseDiscards_swept chosen
      have indexes := priced.index.swept swept
      have sameContents := contents_chooseDiscards pool tx
      rw [chosen] at sameContents
      have chosenPlaced : Placed .recorded (fun _ => True) chosenPool.contents [] := by
        rw [sameContents]
        exact priced.placed
      rw [← sameAll] at indexes unknown
      have chosenNoEntry : ∀ other ∈ chosenPool.priced.items, other.hash ≠ tx.hash := by
        intro other mem
        obtain ⟨stale, -, perm, -⟩ := swept.entries
        refine noEntry.resolve_left (fun known => ?_) other
          (perm.mem_iff.mpr (mem_append_right _ (mem_append_right _ mem)))
        rw [← sameAll, unknown] at known
        cases known
      rw [inserted]
      exact indexes_insertion chosenPlaced indexes unknown chosenNoEntry
        (insertTx_insertion _ _ _ _)

theorem preserves_priced : Preserves env (undisturbed env) (Priced : TxPool lib → Prop) Priced where
  kept := kept_priced
  keptEntered := kept_priced
  pangu := fun _ priced => indexRule_indexes.frame priced rfl ⟨rfl, rfl, rfl, rfl⟩
  setGasPrice := by
    intro pool price priced nothing
    have nothingDropped : (pool.reprice price).1 = [] := nothing
    have swept : Swept pool.all pool.priced (pool.reprice price).1 (pool.reprice price).2.priced :=
      cap_swept pool.priced price pool.locals
    rw [nothingDropped] at swept
    rw [setGasPrice, nothingDropped]
    exact ⟨priced.placed, priced.index.swept swept⟩
  enterState := fun _ _ priced => indexRule_indexes.frame priced rfl ⟨rfl, rfl, rfl, rfl⟩
  settle := fun priced demotesNothing ret =>
    indexRule_indexes.settle priced (.inr demotesNothing) ret

/-- The heap entries whose hash is in the index are the transactions of the index, each once, and
the counter, not negative, is the number of the others. -/
structure PriceIndex (pool : TxPool lib) : Prop where
  live : (pool.priced.items.filter fun tx => (pool.all.lookup tx.hash).isSome).Perm
    (pool.all.entries.map Sigma.snd)
  stale : ((pool.priced.items.countP fun tx => (pool.all.lookup tx.hash).isNone : Nat) :
    Int) = pool.priced.stales
  nonneg : 0 ≤ pool.priced.stales

theorem priceIndex_of_indexes (indexes : Indexes pool.all pool.priced) : pool.PriceIndex := by
  have stale : ((pool.priced.items.countP fun tx => (pool.all.lookup tx.hash).isNone : Nat) :
      Int) = pool.priced.stales := by
    rw [← indexes.stale]
    refine congrArg Nat.cast (countP_congr fun tx _ => ?_)
    rw [live, Option.not_isSome]
  refine ⟨?_, stale, by rw [← stale]; exact Int.natCast_nonneg _⟩
  refine (perm_ext_iff_of_nodup indexes.once (nodup_values indexes.keyed)).mpr fun tx => ?_
  rw [mem_values indexes.keyed, mem_filter]
  constructor
  · rintro ⟨mem, isLive⟩
    exact indexes.entry tx mem isLive
  · intro got
    exact ⟨indexes.covers got, indexes.live_of_lookup got⟩

/-- In every run whose operations leave the price index undisturbed, the heap has
one entry for every transaction of the pool and counts the others. -/
theorem priceIndex_of_run (env : PoolEnv) (config : TxPoolConfig) (state : lib.StateDB)
    (maxGas : Int) (choices : Nat → Nat) (clock : Nat → Int) (inputs : List (Input lib))
    (pool : TxPool lib) (conds : EachStep (step env) (Meets env (undisturbed env))
      (newTxPool config state maxGas choices clock) inputs)
    (ran : run (step env) (newTxPool config state maxGas choices clock) inputs = .ok pool) :
    pool.PriceIndex := by
  have start : Priced (newTxPool config state maxGas choices clock : TxPool lib) :=
    ⟨placed_newTxPool config state maxGas choices clock,
      fun got => (nomatch got), nodup_nil, forall_mem_nil _,
      fun got => (nomatch got), rfl⟩
  exact priceIndex_of_indexes (preserves_priced.run start conds ran).index

def transferOf (sender : Address) (hash : Hash) (nonce : Fin 100) (price : Int) :
    Transaction :=
  { transfer hash nonce price with sender := some sender }

/-- The transaction that a new price drops was taken out of the heap already and is
counted as stale nevertheless. -/
theorem repricing_counts_missing_entry :
    ∃ pool, run (step .plain) freshPool
        [⟨genesisView, .addRemotes [transferOf 11 21 0 1, transferOf 12 22 0 2,
            transferOf 13 23 0 2, transferOf 14 24 0 2, transferOf 15 25 0 2]⟩,
          ⟨genesisView, .setGasPrice 2⟩] = .ok pool ∧
      pool.priced.items.length = 4 ∧ pool.all.entries.length = 4 ∧
      pool.priced.stales = 1 ∧ ¬ pool.PriceIndex := by
  refine exists_ok_of (fun pool =>
      pool.priced.items.length = 4 ∧ pool.all.entries.length = 4 ∧
      pool.priced.stales = 1 ∧
      pool.priced.items.countP (fun tx => (pool.all.lookup tx.hash).isNone) = 0)
    (by decide +kernel) ?_
  rintro pool ran ⟨entries, known, stales, noneStale⟩
  refine ⟨entries, known, stales, fun priceIndex => ?_⟩
  have counted := priceIndex.stale
  rw [noneStale, stales] at counted
  cases counted

/-- Four transactions, one of which is replaced by a better one; the entry of the
old one is stale. -/
theorem priceIndex_after_replacement :
    ∃ pool, run (step .plain) freshPool
        [⟨genesisView, .addRemotes [transferOf 11 21 0 1, transferOf 12 22 0 2,
            transferOf 13 23 0 2, transferOf 14 24 0 2]⟩,
          ⟨genesisView, .addRemote (transferOf 12 32 0 3)⟩,
          ⟨genesisView, .evict⟩] = .ok pool ∧
      pool.priced.stales = 1 ∧ pool.PriceIndex := by
  refine exists_ok_of (fun pool => pool.priced.stales = 1) (by decide +kernel) ?_
  intro pool ran stales
  refine ⟨stales, ?_⟩
  exact priceIndex_of_run .plain _ _ _ _ _ _ pool (by decide +kernel) ran

end TxPool

end MoacVnode.Core
