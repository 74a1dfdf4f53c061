import MoacVnode.Core.TxPoolPriceIndex

/-!
# The capacity of the pool

Without local accounts the pool never holds more transactions than the two global limits allow
together, if they allow any.
-/

namespace MoacVnode.Core

open Lib TxPricedList
open TxPricedList (live Swept)
open List Option Nat

namespace TxPricedList

variable {all : TxMap} {list rest : TxPricedList} {drop : List Transaction} {tx : Transaction}
  {count : Int}

theorem Swept.mem_or (swept : Swept all list drop rest) (mem : tx ∈ list.items)
    (isLive : live all tx = true) : tx ∈ drop ∨ tx ∈ rest.items := by
  obtain ⟨stale, areStale, perm, -⟩ := swept.entries
  rcases mem_append.mp (perm.mem_iff.mp mem) with inDrop | later
  · exact .inl inDrop
  · rcases mem_append.mp later with inStale | inRest
    · cases (areStale tx inStale).symm.trans isLive
    · exact .inr inRest

theorem discardLoop_ne_nil {fuel : Nat} (enough : list.items.length ≤ fuel) (positive : 0 < count)
    (mem : tx ∈ list.items) (isLive : live all tx = true) :
    (discardLoop all ∅ fuel count list).1 ≠ [] := by
  induction fuel generalizing list with
  | zero =>
    have nothing := length_eq_zero_iff.mp (le_zero.mp enough)
    rw [nothing] at mem
    cases mem
  | succ fuel ih =>
    rw [discardLoop, if_neg (Int.not_le.mpr positive)]
    rcases pop_eq list.items with ⟨-, nothing⟩ | ⟨first, items, popped, perm⟩
    · rw [nothing] at mem
      cases mem
    · rw [popped]
      dsimp only
      split
      · rename_i isStale
        have ne : tx ≠ first := by
          intro same
          rw [same, live_eq_false isStale] at isLive
          cases isLive
        refine @ih ⟨items, list.stales - 1⟩ ?_ ?_
        · have lengths := perm.length_eq
          rw [length_cons] at lengths
          change items.length ≤ fuel
          omega
        · exact (mem_cons.mp (perm.mem_iff.mp mem)).resolve_left ne
      · have remote : containsTx ∅ first = false := by
          unfold containsTx
          split
          · rfl
          · rfl
        rw [remote]
        exact cons_ne_nil _ _

end TxPricedList

namespace TxPool

variable {lib : StateLib} {pool origin chosen after : TxPool lib} {env : PoolEnv}
  {hash : Hash} {tx : Transaction} {drop : List Transaction} {owed : Hash → Prop} {postpones : Prop}

/-- Every transaction of the index, except for some that are owed, has an entry in
the price heap. -/
structure Covered (owed : Hash → Prop) (pool : TxPool lib) : Prop where
  keyed : ∀ {hash tx}, pool.all.lookup hash = some tx → tx.hash = hash
  covers : ∀ {hash tx}, pool.all.lookup hash = some tx → owed hash ∨ tx ∈ pool.priced.items

section

variable (covered : Covered owed pool)

include covered

theorem Covered.congr (sameAll : after.all = pool.all) (samePriced : after.priced = pool.priced) :
    Covered owed after := by
  obtain ⟨keyed, covers⟩ := covered
  rw [← sameAll] at keyed covers
  rw [← samePriced] at covers
  exact ⟨keyed, covers⟩

theorem Covered.dropTx (hash : Hash) : Covered owed (pool.dropTx hash) := by
  refine ⟨fun got => covered.keyed (Indexes.lookup_erase_eq got).2, fun got => ?_⟩
  have before := (Indexes.lookup_erase_eq got).2
  change _ ∨ _ ∈ (pool.priced.removed (pool.choices 0) (pool.all.erase hash)).items
  unfold removed
  split
  · exact covered.covers before
  · refine .inr ((Heap.init_perm Transaction.gasPrice _).mem_iff.mpr ?_)
    exact mem_map.mpr ⟨⟨_, _⟩, mem_shuffle.mpr (AList.mem_lookup_iff.mp got), rfl⟩

theorem Covered.track (hashEq : hash = tx.hash) : Covered owed (pool.track hash tx) := by
  have perm : (pool.priced.put tx).items.Perm (tx :: pool.priced.items) :=
    Heap.push_perm Transaction.gasPrice pool.priced.items tx
  have cases_lookup {key other} (got : (pool.track hash tx).all.lookup key = some other) :
      key = hash ∧ other = tx ∨ pool.all.lookup key = some other := by
    change (pool.all.insert hash tx).lookup key = some other at got
    by_cases same : key = hash
    · rw [same, AList.lookup_insert] at got
      exact .inl ⟨same, (some_inj.mp got).symm⟩
    · rw [AList.lookup_insert_ne same] at got
      exact .inr got
  refine ⟨fun got => ?_, fun got => ?_⟩
  · rcases cases_lookup got with ⟨rfl, rfl⟩ | before
    · exact hashEq.symm
    · exact covered.keyed before
  · rcases cases_lookup got with ⟨rfl, rfl⟩ | before
    · exact .inr (perm.mem_iff.mpr mem_cons_self)
    · exact (covered.covers before).imp_right fun mem => perm.mem_iff.mpr (mem_cons_of_mem tx mem)

end

theorem Covered.reindex (covered : Covered owed origin) (reindex : Reindex postpones origin pool) :
    Covered owed pool := by
  induction reindex with
  | start => exact covered
  | frame prior same ih => exact ih.congr same.all same.priced
  | @drop pool hash prior recorded ih => exact ih.dropTx hash
  | requeue prior postponed recorded ih => exact ih.track rfl

theorem Covered.swept (covered : Covered (fun _ => False) pool) (sameAll : chosen.all = pool.all)
    (swept : Swept pool.all pool.priced drop chosen.priced) :
    Covered (· ∈ drop.map Transaction.hash) chosen := by
  refine ⟨fun got => covered.keyed (sameAll ▸ got), fun {hash tx} got => ?_⟩
  rw [sameAll] at got
  have isLive : live pool.all tx = true := by
    rw [live, covered.keyed got, got]
    rfl
  refine (swept.mem_or ((covered.covers got).resolve_left id) isLive).imp_left fun mem => ?_
  rw [← covered.keyed got]
  exact mem_map_of_mem mem

def recordedRegime : Regime where
  level := .recorded
  postpones := True
  good _ := True

def Recorded (pool : TxPool lib) : Prop := Placed .recorded (fun _ => True) pool.contents []

theorem tidy_removeAll (recorded : pool.Recorded) (txs : List Transaction) :
    Tidy recordedRegime pool (pool.removeAll txs) [] :=
  Placed.removeAll recorded fun complete => nomatch complete

theorem lookup_removeTx_self (recorded : pool.Recorded) (hash : Hash) :
    (pool.removeTx hash).all.lookup hash = none := by
  cases got : pool.all.lookup hash with
  | none => rwa [removeTx_of_missing got]
  | some tx =>
    have removed : Tidy recordedRegime (pool.dropTx hash) (pool.removeTx hash) [] :=
      Tidy.removeTx_of_lookup recorded (fun complete => nomatch complete)
        (fun _ => .inl trivial) got
    rw [← not_isSome_iff_eq_none]
    intro still
    obtain ⟨other, otherFound⟩ := isSome_iff_exists.mp still
    have before := (removed.reindex trivial).lookup_of otherFound
    exact (Indexes.lookup_erase_eq before).1 rfl

theorem lookup_removeAll (recorded : pool.Recorded) {txs : List Transaction}
    (mem : tx ∈ txs) : (pool.removeAll txs).all.lookup tx.hash = none := by
  induction txs generalizing pool with
  | nil => cases mem
  | cons first txs ih =>
    have next : (pool.removeTx first.hash).Recorded := (tidy_removeAll recorded [first]).placed
    rcases mem_cons.mp mem with rfl | inRest
    · rw [← not_isSome_iff_eq_none]
      intro still
      obtain ⟨other, otherFound⟩ := isSome_iff_exists.mp still
      have before := ((tidy_removeAll next txs).reindex trivial).lookup_of otherFound
      cases before.symm.trans (lookup_removeTx_self recorded tx.hash)
    · exact ih next inRest

theorem Covered.removeAll (covered : Covered (fun _ => False) pool) (recorded : chosen.Recorded)
    (sameAll : chosen.all = pool.all) (swept : Swept pool.all pool.priced drop chosen.priced) :
    Covered (fun _ => False) (chosen.removeAll drop) := by
  have removed := (covered.swept sameAll swept).reindex
    ((tidy_removeAll recorded drop).reindex trivial)
  refine ⟨removed.keyed, fun got => ?_⟩
  refine (removed.covers got).imp_left fun owed => ?_
  obtain ⟨tx, mem, hashEq⟩ := mem_map.mp owed
  rw [← hashEq, lookup_removeAll recorded mem] at got
  cases got

section

variable (reindex : Reindex postpones origin pool)

include reindex

theorem Reindex.length_le : pool.all.entries.length ≤ origin.all.entries.length :=
  length_le_of_lookup fun got => by
    rw [reindex.lookup_of got]
    rfl

theorem Reindex.locals : pool.locals = origin.locals := by
  induction reindex with
  | start => rfl
  | frame prior same ih => exact same.locals.trans ih
  | drop prior recorded ih => exact ih
  | requeue prior postponed recorded ih => exact ih

theorem Reindex.config : pool.config = origin.config := by
  induction reindex with
  | start => rfl
  | frame prior same ih => exact same.config.trans ih
  | drop prior recorded ih => exact ih
  | requeue prior postponed recorded ih => exact ih

end

/-- Without local accounts every transaction has an entry in the heap and there
are not more than the limits allow. -/
structure Bounded (config : TxPoolConfig) (pool : TxPool lib) : Prop where
  config : pool.config = config
  covered : pool.locals = ∅ → Covered (fun _ => False) pool
  bound : pool.locals = ∅ → pool.all.entries.length ≤ max 1 pool.capacity

theorem indexRule_bounded (config : TxPoolConfig) :
    IndexRule recordedRegime (Bounded config : TxPool lib → Prop) where
  known := trivial
  reindex := by
    intro origin pool bounded reindex
    have sameConfig := reindex.config
    refine ⟨sameConfig.trans bounded.config, fun noLocals => ?_, fun noLocals => ?_⟩
    · rw [reindex.locals] at noLocals
      exact (bounded.covered noLocals).reindex reindex
    · rw [reindex.locals] at noLocals
      rw [capacity, sameConfig]
      exact reindex.length_le.trans (bounded.bound noLocals)

section

variable (covered : Covered (fun _ => False) pool)

include covered

theorem discards_something (noLocals : pool.locals = ∅)
    (full : ¬ pool.all.entries.length < pool.capacity) (recorded : pool.all.entries ≠ [])
    (chose : pool.chooseDiscards tx = (some drop, chosen)) :
    ∃ old ∈ drop, (pool.all.lookup old.hash).isSome := by
  obtain ⟨-, swept⟩ := chooseDiscards_swept chose
  obtain ⟨entry, mem⟩ := exists_mem_of_ne_nil _ recorded
  have got : pool.all.lookup entry.1 = some entry.2 := AList.mem_lookup_iff.mpr mem
  have isLive : live pool.all entry.2 = true := by
    rw [live, covered.keyed got, got]
    rfl
  have pruned := @underpriced_swept pool.all pool.priced tx pool.locals
  have inPruned := (pruned.mem_or ((covered.covers got).resolve_left id) isLive).resolve_left
    not_mem_nil
  have positive : 0 < pool.overflow := by
    have below : pool.capacity < uint64Size := mod_lt _ (by decide)
    unfold overflow prev64
    generalize pool.capacity = capacity at full below
    unfold uint64Size at *
    rcases Nat.eq_zero_or_pos capacity with none | some
    · subst none
      rw [show Int.bmod ((0 + (2 ^ 64 - 1)) % 2 ^ 64 : Nat) (2 ^ 64) = -1 by decide]
      omega
    · have wrapped : (capacity + (2 ^ 64 - 1)) % 2 ^ 64 = capacity - 1 := by omega
      have shrinks : Int.bmod ((capacity - 1 : Nat) : Int) (2 ^ 64) ≤ (capacity - 1 : Nat) := by
        rw [Int.bmod_eq_emod, Int.emod_eq_of_lt (by omega) (by omega)]
        split <;> omega
      rw [wrapped]
      omega
  unfold chooseDiscards at chose
  rw [if_neg full] at chose
  dsimp only at chose
  split at chose
  · cases chose
  · cases chose
    rw [noLocals] at inPruned swept ⊢
    obtain ⟨old, oldMem⟩ := exists_mem_of_ne_nil _
      (discardLoop_ne_nil (le_refl _) positive inPruned isLive)
    exact ⟨old, oldMem, swept.dropped old oldMem⟩

theorem length_removeAll (noLocals : pool.locals = ∅) (recorded : chosen.Recorded)
    (bound : pool.all.entries.length ≤ max 1 pool.capacity)
    (chose : pool.chooseDiscards tx = (some drop, chosen)) :
    (chosen.removeAll drop).all.entries.length + 1 ≤ max 1 pool.capacity := by
  obtain ⟨sameAll, swept⟩ := chooseDiscards_swept chose
  have reindex := (tidy_removeAll recorded drop).reindex trivial
  have notMore := reindex.length_le
  rw [sameAll] at notMore
  by_cases full : pool.all.entries.length < pool.capacity
  · omega
  · by_cases nothing : pool.all.entries = []
    · rw [nothing, length_nil] at notMore
      omega
    · obtain ⟨old, mem, known⟩ := discards_something covered noLocals full nothing chose
      have fewer : (chosen.removeAll drop).all.entries.length < chosen.all.entries.length := by
        refine length_lt_of_lookup (fun got => ?_) (sameAll ▸ known) (lookup_removeAll recorded mem)
        rw [reindex.lookup_of got]
        rfl
      rw [sameAll] at fewer
      omega

theorem Covered.insertion (hashEq : tx.hash = hash) (inserted : Insertion pool hash tx after) :
    Covered (fun _ => False) after ∧ after.all.entries.length ≤ pool.all.entries.length + 1 := by
  cases inserted with
  | refused contents entries =>
    exact ⟨covered.congr entries.all entries.priced, by rw [entries.all]; omega⟩
  | queued free contents entries =>
    refine ⟨(covered.track hashEq.symm).congr entries.all entries.priced, ?_⟩
    rw [entries.all]
    exact length_insert_le pool.all hash tx
  | replaced place old key occupied sameKey contents entries =>
    have isKey : key = tx.hash := sameKey.elim (·.trans hashEq.symm) id
    refine ⟨((covered.dropTx old.hash).track isKey).congr entries.all entries.priced, ?_⟩
    rw [entries.all]
    refine (length_insert_le (pool.all.erase old.hash) key tx).trans
      (succ_le_succ (length_le_of_lookup fun got => ?_))
    rw [(Indexes.lookup_erase_eq got).2]
    rfl

end

theorem Insertion.locals (inserted : Insertion pool hash tx after)
    (noLocals : after.locals = ∅) : pool.locals = ∅ := by
  have unmarked : ¬ tx.owner ∈ after.locals := by
    rw [noLocals]
    exact Finset.notMem_empty _
  cases inserted with
  | refused contents entries => exact (entries.locals.resolve_right unmarked).symm.trans noLocals
  | queued free contents entries | replaced place old key occupied sameKey contents entries =>
    exact (entries.locals.resolve_right unmarked).symm.trans noLocals

theorem Insertion.config (inserted : Insertion pool hash tx after) :
    after.config = pool.config := by
  cases inserted with
  | refused contents entries | queued free contents entries
  | replaced place old key occupied sameKey contents entries => exact entries.config

theorem chooseDiscards_same (pool : TxPool lib) (tx : Transaction) :
    (pool.chooseDiscards tx).2.all = pool.all ∧
      (pool.chooseDiscards tx).2.locals = pool.locals ∧
      (pool.chooseDiscards tx).2.config = pool.config := by
  unfold chooseDiscards
  split
  · exact ⟨rfl, rfl, rfl⟩
  · dsimp only
    split <;> exact ⟨rfl, rfl, rfl⟩

theorem kept_bounded (config : TxPoolConfig)
    (keepsHash : ∀ tx nonce, (env.updateNonce tx nonce).hash = tx.hash) :
    Kept env unconditional (Indexed recordedRegime (Bounded config) : TxPool lib → Prop) where
  toMaintained := (indexRule_bounded config).maintained
  directCalls := fun _ indexed => (indexRule_bounded config).frame indexed rfl ⟨rfl, rfl, rfl, rfl⟩
  add := by
    intro pool view tx isLocal indexed _
    have bounded := indexed.index
    refine ⟨indexed.placed.add (fun _ _ => trivial) (fun _ _ => validateTx_hash keepsHash)
      (fun complete => nomatch complete), ?_⟩
    cases add_addition env view pool tx isLocal with
    | nothing same => rwa [same]
    | underpriced valid chose =>
      obtain ⟨sameAll, sameLocals, sameConfig⟩ := chooseDiscards_same pool valid
      obtain ⟨-, swept⟩ := chooseDiscards_asked chose
      rw [chose] at sameAll sameLocals sameConfig
      refine ⟨sameConfig.trans bounded.config, fun noLocals => ?_, fun noLocals => ?_⟩
      · rw [sameLocals] at noLocals
        have covered := (bounded.covered noLocals).swept sameAll swept
        exact ⟨covered.keyed, fun got => (covered.covers got).imp_left not_mem_nil⟩
      · rw [sameLocals] at noLocals
        rw [sameAll, capacity, sameConfig]
        exact bounded.bound noLocals
    | inserted valid drop chosenPool unknown validated chose discards inserted =>
      obtain ⟨sameAll, sameLocals, sameConfig⟩ := chooseDiscards_same pool valid
      obtain ⟨-, swept⟩ := chooseDiscards_swept chose
      have sameContents := contents_chooseDiscards pool valid
      rw [chose] at sameAll sameLocals sameConfig sameContents
      have recorded : chosenPool.Recorded := by
        rw [Recorded, sameContents]
        exact indexed.placed
      have reindex := (tidy_removeAll recorded drop).reindex trivial
      have insertion := insertTx_insertion (chosenPool.removeAll drop) tx.hash valid isLocal
      rw [← inserted] at insertion
      have allSameConfig : (pool.add env view tx isLocal).1.config = pool.config :=
        insertion.config.trans (reindex.config.trans sameConfig)
      have before (noLocals : (pool.add env view tx isLocal).1.locals = ∅) : pool.locals = ∅ := by
        rw [← sameLocals, ← reindex.locals]
        exact insertion.locals noLocals
      refine ⟨allSameConfig.trans bounded.config, fun noLocals => ?_, fun noLocals => ?_⟩
      · exact (((bounded.covered (before noLocals)).removeAll recorded sameAll
          swept).insertion (validateTx_hash keepsHash validated) insertion).1
      · have covered := bounded.covered (before noLocals)
        have room := length_removeAll covered (before noLocals) recorded
          (bounded.bound (before noLocals)) chose
        have grown := ((covered.removeAll recorded sameAll swept).insertion
          (validateTx_hash keepsHash validated) insertion).2
        rw [capacity, allSameConfig]
        exact grown.trans room

theorem preserves_bounded (config : TxPoolConfig)
    (keepsHash : ∀ tx nonce, (env.updateNonce tx nonce).hash = tx.hash) :
    Preserves env unconditional (Indexed recordedRegime (Bounded config) : TxPool lib → Prop)
      (Indexed recordedRegime (Bounded config)) where
  kept := kept_bounded config keepsHash
  keptEntered := kept_bounded config keepsHash
  pangu := fun _ indexed => (indexRule_bounded config).frame indexed rfl ⟨rfl, rfl, rfl, rfl⟩
  setGasPrice := by
    intro pool price indexed _
    have bounded := indexed.index
    have repriced : (pool.reprice price).2.Recorded := indexed.placed
    have tidy := tidy_removeAll repriced (pool.reprice price).1
    have reindex := tidy.reindex trivial
    refine ⟨tidy.placed, reindex.config.trans bounded.config, fun noLocals => ?_,
      fun noLocals => ?_⟩
    · have before : pool.locals = ∅ := reindex.locals.symm.trans noLocals
      exact (bounded.covered before).removeAll repriced rfl
        (cap_swept pool.priced price pool.locals)
    · have before : pool.locals = ∅ := reindex.locals.symm.trans noLocals
      rw [setGasPrice, capacity, reindex.config]
      exact reindex.length_le.trans (bounded.bound before)
  enterState := fun _ _ indexed => (indexRule_bounded config).frame indexed rfl ⟨rfl, rfl, rfl, rfl⟩
  settle := fun indexed _ ret =>
    (indexRule_bounded config).settle indexed (.inl trivial) ret

/-- A run that marks no account as local never fills the pool over the two global
limits together, unless both are zero. -/
theorem capacity_of_run (env : PoolEnv)
    (keepsHash : ∀ tx nonce, (env.updateNonce tx nonce).hash = tx.hash)
    (config : TxPoolConfig) (positive : 0 < config.globalSlots + config.globalQueue)
    (state : lib.StateDB) (maxGas : Int) (choices : Nat → Nat) (clock : Nat → Int)
    (inputs : List (Input lib)) (pool : TxPool lib)
    (ran : run (step env) (newTxPool config state maxGas choices clock) inputs = .ok pool)
    (noLocals : pool.locals = ∅) :
    pool.all.entries.length ≤ config.globalSlots + config.globalQueue := by
  have start : Indexed recordedRegime (Bounded config.sanitize)
      (newTxPool config state maxGas choices clock : TxPool lib) :=
    ⟨placed_newTxPool config state maxGas choices clock, rfl,
      fun _ => ⟨fun got => (nomatch got), fun got => (nomatch got)⟩,
      fun _ => zero_le _⟩
  have bounded := ((preserves_bounded config.sanitize keepsHash).run start
    (eachStep_of_forall (meets_unconditional env) _ inputs) ran).index
  have bound := bounded.bound noLocals
  rw [capacity, bounded.config] at bound
  refine bound.trans (Nat.max_le.mpr ⟨positive, ?_⟩)
  exact Nat.mod_le _ _

def poolWithoutSlots : TxPool .plain :=
  @newTxPool .plain { priceLimit := 1, globalSlots := 0, globalQueue := 0 }
    (fun _ => (0, 10 ^ 9)) (10 ^ 6) (fun _ => 0) fun _ => 0

/-- It takes a transaction all the same. -/
theorem pool_without_slots_holds_one :
    ∃ pool, run (step .plain) poolWithoutSlots
        [⟨genesisView, .addRemote (transfer 10 0 1)⟩] = .ok pool ∧
      pool.locals = ∅ ∧ pool.config.globalSlots + pool.config.globalQueue = 0 ∧
      pool.all.entries.length = 1 := by
  decide +kernel

/-- A pool that holds one transaction discards it for a better one. -/
theorem capacity_of_one :
    ∃ pool, run (step .plain)
        (@newTxPool .plain { priceLimit := 1, globalSlots := 1, globalQueue := 0 }
          (fun _ => (0, 10 ^ 9)) (10 ^ 6) (fun _ => 0) fun _ => 0)
        [⟨genesisView, .addRemotes [transferOf 11 21 0 1, transferOf 12 22 0 2]⟩] = .ok pool ∧
      pool.all.lookup 22 = some (transferOf 12 22 0 2) ∧
      pool.all.entries.length ≤ 1 := by
  refine exists_ok_of (fun pool =>
      pool.all.lookup 22 = some (transferOf 12 22 0 2) ∧ pool.locals = ∅) (by decide +kernel) ?_
  rintro pool ran ⟨got, noLocals⟩
  exact ⟨got, capacity_of_run .plain (fun _ _ => rfl) _ (by decide) _ _ _ _ _ pool ran noLocals⟩

end TxPool

end MoacVnode.Core
