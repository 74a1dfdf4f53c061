import MoacVnode.Core.TxPoolAdmission

/-!
# Membership in the transaction pool

After every operation the index of the pool has exactly the transactions of the
pending lists and of the queue, each in one of them, provided that no operation
removes the first of several pending transactions of an account.
-/

namespace MoacVnode.Core

open Lib List

namespace TxPool

variable {lib : StateLib} {env : PoolEnv}

/-- An added transaction is not a system transaction that gets its nonce now, and what is discarded
for it or by a new price is removed without a loss. -/
def lossless (env : PoolEnv) : Conditions lib where
  add view isLocal pool tx :=
    (tx.systemFlag = 0 ∨ tx.nonce ≠ 0) ∧
      (pool.discards env view tx isLocal).2.LosslessAll (pool.discards env view tx isLocal).1
  reprice pool price := (pool.reprice price).2.LosslessAll (pool.reprice price).1
  settle _ := True

instance (view : PoolView lib) (isLocal : Bool) (pool : TxPool lib) (tx : Transaction) :
    Decidable ((lossless env).add view isLocal pool tx) :=
  inferInstanceAs (Decidable (_ ∧ LosslessAll _ _))

instance (pool : TxPool lib) (price : Int) : Decidable ((lossless env).reprice pool price) :=
  inferInstanceAs (Decidable (LosslessAll _ _))

instance (pool : TxPool lib) : Decidable ((lossless env).settle pool) := .isTrue trivial

def Exact (pool : TxPool lib) : Prop := Placed .exact (fun _ => True) pool.contents []

theorem kept_exact : Kept env (lossless env) (Exact : TxPool lib → Prop) where
  toMaintained := Placed.maintained
  directCalls := fun _ exact => exact
  add := by
    intro pool view tx isLocal exact meets
    refine exact.add (fun _ _ => trivial) (fun _ valid validated => ?_) fun _ => meets.2
    rw [(validateTx_eq_ok validated).unchanged meets.1]

theorem preserves_exact : Preserves env (lossless env) (Exact : TxPool lib → Prop) Exact where
  kept := kept_exact
  keptEntered := kept_exact
  pangu := fun _ exact => exact
  setGasPrice := by
    intro pool price exact meets
    have repriced : Exact (pool.reprice price).2 := exact
    exact (Placed.removeAll repriced fun _ => meets).placed
  enterState := fun _ _ exact => exact
  settle := fun exact _ ret => Placed.settle exact ret

end TxPool

namespace TxPool

variable {lib : StateLib} {pool : TxPool lib} {strict : Bool}
  {map : AList fun _ : Address => TxList strict} {tx : Transaction}

def transactionsOf (map : AList fun _ : Address => TxList strict) : List Transaction :=
  map.entries.flatMap fun entry => entry.2.flatten.1

theorem length_transactionsOf :
    (transactionsOf map).length = (map.entries.map fun entry => entry.2.len).sum := by
  rw [transactionsOf, length_flatMap]
  congr 1
  exact map_congr_left fun entry _ => entry.2.length_flatten

section

variable (owned : ∀ {addr nonce tx}, listAt map addr nonce = some tx → tx.owner = addr)

include owned

theorem owner_of_mem {entry : Sigma fun _ : Address => TxList strict}
    (mem : entry ∈ map.entries) (inList : tx ∈ entry.2.flatten.1) :
    tx.owner = entry.1 ∧ listAt map entry.1 tx.nonce = some tx := by
  have got : map.lookup entry.1 = some entry.2 := AList.mem_lookup_iff.mpr mem
  have held : listAt map entry.1 tx.nonce = some tx := by
    rw [listAt_of_lookup got]
    exact TxList.mem_flatten.mp inList
  exact ⟨owned held, held⟩

theorem mem_transactionsOf : tx ∈ transactionsOf map ↔ listAt map tx.owner tx.nonce = some tx := by
  rw [transactionsOf, mem_flatMap]
  constructor
  · rintro ⟨entry, mem, inList⟩
    obtain ⟨sameOwner, held⟩ := owner_of_mem owned mem inList
    rwa [sameOwner]
  · intro held
    obtain ⟨list, got, inList⟩ := exists_list held
    exact ⟨⟨tx.owner, list⟩, AList.mem_lookup_iff.mp got, TxList.mem_flatten.mpr inList⟩

theorem nodup_transactionsOf : (transactionsOf map).Nodup := by
  refine nodup_flatMap.mpr ⟨fun entry _ => entry.2.flatten_sorts.nodup, ?_⟩
  have keysDiffer := pairwise_map.mp map.nodupKeys
  refine keysDiffer.imp_of_mem fun leftMem rightMem differ tx inLeft inRight => ?_
  exact differ ((owner_of_mem owned leftMem inLeft).1.symm.trans
    (owner_of_mem owned rightMem inRight).1)

end

theorem length_all (placed : pool.Exact) :
    pool.all.entries.length = pool.stats.1 + pool.stats.2 := by
  have pendingOwned {addr nonce tx} (held : listAt pool.pending addr nonce = some tx) :
      tx.owner = addr :=
    (@placed.slot .pending addr nonce tx held).1
  have queueOwned {addr nonce tx} (held : listAt pool.queue addr nonce = some tx) :
      tx.owner = addr :=
    (@placed.slot .queue addr nonce tx held).1
  have keyed {hash : Hash} {tx : Transaction} (got : pool.all.lookup hash = some tx) :
      tx.hash = hash :=
    placed.keyed trivial got
  have nodupHeld : (transactionsOf pool.pending ++ transactionsOf pool.queue).Nodup := by
    refine nodup_append'.mpr ⟨nodup_transactionsOf pendingOwned,
      nodup_transactionsOf queueOwned, fun tx inPending inQueue => ?_⟩
    rcases @placed.apart tx.owner tx.nonce with free | free
    · cases ((mem_transactionsOf pendingOwned).mp inPending).symm.trans free
    · cases ((mem_transactionsOf queueOwned).mp inQueue).symm.trans free
  have perm : (pool.all.entries.map Sigma.snd).Perm
      (transactionsOf pool.pending ++ transactionsOf pool.queue) := by
    refine (perm_ext_iff_of_nodup (nodup_values keyed) nodupHeld).mpr fun tx => ?_
    rw [mem_append, mem_transactionsOf pendingOwned, mem_transactionsOf queueOwned,
      mem_values keyed]
    constructor
    · intro got
      rcases placed.only trivial got with ⟨place, held⟩ | loose
      · cases place with
        | pending => exact .inl held
        | queue => exact .inr held
      · cases loose
    · intro held
      exact placed.recorded trivial (.inl (held.elim (⟨.pending, ·⟩) (⟨.queue, ·⟩)))
  rw [← length_map Sigma.snd, perm.length_eq, length_append,
    length_transactionsOf, length_transactionsOf]
  rfl

/-- Every transaction of the index is in exactly one of the two lists of its sender, every
transaction of a list is in the index under its hash, and the index has no others. -/
structure Membership (pool : TxPool lib) : Prop where
  inOne : ∀ hash tx, pool.all.lookup hash = some tx →
    ∃ sender, tx.sender = some sender ∧
      Xor (pool.contents.held .pending sender tx.nonce = some tx)
        (pool.contents.held .queue sender tx.nonce = some tx)
  recorded : ∀ place addr nonce tx, pool.contents.held place addr nonce = some tx →
    pool.all.lookup tx.hash = some tx
  count : pool.all.entries.length = pool.stats.1 + pool.stats.2

theorem membership_of_exact (placed : pool.Exact) : pool.Membership where
  inOne := by
    intro hash tx got
    obtain ⟨sender, hasSender⟩ := Option.isSome_iff_exists.mp (placed.signed trivial got)
    have owner : tx.owner = sender := by rw [Transaction.owner, hasSender, Option.getD_some]
    obtain ⟨place, held⟩ := (placed.only trivial got).resolve_right not_mem_nil
    rw [owner] at held
    refine ⟨sender, hasSender, ?_⟩
    have apart := @placed.apart sender tx.nonce
    cases place with
    | pending =>
      refine .inl ⟨held, fun other => ?_⟩
      rcases apart with free | free
      · cases held.symm.trans free
      · cases other.symm.trans free
    | queue =>
      refine .inr ⟨held, fun other => ?_⟩
      rcases apart with free | free
      · cases other.symm.trans free
      · cases held.symm.trans free
  recorded := by
    intro place addr nonce tx held
    obtain ⟨rfl, rfl⟩ := placed.slot held
    exact placed.recorded trivial (.inl ⟨place, held⟩)
  count := length_all placed

/-- In every run that removes no transaction ahead of others that are pending, the index has exactly
the transactions of the pending lists and of the queue, each in one of them. -/
theorem membership_of_run (env : PoolEnv) (config : TxPoolConfig) (state : lib.StateDB)
    (maxGas : Int) (choices : Nat → Nat) (clock : Nat → Int) (inputs : List (Input lib))
    (pool : TxPool lib) (conds : EachStep (step env) (Meets env (lossless env))
      (newTxPool config state maxGas choices clock) inputs)
    (ran : run (step env) (newTxPool config state maxGas choices clock) inputs = .ok pool) :
    pool.Membership := by
  apply membership_of_exact
  exact preserves_exact.run (placed_newTxPool config state maxGas choices clock) conds ran

/-- A new price removes the first pending transaction of an account; the second stays in the index
and is in no list. -/
theorem repricing_loses_follower :
    ∃ pool, run (step .plain) freshPool
        [⟨genesisView, .addRemotes [transfer 10 0 1, transfer 11 1 2]⟩,
          ⟨genesisView, .setGasPrice 2⟩] = .ok pool ∧
      pool.all.lookup 11 = some (transfer 11 1 2) ∧ ¬ pool.Membership := by
  refine exists_ok_of (fun pool =>
      pool.all.lookup 11 = some (transfer 11 1 2) ∧
      pool.contents.held .pending 1 1 = none ∧
      pool.contents.held .queue 1 1 = none) (by decide +kernel) ?_
  rintro pool ran ⟨got, notPending, notQueued⟩
  refine ⟨got, fun membership => ?_⟩
  obtain ⟨sender, hasSender, inOne⟩ := membership.inOne 11 _ got
  cases hasSender
  rcases inOne with ⟨held, -⟩ | ⟨held, -⟩
  · cases notPending.symm.trans held
  · cases notQueued.symm.trans held

/-- Repricing that removes the last of two pending transactions, with a third
one queued behind a gap. -/
theorem membership_after_repricing :
    ∃ pool, run (step .plain) freshPool
        [⟨genesisView, .addRemotes [transfer 10 0 2, transfer 11 1 1, transfer 12 3 2]⟩,
          ⟨genesisView, .setGasPrice 2⟩, ⟨genesisView, .evict⟩] = .ok pool ∧
      pool.stats = (1, 1) ∧ pool.Membership := by
  refine exists_ok_of (fun pool => pool.stats = (1, 1)) (by decide +kernel) ?_
  intro pool ran counts
  refine ⟨counts, ?_⟩
  exact membership_of_run .plain _ _ _ _ _ _ pool (by decide +kernel) ran

end TxPool

end MoacVnode.Core
