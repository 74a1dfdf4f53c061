import MoacVnode.Core.TxPool

/-!
# The operations of the transaction pool

Promotion, demotion, the two limits, the reset to a new head and the eviction of
old transactions, and with them the operations that callers and the event loop
run on the pool.
-/

namespace MoacVnode.Core

open Lib

/-- An integer rounded to a float with the given number of significant bits,
ties to even. -/
def roundToBits (bits num : Nat) : Nat :=
  let unit := 2 ^ (num.log2 + 1 - bits)
  let floor := num / unit
  let rest := num % unit
  if unit < 2 * rest ∨ unit = 2 * rest ∧ floor % 2 = 1 then (floor + 1) * unit
  else floor * unit

theorem roundToBits_of_lt {bits num : Nat} (small : num < 2 ^ bits) :
    roundToBits bits num = num := by
  rcases Nat.eq_zero_or_pos num with rfl | positive
  · simp [roundToBits]
  · have log := (Nat.log2_lt (by omega)).mpr small
    have unit : num.log2 + 1 - bits = 0 := by omega
    unfold roundToBits
    rw [unit]
    simp [Nat.mod_one]

def float64 (num : Nat) : Nat := roundToBits 53 num

def float32 (num : Nat) : Nat := roundToBits 24 num

/-- `time.Since`: a duration is an `int64` and saturates. -/
def elapsed (now prior : Int) : Int := max (-(2 ^ 63)) (min (2 ^ 63 - 1) (now - prior))

namespace TxPool

variable {lib : StateLib}

variable (pool : TxPool lib)

variable (addr : Address)

def dropUnpayableQueued (list : TxList false) : TxPool lib × TxList false :=
  let forwarded := list.forward (pool.stateNonce addr)
  let pool := (pool.setQueue addr forwarded.2).dropAll forwarded.1
  let filtered := forwarded.2.filter pool.choices (pool.balance addr) pool.currentMaxGas
  (((pool.draw 4).setQueue addr filtered.2.2).dropAll filtered.1, filtered.2.2)

def promoteReady (list : TxList false) : TxPool lib × TxList false :=
  let ready := list.ready (pool.virtualNonce addr)
  (ready.1.foldl (fun pool tx => pool.promoteTx addr tx.hash tx)
    (pool.setQueue addr ready.2), ready.2)

def capQueued (list : TxList false) : Except Crash (TxPool lib × TxList false) :=
  if addr ∈ pool.locals then .ok (pool, list)
  else
    match list.cap (Int.bmod pool.config.accountQueue uint64Size) with
    | .error crash => .error crash
    | .ok (drops, capped) => .ok ((pool.setQueue addr capped).dropAll drops, capped)

def promoteAccount : Except Crash (TxPool lib) :=
  match pool.queue.lookup addr with
  | none => .ok pool
  | some list =>
    let payable := pool.dropUnpayableQueued addr list
    let promoted := payable.1.promoteReady addr payable.2
    match promoted.1.capQueued addr promoted.2 with
    | .error crash => .error crash
    | .ok (pool, list) => .ok (if list.empty then pool.deleteQueue addr else pool)

def stats : Nat × Nat :=
  ((pool.pending.entries.map fun entry => entry.2.len).sum,
    (pool.queue.entries.map fun entry => entry.2.len).sum)

def trimAccount (counted : TxPool lib × Nat) (addr : Address) : Except Crash (TxPool lib × Nat) :=
  match counted.1.pending.lookup addr with
  | none => .error .nilDereference
  | some list =>
    match list.cap ((list.len : Int) - 1) with
    | .error crash => .error crash
    | .ok (drops, capped) =>
      .ok (drops.foldl (fun pool tx => (pool.dropTx tx.hash).lowerVirtualNonce addr tx.nonce)
        (counted.1.setPending addr capped), prev64 counted.2)

/-- Trim the targets in rounds, while the pool is over the limit and the
reference account over its threshold. -/
def trimWhile (limit : Nat) (targets : List Address) (reference : Address)
    (threshold : Nat) : Nat → TxPool lib × Nat → Except Crash (TxPool lib × Nat)
  | 0, _ => .error .endlessLoop
  | fuel + 1, counted =>
    if counted.2 ≤ limit then .ok counted
    else
      match counted.1.pending.lookup reference with
      | none => .error .nilDereference
      | some list =>
        if list.len ≤ threshold then .ok counted
        else
          match run trimAccount counted targets with
          | .error crash => .error crash
          | .ok counted => trimWhile limit targets reference threshold fuel counted

/-- Take the spammers in turn and equalize the earlier offenders with the new
one; the result has the offenders, latest first. -/
def equalize (limit : Nat) :
    List Address → List Address → TxPool lib × Nat →
      Except Crash ((TxPool lib × Nat) × List Address)
  | [], offenders, counted => .ok (counted, offenders)
  | spammer :: spammers, offenders, counted =>
    if counted.2 ≤ limit then .ok (counted, offenders)
    else
      match offenders with
      | [] => equalize limit spammers [spammer] counted
      | latest :: _ =>
        match counted.1.pending.lookup spammer with
        | none => .error .nilDereference
        | some list =>
          match trimWhile limit offenders.reverse latest list.len loopFuel counted with
          | .error crash => .error crash
          | .ok counted => equalize limit spammers (spammer :: offenders) counted

/-- The accounts with more than their slots, those with the most transactions
first; the priorities are floats. -/
def spammers : List Address :=
  let large := (shuffle (pool.choices 0) pool.pending.entries).filter fun entry =>
    entry.1 ∉ pool.locals ∧ pool.config.accountSlots < entry.2.len
  (large.insertionSort fun left right => float32 right.2.len ≤ float32 left.2.len).map Sigma.fst

def truncatePending : Except Crash (TxPool lib) :=
  let limit := pool.config.globalSlots
  let pending := pool.stats.1 % uint64Size
  if pending ≤ limit then .ok pool
  else
    match equalize limit pool.spammers [] (pool.draw 1, pending) with
    | .error crash => .error crash
    | .ok (counted, []) => .ok counted.1
    | .ok (counted, latest :: prior) =>
      (trimWhile limit (latest :: prior).reverse latest pool.config.accountSlots
        loopFuel counted).map Prod.fst

def dropQueued : List Address → Nat → TxPool lib → Except Crash (TxPool lib)
  | [], _, pool => .ok pool
  | addr :: addrs, drop, pool =>
    if drop = 0 then .ok pool
    else
      match pool.queue.lookup addr with
      | none => .error .nilDereference
      | some list =>
        let pool := pool.setQueue addr list.flatten.2
        if list.len ≤ drop then dropQueued addrs (drop - list.len) (pool.removeAll list.flatten.1)
        -- only the last few; nothing is left to drop then
        else .ok (pool.removeAll (list.flatten.1.reverse.take drop))

/-- The queued remote accounts by heartbeat, latest first, as the source takes them from the end of
its sorted slice. -/
def byHeartbeat : List Address :=
  let remote := (shuffle (pool.choices 0) pool.queue.keys).filter (· ∉ pool.locals)
  (remote.insertionSort fun left right =>
    (pool.beats.lookup left).getD 0 ≤ (pool.beats.lookup right).getD 0).reverse

def truncateQueue : Except Crash (TxPool lib) :=
  let queued := pool.stats.2 % uint64Size
  if queued ≤ pool.config.globalQueue then .ok pool
  else dropQueued pool.byHeartbeat (queued - pool.config.globalQueue) (pool.draw 1)

/-- Promote the executable transactions of the accounts, of all queued ones if
none are given, and enforce the limits. -/
def promoteExecutables (accounts : Option (List Address)) : Except Crash (TxPool lib) :=
  let promoted :=
    match accounts with
    | some accounts => run promoteAccount pool accounts
    | none => run promoteAccount (pool.draw 1) (shuffle (pool.choices 0) pool.queue.keys)
  match promoted with
  | .error crash => .error crash
  | .ok pool =>
    match pool.truncatePending with
    | .error crash => .error crash
    | .ok pool => pool.truncateQueue

variable (env : PoolEnv)

variable (view : PoolView lib)

def addTx (pool : TxPool lib) (tx : Transaction) (isLocal : Bool) : Except Crash (TxPool lib) :=
  match tx.sender with
  | none => .ok pool
  | some sender =>
    if tx.shardingFlag ≠ 0 then .ok (pool.manageDirectCall sender tx)
    else
      match pool.add env view tx isLocal with
      | (pool, .ok false) => pool.promoteExecutables (some [sender])
      | (pool, _) => .ok pool

def addStep (isLocal : Bool) (state : TxPool lib × List Address) (tx : Transaction) :
    TxPool lib × List Address :=
  if tx.shardingFlag ≠ 0 then (state.1.manageDirectCall tx.owner tx, state.2)
  else
    match state.1.add env view tx isLocal with
    | (pool, .ok false) => (pool, state.2.insert tx.owner)
    | (pool, _) => (pool, state.2)

def addTxsLocked (pool : TxPool lib) (txs : List Transaction) (isLocal : Bool) :
    Except Crash (TxPool lib) :=
  let added := txs.foldl (addStep env view isLocal) (pool, [])
  if added.2 = [] then .ok added.1
  else (added.1.draw 1).promoteExecutables (some (shuffle (added.1.choices 0) added.2))

/-- Drop the pending transactions that are too old or too costly and put what followed them back
into the queue. -/
def dropUnpayablePending (list : TxList true) : TxPool lib × TxList true :=
  let forwarded := list.forward (pool.stateNonce addr)
  let pool := (pool.setPending addr forwarded.2).dropAll forwarded.1
  let filtered := forwarded.2.filter pool.choices (pool.balance addr) pool.currentMaxGas
  ((((pool.draw 4).setPending addr filtered.2.2).dropAll filtered.1).enqueueAll
    filtered.2.1, filtered.2.2)

def postponeGap (list : TxList true) : Except Crash (TxPool lib × TxList true) :=
  if 0 < list.len ∧ list.get (pool.stateNonce addr) = none then
    match list.cap 0 with
    | .error crash => .error crash
    | .ok (drops, capped) => .ok ((pool.setPending addr capped).enqueueAll drops, capped)
  else .ok (pool, list)

def demoteAccount : Except Crash (TxPool lib) :=
  match pool.pending.lookup addr with
  | none => .ok pool
  | some list =>
    let payable := pool.dropUnpayablePending addr list
    match payable.1.postponeGap addr payable.2 with
    | .error crash => .error crash
    | .ok (pool, list) => .ok (if list.empty then pool.deletePending addr else pool)

def demoteUnexecutables : Except Crash (TxPool lib) :=
  run demoteAccount (pool.draw 1) (shuffle (pool.choices 0) pool.pending.keys)

/-- Walk back from a block down to a number and collect the transactions on the
way; `none` if a parent is missing. -/
def walkDown (view : PoolView lib) (num : Nat) :
    Nat → Block → List Transaction → Except Crash (Option (Block × List Transaction))
  | 0, _, _ => .error .endlessLoop
  | fuel + 1, block, txs =>
    if block.number ≤ num then .ok (some (block, txs))
    else
      match view.getBlock block.parentHash (prev64 block.number) with
      | none => .ok none
      | some parent => walkDown view num fuel parent (txs ++ block.transactions)

def walkTogether (view : PoolView lib) :
    Nat → Block → List Transaction → Block → List Transaction →
      Except Crash (Option (List Transaction × List Transaction))
  | 0, _, _, _, _ => .error .endlessLoop
  | fuel + 1, rem, discarded, add, included =>
    if rem.hash = add.hash then .ok (some (discarded, included))
    else
      match view.getBlock rem.parentHash (prev64 rem.number) with
      | none => .ok none
      | some remParent =>
        match view.getBlock add.parentHash (prev64 add.number) with
        | none => .ok none
        | some addParent =>
          walkTogether view fuel remParent (discarded ++ rem.transactions)
            addParent (included ++ add.transactions)

/-- The transactions of the old branch and those of the new branch; `none` if
one of the branches is unrooted. -/
def branchTransactions (oldHead newHead : Header) :
    Except Crash (Option (List Transaction × List Transaction)) :=
  match view.getBlock oldHead.hash oldHead.number,
    view.getBlock newHead.hash newHead.number with
  | some rem, some add =>
    match walkDown view add.number loopFuel rem [] with
    | .error crash => .error crash
    | .ok none => .ok none
    | .ok (some (rem, discarded)) =>
      match walkDown view rem.number loopFuel add [] with
      | .error crash => .error crash
      | .ok none => .ok none
      | .ok (some (add, included)) => walkTogether view loopFuel rem discarded add included
  | _, _ => .error .nilDereference

/-- The transactions that a reorganisation puts back into the pool; `none` if
the reset is given up. -/
def reinjected (oldHead newHead : Option Header) : Except Crash (Option (List Transaction)) :=
  match oldHead, newHead with
  | none, _ => .ok (some [])
  | some _, none => .error .nilDereference
  | some oldHead, some newHead =>
    if oldHead.hash = newHead.parentHash then .ok (some [])
    -- too deep, as happens during fast sync
    else if 64 < ((float64 oldHead.number : Int) - float64 newHead.number).natAbs then .ok (some [])
    else
      match branchTransactions view oldHead newHead with
      | .error crash => .error crash
      | .ok none => .ok none
      | .ok (some (discarded, included)) => .ok (some (env.types.txDifference discarded included))

def enterState (state : lib.StateDB) (maxGas : Int) : TxPool lib :=
  { pool with
    currentState := state
    pendingState := lib.manageState state
    currentMaxGas := maxGas }

def updateVirtualNonce : Except Crash (TxPool lib) :=
  match pool.pending.lookup addr with
  | none => .ok pool
  | some list =>
    match list.flatten.1.getLast? with
    | none => .error .indexOutOfRange
    | some last =>
      .ok ((pool.setPending addr list.flatten.2).setVirtualNonce addr (next64 last.nonce))

/-- The second half of `reset`: demote, update the virtual nonces, promote. -/
def settle : Except Crash (TxPool lib) :=
  match pool.demoteUnexecutables with
  | .error crash => .error crash
  | .ok pool =>
    match run updateVirtualNonce (pool.draw 1)
        (shuffle (pool.choices 0) pool.pending.keys) with
    | .error crash => .error crash
    | .ok pool => pool.promoteExecutables none

/-- What `reset` puts back and the state it enters; `none` if it returns
early. -/
def resetTarget (oldHead newHead : Option Header) :
    Except Crash (Option (List Transaction × lib.StateDB × Int)) :=
  match reinjected env view oldHead newHead with
  | .error crash => .error crash
  | .ok none => .ok none
  | .ok (some reinject) =>
    let head := newHead.getD view.currentBlock.header
    .ok ((view.stateAt head.root).map fun state => (reinject, state, head.gasLimit))

def reset (pool : TxPool lib) (oldHead newHead : Option Header) : Except Crash (TxPool lib) :=
  let pool := { pool with directCalls := ∅ }
  match resetTarget env view oldHead newHead with
  | .error crash => .error crash
  | .ok none => .ok pool
  | .ok (some (reinject, state, maxGas)) =>
    match (pool.enterState state maxGas).addTxsLocked env view reinject false with
    | .error crash => .error crash
    | .ok pool => pool.settle

/-- `SetGasPrice` up to the removal of the transactions it returns. -/
def reprice (price : Int) : List Transaction × TxPool lib :=
  let capped := pool.priced.cap pool.all price pool.locals
  (capped.1, { pool with gasPrice := price, priced := capped.2 })

def setGasPrice (price : Int) : TxPool lib :=
  (pool.reprice price).2.removeAll (pool.reprice price).1

def evictAccount : TxPool lib :=
  match pool.queue.lookup addr with
  | none => pool
  | some list =>
    if addr ∈ pool.locals then pool
    else
      let idle := elapsed (pool.clock 0) ((pool.beats.lookup addr).getD 0)
      let pool := { pool with clock := fun n => pool.clock (n + 1) }
      if pool.config.lifetime < idle then
        (pool.setQueue addr list.flatten.2).removeAll list.flatten.1
      else pool

def evict : TxPool lib :=
  (shuffle (pool.choices 0) pool.queue.keys).foldl evictAccount (pool.draw 1)

inductive Op where
  | addLocal (tx : Transaction)
  | addRemote (tx : Transaction)
  | addLocals (txs : List Transaction)
  | addRemotes (txs : List Transaction)
  | addSysCntCall (tx : Transaction)
  | setGasPrice (price : Int)
  | reset (oldHead newHead : Option Header)
  /-- The event loop sees a new head block; it still knows the last one. -/
  | chainHead (head block : Block)
  | evict

structure Input (lib : StateLib) where
  view : PoolView lib
  op : Op

def step (pool : TxPool lib) (input : Input lib) : Except Crash (TxPool lib) :=
  match input.op with
  | .addLocal tx => pool.addTx env input.view tx (!pool.config.noLocals)
  | .addRemote tx => pool.addTx env input.view tx false
  | .addLocals txs => pool.addTxsLocked env input.view txs (!pool.config.noLocals)
  | .addRemotes txs => pool.addTxsLocked env input.view txs false
  | .addSysCntCall tx => pool.addTx env input.view tx true
  | .setGasPrice price => .ok (pool.setGasPrice price)
  | .reset oldHead newHead => pool.reset env input.view oldHead newHead
  | .chainHead head block =>
    { pool with pangu := pool.pangu || env.isPangu block.number }.reset env input.view
      (some head.header) (some block.header)
  | .evict => .ok pool.evict

instance neZeroHundred : NeZero 100 := ⟨by decide⟩

def transfer (hash : Hash) (nonce : Fin 100) (price : Int) : Transaction where
  hash := hash
  sender := some 1
  nonce := nonce
  nonce_lt := nonce.isLt.trans (by decide)
  gasPrice := price
  gasLimit := 21000
  cost := 21000 * price
  toAddress := some 2

def genesisView : PoolView .plain where
  currentBlock := { header := { hash := 1, parentHash := 0 } }
  getBlock _ _ := none
  stateAt _ := none
  priority := none

def freshPool : TxPool .plain :=
  @newTxPool .plain { priceLimit := 1 } (fun _ => (0, 10 ^ 9)) (10 ^ 6) (fun _ => 0) fun _ => 0

end TxPool

end MoacVnode.Core
