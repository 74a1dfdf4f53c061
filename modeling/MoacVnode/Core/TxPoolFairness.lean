import MoacVnode.Core.TxPoolCapacity

/-!
# The limit on pending transactions

The loops of `promoteExecutables` cut the accounts with the most pending transactions in rounds.
-/

namespace MoacVnode.Core

open Lib RawSortedMap List AList Nat

/-! ## Cutting one list -/

theorem RawSortedMap.Sorts.unique {txs other : List Transaction} {held : Nat → Option Transaction}
    (sorts : Sorts txs held) (otherSorts : Sorts other held) : txs = other := by
  have perm : txs.Perm other :=
    (perm_ext_iff_of_nodup sorts.nodup otherSorts.nodup).mpr fun tx =>
      (sorts.mem_iff tx).trans (otherSorts.mem_iff tx).symm
  exact perm.eq_of_pairwise (fun low high _ _ lt gt => by omega) sorts.sorted otherSorts.sorted

theorem TxList.cap_last {strict : Bool} {list : TxList strict} (nonempty : 0 < list.len) :
    ∃ last capped, list.cap ((list.len : Int) - 1) = .ok ([last], capped) ∧
      list.flatten.1 = capped.flatten.1 ++ [last] := by
  obtain ⟨drops, capped, ret⟩ :
      ∃ drops capped, list.cap ((list.len : Int) - 1) = .ok (drops, capped) := by
    obtain ⟨drops, raw, rawReturned⟩ := @WellFormed.cap_returns list.txs.toRawSortedMap
      ((list.len : Int) - 1) (by omega)
    unfold cap
    split
    · rename_i failed
      unfold TxSortedMap.cap at failed
      split at failed
      · next rawFailed => cases rawFailed.symm.trans rawReturned
      · cases failed
    · exact ⟨_, _, rfl⟩
  obtain ⟨removes, above, count⟩ := cap_spec ret
  obtain ⟨last, rfl⟩ := length_eq_one_iff.mp (show drops.length = 1 by omega)
  refine ⟨last, capped, ret, ?_⟩
  have lastHeld := removes.held last mem_cons_self
  refine list.flatten_sorts.unique ⟨?_, fun tx => ?_⟩
  · refine pairwise_append.mpr ⟨capped.flatten_sorts.sorted, pairwise_singleton _ _, ?_⟩
    intro tx mem other otherLast
    rw [mem_singleton.mp otherLast]
    refine above last mem_cons_self tx.nonce ?_
    rw [mem_flatten.mp mem]
    rfl
  · have got := removes.get_eq tx.nonce
    simp only [map_singleton, mem_singleton] at got
    rw [mem_append, mem_singleton, mem_flatten, got]
    by_cases same : tx.nonce = last.nonce
    · rw [if_pos same, same, lastHeld]
      simp [eq_comm]
    · rw [if_neg same]
      refine ⟨fun either => either.resolve_right fun isLast => same (by rw [isLast]), .inl⟩

namespace TxPool

variable {lib : StateLib} {pool base after : TxPool lib} {addr : Address}
  {counted last : TxPool lib × Nat} {limit : Nat} {targets : List Address} {next : TxPool lib × Nat}

def pendingTxs (pool : TxPool lib) (addr : Address) : List Transaction :=
  ((pool.pending.lookup addr).map fun list => list.flatten.1).getD []

theorem pendingTxs_of_lookup {list : TxList true} (found : pool.pending.lookup addr = some list) :
    pool.pendingTxs addr = list.flatten.1 := by
  rw [pendingTxs, found]
  rfl

theorem exists_lookup (nonempty : 0 < (pool.pendingTxs addr).length) :
    ∃ list, pool.pending.lookup addr = some list ∧ pool.pendingTxs addr = list.flatten.1 := by
  cases found : pool.pending.lookup addr with
  | none =>
    rw [pendingTxs, found] at nonempty
    cases nonempty
  | some list => exact ⟨list, rfl, pendingTxs_of_lookup found⟩

theorem sum_len_insert {map : AList fun _ : Address => TxList true} {old list : TxList true}
    (found : map.lookup addr = some old) :
    ((map.insert addr list).entries.map fun entry => entry.2.len).sum + old.len =
      (map.entries.map fun entry => entry.2.len).sum + list.len := by
  have isKey : addr ∈ map.entries.keys := by
    rw [← AList.keys, ← AList.mem_keys, ← AList.lookup_isSome, found]
    rfl
  obtain ⟨val, left, right, notLeft, entries, erased⟩ := exists_of_kerase isKey
  have isOld : val = old := by
    have mem : (⟨addr, val⟩ : Sigma _) ∈ map.entries := by
      rw [entries]
      exact mem_append_right _ mem_cons_self
    exact Option.some.inj ((mem_lookup_iff.mpr mem).symm.trans found)
  rw [entries_insert, erased, entries, isOld]
  simp
  omega

structure Exact64 (counted : TxPool lib × Nat) : Prop where
  count : counted.2 = counted.1.stats.1
  fits : counted.2 < uint64Size

theorem trimAccount_spec (exact : Exact64 counted) (nonempty : counted.1.pendingTxs addr ≠ []) :
    ∃ next, trimAccount counted addr = .ok next ∧ Exact64 next ∧
      next.1.pendingTxs addr = (counted.1.pendingTxs addr).dropLast ∧
      ∀ other, other ≠ addr → next.1.pendingTxs other = counted.1.pendingTxs other := by
  obtain ⟨list, found, txsEq⟩ := exists_lookup (length_pos_iff.mpr nonempty)
  rw [txsEq] at nonempty ⊢
  have positive : 0 < list.len := by
    rw [← TxList.length_flatten]
    exact length_pos_iff.mpr nonempty
  obtain ⟨last, capped, ret, split⟩ := TxList.cap_last positive
  have shorter : list.len = capped.len + 1 := by
    rw [← TxList.length_flatten, split, length_append, TxList.length_flatten]
    rfl
  have samePending : ∀ (pool : TxPool lib) nonce,
      ((pool.dropTx last.hash).lowerVirtualNonce addr nonce).pending = pool.pending := by
    intro pool nonce
    unfold lowerVirtualNonce
    split <;> rfl
  have counts := @sum_len_insert addr counted.1.pending list capped found
  refine ⟨(((counted.1.setPending addr capped).dropTx last.hash).lowerVirtualNonce addr last.nonce,
    prev64 counted.2), ?_, ?_, ?_, ?_⟩
  · rw [trimAccount, found]
    dsimp only
    rw [ret]
    rfl
  · have total : ((counted.1.setPending addr capped).pending.entries.map
        fun entry => entry.2.len).sum + 1 = counted.1.stats.1 := by
      show ((counted.1.pending.insert addr capped).entries.map _).sum + 1 =
        (counted.1.pending.entries.map _).sum
      omega
    have fits := exact.fits
    rw [exact.count, ← total] at fits
    constructor
    · dsimp only [stats]
      rw [samePending, exact.count, ← total, prev64_succ fits]
    · rw [exact.count, ← total, prev64_succ fits]
      omega
  · rw [pendingTxs, samePending]
    show (((counted.1.pending.insert addr capped).lookup addr).map _).getD [] = _
    rw [lookup_insert, split, dropLast_concat]
    rfl
  · intro other differs
    rw [pendingTxs, samePending]
    show (((counted.1.pending.insert addr capped).lookup other).map _).getD [] = _
    rw [lookup_insert_ne differs]
    rfl

/-! ## Rounds -/

/-- The targets lost this many of their last transactions, the others none. -/
structure Cut (targets : List Address) (rounds : Nat) (counted next : TxPool lib × Nat) :
    Prop where
  exact : Exact64 next
  cut : ∀ addr ∈ targets, next.1.pendingTxs addr =
    (counted.1.pendingTxs addr).take ((counted.1.pendingTxs addr).length - rounds)
  other : ∀ addr, addr ∉ targets → next.1.pendingTxs addr = counted.1.pendingTxs addr

theorem Cut.refl (exact : Exact64 counted) (targets : List Address) :
    Cut targets 0 counted counted :=
  ⟨exact, fun _ _ => take_length.symm, fun _ _ => rfl⟩

theorem Cut.trans {rounds more : Nat} (first : Cut targets rounds counted next)
    (second : Cut targets more next last) : Cut targets (rounds + more) counted last := by
  refine ⟨second.exact, fun addr mem => ?_, fun addr outside => ?_⟩
  · rw [second.cut addr mem, first.cut addr mem, take_take, length_take]
    congr 1
    omega
  · rw [second.other addr outside, first.other addr outside]

theorem Cut.length {rounds : Nat} (cut : Cut targets rounds counted last) (mem : addr ∈ targets) :
    (last.1.pendingTxs addr).length = (counted.1.pendingTxs addr).length - rounds := by
  rw [cut.cut addr mem, length_take]
  omega

theorem run_trimAccount (exact : Exact64 counted) (nodup : targets.Nodup)
    (nonempty : ∀ addr ∈ targets, counted.1.pendingTxs addr ≠ []) :
    ∃ next, run trimAccount counted targets = .ok next ∧ Cut targets 1 counted next := by
  induction targets generalizing counted with
  | nil => exact ⟨counted, rfl, exact, fun _ mem => (nomatch mem), fun _ _ => rfl⟩
  | cons addr targets ih =>
    obtain ⟨notLater, nodupRest⟩ := nodup_cons.mp nodup
    obtain ⟨mid, trimmed, middleExact, atAddr, elsewhere⟩ :=
      trimAccount_spec exact (nonempty addr mem_cons_self)
    have differs {other : Address} (mem : other ∈ targets) : other ≠ addr :=
      fun same => notLater (same ▸ mem)
    obtain ⟨next, ran, cut⟩ := ih middleExact nodupRest fun other mem => by
      rw [elsewhere other (differs mem)]
      exact nonempty other (mem_cons_of_mem _ mem)
    refine ⟨next, by rw [run, trimmed]; exact ran, cut.exact, ?_, ?_⟩
    · intro other mem
      rcases mem_cons.mp mem with rfl | later
      · rw [cut.other other notLater, atAddr, dropLast_eq_take]
      · rw [cut.cut other later, elsewhere other (differs later)]
    · intro other outside
      rw [mem_cons, not_or] at outside
      rw [cut.other other outside.2, elsewhere other outside.1]

theorem trimWhile_spec {reference : Address} {threshold fuel : Nat} (exact : Exact64 counted)
    (nodup : targets.Nodup) (isTarget : reference ∈ targets)
    (level : ∀ addr ∈ targets, (counted.1.pendingTxs addr).length =
      (counted.1.pendingTxs reference).length)
    (positive : 0 < threshold) (above : threshold ≤ (counted.1.pendingTxs reference).length)
    (enough : (counted.1.pendingTxs reference).length < fuel) :
    ∃ last rounds, trimWhile limit targets reference threshold fuel counted = .ok last ∧
      Cut targets rounds counted last ∧
      threshold + rounds ≤ (counted.1.pendingTxs reference).length ∧
      (last.2 ≤ limit ∨ threshold + rounds = (counted.1.pendingTxs reference).length) := by
  induction fuel generalizing counted with
  | zero => omega
  | succ fuel ih =>
    rw [trimWhile]
    by_cases within : counted.2 ≤ limit
    · exact ⟨counted, 0, if_pos within, .refl exact targets, above, .inl within⟩
    rw [if_neg within]
    obtain ⟨list, found, txsEq⟩ := exists_lookup (positive.trans_le above)
    rw [found]
    dsimp only
    rw [← TxList.length_flatten, ← txsEq]
    by_cases reached : (counted.1.pendingTxs reference).length ≤ threshold
    · exact ⟨counted, 0, if_pos reached, .refl exact targets, above, .inr (by omega)⟩
    rw [if_neg reached]
    obtain ⟨next, ran, cut⟩ := run_trimAccount exact nodup fun addr mem => by
      rw [← length_pos_iff, level addr mem]
      omega
    have shorter := cut.length isTarget
    obtain ⟨last, rounds, ret, cutRest, above, ended⟩ := ih cut.exact
      (fun addr mem => by rw [cut.length mem, shorter, level addr mem])
      (by omega) (by omega)
    rw [ran]
    exact ⟨last, 1 + rounds, ret, cut.trans cutRest, by omega, by omega⟩

/-! ## Offenders -/

def Penalised (base pool : TxPool lib) (addr : Address) : Prop :=
  (pool.pendingTxs addr).length < (base.pendingTxs addr).length

/-- The offenders are level while the counter is over the limit, and the spammers to come have no
more transactions. -/
structure Level (base : TxPool lib) (limit : Nat) (spammers offenders : List Address)
    (counted : TxPool lib × Nat) : Prop where
  exact : Exact64 counted
  nodup : (spammers ++ offenders).Nodup
  large : ∀ addr ∈ spammers ++ offenders, base.config.accountSlots < (base.pendingTxs addr).length
  order : spammers.Pairwise fun prior later =>
    (base.pendingTxs later).length ≤ (base.pendingTxs prior).length
  kept : ∀ addr, addr ∉ offenders → counted.1.pendingTxs addr = base.pendingTxs addr
  lowest : ∀ addr, counted.1.pendingTxs addr <+: base.pendingTxs addr
  floor : ∀ addr ∈ offenders, base.config.accountSlots < (counted.1.pendingTxs addr).length
  fair : ∀ addr other, Penalised base counted.1 addr → Penalised base counted.1 other →
    (counted.1.pendingTxs addr).length = (counted.1.pendingTxs other).length
  level : limit < counted.2 → ∀ addr ∈ offenders, ∀ other ∈ offenders,
    (counted.1.pendingTxs addr).length = (counted.1.pendingTxs other).length
  ahead : limit < counted.2 → ∀ addr ∈ offenders, ∀ spammer ∈ spammers,
    (base.pendingTxs spammer).length ≤ (counted.1.pendingTxs addr).length

namespace Level

variable {spammers offenders : List Address} {spammer latest : Address} {rounds : Nat}

theorem prefix_of_cut (level : Level base limit spammers offenders counted)
    (cut : Cut targets rounds counted last) (addr : Address) :
    last.1.pendingTxs addr <+: base.pendingTxs addr := by
  by_cases mem : addr ∈ targets
  · rw [cut.cut addr mem]
    exact ( take_prefix _ _).trans (level.lowest addr)
  · rw [cut.other addr mem]
    exact level.lowest addr

theorem fair_of_cut (level : Level base limit spammers offenders counted)
    (tooMany : limit < counted.2) (cut : Cut offenders.reverse rounds counted last)
    (addr other : Address) (penalised : Penalised base last.1 addr)
    (otherPenalised : Penalised base last.1 other) :
    (last.1.pendingTxs addr).length = (last.1.pendingTxs other).length := by
  have isOffender : ∀ {addr}, Penalised base last.1 addr → addr ∈ offenders := by
    intro addr penalised
    by_contra outside
    unfold Penalised at penalised
    rw [cut.other addr (by simpa using outside), level.kept addr outside] at penalised
    exact lt_irrefl _ penalised
  have mem := isOffender penalised
  have otherMember := isOffender otherPenalised
  rw [cut.length (by simpa using mem), cut.length (by simpa using otherMember),
    level.level tooMany addr mem other otherMember]

theorem join (level : Level base limit (spammer :: spammers) offenders counted)
    (tooMany : limit < counted.2) (cut : Cut offenders.reverse rounds counted last)
    (down : ∀ addr ∈ offenders, (base.pendingTxs spammer).length + rounds ≤
      (counted.1.pendingTxs addr).length)
    (ended : last.2 ≤ limit ∨ ∀ addr ∈ offenders, (base.pendingTxs spammer).length + rounds =
      (counted.1.pendingTxs addr).length) :
    Level base limit spammers (spammer :: offenders) last := by
  obtain ⟨notLater, nodupRest⟩ := nodup_cons.mp level.nodup
  have notOffender : spammer ∉ offenders := fun mem => notLater (mem_append_right _ mem)
  have large := level.large spammer mem_cons_self
  obtain ⟨first, orderRest⟩ := pairwise_cons.mp level.order
  have sizeAt {addr : Address} (mem : addr ∈ offenders) :=
    cut.length (show addr ∈ offenders.reverse by simpa using mem)
  have spammerKept : last.1.pendingTxs spammer = base.pendingTxs spammer := by
    rw [cut.other spammer (by simpa using notOffender), level.kept spammer notOffender]
  -- while the counter is over the limit, everybody has as many as the new one
  have reached (tooMany : limit < last.2) (addr : Address) (mem : addr ∈ spammer :: offenders) :
      (last.1.pendingTxs addr).length = (base.pendingTxs spammer).length := by
    rcases mem_cons.mp mem with rfl | prior
    · rw [spammerKept]
    · have exactly := ended.resolve_left (by omega) addr prior
      rw [sizeAt prior]
      omega
  refine
    { exact := cut.exact
      nodup := ?_
      large := ?_
      order := orderRest
      kept := ?_
      lowest := level.prefix_of_cut cut
      floor := ?_
      fair := level.fair_of_cut tooMany cut
      level := fun tooMany addr mem other otherMember => by
        rw [reached tooMany addr mem, reached tooMany other otherMember]
      ahead := fun tooMany addr mem later laterMember => by
        rw [reached tooMany addr mem]
        exact first later laterMember }
  · exact nodup_middle.mpr (nodup_cons.mpr ⟨notLater, nodupRest⟩)
  · intro addr mem
    refine level.large addr ?_
    simp only [mem_cons, mem_append] at mem ⊢
    tauto
  · intro addr outside
    rw [mem_cons, not_or] at outside
    rw [cut.other addr (by simpa using outside.2), level.kept addr outside.2]
  · intro addr mem
    rcases mem_cons.mp mem with rfl | prior
    · rw [spammerKept]
      exact large
    · have notBelow := down addr prior
      rw [sizeAt prior]
      omega

end Level

theorem length_pendingTxs_le (counted : TxPool lib × Nat) (addr : Address) :
    (counted.1.pendingTxs addr).length ≤ counted.1.stats.1 := by
  cases found : counted.1.pending.lookup addr with
  | none =>
    rw [pendingTxs, found]
    exact zero_le _
  | some list =>
    rw [pendingTxs_of_lookup found, TxList.length_flatten]
    exact le_sum_of_mem (mem_map_of_mem (mem_lookup_iff.mp found))

theorem equalize_spec {spammers offenders : List Address}
    (level : Level base limit spammers offenders counted) :
    ∃ last rest final, equalize limit spammers offenders counted = .ok (last, final) ∧
      Level base limit rest final last ∧ (limit < last.2 → rest = []) ∧
      (∀ addr, addr ∈ rest ++ final ↔ addr ∈ spammers ++ offenders) := by
  induction spammers generalizing offenders counted with
  | nil => exact ⟨counted, [], offenders, rfl, level, fun _ => rfl, fun _ => Iff.rfl⟩
  | cons spammer spammers ih =>
    rw [equalize.eq_def]
    dsimp only
    by_cases within : counted.2 ≤ limit
    · exact ⟨counted, spammer :: spammers, offenders, if_pos within, level,
        fun tooMany => by omega, fun _ => Iff.rfl⟩
    rw [if_neg within]
    have tooMany : limit < counted.2 := by omega
    have moved (addr : Address) : addr ∈ spammers ++ spammer :: offenders ↔
        addr ∈ (spammer :: spammers) ++ offenders := by
      simp only [mem_cons, mem_append]
      tauto
    have spammerKept : counted.1.pendingTxs spammer = base.pendingTxs spammer :=
      level.kept spammer fun mem => (nodup_cons.mp level.nodup).1 (mem_append_right _ mem)
    have large := level.large spammer mem_cons_self
    cases offenders with
    | nil =>
      have joined := level.join tooMany (.refl level.exact [])
        (forall_mem_nil _) (.inr (forall_mem_nil _))
      obtain ⟨last, rest, final, ret, res, ended, members⟩ := ih joined
      exact ⟨last, rest, final, ret, res, ended, fun addr => (members addr).trans (moved addr)⟩
    | cons latest prior =>
      obtain ⟨list, found, txsEq⟩ := @exists_lookup lib counted.1 spammer
        (by rw [spammerKept]; omega)
      rw [found]
      dsimp only
      rw [← TxList.length_flatten, ← txsEq, spammerKept]
      have sameAs (addr : Address) (mem : addr ∈ latest :: prior) :=
        level.level tooMany addr mem latest mem_cons_self
      have fits := level.exact.fits
      have total := length_pendingTxs_le counted latest
      rw [level.exact.count] at fits
      obtain ⟨next, rounds, ret, cut, above, ended⟩ :=
        @trimWhile_spec lib counted limit (latest :: prior).reverse latest
          (base.pendingTxs spammer).length loopFuel level.exact
          (nodup_reverse.mpr (nodup_append.mp level.nodup).2.1) (by simp)
          (fun addr mem => sameAs addr (mem_reverse.mp mem)) (by omega)
          (level.ahead tooMany latest mem_cons_self spammer mem_cons_self)
          (by unfold loopFuel; omega)
      rw [ret]
      have joined := level.join tooMany cut (fun addr mem => by rw [sameAs addr mem]; exact above)
        (ended.imp_right fun exactly addr mem => by rw [sameAs addr mem]; exact exactly)
      obtain ⟨last, rest, final, equalized, res, ended, members⟩ := ih joined
      exact ⟨last, rest, final, equalized, res, ended,
        fun addr => (members addr).trans (moved addr)⟩

/-! ## The limit -/

/-- The queue hands out the accounts by the number of their pending transactions. -/
def MaxQueue (pool : TxPool lib) : Prop :=
  pool.spammers.Pairwise fun prior later =>
    (pool.pendingTxs later).length ≤ (pool.pendingTxs prior).length

theorem mem_spammers : addr ∈ base.spammers ↔
    addr ∉ base.locals ∧ base.config.accountSlots < (base.pendingTxs addr).length := by
  unfold spammers
  simp only [mem_map, mem_insertionSort, mem_filter, mem_shuffle, decide_eq_true_eq]
  constructor
  · rintro ⟨⟨owner, list⟩, ⟨mem, remote, large⟩, rfl⟩
    rw [pendingTxs_of_lookup (mem_lookup_iff.mpr mem), TxList.length_flatten]
    exact ⟨remote, large⟩
  · rintro ⟨remote, large⟩
    obtain ⟨list, found, txsEq⟩ := exists_lookup (zero_lt_of_lt large)
    rw [txsEq, TxList.length_flatten] at large
    exact ⟨⟨addr, list⟩, ⟨mem_lookup_iff.mp found, remote, large⟩, rfl⟩

theorem nodup_spammers : base.spammers.Nodup := by
  have nodupKeys : (base.pending.entries.map Sigma.fst).Nodup := base.pending.nodupKeys
  refine List.Nodup.perm ?_ ((perm_insertionSort _ _).map Sigma.fst).symm
  refine List.Nodup.sublist (filter_sublist.map Sigma.fst) ?_
  exact ((shuffle_perm _ _).map Sigma.fst).nodup_iff.mpr nodupKeys

/-- What the limit does to the pending transactions. -/
structure FairlyTrimmed (base after : TxPool lib) : Prop where
  bounded : after.stats.1 ≤ base.config.globalSlots ∨
    ∀ addr, addr ∉ base.locals → (after.pendingTxs addr).length ≤ base.config.accountSlots
  floor : ∀ addr, min (base.pendingTxs addr).length base.config.accountSlots ≤
    (after.pendingTxs addr).length
  locals : ∀ addr ∈ base.locals, after.pendingTxs addr = base.pendingTxs addr
  /-- The transactions are in the order of their nonces. -/
  lowest : ∀ addr, after.pendingTxs addr <+: base.pendingTxs addr
  fair : ∀ addr other, Penalised base after addr → Penalised base after other →
    (after.pendingTxs addr).length = (after.pendingTxs other).length
  /-- After any cuts of the loops the counter has the number of pending transactions. -/
  counter : ∀ targets counted,
    run trimAccount (base.draw 1, base.stats.1 % uint64Size) targets = .ok counted →
      counted.2 = counted.1.stats.1

theorem trimAccount_nonempty (ret : trimAccount counted addr = .ok next) :
    counted.1.pendingTxs addr ≠ [] := by
  unfold trimAccount at ret
  cases found : counted.1.pending.lookup addr with
  | none =>
    rw [found] at ret
    cases ret
  | some list =>
    rw [found] at ret
    rw [pendingTxs_of_lookup found, ← length_pos_iff, TxList.length_flatten]
    by_contra empty
    have negative : list.txs.toRawSortedMap.cap ((list.len : Int) - 1) =
        .error .indexOutOfRange := by
      rw [RawSortedMap.cap, if_neg (by omega), if_pos (by omega)]
    cases capped : list.cap ((list.len : Int) - 1) with
    | error crash =>
      dsimp only at ret
      rw [capped] at ret
      cases ret
    | ok res =>
      unfold TxList.cap at capped
      split at capped
      · cases capped
      · next found => cases (TxSortedMap.cap_eq_ok found).symm.trans negative

theorem Level.start (fits : base.stats.1 < uint64Size) (maxQueue : base.MaxQueue) :
    Level base limit base.spammers [] (base.draw 1, base.stats.1) where
  exact := ⟨rfl, fits⟩
  nodup := by rw [append_nil]; exact nodup_spammers
  large := fun addr mem => by
    rw [append_nil] at mem
    exact (mem_spammers.mp mem).2
  order := maxQueue
  kept := fun _ _ => rfl
  lowest := fun _ => prefix_rfl
  floor := fun _ mem => (nomatch mem)
  fair := fun _ _ penalised => absurd penalised (lt_irrefl _)
  level := fun _ _ mem => (nomatch mem)
  ahead := fun _ _ mem => (nomatch mem)

theorem counter_exact (fits : base.stats.1 < uint64Size) (targets : List Address)
    (ran : run trimAccount (base.draw 1, base.stats.1 % uint64Size) targets = .ok counted) :
    counted.2 = counted.1.stats.1 := by
  rw [mod_eq_of_lt fits] at ran
  refine (run_keeps Exact64 ?_ ⟨rfl, fits⟩ ran).count
  intro counted addr next exact ret
  obtain ⟨res, trimmed, resultExact, -⟩ := trimAccount_spec exact (trimAccount_nonempty ret)
  cases trimmed.symm.trans ret
  exact resultExact

theorem Level.finish {rest final : List Address} {rounds : Nat} {trimmed : TxPool lib × Nat}
    (fits : base.stats.1 < uint64Size) (level : Level base base.config.globalSlots rest final last)
    (exhausted : base.config.globalSlots < last.2 → rest = [])
    (members : ∀ addr, addr ∈ rest ++ final ↔ addr ∈ base.spammers ++ [])
    (cut : Cut final.reverse rounds last trimmed)
    (tooMany : 0 < rounds → base.config.globalSlots < last.2)
    (down : ∀ addr ∈ final, base.config.accountSlots + rounds ≤ (last.1.pendingTxs addr).length)
    (ended : trimmed.2 ≤ base.config.globalSlots ∨ base.config.globalSlots < last.2 ∧
      ∀ addr ∈ final, base.config.accountSlots + rounds = (last.1.pendingTxs addr).length) :
    FairlyTrimmed base trimmed.1 := by
  have isSpammer {addr : Address} (mem : addr ∈ final) : addr ∈ base.spammers := by
    simpa using (members addr).mp (mem_append_right _ mem)
  have sizeAt {addr : Address} (mem : addr ∈ final) := cut.length (mem_reverse.mpr mem)
  have keptAt {addr : Address} (outside : addr ∉ final) :
      trimmed.1.pendingTxs addr = base.pendingTxs addr := by
    rw [cut.other addr (by simpa using outside), level.kept addr outside]
  refine ⟨?_, ?_, ?_, level.prefix_of_cut cut, ?_, fun targets _ => counter_exact fits targets⟩
  · refine ended.imp (fun within => by rwa [← cut.exact.count]) ?_
    intro ⟨isOver, exactly⟩ addr remote
    by_cases mem : addr ∈ final
    · have size := exactly addr mem
      rw [sizeAt mem]
      omega
    · have notSpammer : addr ∉ base.spammers := by
        have none := (members addr).not.mp (by simpa [exhausted isOver] using mem)
        simpa using none
      rw [mem_spammers, not_and] at notSpammer
      rw [keptAt mem]
      exact not_lt.mp (notSpammer remote)
  · intro addr
    by_cases mem : addr ∈ final
    · have notBelow := down addr mem
      rw [sizeAt mem]
      omega
    · rw [keptAt mem]
      exact min_le_left _ _
  · intro addr isLocal
    exact keptAt fun mem => (mem_spammers.mp (isSpammer mem)).1 isLocal
  · intro addr other penalised otherPenalised
    rcases Nat.eq_zero_or_pos rounds with none | some
    · have same (addr : Address) : trimmed.1.pendingTxs addr = last.1.pendingTxs addr := by
        by_cases mem : addr ∈ final
        · rw [cut.cut addr (mem_reverse.mpr mem), none]
          exact take_length
        · exact cut.other addr (by simpa using mem)
      unfold Penalised at penalised otherPenalised
      rw [same] at penalised otherPenalised ⊢
      rw [same]
      exact level.fair addr other penalised otherPenalised
    · exact level.fair_of_cut (tooMany some) cut addr other penalised otherPenalised

theorem truncatePending_spec (slots : 0 < base.config.accountSlots)
    (fits : base.stats.1 < uint64Size) (maxQueue : base.MaxQueue) :
    ∃ trimmed, base.truncatePending = .ok trimmed ∧ FairlyTrimmed base trimmed := by
  unfold truncatePending
  rw [mod_eq_of_lt fits]
  by_cases within : base.stats.1 ≤ base.config.globalSlots
  · exact ⟨base, if_pos within, .inl within, fun addr => min_le_left _ _, fun _ _ => rfl,
      fun _ => prefix_rfl, fun _ _ penalised => absurd penalised (lt_irrefl _),
      fun targets _ => counter_exact fits targets⟩
  rw [if_neg within]
  have start : Level base base.config.globalSlots _ [] _ := .start fits maxQueue
  obtain ⟨last, rest, final, equalized, level, exhausted, members⟩ := equalize_spec start
  have finish := fun {rounds} {trimmed : TxPool lib × Nat} =>
    @Level.finish lib base last rest final rounds trimmed fits level exhausted members
  rw [equalized]
  by_cases tooMany : base.config.globalSlots < last.2
  · cases final with
    | nil =>
      exact ⟨last.1, rfl, finish (.refl level.exact _) (fun _ => tooMany)
        (fun _ mem => (nomatch mem)) (.inr ⟨tooMany, fun _ mem => (nomatch mem)⟩)⟩
    | cons latest prior =>
      have sameAs (addr : Address) (mem : addr ∈ latest :: prior) :=
        level.level tooMany addr mem latest mem_cons_self
      have lastFits := level.exact.fits
      have total := length_pendingTxs_le last latest
      rw [level.exact.count] at lastFits
      obtain ⟨trimmed, rounds, ret, cut, above, ended⟩ :=
        @trimWhile_spec lib last base.config.globalSlots (latest :: prior).reverse latest
          base.config.accountSlots loopFuel level.exact
          (nodup_reverse.mpr (nodup_append.mp level.nodup).2.1) (by simp)
          (fun addr mem => sameAs addr (mem_reverse.mp mem)) slots
          (level.floor latest mem_cons_self).le (by unfold loopFuel; omega)
      refine ⟨trimmed.1, by dsimp only; rw [ret]; rfl, finish cut (fun _ => tooMany) ?_ ?_⟩
      · intro addr mem
        rw [sameAs addr mem]
        exact above
      · refine ended.imp_right fun exactly => ⟨tooMany, fun addr mem => ?_⟩
        rw [sameAs addr mem]
        exact exactly
  · have res := finish (.refl level.exact _) (fun positive => absurd positive (by omega))
      (fun addr mem => (level.floor addr mem).le) (.inl (by omega))
    cases final with
    | nil => exact ⟨last.1, rfl, res⟩
    | cons latest prior =>
      refine ⟨last.1, ?_, res⟩
      have stops : trimWhile base.config.globalSlots (latest :: prior).reverse latest
          base.config.accountSlots loopFuel last = .ok last := by
        rw [loopFuel, trimWhile, if_pos (by omega)]
      dsimp only
      rw [stops]
      rfl

/-! ## Promotion -/

/-- The first part of `promoteExecutables`. -/
def promoteQueued (pool : TxPool lib) (accounts : Option (List Address)) :
    Except Crash (TxPool lib) :=
  match accounts with
  | some accounts => run promoteAccount pool accounts
  | none => run promoteAccount (pool.draw 1) (shuffle (pool.choices 0) pool.queue.keys)

theorem pending_removeAll_of_notPending {txs : List Transaction}
    (notPending : ∀ tx ∈ txs, pool.NotPending tx.hash) :
    (pool.removeAll txs).pending = pool.pending := by
  induction txs generalizing pool with
  | nil => rfl
  | cons tx txs ih =>
    obtain ⟨first, others⟩ := forall_mem_cons.mp notPending
    refine (ih fun other mem => first.removeTx (others other mem)).trans ?_
    cases found : pool.all.lookup tx.hash with
    | none => rw [removeTx_of_missing found]
    | some removed =>
      rw [removeTx_of_free found (first removed found)]
      unfold removeQueued
      split
      · rfl
      · dsimp only
        split <;> rfl

theorem pending_truncateQueue (recorded : pool.Recorded)
    (ret : pool.truncateQueue = .ok after) : after.pending = pool.pending := by
  refine (@truncateQueue_keeps lib pool after
    (fun reached => reached.Recorded ∧ reached.pending = pool.pending) (fun _ => True) ?_
    (fun _ _ => trivial) ⟨recorded, rfl⟩ ⟨recorded, rfl⟩ ret).2
  rintro reached addr list txs - ⟨reachedRecorded, same⟩ found queued
  refine ⟨Placed.maintained.removeQueued reachedRecorded found queued, ?_⟩
  have notPending (tx : Transaction) (mem : tx ∈ txs) :=
    reachedRecorded.notPending_of_flattened trivial found (queued tx mem)
  exact (pending_removeAll_of_notPending notPending).trans same

theorem FairlyTrimmed.congr {trimmed : TxPool lib} (fairly : FairlyTrimmed base trimmed)
    (same : after.pending = trimmed.pending) : FairlyTrimmed base after := by
  have sameTxs : after.pendingTxs = trimmed.pendingTxs := by
    funext addr
    rw [pendingTxs, pendingTxs, same]
  have sameStats : after.stats.1 = trimmed.stats.1 := by rw [stats, stats, same]
  obtain ⟨bounded, floor, locals, lowest, fair, counter⟩ := fairly
  unfold Penalised at fair
  rw [← sameTxs] at bounded floor locals lowest fair
  rw [← sameStats] at bounded
  exact ⟨bounded, floor, locals, lowest, fair, counter⟩

/-- The limit on pending transactions is fair, if the queue of the accounts hands out the largest
first; the limit on queued ones leaves them, as long as the held transactions are the recorded ones.
-/
theorem pending_limit_fair {promoted : TxPool lib} {accounts : Option (List Address)}
    (promotes : pool.promoteQueued accounts = .ok promoted)
    (slots : 1 ≤ promoted.config.accountSlots) (fits : promoted.stats.1 < uint64Size)
    (maxQueue : promoted.MaxQueue) :
    ∃ trimmed, promoted.truncatePending = .ok trimmed ∧ FairlyTrimmed promoted trimmed ∧
      (pool.Recorded → ∀ after, pool.promoteExecutables accounts = .ok after →
        FairlyTrimmed promoted after) := by
  obtain ⟨trimmed, truncated, fairly⟩ := truncatePending_spec slots fits maxQueue
  refine ⟨trimmed, truncated, fairly, fun recorded after ret => ?_⟩
  have maintained : Maintained fun pool : TxPool lib => pool.Recorded := Placed.maintained
  have both : promoted.Recorded ∧ trimmed.truncateQueue = .ok after := by
    cases accounts with
    | some accounts =>
      have ran : run promoteAccount pool accounts = .ok promoted := promotes
      simp only [promoteExecutables, ran, truncated] at ret
      exact ⟨run_keeps Recorded maintained.promoteAccount recorded ran, ret⟩
    | none =>
      have ran : run promoteAccount (pool.draw 1) _ = .ok promoted := promotes
      simp only [promoteExecutables, ran, truncated] at ret
      exact ⟨run_keeps Recorded maintained.promoteAccount (maintained.draw 1 recorded) ran, ret⟩
  exact fairly.congr (pending_truncateQueue (maintained.truncatePending both.1 truncated) both.2)

theorem maxQueue_of_small (small : pool.stats.1 < 2 ^ 24) : pool.MaxQueue := by
  have exactly : ∀ entry ∈ pool.pending.entries, float32 entry.2.len = entry.2.len ∧
      (pool.pendingTxs entry.1).length = entry.2.len := by
    intro entry mem
    have size : (pool.pendingTxs entry.1).length = entry.2.len := by
      rw [pendingTxs_of_lookup (mem_lookup_iff.mpr mem), TxList.length_flatten]
    have le := length_pendingTxs_le (pool, 0) entry.1
    exact ⟨roundToBits_of_lt (by dsimp only at le; omega), size⟩
  unfold MaxQueue spammers
  rw [pairwise_map]
  refine List.Pairwise.imp_of_mem ?_ (pairwise_insertionSort _ _)
  intro prior later earlierMem laterMem order
  simp only [mem_insertionSort, mem_filter, mem_shuffle] at earlierMem laterMem
  obtain ⟨earlierFloat, earlierSize⟩ := exactly prior earlierMem.1
  obtain ⟨laterFloat, laterSize⟩ := exactly later laterMem.1
  rwa [earlierSize, laterSize, ← earlierFloat, ← laterFloat]

private def crowded : TxPool .plain :=
  ([transferOf 11 21 0 1, transferOf 11 22 1 1, transferOf 11 23 2 1, transferOf 12 24 0 1,
    transferOf 12 25 1 1].foldl (addStep .plain genesisView false)
    (@newTxPool .plain { priceLimit := 1, accountSlots := 1, globalSlots := 3 }
      (fun _ => (0, 10 ^ 9)) (10 ^ 6) (fun _ => 0) fun _ => 0, [])).1

/-- Account 11 loses one transaction to be level with account 12, and then both lose one. -/
theorem crowded_trimmed :
    ∃ promoted trimmed, crowded.promoteQueued (some [11, 12]) = .ok promoted ∧
      promoted.truncatePending = .ok trimmed ∧ FairlyTrimmed promoted trimmed ∧
      promoted.stats.1 = 5 := by
  obtain ⟨promoted, promotes, slots, total⟩ :
      ∃ promoted, crowded.promoteQueued (some [11, 12]) = .ok promoted ∧
        1 ≤ promoted.config.accountSlots ∧ promoted.stats.1 = 5 := by
    decide +kernel
  obtain ⟨trimmed, truncated, fairly, -⟩ := pending_limit_fair promotes slots
    (by rw [total]; decide) (maxQueue_of_small (by rw [total]; decide))
  exact ⟨promoted, trimmed, promotes, truncated, fairly, total⟩

end TxPool

end MoacVnode.Core
