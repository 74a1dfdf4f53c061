import MoacVnode.Core.TxSortedMap

/-!
# Transaction lists of an account

`txList` adds to the sorted map the caps that let `Filter` skip a list whose transactions are all
affordable.
-/

namespace MoacVnode.Core

open Lib List Option

/-- A transaction list; the caps bound the costs and gas limits of what it
holds. -/
structure TxList (strict : Bool) where
  txs : TxSortedMap
  costcap : Int
  gascap : Int
  bounded : ∀ nonce tx, txs.get nonce = some tx → tx.cost ≤ costcap ∧ tx.gasLimit ≤ gascap

def newTxList (strict : Bool) : TxList strict where
  txs := .empty
  costcap := 0
  gascap := 0
  bounded := fun nonce tx held => by
    change (∅ : AList fun _ : Nat => Transaction).lookup nonce = some tx at held
    rw [AList.lookup_empty] at held
    cases held

/-- The price that a replacement has to exceed: `old * (100 + bump) / 100`, with
the sum in `int64`. -/
def replacementPrice (old : Transaction) (priceBump : Nat) : Int :=
  old.gasPrice * Int.bmod (100 + priceBump) uint64Size / 100

namespace TxList

variable {strict : Bool} {list capped : TxList strict} {nonce : Nat} {tx : Transaction}
  {txs drops : List Transaction} {costLimit gasLimit : Int} {choice : Nat → Nat}

def get (list : TxList strict) (nonce : Nat) : Option Transaction := list.txs.get nonce

variable (list)

def overlaps (tx : Transaction) : Bool := (list.get tx.nonce).isSome

/-- A list with some of the transactions, under the same caps. -/
def shrink (txs : TxSortedMap) (removed : List Transaction)
    (removes : RawSortedMap.Removes list.get txs.get removed) : TxList strict where
  txs := txs
  costcap := list.costcap
  gascap := list.gascap
  bounded := fun nonce tx held => list.bounded nonce tx (removes.of_after held)

def overwrite (tx : Transaction) : TxList strict where
  txs := list.txs.put tx
  costcap := if list.costcap < tx.cost then tx.cost else list.costcap
  gascap := if list.gascap < tx.gasLimit then tx.gasLimit else list.gascap
  bounded := fun nonce other held => by
    change (list.txs.toRawSortedMap.put tx).get nonce = some other at held
    rw [RawSortedMap.WellFormed.get_put] at held
    split at held
    · cases held
      constructor <;> split <;> omega
    · have := list.bounded nonce other held
      constructor <;> split <;> omega

/-- Insert a transaction unless an older one under its nonce is better; also
return the one it replaced. -/
def add (tx : Transaction) (priceBump : Nat) : Bool × Option Transaction × TxList strict :=
  match list.get tx.nonce with
  | none => (true, none, list.overwrite tx)
  | some old =>
    if tx.gasPrice ≤ replacementPrice old priceBump then (false, none, list)
    else (true, some old, list.overwrite tx)

def forward (list : TxList strict) (threshold : Nat) : List Transaction × TxList strict :=
  let res := list.txs.forward threshold
  (res.1, list.shrink res.2 res.1 (list.txs.wellFormed.forward threshold).2.1)

def exceeds (costLimit gasLimit : Int) (tx : Transaction) : Bool :=
  costLimit < tx.cost || gasLimit < tx.gasLimit

def lowerNonce (lowest : Nat) (tx : Transaction) : Nat :=
  if tx.nonce < lowest then tx.nonce else lowest

/-- The lowest nonce of the transactions, `math.MaxUint64` if there are none. -/
def lowestNonce (txs : List Transaction) : Nat := txs.foldl lowerNonce (uint64Size - 1)

variable (choice)

/-- The list without the transactions that exceed the limits, which become the
new caps. -/
def affordable (costLimit gasLimit : Int) :
    TxList strict where
  txs := (list.txs.filter choice (exceeds costLimit gasLimit)).2
  costcap := costLimit
  gascap := gasLimit
  bounded := fun nonce tx held => by
    have within := (list.txs.wellFormed.filter choice
      (exceeds costLimit gasLimit)).2.2.2 nonce tx held
    simpa [exceeds] using within

def dropWhere (filter : Transaction → Bool) : List Transaction × TxList strict :=
  let res := list.txs.filter choice filter
  (res.1, list.shrink res.2 res.1 (list.txs.wellFormed.filter choice filter).2.1)

/-- Take out of a strict list what follows the lowest removed transaction. -/
def dropFollowers (removed : List Transaction) : List Transaction × TxList strict :=
  if strict ∧ removed ≠ [] then
    let lowest := lowestNonce removed
    list.dropWhere choice fun tx => lowest < tx.nonce
  else ([], list)

/-- Remove the transactions that exceed the limits and, from a strict list, what
follows the lowest of them. -/
def filter (list : TxList strict) (choice : Nat → Nat) (costLimit gasLimit : Int) :
    List Transaction × List Transaction × TxList strict :=
  if list.costcap ≤ costLimit ∧ list.gascap ≤ gasLimit then ([], [], list)
  else
    let removed := (list.txs.filter choice (exceeds costLimit gasLimit)).1
    let rest := list.affordable choice costLimit gasLimit
    (removed, rest.dropFollowers (fun n => choice (n + 2)) removed)

def cap (list : TxList strict) (threshold : Int) :
    Except Crash (List Transaction × TxList strict) :=
  match ret : list.txs.cap threshold with
  | .error crash => .error crash
  | .ok (drops, capped) =>
    .ok (drops, list.shrink capped drops (list.txs.wellFormed.cap (TxSortedMap.cap_eq_ok ret)).2.1)

def remove (list : TxList strict) (choice : Nat → Nat) (tx : Transaction) :
    Bool × List Transaction × TxList strict :=
  let res := list.txs.remove tx.nonce
  if res.1 = false then (false, [], list)
  else
    let rest := list.shrink res.2 (list.get tx.nonce).toList
      (list.txs.wellFormed.remove tx.nonce).2.1
    if strict then
      let followers := rest.dropWhere choice fun other => tx.nonce < other.nonce
      (true, followers.1, followers.2)
    else (true, [], rest)

def ready (list : TxList strict) (start : Nat) : List Transaction × TxList strict :=
  let res := list.txs.ready start
  (res.1, list.shrink res.2 res.1 (list.txs.wellFormed.ready start).2.1)

def len (list : TxList strict) : Nat := list.txs.len

def empty : Bool := list.len = 0

variable {list}

def flatten (list : TxList strict) : List Transaction × TxList strict :=
  (list.txs.flatten.1,
    list.shrink list.txs.flatten.2 [] (by
        have sameGet := list.txs.wellFormed.flatten.2.1
        change RawSortedMap.Removes _ list.txs.toRawSortedMap.flatten.2.get []
        rw [sameGet]
        exact .nothing _))

open RawSortedMap (Removes Sorts)

theorem keyed (held : list.get nonce = some tx) : tx.nonce = nonce :=
  list.txs.wellFormed.keyed nonce tx held

@[simp]
theorem get_new (nonce : Nat) : (newTxList strict).get nonce = none :=
  @AList.lookup_empty Nat (fun _ => Transaction) _ nonce

variable (list)

theorem forward_removes (threshold : Nat) :
    Removes list.get (list.forward threshold).2.get (list.forward threshold).1 :=
  (list.txs.wellFormed.forward threshold).2.1

theorem forward_atLeast {threshold nonce : Nat}
    (held : ((list.forward threshold).2.get nonce).isSome) : threshold ≤ nonce :=
  (list.txs.wellFormed.forward threshold).2.2.2 nonce held

section

variable (filter : Transaction → Bool)

include filter

theorem dropWhere_removes :
    Removes list.get (list.dropWhere choice filter).2.get (list.dropWhere choice filter).1 :=
  (list.txs.wellFormed.filter choice filter).2.1

theorem dropWhere_of_mem : ∀ tx ∈ (list.dropWhere choice filter).1, filter tx = true :=
  (list.txs.wellFormed.filter choice filter).2.2.1

theorem dropWhere_kept (held : (list.dropWhere choice filter).2.get nonce = some tx) :
    filter tx = false :=
  (list.txs.wellFormed.filter choice filter).2.2.2 nonce tx held

end

private theorem foldl_lowerNonce (txs : List Transaction) (start : Nat) :
    txs.foldl lowerNonce start ≤ start ∧
      (∀ tx ∈ txs, txs.foldl lowerNonce start ≤ tx.nonce) ∧
      (txs.foldl lowerNonce start = start ∨ ∃ tx ∈ txs, tx.nonce = txs.foldl lowerNonce start) := by
  induction txs generalizing start with
  | nil => exact ⟨Nat.le_refl _, forall_mem_nil _, .inl rfl⟩
  | cons tx txs ih =>
    obtain ⟨leStart, leRest, attained⟩ := ih (lowerNonce start tx)
    have lowered : lowerNonce start tx = tx.nonce ∧ tx.nonce ≤ start ∨
        lowerNonce start tx = start ∧ start ≤ tx.nonce := by
      unfold lowerNonce
      split <;> omega
    rw [foldl_cons]
    refine ⟨by omega, forall_mem_cons.mpr ⟨by omega, leRest⟩, ?_⟩
    rcases attained with atStart | ⟨other, mem, sameNonce⟩
    · rcases lowered with ⟨atTx, _⟩ | ⟨kept, _⟩
      · exact .inr ⟨tx, mem_cons_self, (atStart.trans atTx).symm⟩
      · exact .inl (atStart.trans kept)
    · exact .inr ⟨other, mem_cons_of_mem _ mem, sameNonce⟩

theorem lowestNonce_le : ∀ tx ∈ txs, lowestNonce txs ≤ tx.nonce :=
  (foldl_lowerNonce txs (uint64Size - 1)).2.1

theorem exists_lowestNonce (nonempty : txs ≠ []) : ∃ tx ∈ txs, tx.nonce = lowestNonce txs := by
  rcases (foldl_lowerNonce txs (uint64Size - 1)).2.2 with atStart | attained
  · obtain ⟨tx, mem⟩ := exists_mem_of_ne_nil txs nonempty
    refine ⟨tx, mem, Nat.le_antisymm ?_ (lowestNonce_le tx mem)⟩
    exact (Nat.le_sub_one_of_lt tx.nonce_lt).trans_eq atStart.symm
  · exact attained

structure Filtered (list : TxList strict) (costLimit gasLimit : Int)
    (res : List Transaction × List Transaction × TxList strict) : Prop where
  removes : Removes list.get res.2.2.get (res.1 ++ res.2.1)
  exceeding : ∀ tx ∈ res.1, exceeds costLimit gasLimit tx = true
  within : ∀ nonce tx, res.2.2.get nonce = some tx → exceeds costLimit gasLimit tx = false
  loose : strict = false → res.2.1 = []
  /-- A strict list keeps what is below every removed transaction... -/
  below : strict = true → ∀ nonce, (res.2.2.get nonce).isSome → ∀ tx ∈ res.1, nonce < tx.nonce
  /-- ... and gives up nothing else. -/
  follows : ∀ tx ∈ res.2.1, ∃ removed ∈ res.1, removed.nonce < tx.nonce

theorem not_exceeds :
    exceeds costLimit gasLimit tx = false ↔ tx.cost ≤ costLimit ∧ tx.gasLimit ≤ gasLimit := by
  simp [exceeds]

theorem filtered_dropFollowers {list rest : TxList strict} {removed : List Transaction}
    (removes : Removes list.get rest.get removed)
    (exceeding : ∀ tx ∈ removed, exceeds costLimit gasLimit tx = true)
    (within : ∀ nonce tx, rest.get nonce = some tx → exceeds costLimit gasLimit tx = false)
    (choice : Nat → Nat) :
    Filtered list costLimit gasLimit (removed, rest.dropFollowers choice removed) := by
  unfold dropFollowers
  split
  · rename_i strictly
    have dropped := rest.dropWhere_removes choice fun tx => lowestNonce removed < tx.nonce
    refine ⟨removes.append dropped, exceeding,
      fun nonce tx held => within nonce tx (dropped.of_after held), fun loose => ?_,
      fun _ nonce held tx mem => ?_, fun tx mem => ?_⟩
    · rw [strictly.1] at loose
      cases loose
    · obtain ⟨kept, got⟩ := isSome_iff_exists.mp held
      have notAbove := rest.dropWhere_kept _ _ got
      have lowest : lowestNonce removed ≤ tx.nonce := lowestNonce_le tx mem
      have atRemoved : nonce ≠ tx.nonce := by
        intro same
        rw [same, dropped.get_eq, removes.gone mem, ite_self] at held
        cases held
      rw [decide_eq_false_iff_not, keyed got] at notAbove
      omega
    · obtain ⟨lowest, lowestMember, atLowest⟩ := exists_lowestNonce strictly.2
      refine ⟨lowest, lowestMember, ?_⟩
      rw [atLowest]
      exact of_decide_eq_true (rest.dropWhere_of_mem _ _ tx mem)
  · rename_i notStrictly
    refine ⟨by rwa [append_nil], exceeding, within, fun _ => rfl,
      fun isStrict nonce held => ?_, forall_mem_nil _⟩
    have nothing : removed = [] := by
      by_contra nonempty
      exact notStrictly ⟨isStrict, nonempty⟩
    rw [nothing]
    exact forall_mem_nil _

theorem filter_spec (costLimit gasLimit : Int) :
    Filtered list costLimit gasLimit (list.filter choice costLimit gasLimit) := by
  unfold filter
  split
  · rename_i capsWithin
    -- the short cut: the caps bound everything that the list holds
    refine ⟨.nothing _, forall_mem_nil _, fun nonce tx held => ?_, fun _ => rfl,
      fun _ _ _ => forall_mem_nil _, forall_mem_nil _⟩
    have bounds := list.bounded nonce tx held
    exact not_exceeds.mpr ⟨bounds.1.trans capsWithin.1, bounds.2.trans capsWithin.2⟩
  · have removes : Removes list.get (list.affordable choice costLimit gasLimit).get _ :=
      (list.txs.wellFormed.filter choice (exceeds costLimit gasLimit)).2.1
    exact filtered_dropFollowers removes
      (list.txs.wellFormed.filter choice (exceeds costLimit gasLimit)).2.2.1
      (fun nonce tx held => not_exceeds.mpr
        ((list.affordable choice costLimit gasLimit).bounded nonce tx held))
      fun n => choice (n + 2)

variable {choice}

variable {list}

theorem exceeds_of_invalid (mem : tx ∈ (list.filter choice costLimit gasLimit).2.1) :
    exceeds costLimit gasLimit tx = false := by
  unfold filter dropFollowers at mem
  split at mem
  · cases mem
  · dsimp only at mem
    split at mem
    · have held := (dropWhere_removes _ _ _).held tx mem
      exact not_exceeds.mpr ((list.affordable choice costLimit gasLimit).bounded _ tx held)
    · cases mem

/-- `Filter` removes what exceeds the limits and, from a strict list, what follows it; the short cut
by the caps makes no difference, because they bound every list. -/
theorem filter_exact (list : TxList strict) (choice : Nat → Nat) (costLimit gasLimit : Int)
    (tx : Transaction) :
    (tx ∈ (list.filter choice costLimit gasLimit).1 ↔
        list.get tx.nonce = some tx ∧ (costLimit < tx.cost ∨ gasLimit < tx.gasLimit)) ∧
      (tx ∈ (list.filter choice costLimit gasLimit).2.1 ↔
        list.get tx.nonce = some tx ∧ ¬ (costLimit < tx.cost ∨ gasLimit < tx.gasLimit) ∧
          strict = true ∧ ∃ removed ∈ (list.filter choice costLimit gasLimit).1,
            removed.nonce < tx.nonce) ∧
      ((list.filter choice costLimit gasLimit).2.2.get tx.nonce = some tx ↔
        list.get tx.nonce = some tx ∧ tx ∉ (list.filter choice costLimit gasLimit).1 ∧
          tx ∉ (list.filter choice costLimit gasLimit).2.1) := by
  have filtered := list.filter_spec choice costLimit gasLimit
  have exceedsIff : exceeds costLimit gasLimit tx = true ↔
      costLimit < tx.cost ∨ gasLimit < tx.gasLimit := by
    simp [exceeds]
  have keptIff : (list.filter choice costLimit gasLimit).2.2.get tx.nonce = some tx ↔
      list.get tx.nonce = some tx ∧
        tx ∉ (list.filter choice costLimit gasLimit).1 ++
          (list.filter choice costLimit gasLimit).2.1 := by
    rw [filtered.removes.mem_iff]
    constructor
    · intro kept
      exact ⟨filtered.removes.of_after kept, fun gone => by cases gone.2.symm.trans kept⟩
    · intro ⟨held, notGone⟩
      obtain ⟨other, got⟩ := ne_none_iff_exists'.mp fun gone => notGone ⟨held, gone⟩
      rw [got, ← filtered.removes.of_after got, held]
  have removedIff : tx ∈ (list.filter choice costLimit gasLimit).1 ↔
      list.get tx.nonce = some tx ∧ exceeds costLimit gasLimit tx = true := by
    constructor
    · intro mem
      exact ⟨filtered.removes.held tx (mem_append_left _ mem), filtered.exceeding tx mem⟩
    · intro ⟨held, exceeding⟩
      by_contra notRemoved
      refine absurd (keptIff.mpr ⟨held, ?_⟩) fun kept => ?_
      · rw [mem_append, not_or]
        refine ⟨notRemoved, fun mem => ?_⟩
        cases exceeding.symm.trans (exceeds_of_invalid mem)
      · cases exceeding.symm.trans (filtered.within _ tx kept)
  refine ⟨by rw [removedIff, exceedsIff], ?_, by rw [keptIff, mem_append, not_or]⟩
  rw [← exceedsIff, Bool.not_eq_true]
  constructor
  · intro mem
    refine ⟨filtered.removes.held tx (mem_append_right _ mem), exceeds_of_invalid mem, ?_,
      filtered.follows tx mem⟩
    by_contra loose
    rw [filtered.loose (Bool.eq_false_iff.mpr loose)] at mem
    cases mem
  · intro ⟨held, within, isStrict, removed, mem, lower⟩
    by_contra notInvalid
    have notRemoved : tx ∉ (list.filter choice costLimit gasLimit).1 := fun exceeding => by
      cases within.symm.trans (filtered.exceeding tx exceeding)
    have kept := keptIff.mpr ⟨held, by simp [notRemoved, notInvalid]⟩
    have below := filtered.below isStrict tx.nonce (by rw [kept]; rfl) removed mem
    omega

theorem cap_spec {threshold : Int} (ret : list.cap threshold = .ok (drops, capped)) :
    Removes list.get capped.get drops ∧
      (∀ tx ∈ drops, ∀ nonce, (capped.get nonce).isSome → nonce < tx.nonce) ∧
      drops.length = list.len - threshold.toNat := by
  unfold cap at ret
  split at ret
  · cases ret
  · rename_i got
    cases ret
    exact (list.txs.wellFormed.cap (TxSortedMap.cap_eq_ok got)).2

structure Removed (list : TxList strict) (nonce : Nat)
    (invalids : List Transaction) (rest : TxList strict) : Prop where
  removes : Removes list.get rest.get ((list.get nonce).toList ++ invalids)
  loose : strict = false → invalids = []
  below : strict = true → ∀ other, (rest.get other).isSome → other < nonce
  follows : ∀ tx ∈ invalids, nonce < tx.nonce

theorem remove_missing (missing : list.get tx.nonce = none) :
    list.remove choice tx = (false, [], list) := by
  have notFound : (list.txs.remove tx.nonce).1 = false := by
    rw [← Bool.not_eq_true]
    intro got
    have held := (list.txs.wellFormed.remove tx.nonce).2.2.mp got
    change (list.get tx.nonce).isSome at held
    rw [missing] at held
    cases held
  exact if_pos notFound

theorem remove_found {list : TxList strict} {choice : Nat → Nat} {tx : Transaction}
    (got : (list.get tx.nonce).isSome) :
    (list.remove choice tx).1 = true ∧
      Removed list tx.nonce (list.remove choice tx).2.1 (list.remove choice tx).2.2 := by
  have isFound : (list.txs.remove tx.nonce).1 = true :=
    (list.txs.wellFormed.remove tx.nonce).2.2.mpr got
  have removes : Removes list.get (list.txs.remove tx.nonce).2.get (list.get tx.nonce).toList :=
    (list.txs.wellFormed.remove tx.nonce).2.1
  have gone : (list.txs.remove tx.nonce).2.get tx.nonce = none := by
    obtain ⟨held, heldEq⟩ := isSome_iff_exists.mp got
    have atHeld : (list.txs.remove tx.nonce).2.get held.nonce = none :=
      removes.gone (by rw [heldEq]; exact mem_singleton_self held)
    rwa [keyed heldEq] at atHeld
  unfold remove
  dsimp only
  rw [isFound, if_neg (by decide)]
  split
  · rename_i isStrict
    have dropped := (list.shrink (list.txs.remove tx.nonce).2
      (list.get tx.nonce).toList removes).dropWhere_removes choice
        fun other => tx.nonce < other.nonce
    refine ⟨rfl, removes.append dropped, fun loose => ?_, fun _ other held => ?_,
      fun follower mem => of_decide_eq_true (dropWhere_of_mem _ _ _ follower mem)⟩
    · rw [isStrict] at loose
      cases loose
    · obtain ⟨kept, keptEq⟩ := isSome_iff_exists.mp held
      have notAbove := dropWhere_kept _ _ _ keptEq
      rw [decide_eq_false_iff_not, keyed keptEq] at notAbove
      have notSame : other ≠ tx.nonce := by
        intro same
        have before := dropped.of_after keptEq
        rw [same] at before
        cases gone.symm.trans before
      omega
  · rename_i notStrict
    exact ⟨rfl, by rwa [append_nil], fun _ => rfl,
      fun isStrict => absurd isStrict notStrict, forall_mem_nil _⟩

theorem ready_spec (list : TxList strict) (start : Nat) :
    Removes list.get (list.ready start).2.get (list.ready start).1 ∧
      ∃ lowest, (list.ready start).1.map Transaction.nonce =
          List.range' lowest (list.ready start).1.length ∧
        ((list.ready start).1 ≠ [] → lowest ≤ start) :=
  (list.txs.wellFormed.ready start).2

theorem get_flatten (list : TxList strict) : list.flatten.2.get = list.get :=
  list.txs.wellFormed.flatten.2.1

theorem flatten_sorts (list : TxList strict) : Sorts list.flatten.1 list.get :=
  list.txs.wellFormed.flatten.2.2

theorem mem_flatten : tx ∈ list.flatten.1 ↔ list.get tx.nonce = some tx :=
  list.flatten_sorts.mem_iff tx

theorem le_of_getLast {last : Transaction} (isLast : list.flatten.1.getLast? = some last)
    (held : (list.get nonce).isSome) : nonce ≤ last.nonce := by
  obtain ⟨tx, heldTx⟩ := isSome_iff_exists.mp held
  have sameNonce := keyed heldTx
  rw [← sameNonce] at heldTx ⊢
  have mem := mem_flatten.mpr heldTx
  have sorted := list.flatten_sorts.sorted
  obtain ⟨initial, split⟩ := List.getLast?_eq_some_iff.mp isLast
  rw [split] at mem sorted
  rcases mem_append.mp mem with prior | atLast
  · exact Nat.le_of_lt ((pairwise_append.mp sorted).2.2 tx prior last mem_cons_self)
  · rw [mem_singleton.mp atLast]

theorem length_flatten (list : TxList strict) : list.flatten.1.length = list.len := by
  rw [(list.txs.wellFormed.perm_of_sorts list.flatten_sorts).length_eq, length_map]
  rfl

theorem get_of_empty (isEmpty : list.empty = true) (nonce : Nat) : list.get nonce = none := by
  have noEntries : list.txs.items.entries = [] :=
    eq_nil_of_length_eq_zero (of_decide_eq_true isEmpty)
  rw [← not_isSome_iff_eq_none]
  change ¬ (list.txs.items.lookup nonce).isSome
  rw [AList.lookup_isSome, AList.mem_keys, AList.keys, noEntries]
  exact not_mem_nil

theorem cap_zero (ret : list.cap 0 = .ok (drops, capped)) (nonce : Nat) :
    capped.get nonce = none := by
  obtain ⟨removes, -, count⟩ := cap_spec ret
  have subset : drops ⊆ list.flatten.1 := fun tx mem => mem_flatten.mpr (removes.held tx mem)
  have perm : drops.Perm list.flatten.1 := by
    refine (subperm_of_subset removes.nodup subset).perm_of_length_le ?_
    rw [length_flatten, count]
    exact Nat.le_refl _
  rw [← not_isSome_iff_eq_none]
  intro held
  obtain ⟨tx, got⟩ := isSome_iff_exists.mp held
  have before := removes.of_after got
  have sameNonce := keyed before
  rw [← sameNonce] at before got
  have mem := perm.mem_iff.mpr (mem_flatten.mpr before)
  cases (removes.gone mem).symm.trans got

end TxList

end MoacVnode.Core
