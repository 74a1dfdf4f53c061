import MoacVnode.Mc.HeaderQueries

/-!
# Header queries of light clients

The light server answers the same queries as a full node, by a copy of its loop.
-/

namespace MoacVnode.Les

open MoacVnode.Core Lib Mc Nat ServedChain

def maxHeaderFetch : Nat := 192

/-- A query that is not rejected for its amount. -/
structure AcceptedQuery extends GetBlockHeadersData where
  amount_le : amount ≤ maxHeaderFetch := by decide

def forwardByHash (db : ChainDb) (query : GetBlockHeadersData) (origin : HashOrNumber)
    (header : Header) : Except Crash Advance :=
  descendant db query origin ((header.number + query.skip + 1) % uint64Size)

/-- The limits of a reply, for the headers gathered so far. -/
def moreHeaders (query : GetBlockHeadersData) (gathered : Nat) : Bool :=
  (gathered : Int) < int64 query.amount ∧ gathered * estHeaderRlpSize < softResponseLimit

/-- The answer of `handleMsg` to a `GetBlockHeadersMsg` that is not rejected. -/
def serveHeaders (db : ChainDb) (query : AcceptedQuery) : Except Crash Served :=
  gather db (query.origin.hash ≠ emptyHash) (moreHeaders query.toGetBlockHeadersData)
    (advance db query.toGetBlockHeadersData (forwardByHash db query.toGetBlockHeadersData))
    maxHeaderFetch query.origin {}

theorem moreHeaders_eq (query : AcceptedQuery) :
    moreHeaders query.toGetBlockHeadersData = Mc.moreHeaders query.toGetBlockHeadersData := by
  have accepted := query.amount_le
  funext gathered
  have implied : (gathered : Int) < int64 query.amount → gathered < Mc.maxHeaderFetch := by
    rw [int64, if_pos (by unfold maxHeaderFetch at accepted; omega)]
    unfold maxHeaderFetch at accepted
    unfold Mc.maxHeaderFetch
    omega
  simp only [moreHeaders, Mc.moreHeaders, decide_eq_decide]
  constructor
  · rintro ⟨first, second⟩
    exact ⟨first, second, implied first⟩
  · rintro ⟨first, second, _⟩
    exact ⟨first, second⟩

section

variable {db : ChainDb} {hashMode : Prop} [Decidable hashMode] {more : Nat → Bool}
  {step fullStep : HashOrNumber → Header → Except Crash Advance} {rounds : Nat}
  {origin : HashOrNumber} {served : Served}

theorem gather_same {kept : Nat → HashOrNumber → Prop} {small : Nat → Prop}
    (same : ∀ {idx origin header}, kept idx origin → more idx = true →
      retrieve db hashMode origin = some header → ∃ res,
        step origin header = .ok res ∧ fullStep origin header = .ok res ∧
          (∀ capacity ∈ res.capacities, small capacity) ∧
          ∀ next, res.next = some next → kept (idx + 1) next)
    (start : kept served.headers.length origin)
    (smallStart : ∀ capacity ∈ served.capacities, small capacity) :
    ∃ final full, gather db hashMode more step rounds origin served = .ok final ∧
      gather db hashMode more fullStep rounds origin served = .ok full ∧
      final.headers = full.headers ∧ ∀ capacity ∈ final.capacities, small capacity := by
  induction rounds generalizing origin served with
  | zero => exact ⟨served, served, rfl, rfl, rfl, smallStart⟩
  | succ rounds ih =>
    cases allowed : more served.headers.length with
    | false =>
      exact ⟨served, served, gather_of_full allowed, gather_of_full allowed, rfl, smallStart⟩
    | true =>
      cases got : retrieve db hashMode origin with
      | none =>
        exact ⟨served, served, gather_of_missing got, gather_of_missing got, rfl, smallStart⟩
      | some header =>
        obtain ⟨res, stepped, fullStepped, little, keptNext⟩ := same start allowed got
        have smaller := List.forall_mem_append.mpr ⟨smallStart, little⟩
        rw [gather_of_retrieved allowed got stepped, gather_of_retrieved allowed got fullStepped]
        cases next : res.next with
        | none => exact ⟨_, _, rfl, rfl, rfl, smaller⟩
        | some next' => exact ih (by simpa using keptNext next' next) smaller

end

variable {chain : ServedChain} {query : GetBlockHeadersData} {origin : HashOrNumber}
  {header : Header} {idx : Nat}

theorem advance_same {small : Nat → Prop} (db : ChainDb)
    (other : query.reverse = true ∨ origin.hash = emptyHash) (header : Header) :
    ∃ res, advance db query (forwardByHash db query) origin header = .ok res ∧
      advance db query (Mc.forwardByHash db query) origin header = .ok res ∧
      (∀ capacity ∈ res.capacities, small capacity) ∧
      ∀ next, res.next = some next → query.reverse = true ∨ next.hash = emptyHash := by
  by_cases byHash : origin.hash ≠ emptyHash
  · have back := other.resolve_right byHash
    simp only [advance, if_pos byHash, if_pos back]
    exact ⟨_, rfl, rfl, List.forall_mem_nil _, fun _ _ => .inl back⟩
  · have empty := not_not.mp byHash
    by_cases back : query.reverse = true
    · by_cases enough : next64 query.skip ≤ origin.number
      · simp only [advance, if_neg byHash, if_pos back, if_pos enough]
        exact ⟨_, rfl, rfl, List.forall_mem_nil _, fun _ _ => .inl back⟩
      · simp only [advance, if_neg byHash, if_pos back, if_neg enough]
        exact ⟨_, rfl, rfl, List.forall_mem_nil _, fun _ _ => .inl back⟩
    · simp only [advance, if_neg byHash, if_neg back]
      refine ⟨_, rfl, rfl, List.forall_mem_nil _, fun next isNext => .inr ?_⟩
      cases isNext
      exact empty

/-- The number of the next header wraps around to a header of the canonical chain. -/
def WrapsIntoChain (chain : ServedChain) (query : GetBlockHeadersData) (header : Header) : Prop :=
  uint64Size ≤ header.number + query.skip + 1 ∧
    header.number + query.skip + 1 - uint64Size ≤ chain.head.number

theorem mod_of_wraps (query : GetBlockHeadersData) (stored : Stored chain.db header)
    (wraps : uint64Size ≤ header.number + query.skip + 1) :
    (header.number + query.skip + 1) % uint64Size =
      header.number + query.skip + 1 - uint64Size := by
  have headerBound := number_bound stored
  have skipBound := query.skip_lt
  rw [mod_eq_sub_mod wraps, mod_eq_of_lt (by omega)]

theorem forwardByHash_of_not_wraps (byHash : query.origin.hash ≠ emptyHash)
    (forward : query.reverse = false) (ideal : Ideal chain query idx header)
    (hashed : header.hash = origin.hash) (straight : ¬ WrapsIntoChain chain query header) :
    ∃ res, forwardByHash chain.db query origin header = .ok res ∧
      Mc.forwardByHash chain.db query origin header = .ok res ∧
      (∀ capacity ∈ res.capacities, capacity ≤ chain.head.number + 1) ∧
      Leads chain query idx res := by
  by_cases bound : header.number + query.skip + 1 < uint64Size
  · obtain ⟨res, computed, small, leads⟩ := descendant_leads byHash forward ideal hashed
    refine ⟨res, ?_, ?_, small, leads⟩
    · rw [forwardByHash, mod_eq_of_lt bound]
      exact computed
    · simp only [Mc.forwardByHash, mod_eq_of_lt bound]
      rw [if_neg (by omega)]
      exact computed
  · have wrapped := mod_of_wraps query ideal.stored (by omega)
    have skipBound := query.skip_lt
    obtain ⟨res, computed, leads⟩ := forwardByHash_leads byHash forward ideal hashed
    have stops : Mc.forwardByHash chain.db query origin header = .ok { next := none } := by
      simp only [Mc.forwardByHash]
      rw [if_pos (by omega)]
    rw [stops] at computed
    cases computed
    refine ⟨{ next := none }, ?_, stops, by simp, leads⟩
    have missing : chain.db.getHeaderByNumber (header.number + query.skip + 1 - uint64Size) =
        none := by
      cases got : chain.db.getHeaderByNumber (header.number + query.skip + 1 - uint64Size) with
      | none => rfl
      | some below =>
        obtain ⟨path, numEq⟩ := getHeaderByNumber_eq_some.mp got
        refine absurd ⟨by omega, ?_⟩ straight
        rw [← numEq]
        exact number_le_head path
    rw [forwardByHash, wrapped, descendant, missing]

section

variable {more : Nat → Bool} {limit rounds : Nat}

theorem advance_of_hashForward (db : ChainDb)
    (forward : HashOrNumber → Header → Except Crash Advance)
    (notEmpty : origin.hash ≠ emptyHash) (towardsHead : query.reverse = false) :
    advance db query forward origin header = forward origin header := by
  rw [advance, if_pos notEmpty, if_neg (by simp [towardsHead])]

theorem gather_of_wraps (byHash : query.origin.hash ≠ emptyHash) (forward : query.reverse = false)
    (bounded : ∀ gathered, more gathered = true ↔ gathered < limit) (enough : limit ≤ rounds)
    (ideal : Ideal chain query idx header) (wraps : WrapsIntoChain chain query header)
    (before : idx < limit) :
    gather chain.db (query.origin.hash ≠ emptyHash) more
        (advance chain.db query (forwardByHash chain.db query)) rounds query.origin {} =
      .error .indexOutOfRange := by
  obtain ⟨rest, origin, served, last, located, lastIdeal, lastWraps, le, left, same⟩ :=
    gather_until {} (fun located current straight => by
      obtain ⟨hashed, notEmpty⟩ := located.hash_ne_empty byHash current
      obtain ⟨res, stepped, -, -, leads⟩ :=
        forwardByHash_of_not_wraps byHash forward current hashed straight
      exact ⟨res, (advance_of_hashForward chain.db _ notEmpty forward).trans stepped, leads⟩)
      bounded ideal wraps before (le_add_left_of_le enough) at_start (zero_le _)
  have notEmpty := (located.hash_ne_empty byHash lastIdeal).2
  obtain ⟨more, rfl⟩ := exists_eq_succ_of_ne_zero (show rest ≠ 0 by omega)
  rw [same]
  apply gather_of_crash ((bounded _).mpr (by omega)) ((located.finds last).mpr lastIdeal)
  rw [advance_of_hashForward chain.db _ notEmpty forward]
  have headerBound := number_bound lastIdeal.stored
  obtain ⟨below, path, numEq⟩ := exists_canonical lastWraps.2
  have belowStored := stored_of_canonical path
  have few := length_hashesBelow_le belowStored (next64 query.skip)
  have missing : (chain.db.hashesBelow (next64 query.skip) below)[query.skip]? = none := by
    rw [List.getElem?_eq_none_iff]
    omega
  rw [forwardByHash, mod_of_wraps query lastIdeal.stored lastWraps.1, descendant,
    getHeaderByNumber_eq_some.mpr ⟨path, numEq⟩]
  simp only [ChainDb.getBlockHashesFromHash,
    getHeaderByHash_eq_some.mpr ⟨belowStored, rfl⟩, missing]

end

/-- No header of the answer makes the number of the next one wrap around into the chain. -/
def Straight (chain : ServedChain) (query : AcceptedQuery) : Prop :=
  query.origin.hash ≠ emptyHash → query.reverse = false →
    ∀ idx header, idx < query.amount →
      Ideal chain query.toGetBlockHeadersData idx header →
        ¬ WrapsIntoChain chain query.toGetBlockHeadersData header

/-- The light server answers without a crash, with small lists and as the full node does. -/
def ServedAlike (chain : ServedChain) (query : AcceptedQuery) : Prop :=
  ∃ served full, serveHeaders chain.db query = .ok served ∧
    Mc.serveHeaders chain.db query.toGetBlockHeadersData = .ok full ∧
    served.headers = full.headers ∧
    ∀ capacity ∈ served.capacities, capacity ≤ chain.head.number + 1

theorem replyLimit_eq (query : AcceptedQuery) :
    replyLimit query.toGetBlockHeadersData = query.amount := by
  have accepted := query.amount_le
  have soft : softLimitHeaders = 4195 := rfl
  unfold replyLimit
  unfold maxHeaderFetch at accepted
  unfold Mc.maxHeaderFetch
  omega

theorem moreHeaders_iff (query : AcceptedQuery) (gathered : Nat) :
    Mc.moreHeaders query.toGetBlockHeadersData gathered = true ↔ gathered < query.amount := by
  have accepted := query.amount_le
  rw [Mc.moreHeaders_iff (by unfold maxHeaderFetch at accepted; omega), replyLimit_eq]

/-- The light server serves a query safely, and as the full node does, exactly if in a traversal
towards the head by hash no number of a next header wraps around into the chain. -/
theorem light_query_safe_iff (chain : ServedChain) (query : AcceptedQuery) :
    ServedAlike chain query ↔ Straight chain query := by
  have sameRounds : maxHeaderFetch = Mc.maxHeaderFetch := rfl
  rw [ServedAlike, serveHeaders, moreHeaders_eq, sameRounds, Mc.serveHeaders]
  by_cases forward : query.origin.hash ≠ emptyHash ∧ query.reverse = false
  · constructor
    · rintro ⟨served, full, done, _⟩ _ _ idx header before ideal wraps
      rw [gather_of_wraps forward.1 forward.2 (moreHeaders_iff query)
        (sameRounds ▸ query.amount_le) ideal wraps before] at done
      cases done
    · intro straight
      refine gather_same (fun {idx origin header}
        (located : At chain query.toGetBlockHeadersData idx origin) allowed got => ?_)
        at_start (List.forall_mem_nil _)
      have ideal := (located.finds header).mp got
      obtain ⟨hashed, notEmpty⟩ := located.hash_ne_empty forward.1 ideal
      obtain ⟨res, stepped, fullStepped, little, leads⟩ :=
        forwardByHash_of_not_wraps forward.1 forward.2 ideal hashed
          (straight forward.1 forward.2 _ _ ((moreHeaders_iff query _).mp allowed) ideal)
      refine ⟨res, (advance_of_hashForward chain.db _ notEmpty forward.2).trans stepped,
        (advance_of_hashForward chain.db _ notEmpty forward.2).trans fullStepped, little, ?_⟩
      intro next isNext
      rwa [Leads, isNext] at leads
  · have other : query.reverse = true ∨ query.origin.hash = emptyHash := by
      by_cases back : query.reverse = true
      · exact .inl back
      · exact .inr (not_not.mp fun byHash => forward ⟨byHash, eq_false_of_ne_true back⟩)
    constructor
    · intro _ byHash towardsHead
      exact absurd ⟨byHash, towardsHead⟩ forward
    · intro _
      exact gather_same (fun kept _ _ => advance_same chain.db kept _) other (List.forall_mem_nil _)

/-- A step of `2 ^ 64` blocks from the genesis block crashes the server. -/
theorem light_query_crashes :
    serveHeaders loneChain.db { origin := { hash := 1 }, amount := 1, skip := 2 ^ 64 - 1 } =
      .error .indexOutOfRange := by
  rfl

end MoacVnode.Les
