import MoacVnode.Core.ChainQueries

/-!
# Header queries

A peer asks for headers from an origin, given by hash or by number, towards the genesis block or
towards the head, leaving out a number of blocks after each.
-/

namespace MoacVnode.Mc

open MoacVnode.Core Lib List Nat ServedChain

variable {more : Nat → Bool} {rounds limit skip : Nat}

/-- `HashOrNumber`: the number counts if the hash is empty. -/
structure HashOrNumber where
  hash : Hash := emptyHash
  number : Nat := 0
  deriving DecidableEq, Repr

/-- `GetBlockHeadersData`; its numbers are `uint64`. -/
structure GetBlockHeadersData where
  origin : HashOrNumber
  amount : Nat
  skip : Nat := 0
  reverse : Bool := false
  number_lt : origin.number < uint64Size := by decide
  amount_lt : amount < uint64Size := by decide
  skip_lt : skip < uint64Size := by decide

def softResponseLimit : Nat := 2 * 1024 * 1024

def estHeaderRlpSize : Nat := 500

def maxHeaderFetch : Nat := 192

def int64 (val : Nat) : Int := if val < 2 ^ 63 then val else val - 2 ^ 64

/-! ## The handler -/

/-- Where the next header is looked for, `none` if there is none; and the capacities of the
lists that were allocated. -/
structure Advance where
  next : Option HashOrNumber
  capacities : List Nat := []
  deriving DecidableEq, Repr

/-- The bound of the loop `for i := 0; i < int(query.Skip)+1; i++`. -/
def backwardSteps (skip : Nat) : Nat := (int64 (next64 skip)).toNat

/-- The loop of the hash based traversal towards the genesis block. -/
def walkBack (db : ChainDb) : Nat → Hash → Nat → Option Hash
  | 0, hash, _ => some hash
  | steps + 1, hash, number =>
    match db.getHeader hash number with
    | none => none
    | some header => walkBack db steps header.parentHash (prev64 number)

/-- The canonical header of a number, if the origin is its ancestor at the right distance. -/
def descendant (db : ChainDb) (query : GetBlockHeadersData) (origin : HashOrNumber)
    (next : Nat) : Except Crash Advance :=
  match db.getHeaderByNumber next with
  | none => .ok { next := none }
  | some header =>
    let list := db.getBlockHashesFromHash header.hash (next64 query.skip)
    match list.hashes[query.skip]? with
    | none => .error .indexOutOfRange
    | some hash =>
      .ok {
        next := if hash = origin.hash then some { origin with hash := header.hash } else none
        capacities := [list.capacity] }

/-- The hash based traversal towards the leaf block, with its check for an overflow. -/
def forwardByHash (db : ChainDb) (query : GetBlockHeadersData) (origin : HashOrNumber)
    (header : Header) : Except Crash Advance :=
  let current := header.number
  let next := (current + query.skip + 1) % uint64Size
  if next ≤ current then .ok { next := none } else descendant db query origin next

def advance (db : ChainDb) (query : GetBlockHeadersData)
    (forward : HashOrNumber → Header → Except Crash Advance)
    (origin : HashOrNumber) (header : Header) : Except Crash Advance :=
  if origin.hash ≠ emptyHash then
    if query.reverse then
      .ok {
        next := (walkBack db (backwardSteps query.skip) origin.hash header.number).map
          fun hash => { origin with hash := hash } }
    else forward origin header
  else if query.reverse then
    if next64 query.skip ≤ origin.number then
      .ok { next := some { origin with number := origin.number - next64 query.skip } }
    else .ok { next := none }
  else
    .ok {
      next := some { origin with number := (origin.number + next64 query.skip) % uint64Size } }

def retrieve (db : ChainDb) (hashMode : Prop) [Decidable hashMode] (origin : HashOrNumber) :
    Option Header :=
  if hashMode then db.getHeaderByHash origin.hash else db.getHeaderByNumber origin.number

/-- A reply, with the capacities of the lists that were allocated for it. -/
structure Served where
  headers : List Header := []
  capacities : List Nat := []
  deriving DecidableEq, Repr

/-- Gather headers while the limits allow one more. Every round adds a header, which bounds the
rounds. -/
def gather (db : ChainDb) (hashMode : Prop) [Decidable hashMode] (more : Nat → Bool)
    (step : HashOrNumber → Header → Except Crash Advance) :
    Nat → HashOrNumber → Served → Except Crash Served
  | 0, _, served => .ok served
  | rounds + 1, origin, served =>
    if more served.headers.length then
      match retrieve db hashMode origin with
      | none => .ok served
      | some header =>
        match step origin header with
        | .error crash => .error crash
        | .ok res =>
          let served :=
            { headers := served.headers ++ [header]
              capacities := served.capacities ++ res.capacities }
          match res.next with
          | none => .ok served
          | some next => gather db hashMode more step rounds next served
    else .ok served

/-- The limits of a reply of a full node, for the headers gathered so far. -/
def moreHeaders (query : GetBlockHeadersData) (gathered : Nat) : Bool :=
  (gathered : Int) < int64 query.amount ∧ gathered * estHeaderRlpSize < softResponseLimit ∧
    gathered < maxHeaderFetch

def serveHeaders (db : ChainDb) (query : GetBlockHeadersData) : Except Crash Served :=
  gather db (query.origin.hash ≠ emptyHash) (moreHeaders query)
    (advance db query (forwardByHash db query)) maxHeaderFetch query.origin {}

/-! ## The sequence that is asked for -/

section

variable (chain : ServedChain) (query : GetBlockHeadersData)

def distance (idx : Nat) : Nat := idx * (query.skip + 1)

theorem distance_succ (idx : Nat) :
    distance query (idx + 1) = distance query idx + (query.skip + 1) :=
  succ_mul _ _

/-- The headers of a sequence by number lie on the canonical chain, as its origin does. -/
def IdealByNumber (idx : Nat) (header : Header) : Prop :=
  query.origin.number ≤ chain.head.number ∧ chain.tree.Ancestor header chain.head ∧
    if query.reverse then header.number + distance query idx = query.origin.number
    else header.number = query.origin.number + distance query idx

/-- The headers of a sequence by hash are ancestors of the origin or, towards the head,
canonical descendants of it. -/
def IdealByHash (idx : Nat) (header : Header) : Prop :=
  ∃ origin, Stored chain.db origin ∧ origin.hash = query.origin.hash ∧
    if query.reverse then
      chain.tree.Ancestor header origin ∧ header.number + distance query idx = origin.number
    else
      (idx = 0 ∧ header = origin) ∨
        (0 < idx ∧ chain.tree.Ancestor header chain.head ∧
          chain.tree.Ancestor origin header ∧
          header.number = origin.number + distance query idx)

def Ideal (idx : Nat) (header : Header) : Prop :=
  if query.origin.hash ≠ emptyHash then IdealByHash chain query idx header
  else IdealByNumber chain query idx header

/-- The reply is the longest part of the sequence, from its start, within the limit. -/
structure Answers (limit : Nat) (reply : List Header) : Prop where
  length_le : reply.length ≤ limit
  ideal : ∀ idx header, reply[idx]? = some header → Ideal chain query idx header
  longest : reply.length < limit → ∀ header, ¬ Ideal chain query reply.length header

end

variable {chain : ServedChain} {query : GetBlockHeadersData} {origin : HashOrNumber}
  {header : Header} {idx : Nat}

theorem ideal_of_hash (byHash : query.origin.hash ≠ emptyHash) :
    Ideal chain query idx header ↔ IdealByHash chain query idx header := by
  rw [Ideal, if_pos byHash]

theorem ideal_of_number (byNumber : query.origin.hash = emptyHash) :
    Ideal chain query idx header ↔ IdealByNumber chain query idx header := by
  rw [Ideal, if_neg (not_not.mpr byNumber)]

theorem Ideal.stored (ideal : Ideal chain query idx header) : Stored chain.db header := by
  by_cases byHash : query.origin.hash ≠ emptyHash
  · obtain ⟨start, startStored, _, place⟩ := (ideal_of_hash byHash).mp ideal
    split at place
    · exact stored_of_ancestor place.1 startStored
    · rcases place with ⟨_, rfl⟩ | ⟨_, canonical, _⟩
      · exact startStored
      · exact stored_of_canonical canonical
  · exact stored_of_canonical ((ideal_of_number (not_not.mp byHash)).mp ideal).2.1

theorem origin_unique {start start' : Header} (stored : Stored chain.db start)
    (hashed : start.hash = query.origin.hash) (stored' : Stored chain.db start')
    (hashed' : start'.hash = query.origin.hash) : start' = start :=
  chain.tree.hash_injective (chain.storedMem stored') (chain.storedMem stored)
    (hashed'.trans hashed.symm)

-- the headers of a sequence are numbered from one start, and those of an index have one top
theorem exists_line (chain : ServedChain) (query : GetBlockHeadersData) :
    ∃ start, ∀ idx, ∃ top, ∀ header, Ideal chain query idx header →
      chain.tree.Ancestor header top ∧
        if query.reverse then header.number + distance query idx = start
        else header.number = start + distance query idx := by
  by_cases byHash : query.origin.hash ≠ emptyHash
  · by_cases known : ∃ origin, Stored chain.db origin ∧ origin.hash = query.origin.hash
    · obtain ⟨origin, stored, hashed⟩ := known
      refine ⟨origin.number, fun idx => ⟨if query.reverse = true ∨ idx = 0 then origin
        else chain.head, fun header ideal => ?_⟩⟩
      obtain ⟨start, startStored, startHash, place⟩ := (ideal_of_hash byHash).mp ideal
      rw [origin_unique stored hashed startStored startHash] at place
      by_cases back : query.reverse = true
      · rw [if_pos back] at place ⊢
        rwa [if_pos (.inl back)]
      · rw [if_neg back] at place ⊢
        rcases place with ⟨rfl, rfl⟩ | ⟨positive, path, _, numEq⟩
        · rw [if_pos (.inr rfl)]
          exact ⟨HashTree.ancestor_self header, by simp [distance]⟩
        · rw [if_neg (not_or.mpr ⟨back, by omega⟩)]
          exact ⟨path, numEq⟩
    · refine ⟨0, fun idx => ⟨chain.head, fun header ideal => ?_⟩⟩
      obtain ⟨origin, stored, hashed, _⟩ := (ideal_of_hash byHash).mp ideal
      exact absurd ⟨origin, stored, hashed⟩ known
  · exact ⟨query.origin.number, fun idx => ⟨chain.head, fun header ideal =>
      ((ideal_of_number (not_not.mp byHash)).mp ideal).2⟩⟩

theorem Ideal.index_eq {other : Nat} (ideal : Ideal chain query idx header)
    (otherIdeal : Ideal chain query other header) : idx = other := by
  obtain ⟨start, line⟩ := exists_line chain query
  obtain ⟨_, places⟩ := line idx
  obtain ⟨_, otherPlaces⟩ := line other
  have place := (places header ideal).2
  have otherPlace := (otherPlaces header otherIdeal).2
  have same : distance query idx = distance query other := by
    by_cases back : query.reverse = true
    · rw [if_pos back] at place otherPlace
      omega
    · rw [if_neg back] at place otherPlace
      omega
  exact eq_of_mul_eq_mul_right (succ_pos query.skip) same

theorem Ideal.unique {other : Header} (ideal : Ideal chain query idx header)
    (otherIdeal : Ideal chain query idx other) : header = other := by
  obtain ⟨start, line⟩ := exists_line chain query
  obtain ⟨top, places⟩ := line idx
  obtain ⟨path, place⟩ := places header ideal
  obtain ⟨otherPath, otherPlace⟩ := places other otherIdeal
  apply path.unique otherPath
  change header.number = other.number
  by_cases back : query.reverse = true
  · rw [if_pos back] at place otherPlace
    omega
  · rw [if_neg back] at place otherPlace
    omega

theorem Ideal.pred (ideal : Ideal chain query (idx + 1) header) :
    ∃ prior, Ideal chain query idx prior := by
  have further := distance_succ query idx
  by_cases byHash : query.origin.hash ≠ emptyHash
  · obtain ⟨start, startStored, startHash, place⟩ := (ideal_of_hash byHash).mp ideal
    split at place
    · rename_i back
      obtain ⟨prior, _, path, numEq⟩ :=
        chain.closed.exists_ancestor startStored (sub_le start.number (distance query idx))
      have numEq : prior.number = start.number - distance query idx := numEq
      refine ⟨prior, (ideal_of_hash byHash).mpr ⟨start, startStored, startHash, ?_⟩⟩
      rw [if_pos back]
      exact ⟨path, by omega⟩
    · rename_i forward
      rcases place with ⟨impossible, _⟩ | ⟨_, path, descends, numEq⟩
      · cases impossible
      · cases idx with
        | zero =>
          refine ⟨start, (ideal_of_hash byHash).mpr ⟨start, startStored, startHash, ?_⟩⟩
          rw [if_neg forward]
          exact .inl ⟨rfl, rfl⟩
        | succ idx =>
          have below : start.number + distance query (idx + 1) ≤ header.number := by omega
          obtain ⟨prior, _, earlierPath, earlierNumber⟩ :=
            chain.closed.exists_ancestor ideal.stored below
          have earlierNumber :
              prior.number = start.number + distance query (idx + 1) := earlierNumber
          refine ⟨prior, (ideal_of_hash byHash).mpr ⟨start, startStored, startHash, ?_⟩⟩
          rw [if_neg forward]
          refine .inr ⟨succ_pos _, earlierPath.trans path, ?_, earlierNumber⟩
          apply descends.ancestor_of_number_le earlierPath
          change start.number ≤ prior.number
          omega
  · have byNumber := not_not.mp byHash
    obtain ⟨known, path, place⟩ := (ideal_of_number byNumber).mp ideal
    have headBound := number_le_head path
    split at place
    · rename_i back
      obtain ⟨prior, earlierPath, earlierNumber⟩ :=
        exists_canonical
          (show query.origin.number - distance query idx ≤ chain.head.number by omega)
      refine ⟨prior, (ideal_of_number byNumber).mpr ⟨known, earlierPath, ?_⟩⟩
      rw [if_pos back]
      omega
    · rename_i forward
      obtain ⟨prior, earlierPath, earlierNumber⟩ :=
        exists_canonical
          (show query.origin.number + distance query idx ≤ chain.head.number by omega)
      refine ⟨prior, (ideal_of_number byNumber).mpr ⟨known, earlierPath, ?_⟩⟩
      rw [if_neg forward]
      exact earlierNumber

theorem Ideal.exists_of_le {later : Nat} (ideal : Ideal chain query later header)
    (le : idx ≤ later) : ∃ prior, Ideal chain query idx prior := by
  induction later generalizing header with
  | zero =>
    rw [le_zero.mp le]
    exact ⟨header, ideal⟩
  | succ later ih =>
    rcases le_or_eq_of_le_succ le with below | rfl
    · obtain ⟨prior, earlierIdeal⟩ := ideal.pred
      exact ih earlierIdeal below
    · exact ⟨header, ideal⟩

theorem Answers.nodup {reply : List Header} (answers : Answers chain query limit reply) :
    reply.Nodup := by
  rw [nodup_iff_getElem?_ne_getElem?]
  intro first second less bound same
  have got := List.getElem?_eq_getElem bound
  have firstIdeal := answers.ideal first _ (same.trans got)
  have secondIdeal := answers.ideal second _ got
  have := firstIdeal.index_eq secondIdeal
  omega

/-! ## What one round does -/

/-- The origin of a round is that of an index of the sequence. -/
structure At (chain : ServedChain) (query : GetBlockHeadersData) (idx : Nat)
    (origin : HashOrNumber) : Prop where
  finds : ∀ header,
    retrieve chain.db (query.origin.hash ≠ emptyHash) origin = some header ↔
      Ideal chain query idx header
  sameMode : query.origin.hash = emptyHash → origin.hash = emptyHash

theorem retrieve_of_hash (byHash : query.origin.hash ≠ emptyHash) :
    retrieve chain.db (query.origin.hash ≠ emptyHash) origin = some header ↔
      Stored chain.db header ∧ header.hash = origin.hash := by
  rw [retrieve, if_pos byHash, getHeaderByHash_eq_some]

theorem retrieve_of_number (byNumber : query.origin.hash = emptyHash) :
    retrieve chain.db (query.origin.hash ≠ emptyHash) origin = some header ↔
      chain.tree.Ancestor header chain.head ∧ header.number = origin.number := by
  rw [retrieve, if_neg (not_not.mpr byNumber), getHeaderByNumber_eq_some]

theorem at_start : At chain query 0 query.origin where
  finds header := by
    have start : distance query 0 = 0 := Nat.zero_mul _
    by_cases byHash : query.origin.hash ≠ emptyHash
    · rw [retrieve_of_hash byHash, ideal_of_hash byHash]
      constructor
      · rintro ⟨stored, hashed⟩
        refine ⟨header, stored, hashed, ?_⟩
        split
        · exact ⟨HashTree.ancestor_self header, by omega⟩
        · exact .inl ⟨rfl, rfl⟩
      · rintro ⟨origin, stored, hashed, place⟩
        split at place
        · have isOrigin : header = origin :=
            place.1.eq_of_number_le (by
              change origin.number ≤ header.number
              omega)
          rw [isOrigin]
          exact ⟨stored, hashed⟩
        · rcases place with ⟨_, rfl⟩ | ⟨impossible, _⟩
          · exact ⟨stored, hashed⟩
          · omega
    · have byNumber := not_not.mp byHash
      rw [retrieve_of_number byNumber, ideal_of_number byNumber, IdealByNumber, start,
        Nat.add_zero, Nat.add_zero, ite_self]
      constructor
      · rintro ⟨path, numEq⟩
        exact ⟨numEq ▸ number_le_head path, path, numEq⟩
      · rintro ⟨_, path, numEq⟩
        exact ⟨path, numEq⟩
  sameMode := id

/-- The step from a header of the sequence leaves the range of the machine integers. -/
def Overflows (query : GetBlockHeadersData) (header : Header) : Prop :=
  if query.origin.hash ≠ emptyHash then query.reverse = true ∧ 2 ^ 63 ≤ query.skip + 1
  else if query.reverse then uint64Size ≤ query.skip + 1
  else uint64Size ≤ header.number + query.skip + 1

/-- A round leads to the next header of the sequence: the walk ends if there is none. -/
def Leads (chain : ServedChain) (query : GetBlockHeadersData) (idx : Nat) (res : Advance) : Prop :=
  match res.next with
  | none => ∀ header, ¬ Ideal chain query (idx + 1) header
  | some next => At chain query (idx + 1) next

theorem backwardSteps_of_lt (bound : skip + 1 < 2 ^ 63) : backwardSteps skip = skip + 1 := by
  rw [backwardSteps, next64_of_lt (by unfold uint64Size; omega), int64, if_pos bound]
  rfl

theorem backwardSteps_of_le (bound : 2 ^ 63 ≤ skip + 1) (lt : skip < uint64Size) :
    backwardSteps skip = 0 := by
  unfold backwardSteps int64 next64 uint64Size at *
  split <;> omega

/-! ### Towards the genesis block by hash -/

theorem walkBack_spec (steps : Nat) (stored : Stored chain.db header) (got : Header) :
    (∃ hash, walkBack chain.db steps header.hash header.number = some hash ∧
        Stored chain.db got ∧ got.hash = hash) ↔
      chain.tree.Ancestor got header ∧ got.number + steps = header.number := by
  induction steps generalizing header with
  | zero =>
    constructor
    · rintro ⟨hash, walked, foundStored, hashed⟩
      cases walked
      rw [chain.tree.hash_injective (chain.storedMem foundStored) (chain.storedMem stored) hashed]
      exact ⟨HashTree.ancestor_self header, rfl⟩
    · rintro ⟨path, numEq⟩
      have same : got = header := path.eq_of_number_le (Nat.le_of_eq numEq.symm)
      rw [same]
      exact ⟨header.hash, rfl, stored, rfl⟩
  | succ steps ih =>
    have here : chain.db.getHeader header.hash header.number = some header := stored
    rw [walkBack, here]
    dsimp only
    by_cases positive : 0 < header.number
    · obtain ⟨parent, link⟩ := exists_parent stored positive
      have parentNumber := number_of_parent link
      have hasParent := stored_of_ancestor (HashTree.Ancestor.of_parent link) stored
      have parentHash : header.parentHash = parent.hash := link.2.2
      rw [parentHash, HeaderTree.prev64_of_parent link, ih hasParent]
      constructor
      · rintro ⟨path, numEq⟩
        exact ⟨path.trans (HashTree.Ancestor.of_parent link), by omega⟩
      · rintro ⟨path, numEq⟩
        rcases (HashTree.ancestor_iff_of_parent link).mp path with same | below
        · rw [same] at numEq
          omega
        · exact ⟨below, by omega⟩
    · -- below the genesis block there is nothing to be found
      have zero : header.number = 0 := by omega
      constructor
      · rintro ⟨hash, walked, foundStored, hashed⟩
        exfalso
        cases steps with
        | zero =>
          cases walked
          exact not_parent_of_number_zero zero
            ⟨chain.storedMem foundStored, chain.storedMem stored, hashed.symm⟩
        | succ steps =>
          rw [walkBack] at walked
          cases missing : chain.db.getHeader header.parentHash (prev64 header.number) with
          | none =>
            rw [missing] at walked
            cases walked
          | some parent =>
            exact not_parent_of_number_zero zero ((getHeader_parent_eq_some stored).mp missing)
      · rintro ⟨_, numEq⟩
        omega

theorem hashBack_leads (byHash : query.origin.hash ≠ emptyHash) (back : query.reverse = true)
    (ideal : Ideal chain query idx header) (hashed : header.hash = origin.hash)
    (bound : query.skip + 1 < 2 ^ 63) :
    Leads chain query idx
      { next := (walkBack chain.db (backwardSteps query.skip) origin.hash header.number).map
          fun hash => { origin with hash := hash } } := by
  have further := distance_succ query idx
  obtain ⟨start, startStored, startHash, place⟩ := (ideal_of_hash byHash).mp ideal
  rw [if_pos back] at place
  -- the ancestors at the next distance from the start are those below the header
  have ideal_iff : ∀ got, Ideal chain query (idx + 1) got ↔
      chain.tree.Ancestor got header ∧ got.number + (query.skip + 1) = header.number := by
    intro got
    rw [ideal_of_hash byHash]
    constructor
    · rintro ⟨start', startStored', startHash', place'⟩
      rw [if_pos back] at place'
      rw [origin_unique startStored startHash startStored' startHash'] at place'
      refine ⟨place'.1.ancestor_of_number_le place.1 ?_, by omega⟩
      change got.number ≤ header.number
      omega
    · rintro ⟨path, numEq⟩
      refine ⟨start, startStored, startHash, ?_⟩
      rw [if_pos back]
      exact ⟨path.trans place.1, by omega⟩
  have walked := walkBack_spec (query.skip + 1) ideal.stored
  rw [← hashed, backwardSteps_of_lt bound, Leads]
  cases res : walkBack chain.db (query.skip + 1) header.hash header.number with
  | none =>
    intro got foundIdeal
    obtain ⟨hash, impossible, _⟩ := (walked got).mpr ((ideal_iff got).mp foundIdeal)
    rw [res] at impossible
    cases impossible
  | some hash =>
    refine ⟨fun got => ?_, fun byNumber => absurd byNumber byHash⟩
    rw [retrieve_of_hash byHash, ideal_iff, ← walked, res]
    constructor
    · rintro ⟨stored, hashEq⟩
      exact ⟨hash, rfl, stored, hashEq⟩
    · rintro ⟨_, same, stored, hashEq⟩
      cases same
      exact ⟨stored, hashEq⟩

/-! ### Towards the head by hash -/

theorem descendant_of_canonical (query : GetBlockHeadersData) {next : Header}
    (stored : Stored chain.db header) (hashed : header.hash = origin.hash)
    (path : chain.tree.Ancestor next chain.head)
    (numEq : next.number = header.number + query.skip + 1) :
    ∃ got, descendant chain.db query origin next.number =
        .ok { next := got, capacities := [query.skip + 1] } ∧
      ((chain.tree.Ancestor header next ∧ got = some { origin with hash := next.hash }) ∨
        (¬ chain.tree.Ancestor header next ∧ got = none)) := by
  have nextStored := stored_of_canonical path
  have bound := number_bound nextStored
  obtain ⟨ancestor, ancestorStored, ancestorPath, ancestorNumber⟩ :=
    chain.closed.exists_ancestor nextStored (show header.number ≤ next.number by omega)
  have ancestorNumber : ancestor.number = header.number := ancestorNumber
  have listed := getElem_hashesBelow nextStored ancestorPath (lt_succ_self query.skip) (by omega)
  have byNumber := getHeaderByNumber_eq_some.mpr ⟨path, rfl⟩
  have byHash := getHeaderByHash_eq_some.mpr ⟨nextStored, rfl⟩
  rw [descendant, byNumber]
  simp only [ChainDb.getBlockHashesFromHash, byHash,
    next64_of_lt (show query.skip + 1 < uint64Size by omega), listed]
  refine ⟨_, rfl, ?_⟩
  by_cases same : ancestor.hash = origin.hash
  · have isHeader : ancestor = header :=
      chain.tree.hash_injective (chain.storedMem ancestorStored) (chain.storedMem stored)
        (same.trans hashed.symm)
    exact .inl ⟨isHeader ▸ ancestorPath, if_pos same⟩
  · refine .inr ⟨fun headerPath => same ?_, if_neg same⟩
    rw [ancestorPath.unique headerPath ancestorNumber, hashed]

section

variable (byHash : query.origin.hash ≠ emptyHash) (forward : query.reverse = false)
  (ideal : Ideal chain query idx header)

include byHash forward ideal

theorem ideal_hashForward_iff (next : Header) :
    Ideal chain query (idx + 1) next ↔
      chain.tree.Ancestor next chain.head ∧ chain.tree.Ancestor header next ∧
        next.number = header.number + query.skip + 1 := by
  have further := distance_succ query idx
  have notBack : ¬ query.reverse = true := by simp [forward]
  obtain ⟨start, startStored, startHash, place⟩ := (ideal_of_hash byHash).mp ideal
  rw [if_neg notBack] at place
  rw [ideal_of_hash byHash]
  constructor
  · rintro ⟨start', startStored', startHash', place'⟩
    rw [if_neg notBack] at place'
    rw [origin_unique startStored startHash startStored' startHash'] at place'
    rcases place' with ⟨impossible, _⟩ | ⟨_, path, descends, numEq⟩
    · cases impossible
    · rcases place with ⟨rfl, rfl⟩ | ⟨_, headerPath, _, headerNumber⟩
      · simp only [distance] at numEq
        exact ⟨path, descends, by omega⟩
      · -- both are canonical, and the header is below
        refine ⟨path, headerPath.ancestor_of_number_le path ?_, by omega⟩
        change header.number ≤ next.number
        omega
  · rintro ⟨path, descends, numEq⟩
    refine ⟨start, startStored, startHash, ?_⟩
    rw [if_neg notBack]
    rcases place with ⟨rfl, rfl⟩ | ⟨_, _, startDescends, headerNumber⟩
    · refine .inr ⟨succ_pos _, path, descends, ?_⟩
      simp only [distance]
      omega
    · exact .inr ⟨succ_pos _, path, startDescends.trans descends, by omega⟩

theorem descendant_leads (hashed : header.hash = origin.hash) :
    ∃ res, descendant chain.db query origin (header.number + query.skip + 1) = .ok res ∧
      (∀ capacity ∈ res.capacities, capacity ≤ chain.head.number + 1) ∧
      Leads chain query idx res := by
  have ideal_iff := ideal_hashForward_iff byHash forward ideal
  cases got : chain.db.getHeaderByNumber (header.number + query.skip + 1) with
  | none =>
    refine ⟨{ next := none }, by rw [descendant, got], by simp, ?_⟩
    intro next nextIdeal
    obtain ⟨path, _, numEq⟩ := (ideal_iff next).mp nextIdeal
    rw [getHeaderByNumber_eq_some.mpr ⟨path, numEq⟩] at got
    cases got
  | some next =>
    obtain ⟨path, numEq⟩ := getHeaderByNumber_eq_some.mp got
    have headBound := number_le_head path
    obtain ⟨answer, computed, outcome⟩ :=
      descendant_of_canonical query ideal.stored hashed path numEq
    rw [numEq] at computed
    refine ⟨_, computed, by simp only [mem_singleton, forall_eq]; omega, ?_⟩
    -- a header of the next index is the one that was found
    have only : ∀ other, Ideal chain query (idx + 1) other → other = next := by
      intro other otherIdeal
      obtain ⟨otherPath, _, otherNum⟩ := (ideal_iff other).mp otherIdeal
      exact otherPath.unique path (otherNum.trans numEq.symm)
    rcases outcome with ⟨descends, rfl⟩ | ⟨unrelated, rfl⟩
    · have nextIdeal := (ideal_iff next).mpr ⟨path, descends, numEq⟩
      refine ⟨fun other => ?_, fun byNumber => absurd byNumber byHash⟩
      rw [retrieve_of_hash byHash]
      constructor
      · rintro ⟨stored, hashEq⟩
        rw [chain.tree.hash_injective (chain.storedMem stored)
          (chain.storedMem nextIdeal.stored) hashEq]
        exact nextIdeal
      · intro otherIdeal
        rw [only other otherIdeal]
        exact ⟨nextIdeal.stored, rfl⟩
    · intro other otherIdeal
      have isNext := only other otherIdeal
      rw [isNext] at otherIdeal
      exact unrelated ((ideal_iff next).mp otherIdeal).2.1

theorem forwardByHash_leads (hashed : header.hash = origin.hash) :
    ∃ res, forwardByHash chain.db query origin header = .ok res ∧ Leads chain query idx res := by
  have headerBound := number_bound ideal.stored
  have skipBound := query.skip_lt
  rw [forwardByHash]
  by_cases bound : header.number + query.skip + 1 < uint64Size
  · obtain ⟨res, computed, _, leads⟩ := descendant_leads byHash forward ideal hashed
    refine ⟨res, ?_, leads⟩
    simp only [mod_eq_of_lt bound]
    rw [if_neg (by omega)]
    exact computed
  · refine ⟨{ next := none }, ?_, ?_⟩
    · have wrapped : (header.number + query.skip + 1) % uint64Size ≤ header.number := by
        rw [mod_eq_sub_mod (by omega), mod_eq_of_lt (by omega)]
        omega
      simp only [wrapped, if_true]
    · intro next nextIdeal
      obtain ⟨path, _, numEq⟩ := (ideal_hashForward_iff byHash forward ideal next).mp nextIdeal
      have nextBound := number_bound (stored_of_canonical path)
      omega

end

/-! ### By number -/

section

variable (byNumber : query.origin.hash = emptyHash) (ideal : Ideal chain query idx header)
  (empty : origin.hash = emptyHash) (numEq : header.number = origin.number)

include byNumber ideal empty numEq

theorem numberBack_leads (back : query.reverse = true) (bound : query.skip + 1 < uint64Size) :
    Leads chain query idx
      { next :=
          if next64 query.skip ≤ origin.number then
            some { origin with number := origin.number - next64 query.skip }
          else none } := by
  have further := distance_succ query idx
  obtain ⟨known, path, place⟩ := (ideal_of_number byNumber).mp ideal
  rw [if_pos back] at place
  rw [next64_of_lt bound, Leads]
  by_cases enough : query.skip + 1 ≤ origin.number
  · rw [if_pos enough]
    refine ⟨fun got => ?_, fun _ => empty⟩
    rw [retrieve_of_number byNumber, ideal_of_number byNumber, IdealByNumber, if_pos back]
    dsimp only
    constructor
    · rintro ⟨foundPath, foundNumber⟩
      exact ⟨known, foundPath, by omega⟩
    · rintro ⟨_, foundPath, foundPlace⟩
      exact ⟨foundPath, by omega⟩
  · rw [if_neg enough]
    intro got foundIdeal
    obtain ⟨_, _, foundPlace⟩ := (ideal_of_number byNumber).mp foundIdeal
    rw [if_pos back] at foundPlace
    omega

theorem numberForward_leads (forward : query.reverse = false)
    (bound : header.number + query.skip + 1 < uint64Size) :
    Leads chain query idx
      { next :=
          some { origin with number := (origin.number + next64 query.skip) % uint64Size } } := by
  have further := distance_succ query idx
  have notBack : ¬ query.reverse = true := by simp [forward]
  obtain ⟨known, path, place⟩ := (ideal_of_number byNumber).mp ideal
  rw [if_neg notBack] at place
  rw [next64_of_lt (by omega), mod_eq_of_lt (by omega), Leads]
  refine ⟨fun got => ?_, fun _ => empty⟩
  rw [retrieve_of_number byNumber, ideal_of_number byNumber, IdealByNumber, if_neg notBack]
  dsimp only
  constructor
  · rintro ⟨foundPath, foundNumber⟩
    exact ⟨known, foundPath, by omega⟩
  · rintro ⟨_, foundPath, foundPlace⟩
    exact ⟨foundPath, by omega⟩

end

/-! ### Every round -/

section

variable (located : At chain query idx origin)

include located

theorem At.hash_ne_empty (byHash : query.origin.hash ≠ emptyHash)
    (ideal : Ideal chain query idx header) :
    header.hash = origin.hash ∧ origin.hash ≠ emptyHash := by
  obtain ⟨stored, hashed⟩ := (retrieve_of_hash byHash).mp ((located.finds header).mpr ideal)
  exact ⟨hashed, hashed ▸ chain.tree.hash_ne_empty (chain.storedMem stored)⟩

theorem At.number_eq (byNumber : query.origin.hash = emptyHash)
    (ideal : Ideal chain query idx header) : header.number = origin.number :=
  ((retrieve_of_number byNumber).mp ((located.finds header).mpr ideal)).2

section

variable (ideal : Ideal chain query idx header)

include ideal

theorem advance_leads (fits : ¬ Overflows query header) :
    ∃ res,
      advance chain.db query (forwardByHash chain.db query) origin header = .ok res ∧
        Leads chain query idx res := by
  rw [Overflows] at fits
  by_cases byHash : query.origin.hash ≠ emptyHash
  · obtain ⟨hashed, notEmpty⟩ := located.hash_ne_empty byHash ideal
    rw [if_pos byHash] at fits
    rw [advance, if_pos notEmpty]
    by_cases back : query.reverse = true
    · rw [if_pos back]
      exact ⟨_, rfl, hashBack_leads byHash back ideal hashed (by
        apply Nat.lt_of_not_le
        exact fun large => fits ⟨back, large⟩)⟩
    · rw [if_neg back]
      exact forwardByHash_leads byHash (eq_false_of_ne_true back) ideal hashed
  · have byNumber := not_not.mp byHash
    have empty := located.sameMode byNumber
    have numEq := located.number_eq byNumber ideal
    rw [if_neg byHash] at fits
    rw [advance, if_neg (not_not.mpr empty)]
    by_cases back : query.reverse = true
    · rw [if_pos back] at fits ⊢
      have leads := numberBack_leads byNumber ideal empty numEq back (by omega)
      by_cases enough : next64 query.skip ≤ origin.number
      · rw [if_pos enough] at leads ⊢
        exact ⟨_, rfl, leads⟩
      · rw [if_neg enough] at leads ⊢
        exact ⟨_, rfl, leads⟩
    · rw [if_neg back] at fits ⊢
      exact ⟨_, rfl, numberForward_leads byNumber ideal empty numEq
        (eq_false_of_ne_true back) (by omega)⟩

theorem advance_of_overflows (overflows : Overflows query header) :
    ∃ next again,
      advance chain.db query (forwardByHash chain.db query) origin header =
          .ok { next := some next } ∧
        retrieve chain.db (query.origin.hash ≠ emptyHash) next = some again ∧
        ¬ Ideal chain query (idx + 1) again := by
  have skipBound := query.skip_lt
  have headerBound := number_bound ideal.stored
  rw [Overflows] at overflows
  -- the header itself is not the next one
  have notNext : ¬ Ideal chain query (idx + 1) header := by
    intro again
    have := again.index_eq ideal
    omega
  have same := (located.finds header).mpr ideal
  by_cases byHash : query.origin.hash ≠ emptyHash
  · obtain ⟨hashed, notEmpty⟩ := located.hash_ne_empty byHash ideal
    rw [if_pos byHash] at overflows
    refine ⟨origin, header, ?_, same, notNext⟩
    rw [advance, if_pos notEmpty, if_pos overflows.1, backwardSteps_of_le overflows.2 skipBound]
    rfl
  · have byNumber := not_not.mp byHash
    have empty := located.sameMode byNumber
    have numEq := located.number_eq byNumber ideal
    rw [if_neg byHash] at overflows
    rw [advance, if_neg (not_not.mpr empty)]
    by_cases back : query.reverse = true
    · rw [if_pos back] at overflows ⊢
      have zero : next64 query.skip = 0 := by
        unfold next64 uint64Size at *
        omega
      refine ⟨origin, header, ?_, same, notNext⟩
      rw [zero, if_pos (Nat.zero_le _), Nat.sub_zero]
    · rw [if_neg back] at overflows ⊢
      have wrapped : (origin.number + next64 query.skip) % uint64Size =
          header.number + query.skip + 1 - uint64Size := by
        unfold next64 uint64Size at *
        omega
      obtain ⟨known, path, place⟩ := (ideal_of_number byNumber).mp ideal
      have headBound := number_le_head path
      obtain ⟨again, againPath, againNumber⟩ :=
        exists_canonical
          (show header.number + query.skip + 1 - uint64Size ≤ chain.head.number by omega)
      refine ⟨_, again, rfl, ?_, ?_⟩
      · rw [retrieve_of_number byNumber]
        exact ⟨againPath, againNumber.trans wrapped.symm⟩
      · intro againIdeal
        obtain ⟨_, _, againPlace⟩ := (ideal_of_number byNumber).mp againIdeal
        have further := distance_succ query idx
        rw [if_neg back] at place againPlace
        omega

theorem advance_ok :
    ∃ res, advance chain.db query (forwardByHash chain.db query) origin header = .ok res := by
  by_cases overflows : Overflows query header
  · obtain ⟨_, _, computed, _⟩ := advance_of_overflows located ideal overflows
    exact ⟨_, computed⟩
  · obtain ⟨res, computed, _⟩ := advance_leads located ideal overflows
    exact ⟨res, computed⟩

end

end

/-! ## The whole reply -/

section

variable {hashMode : Prop} [Decidable hashMode]
  {step : HashOrNumber → Header → Except Crash Advance} {served final : Served} {db : ChainDb}

theorem gather_of_full (full : more served.headers.length = false) :
    gather db hashMode more step rounds origin served = .ok served := by
  cases rounds with
  | zero => rfl
  | succ rounds =>
    rw [gather, full]
    rfl

theorem gather_of_missing (missing : retrieve db hashMode origin = none) :
    gather db hashMode more step rounds origin served = .ok served := by
  cases rounds with
  | zero => rfl
  | succ rounds =>
    rw [gather, missing]
    exact ite_self _

section

variable (allowed : more served.headers.length = true)
  (got : retrieve db hashMode origin = some header)

include allowed got

theorem gather_of_retrieved {res : Advance} (stepped : step origin header = .ok res) :
    gather db hashMode more step (rounds + 1) origin served =
      match res.next with
      | none =>
        .ok { headers := served.headers ++ [header]
              capacities := served.capacities ++ res.capacities }
      | some next =>
        gather db hashMode more step rounds next
          { headers := served.headers ++ [header]
            capacities := served.capacities ++ res.capacities } := by
  simp only [gather, allowed, got, stepped, if_true]

theorem gather_of_crash {crash : Crash} (stepped : step origin header = .error crash) :
    gather db hashMode more step (rounds + 1) origin served = .error crash := by
  simp only [gather, allowed, got, stepped, if_true]

theorem isPrefix_of_retrieved
    (later : ∀ {origin served},
      gather db hashMode more step rounds origin served = .ok final →
        served.headers <+: final.headers)
    (done : gather db hashMode more step (rounds + 1) origin served = .ok final) :
    served.headers ++ [header] <+: final.headers := by
  cases stepped : step origin header with
  | error crash =>
    rw [gather_of_crash allowed got stepped] at done
    cases done
  | ok res =>
    rw [gather_of_retrieved allowed got stepped] at done
    split at done
    · cases done
      exact prefix_rfl
    · exact later done

end

theorem isPrefix_of_gather (done : gather db hashMode more step rounds origin served = .ok final) :
    served.headers <+: final.headers := by
  induction rounds generalizing origin served with
  | zero =>
    cases done
    exact prefix_rfl
  | succ rounds ih =>
    cases allowed : more served.headers.length with
    | false =>
      rw [gather_of_full allowed] at done
      cases done
      exact prefix_rfl
    | true =>
      cases got : retrieve db hashMode origin with
      | none =>
        rw [gather_of_missing got] at done
        cases done
        exact prefix_rfl
      | some header =>
        exact (prefix_append _ _).trans (isPrefix_of_retrieved allowed got ih done)

theorem getElem_of_retrieved (allowed : more served.headers.length = true)
    (got : retrieve db hashMode origin = some header)
    (done : gather db hashMode more step (rounds + 1) origin served = .ok final) :
    final.headers[served.headers.length]? = some header := by
  obtain ⟨rest, joined⟩ := isPrefix_of_retrieved allowed got isPrefix_of_gather done
  rw [← joined]
  simp

end

section

variable {served final : Served}

def Started (chain : ServedChain) (query : GetBlockHeadersData) (headers : List Header) : Prop :=
  ∀ idx header, headers[idx]? = some header → Ideal chain query idx header

theorem Started.append {headers : List Header} (started : Started chain query headers)
    (ideal : Ideal chain query headers.length header) :
    Started chain query (headers ++ [header]) := by
  intro idx other got
  rcases Nat.lt_or_ge idx headers.length with inside | beyond
  · rw [List.getElem?_append_left inside] at got
    exact started idx other got
  · rw [List.getElem?_append_right beyond, List.getElem?_singleton] at got
    split at got
    · cases got
      rw [show idx = headers.length by omega]
      exact ideal
    · cases got

theorem gather_answers (bounded : ∀ gathered, more gathered = true ↔ gathered < limit)
    (enough : limit ≤ served.headers.length + rounds) (within : served.headers.length ≤ limit)
    (started : Started chain query served.headers)
    (located : At chain query served.headers.length origin)
    (fits : ∀ idx header, served.headers.length ≤ idx → idx + 1 < limit →
      Ideal chain query idx header → ¬ Overflows query header) :
    ∃ final,
      gather chain.db (query.origin.hash ≠ emptyHash) more
          (advance chain.db query (forwardByHash chain.db query)) rounds origin served =
        .ok final ∧
      Answers chain query limit final.headers := by
  have shut {gathered : Nat} (full : limit ≤ gathered) : more gathered = false := by
    rw [Bool.eq_false_iff]
    intro still
    have := (bounded _).mp still
    omega
  induction rounds generalizing origin served with
  | zero => exact ⟨served, rfl, within, started, fun short => by omega⟩
  | succ rounds ih =>
    rcases Nat.lt_or_ge served.headers.length limit with room | full
    · have allowed := (bounded _).mpr room
      cases got : retrieve chain.db (query.origin.hash ≠ emptyHash) origin with
      | none =>
        refine ⟨served, gather_of_missing got, within, started, fun _ header ideal => ?_⟩
        rw [(located.finds header).mpr ideal] at got
        cases got
      | some header =>
        have ideal := (located.finds header).mp got
        have longer := started.append ideal
        have length : (served.headers ++ [header]).length = served.headers.length + 1 := by simp
        rcases Nat.lt_or_ge (served.headers.length + 1) limit with room' | last
        · obtain ⟨res, stepped, leads⟩ := advance_leads located ideal
            (fits _ header (Nat.le_refl _) room' ideal)
          rw [gather_of_retrieved allowed got stepped]
          rw [Leads, ← length] at leads
          cases next : res.next with
          | none =>
            rw [next] at leads
            refine ⟨_, rfl, ?_, longer, fun _ => leads⟩
            rw [length]
            omega
          | some next' =>
            rw [next] at leads
            refine ih (by rw [length]; omega) (by rw [length]; omega) longer leads ?_
            intro idx other le
            rw [length] at le
            exact fits idx other (by omega)
        · -- after the last header it does not matter where the walk would go on
          obtain ⟨res, stepped⟩ := advance_ok located ideal
          have answers : Answers chain query limit (served.headers ++ [header]) :=
            ⟨by rw [length]; omega, longer, fun short => by rw [length] at short; omega⟩
          rw [gather_of_retrieved allowed got stepped]
          cases next : res.next with
          | none => exact ⟨_, rfl, answers⟩
          | some next' => exact ⟨_, gather_of_full (shut (length ▸ last)), answers⟩
    · exact ⟨served, gather_of_full (shut full), within, started, fun short => by omega⟩

/-- The rounds go along the sequence until the first header from which a step fails. -/
theorem gather_until (served : Served) {step : HashOrNumber → Header → Except Crash Advance}
    {fails : Header → Prop} (steps : ∀ {idx origin header}, At chain query idx origin →
      Ideal chain query idx header → ¬ fails header →
        ∃ res, step origin header = .ok res ∧ Leads chain query idx res)
    (bounded : ∀ gathered, more gathered = true ↔ gathered < limit)
    (ideal : Ideal chain query idx header) (isFailing : fails header) (before : idx < limit)
    (enough : limit ≤ served.headers.length + rounds)
    (located : At chain query served.headers.length origin) (le : served.headers.length ≤ idx) :
    ∃ rest next final last, At chain query final.headers.length next ∧
      Ideal chain query final.headers.length last ∧ fails last ∧ final.headers.length ≤ idx ∧
      limit ≤ final.headers.length + rest ∧
      gather chain.db (query.origin.hash ≠ emptyHash) more step rounds origin served =
        gather chain.db (query.origin.hash ≠ emptyHash) more step rest next final := by
  induction rounds generalizing origin served with
  | zero => omega
  | succ rounds ih =>
    obtain ⟨current, currentIdeal⟩ := ideal.exists_of_le le
    by_cases currentFails : fails current
    · exact ⟨_, _, _, current, located, currentIdeal, currentFails, le, enough, rfl⟩
    · obtain ⟨res, stepped, leads⟩ := steps located currentIdeal currentFails
      have length : (served.headers ++ [current]).length = served.headers.length + 1 := by simp
      have later : served.headers.length + 1 ≤ idx := by
        rcases Nat.lt_or_eq_of_le le with less | same
        · exact less
        · rw [same] at currentIdeal
          rw [currentIdeal.unique ideal] at currentFails
          exact absurd isFailing currentFails
      rw [gather_of_retrieved ((bounded _).mpr (by omega))
        ((located.finds current).mpr currentIdeal) stepped]
      rw [Leads] at leads
      cases next : res.next with
      | none =>
        rw [next] at leads
        obtain ⟨missing, missingIdeal⟩ := ideal.exists_of_le later
        exact absurd missingIdeal (leads missing)
      | some next' =>
        rw [next] at leads
        rw [← length] at leads later
        exact ih _ (by rw [length]; omega) leads later

theorem gather_of_overflows (bounded : ∀ gathered, more gathered = true ↔ gathered < limit)
    (enough : limit ≤ rounds) (ideal : Ideal chain query idx header)
    (overflows : Overflows query header) (before : idx + 1 < limit)
    (done : gather chain.db (query.origin.hash ≠ emptyHash) more
        (advance chain.db query (forwardByHash chain.db query)) rounds query.origin {} =
      .ok final) :
    ¬ Started chain query final.headers := by
  obtain ⟨rest, origin, served, last, located, lastIdeal, lastOverflows, le, left, same⟩ :=
    gather_until {} (fun located current fits => advance_leads located current fits) bounded ideal
      overflows (by omega) (le_add_left_of_le enough) at_start (Nat.zero_le _)
  obtain ⟨next, again, stepped, foundAgain, wrong⟩ :=
    advance_of_overflows located lastIdeal lastOverflows
  obtain ⟨rest, rfl⟩ := Nat.exists_eq_add_of_le' (show 2 ≤ rest by omega)
  have length : (served.headers ++ [last]).length = served.headers.length + 1 := by simp
  rw [same, gather_of_retrieved ((bounded _).mpr (by omega)) ((located.finds last).mpr lastIdeal)
    stepped] at done
  have added := getElem_of_retrieved ((bounded _).mpr (by rw [length]; omega)) foundAgain done
  rw [length] at added
  exact fun started => wrong (started _ again added)

end

def softLimitHeaders : Nat := (softResponseLimit + (estHeaderRlpSize - 1)) / estHeaderRlpSize

/-- The limit of a reply: the amount, `MaxHeaderFetch` and the soft limit on its size. -/
def replyLimit (query : GetBlockHeadersData) : Nat :=
  min (min query.amount maxHeaderFetch) softLimitHeaders

/-- The amount is a positive `int`, unless there is nothing to return, and no step of the reply
leaves the machine integers. -/
def Servable (chain : ServedChain) (query : GetBlockHeadersData) : Prop :=
  (2 ^ 63 ≤ query.amount → ∀ header, ¬ Ideal chain query 0 header) ∧
    ∀ idx header, idx + 1 < replyLimit query → Ideal chain query idx header →
      ¬ Overflows query header

theorem moreHeaders_iff (amount : query.amount < 2 ^ 63) (gathered : Nat) :
    moreHeaders query gathered = true ↔ gathered < replyLimit query := by
  have soft : gathered * estHeaderRlpSize < softResponseLimit ↔ gathered < softLimitHeaders := by
    simp only [estHeaderRlpSize, softLimitHeaders]
    omega
  simp only [moreHeaders, int64, if_pos amount, soft, decide_eq_true_eq, replyLimit, Int.ofNat_lt]
  omega

theorem serveHeaders_of_large (amount : 2 ^ 63 ≤ query.amount) (db : ChainDb) :
    serveHeaders db query = .ok {} := by
  have bound := query.amount_lt
  apply gather_of_full
  have negative : int64 query.amount < 0 := by
    rw [int64, if_neg (by omega)]
    unfold uint64Size at bound
    omega
  rw [moreHeaders, decide_eq_false_iff_not]
  rintro ⟨positive, _⟩
  omega

/-- The reply is exactly the start of the sequence that was asked for, within the limits and without
a header twice, if and only if the arithmetic on the amount and the steps stays in the machine
integers. -/
theorem header_reply_exact_iff (chain : ServedChain) (query : GetBlockHeadersData) :
    (∃ served, serveHeaders chain.db query = .ok served ∧
        Answers chain query (replyLimit query) served.headers ∧ served.headers.Nodup) ↔
      Servable chain query := by
  have limitLe : replyLimit query ≤ maxHeaderFetch := by
    unfold replyLimit
    omega
  rcases Nat.lt_or_ge query.amount (2 ^ 63) with amount | large
  · constructor
    · rintro ⟨served, done, answers, _⟩
      refine ⟨fun tooLarge => by omega, fun idx header before ideal overflows => ?_⟩
      exact gather_of_overflows (moreHeaders_iff amount) limitLe ideal overflows before done
        answers.ideal
    · rintro ⟨_, fits⟩
      obtain ⟨served, done, answers⟩ :
          ∃ final, serveHeaders chain.db query = .ok final ∧
            Answers chain query (replyLimit query) final.headers :=
        gather_answers (moreHeaders_iff amount) (by simpa using limitLe)
          (Nat.zero_le _) (by simp [Started]) at_start
          (fun idx header _ => fits idx header)
      exact ⟨served, done, answers, answers.nodup⟩
  · rw [serveHeaders_of_large large]
    have positive : 0 < replyLimit query := by
      have : 0 < softLimitHeaders := by decide
      have : 0 < maxHeaderFetch := by decide
      unfold replyLimit
      omega
    constructor
    · rintro ⟨served, done, answers, _⟩
      cases done
      have nothing := answers.longest positive
      refine ⟨fun _ => nothing, fun idx header _ ideal => ?_⟩
      obtain ⟨first, firstIdeal⟩ := ideal.exists_of_le (Nat.zero_le idx)
      exact absurd firstIdeal (nothing first)
    · rintro ⟨nothing, _⟩
      exact ⟨{}, rfl, ⟨Nat.zero_le _, by simp, fun _ => nothing large⟩, nodup_nil⟩

def loneGenesis : Header := { hash := 1, parentHash := 0 }

def loneTree : HeaderTree :=
  HeaderTree.ofList loneGenesis [] rfl (by decide) (by decide) (by decide) (by decide)

def loneChain : ServedChain :=
  ServedChain.ofSound (HeaderChain.sound_atGenesis loneTree 1) (numbered_atGenesis _ 1)

/-- Towards the genesis block `skip + 1` wraps to zero, and the same header is sent twice. -/
theorem header_sent_twice :
    serveHeaders loneChain.db { origin := {}, amount := 2, skip := 2 ^ 64 - 1, reverse := true } =
      .ok { headers := [loneGenesis, loneGenesis] } := by
  rfl

/-- An amount that is negative as an `int` is answered with no header at all. -/
example : serveHeaders loneChain.db { origin := {}, amount := 2 ^ 63 } = .ok {} := by rfl

end MoacVnode.Mc
