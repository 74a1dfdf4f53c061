import MoacVnode.Core.BloomBits
import MoacVnode.Core.StateTransition
import MoacVnode.NetworkRelay.Notifications

/-!
# Log search

A filter gathers the logs of a range of blocks that have one of some addresses and, at each
position, one of some topics; an empty topic is a wildcard.  The sections of the range that are
indexed are searched with the bloom bit matcher, the blocks after them one by one with the
blooms of their headers.  Both only suggest blocks, whose logs are then looked at.

The wildcard is known to `bloomFilter` and to `filterLogs`; the matcher is given the empty
topic as a topic like any other.

A search that is cancelled is left out.
-/

namespace MoacVnode.Mc

open MoacVnode.Core Lib NetworkRelay List

variable {lib : BloomLib} {number : Nat}

structure BlockLog extends Log where
  blockNumber : Nat
  deriving DecidableEq

inductive TopicQuery where
  | null
  | topic (hash : Hash)
  | anyOf (topics : List (Option Hash))
  deriving DecidableEq

/-- The topics that `UnmarshalJSON` makes of a position. -/
def TopicQuery.hashes : TopicQuery → List Hash
  | null => [emptyHash]
  | topic hash => [hash]
  | anyOf topics => topics.map (·.getD emptyHash)

structure FilterCriteria where
  addresses : List Address
  topics : List (List Hash)
  deriving DecidableEq

/-- `UnmarshalJSON` of a query whose addresses and topics can be decoded. -/
def FilterCriteria.ofQuery (addresses : List Address) (topics : List TopicQuery) :
    FilterCriteria :=
  { addresses, topics := topics.map TopicQuery.hashes }

def includes (addresses : List Address) (address : Address) : Bool := addresses.any (· == address)

/-- The topics of a log match at each position; a log with fewer topics does not. -/
def matchesTopics (topics : List (List Hash)) (logTopics : List Hash) : Bool :=
  decide (topics.length ≤ logTopics.length) && (topics.zip logTopics).all fun pos =>
      pos.1.any fun topic => topic == emptyHash || pos.2 == topic

def filterLogs (logs : List BlockLog) (fromBlock toBlock : Option Int)
    (criteria : FilterCriteria) : List BlockLog :=
  logs.filter fun log =>
    (!fromBlock.any fun first => decide (0 ≤ first ∧ (log.blockNumber : Int) < first)) &&
    (!toBlock.any fun last => decide (0 ≤ last ∧ last < (log.blockNumber : Int))) &&
    (criteria.addresses.isEmpty || includes criteria.addresses log.address) &&
    matchesTopics criteria.topics log.topics

def bloomFilter (lib : BloomLib) (bloom : Bloom) (criteria : FilterCriteria) : Bool :=
  (criteria.addresses.isEmpty ||
    criteria.addresses.any fun address => lib.bloomLookup bloom (addressBytes address)) &&
  criteria.topics.all fun list =>
    list.any fun topic => topic == emptyHash || lib.bloomLookup bloom (hashBytes topic)

/-- The bloom of a header and the logs of the receipts of its block. -/
structure LogBlock where
  bloom : Bloom
  receipts : List (List BlockLog)

def LogBlock.logs (block : LogBlock) : List BlockLog := block.receipts.flatten

/-- A bloom without false negatives for a log. -/
structure Covers (lib : BloomLib) (bloom : Bloom) (log : BlockLog) : Prop where
  address : lib.bloomLookup bloom (addressBytes log.address) = true
  topics : ∀ topic ∈ log.topics, lib.bloomLookup bloom (hashBytes topic) = true

/-- The bloom of a block; numbers beyond the head have none. -/
def bloomOf (blocks : List LogBlock) (number : Nat) : Bloom :=
  ((blocks[number]?).map (·.bloom)).getD 0

/-- A chain and its bloom index.  The index is made of whole bytes, of blocks of the chain, whose
numbers are `int64`. -/
structure LogBackend (lib : BloomLib) where
  blocks : List LogBlock
  pending : Option LogBlock
  sectionSize : Nat
  sections : Nat
  vectors : BitVectors
  covers : ∀ block ∈ blocks, ∀ log ∈ block.logs, Covers lib block.bloom log
  positive : 0 < sectionSize
  bytes : sectionSize % 8 = 0
  indexed : sections * sectionSize ≤ blocks.length
  short : blocks.length < 2 ^ 63
  transposed : ∀ number < sections, Transposed vectors sectionSize number (bloomOf blocks)

namespace LogBackend

variable (backend : LogBackend lib)

/-- `HeaderByNumber`: -1 is the head and -2 the pending block. -/
def headerByNumber (number : Int) : Option LogBlock :=
  if number = -2 then backend.pending
  else if number = -1 then backend.blocks.getLast?
  else if 0 ≤ number then backend.blocks[number.toNat]?
  else none

theorem headerByNumber_natCast (number : Nat) :
    backend.headerByNumber number = backend.blocks[number]? := by
  rw [headerByNumber, if_neg (by omega), if_neg (by omega), if_pos (by omega), Int.toNat_natCast]

def accepted (criteria : FilterCriteria) (number : Nat) : List BlockLog :=
  filterLogs (((backend.blocks[number]?).map LogBlock.logs).getD []) none none criteria

end LogBackend

structure Filter where
  start : Int
  stop : Int
  criteria : FilterCriteria
  matcher : Matcher

/-- The clauses of the matcher: the addresses, if there are any, and each list of topics. -/
def FilterCriteria.clauses (criteria : FilterCriteria) : List (List (List UInt8)) :=
  (if criteria.addresses.isEmpty then [] else [criteria.addresses.map addressBytes]) ++
    criteria.topics.map (·.map hashBytes)

def newFilter {lib : BloomLib} (backend : LogBackend lib) (start stop : Int)
    (criteria : FilterCriteria) : Filter :=
  { start, stop, criteria, matcher := newMatcher lib backend.sectionSize criteria.clauses }

def toUint64 (number : Int) : Nat := (number % uint64Size).toNat

theorem toUint64_natCast (small : number < uint64Size) : toUint64 number = number := by
  rw [toUint64, ← Int.natCast_mod, Int.toNat_natCast, Nat.mod_eq_of_lt small]

namespace Filter

variable (backend : LogBackend lib)

variable (filter : Filter)

def checkMatches (block : LogBlock) : List BlockLog :=
  filterLogs block.logs none none filter.criteria

/-- The loop of `indexedLogs`: the logs, and whether all suggestions were looked at. -/
def inspect (filter : Filter) : List Nat → List BlockLog × Bool
  | [] => ([], true)
  | number :: rest =>
    match backend.headerByNumber number with
    | none => ([], false)
    | some block =>
      let more := filter.inspect rest
      (filter.checkMatches block ++ more.1, more.2)

def indexedLogs (stop : Nat) : List BlockLog × Filter :=
  let got := filter.inspect backend
    (filter.matcher.matches backend.vectors (toUint64 filter.start) stop)
  (got.1, if got.2 then { filter with start := (stop : Int) + 1 } else filter)

def scan (filter : Filter) : Nat → List BlockLog × Filter
  | 0 => ([], filter)
  | count + 1 =>
    match backend.headerByNumber filter.start with
    | none => ([], filter)
    | some block =>
      let got := if bloomFilter lib block.bloom filter.criteria then
        filter.checkMatches block else []
      let more := scan { filter with start := filter.start + 1 } count
      (got ++ more.1, more.2)

def unindexedLogs (stop : Nat) : List BlockLog × Filter :=
  filter.scan backend ((stop : Int) + 1 - filter.start).toNat

def search (stop : Nat) : List BlockLog × Filter :=
  let indexed := backend.sections * backend.sectionSize
  let got := if indexed > toUint64 filter.start then
    filter.indexedLogs backend (if indexed > stop then stop else indexed - 1)
  else ([], filter)
  let rest := got.2.unindexedLogs backend stop
  (got.1 ++ rest.1, rest.2)

/-- `Logs`; a limit of -1 is the head. -/
def logs : List BlockLog × Filter :=
  if backend.blocks = [] then ([], filter)
  else
    let head := backend.blocks.length - 1
    search backend { filter with start := if filter.start = -1 then head else filter.start }
      (if filter.stop = -1 then head else toUint64 filter.stop)

end Filter

section

variable {bloom : Bloom} {criteria : FilterCriteria}

theorem clauses_found_iff :
    (∀ clause ∈ criteria.clauses, ∃ key ∈ clause, lib.bloomLookup bloom key = true) ↔
      (criteria.addresses ≠ [] → ∃ address ∈ criteria.addresses,
        lib.bloomLookup bloom (addressBytes address) = true) ∧
      ∀ list ∈ criteria.topics, ∃ topic ∈ list, lib.bloomLookup bloom (hashBytes topic) = true := by
  by_cases none : criteria.addresses = []
  · simp [FilterCriteria.clauses, none]
  · simp [FilterCriteria.clauses, none]

theorem topic_of_matchesTopics {topics : List (List Hash)} {logTopics : List Hash}
    (matched : matchesTopics topics logTopics = true) {list : List Hash} (mem : list ∈ topics) :
    emptyHash ∈ list ∨ ∃ topic ∈ list, topic ∈ logTopics := by
  rw [matchesTopics, Bool.and_eq_true, decide_eq_true_iff, List.all_eq_true] at matched
  obtain ⟨place, within, rfl⟩ := getElem_of_mem mem
  have pos := matched.2 (topics[place], logTopics[place]) (by
    rw [mem_iff_getElem]
    exact ⟨place, by rw [length_zip]; omega, getElem_zip⟩)
  obtain ⟨topic, listed, got⟩ := any_eq_true.mp pos
  rw [Bool.or_eq_true, beq_iff_eq, beq_iff_eq] at got
  cases got with
  | inl wildcard => exact .inl (wildcard ▸ listed)
  | inr same => exact .inr ⟨topic, listed, same ▸ getElem_mem _⟩

variable {log : BlockLog} (covered : Covers lib bloom log)
  (addressFits : criteria.addresses ≠ [] → log.address ∈ criteria.addresses)
  (topicsFit : matchesTopics criteria.topics log.topics = true)

include covered addressFits topicsFit

theorem bloomFilter_of_covers : bloomFilter lib bloom criteria = true := by
  rw [bloomFilter, Bool.and_eq_true, Bool.or_eq_true, List.isEmpty_iff, List.all_eq_true]
  constructor
  · by_cases none : criteria.addresses = []
    · exact .inl none
    · exact .inr (any_eq_true.mpr ⟨log.address, addressFits none, covered.address⟩)
  · intro list mem
    rw [any_eq_true]
    cases topic_of_matchesTopics topicsFit mem with
    | inl wildcard => exact ⟨emptyHash, wildcard, by simp⟩
    | inr shared =>
      obtain ⟨topic, listed, inLog⟩ := shared
      exact ⟨topic, listed, by simp [covered.topics topic inLog]⟩

theorem clauses_found_iff_of_covers :
    (∀ clause ∈ criteria.clauses, ∃ key ∈ clause, lib.bloomLookup bloom key = true) ↔
      ∀ list ∈ criteria.topics, emptyHash ∈ list →
        ∃ topic ∈ list, lib.bloomLookup bloom (hashBytes topic) = true := by
  rw [clauses_found_iff]
  constructor
  · intro got list mem _
    exact got.2 list mem
  · intro wildcards
    refine ⟨fun some => ⟨log.address, addressFits some, covered.address⟩, ?_⟩
    intro list mem
    cases topic_of_matchesTopics topicsFit mem with
    | inl wildcard => exact wildcards list mem wildcard
    | inr shared =>
      obtain ⟨topic, listed, inLog⟩ := shared
      exact ⟨topic, listed, covered.topics topic inLog⟩

end

section

variable {α β : Type} {items : List α} {some all : α → List β}

theorem flatMap_filter (items : List α) (keep : α → Bool) (expand : α → List β) :
    (items.filter keep).flatMap expand =
      items.flatMap fun item => if keep item then expand item else [] := by
  induction items with
  | nil => rfl
  | cons item items ih => cases kept : keep item <;> simp [kept, ih]

section

variable (each : ∀ item ∈ items, some item = all item ∨ some item = [])

include each

theorem length_flatMap_le : (items.flatMap some).length ≤ (items.flatMap all).length := by
  rw [length_flatMap, length_flatMap]
  apply sum_le_sum
  intro item mem
  rcases each item mem with same | nothing
  · rw [same]
  · simp [nothing]

theorem flatMap_eq_iff_of_left_out :
    items.flatMap some = items.flatMap all ↔ ∀ item ∈ items, some item = all item := by
  constructor
  · intro same
    induction items with
    | nil => exact forall_mem_nil _
    | cons item items ih =>
      rw [forall_mem_cons] at each ⊢
      have shorter := length_flatMap_le each.2
      rw [flatMap_cons, flatMap_cons] at same
      have lengths := congrArg List.length same
      rw [length_append, length_append] at lengths
      have first : some item = all item := by
        rcases each.1 with same | nothing
        · exact same
        · rw [nothing, length_nil] at lengths
          rw [nothing, eq_nil_of_length_eq_zero (l := all item) (by omega)]
      rw [first] at same
      exact ⟨first, ih each.2 (append_cancel_left same)⟩
  · exact flatMap_congr

end

end

namespace Filter

variable {backend : LogBackend lib}

theorem checkMatches_eq (filter : Filter) {block : LogBlock}
    (got : backend.blocks[number]? = some block) :
    filter.checkMatches block = backend.accepted filter.criteria number := by
  rw [checkMatches, LogBackend.accepted, got]
  rfl

theorem inspect_eq (filter : Filter) (numbers : List Nat)
    (chain : ∀ number ∈ numbers, number < backend.blocks.length) :
    filter.inspect backend numbers =
      (numbers.flatMap (backend.accepted filter.criteria), true) := by
  induction numbers with
  | nil => rfl
  | cons number numbers ih =>
    have within := chain number (by simp)
    have got := List.getElem?_eq_getElem within
    rw [inspect, backend.headerByNumber_natCast, got,
      ih fun other mem => chain other (by simp [mem]),
      flatMap_cons, ← filter.checkMatches_eq got]

theorem covers_of_accepted {criteria : FilterCriteria} {log : BlockLog}
    (mem : log ∈ backend.accepted criteria number) :
    Covers lib (bloomOf backend.blocks number) log ∧
      (criteria.addresses ≠ [] → log.address ∈ criteria.addresses) ∧
        matchesTopics criteria.topics log.topics = true := by
  rw [LogBackend.accepted, filterLogs, mem_filter] at mem
  refine ⟨?_, by grind [includes]⟩
  cases got : backend.blocks[number]? with
  | none =>
    rw [got] at mem
    exact absurd mem.1 not_mem_nil
  | some block =>
    rw [got] at mem
    rw [bloomOf, got]
    exact backend.covers block (mem_of_getElem? got) log mem.1

theorem scan_eq (count : Nat) (filter : Filter) (first : Nat) (begins : filter.start = first)
    (chain : first + count ≤ backend.blocks.length) :
    (filter.scan backend count).1 =
      (List.range' first count).flatMap (backend.accepted filter.criteria) := by
  induction count generalizing filter first with
  | zero => rfl
  | succ count ih =>
    have within : first < backend.blocks.length := by omega
    have got := List.getElem?_eq_getElem within
    have rest := ih { filter with start := filter.start + 1 } (first + 1)
      (by simp [begins]) (by omega)
    have bloom : backend.blocks[first].bloom = bloomOf backend.blocks first := by
      rw [bloomOf, got]
      rfl
    rw [scan, begins, backend.headerByNumber_natCast, got, List.range'_succ, flatMap_cons]
    dsimp only
    rw [begins] at rest
    rw [rest, filter.checkMatches_eq got, bloom]
    split
    · rfl
    · rename_i unsuggested
      congr 1
      symm
      rw [eq_nil_iff_forall_not_mem]
      intro log mem
      obtain ⟨covered, addressFits, topicsFit⟩ := covers_of_accepted mem
      exact unsuggested (bloomFilter_of_covers covered addressFits topicsFit)

theorem logs_eq_search {filter : Filter} {start stop : Nat} (begins : filter.start = start)
    (ends : filter.stop = stop) (nonempty : backend.blocks ≠ []) (small : stop < uint64Size) :
    filter.logs backend = filter.search backend stop := by
  have started : filter.start ≠ -1 := by omega
  have ended : filter.stop ≠ -1 := by omega
  rw [logs, if_neg nonempty]
  dsimp only
  rw [if_neg started, if_neg ended, show toUint64 filter.stop = stop by
    rw [ends, toUint64_natCast small]]

end Filter

structure SearchRange {lib : BloomLib} (backend : LogBackend lib) where
  start : Nat
  stop : Nat
  ordered : start ≤ stop
  chain : stop < backend.blocks.length

namespace SearchRange

variable {backend : LogBackend lib} (range : SearchRange backend) {criteria : FilterCriteria}
  {first last : Nat}

def allLogs : List BlockLog :=
  (List.range' range.start (range.stop + 1 - range.start)).flatMap fun number =>
    ((backend.blocks[number]?).map LogBlock.logs).getD []

/-- A block whose bloom has a topic of each list with a wildcard. -/
def WildcardsFound (backend : LogBackend lib) (criteria : FilterCriteria) (number : Nat) : Prop :=
  ∀ list ∈ criteria.topics, emptyHash ∈ list →
    ∃ topic ∈ list, lib.bloomLookup (bloomOf backend.blocks number) (hashBytes topic) = true

def gathered (backend : LogBackend lib) (criteria : FilterCriteria) (number : Nat) :
    List BlockLog :=
  if number < backend.sections * backend.sectionSize ∧
      ¬ (newMatcher lib backend.sectionSize criteria.clauses).Inspects
        (bloomOf backend.blocks number) then []
  else backend.accepted criteria number

theorem gathered_eq_iff :
    gathered backend criteria number = backend.accepted criteria number ↔
      (number < backend.sections * backend.sectionSize →
        backend.accepted criteria number ≠ [] → WildcardsFound backend criteria number) := by
  by_cases indexed : number < backend.sections * backend.sectionSize
  · by_cases nothing : backend.accepted criteria number = []
    · simp [gathered, nothing]
    · obtain ⟨log, mem⟩ := exists_mem_of_ne_nil _ nothing
      obtain ⟨covered, addressFits, topicsFit⟩ := Filter.covers_of_accepted mem
      have inspects : (newMatcher lib backend.sectionSize criteria.clauses).Inspects
          (bloomOf backend.blocks number) ↔ WildcardsFound backend criteria number := by
        refine Iff.trans ?_ (clauses_found_iff_of_covers covered addressFits topicsFit)
        simp [Matcher.Inspects, newMatcher, lib.bloomLookup_eq, BloomLib.calcBloomIndexes]
      by_cases got : WildcardsFound backend criteria number
      · simp [gathered, inspects.mpr got, got]
      · have leftOut := mt inspects.mp got
        simp [gathered, leftOut, got, indexed, nothing]
  · simp [gathered, indexed]

variable (criteria)

theorem matches_filter (ordered : first ≤ last)
    (within : last < backend.sections * backend.sectionSize) :
    (newMatcher lib backend.sectionSize criteria.clauses).matches backend.vectors first last =
      (List.range' first (last + 1 - first)).filter fun number =>
        decide ((newMatcher lib backend.sectionSize criteria.clauses).Inspects
          (bloomOf backend.blocks number)) :=
  matches_eq backend.positive backend.bytes
    (by simp [newMatcher, BloomLib.calcBloomIndexes, bloomIndexes]) ordered
    fun number before => backend.transposed number
      (Nat.lt_of_le_of_lt before (Nat.div_lt_of_lt_mul (by rwa [Nat.mul_comm])))

theorem matches_flatMap (ordered : first ≤ last)
    (within : last < backend.sections * backend.sectionSize) :
    ((newMatcher lib backend.sectionSize criteria.clauses).matches backend.vectors first
        last).flatMap (backend.accepted criteria) =
      (List.range' first (last + 1 - first)).flatMap (gathered backend criteria) := by
  rw [matches_filter criteria ordered within, flatMap_filter]
  apply flatMap_congr
  intro number mem
  have bounds := mem_range'_1.mp mem
  have indexed : number < backend.sections * backend.sectionSize := by omega
  by_cases inspects : (newMatcher lib backend.sectionSize criteria.clauses).Inspects
      (bloomOf backend.blocks number)
  · simp [gathered, inspects]
  · simp [gathered, indexed]

theorem unindexedLogs_eq {filter : Filter} (begins : filter.start = first)
    (behind : backend.sections * backend.sectionSize ≤ first ∨ range.stop < first) :
    (filter.unindexedLogs backend range.stop).1 =
      (List.range' first (range.stop + 1 - first)).flatMap (gathered backend filter.criteria) := by
  have chain := range.chain
  have count : ((range.stop : Int) + 1 - filter.start).toNat = range.stop + 1 - first := by
    omega
  rw [Filter.unindexedLogs, count]
  by_cases left : first ≤ range.stop
  · rw [Filter.scan_eq _ filter first begins (by omega)]
    apply flatMap_congr
    intro number mem
    have bounds := mem_range'_1.mp mem
    exact (if_neg fun leftOut => absurd leftOut.1 (by omega)).symm
  · rw [show range.stop + 1 - first = 0 by omega]
    rfl

theorem indexedLogs_eq (behind : range.start ≤ last)
    (within : last < backend.sections * backend.sectionSize) :
    (newFilter backend range.start range.stop criteria).indexedLogs backend last =
      ((List.range' range.start (last + 1 - range.start)).flatMap (gathered backend criteria),
        { newFilter backend range.start range.stop criteria with start := (last : Int) + 1 }) := by
  have ordered := range.ordered
  have chain := range.chain
  have short : backend.blocks.length < uint64Size := lt_trans backend.short (by decide)
  have start : toUint64 (newFilter backend range.start range.stop criteria).start = range.start :=
    toUint64_natCast (by omega)
  have inspected : (newFilter backend range.start range.stop criteria).inspect backend
      ((newMatcher lib backend.sectionSize criteria.clauses).matches backend.vectors range.start
        last) =
      ((List.range' range.start (last + 1 - range.start)).flatMap (gathered backend criteria),
        true) := by
    rw [Filter.inspect_eq, ← matches_flatMap criteria behind within]
    · rfl
    · intro number mem
      rw [matches_filter criteria behind within] at mem
      have bounds := mem_range'_1.mp (mem_of_mem_filter mem)
      have covered := backend.indexed
      omega
  rw [Filter.indexedLogs, start]
  rw [show (newFilter backend range.start range.stop criteria).matcher =
    newMatcher lib backend.sectionSize criteria.clauses from rfl, inspected]
  rfl

theorem logs_eq :
    ((newFilter backend range.start range.stop criteria).logs backend).1 =
      (List.range' range.start (range.stop + 1 - range.start)).flatMap
        (gathered backend criteria) := by
  have ordered := range.ordered
  have chain := range.chain
  have short : backend.blocks.length < uint64Size := lt_trans backend.short (by decide)
  have nonempty : backend.blocks ≠ [] := ne_nil_of_length_pos (by omega)
  rw [Filter.logs_eq_search rfl rfl nonempty (by omega), Filter.search]
  rw [show toUint64 (newFilter backend range.start range.stop criteria).start = range.start from
    toUint64_natCast (by omega)]
  by_cases indexed : backend.sections * backend.sectionSize > range.start
  · rw [if_pos indexed]
    generalize ending : (if backend.sections * backend.sectionSize > range.stop then range.stop
      else backend.sections * backend.sectionSize - 1) = last
    have bounds : range.start ≤ last ∧ last ≤ range.stop ∧
        last < backend.sections * backend.sectionSize ∧
        (backend.sections * backend.sectionSize ≤ last + 1 ∨ range.stop < last + 1) := by
      split at ending <;> omega
    rw [range.indexedLogs_eq criteria bounds.1 bounds.2.2.1]
    rw [range.unindexedLogs_eq rfl bounds.2.2.2]
    dsimp only [newFilter]
    rw [← flatMap_append, range_append (by omega) (by omega)]
  · rw [if_neg indexed]
    exact range.unindexedLogs_eq rfl (.inl (by omega))

variable {criteria}

/-- The search gathers the logs of the range that `filterLogs` accepts if, for each indexed block
with such a log, the bloom has a topic of each list with a wildcard. -/
theorem logs_eq_filterLogs_iff (addresses : List Address) (topics : List TopicQuery) :
    ((newFilter backend range.start range.stop
        (FilterCriteria.ofQuery addresses topics)).logs backend).1 =
      filterLogs range.allLogs none none (FilterCriteria.ofQuery addresses topics) ↔
    ∀ number, range.start ≤ number → number ≤ range.stop →
      number < backend.sections * backend.sectionSize →
      backend.accepted (FilterCriteria.ofQuery addresses topics) number ≠ [] →
        WildcardsFound backend (FilterCriteria.ofQuery addresses topics) number := by
  rw [logs_eq, filterLogs, allLogs, filter_flatMap, flatMap_eq_iff_of_left_out]
  · have mem (number : Nat) :
        number ∈ List.range' range.start (range.stop + 1 - range.start) ↔
          range.start ≤ number ∧ number ≤ range.stop := by
      rw [mem_range'_1]
      omega
    simp only [mem, and_imp]
    refine forall_congr' fun number => forall₂_congr fun _ _ => ?_
    exact gathered_eq_iff
  · intro number _
    rw [gathered]
    split
    · exact .inr rfl
    · exact .inl rfl

end SearchRange

def twoHashLib : BloomLib where
  keccak256 key := if key.all (· == 0) then [] else [0, 1, 0, 1, 0, 1]
  bloomLookup bloom key := (bloomIndexes
    (if key.all (· == 0) then [] else [0, 1, 0, 1, 0, 1])).all (bloom.getLsbD ·)
  bloomLookup_eq _ _ := rfl

def onlyLog : BlockLog := { address := 1, topics := [1], blockNumber := 0 }

def oneLogBlocks : List LogBlock :=
  { bloom := 2, receipts := [[onlyLog]] } :: List.replicate 7 { bloom := 0, receipts := [] }

theorem covers_oneLogBlocks {block : LogBlock} (mem : block ∈ oneLogBlocks) {log : BlockLog}
    (logged : log ∈ block.logs) : Covers twoHashLib block.bloom log := by
  rw [oneLogBlocks, mem_cons, mem_replicate] at mem
  cases mem with
  | inl first =>
    have only : log = onlyLog := by simpa [first, LogBlock.logs] using logged
    have got (key : List UInt8) (nonzero : key.all (· == 0) = false) :
        twoHashLib.bloomLookup 2 key = true := by
      simp only [twoHashLib, nonzero]
      decide +kernel
    rw [first, only]
    refine ⟨got _ (by decide +kernel), ?_⟩
    intro topic mem
    rw [mem_singleton.mp mem]
    exact got _ (by decide +kernel)
  | inr other => simp [other.2, LogBlock.logs] at logged

theorem getLsbD_bloomOf_oneLogBlocks (bit : Nat) {place : Nat} (within : place < 8) :
    (bloomOf oneLogBlocks place).getLsbD bit = decide (bit = 1 ∧ place = 0) := by
  cases place with
  | zero =>
    have bits : Nat.testBit (2 ^ 1) bit = decide (1 = bit) := Nat.testBit_two_pow
    have bloom : (bloomOf oneLogBlocks 0).getLsbD bit =
        (decide (bit < 2048) && Nat.testBit (2 ^ 1) bit) :=
      BitVec.getLsbD_ofNat 2048 2 bit
    rw [bloom, bits, Bool.eq_iff_iff, Bool.and_eq_true, decide_eq_true_iff, decide_eq_true_iff,
      decide_eq_true_iff]
    omega
  | succ place =>
    have blank : bloomOf oneLogBlocks (place + 1) = 0 := by
      rw [bloomOf, oneLogBlocks, List.getElem?_cons_succ, List.getElem?_replicate,
        if_pos (by omega)]
      rfl
    simp [blank]

def oneLogSection : LogBackend twoHashLib where
  blocks := oneLogBlocks
  pending := none
  sectionSize := 8
  sections := 1
  vectors bit _ := if bit = 1 then [128] else [0]
  covers _ mem _ logged := covers_oneLogBlocks mem logged
  positive := by decide
  bytes := by decide
  indexed := by decide
  short := by decide
  transposed := by
    intro number first
    rw [Nat.lt_one_iff.mp first]
    refine ⟨fun bit => by split <;> rfl, ?_⟩
    intro bit place within
    rw [zero_mul, zero_add, getLsbD_bloomOf_oneLogBlocks bit within]
    by_cases second : bit = 1
    · rw [if_pos second, second]
      revert place
      decide
    · rw [if_neg second, show bitAt [0] place = false from bitAt_zeros 1 place]
      simp [second]

def wholeSection : SearchRange oneLogSection where
  start := 0
  stop := 7
  ordered := by decide
  chain := by decide

/-- A search with a wildcard at the first position does not find the log of the section,
although `filterLogs` accepts it. -/
theorem wildcard_hides_indexed_log :
    ((newFilter oneLogSection wholeSection.start wholeSection.stop
        (FilterCriteria.ofQuery [] [.null])).logs oneLogSection).1 = [] ∧
      filterLogs wholeSection.allLogs none none (FilterCriteria.ofQuery [] [.null]) =
        [onlyLog] := by
  decide +kernel

end MoacVnode.Mc
