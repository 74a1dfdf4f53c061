import MoacVnode.Consensus.Clique.Snapshot
import MoacVnode.Core.Bytes

/-!
# Retrieving a snapshot through the caches

`Clique.snapshot` walks back from a block until it finds a snapshot in memory, a
checkpoint snapshot on disk or the genesis block, and applies the headers it has
gathered on the way.  It keeps what it made in memory and, at checkpoints, on disk.

A stored snapshot is read back as it was written, and writing does not fail.  The
memory cache may drop entries at any time.
-/

namespace MoacVnode.Consensus.Clique

open MoacVnode.Core Lib List Snapshot

variable {snap base : Snapshot} {number : Nat} {hash top : Hash} {headers prior : List Header}

def checkpointInterval : Nat := 1024

def extraVanity : Nat := 32

def extraSeal : Nat := 65

structure ChainReader where
  /-- `chain.GetHeaderByNumber(0)`. -/
  genesis : Option Header
  getHeader : Hash → Nat → Option Header
  genesis_number : ∀ header, genesis = some header → header.number = 0
  getHeader_eq :
    ∀ {hash number header}, getHeader hash number = some header →
      header.hash = hash ∧ header.number = number

/-- The reader of a genesis block and the headers of a list. -/
def ChainReader.ofList (genesis : Header) (genesisNumber : genesis.number = 0)
    (headers : List Header) : ChainReader where
  genesis := some genesis
  getHeader hash number :=
    (genesis :: headers).find? fun header => header.hash = hash ∧ header.number = number
  genesis_number := by
    rintro header ⟨⟩
    exact genesisNumber
  getHeader_eq got := by simpa only [decide_eq_true_eq] using List.find?_some got

structure Engine where
  config : CliqueConfig
  ecrecover : Header → Except CliqueError Address
  /-- `types.CalcUncleHash(nil)`. -/
  uncleHash : Hash

/-- The snapshots in memory and those on disk, by the hash of their block. -/
structure Caches where
  recents : AList fun _ : Hash => Snapshot := ∅
  stored : AList fun _ : Hash => Snapshot := ∅

namespace Caches

variable (caches : Caches)

def store (snap : Snapshot) : Caches :=
  { caches with stored := caches.stored.insert snap.hash snap }

def remember (snap : Snapshot) : Caches :=
  { caches with recents := caches.recents.insert snap.hash snap }

def evict (hash : Hash) : Caches := { caches with recents := caches.recents.erase hash }

/-- A snapshot in memory, or one on disk if the number is one of a checkpoint. -/
def find (number : Nat) (hash : Hash) : Option Snapshot :=
  match caches.recents.lookup hash with
  | some snap => some snap
  | none => if number % checkpointInterval = 0 then caches.stored.lookup hash else none

def keep (snap : Snapshot) (isNew : Bool) : Caches :=
  if snap.number % checkpointInterval = 0 ∧ isNew then (caches.remember snap).store snap
  else caches.remember snap

def All (good : Hash → Snapshot → Prop) : Prop :=
  ∀ hash snap,
    caches.recents.lookup hash = some snap ∨ caches.stored.lookup hash = some snap → good hash snap

variable {caches : Caches} {good : Hash → Snapshot → Prop}

theorem all_empty (good : Hash → Snapshot → Prop) : All {} good := by
  intro hash snap got
  rcases got with got | got
  · cases got
  · cases got

@[simp]
theorem find_empty (number : Nat) (hash : Hash) : find {} number hash = none := by
  unfold find
  split
  · contradiction
  · split <;> rfl

theorem All.find (all : caches.All good) (got : caches.find number hash = some snap) :
    good hash snap := by
  unfold Caches.find at got
  cases inMemory : caches.recents.lookup hash with
  | some recent =>
    rw [inMemory] at got
    cases got
    exact all hash _ (.inl inMemory)
  | none =>
    rw [inMemory] at got
    dsimp only at got
    split at got
    · exact all hash snap (.inr got)
    · cases got

private theorem lookup_insert_cases {entries : AList fun _ : Hash => Snapshot} {key : Hash}
    {val got : Snapshot} (looked : (entries.insert key val).lookup hash = some got) :
    hash = key ∧ got = val ∨ entries.lookup hash = some got := by
  by_cases same : hash = key
  · subst same
    rw [AList.lookup_insert] at looked
    cases looked
    exact .inl ⟨rfl, rfl⟩
  · rw [AList.lookup_insert_ne same] at looked
    exact .inr looked

section

variable (all : caches.All good)

include all

section

variable (new : good snap.hash snap)

include new

theorem All.store : (caches.store snap).All good := by
  intro hash got looked
  rcases looked with looked | looked
  · exact all hash got (.inl looked)
  · rcases lookup_insert_cases looked with ⟨rfl, rfl⟩ | before
    · exact new
    · exact all hash got (.inr before)

theorem All.remember : (caches.remember snap).All good := by
  intro hash got looked
  rcases looked with looked | looked
  · rcases lookup_insert_cases looked with ⟨rfl, rfl⟩ | before
    · exact new
    · exact all hash got (.inl before)
  · exact all hash got (.inr looked)

theorem All.keep (isNew : Bool) : (caches.keep snap isNew).All good := by
  unfold Caches.keep
  split
  · exact (all.remember new).store new
  · exact all.remember new

end

theorem All.evict (hash : Hash) : (caches.evict hash).All good := by
  intro other got looked
  rcases looked with looked | looked
  · by_cases same : other = hash
    · subst same
      rw [Caches.evict, AList.lookup_erase] at looked
      cases looked
    · rw [Caches.evict, AList.lookup_erase_ne same] at looked
      exact all other got (.inl looked)
  · exact all other got (.inr looked)

end

end Caches

namespace Engine

/-- The checks of `verifyHeader` that need nothing but the header and the time. -/
def verifyFields (engine : Engine) (now : Nat) (header : Header) : Except CliqueError Unit :=
  let checkpoint := header.number % engine.config.epoch = 0
  let signersBytes := header.extra.length - extraVanity - extraSeal
  if now < header.time then .error .futureBlock
  else if checkpoint ∧ header.coinbase ≠ 0 then .error .invalidCheckpointBeneficiary
  else if header.nonce ≠ nonceAuthVote ∧ header.nonce ≠ nonceDropVote then .error .invalidVote
  else if checkpoint ∧ header.nonce ≠ nonceDropVote then .error .invalidCheckpointVote
  else if header.extra.length < extraVanity then .error .missingVanity
  else if header.extra.length < extraVanity + extraSeal then .error .missingSignature
  else if ¬ checkpoint ∧ signersBytes ≠ 0 then .error .extraSigners
  else if checkpoint ∧ signersBytes % addressLength ≠ 0 then .error .invalidCheckpointSigners
  else if header.mixDigest ≠ 0 then .error .invalidMixDigest
  else if header.uncleHash ≠ engine.uncleHash then .error .invalidUncleHash
  -- `diffInTurn` and `diffNoTurn`
  else if 0 < header.number ∧ header.difficulty ≠ 2 ∧ header.difficulty ≠ 1 then
    .error .invalidDifficulty
  else .ok ()

def listedSigners (extra : List UInt8) : List Address :=
  let count := (extra.length - extraVanity - extraSeal) / addressLength
  (List.range count).map fun idx =>
    bytesToAddress ((extra.drop (extraVanity + idx * addressLength)).take addressLength)

def genesisSnapshot (engine : Engine) (genesis : Header) : Snapshot :=
  newSnapshot engine.config 0 genesis.hash (listedSigners genesis.extra)

variable (engine : Engine) (now : Nat) (chain : ChainReader)

/-- The snapshot of the genesis block. The checks of a block zero end before those of its parent. -/
def startSnapshot : Except CliqueError Snapshot :=
  match chain.genesis with
  | none => .error (.crash .nilDereference)
  | some genesis =>
    match engine.verifyFields now genesis with
    | .error error => .error error
    | .ok () => .ok (engine.genesisSnapshot genesis)

/-- The header of a block on the way back, from the explicit parents as long as there are any. -/
def pickHeader (number : Nat) (hash : Hash) (parents : List Header) :
    Except CliqueError (Header × List Header) :=
  match parents.getLast? with
  | some header =>
    if header.hash ≠ hash ∨ header.number ≠ number then .error .unknownAncestor
    else .ok (header, parents.dropLast)
  | none =>
    match chain.getHeader hash number with
    | none => .error .unknownAncestor
    | some header => .ok (header, [])

/-- The first loop of `snapshot`: the snapshot it ends at and the headers above it, oldest first. -/
def gather (caches : Caches) :
    Nat → Hash → List Header → List Header → Caches × Except CliqueError (Snapshot × List Header)
  | number, hash, parents, headers =>
    match caches.find number hash with
    | some snap => (caches, .ok (snap, headers))
    | none =>
      match number with
      | 0 =>
        match engine.startSnapshot now chain with
        | .error error => (caches, .error error)
        | .ok snap => (caches.store snap, .ok (snap, headers))
      | number + 1 =>
        match pickHeader chain (number + 1) hash parents with
        | .error error => (caches, .error error)
        | .ok (header, parents) =>
          gather caches number header.parentHash parents (header :: headers)

def snapshot (caches : Caches) (number : Nat) (hash : Hash) (parents : List Header) :
    Caches × Except CliqueError Snapshot :=
  match engine.gather now chain caches number hash parents [] with
  | (caches, .error error) => (caches, .error error)
  | (caches, .ok (base, headers)) =>
    match base.apply engine.ecrecover headers with
    | .error error => (caches, .error error)
    | .ok snap => (caches.keep snap (decide (headers ≠ [])), .ok snap)

end Engine

structure Request where
  now : Nat
  chain : ChainReader
  number : Nat
  hash : Hash
  parents : List Header := []

structure Call extends Request where
  evicted : List Hash := []

namespace Engine

def ask (engine : Engine) (caches : Caches) (req : Request) :
    Caches × Except CliqueError Snapshot :=
  engine.snapshot req.now req.chain caches req.number req.hash req.parents

def serve (engine : Engine) (caches : Caches) (call : Call) : Caches :=
  call.evicted.foldl Caches.evict (engine.ask caches call.toRequest).1

end Engine

/-! ### Lines of headers -/

/-- The headers from block one to the block of a hash, each one linked to the header
before it. -/
inductive Lineage (known : Header → Prop) (bottom : Hash) : List Header → Hash → Prop
  | nil : Lineage known bottom [] bottom
  | snoc {headers : List Header} {header : Header}
      (prior : Lineage known bottom headers header.parentHash)
      (isKnown : known header) (numEq : header.number = headers.length + 1) :
      Lineage known bottom (headers ++ [header]) header.hash

/-- The hash below a line of headers that ends at `top`. -/
def bottomHash (top : Hash) : List Header → Hash
  | [] => top
  | first :: _ => first.parentHash

theorem bottomHash_append_singleton (top : Hash) (headers : List Header) (header : Header) :
    bottomHash top (headers ++ [header]) = bottomHash header.parentHash headers := by
  cases headers with
  | nil => rfl
  | cons first rest => rfl

namespace Lineage

variable {known : Header → Prop} {bottom root other : Hash} {others : List Header}

theorem bottom_eq (lineage : Lineage known bottom headers top) :
    bottomHash top headers = bottom := by
  induction lineage with
  | nil => rfl
  | @snoc headers header prior isKnown numEq ih =>
    cases headers with
    | nil => exact ih
    | cons first rest => exact ih

section

variable (injective : ∀ {left right}, known left → known right → left.hash = right.hash →
  left = right)

include injective

theorem unique (lineage : Lineage known bottom headers top)
    (same : Lineage known root others other) (sameTop : top = other)
    (sameLength : headers.length = others.length) : headers = others := by
  induction lineage generalizing others other with
  | nil => exact (length_eq_zero_iff.mp sameLength.symm).symm
  | @snoc headers header prior isKnown numEq ih =>
    cases same with
    | nil => simp at sameLength
    | @snoc others last earlierOther isKnownLast numberedLast =>
      have sameHeader : header = last := injective isKnown isKnownLast sameTop
      subst sameHeader
      rw [ih earlierOther rfl (by omega)]

theorem eq_nil_of_genesis {genesis : Header} (genesisKnown : known genesis)
    (genesisNumber : genesis.number = 0) (lineage : Lineage known bottom headers top)
    (atGenesis : top = genesis.hash) : headers = [] := by
  cases lineage with
  | nil => rfl
  | @snoc headers header prior isKnown numEq =>
    have isGenesis := injective isKnown genesisKnown atGenesis
    rw [isGenesis, genesisNumber] at numEq
    omega

end

end Lineage

/-! ### Cached snapshots are genuine -/

section

variable (engine : Engine) (genesis : Header) (known : Header → Prop)

/-- The snapshot is the one of a line of known headers. -/
structure LineSnapshot (headers : List Header) (hash : Hash) (snap : Snapshot) :
    Prop where
  line : ∃ bottom, Lineage known bottom headers hash
  fits : headers.length < uint64Size
  applied : (engine.genesisSnapshot genesis).apply engine.ecrecover headers = .ok snap

/-- A cached snapshot is the one of the block with its hash. -/
def Genuine (hash : Hash) (snap : Snapshot) : Prop :=
  snap.hash = hash ∧ ∃ headers, LineSnapshot engine genesis known headers hash snap

variable {engine genesis known}

theorem LineSnapshot.number_eq (line : LineSnapshot engine genesis known headers hash snap) :
    snap.number = headers.length :=
  newSnapshot_apply_number line.fits line.applied

theorem LineSnapshot.append {later : List Header}
    (line : LineSnapshot engine genesis known prior hash base)
    (longer : ∃ bottom, Lineage known bottom (prior ++ later) top)
    (fits : (prior ++ later).length < uint64Size)
    (applied : base.apply engine.ecrecover later = .ok snap) :
    LineSnapshot engine genesis known (prior ++ later) top snap :=
  ⟨longer, fits, by rw [apply_append_of_ok later line.applied, applied]⟩

theorem LineSnapshot.hash_eq (line : LineSnapshot engine genesis known headers hash snap)
    (nonempty : headers ≠ []) : snap.hash = hash := by
  obtain ⟨bottom, lineage⟩ := line.line
  cases lineage with
  | nil => exact absurd rfl nonempty
  | snoc prior isKnown numEq =>
    obtain ⟨mid, -, appliedLast⟩ := apply_append_eq_ok.mp line.applied
    obtain ⟨-, -, voting, -, nextEq⟩ := apply_cons_eq_ok.mp appliedLast
    rw [nextEq]
    rfl

structure Request.Within (req : Request) (known : Header → Prop) (genesis : Header) :
    Prop where
  genesis_eq : req.chain.genesis = some genesis
  chain_known : ∀ {hash number header}, req.chain.getHeader hash number = some header → known header
  parents_known : ∀ header ∈ req.parents, known header
  number_lt : req.number < uint64Size

variable {now : Nat} {chain : ChainReader} {caches after : Caches}
  {parents rest gathered : List Header} {header : Header} {start : Snapshot}

theorem pickHeader_eq_ok
    (chainKnown : ∀ {hash number header}, chain.getHeader hash number = some header → known header)
    (parentsKnown : ∀ header ∈ parents, known header)
    (picked : Engine.pickHeader chain number hash parents = .ok (header, rest)) :
    known header ∧ header.hash = hash ∧ header.number = number ∧ ∀ header ∈ rest, known header := by
  unfold Engine.pickHeader at picked
  cases last : parents.getLast? with
  | some got =>
    rw [last] at picked
    obtain ⟨matching, same⟩ := ite_error_eq_ok.mp picked
    obtain ⟨hashEq, numberEq⟩ := not_or.mp matching
    cases same
    exact ⟨parentsKnown header (mem_of_getLast? last), not_not.mp hashEq, not_not.mp numberEq,
      fun other mem => parentsKnown other (mem_of_mem_dropLast mem)⟩
  | none =>
    rw [last] at picked
    cases got : chain.getHeader hash number with
    | none =>
      rw [got] at picked
      cases picked
    | some stored =>
      rw [got] at picked
      cases picked
      obtain ⟨hashEq, numberEq⟩ := chain.getHeader_eq got
      exact ⟨chainKnown got, hashEq, numberEq, fun _ mem => (nomatch mem)⟩

theorem startSnapshot_eq_ok (genesisEq : chain.genesis = some genesis)
    (started : engine.startSnapshot now chain = .ok start) :
    start = engine.genesisSnapshot genesis := by
  unfold Engine.startSnapshot at started
  rw [genesisEq] at started
  cases verified : engine.verifyFields now genesis with
  | error error =>
    simp only [verified] at started
    cases started
  | ok passed =>
    simp only [verified] at started
    cases started
    rfl

/-- The headers extend every line that ends at the hash, with the number's length, to
one that ends at the top. -/
def Extends (known : Header → Prop) (number : Nat) (hash : Hash) (headers : List Header)
    (top : Hash) : Prop :=
  ∀ bottom prior, Lineage known bottom prior hash → prior.length = number →
    Lineage known bottom (prior ++ headers) top

theorem Extends.cons (extending : Extends known (number + 1) header.hash headers top)
    (isKnown : known header) (numEq : header.number = number + 1) :
    Extends known number header.parentHash (header :: headers) top := by
  intro bottom prior lineage sameLength
  have longer := extending bottom (prior ++ [header])
    (.snoc lineage isKnown (by rw [numEq, sameLength]))
    (by rw [length_append, sameLength, length_singleton])
  rwa [append_assoc] at longer

theorem Extends.nil : Extends known number top [] top := by
  intro bottom prior lineage _
  rwa [append_nil]

/-- What the first loop returns: the snapshot of a line, and headers that go on from
the block where the loop ended. -/
structure Gathered (engine : Engine) (genesis : Header) (known : Header → Prop)
    (number : Nat) (top : Hash) (base : Snapshot) (headers : List Header) : Prop where
  genuine : Genuine engine genesis known base.hash base
  meets :
    ∃ below hash prior, LineSnapshot engine genesis known prior hash base ∧
      Extends known below hash headers top ∧ below + headers.length = number ∧
      ∀ first ∈ headers.head?, first.number = below + 1

theorem gather_of_hit (hit : caches.find number hash = some snap) :
    engine.gather now chain caches number hash parents headers = (caches, .ok (snap, headers)) := by
  cases number <;> rw [Engine.gather, hit]

theorem gather_zero_of_miss (miss : caches.find 0 hash = none)
    (ret :
      engine.gather now chain caches 0 hash parents headers = (after, .ok (base, gathered))) :
    engine.startSnapshot now chain = .ok base ∧ gathered = headers := by
  rw [Engine.gather, miss] at ret
  cases started : engine.startSnapshot now chain with
  | error error =>
    simp only [started] at ret
    cases ret
  | ok start =>
    simp only [started] at ret
    cases ret
    exact ⟨rfl, rfl⟩

theorem gather_succ_of_miss (miss : caches.find (number + 1) hash = none)
    (ret : engine.gather now chain caches (number + 1) hash parents headers =
      (after, .ok (base, gathered))) :
    ∃ header rest, Engine.pickHeader chain (number + 1) hash parents = .ok (header, rest) ∧
      engine.gather now chain caches number header.parentHash rest (header :: headers) =
        (after, .ok (base, gathered)) := by
  rw [Engine.gather, miss] at ret
  cases picked : Engine.pickHeader chain (number + 1) hash parents with
  | error error =>
    simp only [picked] at ret
    cases ret
  | ok pair =>
    simp only [picked] at ret
    exact ⟨pair.1, pair.2, rfl, ret⟩

theorem gather_gathered (genesisEq : chain.genesis = some genesis)
    (chainKnown : ∀ {hash number header}, chain.getHeader hash number = some header → known header)
    (parentsKnown : ∀ header ∈ parents, known header)
    (cached : caches.All (Genuine engine genesis known))
    (extending : Extends known number hash headers top)
    (first : ∀ first ∈ headers.head?, first.number = number + 1)
    (ret :
      engine.gather now chain caches number hash parents headers = (after, .ok (base, gathered))) :
    Gathered engine genesis known (number + headers.length) top base gathered := by
  induction number using Nat.strongRecOn generalizing hash parents headers with
  | ind number ih =>
    cases hit : caches.find number hash with
    | some got =>
      rw [gather_of_hit hit] at ret
      cases ret
      obtain ⟨sameHash, prior, line⟩ := cached.find hit
      exact ⟨sameHash ▸ cached.find hit, number, hash, prior, line, extending, rfl, first⟩
    | none =>
      cases number with
      | zero =>
        obtain ⟨started, rfl⟩ := gather_zero_of_miss hit ret
        cases startSnapshot_eq_ok genesisEq started
        exact ⟨⟨rfl, [], ⟨_, .nil⟩, by decide, rfl⟩, 0, hash, [], ⟨⟨hash, .nil⟩, by decide, rfl⟩,
          extending, rfl, first⟩
      | succ number =>
        obtain ⟨header, rest, picked, continued⟩ := gather_succ_of_miss hit ret
        obtain ⟨isKnown, sameHash, numEq, restKnown⟩ :=
          pickHeader_eq_ok chainKnown parentsKnown picked
        subst sameHash
        have isFirst : ∀ first ∈ (header :: headers).head?, first.number = number + 1 := by
          intro first isFirst
          cases isFirst
          exact numEq
        have sameNumber : number + (header :: headers).length = number + 1 + headers.length := by
          rw [length_cons]
          omega
        rw [← sameNumber]
        exact ih number (Nat.lt_succ_self number) restKnown (extending.cons isKnown numEq)
          isFirst continued

theorem gather_caches (engine : Engine) (now : Nat) (chain : ChainReader) (caches : Caches)
    (number : Nat) (hash : Hash) (parents headers : List Header) :
    (engine.gather now chain caches number hash parents headers).1 = caches ∨
      ∃ start, engine.startSnapshot now chain = .ok start ∧
        (engine.gather now chain caches number hash parents headers).1 = caches.store start := by
  induction number generalizing hash parents headers with
  | zero =>
    rw [Engine.gather]
    cases caches.find 0 hash with
    | some got => exact .inl rfl
    | none =>
      cases started : engine.startSnapshot now chain with
      | error error => exact .inl rfl
      | ok start => exact .inr ⟨start, rfl, rfl⟩
  | succ number ih =>
    rw [Engine.gather]
    cases caches.find (number + 1) hash with
    | some got => exact .inl rfl
    | none =>
      cases Engine.pickHeader chain (number + 1) hash parents with
      | error error => exact .inl rfl
      | ok pair => exact ih pair.1.parentHash pair.2 (pair.1 :: headers)

theorem Gathered.genuine_of_apply (made : Gathered engine genesis known number top base headers)
    (fits : number < uint64Size) (applied : base.apply engine.ecrecover headers = .ok snap) :
    Genuine engine genesis known snap.hash snap := by
  obtain ⟨below, hash, prior, line, extending, counted, first⟩ := made.meets
  cases headers with
  | nil =>
    cases applied
    exact made.genuine
  | cons header rest =>
    obtain ⟨-, follows, -⟩ := apply_cons_eq_ok.mp applied
    have sameLength : prior.length = below := by
      rw [first header rfl, line.number_eq] at follows
      have earlierFits := line.fits
      unfold next64 uint64Size at *
      omega
    obtain ⟨bottom, lineage⟩ := line.line
    have longer := line.append ⟨bottom, extending bottom prior lineage sameLength⟩
      (by rw [length_append, sameLength, counted]; exact fits) applied
    refine ⟨rfl, prior ++ header :: rest, ?_⟩
    rw [longer.hash_eq (by simp)]
    exact longer

theorem snapshot_genuine {req : Request} (within : req.Within known genesis)
    (cached : caches.All (Genuine engine genesis known)) :
    (engine.ask caches req).1.All (Genuine engine genesis known) := by
  have gatheredCaches : (engine.gather req.now req.chain caches req.number req.hash
        req.parents []).1.All (Genuine engine genesis known) := by
    rcases gather_caches engine req.now req.chain caches req.number
        req.hash req.parents [] with same | ⟨start, started, stored⟩
    · rwa [same]
    · rw [stored]
      cases startSnapshot_eq_ok within.genesis_eq started
      exact cached.store ⟨rfl, [], ⟨_, .nil⟩, by decide, rfl⟩
  unfold Engine.ask Engine.snapshot
  cases ret : engine.gather req.now req.chain caches req.number req.hash req.parents [] with
  | mk after res =>
    rw [ret] at gatheredCaches
    cases res with
    | error error => exact gatheredCaches
    | ok pair =>
      obtain ⟨base, headers⟩ := pair
      dsimp only
      cases applied : base.apply engine.ecrecover headers with
      | error error => exact gatheredCaches
      | ok snap =>
        have made := gather_gathered within.genesis_eq within.chain_known
          within.parents_known cached Extends.nil
          (fun _ impossible => (nomatch impossible)) ret
        exact gatheredCaches.keep (made.genuine_of_apply within.number_lt applied) _

theorem served_genuine {calls : List Call} (within : ∀ call ∈ calls, call.Within known genesis)
    (cached : caches.All (Genuine engine genesis known)) :
    (calls.foldl engine.serve caches).All (Genuine engine genesis known) := by
  induction calls generalizing caches with
  | nil => exact cached
  | cons call calls ih =>
    apply ih fun other mem => within other (mem_cons_of_mem call mem)
    have asked := snapshot_genuine (within call mem_cons_self) cached
    unfold Engine.serve
    generalize (engine.ask caches call.toRequest).1 = kept at asked
    induction call.evicted generalizing kept with
    | nil => exact asked
    | cons hash evicted ih => exact ih _ (asked.evict hash)

/-! ### Caches do not change a result -/

theorem gather_fresh (genesisEq : chain.genesis = some genesis)
    (chainKnown : ∀ {hash number header}, chain.getHeader hash number = some header → known header)
    (parentsKnown : ∀ header ∈ parents, known header)
    (ret :
      engine.gather now chain {} number hash parents headers = (after, .ok (base, gathered))) :
    base = engine.genesisSnapshot genesis ∧
      ∃ bottom prior, gathered = prior ++ headers ∧ prior.length = number ∧
        Lineage known bottom prior hash := by
  induction number generalizing hash parents headers with
  | zero =>
    obtain ⟨started, rfl⟩ := gather_zero_of_miss (Caches.find_empty 0 hash) ret
    exact ⟨startSnapshot_eq_ok genesisEq started, hash, [], rfl, rfl, .nil⟩
  | succ number ih =>
    obtain ⟨header, rest, picked, continued⟩ := gather_succ_of_miss (Caches.find_empty _ hash) ret
    obtain ⟨isKnown, sameHash, numEq, restKnown⟩ := pickHeader_eq_ok chainKnown parentsKnown picked
    subst sameHash
    obtain ⟨isGenesis, bottom, prior, split, sameLength, lineage⟩ := ih restKnown continued
    refine ⟨isGenesis, bottom, prior ++ [header], ?_, ?_, ?_⟩
    · rw [split, append_assoc]
      rfl
    · rw [length_append, sameLength, length_singleton]
    · exact .snoc lineage isKnown (by rw [numEq, sameLength])

theorem Genuine.apply_line
    (injective : ∀ {left right}, known left → known right → left.hash = right.hash → left = right)
    (genesisKnown : known genesis) (genesisNumber : genesis.number = 0)
    (genuine : Genuine engine genesis known hash snap)
    (lineage : Lineage known genesis.hash headers hash) :
    (engine.genesisSnapshot genesis).apply engine.ecrecover headers = .ok snap := by
  obtain ⟨sameHash, others, line⟩ := genuine
  obtain ⟨bottom, other⟩ := line.line
  have sameLength : headers.length = others.length := by
    by_cases atGenesis : hash = genesis.hash
    · rw [lineage.eq_nil_of_genesis injective genesisKnown genesisNumber atGenesis,
        other.eq_nil_of_genesis injective genesisKnown genesisNumber atGenesis]
    · -- both lines have a last header, which the hash determines
      generalize topEq : hash = top at other
      cases lineage with
      | nil => exact absurd rfl atGenesis
      | @snoc headers last prior isKnown numEq =>
        cases other with
        | nil =>
          have isGenesis := line.applied
          cases isGenesis
          exact absurd sameHash.symm atGenesis
        | @snoc others otherLast earlierOther otherKnown otherNumbered =>
          have sameLast := injective isKnown otherKnown topEq
          rw [length_append, length_append, length_singleton,
            length_singleton, ← numEq, ← otherNumbered, sameLast]
  rw [lineage.unique injective other rfl sameLength]
  exact line.applied

section

variable
  (injective : ∀ {left right}, known left → known right → left.hash = right.hash → left = right)
  (genesisKnown : known genesis) (genesisEq : chain.genesis = some genesis)
  (chainKnown : ∀ {hash number header}, chain.getHeader hash number = some header → known header)
  (cached : caches.All (Genuine engine genesis known))

include injective genesisKnown genesisEq chainKnown cached

section

variable (parentsKnown : ∀ header ∈ parents, known header)

include parentsKnown

section

variable (rooted : bottomHash hash prior = genesis.hash)
  (fresh : engine.gather now chain {} number hash parents headers =
    (after, .ok (start, prior ++ headers)))

include rooted fresh

theorem find_agrees (hit : caches.find number hash = some snap) :
    start.apply engine.ecrecover prior = .ok snap := by
  obtain ⟨isGenesis, bottom, below, split, -, lineage⟩ :=
    gather_fresh genesisEq chainKnown parentsKnown fresh
  cases append_cancel_right split
  rw [lineage.bottom_eq] at rooted
  subst rooted
  rw [isGenesis]
  exact (cached.find hit).apply_line injective genesisKnown
    (chain.genesis_number genesis genesisEq) lineage

theorem gather_agrees :
    ∃ after base gathered skipped,
      engine.gather now chain caches number hash parents headers = (after, .ok (base, gathered)) ∧
      prior ++ headers = skipped ++ gathered ∧
      start.apply engine.ecrecover skipped = .ok base := by
  induction number using Nat.strongRecOn generalizing hash parents headers prior with
  | ind number ih =>
    cases hit : caches.find number hash with
    | some snap =>
      have skipped := find_agrees injective genesisKnown genesisEq chainKnown cached
        parentsKnown rooted fresh hit
      exact ⟨caches, snap, headers, prior, gather_of_hit hit, rfl, skipped⟩
    | none =>
      cases number with
      | zero =>
        obtain ⟨started, sameHeaders⟩ := gather_zero_of_miss (Caches.find_empty 0 hash) fresh
        rw [Engine.gather, hit, started]
        exact ⟨_, start, headers, [], rfl, sameHeaders, rfl⟩
      | succ number =>
        obtain ⟨header, rest, picked, continued⟩ :=
          gather_succ_of_miss (Caches.find_empty _ hash) fresh
        rw [Engine.gather, hit, picked]
        obtain ⟨-, -, -, restKnown⟩ := pickHeader_eq_ok chainKnown parentsKnown picked
        obtain ⟨-, bottom, below, split, -, -⟩ :=
          gather_fresh genesisEq chainKnown restKnown continued
        have sameEarlier : prior = below ++ [header] :=
          append_cancel_right (split.trans (append_cons below header headers))
        subst sameEarlier
        rw [bottomHash_append_singleton] at rooted
        rw [append_assoc] at continued ⊢
        exact ih number (Nat.lt_succ_self number) restKnown rooted continued

end

theorem snapshot_agrees (rooted : bottomHash hash headers = genesis.hash)
    (fresh : engine.gather now chain {} number hash parents [] = (after, .ok (start, headers))) :
    (engine.snapshot now chain caches number hash parents).2 =
      (engine.snapshot now chain {} number hash parents).2 := by
  have whole := fresh
  rw [← append_nil headers] at whole
  obtain ⟨others, base, gathered, skipped, ret, split, applied⟩ :=
    gather_agrees injective genesisKnown genesisEq chainKnown cached parentsKnown rooted whole
  have sameResult :
      start.apply engine.ecrecover headers = base.apply engine.ecrecover gathered := by
    rw [← apply_append_of_ok gathered applied, ← split, append_nil]
  rw [Engine.snapshot, Engine.snapshot, fresh, ret]
  dsimp only
  rw [sameResult]
  cases base.apply engine.ecrecover gathered with
  | error error => rfl
  | ok snap => rfl

end

end

end

/-- Headers may be applied in several batches, and a call whose walk reaches the genesis block
without caches returns the same with the caches of any run of calls. -/
theorem snapshot_independent_of_caches (engine : Engine) (genesis : Header) (known : Header → Prop)
    (injective : ∀ left right, known left → known right → left.hash = right.hash → left = right)
    (genesisKnown : known genesis) :
    (∀ (snap last : Snapshot) (prior later : List Header),
      snap.apply engine.ecrecover (prior ++ later) = .ok last ↔
        ∃ mid, snap.apply engine.ecrecover prior = .ok mid ∧
          mid.apply engine.ecrecover later = .ok last) ∧
    ∀ (calls : List Call) (req : Request),
      (∀ call ∈ calls, call.Within known genesis) → req.Within known genesis →
      ∀ (after : Caches) (start : Snapshot) (headers : List Header),
        engine.gather req.now req.chain {} req.number req.hash
          req.parents [] = (after, .ok (start, headers)) →
        bottomHash req.hash headers = genesis.hash →
        (engine.ask (calls.foldl engine.serve {}) req).2 = (engine.ask {} req).2 := by
  refine ⟨fun _ _ _ _ => apply_append_eq_ok, ?_⟩
  intro calls req callsWithin within after start headers fresh rooted
  have cached := served_genuine callsWithin (Caches.all_empty (Genuine engine genesis known))
  exact snapshot_agrees (fun {left right} => injective left right) genesisKnown
    within.genesis_eq within.chain_known cached within.parents_known rooted fresh

/-! ### A chain of two blocks -/

private def soloEngine : Engine where
  config := ⟨30000, thirtyThousand_pos⟩
  ecrecover _ := .ok 0
  uncleHash := 0

private def soloGenesis : Header where
  hash := 1
  parentHash := 0
  extra := List.replicate (32 + 20 + 65) 0

private def soloFirst : Header where
  hash := 2
  parentHash := 1
  coinbase := 7
  number := 1

private def soloSecond : Header where
  hash := 3
  parentHash := 2
  coinbase := 7
  number := 2

private def soloRequest (number : Nat) (hash : Hash) : Request where
  now := 0
  chain := .ofList soloGenesis rfl [soloFirst, soloSecond]
  number := number
  hash := hash

private theorem soloRequest_within (number : Nat) (hash : Hash) (fits : number < uint64Size) :
    (soloRequest number hash).Within (· ∈ [soloGenesis, soloFirst, soloSecond]) soloGenesis where
  genesis_eq := rfl
  chain_known := mem_of_find?_eq_some
  parents_known := fun _ mem => (nomatch mem)
  number_lt := fits

/-- With the snapshot of block one in memory, the snapshot of block two is the same. -/
theorem snapshot_independent_of_caches_solo :
    (∃ snap, (soloEngine.ask {} (soloRequest 2 3)).2 = .ok snap ∧ snap.number = 2) ∧
      (soloEngine.ask ([{ toRequest := soloRequest 1 2 }].foldl soloEngine.serve {})
        (soloRequest 2 3)).2 = (soloEngine.ask {} (soloRequest 2 3)).2 := by
  refine ⟨by decide +kernel, ?_⟩
  have known : ∀ left ∈ [soloGenesis, soloFirst, soloSecond],
      ∀ right ∈ [soloGenesis, soloFirst, soloSecond], left.hash = right.hash → left = right := by
    decide
  refine (snapshot_independent_of_caches soloEngine soloGenesis _
    (fun left right leftMem rightMem => known left leftMem right rightMem)
    mem_cons_self).2 [{ toRequest := soloRequest 1 2 }] (soloRequest 2 3) ?_
    (soloRequest_within 2 3 (by decide)) _ (soloEngine.genesisSnapshot soloGenesis)
    [soloFirst, soloSecond] rfl rfl
  intro call mem
  rw [mem_singleton.mp mem]
  exact soloRequest_within 1 2 (by decide)

/-- A header that was only passed as an explicit parent is not in the database, but its snapshot is
in memory. -/
theorem snapshot_found_without_header :
    ∃ snap,
      (soloEngine.ask (soloEngine.serve {}
          { now := 0, chain := .ofList soloGenesis rfl [], number := 1, hash := 2
            parents := [soloFirst] })
        { now := 0, chain := .ofList soloGenesis rfl [], number := 1, hash := 2 }).2 = .ok snap ∧
      snap.hash = 2 ∧
      (soloEngine.ask {}
        { now := 0, chain := .ofList soloGenesis rfl [], number := 1, hash := 2 }).2 =
          .error .unknownAncestor := by
  decide +kernel

end MoacVnode.Consensus.Clique
