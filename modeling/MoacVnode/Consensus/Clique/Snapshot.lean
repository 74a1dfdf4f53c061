import Mathlib.Data.List.AList
import MoacVnode.Core.Types
import MoacVnode.Lib.Run

/-!
# Voting snapshots of the clique engine

A snapshot records who may sign after a block: the signers, who signed
recently, the open votes and the cached tally of them.  `apply` makes the
snapshot after a list of headers from the snapshot before it.

Recovering the signer of a header is a parameter of the model.
-/

namespace MoacVnode.Consensus.Clique

open MoacVnode.Core Lib List

variable {first : Header} {rest later prior : List Header}

inductive CliqueError where
  | futureBlock
  | unknownAncestor
  | unknownBlock
  | invalidCheckpointBeneficiary
  | invalidVote
  | invalidCheckpointVote
  | missingVanity
  | missingSignature
  | extraSigners
  | invalidCheckpointSigners
  | invalidMixDigest
  | invalidUncleHash
  | invalidDifficulty
  | invalidVotingChain
  | unauthorized
  /-- `ecrecover` returned an error. -/
  | unrecoverable
  | crash (crash : Crash)
  deriving DecidableEq, Repr

/-- `params.CliqueConfig`; `New` replaces an epoch of zero by the default. -/
structure CliqueConfig where
  epoch : Nat
  epoch_pos : 0 < epoch

theorem thirtyThousand_pos : 0 < 30000 := by decide

structure Vote where
  signer : Address
  block : Nat
  address : Address
  authorize : Bool
  deriving DecidableEq, Repr

structure Tally where
  authorize : Bool
  votes : Nat
  deriving DecidableEq, Repr

/-- The part of a snapshot that the loop of `apply` changes. -/
structure Voting where
  signers : Finset Address
  recents : AList fun _ : Nat => Address := ∅
  votes : List Vote := []
  tally : AList fun _ : Address => Tally := ∅

structure Snapshot extends Voting where
  config : CliqueConfig
  number : Nat
  hash : Hash

def newSnapshot (config : CliqueConfig) (number : Nat) (hash : Hash)
    (signers : List Address) : Snapshot where
  config := config
  number := number
  hash := hash
  signers := signers.toFinset

def nonceAuthVote : BitVec 64 := 0xffffffffffffffff

def nonceDropVote : BitVec 64 := 0

def proposal (nonce : BitVec 64) : Except CliqueError Bool :=
  if nonce = nonceAuthVote then .ok true
  else if nonce = nonceDropVote then .ok false
  else .error .invalidVote

namespace Voting

variable {counts : Nat → Prop} {signer : Address} {header : Header}

variable (voting : Voting)

/-- `len(snap.Signers)/2 + 1`: a signer may sign one of so many blocks. -/
def limit : Nat := voting.signers.card / 2 + 1

variable (address : Address)

def validVote (authorize : Bool) : Bool :=
  let signer := decide (address ∈ voting.signers)
  (signer && !authorize) || (!signer && authorize)

/-- Count a vote; the flag says whether it was meaningful. -/
def cast (authorize : Bool) : Voting × Bool :=
  if voting.validVote address authorize = false then (voting, false)
  else
    match voting.tally.lookup address with
    | some old =>
      ({ voting with
          tally := voting.tally.insert address { old with votes := old.votes + 1 } }, true)
    | none => ({ voting with tally := voting.tally.insert address ⟨authorize, 1⟩ }, true)

def uncast (authorize : Bool) : Voting × Bool :=
  match voting.tally.lookup address with
  | none => (voting, false)
  | some tally =>
    if tally.authorize ≠ authorize then (voting, false)
    else if 1 < tally.votes then
      ({ voting with
          tally := voting.tally.insert address { tally with votes := tally.votes - 1 } }, true)
    else ({ voting with tally := voting.tally.erase address }, true)

/-- Checkpoint blocks remove all votes. -/
def dropVotesAtEpoch (config : CliqueConfig) (number : Nat) : Voting :=
  if number % config.epoch = 0 then { voting with votes := [], tally := ∅ }
  else voting

/-- Delete the signer that block `number` shifts out of the recent list. -/
def shiftRecents (number : Nat) : Voting :=
  if voting.limit ≤ number then
    { voting with recents := voting.recents.erase (number - voting.limit) }
  else voting

/-- The recent list holds an entry of the signer at a block that counts. -/
def RecentAt (counts : Nat → Prop) (signer : Address) : Prop :=
  ∃ entry ∈ voting.recents.entries, entry.2 = signer ∧ counts entry.1

instance (voting : Voting) (counts : Nat → Prop) [DecidablePred counts]
    (signer : Address) : Decidable (voting.RecentAt counts signer) :=
  inferInstanceAs (Decidable (∃ entry ∈ voting.recents.entries, entry.2 = signer ∧ counts entry.1))

/-- The signer of a header, unless it is no signer or the recent list holds it at a block that
counts. -/
def resolveSigner (ecrecover : Header → Except CliqueError Address) (counts : Nat → Prop)
    [DecidablePred counts] (header : Header) : Except CliqueError Address :=
  match ecrecover header with
  | .error error => .error error
  | .ok signer =>
    if signer ∉ voting.signers then .error .unauthorized
    else if voting.RecentAt counts signer then .error .unauthorized
    else .ok signer

/-- The signer checks of `apply`: every entry of the recent list counts. -/
def authorizedSigner (ecrecover : Header → Except CliqueError Address) (header : Header) :
    Except CliqueError Address :=
  voting.resolveSigner ecrecover (fun _ => True) header

def recordSigner (number : Nat) (signer : Address) : Voting :=
  { voting with recents := voting.recents.insert number signer }

def discardPrevious (signer address : Address) : Voting :=
  match voting.votes.find? fun vote => vote.signer = signer ∧ vote.address = address with
  | none => voting
  | some vote =>
    { (voting.uncast vote.address vote.authorize).1 with
      votes := voting.votes.eraseP fun vote => vote.signer = signer ∧ vote.address = address }

def addVote (vote : Vote) : Voting :=
  match voting.cast vote.address vote.authorize with
  | (counted, true) => { counted with votes := counted.votes ++ [vote] }
  | (kept, false) => kept

def uncastAll (voting : Voting) : List Vote → Voting
  | [] => voting
  | vote :: votes => uncastAll (voting.uncast vote.address vote.authorize).1 votes

def discardVotesBy : Voting :=
  { voting.uncastAll (voting.votes.filter fun vote => vote.signer = address) with
    votes := voting.votes.filter fun vote => vote.signer ≠ address }

def discardVotesAbout : Voting :=
  { voting with
    votes := voting.votes.filter fun vote => vote.address ≠ address
    tally := voting.tally.erase address }

def addSigner : Voting := { voting with signers := insert address voting.signers }

def removeSigner : Voting := { voting with signers := voting.signers.erase address }

/-- Carry out a proposal that has more than half of the votes. -/
def updateSigners (number : Nat) (address : Address) : Voting :=
  match voting.tally.lookup address with
  -- a missing tally reads as the zero tally, which has no votes
  | none => voting
  | some tally =>
    if voting.signers.card / 2 < tally.votes then
      if tally.authorize then (voting.addSigner address).discardVotesAbout address
      else
        (((voting.removeSigner address).shiftRecents number).discardVotesBy
          address).discardVotesAbout address
    else voting

variable (config : CliqueConfig) (ecrecover : Header → Except CliqueError Address)

def applyHeader (voting : Voting) (header : Header) : Except CliqueError Voting :=
  let shifted := (voting.dropVotesAtEpoch config header.number).shiftRecents header.number
  match shifted.authorizedSigner ecrecover header with
  | .error error => .error error
  | .ok signer =>
    let cleared :=
      (shifted.recordSigner header.number signer).discardPrevious signer header.coinbase
    match proposal header.nonce with
    | .error error => .error error
    | .ok authorize =>
      .ok ((cleared.addVote ⟨signer, header.number, header.coinbase, authorize⟩).updateSigners
          header.number header.coinbase)

variable {voting config ecrecover}

theorem uncast_eq (voting : Voting) (address : Address) (authorize : Bool) :
    ∃ tally, (voting.uncast address authorize).1 = { voting with tally := tally } := by
  unfold uncast
  split
  · exact ⟨voting.tally, rfl⟩
  · split
    · exact ⟨voting.tally, rfl⟩
    · split
      · exact ⟨_, rfl⟩
      · exact ⟨_, rfl⟩

theorem uncastAll_eq (voting : Voting) (votes : List Vote) :
    ∃ tally, voting.uncastAll votes = { voting with tally := tally } := by
  induction votes generalizing voting with
  | nil => exact ⟨voting.tally, rfl⟩
  | cons vote votes ih =>
    obtain ⟨first, firstEq⟩ := voting.uncast_eq vote.address vote.authorize
    obtain ⟨all, allEq⟩ := ih { voting with tally := first }
    exact ⟨all, by rw [uncastAll, firstEq, allEq]⟩

theorem discardPrevious_eq (voting : Voting) (signer address : Address) :
    ∃ votes tally, voting.discardPrevious signer address =
      { voting with votes := votes, tally := tally } := by
  unfold discardPrevious
  split
  · exact ⟨voting.votes, voting.tally, rfl⟩
  · rename_i vote _
    obtain ⟨tally, tallyEq⟩ := voting.uncast_eq vote.address vote.authorize
    rw [tallyEq]
    exact ⟨_, tally, rfl⟩

theorem addVote_eq (voting : Voting) (vote : Vote) :
    ∃ votes tally, voting.addVote vote = { voting with votes := votes, tally := tally } := by
  unfold addVote cast
  by_cases invalid : voting.validVote vote.address vote.authorize = false
  · rw [if_pos invalid]
    exact ⟨voting.votes, voting.tally, rfl⟩
  · rw [if_neg invalid]
    cases voting.tally.lookup vote.address with
    | none | some old => exact ⟨_, _, rfl⟩

theorem discardVotesBy_eq (voting : Voting) (address : Address) :
    ∃ votes tally, voting.discardVotesBy address =
      { voting with votes := votes, tally := tally } := by
  unfold discardVotesBy
  obtain ⟨tally, tallyEq⟩ := voting.uncastAll_eq
    (voting.votes.filter fun vote => vote.signer = address)
  rw [tallyEq]
  exact ⟨_, tally, rfl⟩

theorem recentAt_iff :
    voting.RecentAt counts signer ↔
      ∃ block, voting.recents.lookup block = some signer ∧ counts block := by
  constructor
  · intro ⟨entry, mem, same, counted⟩
    subst same
    exact ⟨entry.1, AList.mem_lookup_iff.mpr mem, counted⟩
  · intro ⟨block, got, counted⟩
    exact ⟨⟨block, signer⟩, AList.mem_lookup_iff.mp got, rfl, counted⟩

theorem resolveSigner_eq_ok [DecidablePred counts] :
    voting.resolveSigner ecrecover counts header = .ok signer ↔
      ecrecover header = .ok signer ∧ signer ∈ voting.signers ∧
        ¬ voting.RecentAt counts signer := by
  unfold resolveSigner
  cases ecrecover header with
  | error error => simp
  | ok got =>
    dsimp only
    by_cases mem : got ∈ voting.signers
    · by_cases recent : voting.RecentAt counts got
      · rw [if_neg (not_not.mpr mem), if_pos recent]
        refine ⟨nofun, ?_⟩
        rintro ⟨⟨⟩, -, notRecent⟩
        exact absurd recent notRecent
      · rw [if_neg (not_not.mpr mem), if_neg recent]
        refine ⟨?_, And.left⟩
        rintro ⟨⟩
        exact ⟨rfl, mem, recent⟩
    · rw [if_pos mem]
      refine ⟨nofun, ?_⟩
      rintro ⟨⟨⟩, authorized, -⟩
      exact absurd authorized mem

theorem updateSigners_cases (voting : Voting) (number : Nat) (address : Address) :
    (voting.updateSigners number address = voting ∧
      ∀ tally, voting.tally.lookup address = some tally → tally.votes ≤ voting.signers.card / 2) ∨
    (∃ tally, voting.tally.lookup address = some tally ∧
      tally.authorize = true ∧
      voting.updateSigners number address = (voting.addSigner address).discardVotesAbout address) ∨
    (∃ tally, voting.tally.lookup address = some tally ∧
      tally.authorize = false ∧
      voting.updateSigners number address =
        (((voting.removeSigner address).shiftRecents number).discardVotesBy
          address).discardVotesAbout address) := by
  unfold updateSigners
  cases got : voting.tally.lookup address with
  | none => exact .inl ⟨rfl, by simp⟩
  | some tally =>
    by_cases passed : voting.signers.card / 2 < tally.votes
    · cases direction : tally.authorize with
      | true =>
        refine .inr (.inl ⟨tally, rfl, direction, ?_⟩)
        simp only [passed, direction, if_true]
      | false =>
        refine .inr (.inr ⟨tally, rfl, direction, ?_⟩)
        simp only [passed, direction, if_true, Bool.false_eq_true, if_false]
    · refine .inl ⟨by simp only [passed, if_false], ?_⟩
      intro same sameEq
      cases sameEq
      exact not_lt.mp passed

theorem applyHeader_eq_ok {next : Voting} :
    voting.applyHeader config ecrecover header = .ok next ↔
      ∃ signer authorize,
        ((voting.dropVotesAtEpoch config header.number).shiftRecents
            header.number).authorizedSigner ecrecover header = .ok signer ∧
        proposal header.nonce = .ok authorize ∧
        next =
          ((((((voting.dropVotesAtEpoch config header.number).shiftRecents
              header.number).recordSigner header.number signer).discardPrevious
              signer header.coinbase).addVote
              ⟨signer, header.number, header.coinbase, authorize⟩).updateSigners
              header.number header.coinbase) := by
  unfold applyHeader
  dsimp only
  cases got : ((voting.dropVotesAtEpoch config header.number).shiftRecents
      header.number).authorizedSigner ecrecover header with
  | error error => simp
  | ok signer =>
    cases voted : proposal header.nonce with
    | error error => simp
    | ok authorize => simp [eq_comm]

end Voting

/-- Every header has the number after the one before it, on `uint64`. -/
def Contiguous : List Header → Prop
  | [] => True
  | [_] => True
  | header :: next :: headers => next.number = next64 header.number ∧ Contiguous (next :: headers)

instance Contiguous.decidable : (headers : List Header) → Decidable (Contiguous headers)
  | [] => inferInstanceAs (Decidable True)
  | [_] => inferInstanceAs (Decidable True)
  | header :: next :: headers =>
    @instDecidableAnd (next.number = next64 header.number) _ _
      (Contiguous.decidable (next :: headers))

theorem contiguous_append_cons {next : Header} :
    Contiguous (first :: rest ++ next :: later) ↔
      Contiguous (first :: rest) ∧
        next.number = next64 (rest.getLastD first).number ∧ Contiguous (next :: later) := by
  induction rest generalizing first with
  | nil => exact (true_and _).to_iff.symm
  | cons second rest ih =>
    have split := @ih second
    rw [getLastD_cons]
    exact (and_congr_right fun _ => split).trans and_assoc.symm

theorem Contiguous.last_number {number : Nat} (contiguous : Contiguous (first :: rest))
    (firstNumber : first.number = next64 number) :
    (rest.getLastD first).number = (number + (first :: rest).length) % uint64Size := by
  induction rest generalizing number first with
  | nil => exact firstNumber
  | cons second rest ih =>
    have secondNumber : second.number = next64 (number + 1) := by
      rw [contiguous.1, firstNumber, next64, next64, next64, Nat.mod_add_mod]
    rw [getLastD_cons, ih contiguous.2 secondNumber]
    simp only [length_cons]
    congr 1
    omega

namespace Snapshot

variable (ecrecover : Header → Except CliqueError Address) {snap next last : Snapshot}
  {headers : List Header} {batches : List (List Header)}

def apply (snap : Snapshot) : List Header → Except CliqueError Snapshot
  | [] => .ok snap
  | first :: rest =>
    if ¬ Contiguous (first :: rest) then .error .invalidVotingChain
    else if first.number ≠ next64 snap.number then .error .invalidVotingChain
    else
      match run (Voting.applyHeader snap.config ecrecover) snap.toVoting
          (first :: rest) with
      | .error error => .error error
      | .ok voting =>
        .ok
          { toVoting := voting
            config := snap.config
            number := (snap.number + (first :: rest).length) % uint64Size
            hash := (rest.getLastD first).hash }

variable {ecrecover}

theorem apply_cons_eq_ok :
    snap.apply ecrecover (first :: rest) = .ok next ↔
      Contiguous (first :: rest) ∧ first.number = next64 snap.number ∧
        ∃ voting,
          run (Voting.applyHeader snap.config ecrecover) snap.toVoting
            (first :: rest) = .ok voting ∧
          next =
            { toVoting := voting
              config := snap.config
              number := (snap.number + (first :: rest).length) % uint64Size
              hash := (rest.getLastD first).hash } := by
  rw [apply]
  by_cases contiguous : Contiguous (first :: rest)
  · by_cases numEq : first.number = next64 snap.number
    · rw [if_neg (not_not.mpr contiguous), if_neg (not_not.mpr numEq)]
      cases run (Voting.applyHeader snap.config ecrecover) snap.toVoting (first :: rest) with
      | error error => simp
      | ok voting => simp [contiguous, numEq, eq_comm]
    · simp [numEq]
  · simp [contiguous]

theorem apply_toVoting (applied : snap.apply ecrecover headers = .ok next) :
    run (Voting.applyHeader snap.config ecrecover) snap.toVoting headers = .ok next.toVoting := by
  cases headers with
  | nil =>
    cases applied
    rfl
  | cons first rest =>
    obtain ⟨-, -, voting, ran, nextEq⟩ := apply_cons_eq_ok.mp applied
    subst nextEq
    exact ran

theorem apply_cons_eq_error
    (refused : ¬ (Contiguous (first :: rest) ∧ first.number = next64 snap.number)) :
    snap.apply ecrecover (first :: rest) = .error .invalidVotingChain := by
  rw [apply]
  by_cases contiguous : Contiguous (first :: rest)
  · rw [if_neg (not_not.mpr contiguous), if_pos fun numEq => refused ⟨contiguous, numEq⟩]
  · rw [if_pos contiguous]

theorem apply_append_of_ok {snap mid : Snapshot} (later : List Header)
    (applied : snap.apply ecrecover prior = .ok mid) :
    snap.apply ecrecover (prior ++ later) = mid.apply ecrecover later := by
  cases prior with
  | nil =>
    cases applied
    rfl
  | cons first rest =>
    obtain ⟨contiguous, firstNumber, voting, ran, middleEq⟩ := apply_cons_eq_ok.mp applied
    cases later with
    | nil =>
      rw [append_nil, applied]
      rfl
    | cons next later =>
      have lastNumber : (rest.getLastD first).number = mid.number := by
        rw [middleEq]
        exact contiguous.last_number firstNumber
      have follows : Contiguous (first :: (rest ++ next :: later)) ↔
            Contiguous (next :: later) ∧ next.number = next64 mid.number := by
        refine contiguous_append_cons.trans ?_
        rw [lastNumber, and_iff_right contiguous, and_comm]
      have sameConfig : mid.config = snap.config := by rw [middleEq]
      have sameVoting : mid.toVoting = voting := by rw [middleEq]
      by_cases fits : Contiguous (next :: later) ∧ next.number = next64 mid.number
      · rw [cons_append, apply, apply, if_neg (not_not.mpr (follows.mpr fits)),
          if_neg (not_not.mpr firstNumber), if_neg (not_not.mpr fits.1),
          if_neg (not_not.mpr fits.2), sameConfig, sameVoting,
          ← run_append_of_ok (next :: later) ran, cons_append]
        cases run (Voting.applyHeader snap.config ecrecover) snap.toVoting
            (first :: (rest ++ next :: later)) with
        | error error => rfl
        | ok last =>
          have counted : (snap.number + (first :: (rest ++ next :: later)).length) %
              uint64Size = (mid.number + (next :: later).length) % uint64Size := by
            rw [middleEq, Nat.mod_add_mod]
            simp only [length_cons, length_append]
            congr 1
            omega
          have lastHash : (rest ++ next :: later).getLastD first = later.getLastD next := by
            simp [List.getLast?_append, List.getLast?_cons]
          rw [counted, lastHash]
      · rw [cons_append, apply_cons_eq_error fun both => fits (follows.mp both.1),
          apply_cons_eq_error fits]

theorem apply_append_eq_ok :
    snap.apply ecrecover (prior ++ later) = .ok last ↔
      ∃ mid, snap.apply ecrecover prior = .ok mid ∧ mid.apply ecrecover later = .ok last := by
  cases applied : snap.apply ecrecover prior with
  | ok mid =>
    rw [apply_append_of_ok later applied]
    simp
  | error error =>
    refine iff_of_false ?_ (by simp)
    intro together
    cases prior with
    | nil => cases applied
    | cons first rest =>
      rw [cons_append] at together
      obtain ⟨contiguous, firstNumber, voting, ran, -⟩ := apply_cons_eq_ok.mp together
      rw [← cons_append] at contiguous ran
      have firstContiguous : Contiguous (first :: rest) := by
        cases later with
        | nil => rwa [append_nil] at contiguous
        | cons next later => exact (contiguous_append_cons.mp contiguous).1
      obtain ⟨halfway, ranFirst, -⟩ := run_append_eq_ok.mp ran
      have ret := apply_cons_eq_ok.mpr ⟨firstContiguous, firstNumber, halfway, ranFirst, rfl⟩
      rw [applied] at ret
      cases ret

theorem run_apply_eq_ok :
    run (apply ecrecover) snap batches = .ok last ↔
      snap.apply ecrecover batches.flatten = .ok last := by
  induction batches generalizing snap with
  | nil => exact Iff.rfl
  | cons headers batches ih =>
    rw [run_cons_eq_ok, flatten_cons, apply_append_eq_ok]
    exact exists_congr fun mid => and_congr_right fun _ => ih

theorem newSnapshot_apply_number {config : CliqueConfig} {hash : Hash} {signers : List Address}
    (fits : headers.length < uint64Size)
    (applied : (newSnapshot config 0 hash signers).apply ecrecover headers = .ok snap) :
    snap.number = headers.length := by
  cases headers with
  | nil =>
    cases applied
    rfl
  | cons first rest =>
    obtain ⟨-, -, voting, -, nextEq⟩ := apply_cons_eq_ok.mp applied
    rw [nextEq]
    change (0 + (first :: rest).length) % uint64Size = _
    rw [Nat.zero_add, Nat.mod_eq_of_lt fits]

end Snapshot

end MoacVnode.Consensus.Clique
