import MoacVnode.Consensus.Clique.Snapshot

/-!
# The window of recent signers

With `limit = len(Signers)/2 + 1`, the entries of the recent list after block `number` belong to the
blocks above `number - limit`.
-/

namespace MoacVnode.Consensus.Clique

open MoacVnode.Core Lib

variable {number : Nat} {headers : List Header} {config : CliqueConfig}
  {ecrecover : Header → Except CliqueError Address} {voting : Voting} {header : Header}

namespace Voting

variable {next : Voting}

theorem lookup_shiftRecents {block : Nat} {signer : Address} :
    (voting.shiftRecents number).recents.lookup block = some signer ↔
      voting.recents.lookup block = some signer ∧ block + voting.limit ≠ number := by
  unfold shiftRecents
  by_cases reached : voting.limit ≤ number
  · rw [if_pos reached]
    by_cases oldest : block = number - voting.limit
    · have shiftedOut : block + voting.limit = number := by omega
      subst oldest
      simp [shiftedOut]
    · have kept : block + voting.limit ≠ number := by omega
      simp [AList.lookup_erase_ne oldest, kept]
  · have kept : block + voting.limit ≠ number := by omega
    simp [reached, kept]

@[simp]
theorem shiftRecents_signers (number : Nat) :
    (voting.shiftRecents number).signers = voting.signers := by
  unfold shiftRecents
  split <;> rfl

@[simp]
theorem dropVotesAtEpoch_signers (number : Nat) :
    (voting.dropVotesAtEpoch config number).signers = voting.signers := by
  unfold dropVotesAtEpoch
  split <;> rfl

theorem shiftRecents_dropVotesAtEpoch_recents (number : Nat) :
    ((voting.dropVotesAtEpoch config number).shiftRecents number).recents =
      (voting.shiftRecents number).recents := by
  unfold dropVotesAtEpoch
  split <;> (unfold shiftRecents limit; split <;> rfl)

theorem applyHeader_cast (applied : voting.applyHeader config ecrecover header = .ok next) :
    ∃ signer, ecrecover header = .ok signer ∧ signer ∈ voting.signers ∧
      (∀ block, (voting.shiftRecents header.number).recents.lookup block ≠ some signer) ∧
      ∃ cast : Voting,
        cast.recents = ((voting.shiftRecents header.number).recordSigner header.number
          signer).recents ∧
        cast.signers = voting.signers ∧
        next = cast.updateSigners header.number header.coinbase := by
  obtain ⟨signer, authorize, authorized, -, nextEq⟩ := applyHeader_eq_ok.mp applied
  obtain ⟨recovered, mem, notRecent⟩ := resolveSigner_eq_ok.mp authorized
  rw [shiftRecents_signers, dropVotesAtEpoch_signers] at mem
  rw [recentAt_iff, shiftRecents_dropVotesAtEpoch_recents] at notRecent
  obtain ⟨votes, tallies, discarded⟩ :=
    (((voting.dropVotesAtEpoch config header.number).shiftRecents
      header.number).recordSigner header.number signer).discardPrevious_eq signer header.coinbase
  rw [discarded] at nextEq
  obtain ⟨laterVotes, laterTallies, added⟩ := addVote_eq
    { ((voting.dropVotesAtEpoch config header.number).shiftRecents
        header.number).recordSigner header.number signer with
      votes := votes, tally := tallies }
    ⟨signer, header.number, header.coinbase, authorize⟩
  rw [added] at nextEq
  refine ⟨signer, recovered, mem, fun block got => notRecent ⟨block, got, trivial⟩,
    _, ?_, ?_, nextEq⟩
  · exact congrArg (AList.insert header.number signer)
      (shiftRecents_dropVotesAtEpoch_recents header.number)
  · exact (shiftRecents_signers _).trans (dropVotesAtEpoch_signers _)

/-- The recent list holds signers of the last `limit` blocks only. -/
def RecentWindow (voting : Voting) (number : Nat) : Prop :=
  ∀ block signer, voting.recents.lookup block = some signer →
    block ≤ number ∧ number < block + voting.limit

namespace RecentWindow

section

variable (window : voting.RecentWindow number)

include window

theorem of_eq (sameRecents : next.recents = voting.recents)
    (sameSigners : next.signers = voting.signers) : next.RecentWindow number := by
  intro block signer got
  rw [sameRecents] at got
  unfold limit
  rw [sameSigners]
  exact window block signer got

theorem shiftRecents : (voting.shiftRecents (number + 1)).RecentWindow (number + 1) := by
  intro block signer got
  obtain ⟨present, notOldest⟩ := lookup_shiftRecents.mp got
  obtain ⟨le, lt⟩ := window block signer present
  unfold limit at *
  rw [shiftRecents_signers]
  omega

theorem recordSigner (signer : Address) :
    (voting.recordSigner number signer).RecentWindow number := by
  intro block got present
  by_cases current : block = number
  · subst current
    exact ⟨le_rfl, Nat.lt_add_of_pos_right (Nat.succ_pos _)⟩
  · have before : voting.recents.lookup block = some got := by
      rw [← AList.lookup_insert_ne current]
      exact present
    exact window block got before

theorem addSigner (addr : Address) : (voting.addSigner addr).RecentWindow number := by
  intro block signer got
  obtain ⟨le, lt⟩ := window block signer got
  have grows : voting.limit ≤ (voting.addSigner addr).limit := by
    have grows := Finset.card_le_card (Finset.subset_insert addr voting.signers)
    exact Nat.succ_le_succ (Nat.div_le_div_right grows)
  exact ⟨le, by omega⟩

theorem removeSigner (addr : Address) :
    ((voting.removeSigner addr).shiftRecents number).RecentWindow number := by
  intro block signer got
  obtain ⟨present, notOldest⟩ := lookup_shiftRecents.mp got
  obtain ⟨le, lt⟩ := window block signer present
  have shrinks : voting.limit ≤ (voting.removeSigner addr).limit + 1 := by
    have shrinks : voting.signers.card - 1 ≤ (voting.signers.erase addr).card :=
      Finset.pred_card_le_card_erase
    change voting.signers.card / 2 + 1 ≤ (voting.signers.erase addr).card / 2 + 1 + 1
    omega
  have sameLimit : ((voting.removeSigner addr).shiftRecents number).limit =
        (voting.removeSigner addr).limit := by
    unfold limit
    rw [shiftRecents_signers]
  exact ⟨le, by omega⟩

theorem updateSigners (addr : Address) :
    (voting.updateSigners number addr).RecentWindow number := by
  rcases voting.updateSigners_cases number addr with
    ⟨unchanged, -⟩ | ⟨tally, -, -, added⟩ | ⟨tally, -, -, removed⟩
  · rw [unchanged]
    exact window
  · rw [added]
    exact (window.addSigner addr).of_eq rfl rfl
  · rw [removed]
    obtain ⟨votes, tallies, discarded⟩ :=
      ((voting.removeSigner addr).shiftRecents number).discardVotesBy_eq addr
    rw [discarded]
    exact (window.removeSigner addr).of_eq rfl rfl

theorem applyHeader (numEq : header.number = number + 1)
    (applied : voting.applyHeader config ecrecover header = .ok next) :
    next.RecentWindow (number + 1) := by
  obtain ⟨signer, -, -, -, cast, castRecents, castSigners, nextEq⟩ := applyHeader_cast applied
  rw [numEq] at castRecents nextEq
  rw [nextEq]
  refine updateSigners ?_ header.coinbase
  exact (window.shiftRecents.recordSigner signer).of_eq castRecents
    (castSigners.trans (shiftRecents_signers _).symm)

end

end RecentWindow

end Voting

def NumberedAfter : Nat → List Header → Prop
  | _, [] => True
  | number, header :: headers => header.number = number + 1 ∧ NumberedAfter (number + 1) headers

theorem Contiguous.numberedAfter {first : Header} (contiguous : Contiguous (first :: headers))
    (firstNumber : first.number = next64 number)
    (fits : number + (first :: headers).length < uint64Size) :
    NumberedAfter number (first :: headers) := by
  induction headers generalizing number first with
  | nil => exact ⟨firstNumber.trans (next64_of_lt fits), trivial⟩
  | cons second rest ih =>
    rw [List.length_cons] at fits
    have numEq : first.number = number + 1 :=
      firstNumber.trans (next64_of_lt (by rw [List.length_cons] at fits; omega))
    refine ⟨numEq, ih contiguous.2 ?_ (by omega)⟩
    rw [← numEq]
    exact contiguous.1

theorem Voting.RecentWindow.run {last : Voting} (window : voting.RecentWindow number)
    (numEq : NumberedAfter number headers)
    (applied : Lib.run (Voting.applyHeader config ecrecover) voting headers = .ok last) :
    last.RecentWindow (number + headers.length) := by
  induction headers generalizing voting number with
  | nil =>
    cases applied
    exact window
  | cons header headers ih =>
    obtain ⟨next, taken, rest⟩ := run_cons_eq_ok.mp applied
    have later := ih (window.applyHeader numEq.1 taken) numEq.2 rest
    rwa [Nat.add_right_comm] at later

namespace Snapshot

variable {snap next last : Snapshot} {batches : List (List Header)}

theorem apply_window (window : snap.RecentWindow snap.number)
    (fits : snap.number + headers.length < uint64Size)
    (applied : snap.apply ecrecover headers = .ok next) :
    next.number = snap.number + headers.length ∧ next.RecentWindow next.number := by
  cases headers with
  | nil =>
    cases applied
    exact ⟨rfl, window⟩
  | cons first rest =>
    obtain ⟨contiguous, firstNumber, voting, ran, nextEq⟩ := apply_cons_eq_ok.mp applied
    have kept := window.run (contiguous.numberedAfter firstNumber fits) ran
    subst nextEq
    have sameNumber := Nat.mod_eq_of_lt fits
    refine ⟨sameNumber, ?_⟩
    rw [sameNumber]
    exact kept

theorem newSnapshot_window (config : CliqueConfig) (number : Nat) (hash : Hash)
    (signers : List Address) : (newSnapshot config number hash signers).RecentWindow number := by
  intro block signer got
  change (∅ : AList fun _ : Nat => Address).lookup block = some signer at got
  cases got

theorem reached_window {genesis : Nat} {genesisHash : Hash} {signers : List Address}
    (reached : run (apply ecrecover) (newSnapshot config genesis genesisHash signers) batches =
      .ok snap)
    (fits : genesis + batches.flatten.length + 1 < uint64Size) :
    snap.RecentWindow snap.number ∧ snap.number + 1 < uint64Size := by
  obtain ⟨sameNumber, window⟩ :=
    apply_window (newSnapshot_window config genesis genesisHash signers)
      (Nat.lt_of_succ_lt fits) (run_apply_eq_ok.mp reached)
  refine ⟨window, ?_⟩
  rw [sameNumber]
  exact fits

end Snapshot

end MoacVnode.Consensus.Clique
