import MoacVnode.Consensus.Clique.VoteAccounting

/-!
# How large a tally can be

The header that votes on an address leaves at most half of the signers behind the proposal: with
more the proposal passes and its tally is gone.
-/

namespace MoacVnode.Consensus.Clique

open MoacVnode.Core Lib AList Snapshot

variable {authorize : Bool} {count : Nat}

def NotGrown (addr : Address) (before after : AList fun _ : Address => Tally) :
    Prop :=
  ∀ tally, after.lookup addr = some tally →
    ∃ old, before.lookup addr = some old ∧ tally.votes ≤ old.votes

namespace NotGrown

variable {addr : Address} {first second third : AList fun _ : Address => Tally}

theorem of_lookup_eq (same : second.lookup addr = first.lookup addr) :
    NotGrown addr first second := by
  intro tally got
  exact ⟨tally, same.symm.trans got, le_rfl⟩

theorem of_lookup_eq_none (missing : second.lookup addr = none) : NotGrown addr first second := by
  intro tally got
  cases missing.symm.trans got

theorem trans (prior : NotGrown addr first second)
    (later : NotGrown addr second third) : NotGrown addr first third := by
  intro tally got
  obtain ⟨mid, middleFound, middleLe⟩ := later tally got
  obtain ⟨old, oldFound, oldLe⟩ := prior mid middleFound
  exact ⟨old, oldFound, middleLe.trans oldLe⟩

section

variable (voting : Voting)

include voting

theorem uncast (addr voted : Address) (authorize : Bool) :
    NotGrown addr voting.tally (voting.uncast voted authorize).1.tally := by
  by_cases about : addr = voted
  · subst about
    unfold Voting.uncast
    cases got : voting.tally.lookup addr with
    | none => exact of_lookup_eq rfl
    | some old =>
      dsimp only
      split
      · exact of_lookup_eq rfl
      · split
        · intro tally lookupEq
          rw [lookup_insert] at lookupEq
          cases lookupEq
          exact ⟨old, got, Nat.sub_le _ _⟩
        · exact of_lookup_eq_none (lookup_erase _ _)
  · exact of_lookup_eq (Voting.lookup_uncast_of_ne about authorize)

theorem uncastAll (addr : Address) (votes : List Vote) :
    NotGrown addr voting.tally (voting.uncastAll votes).tally := by
  induction votes generalizing voting with
  | nil => exact of_lookup_eq rfl
  | cons vote votes ih => exact (uncast voting addr vote.address vote.authorize).trans (ih _)

theorem dropVotesAtEpoch (config : CliqueConfig) (num : Nat) (addr : Address) :
    NotGrown addr voting.tally (voting.dropVotesAtEpoch config num).tally := by
  unfold Voting.dropVotesAtEpoch
  split
  · exact of_lookup_eq_none (lookup_empty addr)
  · exact of_lookup_eq rfl

theorem discardPrevious (signer voted addr : Address) :
    NotGrown addr voting.tally (voting.discardPrevious signer voted).tally := by
  rcases voting.discardPrevious_cases signer voted with
    ⟨unchanged, -⟩ | ⟨vote, prior, later, -, -, -, discarded⟩
  · rw [unchanged]
    exact of_lookup_eq rfl
  · rw [discarded]
    exact uncast voting addr vote.address vote.authorize

theorem addVote {vote : Vote} (ne : addr ≠ vote.address) :
    NotGrown addr voting.tally (voting.addVote vote).tally := by
  unfold Voting.addVote
  have kept := voting.lookup_cast_of_ne ne vote.authorize
  split
  · rename_i counted castEq
    rw [castEq] at kept
    exact of_lookup_eq kept
  · rename_i unchanged castEq
    rw [castEq] at kept
    exact of_lookup_eq kept

theorem updateSigners (num : Nat) {voted : Address} (ne : addr ≠ voted) :
    NotGrown addr voting.tally (voting.updateSigners num voted).tally := by
  rcases voting.updateSigners_cases num voted with
    ⟨unchanged, -⟩ | ⟨tally, -, -, added⟩ | ⟨tally, -, -, removed⟩
  · rw [unchanged]
    exact of_lookup_eq rfl
  · rw [added]
    exact of_lookup_eq (lookup_erase_ne ne)
  · rw [removed]
    obtain ⟨recents, shifted⟩ := (voting.removeSigner voted).shiftRecents_eq num
    rw [shifted]
    exact (uncastAll { voting.removeSigner voted with recents := recents } addr
      _).trans (of_lookup_eq (lookup_erase_ne ne))

end

end NotGrown

namespace Voting

variable {voting next last : Voting} {config : CliqueConfig}
  {ecrecover : Header → Except CliqueError Address} {header : Header} {addr : Address}
  {tally : Tally}

theorem shiftRecents_tally (voting : Voting) (num : Nat) :
    (voting.shiftRecents num).tally = voting.tally := by
  obtain ⟨recents, shifted⟩ := voting.shiftRecents_eq num
  rw [shifted]

theorem applyHeader_notGrown (applied : voting.applyHeader config ecrecover header = .ok next)
    (ne : header.coinbase ≠ addr) : NotGrown addr voting.tally next.tally := by
  obtain ⟨signer, authorize, -, -, nextEq⟩ := applyHeader_eq_ok.mp applied
  rw [nextEq]
  have shifted : NotGrown addr (voting.dropVotesAtEpoch config header.number).tally
        (((voting.dropVotesAtEpoch config header.number).shiftRecents
          header.number).recordSigner header.number signer).tally :=
    .of_lookup_eq (congrArg (AList.lookup addr) (shiftRecents_tally _ header.number))
  exact (NotGrown.dropVotesAtEpoch voting config header.number addr).trans <| shifted.trans <|
    (NotGrown.discardPrevious _ signer header.coinbase addr).trans <|
    (NotGrown.addVote _ ne.symm).trans <|
    NotGrown.updateSigners _ header.number ne.symm

theorem applyHeader_tally_le (applied : voting.applyHeader config ecrecover header = .ok next)
    (got : next.tally.lookup header.coinbase = some tally) :
    tally.votes ≤ next.signers.card / 2 := by
  obtain ⟨signer, authorize, -, -, nextEq⟩ := applyHeader_eq_ok.mp applied
  rcases updateSigners_cases (((((voting.dropVotesAtEpoch config header.number).shiftRecents
        header.number).recordSigner header.number signer).discardPrevious signer
        header.coinbase).addVote ⟨signer, header.number, header.coinbase, authorize⟩)
      header.number header.coinbase with
    ⟨unchanged, atMostHalf⟩ | ⟨_, -, -, added⟩ | ⟨_, -, -, removed⟩
  · rw [nextEq, unchanged] at got ⊢
    exact atMostHalf tally got
  · rw [nextEq, added] at got
    cases (lookup_erase _ _).symm.trans got
  · rw [nextEq, removed] at got
    cases (lookup_erase _ _).symm.trans got

theorem run_tally_le {headers : List Header}
    (ran : run (applyHeader config ecrecover) voting headers = .ok last)
    (got : last.tally.lookup addr = some tally) :
    (∃ prior header later touched, headers = prior ++ header :: later ∧
      header.coinbase = addr ∧ (∀ other ∈ later, other.coinbase ≠ addr) ∧
      run (applyHeader config ecrecover) voting (prior ++ [header]) = .ok touched ∧
      tally.votes ≤ touched.signers.card / 2) ∨
    ((∀ other ∈ headers, other.coinbase ≠ addr) ∧
      ∃ old, voting.tally.lookup addr = some old ∧ tally.votes ≤ old.votes) := by
  induction headers generalizing voting with
  | nil =>
    cases ran
    exact .inr ⟨List.forall_mem_nil _, tally, got, le_rfl⟩
  | cons header headers ih =>
    obtain ⟨next, taken, rest⟩ := run_cons_eq_ok.mp ran
    rcases ih rest with
      ⟨prior, touching, later, touched, split, onAddress, untouched, reached,
        atMostHalf⟩ | ⟨untouched, old, oldFound, oldLe⟩
    · refine .inl ⟨header :: prior, touching, later, touched,
        congrArg (header :: ·) split, onAddress, untouched, ?_, atMostHalf⟩
      rw [List.cons_append, run_cons_of_ok _ taken]
      exact reached
    · by_cases onAddress : header.coinbase = addr
      · refine .inl ⟨[], header, headers, next, rfl, onAddress, untouched, ?_, ?_⟩
        · exact run_cons_of_ok [] taken
        · rw [← onAddress] at oldFound
          exact oldLe.trans (applyHeader_tally_le taken oldFound)
      · obtain ⟨older, olderFound, olderLe⟩ := applyHeader_notGrown taken onAddress old oldFound
        exact .inr ⟨List.forall_mem_cons.mpr ⟨onAddress, untouched⟩, older,
          olderFound, oldLe.trans olderLe⟩

end Voting

theorem tallyOf_isSome : (tallyOf authorize count).isSome ↔ 0 < count := by
  cases count with
  | zero => exact iff_of_false nofun (lt_irrefl 0)
  | succ count => exact iff_of_true rfl (Nat.succ_pos count)

theorem tallyOf_eq_some {tally : Tally} (got : tallyOf authorize count = some tally) :
    tally.votes = count ∧ tally.authorize = authorize := by
  cases count with
  | zero => cases got
  | succ count =>
    cases got
    exact ⟨rfl, rfl⟩

/-- In every reachable snapshot a signer has at most one vote about an address, votes are cast by
signers, the tally of an address stands for the votes about it, all opposite to its membership, and
no tally exceeds half of the signers after the last header that voted on its address. -/
theorem votes_accounted (ecrecover : Header → Except CliqueError Address) (config : CliqueConfig)
    (num : Nat) (hash : Hash) (signers : List Address)
    (batches : List (List Header)) (snap : Snapshot)
    (reached :
      run (apply ecrecover) (newSnapshot config num hash signers) batches = .ok snap) :
    (snap.votes.map fun vote => (vote.signer, vote.address)).Nodup ∧
    (∀ vote ∈ snap.votes, vote.signer ∈ snap.signers) ∧
    (∀ addr,
      ((snap.tally.lookup addr).isSome ↔ ∃ vote ∈ snap.votes, vote.address = addr) ∧
      ∀ tally, snap.tally.lookup addr = some tally →
        tally.votes = snap.votes.countP (fun vote => vote.address = addr) ∧
        (∀ vote ∈ snap.votes, vote.address = addr → vote.authorize = tally.authorize) ∧
        tally.authorize = decide (addr ∉ snap.signers)) ∧
    (∀ addr tally, snap.tally.lookup addr = some tally →
      ∃ prior header later touched, batches.flatten = prior ++ header :: later ∧
        header.coinbase = addr ∧
        (∀ other ∈ later, other.coinbase ≠ addr) ∧
        run (Voting.applyHeader config ecrecover) (newSnapshot config num hash signers).toVoting
          (prior ++ [header]) = .ok touched ∧
        tally.votes ≤ touched.signers.card / 2) := by
  have ran := apply_toVoting (run_apply_eq_ok.mp reached)
  have accounted : Accounted snap.toVoting :=
    run_keeps Accounted (fun kept taken => kept.applyHeader taken) (.of_no_votes rfl rfl) ran
  refine ⟨accounted.once, accounted.bySigners, fun addr => ⟨?_, ?_⟩, ?_⟩
  · rw [accounted.counted.lookup, tallyOf_isSome, votesAbout, List.countP_pos_iff]
    simp only [decide_eq_true_eq]
  · intro tally got
    rw [accounted.counted.lookup] at got
    obtain ⟨votesEq, authorizeEq⟩ := tallyOf_eq_some got
    refine ⟨votesEq, fun vote mem about => ?_, authorizeEq⟩
    rw [accounted.counted.oneDirection vote mem, authorizeEq, about]
  · intro addr tally got
    rcases Voting.run_tally_le ran got with touched | ⟨-, old, oldFound, -⟩
    · exact touched
    · cases (lookup_empty addr).symm.trans oldFound

private def voteConfig : CliqueConfig := ⟨30000, thirtyThousand_pos⟩

private def rotatingSigner (header : Header) : Except CliqueError Address :=
  .ok (BitVec.ofNat 160 ((header.number - 1) % 3 + 1))

private def voteHeader (num : Nat) (coinbase : Address) (nonce : BitVec 64) : Header where
  hash := BitVec.ofNat 256 num
  parentHash := BitVec.ofNat 256 (num - 1)
  number := num
  coinbase := coinbase
  nonce := nonce

private def removalHeaders : List Header :=
  [voteHeader 1 5 nonceAuthVote, voteHeader 2 5 nonceAuthVote,
    voteHeader 3 4 nonceDropVote, voteHeader 4 4 nonceDropVote,
    voteHeader 5 4 nonceDropVote]

/-- Two of the three signers that are left stand behind account 5, which is not
authorized. -/
theorem removal_leaves_majority :
    ∃ snap,
      run (apply rotatingSigner) (newSnapshot voteConfig 0 0 [1, 2, 3, 4])
        [removalHeaders] = .ok snap ∧
      5 ∉ snap.signers ∧
      snap.tally.lookup 5 = some ⟨true, 2⟩ ∧
      snap.signers.card / 2 < 2 := by
  decide +kernel

/-- Account 5 had half of the four signers behind it when it was last voted
on. -/
theorem votes_accounted_after_removal :
    ∃ snap,
      run (apply rotatingSigner) (newSnapshot voteConfig 0 0 [1, 2, 3, 4])
        [removalHeaders] = .ok snap ∧
      (snap.votes.map fun vote => (vote.signer, vote.address)).Nodup ∧
      ∃ prior header later touched, [removalHeaders].flatten = prior ++ header :: later ∧
        header.coinbase = 5 ∧
        run (Voting.applyHeader voteConfig rotatingSigner)
          (newSnapshot voteConfig 0 0 [1, 2, 3, 4]).toVoting
          (prior ++ [header]) = .ok touched ∧
        2 ≤ touched.signers.card / 2 := by
  obtain ⟨snap, reached, got⟩ :
      ∃ snap,
        run (apply rotatingSigner)
          (newSnapshot voteConfig 0 0 [1, 2, 3, 4]) [removalHeaders] = .ok snap ∧
        snap.tally.lookup 5 = some ⟨true, 2⟩ := by
    decide +kernel
  obtain ⟨once, -, -, bounded⟩ :=
    votes_accounted rotatingSigner voteConfig 0 0 [1, 2, 3, 4] [removalHeaders] snap reached
  obtain ⟨prior, header, later, touched, split, onAddress, -, ran, atMostHalf⟩ := bounded 5 _ got
  exact ⟨snap, reached, once, prior, header, later, touched, split, onAddress, ran, atMostHalf⟩

end MoacVnode.Consensus.Clique
