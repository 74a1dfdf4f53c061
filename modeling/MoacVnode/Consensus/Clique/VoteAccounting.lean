import MoacVnode.Consensus.Clique.Snapshot

/-!
# The votes and their tally

The tally caches what the list of votes says: for every address the number of votes about it, all in
the one direction that makes sense for the address.
-/

namespace MoacVnode.Consensus.Clique

open MoacVnode.Core Lib List AList Voting

variable {addr other : Address} {voting next : Voting} {vote : Vote} {config : CliqueConfig}
  {ecrecover : Header → Except CliqueError Address}

def tallyOf (authorize : Bool) : Nat → Option Tally
  | 0 => none
  | count + 1 => some ⟨authorize, count + 1⟩

def votesAbout (votes : List Vote) (addr : Address) : Nat :=
  votes.countP fun vote => vote.address = addr

theorem votesAbout_cons_self (vote : Vote) (votes : List Vote) :
    votesAbout (vote :: votes) vote.address = votesAbout votes vote.address + 1 :=
  countP_cons_of_pos (decide_eq_true rfl)

theorem votesAbout_cons_of_ne (ne : addr ≠ vote.address) (votes : List Vote) :
    votesAbout (vote :: votes) addr = votesAbout votes addr :=
  countP_cons_of_neg (by simpa using ne.symm)

theorem votesAbout_filter_ne (ne : addr ≠ other) (votes : List Vote) :
    votesAbout (votes.filter fun vote => vote.address ≠ other) addr = votesAbout votes addr := by
  unfold votesAbout
  rw [countP_filter]
  refine countP_congr fun vote _ => ?_
  simp only [Bool.and_eq_true, decide_eq_true_eq, and_iff_left_iff_imp]
  intro about
  rw [about]
  exact ne

theorem votesAbout_filter_self (addr : Address) (votes : List Vote) :
    votesAbout (votes.filter fun vote => vote.address ≠ addr) addr = 0 := by
  refine countP_eq_zero.mpr fun vote mem => ?_
  have about := (mem_filter.mp mem).2
  simpa using about

/-- The tally counts the votes, and all votes about an address have the one
direction that the address allows. -/
structure Counted (direction : Address → Bool) (votes : List Vote)
    (tally : AList fun _ : Address => Tally) : Prop where
  oneDirection : ∀ vote ∈ votes, vote.authorize = direction vote.address
  lookup : ∀ addr, tally.lookup addr = tallyOf (direction addr) (votesAbout votes addr)

namespace Voting

variable {authorize : Bool} {count : Nat}

theorem lookup_uncast_of_ne (ne : other ≠ addr) (authorize : Bool) :
    (voting.uncast addr authorize).1.tally.lookup other = voting.tally.lookup other := by
  unfold uncast
  split
  · rfl
  · split
    · rfl
    · split
      · exact lookup_insert_ne ne
      · exact lookup_erase_ne ne

theorem cast_eq (meaningful : voting.validVote addr authorize = true) :
    ∃ tally, voting.cast addr authorize = ({ voting with tally := tally }, true) := by
  unfold cast
  rw [if_neg (by simp [meaningful])]
  split
  · exact ⟨_, rfl⟩
  · exact ⟨_, rfl⟩

theorem shiftRecents_eq (voting : Voting) (num : Nat) :
    ∃ recents, voting.shiftRecents num = { voting with recents := recents } := by
  unfold shiftRecents
  split
  · exact ⟨_, rfl⟩
  · exact ⟨voting.recents, rfl⟩

theorem lookup_cast_of_ne (ne : other ≠ addr) (authorize : Bool) :
    (voting.cast addr authorize).1.tally.lookup other = voting.tally.lookup other := by
  unfold cast
  split
  · rfl
  · split
    · exact lookup_insert_ne ne
    · exact lookup_insert_ne ne

theorem validVote_iff :
    voting.validVote addr authorize = true ↔ authorize = decide (addr ∉ voting.signers) := by
  unfold validVote
  by_cases mem : addr ∈ voting.signers
  · cases authorize <;> simp [mem]
  · cases authorize <;> simp [mem]

theorem discardPrevious_cases (voting : Voting) (signer addr : Address) :
    (voting.discardPrevious signer addr = voting ∧
      ∀ vote ∈ voting.votes, ¬ (vote.signer = signer ∧ vote.address = addr)) ∨
    ∃ vote prior later, voting.votes = prior ++ vote :: later ∧
      vote.signer = signer ∧ vote.address = addr ∧
      voting.discardPrevious signer addr =
        { (voting.uncast vote.address vote.authorize).1 with votes := prior ++ later } := by
  unfold discardPrevious
  cases got : voting.votes.find? fun vote =>
      decide (vote.signer = signer ∧ vote.address = addr) with
  | none =>
    refine .inl ⟨rfl, fun vote mem same => ?_⟩
    exact List.find?_eq_none.mp got vote mem (decide_eq_true same)
  | some vote =>
    obtain ⟨matched, prior, later, split, unmatched⟩ := List.find?_eq_some_iff_append.mp got
    obtain ⟨sameSigner, sameAddress⟩ := of_decide_eq_true matched
    refine .inr ⟨vote, prior, later, split, sameSigner, sameAddress, ?_⟩
    have notMatched : ∀ other ∈ prior,
        ¬ decide (other.signer = signer ∧ other.address = addr) = true := by
      intro other mem isMatch
      have refused := unmatched other mem
      rw [isMatch] at refused
      cases refused
    have erased : voting.votes.eraseP (fun vote =>
        decide (vote.signer = signer ∧ vote.address = addr)) =
        prior ++ later := by
      rw [split, eraseP_append_right _ notMatched]
      exact congrArg (prior ++ ·) (eraseP_cons_of_pos matched)
    rw [erased]

end Voting

namespace Counted

variable {direction : Address → Bool} {votes rest : List Vote}
  {tally : AList fun _ : Address => Tally}

theorem nil (direction : Address → Bool) : Counted direction [] ∅ where
  oneDirection := by simp
  lookup := fun addr => lookup_empty addr

theorem perm (counted : Counted direction votes tally)
    (reordered : votes.Perm rest) : Counted direction rest tally where
  oneDirection := fun vote mem => counted.oneDirection vote (reordered.mem_iff.mpr mem)
  lookup := fun addr => by
    rw [counted.lookup addr, votesAbout, reordered.countP_eq, votesAbout]

theorem uncast (counted : Counted direction (vote :: votes) voting.tally) :
    Counted direction votes (voting.uncast vote.address vote.authorize).1.tally where
  oneDirection := fun other mem => counted.oneDirection other (mem_cons_of_mem _ mem)
  lookup := fun addr => by
    by_cases about : addr = vote.address
    · subst about
      have direction := counted.oneDirection vote mem_cons_self
      unfold Voting.uncast
      rw [counted.lookup, votesAbout_cons_self, ← direction]
      change (if vote.authorize ≠ vote.authorize then (voting, false) else _).1.tally.lookup _ = _
      rw [if_neg (not_not.mpr rfl)]
      cases votesAbout votes vote.address with
      | zero => exact lookup_erase vote.address voting.tally
      | succ count =>
        exact lookup_insert voting.tally
    · rw [Voting.lookup_uncast_of_ne about, counted.lookup, votesAbout_cons_of_ne about]

theorem uncastAll (voting : Voting) {gone : List Vote}
    (counted : Counted direction (gone ++ votes) voting.tally) :
    Counted direction votes (voting.uncastAll gone).tally := by
  induction gone generalizing voting with
  | nil => exact counted
  | cons vote gone ih => exact ih _ counted.uncast

theorem cast (counted : Counted direction votes voting.tally)
    (meaningful : voting.validVote vote.address vote.authorize = true)
    (agrees : vote.authorize = direction vote.address) :
    Counted direction (vote :: votes) (voting.cast vote.address vote.authorize).1.tally where
  oneDirection := forall_mem_cons.mpr ⟨agrees, counted.oneDirection⟩
  lookup := fun addr => by
    by_cases about : addr = vote.address
    · subst about
      rw [votesAbout_cons_self, ← agrees]
      unfold Voting.cast
      rw [if_neg (by simp [meaningful]), counted.lookup, ← agrees]
      cases votesAbout votes vote.address with
      | zero | succ count => exact lookup_insert voting.tally
    · rw [Voting.lookup_cast_of_ne about, counted.lookup, votesAbout_cons_of_ne about]

theorem forget (counted : Counted direction votes tally) {changed : Address → Bool}
    (same : ∀ other ≠ addr, changed other = direction other) :
    Counted changed (votes.filter fun vote => vote.address ≠ addr) (tally.erase addr) where
  oneDirection := fun vote mem => by
    obtain ⟨present, ne⟩ := mem_filter.mp mem
    rw [same vote.address (by simpa using ne)]
    exact counted.oneDirection vote present
  lookup := fun other => by
    by_cases about : other = addr
    · subst about
      rw [lookup_erase, votesAbout_filter_self, tallyOf]
    · rw [lookup_erase_ne about, counted.lookup, same other about, votesAbout_filter_ne about]

end Counted

/-- One vote per signer and address, cast by a signer and counted. -/
structure Accounted (voting : Voting) : Prop where
  once : (voting.votes.map fun vote => (vote.signer, vote.address)).Nodup
  bySigners : ∀ vote ∈ voting.votes, vote.signer ∈ voting.signers
  counted : Counted (fun addr => decide (addr ∉ voting.signers)) voting.votes voting.tally

namespace Accounted

theorem of_eq (accounted : Accounted voting) (sameVotes : next.votes = voting.votes)
    (sameSigners : next.signers = voting.signers) (sameTally : next.tally = voting.tally) :
    Accounted next where
  once := by
    rw [sameVotes]
    exact accounted.once
  bySigners := by
    rw [sameVotes, sameSigners]
    exact accounted.bySigners
  counted := by
    rw [sameVotes, sameSigners, sameTally]
    exact accounted.counted

theorem of_no_votes (noVotes : voting.votes = []) (noTally : voting.tally = ∅) :
    Accounted voting where
  once := by
    rw [noVotes]
    exact nodup_nil
  bySigners := by
    rw [noVotes]
    exact forall_mem_nil _
  counted := by
    rw [noVotes, noTally]
    exact Counted.nil _

section

variable (accounted : Accounted voting)

include accounted

theorem dropVotesAtEpoch (config : CliqueConfig) (num : Nat) :
    Accounted (voting.dropVotesAtEpoch config num) := by
  unfold Voting.dropVotesAtEpoch
  split
  · exact of_no_votes rfl rfl
  · exact accounted

theorem shiftRecents (num : Nat) : Accounted (voting.shiftRecents num) := by
  unfold Voting.shiftRecents
  split
  · exact accounted.of_eq rfl rfl rfl
  · exact accounted

theorem discardPrevious (signer addr : Address) :
    Accounted (voting.discardPrevious signer addr) ∧
      (signer, addr) ∉ (voting.discardPrevious signer addr).votes.map fun vote =>
          (vote.signer, vote.address) := by
  rcases voting.discardPrevious_cases signer addr with
    ⟨kept, noVote⟩ |
    ⟨vote, prior, later, split, sameSigner, sameAddress, discarded⟩
  · rw [kept]
    refine ⟨accounted, fun mem => ?_⟩
    obtain ⟨vote, present, same⟩ := mem_map.mp mem
    exact noVote vote present (Prod.mk.inj same)
  · obtain ⟨tally, tallyEq⟩ := voting.uncast_eq vote.address vote.authorize
    have toFront : voting.votes.Perm (vote :: (prior ++ later)) := by
      rw [split]
      exact perm_middle
    have once := (toFront.map fun vote => (vote.signer, vote.address)).nodup_iff.mp accounted.once
    rw [map_cons, nodup_cons, sameSigner, sameAddress] at once
    have counted := (accounted.counted.perm toFront).uncast
    rw [discarded]
    refine ⟨⟨once.2, ?_, ?_⟩, once.1⟩
    · rw [tallyEq]
      intro other mem
      exact accounted.bySigners other (toFront.mem_iff.mpr (mem_cons_of_mem _ mem))
    · rw [tallyEq] at counted ⊢
      exact counted

theorem addVote (bySigner : vote.signer ∈ voting.signers)
    (fresh : (vote.signer, vote.address) ∉
      voting.votes.map fun vote => (vote.signer, vote.address)) :
    Accounted (voting.addVote vote) := by
  unfold Voting.addVote
  cases meaningful : voting.validVote vote.address vote.authorize with
  | false =>
    have kept : voting.cast vote.address vote.authorize = (voting, false) := if_pos meaningful
    rw [kept]
    exact accounted
  | true =>
    have counted := accounted.counted.cast meaningful (Voting.validVote_iff.mp meaningful)
    obtain ⟨tally, castEq⟩ := Voting.cast_eq meaningful
    rw [castEq] at counted ⊢
    have toFront : (voting.votes ++ [vote]).Perm (vote :: voting.votes) :=
      perm_append_singleton vote voting.votes
    refine ⟨?_, ?_, counted.perm toFront.symm⟩
    · refine (toFront.map fun vote => (vote.signer, vote.address)).nodup_iff.mpr ?_
      exact nodup_cons.mpr ⟨fresh, accounted.once⟩
    · intro other mem
      rcases mem_cons.mp (toFront.mem_iff.mp mem) with same | present
      · rw [same]
        exact bySigner
      · exact accounted.bySigners other present

theorem addSigner (addr : Address) :
    Accounted ((voting.addSigner addr).discardVotesAbout addr) where
  once := accounted.once.sublist (filter_sublist.map _)
  bySigners := fun vote mem =>
    Finset.mem_insert_of_mem (accounted.bySigners vote (mem_of_mem_filter mem))
  counted := accounted.counted.forget fun other ne => by
    refine decide_eq_decide.mpr (not_congr ?_)
    exact Finset.mem_insert.trans (or_iff_right ne)

theorem removeSigner (num : Nat) (addr : Address) :
    Accounted ((((voting.removeSigner addr).shiftRecents num).discardVotesBy
        addr).discardVotesAbout addr) := by
  obtain ⟨recents, shifted⟩ := (voting.removeSigner addr).shiftRecents_eq num
  rw [shifted]
  let removed : Voting := { voting.removeSigner addr with recents := recents }
  have parts : voting.votes.Perm ((voting.votes.filter fun vote => vote.signer = addr) ++
          voting.votes.filter fun vote => vote.signer ≠ addr) := by
    simpa only [ne_eq, decide_not] using (filter_append_perm _ _).symm
  -- the tally still counts by the signers before the removal
  have uncounted := Counted.uncastAll removed (accounted.counted.perm parts)
  unfold Voting.discardVotesBy
  obtain ⟨tally, uncastEq⟩ := removed.uncastAll_eq
    (removed.votes.filter fun vote => vote.signer = addr)
  have sameTally :
      (removed.uncastAll (voting.votes.filter fun vote => vote.signer = addr)).tally = tally :=
    congrArg Voting.tally uncastEq
  rw [sameTally] at uncounted
  rw [uncastEq]
  refine ⟨?_, ?_, uncounted.forget fun other ne => ?_⟩
  · exact accounted.once.sublist ((filter_sublist.trans filter_sublist).map _)
  · intro vote mem
    obtain ⟨present, notBy⟩ := mem_filter.mp (mem_of_mem_filter mem)
    exact Finset.mem_erase.mpr ⟨of_decide_eq_true notBy, accounted.bySigners vote present⟩
  · refine decide_eq_decide.mpr (not_congr ?_)
    exact Finset.mem_erase.trans (and_iff_right ne)

theorem updateSigners (num : Nat) (addr : Address) : Accounted (voting.updateSigners num addr) := by
  rcases voting.updateSigners_cases num addr with
    ⟨kept, -⟩ | ⟨tally, -, -, added⟩ | ⟨tally, -, -, removed⟩
  · rw [kept]
    exact accounted
  · rw [added]
    exact accounted.addSigner addr
  · rw [removed]
    exact accounted.removeSigner num addr

theorem applyHeader {header : Header}
    (applied : voting.applyHeader config ecrecover header = .ok next) : Accounted next := by
  obtain ⟨signer, authorize, authorized, -, nextEq⟩ := applyHeader_eq_ok.mp applied
  obtain ⟨-, mem, -⟩ := resolveSigner_eq_ok.mp authorized
  have shifted := (accounted.dropVotesAtEpoch config header.number).shiftRecents header.number
  have recorded : Accounted (((voting.dropVotesAtEpoch config header.number).shiftRecents
        header.number).recordSigner header.number signer) :=
    shifted.of_eq rfl rfl rfl
  obtain ⟨cleared, fresh⟩ := recorded.discardPrevious signer header.coinbase
  obtain ⟨votes, tally, clearedEq⟩ :=
    (((voting.dropVotesAtEpoch config header.number).shiftRecents
      header.number).recordSigner header.number signer).discardPrevious_eq signer header.coinbase
  rw [nextEq]
  refine updateSigners (cleared.addVote ?_ fresh) header.number header.coinbase
  rw [clearedEq]
  exact mem

end

end Accounted

end MoacVnode.Consensus.Clique
