import MoacVnode.Consensus.Clique.RecentSigners

/-!
# Verifying a seal and applying the header

`verifySeal` checks the signer of a header against the snapshot of its parent, `apply` checks it
again when the next snapshot is made, and `Seal` decides before signing whether the signer has to
wait.
-/

namespace MoacVnode.Consensus.Clique

open MoacVnode.Core Lib Voting Snapshot Finset Snapshot
open Snapshot (apply)

variable {ecrecover : Header → Except CliqueError Address} {header : Header} {snap : Snapshot}
  {num : Nat}

def diffInTurn : Nat := 2

def diffNoTurn : Nat := 1

namespace Snapshot

/-- `snap.signers()`: the signers in ascending order. -/
def ascendingSigners (snap : Snapshot) : List Address := snap.signers.sort (· ≤ ·)

/-- The signer at the offset of the block number is in turn. -/
def inturn (snap : Snapshot) (num : Nat) (signer : Address) : Except Crash Bool :=
  let signers := snap.ascendingSigners
  let off := signers.idxOf signer
  if signers.length = 0 then .error .divideByZero
  else .ok (decide (num % signers.length = off))

/-- `verifySeal` refuses a signer seen at these blocks. -/
def InWindow (snap : Snapshot) (num seen : Nat) : Prop := sub64 num snap.limit < seen
deriving Decidable

/-- `Seal` waits if the signer was seen at these blocks. -/
def MustWait (snap : Snapshot) (num seen : Nat) : Prop :=
  num < snap.limit ∨ sub64 num snap.limit < seen
deriving Decidable

variable (ecrecover : Header → Except CliqueError Address)

def verifySigner (snap : Snapshot) (header : Header) : Except CliqueError Address :=
  snap.resolveSigner ecrecover (snap.InWindow header.number) header

/-- What `Seal` does once it has the snapshot of the parent. -/
inductive SealDecision where
  | wait
  | sign
  deriving DecidableEq, Repr

def sealDecision (snap : Snapshot) (signer : Address) (header : Header) :
    Except CliqueError SealDecision :=
  if header.number = 0 then .error .unknownBlock
  else if signer ∉ snap.signers then .error .unauthorized
  else if snap.RecentAt (snap.MustWait header.number) signer then .ok .wait
  else .ok .sign

def verifyDifficulty (snap : Snapshot) (header : Header) (signer : Address) :
    Except CliqueError Unit :=
  match snap.inturn header.number signer with
  | .error crash => .error (.crash crash)
  | .ok inturn =>
    if inturn ∧ header.difficulty ≠ diffInTurn then .error .invalidDifficulty
    else if ¬ inturn ∧ header.difficulty ≠ diffNoTurn then .error .invalidDifficulty
    else .ok ()

end Snapshot

/-- `verifySeal`; `snapshot` retrieves the snapshot at a number and hash. -/
def verifySeal (ecrecover : Header → Except CliqueError Address)
    (snapshot : Nat → Hash → Except CliqueError Snapshot) (header : Header) :
    Except CliqueError Unit :=
  if header.number = 0 then .error .unknownBlock
  else
    match snapshot (prev64 header.number) header.parentHash with
    | .error error => .error error
    | .ok snap =>
      match snap.verifySigner ecrecover header with
      | .error error => .error error
      | .ok signer => snap.verifyDifficulty header signer

namespace Snapshot

variable {signer : Address}

theorem recentAt_mustWait_iff (window : snap.RecentWindow num) (fits : num + 1 < uint64Size) :
    snap.RecentAt (snap.MustWait (num + 1)) signer ↔
      (snap.shiftRecents (num + 1)).RecentAt (fun _ => True) signer := by
  rw [recentAt_iff, recentAt_iff]
  refine exists_congr fun block => ?_
  rw [lookup_shiftRecents, MustWait, and_true]
  refine and_congr_right fun got => ?_
  have later := (window block signer got).2
  by_cases below : num + 1 < snap.limit
  · exact iff_of_true (.inl below) (by omega)
  · rw [sub64_of_le (not_lt.mp below) fits]
    omega

theorem sealDecision_eq_sign (notGenesis : header.number ≠ 0) :
    snap.sealDecision signer header = .ok .sign ↔
      signer ∈ snap.signers ∧ ¬ snap.RecentAt (snap.MustWait header.number) signer := by
  unfold sealDecision
  rw [if_neg notGenesis]
  by_cases mem : signer ∈ snap.signers
  · by_cases recent : snap.RecentAt (snap.MustWait header.number) signer
    · simp [mem]
    · simp [recent]
  · simp [mem]

theorem inWindow_eq_mustWait (reaches : snap.limit ≤ num) :
    snap.InWindow num = snap.MustWait num := by
  funext seen
  exact propext (or_iff_right (not_lt.mpr reaches)).symm

theorem apply_singleton_iff (numEq : header.number = next64 snap.number)
    {authorize : Bool} (voted : proposal header.nonce = .ok authorize) :
    (∃ next, snap.apply ecrecover [header] = .ok next) ↔
      ∃ signer, ecrecover header = .ok signer ∧ signer ∈ snap.signers ∧
        ¬ (snap.shiftRecents header.number).RecentAt (fun _ => True) signer := by
  have signerIff (signer : Address) :
      ((snap.dropVotesAtEpoch snap.config header.number).shiftRecents
          header.number).authorizedSigner ecrecover header = .ok signer ↔
        ecrecover header = .ok signer ∧ signer ∈ snap.signers ∧
          ¬ (snap.shiftRecents header.number).RecentAt (fun _ => True) signer := by
    rw [Voting.authorizedSigner, resolveSigner_eq_ok,
      shiftRecents_signers, dropVotesAtEpoch_signers,
      Voting.RecentAt, shiftRecents_dropVotesAtEpoch_recents]
    rfl
  constructor
  · intro ⟨next, applied⟩
    obtain ⟨-, -, voting, ran, -⟩ := apply_cons_eq_ok.mp applied
    obtain ⟨mid, taken, -⟩ := run_cons_eq_ok.mp ran
    obtain ⟨signer, -, authorized, -, -⟩ := applyHeader_eq_ok.mp taken
    exact ⟨signer, (signerIff signer).mp authorized⟩
  · intro ⟨signer, accepted⟩
    have taken := applyHeader_eq_ok.mpr
      ⟨signer, authorize, (signerIff signer).mpr accepted, voted, rfl⟩
    have ran := (run_cons_of_ok [] taken).trans (run_nil _)
    exact ⟨_, apply_cons_eq_ok.mpr ⟨trivial, numEq, _, ran, rfl⟩⟩

theorem agrees_below_limit (window : snap.RecentWindow num)
    (small : snap.signers.card < 2 ^ 63) (numEq : header.number = num + 1)
    (below : header.number < snap.limit) :
    ((∃ signer, snap.verifySigner ecrecover header = .ok signer) ↔
      ∃ signer, ecrecover header = .ok signer ∧ signer ∈ snap.signers ∧
        ¬ (snap.shiftRecents header.number).RecentAt (fun _ => True) signer) ↔
      ∀ signer, ecrecover header = .ok signer → signer ∈ snap.signers →
        ¬ snap.RecentAt (fun _ => True) signer := by
  have unshifted : snap.shiftRecents header.number = snap.toVoting := if_neg (not_le.mpr below)
  have accepted (signer : Address) : ¬ snap.RecentAt (snap.InWindow header.number) signer := by
    rw [recentAt_iff]
    intro ⟨block, got, inWindow⟩
    have before := (window block signer got).1
    have roomy : snap.limit ≤ 2 ^ 62 + 1 := by
      unfold Voting.limit
      omega
    rw [InWindow, sub64_of_lt below (roomy.trans_lt (by decide))] at inWindow
    unfold uint64Size at inWindow
    omega
  rw [unshifted]
  constructor
  · intro agrees signer recovered mem
    obtain ⟨other, sameRecovered, -, notRecent⟩ :=
      agrees.mp ⟨signer, resolveSigner_eq_ok.mpr ⟨recovered, mem, accepted signer⟩⟩
    cases recovered.symm.trans sameRecovered
    exact notRecent
  · intro fresh
    constructor
    · intro ⟨signer, verified⟩
      obtain ⟨recovered, mem, -⟩ := resolveSigner_eq_ok.mp verified
      exact ⟨signer, recovered, mem, fresh signer recovered mem⟩
    · intro ⟨signer, recovered, mem, _⟩
      exact ⟨signer, resolveSigner_eq_ok.mpr ⟨recovered, mem, accepted signer⟩⟩

end Snapshot

theorem verifySeal_eq_ok {snapshot : Nat → Hash → Except CliqueError Snapshot} :
    verifySeal ecrecover snapshot header = .ok () ↔
      header.number ≠ 0 ∧
        ∃ snap signer, snapshot (prev64 header.number) header.parentHash = .ok snap ∧
          snap.verifySigner ecrecover header = .ok signer ∧
          snap.verifyDifficulty header signer = .ok () := by
  unfold verifySeal
  by_cases genesis : header.number = 0
  · simp [genesis]
  · rw [if_neg genesis]
    cases snapshot (prev64 header.number) header.parentHash with
    | error error => simp
    | ok snap =>
      cases verified : snap.verifySigner ecrecover header with
      | error error => simp [verified]
      | ok signer => simp [verified, genesis]

section

variable {config : CliqueConfig} {genesis : Nat} {genesisHash : Hash} {signers : List Address}
  {batches : List (List Header)}
  (reached :
    run (apply ecrecover) (newSnapshot config genesis genesisHash signers) batches = .ok snap)
  (fits : genesis + batches.flatten.length + 1 < uint64Size)
  (numEq : header.number = snap.number + 1)

include reached fits numEq

/-- At every reachable snapshot `Seal` signs the next header just if it will apply. -/
theorem seal_signs_iff_applies {authorize : Bool} {signer : Address}
    (voted : proposal header.nonce = .ok authorize) (signed : ecrecover header = .ok signer) :
    snap.sealDecision signer header = .ok .sign ↔
      ∃ next, snap.apply ecrecover [header] = .ok next := by
  obtain ⟨window, numberFits⟩ := reached_window reached fits
  rw [apply_singleton_iff (numEq.trans (next64_of_lt numberFits).symm) voted,
    sealDecision_eq_sign (by omega), numEq,
    recentAt_mustWait_iff window numberFits]
  constructor
  · intro ⟨mem, notRecent⟩
    exact ⟨signer, signed, mem, notRecent⟩
  · intro ⟨other, sameSigned, mem, notRecent⟩
    cases signed.symm.trans sameSigned
    exact ⟨mem, notRecent⟩

/-- At every reachable snapshot at least half of the signers need not wait for others. -/
theorem half_of_signers_may_sign :
    snap.signers.card ≤
      2 * (snap.signers.filter fun signer => snap.sealDecision signer header = .ok .sign).card := by
  obtain ⟨window, numberFits⟩ := reached_window reached fits
  -- who has to wait signed one of the blocks that are still in the window at the next block
  have waiting :
      (snap.signers.filter fun signer => ¬ snap.sealDecision signer header = .ok .sign) ⊆
        (Finset.Ico (snap.number + 2 - snap.limit) (snap.number + 1)).image
          fun block => (snap.recents.lookup block).getD 0 := by
    intro signer waits
    obtain ⟨mem, waits⟩ := Finset.mem_filter.mp waits
    rw [sealDecision_eq_sign (by omega), numEq,
      recentAt_mustWait_iff window numberFits, not_and_not_right] at waits
    obtain ⟨block, got, -⟩ := recentAt_iff.mp (waits mem)
    have inWindow := window.shiftRecents block signer got
    have notLater := window block signer (lookup_shiftRecents.mp got).1
    rw [Voting.limit, shiftRecents_signers] at inWindow
    refine Finset.mem_image.mpr ⟨block, Finset.mem_Ico.mpr ?_, ?_⟩
    · unfold Voting.limit
      omega
    · rw [(lookup_shiftRecents.mp got).1, Option.getD_some]
  have few := (Finset.card_le_card waiting).trans Finset.card_image_le
  have all := Finset.card_filter_add_card_filter_not (s := snap.signers)
    fun signer => snap.sealDecision signer header = .ok .sign
  rw [Nat.card_Ico, Voting.limit] at few
  omega

end

/-- For a reachable snapshot and a next header with a vote, the signer checks of `verifySeal` agree
with `apply` exactly when the window of recent signers lies above block zero or the signer is not in
the recent list. -/
theorem verifySeal_agrees_with_apply_iff
    (ecrecover : Header → Except CliqueError Address) (config : CliqueConfig)
    (genesis : Nat) (genesisHash : Hash) (signers : List Address)
    (batches : List (List Header)) (snap : Snapshot) (header : Header) (authorize : Bool)
    (reached :
      run (apply ecrecover) (newSnapshot config genesis genesisHash signers) batches = .ok snap)
    (fits : genesis + batches.flatten.length + 1 < uint64Size) (small : snap.signers.card < 2 ^ 63)
    (numEq : header.number = snap.number + 1) (voted : proposal header.nonce = .ok authorize) :
    ((∃ signer, snap.verifySigner ecrecover header = .ok signer) ↔
      ∃ next, snap.apply ecrecover [header] = .ok next) ↔
      (snap.signers.card / 2 + 1 ≤ header.number ∨
        ∀ signer, ecrecover header = .ok signer → signer ∈ snap.signers →
          ¬ ∃ block, snap.recents.lookup block = some signer) := by
  obtain ⟨window, numberFits⟩ := reached_window reached fits
  rw [apply_singleton_iff (numEq.trans (next64_of_lt numberFits).symm) voted]
  by_cases reaches : snap.limit ≤ header.number
  · refine iff_of_true (exists_congr fun signer => ?_) (.inl reaches)
    rw [verifySigner, resolveSigner_eq_ok, inWindow_eq_mustWait reaches, numEq,
      recentAt_mustWait_iff window numberFits]
  · rw [agrees_below_limit window small numEq (not_le.mp reaches)]
    refine Iff.trans ?_ (or_iff_right reaches).symm
    simp only [recentAt_iff, and_true]

theorem Voting.applyHeader_signers_nonempty {voting next : Voting} {config : CliqueConfig}
    (others : voting.signers ≠ {header.coinbase})
    (applied : voting.applyHeader config ecrecover header = .ok next) : next.signers.Nonempty := by
  obtain ⟨signer, -, mem, -, cast, -, sameSigners, rfl⟩ := applyHeader_cast applied
  rw [← sameSigners] at mem others
  rcases cast.updateSigners_cases header.number header.coinbase with
    ⟨updated, -⟩ | ⟨-, -, -, updated⟩ | ⟨-, -, -, updated⟩
  · rw [updated]
    exact ⟨signer, mem⟩
  · rw [updated]
    exact ⟨signer, mem_insert_of_mem mem⟩
  · obtain ⟨votes, tally, discarded⟩ := ((cast.removeSigner header.coinbase).shiftRecents
      header.number).discardVotesBy_eq header.coinbase
    rw [updated, discarded]
    rw [shiftRecents_signers]
    by_contra empty
    rw [not_nonempty_iff_eq_empty] at empty
    rcases erase_eq_empty_iff _ _ |>.mp empty with none | only
    · simp [none] at mem
    · exact others only

theorem Snapshot.existsUnique_inturn (nonempty : snap.signers.Nonempty) (num : Nat) :
    (∀ signer, ∃ inturn, snap.inturn num signer = .ok inturn) ∧
      ∃! signer, signer ∈ snap.signers ∧ snap.inturn num signer = .ok true := by
  have size : 0 < snap.ascendingSigners.length := by
    simpa [ascendingSigners, length_sort] using nonempty
  have nodup : snap.ascendingSigners.Nodup := sort_nodup _ _
  have inturnEq (signer : Address) : snap.inturn num signer =
      .ok (decide (num % snap.ascendingSigners.length = snap.ascendingSigners.idxOf signer)) :=
    if_neg (by omega)
  have isSigner {signer : Address} : signer ∈ snap.ascendingSigners ↔ signer ∈ snap.signers :=
    mem_sort _
  have inRange := Nat.mod_lt num size
  refine ⟨fun signer => ⟨_, inturnEq signer⟩, snap.ascendingSigners[num %
    snap.ascendingSigners.length], ⟨isSigner.mp (List.getElem_mem inRange), ?_⟩, ?_⟩
  · simp [inturnEq, nodup.idxOf_getElem]
  · rintro signer ⟨mem, turn⟩
    simp only [inturnEq, Except.ok.injEq, decide_eq_true_eq] at turn
    simp [turn]

/-- As long as no header votes about the only signer there are signers, and exactly one of them is
in turn at every block. -/
theorem one_signer_in_turn_of_run {ecrecover : Header → Except CliqueError Address}
    {config : CliqueConfig} {genesis : Nat} {genesisHash : Hash} {signers : List Address}
    {batches : List (List Header)} {snap : Snapshot} (nonempty : signers ≠ [])
    (meets : EachStep (Voting.applyHeader config ecrecover)
      (fun voting header => voting.signers ≠ {header.coinbase})
      (newSnapshot config genesis genesisHash signers).toVoting batches.flatten)
    (reached : run (apply ecrecover) (newSnapshot config genesis genesisHash signers)
      batches = .ok snap) (num : Nat) :
    (∀ signer, ∃ inturn, snap.inturn num signer = .ok inturn) ∧
      ∃! signer, signer ∈ snap.signers ∧ snap.inturn num signer = .ok true := by
  have ran := apply_toVoting (run_apply_eq_ok.mp reached)
  refine existsUnique_inturn ?_ num
  exact run_invariant (fun voting => voting.signers.Nonempty)
    (fun _ others applied => Voting.applyHeader_signers_nonempty others applied)
    (List.toFinset_nonempty_iff _ |>.mpr nonempty) meets ran

private def sealConfig : CliqueConfig := ⟨30000, thirtyThousand_pos⟩

private def firstHeader : Header where
  hash := 1
  parentHash := 0
  number := 1

private def secondHeader : Header where
  hash := 2
  parentHash := 1
  number := 2

/-- With four signers the window is three blocks long. The signer of block one signs block two:
`verifySeal` accepts the header and `apply` fails. -/
theorem verifySeal_accepts_recent_signer :
    ∃ snap,
      run (apply fun _ => .ok 1) (newSnapshot sealConfig 0 0 [1, 2, 3, 4])
        [[firstHeader]] = .ok snap ∧
      secondHeader.number = snap.number + 1 ∧
      secondHeader.parentHash = snap.hash ∧
      proposal secondHeader.nonce = .ok false ∧
      snap.verifySigner (fun _ => .ok 1) secondHeader = .ok 1 ∧
      snap.apply (fun _ => .ok 1) [secondHeader] = .error .unauthorized := by
  decide +kernel

private def signerByNumber (header : Header) : Except CliqueError Address :=
  .ok (BitVec.ofNat 160 header.number)

/-- The signer of block two signs on the snapshot after block one. -/
theorem second_signer_signs :
    ∃ snap,
      run (apply signerByNumber) (newSnapshot sealConfig 0 0 [1, 2, 3]) [[firstHeader]] = .ok snap ∧
      ∃ next, snap.apply signerByNumber [secondHeader] = .ok next := by
  refine exists_ok_of (fun snap => secondHeader.number = snap.number + 1 ∧
      snap.sealDecision 2 secondHeader = .ok .sign) (by decide +kernel) ?_
  rintro snap reached ⟨numEq, signs⟩
  exact (seal_signs_iff_applies reached (by decide +kernel) numEq rfl rfl).mp signs

/-- After block one, two of the three signers need not wait. -/
theorem two_of_three_may_sign :
    ∃ snap,
      run (apply signerByNumber) (newSnapshot sealConfig 0 0 [1, 2, 3]) [[firstHeader]] = .ok snap ∧
      2 ≤ (snap.signers.filter fun signer =>
        snap.sealDecision signer secondHeader = .ok .sign).card := by
  refine exists_ok_of (fun snap => secondHeader.number = snap.number + 1 ∧ snap.signers.card = 3)
    (by decide +kernel) ?_
  rintro snap reached ⟨numEq, three⟩
  have half := half_of_signers_may_sign reached (by decide +kernel) numEq
  omega

/-- With three signers the window is two blocks long, and block two is above it. -/
theorem verifySeal_agrees_with_apply_three :
    ∃ snap,
      run (apply signerByNumber) (newSnapshot sealConfig 0 0 [1, 2, 3]) [[firstHeader]] = .ok snap ∧
      ((∃ signer, snap.verifySigner signerByNumber secondHeader = .ok signer) ↔
        ∃ next, snap.apply signerByNumber [secondHeader] = .ok next) := by
  refine exists_ok_of (fun snap =>
      snap.signers.card < 2 ^ 63 ∧ secondHeader.number = snap.number + 1 ∧
      snap.signers.card / 2 + 1 ≤ secondHeader.number) (by decide +kernel) ?_
  rintro snap reached ⟨small, numEq, reaches⟩
  exact (verifySeal_agrees_with_apply_iff signerByNumber sealConfig 0 0 [1, 2, 3]
    [[firstHeader]] snap secondHeader false reached (by decide +kernel) small
    numEq rfl).mpr (.inl reaches)

/-- The only signer votes for its own removal, and nobody can be in turn any more. -/
theorem last_signer_removed :
    ∃ snap, run (apply fun _ => .ok 1) (newSnapshot sealConfig 0 0 [1])
        [[{ firstHeader with coinbase := 1 }]] = .ok snap ∧
      snap.signers = ∅ ∧ snap.inturn 2 1 = .error .divideByZero := by
  decide +kernel

/-- Three signers stay after the first block, and one of them is in turn at the second. -/
theorem one_of_three_in_turn :
    ∃ snap, run (apply signerByNumber) (newSnapshot sealConfig 0 0 [1, 2, 3])
        [[firstHeader]] = .ok snap ∧
      ∃! signer, signer ∈ snap.signers ∧ snap.inturn 2 signer = .ok true := by
  obtain ⟨snap, reached⟩ : ∃ snap, run (apply signerByNumber)
      (newSnapshot sealConfig 0 0 [1, 2, 3]) [[firstHeader]] = .ok snap ∧ True := by
    decide +kernel
  exact ⟨snap, reached.1, (one_signer_in_turn_of_run (by decide) (by decide +kernel) reached.1 2).2⟩

end MoacVnode.Consensus.Clique
