import MoacVnode.Solidity.SubChainRuns

/-!
# When a proposal expires

A proposal is open to votes until `2 * proposalExpiration` blocks after it was made.
-/

namespace MoacVnode.Solidity.SubChainBase

open MoacVnode.Core Lib
open Function (update_of_ne)

/-- A call made the proposal expire. -/
def Expires (before after : Hash → Proposal) (hash : Hash) : Prop :=
  (before hash).flag ≠ .expired ∧ (after hash).flag = .expired
deriving Decidable

def votingEnd (prop : Proposal) : Nat := prop.startingBlock.toNat + 2 * proposalExpiration.toNat

/-- A call that may take performance from the proposer of an expired proposal. -/
def Call.Expiring : Call → Bool → Prop
  | .createProposal _ _, _ => True
  | .requestProposalAction _ _, false => True
  | _, _ => False

variable {env : Env} {tx : Tx} {base : State} {call : Call} {core : Core}
  {res : Bool} {record : Record} {hash : Hash} {node : Address}

theorem isLate_iff {prop : Proposal} (started : prop.startingBlock.toNat < uint64Size) :
    isLate tx prop = true ↔ votingEnd prop < tx.blockNumber := by
  have inRange := tx.blockNumber_lt
  have window : (2 * proposalExpiration).toNat = 2 * proposalExpiration.toNat := by decide
  have short : proposalExpiration.toNat = 12 := by decide
  simp only [uint64Size] at started inRange
  simp only [isLate, decide_eq_true_eq, BitVec.lt_def, BitVec.toNat_add, Tx.number,
    BitVec.toNat_ofNat, votingEnd, short]
  omega

theorem expires_expireInProgress
    (expires : Expires base.proposals (expireInProgress base).proposals hash) :
    base.proposalHashInProgress = hash ∧ (base.proposals hash).flag = .pending := by
  obtain ⟨notYet, expired⟩ := expires
  unfold expireInProgress at expired
  split at expired
  case isTrue pending =>
      by_cases same : hash = base.proposalHashInProgress
      · subst same
        exact ⟨rfl, pending⟩
      · simp only [expire, update_of_ne same] at expired
        exact absurd expired notYet
  case isFalse => exact absurd expired notYet

theorem expires_of_change {proposals : Hash → Proposal}
    (changed : ProposalsChange tx base call proposals)
    (expires : Expires base.proposals proposals hash) :
    (base.proposals hash).flag = .pending ∧
      ((∃ indexInlist args, call = .createProposal indexInlist args) ∧
          base.proposalHashInProgress = hash ∨
        (∃ indexInlist, call = .requestProposalAction indexInlist hash) ∧
          isLate tx (base.proposals hash) = true) := by
  obtain ⟨notYet, expired⟩ := expires
  cases changed with
  | same => exact absurd expired notYet
  | drop =>
    obtain ⟨inProgress, pending⟩ := expires_expireInProgress ⟨notYet, expired⟩
    exact ⟨pending, .inl ⟨⟨_, _, rfl⟩, inProgress⟩⟩
  | @create indexInlist args curhash start endBlock isNode new =>
    by_cases same : hash = curhash
    · simp [storedProposal, same] at expired
    · rw [update_of_ne same] at expired
      obtain ⟨inProgress, pending⟩ := expires_expireInProgress ⟨notYet, expired⟩
      exact ⟨pending, .inl ⟨⟨_, _, rfl⟩, inProgress⟩⟩
  | @vote indexInlist voted erc pending =>
    by_cases same : hash = voted
    · subst same
      simp [votedProposal, pending] at expired
    · rw [update_of_ne same] at expired
      exact absurd expired notYet
  | @lapse indexInlist lapsed pending late =>
    by_cases same : hash = lapsed
    · subst same
      exact ⟨pending, .inr ⟨⟨_, rfl⟩, late⟩⟩
    · rw [update_of_ne same] at expired
      exact absurd expired notYet
  | @settle indexInlist approved pending =>
    by_cases same : hash = approved
    · subst same
      simp [pending] at expired
    · rw [update_of_ne same] at expired
      exact absurd expired notYet
  | @distribute distributed =>
    by_cases same : hash = distributed
    · simp [same] at expired
    · rw [update_of_ne same] at expired
      exact absurd expired notYet

theorem performance_expire (lower : (expire base hash).nodePerformance node <
    base.nodePerformance node) : (base.proposals hash).proposedBy = node := by
  by_contra ne
  simp [expire, lowerPerformance, update_of_ne (Ne.symm ne)] at lower

theorem performance_expireInProgress
    (lower : (expireInProgress base).nodePerformance node < base.nodePerformance node) :
    (base.proposals base.proposalHashInProgress).proposedBy = node ∧
      Expires base.proposals (expireInProgress base).proposals base.proposalHashInProgress := by
  unfold expireInProgress at lower ⊢
  split at lower
  case isTrue pending =>
      refine ⟨performance_expire lower, ?_, ?_⟩
      · simp [pending]
      · simp [pending, expire]
  case isFalse => exact absurd lower (lt_irrefl _)

theorem performance_of_outcome (taken : Outcome env tx base call core res)
    (expiring : call.Expiring res) (lower : core.nodePerformance node < base.nodePerformance node) :
    ∃ hash, Expires base.proposals core.proposals hash ∧
      (base.proposals hash).proposedBy = node := by
  cases taken with
  | stutter => exact absurd lower (lt_irrefl _)
  | drop =>
    obtain ⟨proposer, expires⟩ := performance_expireInProgress lower
    exact ⟨_, expires, proposer⟩
  | @create indexInlist args curhash start endBlock isNode isHash new =>
    obtain ⟨proposer, expires⟩ := performance_expireInProgress lower
    refine ⟨_, ⟨expires.1, ?_⟩, proposer⟩
    -- The new proposal had no state, so it is not the one that expired.
    have ne : base.proposalHashInProgress ≠ curhash := by
      intro same
      rw [← same, expires.2] at new
      cases new
    simp only [storedCore, update_of_ne ne]
    exact expires.2
  | @lapse indexInlist hash isNode pending inProgress late =>
    refine ⟨hash, ⟨?_, ?_⟩, performance_expire lower⟩
    · simp [pending]
    · simp [State.core, expire]
  | _ => exact expiring.elim

/-- A proposal is made only when the one in progress can no longer be voted on and was not approved,
and no action is asked on an approved one after its voting time. -/
def Patient (trace : Trace) : Tx × Call → Prop
  | (tx, .createProposal _ _) =>
    let prop := trace.state.proposals trace.state.proposalHashInProgress
    prop.flag = .pending → votingEnd prop < tx.blockNumber ∧ prop.distributeFlag = 0
  | (tx, .requestProposalAction _ hash) =>
    let prop := trace.state.proposals hash
    prop.distributeFlag ≠ 0 → tx.blockNumber ≤ votingEnd prop
  | _ => True

instance (trace : Trace) : DecidablePred (Patient trace) := fun _ => by
  unfold Patient
  split <;> infer_instance

theorem inTime_of_outcome {trace : Trace} (cast : Cast trace.state.proposals trace.record)
    (patient : Patient trace (tx, call)) {balance : Nat}
    (taken : Outcome env tx { trace.state with balance := balance } call core res)
    (expires : Expires trace.state.proposals core.proposals hash) :
    votingEnd (trace.state.proposals hash) < tx.blockNumber ∧
      (trace.state.proposals hash).distributeFlag = 0 := by
  obtain ⟨pending, ⟨⟨indexInlist, args, rfl⟩, rfl⟩ | ⟨⟨indexInlist, rfl⟩, late⟩⟩ :=
    expires_of_change taken.proposalsChange expires
  · exact patient pending
  · have isOver := (isLate_iff (cast hash).started).mp late
    refine ⟨isOver, ?_⟩
    by_contra approved
    exact absurd isOver (patient approved).not_gt

/-- A call makes a proposal expire only when it can no longer be voted on and was not
approved, and its proposer loses performance only then. -/
structure ExpiresInTime (env : Env) (before : Trace) (event : Tx × Call) : Prop where
  late :
    ∀ hash, Expires before.state.proposals (before.next env event).state.proposals hash →
      votingEnd (before.state.proposals hash) < event.1.blockNumber ∧
        checkProposalStatus event.1 before.state hash = .expired ∧
        hash ∉ before.record.settled
  performance :
    ∀ node, event.2.Expiring (perform env event.1 before.state event.2).2 →
      (before.next env event).state.nodePerformance node < before.state.nodePerformance node →
        ∃ hash,
          Expires before.state.proposals (before.next env event).state.proposals hash ∧
            (before.state.proposals hash).proposedBy = node

/-- In a run of patient calls no proposal expires before its time. -/
theorem no_premature_expiry_of_run {creation : Tx} {protocol : SubChainProtocolBase.State}
    {min max : Nat} {thousandth flushRound : Uint256}
    (deployed : deploy env creation protocol min max thousandth flushRound = some base)
    (events : List (Tx × Call)) (event : Tx × Call)
    (patient : EachFold (Trace.next env) Patient { state := base } (events ++ [event])) :
    ExpiresInTime env (events.foldl (Trace.next env) { state := base }) event := by
  have cast := events.foldlRecOn
    (motive := fun trace : Trace => Cast trace.state.proposals trace.record) (Trace.next env)
    (b := { state := base }) (ballots_of_deploy deployed).ballot fun _ cast _ _ => cast.step
  obtain ⟨-, patient, -⟩ := eachFold_append.mp patient
  generalize events.foldl (Trace.next env) { state := base } = trace at *
  obtain ⟨balance, taken⟩ := outcome_perform env event.1 trace.state event.2
  refine ⟨fun hash expires => ?_, fun node expiring lower => ?_⟩
  · obtain ⟨isOver, unapproved⟩ := inTime_of_outcome cast patient taken expires
    have late := (isLate_iff (cast hash).started).mpr isOver
    refine ⟨isOver, ?_, fun settled => (cast hash).approved settled unapproved⟩
    simp only [checkProposalStatus, late, if_true]
  · exact performance_of_outcome taken expiring lower

def firstProposal (block : UInt16) : List (Tx × Call) :=
  opening [0, 1, 2] ++ [propose 0 0 block 7 3 []]

def firstApproval : List (Tx × Call) :=
  firstProposal 60 ++
    [(sentBy 1 61, .voteOnProposal 1 7 false), (sentBy 1 62, .requestProposalAction 1 7)]

/-- The second node proposes in the first block of its turn.  The proposal of the first
node expires although it was made one block before, or although it was approved. -/
theorem next_proposal_expires_open_and_approved :
    let start : Trace := { state := smallSubchain 1 (by decide) }
    let unripe := (firstProposal 83).foldl (Trace.next plainEnv) start
    let approved := firstApproval.foldl (Trace.next plainEnv) start
    let event := propose 1 1 84 8 3 []
    (Expires unripe.state.proposals (unripe.next plainEnv event).state.proposals 7 ∧
      checkProposalStatus event.1 unripe.state 7 = .undecided ∧
      (unripe.next plainEnv event).state.nodePerformance 1 = 4) ∧
    (Expires approved.state.proposals (approved.next plainEnv event).state.proposals 7 ∧
      approved.record.settled = [7]) := by
  decide +kernel

def afterFirstProposal : Trace :=
  (firstProposal 60).foldl (Trace.next plainEnv) { state := smallSubchain 1 one_allowed }

/-- A proposal of block 60 is over in block 85 and expires then. -/
theorem late_proposal_expires :
    let event := propose 1 1 85 8 3 []
    Expires afterFirstProposal.state.proposals
        (afterFirstProposal.next plainEnv event).state.proposals 7 ∧
      votingEnd (afterFirstProposal.state.proposals 7) < event.1.blockNumber ∧
      checkProposalStatus event.1 afterFirstProposal.state 7 = .expired ∧
      7 ∉ afterFirstProposal.record.settled := by
  intro event
  have expires :
      Expires afterFirstProposal.state.proposals
        (afterFirstProposal.next plainEnv event).state.proposals 7 := by
    decide +kernel
  have inTime : ExpiresInTime plainEnv afterFirstProposal event :=
    no_premature_expiry_of_run (deploy_smallSubchain 1 (by decide)) (firstProposal 60) event
      (by decide +kernel)
  exact ⟨expires, inTime.late 7 expires⟩

end MoacVnode.Solidity.SubChainBase
