import MoacVnode.Solidity.SubChainRuns

/-!
# The holding pool

Users who move tokens into the subchain wait in `holdingPool`, and every distribution records the
next of them in its proposal.
-/

namespace MoacVnode.Solidity.SubChainBase

open MoacVnode.Core Lib List
open Function (update update_self update_of_ne)

/-- A user with the amount of tokens. -/
abbrev Entry := Address × Uint256

/-- The subchain with the storage of its token functions. -/
structure TokenChain where
  base : State
  tokenAddress : Address := 0
  BALANCE : Uint256 := 0
  /-- The arrays `userAddr` and `amount`. -/
  holdingPool : List Entry := []
  holdingPoolPos : Nat := 0
  MAX_USERADDR_TO_SUBCHAIN : Nat := 100
  /-- The arrays `userAddr` and `amount` of the proposals. -/
  entered : Hash → List Entry := fun _ => []
  /-- The proposals in the order of their approval, with the limit at that time. -/
  approvals : List (Hash × Nat) := []

/-- The loop of `removeholdingPool` over the pool from position `i` on. -/
def enterLoop (limit : Nat) : List Entry → Nat → List Entry → List Entry × Nat
  | [], i, entered => (entered, i)
  | entry :: rest, i, entered =>
    if entered.length = limit then (entered, i)
    else enterLoop limit rest (i + 1) (entered ++ [entry])

def removeholdingPool (chain : TokenChain) (hash : Hash) : TokenChain :=
  if (chain.base.proposals hash).lastApproved ≠ 0 then
    let (entered, i) :=
      enterLoop chain.MAX_USERADDR_TO_SUBCHAIN (chain.holdingPool.drop chain.holdingPoolPos)
        chain.holdingPoolPos (chain.entered hash)
    { chain with holdingPoolPos := i, entered := update chain.entered hash entered }
  else chain

/-- The distribution redeems tokens. -/
def redeems (chain : TokenChain) (hash : Hash) : Bool :=
  let prop := chain.base.proposals hash
  prop.redeemAddr.length ≠ 0 ∧ prop.redeemAgreeList.length > chain.base.nodeCount / 2

def countRedeemed (chain : TokenChain) (hash : Hash) (base : State) : State :=
  if redeems chain hash then
    let redeemed := BitVec.ofNat 256 (chain.base.proposals hash).redeemAddr.length
    { base with dappRedeemPos := base.dappRedeemPos + redeemed }
  else base

inductive TokenCall where
  | setToken (addr : Address) (totalSupply : Uint256)
  /-- `res` is the answer of the token contract, `false` also if it reverts. -/
  | requestEnterMicrochain (amount : Uint256) (res : Bool)
  | updateMaxEnterNum (num : Uint256)
  /-- `reverts` if the token contract reverts a redemption. -/
  | other (call : Call) (reverts : Bool)

def distribute (env : Env) (tx : Tx) (chain : TokenChain) (hash : Hash) (reverts : Bool) :
    TokenChain :=
  let (base, done) := perform env tx chain.base (.requestDistributeAction hash)
  let approvals := chain.approvals ++ [(hash, chain.MAX_USERADDR_TO_SUBCHAIN)]
  if done = false then { chain with base := base }
  else if chain.BALANCE = 0 then { chain with base := base, approvals := approvals }
  else if redeems chain hash ∧ chain.tokenAddress ≠ 0 ∧ reverts then chain
  else
    { removeholdingPool chain hash with
      base := countRedeemed chain hash base
      approvals := approvals }

def TokenChain.next (env : Env) (chain : TokenChain) : Tx × TokenCall → TokenChain
  | (tx, .setToken addr totalSupply) =>
    if tx.value ≠ 0 ∨ tx.sender ≠ chain.base.owner ∨ addr = 0 then chain
    else { chain with tokenAddress := addr, BALANCE := totalSupply }
  | (tx, .requestEnterMicrochain amount res) =>
    if tx.value ≠ 0 ∨ chain.tokenAddress = 0 ∨ res = false then chain
    else { chain with holdingPool := chain.holdingPool ++ [(tx.sender, amount * 10 ^ 18)] }
  | (tx, .updateMaxEnterNum num) =>
    if tx.value ≠ 0 ∨ chain.base.owner ≠ tx.sender then chain
    else { chain with MAX_USERADDR_TO_SUBCHAIN := num.toNat }
  | (tx, .other (.requestDistributeAction hash) reverts) => distribute env tx chain hash reverts
  | (tx, .other call _) => { chain with base := (perform env tx chain.base call).1 }

/-- The proposals record the entries of the pool before `holdingPoolPos`, each within its
limit. -/
structure Held (chain : TokenChain) : Prop where
  approved :
    ∀ hash, hash ∈ chain.approvals.map Prod.fst ↔ (chain.base.proposals hash).flag = .approved
  inPool : chain.holdingPoolPos ≤ chain.holdingPool.length
  recorded :
    chain.approvals.flatMap (fun approval => chain.entered approval.1) =
      chain.holdingPool.take chain.holdingPoolPos
  limited : ∀ approval ∈ chain.approvals, (chain.entered approval.1).length ≤ approval.2
  blank : ∀ hash, (chain.base.proposals hash).flag ≠ .approved → chain.entered hash = []

variable {env : Env} {tx : Tx} {base : State} {call : Call} {core : Core} {result : Bool}
  {hash : Hash} {chain : TokenChain}

theorem enterLoop_eq (limit i : Nat) (rest entered : List Entry) :
    ∃ count ≤ rest.length,
      enterLoop limit rest i entered = (entered ++ rest.take count, i + count) ∧
        (entered.length ≤ limit → entered.length + count ≤ limit) := by
  induction rest generalizing i entered with
  | nil => exact ⟨0, le_rfl, by simp [enterLoop], id⟩
  | cons entry rest ih =>
    rw [enterLoop]
    split
    · exact ⟨0, Nat.zero_le _, by simp, id⟩
    · obtain ⟨count, inRest, looped, within⟩ := ih (i + 1) (entered ++ [entry])
      refine ⟨count + 1, Nat.succ_le_succ inRest, ?_, ?_⟩
      · rw [looped, append_assoc, take_succ_cons, singleton_append, Nat.add_right_comm i 1]
        rfl
      · rw [length_append, length_singleton] at within
        omega

theorem countRedeemed_proposals : (countRedeemed chain hash base).proposals = base.proposals := by
  unfold countRedeemed
  split <;> rfl

theorem flag_of_change {proposals : Hash → Proposal}
    (changed : ProposalsChange tx base call proposals)
    (notDistribute : ∀ hash, call ≠ .requestDistributeAction hash) (hash : Hash) :
    (proposals hash).flag = .approved ↔ (base.proposals hash).flag = .approved := by
  have expired : ((expireInProgress base).proposals hash).flag = .approved ↔
        (base.proposals hash).flag = .approved := by
    unfold expireInProgress
    split
    · by_cases same : hash = base.proposalHashInProgress <;> simp_all [expire, update_of_ne]
    · rfl
  cases changed with
  | same => rfl
  | drop => exact expired
  | @create _ _ curhash _ _ _ new =>
    by_cases same : hash = curhash <;> simp_all [storedProposal, update_of_ne]
  | distribute => exact absurd rfl (notDistribute _)
  | @vote _ changed | @lapse _ changed | @settle _ changed =>
    by_cases same : hash = changed <;> simp_all [votedProposal, update_of_ne]

theorem Outcome.of_distribute
    (taken : Outcome env tx base (.requestDistributeAction hash) core result) :
    result = false ∧ core.proposals = base.proposals ∨
      result = true ∧ (base.proposals hash).flag = .pending ∧
        core.proposals = (distributedCore base hash).proposals := by
  cases taken with
  | stutter stutters =>
    rcases stutters with silent | failed
    · exact silent.elim
    · exact .inl ⟨failed, rfl⟩
  | distribute pending => exact .inr ⟨rfl, pending, rfl⟩
  | retire pending approved leaving isPaid done =>
    refine .inr ⟨rfl, pending, ?_⟩
    rw [← isPaid]
    exact (SameProposals.of_ledger (ledger_withdrawal done)).1

namespace Held

theorem of_flags (held : Held chain) (same : ∀ hash, (base.proposals hash).flag = .approved ↔
      (chain.base.proposals hash).flag = .approved) : Held { chain with base := base } :=
  { held with
    approved := fun hash => (held.approved hash).trans (same hash).symm
    blank := fun hash notApproved => held.blank hash (mt (same hash).mpr notApproved) }

theorem approve (held : Held chain) (pending : (chain.base.proposals hash).flag = .pending)
    (approved : base.proposals = (distributedCore chain.base hash).proposals) {count : Nat}
    (inPool : chain.holdingPoolPos + count ≤ chain.holdingPool.length)
    (within : count ≤ chain.MAX_USERADDR_TO_SUBCHAIN) :
    Held
      { chain with
        base := base
        holdingPoolPos := chain.holdingPoolPos + count
        entered :=
          update chain.entered hash ((chain.holdingPool.drop chain.holdingPoolPos).take count)
        approvals := chain.approvals ++ [(hash, chain.MAX_USERADDR_TO_SUBCHAIN)] } := by
  have fresh {approval : Hash × Nat} (prior : approval ∈ chain.approvals) : approval.1 ≠ hash := by
    rintro rfl
    have := (held.approved _).mp (mem_map_of_mem prior)
    simp [pending] at this
  have flags (other : Hash) (ne : other ≠ hash) :
      base.proposals other = chain.base.proposals other := by
    rw [approved]
    exact update_of_ne ne _ _
  have isApproved : (base.proposals hash).flag = .approved := by simp [approved, distributedCore]
  constructor
  · intro other
    by_cases same : other = hash
    · simp [same, isApproved]
    · simpa [same, flags other same] using held.approved other
  · exact inPool
  · have kept (entries : List Entry) :
        chain.approvals.flatMap (fun approval => update chain.entered hash entries approval.1) =
          chain.approvals.flatMap fun approval => chain.entered approval.1 :=
      flatMap_congr fun approval prior => update_of_ne (fresh prior) _ _
    rw [flatMap_append, kept, held.recorded, take_add, flatMap_singleton]
    dsimp only
    rw [update_self]
  · intro approval listed
    rcases mem_append.mp listed with prior | last
    · simpa [update_of_ne (fresh prior)] using held.limited approval prior
    · rw [mem_singleton.mp last]
      simp only [update_self, length_take]
      omega
  · intro other notApproved
    by_cases same : other = hash
    · exact absurd isApproved (same ▸ notApproved)
    · simpa [update_of_ne same] using held.blank other (flags other same ▸ notApproved)

theorem distribute (held : Held chain) (reverts : Bool) :
    Held (distribute env tx chain hash reverts) := by
  obtain ⟨balance, taken⟩ := outcome_perform env tx chain.base (.requestDistributeAction hash)
  unfold SubChainBase.distribute
  generalize perform env tx chain.base (.requestDistributeAction hash) = after at taken ⊢
  obtain ⟨base, result⟩ := after
  rcases taken.of_distribute with ⟨rfl, same⟩ | ⟨rfl, pending, approved⟩
  · exact held.of_flags fun hash => by rw [show base.proposals = chain.base.proposals from same]
  · have blank := held.blank hash (by simp [show (chain.base.proposals hash).flag = _ from pending])
    have skipped {after : State} (same : after.proposals = base.proposals) :=
      held.approve pending (same.trans approved) (Nat.add_zero _ ▸ held.inPool) (Nat.zero_le _)
    simp only [take_zero, ← blank, Function.update_eq_self] at skipped
    dsimp only
    rw [if_neg (by simp)]
    split
    · exact skipped rfl
    · split
      · exact held
      · unfold removeholdingPool
        split
        · obtain ⟨count, inRest, looped, within⟩ :=
            enterLoop_eq chain.MAX_USERADDR_TO_SUBCHAIN chain.holdingPoolPos
              (chain.holdingPool.drop chain.holdingPoolPos) (chain.entered hash)
          rw [looped, blank]
          rw [blank, length_nil, Nat.zero_add] at within
          rw [length_drop] at inRest
          have inPool := held.inPool
          exact held.approve pending (countRedeemed_proposals.trans approved) (by omega)
            (within (Nat.zero_le _))
        · exact skipped countRedeemed_proposals

theorem next (held : Held chain) (event : Tx × TokenCall) : Held (chain.next env event) := by
  unfold TokenChain.next
  split
  · split
    · exact held
    · exact { held with }
  · split
    · exact held
    · refine { held with inPool := ?_, recorded := ?_ }
      · exact held.inPool.trans (by simp)
      · exact held.recorded.trans (take_append_of_le_length held.inPool).symm
  · split
    · exact held
    · exact { held with }
  · exact held.distribute _
  · rename_i tx call reverts notDistribute
    obtain ⟨balance, taken⟩ := outcome_perform env tx chain.base call
    exact held.of_flags fun hash => (flag_of_change taken.proposalsChange notDistribute hash :)

end Held

/-- In every run, the approved proposals record the entries of the holding pool in order, each once
and within the limit. -/
theorem holding_pool_of_run {creation : Tx} {protocol : SubChainProtocolBase.State} {min max : Nat}
    {thousandth flushRound : Uint256}
    (deployed : deploy env creation protocol min max thousandth flushRound = some base)
    (events : List (Tx × TokenCall)) :
    Held (events.foldl (TokenChain.next env) { base := base }) := by
  have start : Held { base := base } := by
    simp only [deploy, Option.ite_none_left_eq_some, Option.some_inj] at deployed
    rw [← deployed.2]
    constructor <;> simp
  exact foldlRecOn events _ start fun _ held event _ => held.next event

/-- Two users wait.  The first distribution has no approved proposal before it, and the second
records one of them, as many as the limit allows. -/
def twoDistributions : List (Tx × TokenCall) :=
  (opening [0, 1, 2]).map (fun event => (event.1, .other event.2 false)) ++
    [(sentBy 12 21, .setToken 5 1000), (sentBy 3 22, .requestEnterMicrochain 7 true),
      (sentBy 4 22, .requestEnterMicrochain 8 true), (sentBy 12 23, .updateMaxEnterNum 1)] ++
    [propose 0 0 60 7 3 [], (sentBy 1 61, .voteOnProposal 1 7 false),
      (sentBy 0 62, .requestProposalAction 0 7), (sentBy 0 63, .requestDistributeAction 7),
      (sentBy 1 103, .createProposal 1 ⟨[7, 8], [0, 0], [0, 0, 0], [], 0, [], []⟩),
      (sentBy 0 104, .voteOnProposal 0 8 false), (sentBy 1 105, .requestProposalAction 1 8),
      (sentBy 1 106, .requestDistributeAction 8)].map
      fun event => (event.1, .other event.2 false)

theorem entry_held :
    let chain := twoDistributions.foldl (TokenChain.next plainEnv)
      { base := smallSubchain 1 one_allowed }
    (chain.approvals = [(7, 1), (8, 1)] ∧ chain.entered 7 = [] ∧
        chain.entered 8 = [(4, 7 * 10 ^ 18)] ∧ chain.holdingPool.length = 2 ∧
        chain.holdingPoolPos = 1) ∧
      Held chain :=
  ⟨by decide +kernel, holding_pool_of_run (deploy_smallSubchain 1 one_allowed) twoDistributions⟩

end MoacVnode.Solidity.SubChainBase
