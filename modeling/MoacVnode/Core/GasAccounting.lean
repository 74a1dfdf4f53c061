import Mathlib.Data.FinEnum
import MoacVnode.Core.StateTransition

/-!
# The accounts of a state transition

What a message pays: the gas is bought at the price of the message, what is left of it and the
refund go back to the sender, and the rest goes to the coinbase.

The machine is only known by what is documented of it: a call or a creation moves funds
between accounts, and returns no more gas than it was given.
-/

namespace MoacVnode.Core

open Nat StateDb Finset

variable {Rest : Type}

def StateDb.total (state : StateDb Rest) : Int := ∑ addr, state.balance addr

theorem StateDb.balance_addBalance (state : StateDb Rest) (addr other : Address) (amount : Int) :
    (state.addBalance addr amount).balance other =
      state.balance other + if other = addr then amount else 0 := by
  by_cases same : other = addr
  · simp [addBalance, same]
  · simp [addBalance, same]

/-- What is documented of the machine and of the gas parameters. -/
structure Documented (evm : Machine Rest) : Prop where
  createAccount_balance : ∀ state addr, (evm.createAccount state addr).balance = state.balance
  createAccount_nonce : ∀ state addr, (evm.createAccount state addr).nonce = state.nonce
  create_total : ∀ ctx msg state gas, (evm.create ctx msg state gas).state.total = state.total
  create_gas : ∀ ctx msg state gas, (evm.create ctx msg state gas).gasRemaining ≤ gas
  call_total : ∀ ctx msg state gas, (evm.call ctx msg state gas).state.total = state.total
  call_gas : ∀ ctx msg state gas, (evm.call ctx msg state gas).gasRemaining ≤ gas
  txGas_pos : 0 < evm.env.txGas
  txGasContractCreation_pos : 0 < evm.env.txGasContractCreation

theorem Documented.intrinsicGas_pos {evm : Machine Rest} (documented : Documented evm)
    (ctx : BlockContext) (msg : Message) :
    0 < StateTransition.intrinsicGas evm ctx msg := by
  have counted : ((msg.data.countP (· ≠ 0) : Nat) : Int) ≤ msg.data.length := by
    exact_mod_cast List.countP_le_length
  have nonZero : 0 ≤ ((msg.data.countP (· ≠ 0) : Nat) : Int) * evm.env.txDataNonZeroGas := by
    positivity
  have zero : 0 ≤ ((msg.data.length : Int) - (msg.data.countP (· ≠ 0) : Nat)) *
      evm.env.txDataZeroGas :=
    mul_nonneg (by omega) (by omega)
  have plain := documented.txGas_pos
  have creation := documented.txGasContractCreation_pos
  unfold StateTransition.intrinsicGas TxPool.intrinsicGas
  dsimp only
  split <;> omega

namespace StateTransition

variable {evm : Machine Rest} {ctx : BlockContext} {msg : Message}
  {st : StateTransition Rest} {res : TransitionResult} {error : TransitionError}

/-- The transition after the gas was bought. -/
structure Bought (evm : Machine Rest) (msg : Message) (st bought : StateTransition Rest) :
    Prop where
  gasLimit_lt : msg.gasLimit < uint64Size
  pool : bought.gasPool = st.gasPool - msg.gasLimit
  state : bought.state =
    (evm.createAccount (evm.createAccount st.state msg.sender) msg.sender).subBalance
      msg.sender (msg.gasLimit * msg.gasPrice)
  gasRemaining : bought.gasRemaining = (st.gasRemaining + msg.gasLimit) % uint64Size
  initialGas : bought.initialGas = msg.gasLimit

theorem bought_of_preCheck (passes : (preCheck evm msg st).2 = none) :
    Bought evm msg st (preCheck evm msg st).1 := by
  have checked := checked_of_preCheck passes
  rw [preCheck_of_checked checked]
  exact ⟨checked.gasLimit_lt, rfl, rfl, rfl, rfl⟩

/-- What a transition that succeeds has passed. -/
structure Succeeds (evm : Machine Rest) (ctx : BlockContext) (msg : Message)
    (st : StateTransition Rest) : Prop where
  checked : (preCheck evm msg st).2 = none
  intrinsic : (payIntrinsicGas evm ctx msg (touchSender evm msg (preCheck evm msg st).1)).2 = none
  funded : (ran evm ctx msg st).2 ≠ some .insufficientBalance

theorem transitionDb_of_succeeds (passes : Succeeds evm ctx msg st) :
    transitionDb evm ctx msg st =
      settle evm ctx msg (ran evm ctx msg st).1 (ran evm ctx msg st).2 := by
  rcases transitionDb_cases evm ctx msg st with
    ⟨_, failed, -⟩ | ⟨-, ⟨_, failed, -⟩ | ⟨-, outcome⟩⟩
  · cases passes.checked.symm.trans failed
  · cases passes.intrinsic.symm.trans failed
  · exact outcome

theorem succeeds_of_transitionDb (succeeds : (transitionDb evm ctx msg st).2 = .ok res) :
    Succeeds evm ctx msg st := by
  rcases transitionDb_cases evm ctx msg st with
    ⟨_, -, outcome⟩ | ⟨checked, ⟨_, -, outcome⟩ | ⟨intrinsic, outcome⟩⟩
  · rw [outcome] at succeeds
    cases succeeds
  · rw [outcome] at succeeds
    cases succeeds
  · refine ⟨checked, intrinsic, ?_⟩
    intro poor
    rw [outcome, settle, if_pos poor] at succeeds
    cases succeeds

theorem gasPool_transitionDb_of_bought (checked : (preCheck evm msg st).2 = none)
    (fails : (transitionDb evm ctx msg st).2 = .error error) :
    (transitionDb evm ctx msg st).1.gasPool = st.gasPool - msg.gasLimit := by
  rw [gasPool_transitionDb_eq_preCheck fails, (bought_of_preCheck checked).pool]

structure Paid (evm : Machine Rest) (ctx : BlockContext) (msg : Message)
    (st paid : StateTransition Rest) : Prop where
  gasLimit_lt : msg.gasLimit < uint64Size
  initialGas : paid.initialGas = msg.gasLimit
  gasRemaining : paid.gasRemaining + intrinsicGas evm ctx msg = msg.gasLimit
  pool : paid.gasPool = st.gasPool - msg.gasLimit
  balance : ∀ addr, paid.state.balance addr =
    st.state.balance addr -
      if addr = msg.sender then (msg.gasLimit * msg.gasPrice : Int) else 0
  nonce : paid.state.nonce = st.state.nonce

section

variable (documented : Documented evm) (plain : msg.system = 0)
include documented plain

theorem paid_of_succeeds (fresh : st.gasRemaining = 0) (passes : Succeeds evm ctx msg st) :
    Paid evm ctx msg st (paid evm ctx msg st) := by
  have bought := bought_of_preCheck passes.checked
  have remaining : (preCheck evm msg st).1.gasRemaining = msg.gasLimit := by
    rw [bought.gasRemaining, fresh, zero_add, mod_eq_of_lt bought.gasLimit_lt]
  have intrinsic := passes.intrinsic
  have positive := documented.intrinsicGas_pos ctx msg
  unfold paid
  unfold payIntrinsicGas at *
  have small : intrinsicGas evm ctx msg < uint64Size := by
    by_contra tooLarge
    rw [if_pos (by omega)] at intrinsic
    cases intrinsic
  rw [if_neg (by omega), if_neg (by omega)] at intrinsic ⊢
  by_cases tooLittle : (touchSender evm msg (preCheck evm msg st).1).gasRemaining <
      intrinsicGas evm ctx msg
  · rw [if_pos tooLittle] at intrinsic
    cases intrinsic
  · rw [if_neg tooLittle]
    have enough : intrinsicGas evm ctx msg ≤ (preCheck evm msg st).1.gasRemaining :=
      not_lt.mp tooLittle
    refine ⟨bought.gasLimit_lt, bought.initialGas, ?_, bought.pool, ?_, ?_⟩
    · show (((preCheck evm msg st).1.gasRemaining -
        (intrinsicGas evm ctx msg).toNat : Nat) : Int) + _ = _
      omega
    · intro addr
      simp only [touchSender, bought.state, documented.createAccount_balance,
        subBalance, balance_addBalance]
      split <;> omega
    · simp only [touchSender, bought.state, documented.createAccount_nonce]
      exact (documented.createAccount_nonce _ _).trans (documented.createAccount_nonce _ _)

theorem gasRemaining_execute_le : (execute evm ctx msg st).1.gasRemaining ≤ st.gasRemaining := by
  unfold execute
  cases msg.toAddress with
  | none =>
    simp only [plain]
    exact documented.create_gas _ _ _ _
  | some recipient => exact documented.call_gas _ _ _ _

theorem total_execute : (execute evm ctx msg st).1.state.total = st.state.total := by
  unfold execute
  cases msg.toAddress with
  | none =>
    simp only [plain]
    exact documented.create_total _ _ _ _
  | some recipient =>
    have counted : ∀ counted : StateDb Rest, counted.balance = st.state.balance →
        (evm.call ctx msg (evm.createAccount counted recipient)
          st.gasRemaining).state.total = st.state.total := by
      intro counted same
      rw [documented.call_total]
      rw [total, total, (documented.createAccount_balance _ _).trans same]
    exact counted _ rfl

end

/-- `refundGas` gives back all the gas but what is used in the end, which is at least half of what
was used before. -/
structure Refunded (msg : Message) (st refunded : StateTransition Rest) : Prop where
  gasUsed_pos : 0 < refunded.gasUsed
  gasUsed_le : refunded.gasUsed ≤ st.gasUsed
  half : st.gasUsed - refunded.gasUsed ≤ st.gasUsed / 2
  noWrap : st.gasRemaining + (st.gasUsed - refunded.gasUsed) < uint64Size
  pool : refunded.gasPool = st.gasPool + (st.initialGas - refunded.gasUsed)
  balance : ∀ addr, refunded.state.balance addr =
    st.state.balance addr +
      if addr = msg.sender then (st.initialGas - refunded.gasUsed) * msg.gasPrice else 0

-- the counter is cut at half of the gas used, so adding it does not wrap
theorem refundGas_eq (used : (st.gasRemaining : Int) < st.initialGas)
    (small : st.initialGas < uint64Size) :
    ∃ refund : Nat, (refund : Int) ≤ (st.initialGas - st.gasRemaining) / 2 ∧
      refundGas evm msg st =
        { gasPool := st.gasPool + (st.gasRemaining + refund)
          state := ((evm.createAccount st.state msg.sender).addBalance msg.sender
            (st.gasRemaining * msg.gasPrice)).addBalance msg.sender (refund * msg.gasPrice)
          gasRemaining := st.gasRemaining + refund
          initialGas := st.initialGas } := by
  have gasUsedEq : (touchSender evm msg st).gasUsed = st.initialGas - st.gasRemaining := if_pos used
  have returnedEq : (if ((touchSender evm msg st).gasRemaining : Int) <
        (touchSender evm msg st).initialGas then
      (touchSender evm msg st).state.addBalance msg.sender
        ((touchSender evm msg st).gasRemaining * msg.gasPrice)
      else (touchSender evm msg st).state) =
      (evm.createAccount st.state msg.sender).addBalance msg.sender
        (st.gasRemaining * msg.gasPrice) :=
    if_pos used
  unfold refundGas
  simp only [returnedEq, gasUsedEq]
  generalize evm.getRefund _ = counter
  obtain ⟨refund, refundEq⟩ := Int.eq_ofNat_of_zero_le
    (show 0 ≤ min ((st.initialGas - st.gasRemaining) / 2) (counter : Int) by omega)
  have noWrap : ((touchSender evm msg st).gasRemaining + refund) % uint64Size =
      st.gasRemaining + refund :=
    mod_eq_of_lt (show st.gasRemaining + refund < uint64Size by omega)
  have stillLess : ((st.gasRemaining + refund : Nat) : Int) < (touchSender evm msg st).initialGas :=
    show _ < st.initialGas by omega
  refine ⟨refund, by omega, ?_⟩
  rw [refundEq, Int.toNat_natCast, noWrap, if_pos stillLess]
  rfl

theorem refunded_refundGas (documented : Documented evm)
    (used : (st.gasRemaining : Int) < st.initialGas) (small : st.initialGas < uint64Size) :
    Refunded msg st (refundGas evm msg st) := by
  obtain ⟨refund, half, refundedEq⟩ := @refundGas_eq Rest evm msg st used small
  have gasUsedEq : st.gasUsed = st.initialGas - st.gasRemaining := if_pos used
  have refundedUsed : (refundGas evm msg st).gasUsed =
      st.initialGas - (st.gasRemaining + refund) := by
    rw [refundedEq]
    exact if_pos (show ((st.gasRemaining + refund : Nat) : Int) < st.initialGas by omega)
  refine ⟨by omega, by omega, by omega, by omega, ?_, ?_⟩
  · rw [refundedUsed, refundedEq]
    dsimp only
    omega
  · intro addr
    rw [refundedUsed, refundedEq]
    simp only [balance_addBalance, documented.createAccount_balance]
    split
    · ring
    · omega

/-- What a transition has done to the accounts and to the gas pool. -/
structure GasAccounted (evm : Machine Rest) (ctx : BlockContext) (msg : Message)
    (st after : StateTransition Rest) (res : TransitionResult) : Prop where
  total : after.state.total = st.state.total
  /-- Beyond what the machine did, the sender pays the gas and the coinbase earns it. -/
  balance : ∀ addr,
    after.state.balance addr - st.state.balance addr =
      (ran evm ctx msg st).1.state.balance addr - (paid evm ctx msg st).state.balance addr -
        (if addr = msg.sender then res.usedGas * msg.gasPrice else 0) +
        (if addr = ctx.coinbase then res.usedGas * msg.gasPrice else 0)
  pool : after.gasPool = st.gasPool - res.usedGas
  usedGas_pos : 0 < res.usedGas
  usedGas_le : res.usedGas ≤ msg.gasLimit
  usedGas_le_requiredGas : res.usedGas ≤ res.requiredGas
  refund_le : res.requiredGas - res.usedGas ≤ res.requiredGas / 2

/-- No `uint64` operation of the transition leaves its range: buying the gas, paying the intrinsic
gas, counting the nonce of a sender that calls, adding the refund. -/
structure NoOverflow (evm : Machine Rest) (ctx : BlockContext) (msg : Message)
    (st : StateTransition Rest) (res : TransitionResult) : Prop where
  bought : st.gasRemaining + msg.gasLimit < uint64Size
  intrinsic_nonneg : 0 ≤ intrinsicGas evm ctx msg
  intrinsic_le : intrinsicGas evm ctx msg ≤ (st.gasRemaining + msg.gasLimit : Nat)
  nonce : msg.toAddress ≠ none →
    ((paid evm ctx msg st).state.nonce msg.sender).toNat + 1 < uint64Size
  refunded : (ran evm ctx msg st).1.gasRemaining + (res.requiredGas - res.usedGas) < uint64Size

theorem total_eq_of_balance {before paid ran after : StateDb Rest} {payer payee : Address}
    {amount : Int} (kept : ran.total = paid.total)
    (balance : ∀ addr, after.balance addr - before.balance addr =
      ran.balance addr - paid.balance addr - (if addr = payer then amount else 0) +
        (if addr = payee then amount else 0)) :
    after.total = before.total := by
  have summed := sum_congr (rfl : (univ : Finset Address) = univ) fun addr _ => balance addr
  simp only [sum_sub_distrib, sum_add_distrib, sum_ite_eq', mem_univ] at summed
  unfold total at *
  omega

def start (gasPool : Int) (state : StateDb Rest) : StateTransition Rest := { gasPool, state }

theorem gasAccounted_of_succeeds (documented : Documented evm) (plain : msg.system = 0)
    (fresh : st.gasRemaining = 0) (succeeds : (transitionDb evm ctx msg st).2 = .ok res) :
    GasAccounted evm ctx msg st (transitionDb evm ctx msg st).1 res ∧
      (ran evm ctx msg st).1.gasRemaining + (res.requiredGas - res.usedGas) <
        uint64Size := by
  have passes := succeeds_of_transitionDb succeeds
  have paidSpec := paid_of_succeeds documented plain fresh passes
  have positive := documented.intrinsicGas_pos ctx msg
  have totalKept : (ran evm ctx msg st).1.state.total = (paid evm ctx msg st).state.total :=
    total_execute documented plain
  have ranLe : (ran evm ctx msg st).1.gasRemaining ≤ (paid evm ctx msg st).gasRemaining :=
    gasRemaining_execute_le documented plain
  have ranInitial : (ran evm ctx msg st).1.initialGas = msg.gasLimit :=
    initialGas_execute.trans paidSpec.initialGas
  have ranPool : (ran evm ctx msg st).1.gasPool = st.gasPool - msg.gasLimit :=
    gasPool_execute.trans paidSpec.pool
  have remaining := paidSpec.gasRemaining
  have small := paidSpec.gasLimit_lt
  have used : ((ran evm ctx msg st).1.gasRemaining : Int) < (ran evm ctx msg st).1.initialGas := by
    omega
  have required : (ran evm ctx msg st).1.gasUsed =
      msg.gasLimit - (ran evm ctx msg st).1.gasRemaining := by
    rw [gasUsed, if_pos used, ranInitial]
  have refunded : Refunded msg _ (refundGas evm msg (ran evm ctx msg st).1) :=
    refunded_refundGas documented used (by omega)
  rw [transitionDb_of_succeeds passes, settle, if_neg passes.funded] at succeeds ⊢
  cases succeeds
  have balance : ∀ addr, _ := fun addr =>
    show ((refundGas evm msg (ran evm ctx msg st).1).state.addBalance
          ctx.coinbase ((refundGas evm msg (ran evm ctx msg st).1).gasUsed *
            msg.gasPrice)).balance addr - st.state.balance addr =
        (ran evm ctx msg st).1.state.balance addr - (paid evm ctx msg st).state.balance addr -
        (if addr = msg.sender then
          (refundGas evm msg (ran evm ctx msg st).1).gasUsed * msg.gasPrice else 0) +
        (if addr = ctx.coinbase then
          (refundGas evm msg (ran evm ctx msg st).1).gasUsed * msg.gasPrice
          else 0) by
      rw [balance_addBalance, refunded.balance, paidSpec.balance, ranInitial]
      by_cases sender : addr = msg.sender
      · simp only [if_pos sender]
        ring
      · simp only [if_neg sender]
        ring
  refine ⟨⟨total_eq_of_balance totalKept balance, balance, ?_, refunded.gasUsed_pos, ?_,
    refunded.gasUsed_le, refunded.half⟩, refunded.noWrap⟩
  · rw [refunded.pool, ranPool, ranInitial]
    dsimp only
    omega
  · have le := refunded.gasUsed_le
    dsimp only
    omega

/-- Gas accounting conserves value. Only the count of the nonce of a sender that calls can leave
`uint64`. -/
theorem gas_accounting (documented : Documented evm) (plain : msg.system = 0)
    (gasPool : Int) (state : StateDb Rest) {res : TransitionResult}
    (succeeds : (transitionDb evm ctx msg (start gasPool state)).2 = .ok res) :
    GasAccounted evm ctx msg (start gasPool state)
        (transitionDb evm ctx msg (start gasPool state)).1 res ∧
      (NoOverflow evm ctx msg (start gasPool state) res ↔
        msg.toAddress = none ∨ (state.nonce msg.sender).toNat + 1 < uint64Size) := by
  obtain ⟨accounted, refunded⟩ := gasAccounted_of_succeeds documented plain rfl succeeds
  have paidSpec : Paid evm ctx msg (start gasPool state) _ :=
    paid_of_succeeds documented plain rfl (succeeds_of_transitionDb succeeds)
  have remaining := paidSpec.gasRemaining
  have positive := documented.intrinsicGas_pos ctx msg
  have sameNonce : (paid evm ctx msg (start gasPool state)).state.nonce = state.nonce :=
    paidSpec.nonce
  refine ⟨accounted, ?_⟩
  constructor
  · intro fits
    have counted := fits.nonce
    rw [sameNonce] at counted
    exact (em (msg.toAddress = none)).imp_right counted
  · intro fits
    refine ⟨?_, positive.le, ?_, ?_, refunded⟩
    · show 0 + msg.gasLimit < uint64Size
      have small := paidSpec.gasLimit_lt
      omega
    · omega
    · intro calls
      rw [sameNonce]
      exact fits.resolve_left calls

def transferMachine : Machine Unit where
  env := .plain
  asMessage _ _ := none
  createAccount state _ := state
  getFlag _ _ := 0
  setFlag state _ _ := state
  getRefund _ := 300
  getLogs _ _ := []
  finalise state := state
  intermediateRoot _ := 0
  create _ _ state gas := { state := state, gasRemaining := gas }
  createSystemContract _ _ state := (state, none)
  call _ msg state gas :=
    if state.balance msg.sender < msg.value then
      { state := state, gasRemaining := gas, error := some .insufficientBalance }
    else
      { state := (state.subBalance msg.sender msg.value).addBalance
          (msg.toAddress.getD msg.sender) msg.value
        gasRemaining := gas - 1000 }

theorem documented_transferMachine : Documented transferMachine where
  createAccount_balance _ _ := rfl
  createAccount_nonce _ _ := rfl
  create_total _ _ _ _ := rfl
  create_gas _ _ _ _ := le_rfl
  call_total ctx msg state gas := by
    unfold transferMachine
    dsimp only
    split
    · rfl
    · refine @total_eq_of_balance Unit state state state _ msg.sender
        (msg.toAddress.getD msg.sender) msg.value rfl ?_
      intro addr
      simp only [subBalance, balance_addBalance]
      split <;> omega
  call_gas _ msg state gas := by
    unfold transferMachine
    dsimp only
    split
    · exact le_rfl
    · exact sub_le gas 1000
  txGas_pos := by decide
  txGasContractCreation_pos := by decide

private def someContext : BlockContext :=
  { coinbase := 9, parentHash := 0, number := 1, time := 0, difficulty := 0, gasLimit := 90000 }

private def callMessage (nonce : UInt64) : Message :=
  { sender := 1, toAddress := some 2, nonce := nonce, gasLimit := 50000, gasPrice := 2
    value := 7, hash := 5 }

private def richState (nonce : UInt64) : StateDb Unit :=
  { balance := fun addr => if addr = 1 then 1000000 else 0
    nonce := fun addr => if addr = 1 then nonce else 0
    rest := () }

/-- A transfer uses 21000 gas and 1000 in the call, less a refund of 300. -/
theorem transfer_accounted :
    GasAccounted transferMachine someContext (callMessage 3) (start 90000 (richState 3))
        (transitionDb transferMachine someContext (callMessage 3) (start 90000 (richState 3))).1
        { requiredGas := 22000, usedGas := 21700, failed := false } ∧
      NoOverflow transferMachine someContext (callMessage 3) (start 90000 (richState 3))
        { requiredGas := 22000, usedGas := 21700, failed := false } := by
  have accounted := gas_accounting documented_transferMachine
    (show (callMessage 3).system = 0 from rfl) 90000 (richState 3)
    (show (transitionDb transferMachine someContext (callMessage 3) (start 90000 (richState 3))).2 =
        .ok { requiredGas := 22000, usedGas := 21700, failed := false } by decide +kernel)
  exact ⟨accounted.1, accounted.2.mpr (.inr (by decide))⟩

/-- The last nonce is counted to 0: the call succeeds and its sender may start again. -/
theorem last_nonce_wraps :
    (transitionDb transferMachine someContext (callMessage 0xFFFFFFFFFFFFFFFF)
        (start 90000 (richState 0xFFFFFFFFFFFFFFFF))).2 =
      .ok { requiredGas := 22000, usedGas := 21700, failed := false } ∧
    (transitionDb transferMachine someContext (callMessage 0xFFFFFFFFFFFFFFFF)
        (start 90000 (richState 0xFFFFFFFFFFFFFFFF))).1.state.nonce 1 = 0 ∧
    ¬ NoOverflow transferMachine someContext (callMessage 0xFFFFFFFFFFFFFFFF)
      (start 90000 (richState 0xFFFFFFFFFFFFFFFF))
      { requiredGas := 22000, usedGas := 21700, failed := false } := by
  refine ⟨by decide +kernel, by decide +kernel, ?_⟩
  intro fits
  have counted := fits.nonce (by decide)
  revert counted
  decide +kernel

end StateTransition

end MoacVnode.Core
