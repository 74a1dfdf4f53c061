import MoacVnode.Core.TxPool

/-!
# State transitions

`TransitionDb` checks the nonce of a message, buys its gas from the sender and from the gas
pool of the block, runs it and returns what is left.  A message that fails after its gas was
bought leaves the pool without that gas.

The virtual machine and the parts of the state that it alone works on are parameters.  The
transaction pool and the network relay that the machine may call are left out, and so is the
returned data.
-/

namespace MoacVnode.Core

/-- The errors of `ApplyTransaction`, and those that the worker tells apart. -/
inductive TransitionError where
  | invalidSender
  | nonceTooHigh
  | nonceTooLow
  | outOfGas
  /-- `insufficient balance to pay for gas`. -/
  | insufficientBalanceForGas
  | gasLimitReached
  | insufficientBalance
  | emptyCode
  | invalidCode
  deriving DecidableEq, Repr

namespace GasPool

def addGas (gasPool amount : Int) : Int := gasPool + amount

def subGas (gasPool amount : Int) : Except TransitionError Int :=
  if gasPool < amount then .error .gasLimitReached else .ok (gasPool - amount)

end GasPool

/-- A message; its amounts are unsigned, as they are in the encoding of a transaction. -/
structure Message where
  sender : Address
  toAddress : Option Address := none
  nonce : UInt64 := 0
  checkNonce : Bool := true
  gasLimit : Nat := 0
  gasPrice : Nat := 0
  value : Nat := 0
  data : List UInt8 := []
  system : Nat := 0
  shardFlag : Nat := 0
  waitBlockNumber : Nat := 0
  /-- `GetMsgHash`, under which the logs of the message are filed. -/
  hash : Hash
  deriving DecidableEq, Repr

/-- The state database: accounts, and everything else that a state holds. -/
structure StateDb (Rest : Type) where
  balance : Address → Int
  nonce : Address → UInt64
  /-- Code, storage, flags, logs and the refund counter. -/
  rest : Rest

namespace StateDb

variable {Rest : Type}

variable (state : StateDb Rest)

def addBalance (address : Address) (amount : Int) : StateDb Rest :=
  { state with balance := Function.update state.balance address (state.balance address + amount) }

def subBalance (address : Address) (amount : Int) : StateDb Rest :=
  state.addBalance address (-amount)

def setNonce (address : Address) (nonce : UInt64) : StateDb Rest :=
  { state with nonce := Function.update state.nonce address nonce }

end StateDb

structure Log where
  address : Address
  topics : List Hash := []
  data : List UInt8 := []
  deriving DecidableEq, Repr

/-- What the virtual machine reads of the block; `GetHash` walks back from the parent. -/
structure BlockContext where
  coinbase : Address
  parentHash : Hash
  number : Nat
  time : Nat
  difficulty : Nat
  gasLimit : Int
  deriving DecidableEq, Repr

/-- The errors of the virtual machine; all but one only mark the receipt as failed. -/
inductive VmError where
  | insufficientBalance
  | failed
  deriving DecidableEq, Repr

/-- What a run of the virtual machine leaves. -/
structure VmResult (Rest : Type) where
  state : StateDb Rest
  gasRemaining : Nat
  error : Option VmError := none

/-- The virtual machine and the state library. -/
structure Machine (Rest : Type) where
  env : PoolEnv
  /-- `AsMessage` with the signer for a block number. -/
  asMessage : Nat → Transaction → Option Message
  /-- `CreateAccount`, if there is no such account. -/
  createAccount : StateDb Rest → Address → StateDb Rest
  getFlag : StateDb Rest → Address → Nat
  setFlag : StateDb Rest → Address → Nat → StateDb Rest
  getRefund : StateDb Rest → Nat
  /-- The logs filed under the hash of a transaction. -/
  getLogs : StateDb Rest → Hash → List Log
  finalise : StateDb Rest → StateDb Rest
  intermediateRoot : StateDb Rest → Hash
  create : BlockContext → Message → StateDb Rest → Nat → VmResult Rest
  createSystemContract : BlockContext → Message → StateDb Rest → StateDb Rest × Option VmError
  call : BlockContext → Message → StateDb Rest → Nat → VmResult Rest

structure StateTransition (Rest : Type) where
  gasPool : Int
  state : StateDb Rest
  gasRemaining : Nat := 0
  initialGas : Int := 0

structure TransitionResult where
  requiredGas : Int
  usedGas : Int
  failed : Bool
  deriving DecidableEq, Repr

namespace StateTransition

variable {Rest : Type} (evm : Machine Rest) (ctx : BlockContext) (msg : Message)
  (st : StateTransition Rest) {error : TransitionError}

def touchSender : StateTransition Rest :=
  { st with state := evm.createAccount st.state msg.sender }

def buyGas : StateTransition Rest × Option TransitionError :=
  if uint64Size ≤ msg.gasLimit then (st, some .outOfGas)
  else
    let touched := touchSender evm msg st
    if touched.state.balance msg.sender < msg.gasLimit * msg.gasPrice then
      (touched, some .insufficientBalanceForGas)
    else
      match GasPool.subGas touched.gasPool msg.gasLimit with
      | .error error => (touched, some error)
      | .ok gasPool =>
        ({ gasPool := gasPool
           state := touched.state.subBalance msg.sender (msg.gasLimit * msg.gasPrice)
           gasRemaining := (touched.gasRemaining + msg.gasLimit) % uint64Size
           initialGas := msg.gasLimit }, none)

def nonceError (state : StateDb Rest) : Option TransitionError :=
  if ¬ msg.checkNonce then none
  else if state.nonce msg.sender < msg.nonce then some .nonceTooHigh
  else if msg.nonce < state.nonce msg.sender then some .nonceTooLow
  else none

def preCheck : StateTransition Rest × Option TransitionError :=
  let touched := touchSender evm msg st
  match nonceError msg touched.state with
  | some error => (touched, some error)
  | none => buyGas evm msg touched

def gasUsed : Int := if st.gasRemaining < st.initialGas then st.initialGas - st.gasRemaining else 0

def refundGas : StateTransition Rest :=
  let touched := touchSender evm msg st
  let ret :=
    if touched.gasRemaining < touched.initialGas then
      touched.state.addBalance msg.sender (touched.gasRemaining * msg.gasPrice)
    else touched.state
  let refund := min (touched.gasUsed / 2) (evm.getRefund ret)
  let gasRemaining := (touched.gasRemaining + refund.toNat) % uint64Size
  { touched with
    state := ret.addBalance msg.sender (refund * msg.gasPrice)
    gasRemaining := gasRemaining
    gasPool :=
      if gasRemaining < touched.initialGas then GasPool.addGas touched.gasPool gasRemaining
      else touched.gasPool }

def execute : StateTransition Rest × Option VmError :=
  match msg.toAddress with
  | none =>
    if 0 < msg.system then
      let created := evm.createSystemContract ctx msg st.state
      ({ st with state := created.1 }, created.2)
    else
      let created := evm.create ctx msg st.state st.gasRemaining
      ({ st with state := created.state, gasRemaining := created.gasRemaining }, created.error)
  | some recipient =>
    let counted := st.state.setNonce msg.sender (st.state.nonce msg.sender + 1)
    let called := evm.call ctx msg (evm.createAccount counted recipient)
      st.gasRemaining
    ({ st with state := called.state, gasRemaining := called.gasRemaining }, called.error)

def intrinsicGas : Int :=
  TxPool.intrinsicGas evm.env msg.data (msg.toAddress = none) (evm.env.isPangu ctx.number)

/-- `useGas` for the intrinsic gas, which a system message does not pay. -/
def payIntrinsicGas : StateTransition Rest × Option TransitionError :=
  let gas := intrinsicGas evm ctx msg
  if uint64Size ≤ gas then (st, some .outOfGas)
  else if msg.system ≠ 0 then (st, none)
  else if st.gasRemaining < gas then (st, some .outOfGas)
  else ({ st with gasRemaining := st.gasRemaining - gas.toNat }, none)

/-- The end of `TransitionDb`: the refund, and the fee of the coinbase. -/
def settle (vmError : Option VmError) :
    StateTransition Rest × Except TransitionError TransitionResult :=
  if vmError = some .insufficientBalance then (st, .error .insufficientBalance)
  else
    let refunded := refundGas evm msg st
    ({ refunded with
       state := refunded.state.addBalance ctx.coinbase (refunded.gasUsed * msg.gasPrice) },
      .ok
        { requiredGas := st.gasUsed
          usedGas := refunded.gasUsed
          failed := vmError.isSome })

/-- `TransitionDb` from the point where the gas is bought. -/
def transitionPaid : StateTransition Rest × Except TransitionError TransitionResult :=
  match payIntrinsicGas evm ctx msg (touchSender evm msg st) with
  | (paid, some error) => (paid, .error error)
  | (paid, none) =>
    let ran := execute evm ctx msg paid
    settle evm ctx msg ran.1 ran.2

def transitionDb : StateTransition Rest × Except TransitionError TransitionResult :=
  match preCheck evm msg st with
  | (checked, some error) => (checked, .error error)
  | (checked, none) => transitionPaid evm ctx msg checked

/-- The transition as the machine finds it: the gas is bought and the intrinsic gas is paid. -/
def paid (evm : Machine Rest) (ctx : BlockContext) (msg : Message)
    (st : StateTransition Rest) : StateTransition Rest :=
  (payIntrinsicGas evm ctx msg (touchSender evm msg (preCheck evm msg st).1)).1

def ran (evm : Machine Rest) (ctx : BlockContext) (msg : Message)
    (st : StateTransition Rest) : StateTransition Rest × Option VmError :=
  execute evm ctx msg (paid evm ctx msg st)

variable {evm ctx msg st}

/-- What `preCheck` asks of the message, of its sender and of the gas pool. -/
structure Checked (evm : Machine Rest) (msg : Message) (st : StateTransition Rest) :
    Prop where
  nonce : nonceError msg (evm.createAccount st.state msg.sender) = none
  gasLimit_lt : msg.gasLimit < uint64Size
  funded : ¬ (evm.createAccount (evm.createAccount st.state msg.sender)
    msg.sender).balance msg.sender < msg.gasLimit * msg.gasPrice
  room : ¬ st.gasPool < msg.gasLimit

theorem preCheck_of_checked (checked : Checked evm msg st) :
    preCheck evm msg st =
      ({ gasPool := st.gasPool - msg.gasLimit
         state := (evm.createAccount (evm.createAccount st.state msg.sender)
           msg.sender).subBalance msg.sender (msg.gasLimit * msg.gasPrice)
         gasRemaining := (st.gasRemaining + msg.gasLimit) % uint64Size
         initialGas := msg.gasLimit }, none) := by
  have small := not_le.mpr checked.gasLimit_lt
  have funded := checked.funded
  have room := checked.room
  simp only [preCheck, buyGas, GasPool.subGas, touchSender, checked.nonce, small, funded, room,
    if_false]

theorem preCheck_cases (evm : Machine Rest) (msg : Message) (st : StateTransition Rest) :
    (∃ error, (preCheck evm msg st).2 = some error ∧
        (preCheck evm msg st).1.gasPool = st.gasPool) ∨
      Checked evm msg st := by
  cases wrong : nonceError msg (evm.createAccount st.state msg.sender) with
  | some error => exact .inl (by simp [preCheck, wrong, touchSender])
  | none =>
    by_cases small : msg.gasLimit < uint64Size
    · by_cases poor : (evm.createAccount (evm.createAccount st.state msg.sender)
          msg.sender).balance msg.sender < msg.gasLimit * msg.gasPrice
      · exact .inl (by simp [preCheck, wrong, buyGas, touchSender, not_le.mpr small, poor])
      · by_cases empty : st.gasPool < msg.gasLimit
        · exact .inl (by
            simp [preCheck, wrong, buyGas, GasPool.subGas, touchSender, not_le.mpr small, poor,
              empty])
        · exact .inr ⟨wrong, small, poor, empty⟩
    · exact .inl (by simp [preCheck, wrong, buyGas, touchSender, not_lt.mp small])

theorem checked_of_preCheck (passes : (preCheck evm msg st).2 = none) : Checked evm msg st := by
  rcases preCheck_cases evm msg st with ⟨error, failed, -⟩ | checked
  · cases passes.symm.trans failed
  · exact checked

theorem gasPool_preCheck_of_error (failed : (preCheck evm msg st).2 = some error) :
    (preCheck evm msg st).1.gasPool = st.gasPool := by
  rcases preCheck_cases evm msg st with ⟨-, -, same⟩ | checked
  · exact same
  · rw [preCheck_of_checked checked] at failed
    cases failed

theorem transitionDb_cases (evm : Machine Rest) (ctx : BlockContext) (msg : Message)
    (st : StateTransition Rest) :
    (∃ error, (preCheck evm msg st).2 = some error ∧
        transitionDb evm ctx msg st = ((preCheck evm msg st).1, .error error)) ∨
      (preCheck evm msg st).2 = none ∧
        ((∃ error, (payIntrinsicGas evm ctx msg
              (touchSender evm msg (preCheck evm msg st).1)).2 = some error ∧
            transitionDb evm ctx msg st = (paid evm ctx msg st, .error error)) ∨
          (payIntrinsicGas evm ctx msg (touchSender evm msg (preCheck evm msg st).1)).2 = none ∧
            transitionDb evm ctx msg st =
              settle evm ctx msg (ran evm ctx msg st).1 (ran evm ctx msg st).2) := by
  unfold transitionDb transitionPaid ran paid
  rcases preCheck evm msg st with ⟨bought, _ | error⟩
  · refine .inr ⟨rfl, ?_⟩
    dsimp only
    rcases payIntrinsicGas evm ctx msg (touchSender evm msg bought) with
      ⟨paid, _ | error⟩
    · exact .inr ⟨rfl, rfl⟩
    · exact .inl ⟨error, rfl, rfl⟩
  · exact .inl ⟨error, rfl, rfl⟩

@[simp]
theorem gasPool_execute : (execute evm ctx msg st).1.gasPool = st.gasPool := by
  unfold execute
  cases msg.toAddress with
  | none => dsimp only; split <;> rfl
  | some recipient => rfl

@[simp]
theorem initialGas_execute : (execute evm ctx msg st).1.initialGas = st.initialGas := by
  unfold execute
  cases msg.toAddress with
  | none => dsimp only; split <;> rfl
  | some recipient => rfl

@[simp]
theorem gasPool_paid : (paid evm ctx msg st).gasPool = (preCheck evm msg st).1.gasPool := by
  unfold paid payIntrinsicGas
  dsimp only
  split_ifs <;> rfl

@[simp]
theorem initialGas_paid :
    (paid evm ctx msg st).initialGas = (preCheck evm msg st).1.initialGas := by
  unfold paid payIntrinsicGas
  dsimp only
  split_ifs <;> rfl

-- what fails takes no more than was bought
theorem gasPool_transitionDb_eq_preCheck (fails : (transitionDb evm ctx msg st).2 = .error error) :
    (transitionDb evm ctx msg st).1.gasPool = (preCheck evm msg st).1.gasPool := by
  rcases transitionDb_cases evm ctx msg st with
    ⟨_, -, outcome⟩ | ⟨-, ⟨_, -, outcome⟩ | ⟨-, outcome⟩⟩
  · rw [outcome]
  · rw [outcome, gasPool_paid]
  · rw [outcome] at fails ⊢
    unfold settle at *
    split at fails
    · rename_i poor
      rw [if_pos poor, ran, gasPool_execute, gasPool_paid]
    · cases fails

/-! ## The gas pool

A transition looks at the gas pool only to see that it holds the gas of the message. -/

def addPool (st : StateTransition Rest) (extra : Int) : StateTransition Rest :=
  { st with gasPool := st.gasPool + extra }

variable (extra : Int)

theorem preCheck_addPool {extra : Int} (nonneg : 0 ≤ extra)
    (passes : (preCheck evm msg st).2 = none) :
    preCheck evm msg (st.addPool extra) = ((preCheck evm msg st).1.addPool extra, none) := by
  have checked := checked_of_preCheck passes
  have room := checked.room
  have more : Checked evm msg (st.addPool extra) :=
    ⟨checked.nonce, checked.gasLimit_lt, checked.funded,
      show ¬ st.gasPool + extra < msg.gasLimit by omega⟩
  rw [preCheck_of_checked checked, preCheck_of_checked more]
  simp only [addPool, Prod.mk.injEq, StateTransition.mk.injEq, and_true]
  omega

theorem execute_addPool :
    execute evm ctx msg (st.addPool extra) =
      ((execute evm ctx msg st).1.addPool extra, (execute evm ctx msg st).2) := by
  unfold execute
  cases msg.toAddress with
  | none => dsimp only; split <;> rfl
  | some recipient => rfl

theorem refundGas_addPool :
    refundGas evm msg (st.addPool extra) = (refundGas evm msg st).addPool extra := by
  unfold refundGas touchSender addPool gasUsed GasPool.addGas
  simp only [StateTransition.mk.injEq, and_true]
  split <;> omega

theorem payIntrinsicGas_addPool :
    payIntrinsicGas evm ctx msg (st.addPool extra) =
      ((payIntrinsicGas evm ctx msg st).1.addPool extra, (payIntrinsicGas evm ctx msg st).2) := by
  unfold payIntrinsicGas addPool
  dsimp only
  split_ifs <;> rfl

theorem transitionPaid_addPool :
    transitionPaid evm ctx msg (st.addPool extra) =
      ((transitionPaid evm ctx msg st).1.addPool extra, (transitionPaid evm ctx msg st).2) := by
  have touched : touchSender evm msg (st.addPool extra) =
      (touchSender evm msg st).addPool extra := rfl
  unfold transitionPaid
  rw [touched, payIntrinsicGas_addPool]
  rcases payIntrinsicGas evm ctx msg (touchSender evm msg st) with ⟨paid, _ | error⟩
  · simp only [execute_addPool, settle, refundGas_addPool]
    split <;> rfl
  · rfl

theorem transitionDb_addPool {extra : Int} {res : TransitionResult} (nonneg : 0 ≤ extra)
    (succeeds : (transitionDb evm ctx msg st).2 = .ok res) :
    transitionDb evm ctx msg (st.addPool extra) =
      ((transitionDb evm ctx msg st).1.addPool extra, .ok res) := by
  have checkedMore := @preCheck_addPool Rest evm msg st extra nonneg
  unfold transitionDb at *
  rcases checked : preCheck evm msg st with ⟨bought, _ | error⟩
  · rw [checked] at checkedMore succeeds
    rw [checkedMore rfl]
    simp only [transitionPaid_addPool]
    exact Prod.ext rfl succeeds
  · rw [checked] at succeeds
    cases succeeds

end StateTransition

end MoacVnode.Core
