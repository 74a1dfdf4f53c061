import MoacVnode.Solidity.MoacSysContract

/-!
# Deferred payments conserve funds

Every deposit is owed by a task of a block that is still to be executed, or it
was paid out once, along every run in which no deposit is refused or cancelled
and no block has to pay two tasks.
-/

namespace MoacVnode.Solidity.MoacSysContract

open MoacVnode.Core Lib List Nat Function

variable {blk msgValue : Nat} {balances : Address → Nat} {source target : Address}

variable (task : DelayedSendTaskBonded)

/-- A task that holds a deposit. -/
def DelayedSendTaskBonded.live : Bool :=
  task.fromAddress ≠ 0 ∧ task.value ≠ 0

def DelayedSendTaskBonded.deposit : Deposit :=
  { sender := task.fromAddress, target := task.toAddress, value := task.value }

/-- The payment of a task: back to its sender if it is locked. -/
def DelayedSendTaskBonded.payout : Transfer :=
  { source := SYSCNTADDR
    target := if task.locked then task.fromAddress else task.toAddress
    value := task.value }

open DelayedSendTaskBonded (live deposit payout clear)

variable (chain : Chain)

def dueAt (blk : Nat) : List DelayedSendTaskBonded :=
  if chain.number < blk ∨ chain.number = blk ∧ chain.executed = false then
    (chain.state.queueToSendBonded blk).filter (·.live)
  else []

def dueDeposits (blk : Nat) : Multiset Deposit :=
  ((dueAt chain blk).map (·.deposit) : List Deposit)

def owed (horizon : Nat) : Multiset Deposit :=
  ∑ blk ∈ Finset.range horizon, dueDeposits chain blk

/-- Nothing is scheduled from the horizon on; each deposit is owed or was paid out with the task
that held it; beyond what is owed, the contract has what it started with. -/
structure Accounts (start : Nat) (chain : Chain) (horizon : Nat)
    (settled : List DelayedSendTaskBonded) : Prop where
  scheduled : ∀ blk, horizon ≤ blk → chain.state.queueToSendBonded blk = []
  received : (chain.received : Multiset Deposit) = owed chain horizon + settled.map (·.deposit)
  paid : chain.state.transfers = settled.map (·.payout)
  balance : chain.state.balances SYSCNTADDR = start + ((owed chain horizon).map (·.value)).sum
  unbonded : ∀ blk, chain.state.queueToSend blk = []

def Conserved (start : Nat) : Prop := ∃ horizon settled, Accounts start chain horizon settled

variable {chain next : Chain} {start horizon later : Nat} {settled : List DelayedSendTaskBonded}

theorem owed_of_le (scheduled : ∀ blk, horizon ≤ blk → chain.state.queueToSendBonded blk = [])
    (within : horizon ≤ later) : owed chain later = owed chain horizon := by
  refine (Finset.sum_subset (Finset.range_mono within) fun blk _ beyond => ?_).symm
  have empty := scheduled blk (by simpa using beyond)
  simp [dueDeposits, dueAt, empty]

variable {caller : Caller}

theorem owed_of_change (below : blk < horizon)
    (elsewhere : ∀ other, other ≠ blk → dueAt next other = dueAt chain other) :
    owed next horizon + dueDeposits chain blk = owed chain horizon + dueDeposits next blk :=
  sum_add_of_change (dueDeposits chain) (dueDeposits next) (Finset.mem_range.mpr below)
    fun other ne => by simp [dueDeposits, elsewhere other ne]

theorem paidState_balance (state : State) (caller : Caller) (msgValue : Nat) :
    (paidState state caller msgValue).balances SYSCNTADDR =
      state.balances SYSCNTADDR + msgValue := by
  simp [paidState, moveValue, caller.external.symm]

theorem filter_live_of_split {before after : List DelayedSendTaskBonded}
    {task changed : DelayedSendTaskBonded} (same : changed.live = task.live)
    (deposit : task.live = true → changed.deposit = task.deposit) :
    ((before ++ changed :: after).filter (·.live)).map (·.deposit) =
      ((before ++ task :: after).filter (·.live)).map (·.deposit) := by
  cases live : task.live with
  | true => simp [same.trans live, live, deposit live]
  | false => simp [same.trans live, live]

section

variable (accounts : Accounts start chain horizon settled)

include accounts

theorem Accounts.extend (within : horizon ≤ later) :
    Accounts start chain later settled where
  scheduled := fun blk beyond => accounts.scheduled blk (within.trans beyond)
  received := by
    rw [owed_of_le accounts.scheduled within]
    exact accounts.received
  paid := accounts.paid
  balance := by
    rw [owed_of_le accounts.scheduled within]
    exact accounts.balance
  unbonded := accounts.unbonded

theorem Accounts.schedule (blk : Nat) (added : List Deposit)
    (elsewhere :
      ∀ other, other ≠ blk →
        next.state.queueToSendBonded other = chain.state.queueToSendBonded other)
    (sameNumber : next.number = chain.number) (sameExecuted : next.executed = chain.executed)
    (deposits : (dueAt next blk).map (·.deposit) = (dueAt chain blk).map (·.deposit) ++ added)
    (received : next.received = chain.received ++ added)
    (paid : next.state.transfers = chain.state.transfers)
    (balance :
      next.state.balances SYSCNTADDR = chain.state.balances SYSCNTADDR + (added.map (·.value)).sum)
    (unbonded : next.state.queueToSend = chain.state.queueToSend) :
    Conserved next start := by
  have extended := accounts.extend (le_max_left horizon (blk + 1))
  have owedNext :
      owed next (max horizon (blk + 1)) = owed chain (max horizon (blk + 1)) + added := by
    have change : owed next (max horizon (blk + 1)) + dueDeposits chain blk =
          owed chain (max horizon (blk + 1)) + dueDeposits next blk :=
      owed_of_change (le_max_right horizon (blk + 1)) fun other ne => by
        simp only [dueAt, sameNumber, sameExecuted, elsewhere other ne]
    have grown : dueDeposits next blk = dueDeposits chain blk + added := by
      simp [dueDeposits, deposits]
    rw [grown, add_left_comm, add_comm (dueDeposits chain blk)] at change
    exact add_right_cancel change
  refine ⟨max horizon (blk + 1), settled, ?_⟩
  exact
    { scheduled := by
        intro other beyond
        have ne : other ≠ blk := by
          omega
        rw [elsewhere other ne]
        exact extended.scheduled other beyond
      received := by
        rw [received, owedNext, ← Multiset.coe_add, extended.received]
        exact add_right_comm _ _ _
      paid := paid.trans extended.paid
      balance := by
        rw [balance, owedNext, extended.balance]
        simp [Nat.add_assoc]
      unbonded := by
        rw [unbonded]
        exact extended.unbonded }

theorem Accounts.touch {queue : List DelayedSendTaskBonded} (caller : Caller) (blk : Nat)
    (deposits : (queue.filter (·.live)).map (·.deposit) =
        ((chain.state.queueToSendBonded blk).filter (·.live)).map (·.deposit)) :
    Conserved
      { chain with
        state :=
          { paidState chain.state caller 0 with
            queueToSendBonded := update chain.state.queueToSendBonded blk queue } }
      start := by
  apply accounts.schedule blk []
  · intro other ne
    simp [ne]
  · rfl
  · rfl
  · simp only [dueAt, update_self, append_nil]
    split
    · exact deposits
    · rfl
  · simp
  · rfl
  · simpa using paidState_balance chain.state caller 0
  · rfl

theorem Accounts.unchanged (caller : Caller) :
    Conserved { chain with state := paidState chain.state caller 0 } start := by
  have touched := accounts.touch caller 0 rfl
  rwa [update_eq_self] at touched

theorem Accounts.cancelDelayedSend
    (harmless : chain.number < blk → ∀ task ∈ (chain.state.queueToSendBonded blk).find?
      (·.cancellableBy caller.address), task.value = 0) :
    Conserved
      { chain with
        state :=
          (cancelDelayedSend (paidState chain.state caller 0) chain.number caller.address
            blk).1 } start := by
  have noDelayed : (paidState chain.state caller 0).queueToSend blk = [] := accounts.unbonded blk
  simp only [MoacSysContract.cancelDelayedSend, noDelayed, List.find?_nil,
    Option.isSome_none, Bool.false_eq_true, if_false]
  split
  · exact accounts.unchanged caller
  · rename_i future
    split
    · rename_i present
      obtain ⟨task, got⟩ := Option.isSome_iff_exists.mp present
      obtain ⟨before, after, split, cleared⟩ := updateFirst_of_find? clear got
      rw [cleared]
      apply accounts.touch caller blk
      have worthless := harmless (Nat.lt_of_not_le future) task got
      rw [show chain.state.queueToSendBonded blk = before ++ task :: after from split]
      apply filter_live_of_split
      · simp [live, clear, DelayedSendTask.clear, worthless]
      · simp [live, worthless]
    · exact accounts.unchanged caller

theorem Accounts.unlockTask {sender : Address} {hash : Hash} :
    Conserved
      { chain with
        state :=
          (unlockTask (paidState chain.state caller 0) caller.address blk sender hash).1 }
      start := by
  simp only [MoacSysContract.unlockTask]
  split
  · exact accounts.unchanged caller
  · rename_i task got
    split
    · obtain ⟨before, after, split, unlocked⟩ :=
        updateFirst_of_find? (fun task : DelayedSendTaskBonded => { task with locked := false }) got
      rw [unlocked]
      apply accounts.touch caller blk
      rw [show chain.state.queueToSendBonded blk = before ++ task :: after from split]
      exact filter_live_of_split rfl fun _ => rfl
    · exact accounts.unchanged caller

theorem Accounts.delayedSendBonded {msgValue blk val : Nat} {target unlockaddr : Address}
    {revertable locked : Bool} {hashlock : Hash} {added : List Deposit}
    (accepted :
      msgValue = 0 ∨
        chain.number < blk ∧ val = msgValue ∧
          (chain.state.queueToSendBonded blk).any (·.isOf caller.address hashlock) = false)
    (isAdded : added = if msgValue = 0 then []
        else [{ sender := caller.address, target := target, value := msgValue }]) :
    Conserved
      { chain with
        state :=
          (delayedSendBonded (paidState chain.state caller msgValue) chain.number
            caller.address msgValue blk target val revertable locked hashlock
            unlockaddr).1
        received := chain.received ++ added } start := by
  have refused (free : msgValue = 0) : Conserved
        { chain with
          state := paidState chain.state caller msgValue
          received := chain.received ++ added } start := by
    subst free isAdded
    simpa using accounts.unchanged caller
  simp only [MoacSysContract.delayedSendBonded]
  split
  · rename_i past
    exact refused (accepted.resolve_right fun taken => not_lt.mpr past taken.1)
  · rename_i future
    split
    · rename_i mismatch
      exact refused (accepted.resolve_right fun taken => mismatch taken.2.1)
    · rename_i exact
      split
      · rename_i taken
        refine refused (accepted.resolve_right fun accepted => ?_)
        exact absurd (accepted.2.2.symm.trans taken) Bool.false_ne_true
      · rw [not_not] at exact
        subst exact
        have due : chain.number < blk := Nat.lt_of_not_le future
        apply accounts.schedule blk added
        · intro other ne
          simp [paidState, ne]
        · rfl
        · rfl
        · by_cases free : val = 0
          · simp [isAdded, dueAt, paidState, live, free]
          · have nonzero : caller.address ≠ 0#160 := caller.nonzero
            simp [isAdded, dueAt, due, paidState, live, deposit, free, nonzero]
        · rfl
        · rfl
        · by_cases free : val = 0
          · simp [isAdded, paidState_balance, free]
          · simp [isAdded, paidState_balance, free]
        · rfl

end

variable (tasks : List DelayedSendTaskBonded)

/-- The tasks that `sendTask` does not skip. -/
def uncleared : List DelayedSendTaskBonded := tasks.filter fun task => task.fromAddress ≠ 0

/-- Only the first task that is not skipped has something to pay, an amount that fits into 160
bits, and it does not pay the contract itself. -/
def OnePayment : Prop :=
  (∀ task ∈ (uncleared tasks).tail, task.value = 0) ∧
    ∀ task ∈ (uncleared tasks).head?,
      task.value = 0 ∨ task.value < 2 ^ 160 ∧ task.payout.target ≠ SYSCNTADDR

theorem sendBonded_eq (state : State) (tasks : List DelayedSendTaskBonded) :
    sendBonded state tasks =
      match (uncleared tasks).head? with
      | none => some state
      | some task => delegateSend state SYSCNTADDR task.payout.target task.value := by
  induction tasks with
  | nil => rfl
  | cons task tasks ih =>
    by_cases cleared : task.fromAddress = 0
    · have skipped : uncleared (task :: tasks) = uncleared tasks :=
        filter_cons_of_neg (by simpa using cleared)
      rw [skipped, ← ih]
      simp [sendBonded, cleared]
    · have kept : uncleared (task :: tasks) = task :: uncleared tasks :=
        filter_cons_of_pos (by simpa using cleared)
      rw [kept, sendBonded, if_pos cleared]
      cases locked : task.locked with
      | true | false => simp [locked, payout]

/-- The contract has paid these tasks, and nothing else has changed. -/
structure Pays (state next : State) (tasks : List DelayedSendTaskBonded) : Prop where
  delayed : next.queueToSend = state.queueToSend
  bonded : next.queueToSendBonded = state.queueToSendBonded
  transfers : next.transfers = state.transfers ++ tasks.map (·.payout)
  balance : next.balances SYSCNTADDR + (tasks.map (·.value)).sum = state.balances SYSCNTADDR

theorem filter_live_eq :
    tasks.filter (·.live) = (uncleared tasks).filter fun task => task.value ≠ 0 := by
  simp [uncleared, live, Bool.and_comm]

theorem sendBonded_pays {state : State} {tasks : List DelayedSendTaskBonded}
    (one : OnePayment tasks)
    (funded : ((tasks.filter (·.live)).map (·.value)).sum ≤ state.balances SYSCNTADDR) :
    ∃ next, sendBonded state tasks = some next ∧ Pays state next (tasks.filter (·.live)) := by
  rw [sendBonded_eq, filter_live_eq] at *
  cases present : uncleared tasks with
  | nil => exact ⟨state, rfl, rfl, rfl, by simp, by simp⟩
  | cons task rest =>
    simp only [OnePayment, present, List.head?_cons, Option.mem_some, forall_eq'] at one
    obtain ⟨restFree, payable⟩ := one
    have noRest : rest.filter (fun task => task.value ≠ 0) = [] := by simpa using restFree
    by_cases free : task.value = 0
    · have nothing : (task :: rest).filter (fun task => task.value ≠ 0) = [] := by
        rw [filter_cons_of_neg (by simp [free]), noRest]
      rw [nothing]
      exact ⟨state, by simp [delegateSend, free, moveValue], rfl, rfl, by simp, by simp⟩
    · obtain ⟨fits, target⟩ := payable.resolve_left free
      have one : (task :: rest).filter (fun task => task.value ≠ 0) = [task] := by
        rw [filter_cons_of_pos (by simp [free]), noRest]
      rw [present, one] at funded
      simp only [map_cons, map_nil, sum_cons, sum_nil, add_zero] at funded
      rw [one, head?_cons]
      simp only [delegateSend, mod_eq_of_lt fits]
      refine ⟨_, if_neg (not_lt.mpr funded), rfl, rfl, ?_, ?_⟩
      · simp [free, payout]
      · have paid : moveValue state.balances SYSCNTADDR task.payout.target task.value SYSCNTADDR =
              state.balances SYSCNTADDR - task.value := by
          simp [moveValue, target.symm]
        simp [paid, Nat.sub_add_cancel funded]

theorem owed_executed (below : chain.number < horizon) :
    owed { chain with executed := true } horizon + dueDeposits chain chain.number =
      owed chain horizon := by
  have change : owed { chain with executed := true } horizon + dueDeposits chain chain.number =
        owed chain horizon + dueDeposits { chain with executed := true } chain.number :=
    owed_of_change below fun other ne => by simp [dueAt, Ne.symm ne]
  have settled : dueDeposits { chain with executed := true } chain.number = 0 := by
    simp [dueDeposits, dueAt]
  rw [change, settled, add_zero]

theorem Accounts.exec (accounts : Accounts start chain horizon settled)
    (running : chain.executed = false)
    (one : OnePayment (chain.state.queueToSendBonded chain.number)) :
    Conserved (step chain .exec) start ∧
      (step chain .exec).state.transfers =
        chain.state.transfers ++ (dueAt chain chain.number).map (·.payout) := by
  have extended := accounts.extend (le_max_left horizon (chain.number + 1))
  have owedAfter := owed_executed (le_max_right horizon (chain.number + 1))
  have dueNow :
      dueAt chain chain.number = (chain.state.queueToSendBonded chain.number).filter (·.live) := by
    simp [dueAt, running]
  have balance := extended.balance
  rw [← owedAfter, Multiset.map_add, Multiset.sum_add] at balance
  have dueValue : ((dueDeposits chain chain.number).map (·.value)).sum =
        ((dueAt chain chain.number).map (·.value)).sum := by
    simp [dueDeposits, deposit, comp_def]
  have funded : (((chain.state.queueToSendBonded chain.number).filter (·.live)).map (·.value)).sum ≤
        chain.state.balances SYSCNTADDR := by
    rw [← dueNow]
    omega
  obtain ⟨state, sent, pays⟩ := sendBonded_pays one funded
  rw [← dueNow] at pays
  have executed : step chain .exec = { chain with state := state, executed := true } := by
    simp [step, running, MoacSysContract.exec, sendTask, sendDelayed,
      accounts.unbonded chain.number, sent]
  have owedNext : owed (step chain .exec) (max horizon (chain.number + 1)) =
        owed { chain with executed := true } (max horizon (chain.number + 1)) := by
    simp [executed, owed, dueDeposits, dueAt, pays.bonded]
  refine ⟨⟨max horizon (chain.number + 1), settled ++ dueAt chain chain.number, ?_⟩, ?_⟩
  · exact
      { scheduled := by
          rw [executed]
          intro blk beyond
          rw [pays.bonded]
          exact extended.scheduled blk beyond
        received := by
          rw [owedNext, executed, extended.received, ← owedAfter, map_append,
            ← Multiset.coe_add, add_assoc]
          exact congrArg _ (add_comm _ _)
        paid := by rw [executed, pays.transfers, extended.paid, map_append]
        balance := by
          have paid := pays.balance
          rw [owedNext, executed]
          change state.balances SYSCNTADDR = _
          omega
        unbonded := by
          rw [executed, pays.delayed]
          exact extended.unbonded }
  · rw [executed, pays.transfers]

theorem Accounts.nextBlock (accounts : Accounts start chain horizon settled)
    (executed : chain.executed = true) :
    Accounts start { chain with number := chain.number + 1, executed := false } horizon
      settled := by
  have same : owed { chain with number := chain.number + 1, executed := false } horizon =
        owed chain horizon := by
    refine Finset.sum_congr rfl fun blk _ => ?_
    have due : chain.number + 1 < blk ∨ chain.number + 1 = blk ↔ chain.number < blk := by omega
    simp [dueDeposits, dueAt, executed, due]
  exact
    { scheduled := accounts.scheduled
      received := by
        rw [same]
        exact accounts.received
      paid := accounts.paid
      balance := by
        rw [same]
        exact accounts.balance
      unbonded := accounts.unbonded }

/-- A deposit is not refused, a task that holds one is not cancelled, and a block
has at most one payment to make. -/
def Orderly (chain : Chain) : Event → Prop
  | .call caller msgValue (.delayedSendBonded blk _ val _ _ hashlock _) =>
    msgValue = 0 ∨
      chain.number < blk ∧ val = msgValue ∧
        (chain.state.queueToSendBonded blk).any (·.isOf caller.address hashlock) = false
  | .call caller _ (.cancelDelayedSend blk) =>
    chain.number < blk →
      ∀ task ∈ (chain.state.queueToSendBonded blk).find? (·.cancellableBy caller.address),
        task.value = 0
  | .exec => OnePayment (chain.state.queueToSendBonded chain.number)
  | _ => True

instance (tasks : List DelayedSendTaskBonded) : Decidable (OnePayment tasks) :=
  inferInstanceAs (Decidable (_ ∧ _))

instance (chain : Chain) : DecidablePred (Orderly chain) := fun event => by
  unfold Orderly
  split <;> infer_instance

theorem free_of_possible {call : Call} (unpayable : call.payable = false)
    (possible : ¬ (chain.state.balances caller.address < msgValue ∨ msgValue ≠ 0 ∧ call.payable =
      false)) : msgValue = 0 := by
  by_contra paid
  exact possible (.inr ⟨paid, unpayable⟩)

theorem Conserved.call {call : Call} (conserved : Conserved chain start)
    (orderly : Orderly chain (.call caller msgValue call)) :
    Conserved (step chain (.call caller msgValue call)) start := by
  obtain ⟨horizon, settled, accounts⟩ := conserved
  simp only [step]
  split
  · exact ⟨horizon, settled, accounts⟩
  · rename_i possible
    cases call with
    | delayedSendBonded blk target val revertable locked hashlock unlockaddr =>
      exact accounts.delayedSendBonded orderly rfl
    | cancelDelayedSend blk =>
      obtain rfl := free_of_possible rfl possible
      simpa [Call.deposits, body] using accounts.cancelDelayedSend orderly
    | unlockTask blk sender hash =>
      obtain rfl := free_of_possible rfl possible
      simpa [Call.deposits, body] using accounts.unlockTask
    | sendTask =>
      obtain rfl := free_of_possible rfl possible
      simpa [Call.deposits, body, sendTask, caller.notSystem] using accounts.unchanged caller
    | exec =>
      obtain rfl := free_of_possible rfl possible
      simpa [Call.deposits, body, MoacSysContract.exec, caller.notSystem] using
        accounts.unchanged caller

theorem Conserved.step {event : Event} (conserved : Conserved chain start)
    (orderly : Orderly chain event) : Conserved (step chain event) start := by
  cases event with
  | call caller msgValue call => exact conserved.call orderly
  | exec =>
    obtain ⟨horizon, settled, accounts⟩ := conserved
    cases running : chain.executed with
    | true => simpa [MoacSysContract.step, running] using ⟨horizon, settled, accounts⟩
    | false => exact (accounts.exec running orderly).1
  | nextBlock =>
    obtain ⟨horizon, settled, accounts⟩ := conserved
    cases executed : chain.executed with
    | true =>
      simpa [MoacSysContract.step, executed] using ⟨horizon, settled, accounts.nextBlock executed⟩
    | false => simpa [MoacSysContract.step, executed] using ⟨horizon, settled, accounts⟩

def genesis (balances : Address → Nat) (num : Nat) : Chain :=
  { state := { balances := balances }, number := num }

/-- In every run of orderly events each deposit is owed or paid out once, the contract has what it
owes on top of what it started with, and `exec` pays what is due in its block. -/
theorem deferred_payments_of_run (balances : Address → Nat) (num : Nat) (events : List Event)
    (orderly : EachFold step Orderly (genesis balances num) events) :
    let chain := events.foldl step (genesis balances num)
    Conserved chain (balances SYSCNTADDR) ∧
      (chain.executed = false → Orderly chain .exec →
        (step chain .exec).state.transfers =
          chain.state.transfers ++ (dueAt chain chain.number).map (·.payout)) := by
  intro chain
  have conserved : Conserved chain (balances SYSCNTADDR) :=
    foldl_invariant (Conserved · _) (fun conserved orderly => conserved.step orderly)
      ⟨0, [],
        { scheduled := fun _ _ => rfl
          received := by simp [genesis, owed]
          paid := rfl
          balance := by simp [genesis, owed]
          unbonded := fun _ => rfl }⟩ orderly
  refine ⟨conserved, fun running one => ?_⟩
  obtain ⟨horizon, settled, accounts⟩ := conserved
  exact (accounts.exec running one).2

def richCallers (addr : Address) : Nat := if addr = SYSCNTADDR then 0 else 100

def callerOne : Caller := ⟨1, by decide, by decide, by decide⟩

def callerTwo : Caller := ⟨2, by decide, by decide, by decide⟩

def payNine (caller : Caller) (val : Nat) : Event :=
  .call caller val (.delayedSendBonded 3 9 val false false 0 0)

def untilBlockThree : List Event :=
  [payNine callerOne 5, payNine callerTwo 7, .exec, .nextBlock, .exec, .nextBlock]

theorem owed_eq_zero (executed : chain.executed = true)
    (noLater : ∀ blk, chain.number < blk → chain.state.queueToSendBonded blk = [])
    (horizon : Nat) : owed chain horizon = 0 := by
  refine Finset.sum_eq_zero fun blk _ => ?_
  by_cases later : chain.number < blk
  · simp [dueDeposits, dueAt, noLater blk later]
  · simp [dueDeposits, dueAt, executed, later]

theorem two_payments_one_paid :
    let chain := untilBlockThree.foldl step (genesis richCallers 1)
    chain.number = 3 ∧
      (dueAt chain 3).map (·.deposit) = [⟨1, 9, 5⟩, ⟨2, 9, 7⟩] ∧
      (step chain .exec).state.transfers = [⟨SYSCNTADDR, 9, 5⟩] ∧
      ¬ Conserved (step chain .exec) (richCallers SYSCNTADDR) := by
  refine ⟨by decide +kernel, by decide +kernel, by decide +kernel, ?_⟩
  rintro ⟨horizon, settled, accounts⟩
  have noLater (blk : Nat) (later : 3 < blk) :
      (step (untilBlockThree.foldl step (genesis richCallers 1)) .exec).state.queueToSendBonded
        blk = [] := by
    change update (update (fun _ => []) 3 _) 3 _ blk = []
    simp [ne_of_gt later]
  have balance := accounts.balance
  rw [owed_eq_zero (by decide +kernel) noLater horizon] at balance
  revert balance
  decide +kernel

theorem payment_conserved :
    Conserved ([payNine callerOne 5, .exec, .nextBlock, .exec, .nextBlock, .exec].foldl step
        (genesis richCallers 1)) (richCallers SYSCNTADDR) :=
  (deferred_payments_of_run richCallers 1 _ (by decide +kernel)).1

end MoacVnode.Solidity.MoacSysContract
