import Mathlib.Data.FinEnum
import MoacVnode.Consensus.Ethash.UncleChain

/-!
# Block and uncle rewards

`AccumulateRewards` credits the coinbase of every uncle with a part of the block reward that shrinks
with the age of the uncle, and the coinbase of the block with the block reward and a share for every
uncle.
-/

namespace MoacVnode.Consensus.Ethash

open MoacVnode.Core Lib List

def calcBlockReward (num : Nat) : Int :=
  if num ≤ 12500000 then 2 * 10 ^ 18
  else if num ≤ 25000000 then 10 ^ 18
  else if num ≤ 37500000 then 5 * 10 ^ 17
  else if num ≤ 50000000 then 25 * 10 ^ 16
  else if num ≤ 62500000 then 125 * 10 ^ 15
  else 10 ^ 17

variable (balances : Address → Int)

def addBalance (addr : Address) (amount : Int) : Address → Int :=
  Function.update balances addr (balances addr + amount)

def uncleReward (header uncle : Header) : Int :=
  ((uncle.number : Int) + 8 - header.number) * calcBlockReward header.number / 8

def rewardUncle (header : Header) (state : (Address → Int) × Int) (uncle : Header) :
    (Address → Int) × Int :=
  (addBalance state.1 uncle.coinbase (uncleReward header uncle),
    state.2 + calcBlockReward header.number / 32)

def accumulateRewards (header : Header) (uncles : List Header) : Address → Int :=
  let rewarded := uncles.foldl (rewardUncle header) (balances, calcBlockReward header.number)
  addBalance rewarded.1 header.coinbase rewarded.2

def minerReward (header : Header) (uncles : Nat) : Int :=
  calcBlockReward header.number + uncles * (calcBlockReward header.number / 32)

def credits (header : Header) (uncles : List Header) : List (Address × Int) :=
  uncles.map (fun uncle => (uncle.coinbase, uncleReward header uncle)) ++
    [(header.coinbase, minerReward header uncles.length)]

def creditAll (credits : List (Address × Int)) : Address → Int :=
  credits.foldl (fun balances credit => addBalance balances credit.1 credit.2) balances

theorem accumulateRewards_eq (header : Header) (uncles : List Header) :
    accumulateRewards balances header uncles = creditAll balances (credits header uncles) := by
  have loop (state : (Address → Int) × Int) : uncles.foldl (rewardUncle header) state =
        (creditAll state.1 (uncles.map fun uncle => (uncle.coinbase, uncleReward header uncle)),
          state.2 + uncles.length * (calcBlockReward header.number / 32)) := by
    induction uncles generalizing state with
    | nil => simp [creditAll]
    | cons uncle uncles ih =>
      rw [foldl_cons, ih, length_cons]
      refine Prod.ext rfl ?_
      simp only [rewardUncle]
      push_cast
      ring
  rw [accumulateRewards, loop]
  unfold credits creditAll
  rw [foldl_append]
  rfl

theorem creditAll_apply (credits : List (Address × Int)) (addr : Address) :
    creditAll balances credits addr =
      balances addr + ((credits.filter fun credit => credit.1 = addr).map Prod.snd).sum := by
  induction credits generalizing balances with
  | nil => simp [creditAll]
  | cons credit credits ih =>
    refine (ih _).trans ?_
    by_cases same : credit.1 = addr
    · subst same
      simp [addBalance, add_assoc]
    · simp [addBalance, same, Ne.symm same]

theorem sum_creditAll (credits : List (Address × Int)) :
    ∑ addr, (creditAll balances credits addr - balances addr) = (credits.map Prod.snd).sum := by
  induction credits generalizing balances with
  | nil => simp [creditAll]
  | cons credit credits ih =>
    have split (addr : Address) :
        creditAll balances (credit :: credits) addr - balances addr =
          (creditAll (addBalance balances credit.1 credit.2) credits addr -
            addBalance balances credit.1 credit.2 addr) +
            if addr = credit.1 then credit.2 else 0 := by
      rw [creditAll, foldl_cons, ← creditAll]
      by_cases same : addr = credit.1
      · subst same
        simp only [addBalance, Function.update_self, if_true]
        ring
      · simp [addBalance, same]
    rw [Finset.sum_congr rfl fun addr _ => split addr, Finset.sum_add_distrib,
      ih, Finset.sum_ite_eq' Finset.univ credit.1 fun _ => credit.2]
    simp [add_comm]

theorem calcBlockReward_eq (num : Nat) : ∃ share, 0 < share ∧ calcBlockReward num = 32 * share := by
  unfold calcBlockReward
  split
  · exact ⟨2 * 10 ^ 18 / 32, by decide, by decide⟩
  · split
    · exact ⟨10 ^ 18 / 32, by decide, by decide⟩
    · split
      · exact ⟨5 * 10 ^ 17 / 32, by decide, by decide⟩
      · split
        · exact ⟨25 * 10 ^ 16 / 32, by decide, by decide⟩
        · split
          · exact ⟨125 * 10 ^ 15 / 32, by decide, by decide⟩
          · exact ⟨10 ^ 17 / 32, by decide, by decide⟩

theorem uncleReward_bounds {header uncle : Header} (older : uncle.number < header.number)
    (recent : header.number ≤ uncle.number + 6) :
    0 < uncleReward header uncle ∧
      2 * calcBlockReward header.number / 8 ≤ uncleReward header uncle ∧
      uncleReward header uncle ≤ 7 * calcBlockReward header.number / 8 := by
  obtain ⟨share, positive, rewardEq⟩ := calcBlockReward_eq header.number
  have eighths (factor : Int) :
      factor * calcBlockReward header.number / 8 = factor * (4 * share) := by
    rw [rewardEq, show factor * (32 * share) = factor * (4 * share) * 8 by ring,
      Int.mul_ediv_cancel _ (by decide)]
  have atLeast : 2 ≤ (uncle.number : Int) + 8 - header.number := by omega
  have atMost : (uncle.number : Int) + 8 - header.number ≤ 7 := by omega
  unfold uncleReward
  rw [eighths, eighths, eighths]
  refine ⟨Int.mul_pos (by omega) (by omega), ?_, ?_⟩
  · exact Int.mul_le_mul_of_nonneg_right atLeast (by omega)
  · exact Int.mul_le_mul_of_nonneg_right atMost (by omega)

theorem sum_credits_le {header : Header} {uncles : List Header} (few : uncles.length ≤ maxUncles)
    (bounded : ∀ uncle ∈ uncles, uncleReward header uncle ≤ 7 * calcBlockReward header.number / 8) :
    16 * ((credits header uncles).map Prod.snd).sum ≤ 45 * calcBlockReward header.number := by
  obtain ⟨share, positive, rewardEq⟩ := calcBlockReward_eq header.number
  have uncleSum :
      (uncles.map fun uncle => uncleReward header uncle).sum ≤ uncles.length * (28 * share) := by
    have pointwise := sum_le_card_nsmul (uncles.map fun uncle => uncleReward header uncle)
      (28 * share) (by
        intro reward mem
        obtain ⟨uncle, uncleMem, rfl⟩ := mem_map.mp mem
        have bound := bounded uncle uncleMem
        omega)
    rwa [length_map, nsmul_eq_mul] at pointwise
  have total : ((credits header uncles).map Prod.snd).sum =
        (uncles.map fun uncle => uncleReward header uncle).sum +
          (32 * share + uncles.length * share) := by
    unfold credits minerReward
    rw [rewardEq, Int.mul_ediv_cancel_left _ (by decide)]
    simp [Function.comp_def]
  have length : (uncles.length : Int) ≤ 2 := by exact_mod_cast few
  have scaled : (uncles.length : Int) * share ≤ 2 * share :=
    Int.mul_le_mul_of_nonneg_right length positive.le
  have uncleBound : (uncles.map fun uncle => uncleReward header uncle).sum ≤ 56 * share := by
    refine uncleSum.trans ?_
    rw [show (uncles.length : Int) * (28 * share) = 28 * (uncles.length * share) by ring]
    omega
  omega

/-- An uncle of an accepted block earns two to seven eighths of the block reward, the miner the
block reward and a share for every uncle, together no more than `1 + 2/32 + 2 * 7/8` block rewards.
-/
theorem issuance_bounded (engine : Engine) (getBlock : Hash → Nat → Option FullBlock)
    (block : FullBlock) (balances : Address → Int) (reads : ReadsChain getBlock block)
    (acyclic : ∀ uncle ∈ block.uncles, uncle.parentHash ≠ block.hash)
    (accepted : engine.verifyUncles getBlock block = .ok ()) :
    (∀ uncle ∈ block.uncles,
      0 < uncleReward block.header uncle ∧
        2 * calcBlockReward block.number / 8 ≤ uncleReward block.header uncle ∧
        uncleReward block.header uncle ≤ 7 * calcBlockReward block.number / 8) ∧
    (∀ addr,
      accumulateRewards balances block.header block.uncles addr =
        balances addr + ((block.uncles.filter fun uncle => uncle.coinbase = addr).map
            (uncleReward block.header)).sum +
          if addr = block.header.coinbase then
            calcBlockReward block.number + block.uncles.length * (calcBlockReward block.number / 32)
          else 0) ∧
    16 * ∑ addr, (accumulateRewards balances block.header block.uncles addr -
        balances addr) ≤ 45 * calcBlockReward block.number := by
  have bounds (uncle : Header) (mem : uncle ∈ block.uncles) :=
    uncleReward_bounds (reads.uncle_number accepted mem (acyclic uncle mem)).1
      (reads.uncle_number accepted mem (acyclic uncle mem)).2
  rw [accumulateRewards_eq]
  refine ⟨bounds, fun addr => ?_, ?_⟩
  · rw [creditAll_apply, credits, filter_append, map_append, sum_append,
      filter_map, map_map, add_assoc]
    by_cases isMiner : block.header.coinbase = addr
    · simp [isMiner, minerReward, Function.comp_def]
    · simp [isMiner, Ne.symm isMiner, Function.comp_def]
  · rw [sum_creditAll]
    exact sum_credits_le (Engine.acceptable_of_verifyUncles accepted).1
      fun uncle mem => (bounds uncle mem).2.2

private def rewardedBlock : FullBlock where
  header := { easyHeader 3 2 2 with coinbase := 7 }
  uncles := [{ easyHeader 12 1 1 with coinbase := 8 }]

/-- The sibling of the parent earns seven eighths of two coins. -/
theorem issuance_bounded_fork :
    uncleReward rewardedBlock.header { easyHeader 12 1 1 with coinbase := 8 } = 175 * 10 ^ 16 ∧
      16 * ∑ addr, (accumulateRewards (fun _ => 0) rewardedBlock.header
        rewardedBlock.uncles addr - 0) ≤ 45 * calcBlockReward rewardedBlock.number := by
  have chain : GenesisChain
      [rewardedBlock, { header := easyHeader 2 1 1 }, { header := easyHeader 1 0 0 }] :=
    ⟨⟨rfl, rfl, rfl⟩, by decide, by decide, by decide⟩
  exact ⟨by decide, (issuance_bounded .unsealed _ rewardedBlock (fun _ => 0) chain.readsChain
    (by decide) (by decide +kernel)).2.2⟩

end MoacVnode.Consensus.Ethash
