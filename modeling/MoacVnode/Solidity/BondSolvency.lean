import Mathlib.Data.FinEnum
import MoacVnode.Solidity.SubChainProtocolBase

/-!
# The bonds are covered

The contract can pay back every bond, and the approvals of a server never exceed
its bond, along every run in which no approval makes the sum of a server's
approvals wrap around.
-/

namespace MoacVnode.Solidity.SubChainProtocolBase

open MoacVnode.Core Lib
open Option (bind_eq_bind pure_def some_inj)
open Nat

variable {subchain : Address} {entry : SCS} {signatures : Signatures} {call : Call}

/-- The part of the balance that belongs to a server. -/
def owed (entry : SCS) : Nat := if entry.state = .withdrawDone then 0 else entry.bond.toNat

def owedTotal (scsList : Address → SCS) : Nat := ∑ scs, owed (scsList scs)

def approvedTotal (approval : SCSApproval) : Nat := (approval.amount.map BitVec.toNat).sum

structure Solvent (base : State) : Prop where
  backed : owedTotal base.scsList ≤ base.balance
  approved :
    ∀ scs, approvedTotal (base.scsApprovalList scs) = (base.scsApprovalList scs).bondApproved.toNat
  covered : ∀ scs, approvedTotal (base.scsApprovalList scs) ≤ (base.scsList scs).bond.toNat

/-- The arrays and the sum of an approval record agree. -/
structure Booked (approval : SCSApproval) : Prop where
  addresses : approval.subchainAddr.length = approval.bondedCount
  amounts : approval.amount.length = approval.bondedCount
  approved : approvedTotal approval = approval.bondApproved.toNat

/-- A bond covers its approvals, and a server that is leaving has none. -/
structure Accounted (entry : SCS) (approval : SCSApproval) : Prop extends Booked approval where
  covered : approval.bondApproved.toNat ≤ entry.bond.toNat
  unregistered : entry.state = .notRegistered → entry.bond = 0
  leaving : entry.state = .withdrawPending ∨ entry.state = .withdrawDone → approval.bondedCount = 0

variable {entry : SCS} {approval shorter : SCSApproval} {amount : Uint256} {i : Nat}

section

variable (booked : Booked approval)

include booked

theorem Booked.approve (fits : approval.bondApproved.toNat + amount.toNat < 2 ^ 256) :
    Booked
      { bondApproved := approval.bondApproved + amount
        subchainAddr := approval.subchainAddr ++ [subchain]
        amount := approval.amount ++ [amount]
        bondedCount := approval.bondedCount + 1 } where
  addresses := by simp [booked.addresses]
  amounts := by simp [booked.amounts]
  approved := by
    rw [BitVec.toNat_add_of_lt fits, ← booked.approved]
    simp [approvedTotal]

section

variable (got : approval.amount[i]? = some amount)

include got

theorem Booked.amount_le : amount.toNat ≤ approval.bondApproved.toNat := by
  rw [← booked.approved]
  exact List.le_sum_of_mem (List.mem_map_of_mem (List.mem_of_getElem? got))

theorem Booked.index_lt : i < approval.bondedCount := by
  rw [← booked.amounts]
  exact (List.getElem?_eq_some_iff.mp got).1

theorem Booked.delete (deleted : deleteApproval approval amount i = some shorter) :
    Booked shorter ∧ shorter.bondApproved.toNat + amount.toNat = approval.bondApproved.toNat := by
  have inside := booked.index_lt got
  have amountLe := booked.amount_le got
  have isLast : approval.bondedCount - 1 + 1 = approval.bondedCount := by omega
  simp only [deleteApproval, bind_some_iff, pure_def, some_inj] at deleted
  obtain ⟨subchainAddr, addressDeleted, amounts, amountDeleted, rfl⟩ := deleted
  have deducted := BitVec.toNat_sub_of_le amountLe
  have permAmounts : (amount :: amounts).Perm approval.amount :=
    perm_of_swapDelete amountDeleted (isLast.trans booked.amounts.symm) got
  have sums : amount.toNat + (amounts.map BitVec.toNat).sum = approvedTotal approval := by
    simpa [approvedTotal] using (permAmounts.map BitVec.toNat).sum_eq
  obtain ⟨addr, addressFound⟩ : ∃ addr, approval.subchainAddr[i]? = some addr :=
    ⟨_, List.getElem?_eq_getElem (by rw [booked.addresses]; exact inside)⟩
  have permAddresses : (addr :: subchainAddr).Perm approval.subchainAddr :=
    perm_of_swapDelete addressDeleted (isLast.trans booked.addresses.symm) addressFound
  have approved := booked.approved
  have addressCount : subchainAddr.length + 1 = approval.bondedCount :=
    permAddresses.length_eq.trans booked.addresses
  have amountCount : amounts.length + 1 = approval.bondedCount :=
    permAmounts.length_eq.trans booked.amounts
  exact
    ⟨{ addresses := show subchainAddr.length = approval.bondedCount - 1 by omega
       amounts := show amounts.length = approval.bondedCount - 1 by omega
       approved :=
         show (amounts.map BitVec.toNat).sum = (approval.bondApproved - amount).toNat by
           omega },
      show (approval.bondApproved - amount).toNat + amount.toNat = _ by omega⟩

end

end

/-- All servers are accounted for, and `slack` of the balance belongs to none of them. -/
structure Sound (slack : Nat) (base : State) : Prop where
  accounted : ∀ scs, Accounted (base.scsList scs) (base.scsApprovalList scs)
  backed : owedTotal base.scsList + slack ≤ base.balance
  bounded : base.balance < 2 ^ 256

variable {base next : State} {slack left : Nat} {scs : Address}

theorem owed_le_owedTotal (scsList : Address → SCS) (scs : Address) :
    owed (scsList scs) ≤ owedTotal scsList := by
  have nonneg : ∀ other ∈ (Finset.univ : Finset Address), 0 ≤ owed (scsList other) :=
    fun _ _ => Nat.zero_le _
  exact Finset.single_le_sum nonneg (Finset.mem_univ scs)

section

variable (sound : Sound slack base)

include sound

theorem Sound.solvent : Solvent base where
  backed := (le_add_right _ _).trans sound.backed
  approved := fun scs => (sound.accounted scs).approved
  covered := fun scs => (sound.accounted scs).approved ▸ (sound.accounted scs).covered

theorem Sound.mono (less : left ≤ slack) : Sound left base where
  __ := sound
  backed := (Nat.add_le_add_left less _).trans sound.backed

theorem Sound.owed_le (scs : Address) : owed (base.scsList scs) + slack ≤ base.balance := by
  have single := owed_le_owedTotal base.scsList scs
  exact (Nat.add_le_add_right single slack).trans sound.backed

theorem Sound.replace (scs : Address)
    (elsewhere : ∀ other, other ≠ scs → next.scsList other = base.scsList other ∧
      next.scsApprovalList other = base.scsApprovalList other)
    (accounted : Accounted (next.scsList scs) (next.scsApprovalList scs))
    (paid : owed (next.scsList scs) + left + base.balance ≤ owed (base.scsList scs) + slack +
      next.balance) (bounded : next.balance ≤ base.balance) :
    Sound left next where
  accounted := by
    intro other
    by_cases same : other = scs
    · rw [same]
      exact accounted
    · rw [(elsewhere other same).1, (elsewhere other same).2]
      exact sound.accounted other
  backed := by
    have change : owedTotal next.scsList + _ = owedTotal base.scsList + _ :=
      sum_add_of_change (fun other => owed (base.scsList other))
        (fun other => owed (next.scsList other)) (Finset.mem_univ scs)
        fun other ne => congrArg owed (elsewhere other ne).1
    have backed := sound.backed
    omega
  bounded := bounded.trans_lt sound.bounded

end

variable {msg : Message} {res : Bool}

theorem Sound.setSCS (sound : Sound slack base)
    (accounted : Accounted entry (base.scsApprovalList scs))
    (paid : owed entry + left ≤ owed (base.scsList scs) + slack) :
    Sound left (setSCS base scs entry) := by
  refine sound.replace scs (fun other ne => ?_) ?_ ?_ le_rfl
  · simp [SubChainProtocolBase.setSCS, ne]
  · simpa [SubChainProtocolBase.setSCS] using accounted
  · simpa [SubChainProtocolBase.setSCS] using paid

theorem Sound.setApproval (sound : Sound slack base)
    (accounted : Accounted (base.scsList scs) approval) :
    Sound slack (setApproval base scs approval) := by
  refine sound.replace scs (fun other ne => ?_) ?_ ?_ le_rfl
  · simp [SubChainProtocolBase.setApproval, ne]
  · simpa [SubChainProtocolBase.setApproval] using accounted
  · simp [SubChainProtocolBase.setApproval]

theorem Sound.transfer (sound : Sound (slack + amount.toNat) base)
    (sent : transfer base amount = some next) : Sound slack next := by
  simp only [SubChainProtocolBase.transfer] at sent
  split at sent
  · simp at sent
  · simp only [some_inj] at sent
    subst sent
    have backed := sound.backed
    exact
      { accounted := sound.accounted
        backed := show owedTotal base.scsList + slack ≤ base.balance - amount.toNat by omega
        bounded := (sub_le _ _).trans_lt sound.bounded }

theorem Sound.congr (sound : Sound slack base) (entries : next.scsList = base.scsList)
    (approvals : next.scsApprovalList = base.scsApprovalList)
    (same : next.balance = base.balance) : Sound slack next where
  accounted := by
    rw [entries, approvals]
    exact sound.accounted
  backed := by
    rw [entries, same]
    exact sound.backed
  bounded := by
    rw [same]
    exact sound.bounded

theorem Sound.register (sound : Sound msg.value.toNat base)
    (done : register base msg scs = some (next, res)) : Sound 0 next := by
  have accounted := sound.accounted scs
  have within := sound.owed_le scs
  have bounded := sound.bounded
  simp only [SubChainProtocolBase.register] at done
  split_ifs at done with full known new
  · simp only [some_inj, Prod.mk.injEq] at done
    obtain ⟨rfl, -⟩ := done
    have covered := accounted.covered
    rw [accounted.unregistered new] at covered
    have counted : Sound msg.value.toNat
          { base with scsArray := addScsId base scs, scsCount := base.scsCount + 1 } :=
      sound.congr rfl rfl rfl
    apply counted.setSCS
    · exact
        { accounted with
          covered := covered.trans (Nat.zero_le _)
          unregistered := by simp
          leaving := by simp }
    · simp [owed]
  · simp only [some_inj, Prod.mk.injEq] at done
    obtain ⟨rfl, -⟩ := done
    have performing : (base.scsList scs).state = .performing := known.1.resolve_left new
    rw [owed, if_neg (by simp [performing])] at within
    have added := BitVec.toNat_add_of_lt (within.trans_lt bounded)
    have listed : Sound msg.value.toNat { base with scsArray := addScsId base scs } :=
      sound.congr rfl rfl rfl
    apply listed.setSCS
    · exact
        { accounted with
          covered := by
            rw [added]
            exact accounted.covered.trans (le_add_right _ _)
          unregistered := by simp
          leaving := by simp }
    · simp [owed, performing, added]

theorem Sound.withdrawRequest (sound : Sound slack base)
    (done : withdrawRequest base msg = some (next, res)) : Sound slack next := by
  have accounted := sound.accounted msg.sender
  simp only [SubChainProtocolBase.withdrawRequest] at done
  split_ifs at done with leaving bonded
  simp only [bind_some_iff, pure_def, some_inj, Prod.mk.injEq] at done
  obtain ⟨scsArray, -, rfl, -⟩ := done
  rw [not_not] at leaving bonded
  have counted : Sound slack { base with scsCount := base.scsCount - 1, scsArray := scsArray } :=
    sound.congr rfl rfl rfl
  apply counted.setSCS
  · exact
      { accounted with
        unregistered := by simp
        leaving := fun _ => bonded }
  · simp [owed, leaving]

theorem Sound.withdraw (sound : Sound slack base)
    (done : withdraw base msg = some next) : Sound slack next := by
  have accounted := sound.accounted msg.sender
  simp only [SubChainProtocolBase.withdraw] at done
  split_ifs at done with due
  · refine Sound.transfer (sound.setSCS ?_ ?_) done
    · exact
        { accounted with
          unregistered := by simp
          leaving := fun _ => accounted.leaving (.inl due.1) }
    · simp [owed, due.1, add_comm]
  · cases done
    exact sound

theorem Sound.approveBond {v : UInt8} {r s : Hash} (sound : Sound slack base)
    (fits : (base.scsApprovalList scs).bondApproved.toNat + amount.toNat < 2 ^ 256) :
    Sound slack (approveBond base msg signatures scs amount v r s).1 := by
  have accounted := sound.accounted scs
  simp only [SubChainProtocolBase.approveBond]
  split
  · exact sound
  · rename_i active
    split
    · exact sound
    · split
      · exact sound
      · rename_i enough
        have performing : (base.scsList scs).state = .performing := by
          simp only [isPerforming, decide_eq_true_eq, not_not] at active
          exact active.1
        apply sound.setApproval
        exact
          { accounted.toBooked.approve fits with
            covered := Nat.le_of_not_lt enough
            unregistered := by simp [performing]
            leaving := by simp [performing] }

theorem getElem?_of_isApproval (got : isApproval approval subchain amount i = some true) :
    approval.amount[i]? = some amount := by
  simp only [isApproval, bind_some_iff] at got
  obtain ⟨addr, -, got⟩ := got
  split_ifs at got
  · simp only [bind_some_iff, pure_def, some_inj, decide_eq_true_eq] at got
    obtain ⟨approved, read, rfl⟩ := got
    exact read
  · simp at got

section

variable (accounted : Accounted entry approval) (got : approval.amount[i]? = some amount)
  (deleted : deleteApproval approval amount i = some shorter)

include accounted got deleted

theorem Accounted.delete :
    Accounted entry shorter ∧ entry.state ≠ .withdrawPending ∧ entry.state ≠ .withdrawDone := by
  obtain ⟨booked, deducted⟩ := accounted.toBooked.delete got deleted
  have covered := accounted.covered
  have inside := accounted.index_lt got
  have stays : ¬ (entry.state = .withdrawPending ∨ entry.state = .withdrawDone) := by
    intro leaving
    rw [accounted.leaving leaving] at inside
    exact not_lt_zero i inside
  exact
    ⟨{ booked with
       covered := by omega
       unregistered := accounted.unregistered
       leaving := fun leaving => absurd leaving stays },
      not_or.mp stays⟩

theorem Accounted.lower :
    amount ≤ entry.bond ∧ Accounted { entry with bond := entry.bond - amount } shorter := by
  obtain ⟨shortened, -, -⟩ := accounted.delete got deleted
  obtain ⟨-, deducted⟩ := accounted.toBooked.delete got deleted
  have covered := accounted.covered
  have amountLe : amount.toNat ≤ entry.bond.toNat := by omega
  have lowered : (entry.bond - amount).toNat = entry.bond.toNat - amount.toNat :=
    BitVec.toNat_sub_of_le amountLe
  refine ⟨amountLe, { shortened with covered := ?_, unregistered := ?_ }⟩
  · rw [lowered]
    omega
  · intro new
    rw [accounted.unregistered new] at amountLe lowered ⊢
    exact BitVec.eq_of_toNat_eq (lowered.trans (Nat.sub_eq_zero_of_le (Nat.zero_le _)))

end

theorem Sound.releaseFromSubchain (sound : Sound slack base)
    (done : releaseFromSubchain base msg scs amount = some (next, res)) : Sound slack next := by
  simp only [SubChainProtocolBase.releaseFromSubchain, bind_some_iff] at done
  obtain ⟨hit, got, done⟩ := done
  cases hit with
  | none =>
    cases done
    exact sound
  | some i =>
    simp only [bind_some_iff, pure_def, some_inj, Prod.mk.injEq] at done
    obtain ⟨shorter, deleted, rfl, -⟩ := done
    have listed := getElem?_of_isApproval (findM?_eq_some_some got)
    exact sound.setApproval ((sound.accounted scs).delete listed deleted).1

theorem Sound.releaseRequest (sound : Sound slack base)
    (done : releaseRequest base msg scs subchain = some (next, res)) : Sound slack next := by
  simp only [SubChainProtocolBase.releaseRequest, bind_some_iff] at done
  obtain ⟨hit, -, done⟩ := done
  cases hit with
  | none =>
    cases done
    exact sound
  | some i =>
    simp only [bind_some_iff, pure_def, some_inj, Prod.mk.injEq] at done
    obtain ⟨amount, listed, shorter, deleted, rfl, -⟩ := done
    exact sound.setApproval ((sound.accounted scs).delete listed deleted).1

theorem Sound.forfeitBond (sound : Sound slack base)
    (done : forfeitBond base msg scs amount = some (next, res)) : Sound slack next := by
  have accounted := sound.accounted scs
  simp only [SubChainProtocolBase.forfeitBond, bind_some_iff] at done
  obtain ⟨hit, got, done⟩ := done
  cases hit with
  | none =>
    cases done
    exact sound
  | some i =>
    simp only [bind_some_iff, pure_def, some_inj, Prod.mk.injEq] at done
    obtain ⟨shorter, deleted, paid, sent, rfl, -⟩ := done
    have listed := getElem?_of_isApproval (findM?_eq_some_some got)
    obtain ⟨shortened, -, present⟩ := accounted.delete listed deleted
    obtain ⟨amountLe, lowered⟩ := accounted.lower listed deleted
    refine Sound.transfer (Sound.setSCS (sound.setApproval shortened) ?_ ?_) sent
    · simpa using lowered
    · have paid : ((base.scsList scs).bond - amount).toNat + amount.toNat =
          (base.scsList scs).bond.toNat := by
        rw [BitVec.toNat_sub_of_le amountLe, Nat.sub_add_cancel amountLe]
      simp only [setApproval_scsList, owed, present, if_false]
      omega

theorem Sound.receive (sound : Sound 0 base) (paid : receive base msg call = some next) :
    Sound msg.value.toNat next ∧ next.scsApprovalList = base.scsApprovalList := by
  simp only [SubChainProtocolBase.receive] at paid
  split_ifs at paid with refused fits
  cases paid
  have backed : owedTotal base.scsList + msg.value.toNat ≤ base.balance + msg.value.toNat :=
    Nat.add_le_add_right sound.solvent.backed _
  exact ⟨{ accounted := sound.accounted, backed := backed, bounded := fits }, rfl⟩

/-- An approval does not make the sum of the approvals wrap around. -/
def Fits (base : State) : Message × Call → Prop
  | (_, .approveBond scs amount _ _ _) =>
    (base.scsApprovalList scs).bondApproved.toNat + amount.toNat < 2 ^ 256
  | _ => True

instance (base : State) : DecidablePred (Fits base) := fun (_, call) => by
  cases call <;> unfold Fits <;> infer_instance

theorem Sound.body (sound : Sound msg.value.toNat base) (fits : Fits base (msg, call))
    (done : body base msg signatures call = some next) : Sound 0 next := by
  have loose := sound.mono (Nat.zero_le _)
  cases call with
  | updatePoolSize size =>
    simp only [SubChainProtocolBase.body, updatePoolSize] at done
    split_ifs at done
    cases done
    exact loose.congr rfl rfl rfl
  | register scs =>
    obtain ⟨⟨_, res⟩, ret, rfl⟩ := Option.map_eq_some_iff.mp done
    exact sound.register ret
  | withdrawRequest =>
    obtain ⟨⟨_, res⟩, ret, rfl⟩ := Option.map_eq_some_iff.mp done
    exact loose.withdrawRequest ret
  | withdraw => exact loose.withdraw done
  | setSubchainExpireBlock blk | setSubchainActiveBlock =>
    cases done
    exact loose.congr rfl rfl rfl
  | approveBond scs amount v r s =>
    cases done
    exact loose.approveBond fits
  | forfeitBond scs amount =>
    obtain ⟨⟨_, res⟩, ret, rfl⟩ := Option.map_eq_some_iff.mp done
    exact loose.forfeitBond ret
  | releaseRequest scs subchain =>
    obtain ⟨⟨_, res⟩, ret, rfl⟩ := Option.map_eq_some_iff.mp done
    exact loose.releaseRequest ret
  | releaseFromSubchain scs amount =>
    obtain ⟨⟨_, res⟩, ret, rfl⟩ := Option.map_eq_some_iff.mp done
    exact loose.releaseFromSubchain ret

theorem Sound.perform {call : Message × Call} (sound : Sound 0 base) (fits : Fits base call) :
    Sound 0 (perform signatures base call) := by
  simp only [SubChainProtocolBase.perform]
  cases done : (SubChainProtocolBase.receive base call.1 call.2).bind fun paid =>
      SubChainProtocolBase.body paid call.1 signatures call.2 with
  | none => exact sound
  | some next =>
    obtain ⟨paid, received, ran⟩ := Option.bind_eq_some_iff.mp done
    obtain ⟨soundPaid, sameApprovals⟩ := sound.receive received
    refine soundPaid.body ?_ ran
    obtain ⟨msg, call⟩ := call
    cases call with
    | approveBond scs amount v r s => simpa only [Fits, sameApprovals] using fits
    | _ => trivial

theorem sound_deploy (msg : Message) (bmin : Uint256) : Sound 0 (deploy msg bmin) where
  accounted := fun _ => {
    addresses := rfl
    amounts := rfl
    approved := rfl
    covered := le_rfl
    unregistered := fun _ => rfl
    leaving := fun _ => rfl }
  backed := by simp [deploy, owedTotal, owed]
  bounded := by simp [deploy]

/-- As long as no approval makes the sum of the approvals wrap around, the contract can pay all
bonds, and the approvals of each server add up and are covered by its bond. -/
theorem solvent_of_run (signatures : Signatures) (creation : Message) (bmin : Uint256)
    (calls : List (Message × Call))
    (fits : EachFold (perform signatures) Fits (deploy creation bmin) calls) :
    Solvent (calls.foldl (perform signatures) (deploy creation bmin)) :=
  (foldl_invariant (Sound 0) (fun sound fits => sound.perform fits)
    (sound_deploy creation bmin) fits).solvent

def signedByOne : Signatures where
  sha256 := fun _ _ => 0
  ecrecover := fun _ _ _ _ => 1

def twoBonds : List (Message × Call) :=
  [({ sender := 1, value := 10 ^ 18, blockNumber := 1 }, .register 1),
    ({ sender := 2, value := 10 ^ 18, blockNumber := 1 }, .register 2)]

def approveForThree (amount : Uint256) : Message × Call :=
  ({ sender := 3, blockNumber := 10 }, .approveBond 1 amount 27 0 0)

def forfeitToThree (amount : Uint256) : Message × Call :=
  ({ sender := 3, blockNumber := 11 }, .forfeitBond 1 amount)

/-- The second amount brings the sum of the approvals back to zero, so the bond of
server 1 is approved twice and subchain 3 is paid the bond of server 2 as well. -/
theorem overflowing_approvals_drain_bonds :
    ¬ Solvent ((twoBonds ++
          [approveForThree (10 ^ 18), approveForThree (-10 ^ 18), approveForThree (10 ^ 18),
            forfeitToThree (10 ^ 18), forfeitToThree (10 ^ 18)]).foldl
        (perform signedByOne) (deploy { sender := 9, blockNumber := 0 } 1)) := by
  intro solvent
  have second := (owed_le_owedTotal _ 2).trans solvent.backed
  revert second
  decide +kernel

theorem solvent_after_forfeit :
    Solvent ((twoBonds ++ [approveForThree (10 ^ 18), forfeitToThree (10 ^ 18)]).foldl
        (perform signedByOne) (deploy { sender := 9, blockNumber := 0 } 1)) :=
  solvent_of_run signedByOne { sender := 9, blockNumber := 0 } 1 _ (by decide +kernel)

end MoacVnode.Solidity.SubChainProtocolBase
