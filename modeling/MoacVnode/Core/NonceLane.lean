import MoacVnode.Core.TxList

/-!
# The pending nonces of an account

A lane is what the pool knows about the order of an account's transactions: the nonce of the account
in the state of the head, the pending transactions and the virtual nonce behind them.
-/

namespace MoacVnode.Core

open RawSortedMap (Removes)
open Function (update update_of_ne)
open Option

structure Lane where
  stateNonce : Nat
  /-- The account can pay for the transaction. -/
  payable : Transaction → Prop
  held : Nat → Option Transaction
  virtualNonce : Nat

namespace Lane

variable {lane : Lane} {tx : Transaction} {nonce : Nat} {held : Nat → Option Transaction}

variable (lane)

/-- Give up everything from a nonce on. -/
def cut (nonce : Nat) : Lane :=
  { lane with
    held := fun other => if other < nonce then lane.held other else none
    virtualNonce := min lane.virtualNonce nonce }

def replace (tx : Transaction) : Lane := { lane with held := update lane.held tx.nonce (some tx) }

def promote (tx : Transaction) : Lane :=
  { lane with
    held := update lane.held tx.nonce (some tx)
    virtualNonce := tx.nonce + 1 }

/-- The pending nonces are those from the account nonce up to the virtual
nonce. -/
def Executable : Prop :=
  ∀ nonce, (lane.held nonce).isSome ↔ lane.stateNonce ≤ nonce ∧ nonce < lane.virtualNonce

/-- The virtual nonce was not raised, or the transaction with the account nonce
is pending and payable. -/
def Fits : Prop :=
  lane.virtualNonce ≤ lane.stateNonce ∨ ∃ tx, lane.held lane.stateNonce = some tx ∧ lane.payable tx

/-- The pending nonces follow the account nonce without a gap; if there are none
the virtual nonce was not raised. -/
def Demoted : Prop :=
  ∃ last, (∀ nonce, (lane.held nonce).isSome ↔ lane.stateNonce ≤ nonce ∧ nonce < last) ∧
    (last ≤ lane.stateNonce → lane.virtualNonce ≤ lane.stateNonce)

/-- If the transaction with the account nonce is pending, every later one follows
another one. -/
def NoInnerGap : Prop :=
  (lane.held lane.stateNonce).isSome → ∀ nonce, lane.stateNonce < nonce →
    (lane.held nonce).isSome → (lane.held (nonce - 1)).isSome

variable {lane}

/-- The moves that an invariant of lanes survives. -/
structure LaneRule (inv : Lane → Prop) : Prop where
  cut : ∀ {lane} nonce, inv lane → inv (lane.cut nonce)
  replace : ∀ {lane tx}, inv lane → (lane.held tx.nonce).isSome →
    lane.payable tx → inv (lane.replace tx)
  promote : ∀ {lane tx}, inv lane → lane.held tx.nonce = none →
    lane.stateNonce ≤ tx.nonce → tx.nonce ≤ lane.virtualNonce → lane.payable tx →
      inv (lane.promote tx)

theorem isSome_update (held : Nat → Option Transaction) (tx : Transaction) (nonce : Nat) :
    (update held tx.nonce (some tx) nonce).isSome ↔ nonce = tx.nonce ∨ (held nonce).isSome := by
  by_cases same : nonce = tx.nonce
  · simp [same]
  · rw [update_of_ne same, or_iff_right same]

theorem laneRule_executable : LaneRule Executable where
  cut := by
    intro lane nonce executable other
    have before := executable other
    simp only [cut]
    split
    · rw [before]
      omega
    · simp only [isSome_none, Bool.false_eq_true, false_iff]
      omega
  replace := by
    intro lane tx executable occupied _ nonce
    have before := executable nonce
    have atTx := (executable tx.nonce).mp occupied
    simp only [replace]
    rw [isSome_update, before]
    constructor
    · rintro (rfl | within)
      · exact atTx
      · exact within
    · exact .inr
  promote := by
    intro lane tx executable slotFree notOld notAhead _ nonce
    have before := executable nonce
    have atTx := executable tx.nonce
    rw [slotFree, isSome_none] at atTx
    -- the slot is free, so the nonce is the virtual one
    have isNext : tx.nonce = lane.virtualNonce := by
      have notBelow : ¬ (lane.stateNonce ≤ tx.nonce ∧ tx.nonce < lane.virtualNonce) :=
        fun within => Bool.false_ne_true (atTx.mpr within)
      omega
    simp only [promote]
    rw [isSome_update, before]
    omega

theorem laneRule_fits : LaneRule Fits where
  cut := by
    intro lane nonce fits
    by_cases above : lane.stateNonce < nonce
    · rcases fits with notRaised | ⟨tx, held, isPayable⟩
      · exact .inl ((Nat.min_le_left _ _).trans notRaised)
      · exact .inr ⟨tx, (if_pos above).trans held, isPayable⟩
    · exact .inl ((Nat.min_le_right _ _).trans (Nat.le_of_not_lt above))
  replace := by
    intro lane tx fits _ isPayable
    rcases fits with notRaised | ⟨first, held, firstPayable⟩
    · exact .inl notRaised
    · by_cases same : lane.stateNonce = tx.nonce
      · refine .inr ⟨tx, ?_, isPayable⟩
        simp only [replace, same, Function.update_self]
      · refine .inr ⟨first, ?_, firstPayable⟩
        simp only [replace]
        rw [update_of_ne same, held]
  promote := by
    intro lane tx fits slotFree notOld notAhead isPayable
    rcases fits with notRaised | ⟨first, held, firstPayable⟩
    · have isFirst : lane.stateNonce = tx.nonce := by omega
      refine .inr ⟨tx, ?_, isPayable⟩
      simp only [promote, isFirst, Function.update_self]
    · have ne : lane.stateNonce ≠ tx.nonce := by
        intro same
        rw [same, slotFree] at held
        cases held
      refine .inr ⟨first, ?_, firstPayable⟩
      simp only [promote]
      rw [update_of_ne ne, held]

theorem eq_foldl_cut {drops : List Transaction} (removes : Removes lane.held held drops)
    (highest : ∀ tx ∈ drops, ∀ nonce, (held nonce).isSome → nonce < tx.nonce) :
    { lane with
      held := held
      virtualNonce := drops.foldl (fun virtual tx => min virtual tx.nonce) lane.virtualNonce } =
      drops.foldl (fun lane tx => lane.cut tx.nonce) lane := by
  have folded (drops : List Transaction) (lane : Lane) :
      drops.foldl (fun lane tx => lane.cut tx.nonce) lane =
        { lane with
          held := fun nonce => if ∀ tx ∈ drops, nonce < tx.nonce then lane.held nonce else none
          virtualNonce :=
            drops.foldl (fun virtual tx => min virtual tx.nonce) lane.virtualNonce } := by
    induction drops generalizing lane with
    | nil => simp
    | cons tx drops ih =>
      rw [List.foldl_cons, ih]
      refine congrArg
        (Lane.mk lane.stateNonce lane.payable · (drops.foldl _ (min lane.virtualNonce tx.nonce)))
        (funext fun nonce => ?_)
      simp only [List.forall_mem_cons]
      split
      · next aboveRest => exact if_congr (and_iff_left aboveRest).symm rfl rfl
      · next notAboveRest => rw [if_neg fun both => notAboveRest both.2]
  rw [folded]
  refine congrArg (Lane.mk lane.stateNonce lane.payable · _) (funext fun nonce => ?_)
  split
  · rename_i below
    rw [removes.get_eq, if_neg]
    intro nonceMem
    obtain ⟨tx, mem, sameNonce⟩ := List.mem_map.mp nonceMem
    have lt := below tx mem
    omega
  · rename_i notBelow
    rw [← not_isSome_iff_eq_none]
    exact fun isHeld => notBelow fun tx mem => highest tx mem nonce isHeld

theorem exists_last {first bound : Nat} (bounded : ∀ nonce, (held nonce).isSome → nonce < bound)
    (fromFirst : ∀ nonce, (held nonce).isSome → first ≤ nonce)
    (closed : ∀ nonce, first < nonce → (held nonce).isSome → (held (nonce - 1)).isSome)
    (firstHeld : (held first).isSome) :
    ∃ last, first < last ∧ ∀ nonce, (held nonce).isSome ↔ first ≤ nonce ∧ nonce < last := by
  have missing : ∃ count, ¬ (held (first + count)).isSome :=
    ⟨bound, fun isHeld => by
      have := bounded _ isHeld
      omega⟩
  refine ⟨first + Nat.find missing, ?_, fun nonce => ⟨fun isHeld => ?_, fun within => ?_⟩⟩
  · have positive : 0 < Nat.find missing := by
      rw [Nat.find_pos, not_not]
      exact firstHeld
    omega
  · refine ⟨fromFirst nonce isHeld, ?_⟩
    -- otherwise the missing one would be held as well
    by_contra notBelow
    have down (steps : Nat) (within : first + Nat.find missing + steps ≤ nonce) :
        (held (nonce - steps)).isSome := by
      induction steps with
      | zero => exact isHeld
      | succ steps ih =>
        have previous := closed (nonce - steps) (by omega) (ih (by omega))
        rwa [Nat.sub_sub] at previous
    apply Nat.find_spec missing
    have atMissing := down (nonce - (first + Nat.find missing)) (by omega)
    rwa [Nat.sub_sub_self (Nat.le_of_not_lt notBelow)] at atMissing
  · obtain ⟨count, rfl⟩ := Nat.exists_eq_add_of_le within.1
    exact not_not.mp (Nat.find_min missing (by omega))

theorem Fits.demoted_of_nothing (fits : lane.Fits)
    (nothing : ∀ nonce, lane.held nonce = none) : lane.Demoted := by
  refine ⟨lane.stateNonce, fun nonce => ?_, fun _ => ?_⟩
  · rw [nothing]
    simp only [isSome_none, Bool.false_eq_true, false_iff]
    omega
  · rcases fits with notRaised | ⟨tx, held, -⟩
    · exact notRaised
    · cases (nothing _).symm.trans held

theorem Demoted.raise (demoted : lane.Demoted) {last : Transaction}
    (held : lane.held last.nonce = some last)
    (isLast : ∀ nonce, (lane.held nonce).isSome → nonce ≤ last.nonce) :
    ({ lane with virtualNonce := last.nonce + 1 } : Lane).Executable := by
  obtain ⟨top, interval, -⟩ := demoted
  have lastWithin := (interval last.nonce).mp (by rw [held]; rfl)
  have topHeld := isLast (top - 1) ((interval (top - 1)).mpr (by omega))
  intro nonce
  rw [interval nonce]
  change _ ↔ lane.stateNonce ≤ nonce ∧ nonce < last.nonce + 1
  omega

theorem Demoted.executable_of_nothing (demoted : lane.Demoted)
    (nothing : ∀ nonce, lane.held nonce = none) : lane.Executable := by
  obtain ⟨top, interval, notRaised⟩ := demoted
  have atState := interval lane.stateNonce
  rw [nothing, isSome_none] at atState
  have topLow : top ≤ lane.stateNonce := by
    by_contra above
    exact Bool.false_ne_true (atState.mpr (by omega))
  intro nonce
  rw [nothing]
  simp only [isSome_none, Bool.false_eq_true, false_iff]
  omega

end Lane

end MoacVnode.Core
