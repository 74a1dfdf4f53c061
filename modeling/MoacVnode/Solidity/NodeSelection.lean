import MoacVnode.Solidity.NodeMembership

/-!
# Selected servers and their turns

A server is selected by the distance of two digits of its address from those of the contract, and
the nodes propose in turns of `2 * proposalExpiration` blocks each.
-/

namespace MoacVnode.Solidity.SubChainBase

open MoacVnode.Core Lib Nat

/-- A hexadecimal digit of an address, counted from the left. -/
def nibble (a : Address) (idx : Fin 40) : Nat := a.toNat / 16 ^ (39 - idx.val) % 16

/-- The byte with the two selected digits. -/
def selectedByte (a : Address) (index1 index2 : Fin 40) : Nat :=
  16 * nibble a index1 + nibble a index2

def circularDistance (first second : Nat) : Nat :=
  min ((first + 256 - second) % 256) ((second + 256 - first) % 256)

theorem getindexByte_eq (a : Address) (index1 index2 : Fin 40) :
    getindexByte a index1 index2 = selectedByte a index1 index2 := by
  simp only [getindexByte, selectedByte, nibble, pow_mul, reducePow]
  omega

theorem selectedByte_lt (a : Address) (index1 index2 : Fin 40) :
    selectedByte a index1 index2 < 256 := by
  simp only [selectedByte, nibble]
  omega

/-- The selection is circular exactly if the byte of the server is not so far above that of the
contract that only the way around the top is short enough. -/
theorem matchSelTarget_circular_iff (env : Env) (base : State) (addr : Address)
    (index1 index2 : Fin 40) :
    (matchSelTarget env base addr index1 index2 = true ↔
        base.selTarget.toNat = 255 ∨
          circularDistance (selectedByte addr index1 index2)
            (selectedByte env.this index1 index2) ≤ base.selTarget.toNat) ↔
      ¬ (selectedByte env.this index1 index2 + base.selTarget.toNat <
            selectedByte addr index1 index2 ∧
          selectedByte env.this index1 index2 + 256 ≤
            selectedByte addr index1 index2 + base.selTarget.toNat) := by
  have addrRange := selectedByte_lt addr index1 index2
  simp only [matchSelTarget, getindexByte_eq, circularDistance]
  split_ifs <;> simp only [decide_eq_true_eq, true_iff] <;> omega

/-- The bytes 255 and 0 are next to each other, but only seen from 255. -/
theorem top_byte_not_selected :
    circularDistance (selectedByte (BitVec.allOnes 160) 0 1) (selectedByte 1 0 1) = 1 ∧
      matchSelTarget { plainEnv with this := 1 }
        { smallSubchain 1 (by decide) with selTarget := 1 } (BitVec.allOnes 160) 0 1 = false := by
  decide

def slotLength : Nat := (2 * proposalExpiration).toNat

def slotStart (base : State) : Nat := (base.lastFlushBlk + base.flushInRound).toNat

/-- The blocks in which the node at a position may propose. -/
def InSlot (base : State) (idx blk : Nat) : Prop :=
  (getEstFlushBlock base idx).toNat ≤ blk ∧ blk < (getEstFlushBlock base idx).toNat + slotLength

structure Tiled (base : State) : Prop where
  inTurn :
    ∀ turn < base.nodeCount,
      (getEstFlushBlock base ((base.curFlushIndex + turn) % base.nodeCount)).toNat =
        slotStart base + turn * slotLength
  covers :
    ∀ blk, (∃ idx < base.nodeCount, InSlot base idx blk) ↔
      slotStart base ≤ blk ∧ blk < slotStart base + base.nodeCount * slotLength
  disjoint :
    ∀ blk, ∀ first < base.nodeCount, ∀ second < base.nodeCount,
      InSlot base first blk → InSlot base second blk → first = second
  oneProposer :
    ∀ (tx other : Tx) (first second : Nat) (args otherArgs : ProposalArgs),
      tx.blockNumber = other.blockNumber → (createProposal tx base first args).isSome →
        (createProposal other base second otherArgs).isSome → first = second

variable {base : State} {tx : Tx} {idx : Nat}

theorem turn_of_position {count first turn : Nat} (ordered : first ≤ count)
    (isTurn : turn < count) :
    ((first + turn) % count + count - first) % count = turn := by
  rw [Nat.add_sub_assoc ordered, Nat.mod_add_mod, Nat.add_right_comm, Nat.add_sub_cancel' ordered,
    add_mod_left, mod_eq_of_lt isTurn]

theorem position_of_turn {count first : Nat} (ordered : first ≤ count) (isIndex : idx < count) :
    (first + (idx + count - first) % count) % count = idx := by
  rw [Nat.add_mod_mod, Nat.add_sub_cancel' (by omega), Nat.add_mod_right, Nat.mod_eq_of_lt isIndex]

theorem inSlot_of_createProposal {args : ProposalArgs}
    (created : (createProposal tx base idx args).isSome) :
    idx < base.nodeCount ∧ InSlot base idx tx.blockNumber := by
  obtain ⟨after, created⟩ := Option.isSome_iff_exists.mp created
  simp only [createProposal, Option.ite_none_left_eq_some, not_or, not_not] at created
  obtain ⟨⟨isNode, ⟨started, notOver⟩, -⟩, -⟩ := created
  simp only [isNodeAt, Bool.not_eq_false, decide_eq_true_eq] at isNode
  have num : tx.number.toNat = tx.blockNumber := by
    have := tx.blockNumber_lt
    simp only [uint64Size] at this
    simp only [Tx.number, BitVec.toNat_ofNat]
    omega
  rw [ge_iff_le, BitVec.le_def, num] at started
  rw [BitVec.lt_def, num, BitVec.toNat_add] at notOver
  exact ⟨isNode.1, started, notOver.trans_le (mod_le _ _)⟩

section

variable (inRange :
  slotStart base + (base.nodeCount + base.curFlushIndex + 1) * slotLength < 2 ^ 256)

include inRange

theorem toNat_getEstFlushBlock (ordered : base.curFlushIndex ≤ base.nodeCount)
    (isIndex : idx < base.nodeCount) :
    (getEstFlushBlock base idx).toNat =
      slotStart base +
        (idx + base.nodeCount - base.curFlushIndex) % base.nodeCount * slotLength := by
  have length : slotLength = 24 := rfl
  rw [length] at inRange ⊢
  obtain ⟨turn, isTurn, isRest, isBlock⟩ : ∃ turn < base.nodeCount,
      (idx + base.nodeCount - base.curFlushIndex) % base.nodeCount = turn ∧
        getEstFlushBlock base idx =
          base.lastFlushBlk + base.flushInRound +
            BitVec.ofNat 256 turn * 2 * proposalExpiration := by
    by_cases later : idx ≥ base.curFlushIndex
    · refine ⟨idx - base.curFlushIndex, by omega, ?_, by simp [getEstFlushBlock, later]⟩
      rw [Nat.add_comm, Nat.add_sub_assoc later, Nat.add_mod_left, Nat.mod_eq_of_lt (by omega)]
    · refine ⟨idx + base.nodeCount - base.curFlushIndex, by omega,
        mod_eq_of_lt (by omega), ?_⟩
      rw [← BitVec.ofNat_sub_ofNat_of_le _ _ (by omega) (by omega)]
      simp [getEstFlushBlock, later]
  have turns : (BitVec.ofNat 256 turn * 2 * proposalExpiration).toNat = turn * 24 := by
    change turn % 2 ^ 256 * 2 % 2 ^ 256 * 12 % 2 ^ 256 = turn * 24
    omega
  rw [isRest, isBlock, BitVec.toNat_add, turns]
  exact mod_eq_of_lt (by unfold slotStart at inRange; omega)

theorem tiled_of_le (ordered : base.curFlushIndex ≤ base.nodeCount) (some : 0 < base.nodeCount) :
    Tiled base := by
  have length : slotLength = 24 := rfl
  have place (idx : Nat) (isIndex : idx < base.nodeCount) :=
    toNat_getEstFlushBlock inRange ordered isIndex
  have isTurn (idx : Nat) := mod_lt (idx + base.nodeCount - base.curFlushIndex) some
  have disjoint (blk first : Nat) (isFirst : first < base.nodeCount) (second : Nat)
      (isSecond : second < base.nodeCount) (inFirst : InSlot base first blk)
      (inSecond : InSlot base second blk) : first = second := by
    simp only [InSlot, place first isFirst, place second isSecond, length] at inFirst inSecond
    rw [← position_of_turn ordered isFirst, ← position_of_turn ordered isSecond]
    congr 2
    omega
  refine ⟨fun turn isTurn => ?_, fun blk => ⟨?_, ?_⟩, disjoint, ?_⟩
  · rw [place _ (mod_lt _ some), turn_of_position ordered isTurn]
  · rintro ⟨idx, isIndex, inSlot⟩
    have := isTurn idx
    simp only [InSlot, place idx isIndex, length] at inSlot ⊢
    omega
  · rintro ⟨started, notOver⟩
    have inside : (blk - slotStart base) / slotLength < base.nodeCount :=
      Nat.div_lt_of_lt_mul (by rw [Nat.mul_comm]; omega)
    refine ⟨_, mod_lt (base.curFlushIndex + (blk - slotStart base) / slotLength) some, ?_⟩
    rw [InSlot, place _ (mod_lt _ some), turn_of_position ordered inside, length]
    omega
  · intro tx other first second args otherArgs sameBlock created createdToo
    obtain ⟨isFirst, inFirst⟩ := inSlot_of_createProposal created
    obtain ⟨isSecond, inSecond⟩ := inSlot_of_createProposal createdToo
    rw [← sameBlock] at inSecond
    exact disjoint _ first isFirst second isSecond inFirst inSecond

theorem le_of_tiled (tiled : Tiled base) (some : 0 < base.nodeCount) :
    base.curFlushIndex ≤ base.nodeCount := by
  by_contra! beyond
  have length : slotLength = 24 := rfl
  have late : ¬ 0 ≥ base.curFlushIndex := by omega
  have inSlot : InSlot base 0 (getEstFlushBlock base 0).toNat := by simp [InSlot, length]
  obtain ⟨started, notOver⟩ := (tiled.covers _).mp ⟨0, some, inSlot⟩
  rw [length] at inRange notOver
  -- The turn of the first node lies before the start, unless it wraps around.
  have shifted : getEstFlushBlock base 0 +
      BitVec.ofNat 256 ((base.curFlushIndex - base.nodeCount) * 24) =
        base.lastFlushBlk + base.flushInRound := by
    rw [BitVec.ofNat_mul, ← BitVec.ofNat_sub_ofNat_of_le _ _ (by omega) beyond.le]
    simp only [getEstFlushBlock, late, if_false, proposalExpiration, zero_add]
    bv_omega
  have sum := congrArg BitVec.toNat shifted
  rw [BitVec.toNat_add, BitVec.toNat_ofNat, add_mod_mod, mod_eq_of_lt (by omega),
    ← slotStart] at sum
  omega

end

/-- The slots of the nodes tile the round exactly if the next position is not behind the last
node. -/
theorem flush_slots_tile_iff (some : 0 < base.nodeCount)
    (inRange : slotStart base + (base.nodeCount + base.curFlushIndex + 1) * slotLength < 2 ^ 256) :
    Tiled base ↔ base.curFlushIndex ≤ base.nodeCount :=
  ⟨fun tiled => le_of_tiled inRange tiled some, fun ordered => tiled_of_le inRange ordered some⟩

/-- The last of three nodes proposes, and with the next proposal the second one leaves. -/
def releaseAfterLast : State :=
  (opening [0, 1, 2] ++
    [propose 2 2 108 7 3 [], (sentBy 0 109, .voteOnProposal 0 7 false),
      (sentBy 2 110, .requestProposalAction 2 7), (sentBy 2 111, .requestDistributeAction 7),
      (sentBy 1 112, .requestRelease 1),
      (sentBy 0 151, .createProposal 0 ⟨[7, 8], [0, 0], [0, 0, 0], [], 0, [], []⟩),
      (sentBy 1 152, .voteOnProposal 1 8 false),
      (sentBy 0 153, .requestProposalAction 0 8)]).foldl (step plainEnv)
    (smallSubchain 1 one_allowed)

/-- The first slot begins a turn before the round. -/
theorem slot_before_round :
    releaseAfterLast.nodeCount = 2 ∧ releaseAfterLast.curFlushIndex = 3 ∧
      slotStart releaseAfterLast = 151 ∧ (getEstFlushBlock releaseAfterLast 0).toNat = 127 := by
  decide +kernel

theorem three_slots_tile :
    Tiled ((opening [0, 1, 2]).foldl (step plainEnv) (smallSubchain 1 (by decide))) := by
  apply (flush_slots_tile_iff _ _).mpr
  · decide +kernel
  · decide +kernel
  · decide +kernel

end MoacVnode.Solidity.SubChainBase
