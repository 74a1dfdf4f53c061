import MoacVnode.Core.HeaderChain
import MoacVnode.Lib.Run

/-!
# Searching for a block with a state

`BinaryScanForValidBlock` finds the last canonical block by bisection and looks at the states of the
blocks behind it.
-/

namespace MoacVnode.Core

open Lib Nat

namespace ChainDb

variable (db : ChainDb) (stateNodes : Hash → Nat)

def getBlockByNumber (num : Nat) : Option Block :=
  let hash := db.getCanonicalHash num
  if hash = emptyHash then none else db.getBlock hash num

/-- The bisection; it stops when the middle is the same as before. -/
def searchBlock : Nat → Nat → Nat → Nat → Nat → Except Crash Nat
  | 0, _, _, _, _ => .error .endlessLoop
  | fuel + 1, low, high, prevMid, blockFound =>
    let mid := (low + high) / 2
    if mid = prevMid then .ok blockFound
    else if (db.getBlockByNumber mid).isSome then searchBlock fuel mid high mid mid
    else searchBlock fuel low mid mid blockFound

/-- The backward scan down to `bottom`, with the block that was found so far. -/
def scanStates (bottom : Nat) : Nat → Nat → Except Crash Nat
  | 0, statedbFound => .ok statedbFound
  | blockNum + 1, statedbFound =>
    if blockNum + 1 ≤ bottom then .ok statedbFound
    else
      match db.getBlockByNumber (blockNum + 1) with
      | none => .error .nilDereference
      | some block =>
        scanStates bottom blockNum
          (if 10000 < stateNodes block.root then blockNum + 1 else statedbFound)

def binaryScanForValidBlock : Except Crash Nat :=
  match db.searchBlock loopFuel 0 1000000000000 0 0 with
  | .error crash => .error crash
  | .ok blockFound =>
    if blockFound = 0 then .ok 0
    else db.scanStates stateNodes (sub64 blockFound 10000) blockFound 0

def CanonicalUpTo (last : Nat) : Prop := ∀ num, (db.getBlockByNumber num).isSome ↔ num ≤ last

/-- A block with a valid state in a range. -/
def ValidIn (bottom top num : Nat) : Prop :=
  bottom < num ∧ num ≤ top ∧
    ∃ block, db.getBlockByNumber num = some block ∧ 10000 < stateNodes block.root

/-- The last valid block of the range, or zero if there is none. -/
def IsLatest (bottom top res : Nat) : Prop :=
  (db.ValidIn stateNodes bottom top res ∨ res = 0) ∧
    ∀ num, db.ValidIn stateNodes bottom top num → num ≤ res

variable {db stateNodes}

theorem searchBlock_eq {last fuel low high prevMid : Nat} (canonical : db.CanonicalUpTo last)
    (lowLe : low ≤ last) (lastLt : last < high) (ends : prevMid = low ∨ prevMid = high)
    (enough : 2 * (high - low) + 1 ≤ fuel ∨ prevMid = low ∧ 2 * (high - low) ≤ fuel) :
    db.searchBlock fuel low high prevMid low = .ok last := by
  induction fuel generalizing low high prevMid with
  | zero => omega
  | succ fuel ih =>
    rw [searchBlock]
    split_ifs with stops stored
    · congr 1
      omega
    · rw [canonical] at stored
      exact ih stored lastLt (.inl rfl) (by omega)
    · rw [canonical] at stored
      exact ih lowLe (by omega) (.inr rfl) (by omega)

theorem scanStates_spec {last bottom top got : Nat} (canonical : db.CanonicalUpTo last)
    (within : top ≤ last) :
    ∃ res, db.scanStates stateNodes bottom top got = .ok res ∧
      (db.ValidIn stateNodes bottom top res ∧
          (∀ num, db.ValidIn stateNodes bottom top num → res ≤ num) ∨
        res = got ∧ ∀ num, ¬ db.ValidIn stateNodes bottom top num) := by
  induction top generalizing got with
  | zero => exact ⟨got, rfl, .inr ⟨rfl, fun num ⟨above, le, _⟩ => by omega⟩⟩
  | succ top ih =>
    rw [scanStates]
    by_cases below : top + 1 ≤ bottom
    · rw [if_pos below]
      exact ⟨got, rfl, .inr ⟨rfl, fun num ⟨above, le, _⟩ => by omega⟩⟩
    obtain ⟨block, stored⟩ := Option.isSome_iff_exists.mp ((canonical (top + 1)).mpr within)
    have validIff (num : Nat) : db.ValidIn stateNodes bottom (top + 1) num ↔
        db.ValidIn stateNodes bottom top num ∨ num = top + 1 ∧ 10000 < stateNodes block.root := by
      constructor
      · rintro ⟨above, le, other, otherStored, valid⟩
        rcases Nat.lt_or_eq_of_le le with lt | rfl
        · exact .inl ⟨above, Nat.le_of_lt_succ lt, other, otherStored, valid⟩
        · cases stored.symm.trans otherStored
          exact .inr ⟨rfl, valid⟩
      · rintro (⟨above, le, valid⟩ | ⟨rfl, valid⟩)
        · exact ⟨above, Nat.le_succ_of_le le, valid⟩
        · exact ⟨Nat.lt_of_not_le below, Nat.le_refl _, block, stored, valid⟩
    rw [if_neg below, stored]
    obtain ⟨res, scanned, outcome⟩ := @ih
      (if 10000 < stateNodes block.root then top + 1 else got) (le_of_succ_le within)
    refine ⟨res, scanned, ?_⟩
    simp only [validIff]
    rcases outcome with ⟨valid, least⟩ | ⟨resultEq, none⟩
    · refine .inl ⟨.inl valid, fun num => ?_⟩
      rintro (prior | ⟨rfl, -⟩)
      · exact least num prior
      · exact Nat.le_succ_of_le valid.2.1
    · split_ifs at resultEq with valid
      · refine .inl ⟨.inr ⟨resultEq, valid⟩, fun num => ?_⟩
        rintro (prior | ⟨rfl, -⟩)
        · exact absurd prior (none num)
        · exact Nat.le_of_eq resultEq
      · exact .inr ⟨resultEq, fun num => by simp [none, valid]⟩

/-- The scan returns the last valid block behind the head if and only if there is at most one, and
none on a chain of less than 10000 blocks. -/
theorem recovery_scan_iff {last : Nat} (canonical : db.CanonicalUpTo last)
    (short : last < 1000000000000) :
    ∃ res, db.binaryScanForValidBlock stateNodes = .ok res ∧
      (db.IsLatest stateNodes (last - 10000) last res ↔
        (∀ num other, db.ValidIn stateNodes (last - 10000) last num →
          db.ValidIn stateNodes (last - 10000) last other → num = other) ∧
        (last < 10000 → ∀ num, ¬ db.ValidIn stateNodes (last - 10000) last num)) := by
  have searched : db.searchBlock loopFuel 0 1000000000000 0 0 = .ok last :=
    searchBlock_eq canonical (zero_le _) short (.inl rfl) (.inl (by decide))
  rw [binaryScanForValidBlock, searched]
  dsimp only
  by_cases small : last < 10000
  · have scanned : (if last = 0 then .ok 0
        else db.scanStates stateNodes (sub64 last 10000) last 0) = .ok 0 := by
      cases last with
      | zero => rfl
      | succ top =>
        -- the lower end of the range wraps
        rw [if_neg (succ_ne_zero top), sub64_of_lt small (by decide), scanStates, if_pos]
        unfold uint64Size
        omega
    refine ⟨0, scanned, fun latest => ?_, fun only => ⟨.inr rfl, fun num valid => ?_⟩⟩
    · have none (num : Nat) : ¬ db.ValidIn stateNodes (last - 10000) last num := by
        intro valid
        have := latest.2 num valid
        have := valid.1
        omega
      exact ⟨fun num _ valid => (none num valid).elim, fun _ => none⟩
    · exact absurd valid (only.2 small num)
  · rw [if_neg (by omega), sub64_of_le (Nat.le_of_not_lt small) (by unfold uint64Size; omega)]
    obtain ⟨res, scanned, outcome⟩ := @scanStates_spec db stateNodes last (last - 10000) last 0
      canonical (Nat.le_refl _)
    refine ⟨res, scanned, ?_⟩
    rcases outcome with ⟨valid, least⟩ | ⟨resultEq, none⟩
    · constructor
      · intro latest
        have atResult (num : Nat) (isValid : db.ValidIn stateNodes (last - 10000) last num) :
            num = res :=
          Nat.le_antisymm (latest.2 num isValid) (least num isValid)
        exact ⟨fun num other first second => (atResult num first).trans
          (atResult other second).symm, fun short => absurd short small⟩
      · intro only
        exact ⟨.inl valid, fun num isValid => Nat.le_of_eq (only.1 num res isValid valid)⟩
    · simp [IsLatest, none, resultEq]

/-- Blocks whose state roots are their numbers. -/
private def blocksUpTo (last : Nat) : ChainDb :=
  { ChainDb.empty with
    canonicalHash := fun num => if num ≤ last then some 1 else none
    headers := fun key =>
      if key.1 ≤ last ∧ key.2 = 1 then
        some { hash := 1, parentHash := 0, number := key.1, root := BitVec.ofNat 256 key.1 }
      else none
    bodies := fun _ => some []
    headers_key := fun got => by
      split_ifs at got with stored
      cases got
      exact ⟨rfl, stored.2.symm⟩ }

/-- Both blocks have a state, but none is found. -/
theorem short_chain_not_scanned :
    ∃ res, (blocksUpTo 1).binaryScanForValidBlock (fun _ => 20000) = .ok res ∧ res = 0 ∧
      ((blocksUpTo 1).getBlockByNumber 1).isSome := by
  decide +kernel

private theorem validIn_blocksUpTo {last num : Nat} :
    (blocksUpTo last).ValidIn stateNodes (last - 10000) last num ↔
      last - 10000 < num ∧ num ≤ last ∧ 10000 < stateNodes (BitVec.ofNat 256 num) := by
  refine and_congr_right fun _ => and_congr_right fun within => ?_
  simp [getBlockByNumber, getCanonicalHash, getBlock, getHeader, getBody, blocksUpTo, within,
    emptyHash]

/-- Only block 10005 of 10010 has a state, and it is found. -/
theorem recovery_scan_long_chain :
    (blocksUpTo 10010).binaryScanForValidBlock (fun root => if root = 10005 then 20000 else 0) =
      .ok 10005 := by
  have valid (num : Nat) : (blocksUpTo 10010).ValidIn
      (fun root => if root = 10005 then 20000 else 0) (10010 - 10000) 10010 num ↔ num = 10005 := by
    rw [validIn_blocksUpTo]
    constructor
    · rintro ⟨-, within, got⟩
      split_ifs at got with same
      · have numbers := congrArg BitVec.toNat same
        rw [BitVec.toNat_ofNat, Nat.mod_eq_of_lt (by omega)] at numbers
        exact numbers
      · omega
    · rintro rfl
      decide
  obtain ⟨res, scanned, latest⟩ := @recovery_scan_iff (blocksUpTo 10010)
    (fun root => if root = 10005 then 20000 else 0) 10010 (fun num => by
      by_cases within : num ≤ 10010 <;>
        simp [getBlockByNumber, getCanonicalHash, getBlock, getHeader, getBody, blocksUpTo, within,
          emptyHash]) (by decide)
  obtain ⟨isValid, above⟩ := latest.mpr
    ⟨fun num other first second => ((valid num).mp first).trans ((valid other).mp second).symm,
      fun short => absurd short (by decide)⟩
  have least := above 10005 ((valid 10005).mpr rfl)
  have nonzero : res ≠ 0 := by omega
  rw [scanned, (valid res).mp (isValid.resolve_right nonzero)]

end ChainDb

end MoacVnode.Core
