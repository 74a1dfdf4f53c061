import MoacVnode.Consensus.Ethash.Uncles

/-!
# The difficulty and the gas limit of a header

`verifyHeader` truncates the time of a header to 64 bits before it computes the difficulty, which an
uncle can use.
-/

namespace MoacVnode.Consensus.Ethash.Engine

open MoacVnode.Core Lib Nat

variable {engine : Engine} {header parent : Header} {kind : HeaderKind} {withSeal : Bool}

variable (engine)

def topFactor (parent : Header) : Int :=
  if parent.uncleHash = engine.emptyUncleHash then 1 else 2

def factorAt (time : Nat) (parent : Header) : Int :=
  max (engine.topFactor parent - ((time : Int) - parent.time) / 9) (-99)

/-- The difficulty before its minimum and the bomb. -/
def adjusted (time : Nat) (parent : Header) : Int :=
  parent.difficulty + parent.difficulty / engine.difficultyBoundDivisor * engine.factorAt time
    parent

theorem exists_bomb (parent : Header) : ∃ bomb : Nat, ∀ time,
    engine.calcDifficulty time parent =
      max (engine.adjusted time parent) engine.minimumDifficulty + bomb := by
  unfold calcDifficulty
  dsimp only
  generalize (if 2999999 ≤ parent.number ∧ parent.number < engine.diffBombDefuseBlock then
    parent.number - 2999999 else 0) / 100000 = periodCount
  by_cases bombed : 1 < periodCount
  · refine ⟨2 ^ (periodCount - 2), fun time => ?_⟩
    rw [if_pos bombed, Int.natCast_pow]
    rfl
  · refine ⟨0, fun time => ?_⟩
    rw [if_neg bombed]
    exact (Int.add_zero _).symm

variable {engine}

theorem factorAt_le {prior later : Nat} (order : prior ≤ later) :
    engine.factorAt later parent ≤ engine.factorAt prior parent := by
  unfold factorAt
  omega

theorem step_nonneg (divisor : 0 < engine.difficultyBoundDivisor) (parent : Header) :
    0 ≤ parent.difficulty / engine.difficultyBoundDivisor :=
  Int.ediv_nonneg (by omega) divisor.le

/-- The time fits into 64 bits, or the difficulty does not depend on what is cut off: the parent's
is below one step, both factors are at their lower bound, or the difficulty is the minimum. -/
def TruncationHarmless (engine : Engine) (header parent : Header) : Prop :=
  header.time < uint64Size ∨ (parent.difficulty : Int) < engine.difficultyBoundDivisor ∨
    parent.time + 9 * (engine.topFactor parent + 99) ≤ header.time % uint64Size ∨
    engine.adjusted (header.time % uint64Size) parent ≤ engine.minimumDifficulty

/-- The required difficulty does not grow between the two times once they are cut to 64 bits: the
order of the times survives, or the difficulty is the same at both. -/
def OrderHarmless (engine : Engine) (parent : Header) (prior later : Nat) : Prop :=
  prior % uint64Size ≤ later % uint64Size ∨
    (parent.difficulty : Int) < engine.difficultyBoundDivisor ∨
    engine.factorAt (later % uint64Size) parent = engine.factorAt (prior % uint64Size) parent ∨
    engine.adjusted (later % uint64Size) parent ≤ engine.minimumDifficulty

theorem calcDifficulty_le_iff (divisor : 0 < engine.difficultyBoundDivisor) {first second : Nat} :
    engine.calcDifficulty first parent ≤ engine.calcDifficulty second parent ↔
      second ≤ first ∨ (parent.difficulty : Int) < engine.difficultyBoundDivisor ∨
        engine.factorAt first parent = engine.factorAt second parent ∨
        engine.adjusted first parent ≤ engine.minimumDifficulty := by
  obtain ⟨bomb, difficultyEq⟩ := engine.exists_bomb parent
  have stepIff : parent.difficulty / engine.difficultyBoundDivisor = 0 ↔
      (parent.difficulty : Int) < engine.difficultyBoundDivisor := by
    constructor
    · intro noStep
      simpa [noStep] using Int.lt_ediv_add_one_mul_self (parent.difficulty : Int) divisor
    · exact Int.ediv_eq_zero_of_lt (by omega)
  have nonneg := step_nonneg divisor parent
  rw [difficultyEq, difficultyEq, ← stepIff]
  constructor
  · intro less
    by_contra none
    simp only [not_or] at none
    obtain ⟨before, stepNe, factorNe, above⟩ := none
    have factorLt : engine.factorAt second parent < engine.factorAt first parent :=
      lt_of_le_of_ne (factorAt_le (Nat.le_of_not_le before)) (Ne.symm factorNe)
    have scaled := Int.mul_lt_mul_of_pos_left factorLt (lt_of_le_of_ne nonneg (Ne.symm stepNe))
    unfold adjusted at less above
    omega
  · rintro (order | noStep | sameFactor | minimal)
    · have scaled := Int.mul_le_mul_of_nonneg_left (@factorAt_le engine parent _ _ order) nonneg
      unfold adjusted
      omega
    · simp only [adjusted, noStep, Int.zero_mul]
      exact le_refl _
    · rw [adjusted, adjusted, sameFactor]
    · omega

theorem calcDifficulty_mod_iff (divisor : 0 < engine.difficultyBoundDivisor) :
    engine.calcDifficulty (header.time % uint64Size) parent =
      engine.calcDifficulty header.time parent ↔ engine.TruncationHarmless header parent := by
  have reduced : header.time % uint64Size ≤ header.time := header.time.mod_le uint64Size
  have later : engine.calcDifficulty header.time parent ≤
      engine.calcDifficulty (header.time % uint64Size) parent :=
    (calcDifficulty_le_iff divisor).mpr (.inl reduced)
  have bound := header.time.mod_lt uint64Size_pos
  unfold TruncationHarmless
  rw [eq_comm, eq_iff_le_not_lt, not_lt, and_iff_right later, calcDifficulty_le_iff divisor]
  by_cases fits : header.time < uint64Size
  · rw [mod_eq_of_lt fits]
    simp [fits]
  have cut : header.time % uint64Size + uint64Size ≤ header.time := by
    have := Nat.div_add_mod header.time uint64Size
    have := Nat.div_pos (Nat.le_of_not_lt fits) uint64Size_pos
    have := Nat.mul_le_mul_left uint64Size this
    omega
  have gap : 2 ^ 20 ≤ uint64Size := by decide
  have factorIff : engine.factorAt (header.time % uint64Size) parent =
      engine.factorAt header.time parent ↔
        parent.time + 9 * (engine.topFactor parent + 99) ≤ header.time % uint64Size := by
    unfold factorAt
    omega
  rw [factorIff]
  exact or_congr_left ⟨fun le => by omega, fun small => absurd small fits⟩

/-- The difficulty of an accepted header is that of its time if and only if truncating the time is
harmless; it is never below the minimum; and of two times the later has the greater required
difficulty only where the truncation puts it before the earlier one. -/
theorem difficulty_rule_iff (divisor : 0 < engine.difficultyBoundDivisor)
    (accepted : engine.verifyHeader header parent kind withSeal = .ok ()) :
    (header.difficulty = engine.calcDifficulty header.time parent ↔
        engine.TruncationHarmless header parent) ∧
      engine.minimumDifficulty ≤ header.difficulty ∧
      ∀ prior later : Nat, prior ≤ later →
        (engine.calcDifficulty (later % uint64Size) parent ≤
            engine.calcDifficulty (prior % uint64Size) parent ↔
          engine.OrderHarmless parent prior later) := by
  have difficultyEq :
      header.difficulty = engine.calcDifficulty (header.time % uint64Size) parent := by
    unfold verifyHeader at accepted
    simp only [ite_error_eq_ok] at accepted
    exact (not_not.mp accepted.2.2.2.2.1).symm
  refine ⟨?_, ?_, fun prior later _ => calcDifficulty_le_iff divisor⟩
  · rw [difficultyEq]
    exact calcDifficulty_mod_iff divisor
  · obtain ⟨bomb, boundEq⟩ := engine.exists_bomb parent
    rw [difficultyEq, boundEq]
    omega

def panguEngine : Engine where
  maximumExtraDataSize := 32
  gasLimitBoundDivisor := 1024
  minGasLimit := 5000
  difficultyBoundDivisor := 2048
  minimumDifficulty := 131072
  diffBombDefuseBlock := 0
  emptyUncleHash := 0
  verifySeal _ := .ok ()

private def panguParent : Header where
  hash := 1
  parentHash := 0
  difficulty := 2 ^ 30
  gasLimit := 9000000
  gasUsed := 5000
  time := 1000

private def panguChild (time difficulty : Nat) : Header where
  hash := 2
  parentHash := 1
  difficulty := difficulty
  number := 1
  gasLimit := 9000000
  time := time

/-- The uncle says that it was made more than `2 ^ 64` seconds after its parent, and has the
difficulty of one made after a second. -/
theorem late_uncle_keeps_difficulty :
    panguEngine.verifyHeader (panguChild (2 ^ 64 + 1001) (2 ^ 30 + 2 ^ 19)) panguParent .uncle
        true = .ok () ∧
      panguEngine.calcDifficulty (2 ^ 64 + 1001) panguParent = 2 ^ 30 - 99 * 2 ^ 19 := by
  decide +kernel

theorem difficulty_rule_child :
    ((panguChild 1100 (2 ^ 30 - 10 * 2 ^ 19)).difficulty =
        panguEngine.calcDifficulty (panguChild 1100 (2 ^ 30 - 10 * 2 ^ 19)).time panguParent ↔
      panguEngine.TruncationHarmless (panguChild 1100 (2 ^ 30 - 10 * 2 ^ 19)) panguParent) ∧
      (131072 : Int) ≤ (panguChild 1100 (2 ^ 30 - 10 * 2 ^ 19)).difficulty :=
  have rule := @difficulty_rule_iff panguEngine (panguChild 1100 (2 ^ 30 - 10 * 2 ^ 19)) panguParent
    (.block 2000) true (by decide) (by decide +kernel)
  ⟨rule.1, rule.2.1⟩

/-- `CalcGasLimit` with the target of the node. -/
def calcGasLimit (engine : Engine) (targetGasLimit : Int) (parent : Header) : Int :=
  let contrib := parent.gasUsed * 3 / 2 / engine.gasLimitBoundDivisor
  let decay := parent.gasLimit / engine.gasLimitBoundDivisor - 1
  let gasLimit := max (parent.gasLimit - decay + contrib) engine.minGasLimit
  if gasLimit < targetGasLimit then min (parent.gasLimit + decay) targetGasLimit else gasLimit

/-- The miner's limit is within the bounds of the check, except that a parent with a limit below
5120 of which at least 4779 was used lets it grow by four, if the target allows. -/
theorem gasLimit_agrees_iff {target : Int} (divisor : engine.gasLimitBoundDivisor = 1024)
    (minimum : 5000 ≤ engine.minGasLimit) (used : 0 ≤ parent.gasUsed)
    (usedLe : parent.gasUsed ≤ parent.gasLimit) (atLeast : engine.minGasLimit ≤ parent.gasLimit) :
    ((engine.calcGasLimit target parent - parent.gasLimit).natAbs <
          parent.gasLimit / engine.gasLimitBoundDivisor ∧
        engine.minGasLimit ≤ engine.calcGasLimit target parent) ↔
      ¬ (parent.gasLimit < 5120 ∧ 4779 ≤ parent.gasUsed ∧ target ≤ parent.gasLimit + 4) := by
  unfold calcGasLimit
  rw [divisor]
  dsimp only
  split_ifs <;> omega

/-- All gas of the parent was used and the target is met: the miner adds four, and the check
allows three. -/
theorem full_parent_limit_rejected :
    panguEngine.calcGasLimit 5000 { panguParent with gasLimit := 5000 } = 5004 ∧
      panguEngine.verifyHeader { panguChild 1001 (2 ^ 30 + 2 ^ 19) with gasLimit := 5004 }
        { panguParent with gasLimit := 5000 } (.block 2000) true =
          .error (.invalidGasLimit 5004 5000 4) := by
  decide +kernel

theorem gasLimit_agrees_large :
    (panguEngine.calcGasLimit 10000000 panguParent - panguParent.gasLimit).natAbs <
        panguParent.gasLimit / panguEngine.gasLimitBoundDivisor ∧
      panguEngine.minGasLimit ≤ panguEngine.calcGasLimit 10000000 panguParent :=
  (gasLimit_agrees_iff rfl (by decide) (by decide) (by decide) (by decide)).mpr (by decide)

end MoacVnode.Consensus.Ethash.Engine
