import Mathlib.Data.Nat.Size
import MoacVnode.Accounts.Abi.Layout

/-!
# Precompiled contracts

The gas price of `spendGas`, which rises with the congestion that the caller reports, and the
modular exponentiation with its price.
-/

namespace MoacVnode.Core.Contracts

open MoacVnode.Core Accounts.Abi List Nat
open BitVec (ofNat toNat_ofNat slt)

/-- The prices of `spendGas.RequiredGas`, each with the number above which it is added. -/
def congestionPrices : List (Nat × Nat) :=
  [(2000, 10), (4000, 15), (8000, 20), (16000, 25), (32000, 30), (64000, 35), (128000, 40),
    (256000, 45)]

def spendGas.addPrice (num gas : BitVec 64) (price : Nat × Nat) : BitVec 64 :=
  if (ofNat 64 price.2).slt num then gas + ofNat 64 price.1 * (num - ofNat 64 price.2)
  else gas

/-- The numbers are of type `int64`; `bnum.Int64()` keeps the low bits. -/
def spendGas.requiredGas (input : List UInt8) : BitVec 64 :=
  if input.length ≠ 36 then 8000000
  else
    congestionPrices.foldl (spendGas.addPrice (ofNat 64 (beNat (input.drop 4)))) (ofNat 64 1000)

/-- The price without overflow. -/
def congestionPrice (prices : List (Nat × Nat)) (start num : Nat) : Nat :=
  prices.foldl (fun gas price => gas + price.1 * (num - price.2)) start

def maxCongestion : Nat := 36170086419078

theorem congestionPrice_mono {prices : List (Nat × Nat)} {start start' num num' : Nat}
    (starts : start ≤ start') (nums : num ≤ num') :
    congestionPrice prices start num ≤ congestionPrice prices start' num' := by
  induction prices generalizing start start' with
  | nil => exact starts
  | cons price prices ih =>
    exact ih (Nat.add_le_add starts (Nat.mul_le_mul_left _ (Nat.sub_le_sub_right nums _)))

theorem addPrice_ofNat {num gas : Nat} {price : Nat × Nat} (small : num < 2 ^ 63)
    (level : price.2 < 2 ^ 63) :
    spendGas.addPrice (ofNat 64 num) (ofNat 64 gas) price =
      ofNat 64 (gas + price.1 * (num - price.2)) := by
  have signed (n : Nat) (inRange : n < 2 ^ 63) : (ofNat 64 n).toInt = n := by
    rw [BitVec.toInt_eq_toNat_of_lt, toNat_ofNat, mod_eq_of_lt (by omega)]
    rw [toNat_ofNat]
    omega
  rw [spendGas.addPrice, slt, signed _ small, signed _ level]
  by_cases above : price.2 < num
  · rw [if_pos (by simpa using above), BitVec.ofNat_sub_ofNat_of_le _ _ (by omega) above.le,
      ← BitVec.ofNat_mul, ← BitVec.ofNat_add]
  · rw [if_neg (by simpa using above), Nat.sub_eq_zero_of_le (Nat.le_of_not_lt above)]
    rfl

theorem foldl_addPrice {prices : List (Nat × Nat)} {num : Nat} (start : Nat)
    (small : num < 2 ^ 63) (levels : ∀ price ∈ prices, price.2 < 2 ^ 63) :
    prices.foldl (spendGas.addPrice (ofNat 64 num)) (ofNat 64 start) =
      ofNat 64 (congestionPrice prices start num) := by
  induction prices generalizing start with
  | nil => rfl
  | cons price prices ih =>
    rw [forall_mem_cons] at levels
    rw [foldl_cons, addPrice_ofNat small levels.1, ih _ levels.2]
    rfl

theorem requiredGas_eq {input : List UInt8} (isCall : input.length = 36)
    (small : beNat (input.drop 4) ≤ maxCongestion + 1) :
    spendGas.requiredGas input =
      ofNat 64 (congestionPrice congestionPrices 1000 (beNat (input.drop 4))) := by
  have inRange : beNat (input.drop 4) < 2 ^ 63 := small.trans_lt (by decide)
  rw [spendGas.requiredGas, if_neg (not_not.mpr isCall), foldl_addPrice 1000 inRange (by decide)]

theorem exists_call (num : Nat) (small : num < 256 ^ 32) :
    ∃ input : List UInt8, input.length = 36 ∧ beNat (input.drop 4) = num := by
  refine ⟨List.replicate 4 0 ++ bigEndian 32 num, by simp, ?_⟩
  rw [drop_left' length_replicate, beNat_bigEndian, mod_eq_of_lt small]

/-- The price rises with the argument exactly up to the last one whose price is below
`2 ^ 64`. -/
theorem requiredGas_monotone_iff (bound : Nat) :
    (∀ input other : List UInt8, input.length = 36 → other.length = 36 →
        beNat (input.drop 4) ≤ beNat (other.drop 4) → beNat (other.drop 4) ≤ bound →
        1000 ≤ (spendGas.requiredGas input).toNat ∧
          (spendGas.requiredGas input).toNat ≤ (spendGas.requiredGas other).toNat) ↔
      bound ≤ maxCongestion := by
  constructor
  · intro rising
    by_contra! beyond
    obtain ⟨input, isInput, isNum⟩ := exists_call maxCongestion (by decide)
    obtain ⟨other, isOther, isNext⟩ := exists_call (maxCongestion + 1) (by decide)
    have cheaper := (rising input other isInput isOther (by omega) (by omega)).2
    rw [requiredGas_eq isInput (by omega), requiredGas_eq isOther (by omega), isNum,
      isNext] at cheaper
    revert cheaper
    decide
  · intro within input other isInput isOther ordered inRange
    have price (call : List UInt8) (isCall : call.length = 36)
        (small : beNat (call.drop 4) ≤ maxCongestion) :
        (spendGas.requiredGas call).toNat =
          congestionPrice congestionPrices 1000 (beNat (call.drop 4)) := by
      rw [requiredGas_eq isCall (by omega), toNat_ofNat, mod_eq_of_lt]
      have last : congestionPrice congestionPrices 1000 maxCongestion < 2 ^ 64 := by decide
      exact (congestionPrice_mono le_rfl small).trans_lt last
    rw [price input isInput (by omega), price other isOther (by omega)]
    have least : 1000 = congestionPrice congestionPrices 1000 0 := by decide
    refine ⟨?_, congestionPrice_mono le_rfl ordered⟩
    exact least.trans_le (congestionPrice_mono le_rfl (zero_le _))

/-- An argument of `2 ^ 64` costs less than one of 11. -/
theorem huge_argument_cheaper :
    spendGas.requiredGas (List.replicate 4 0 ++ bigEndian 32 11) = 3000 ∧
      spendGas.requiredGas (List.replicate 4 0 ++ bigEndian 32 (2 ^ 64)) = 1000 := by
  decide +kernel

/-- `vm.GetData`: the bytes from `start` on, padded with zeros on the right. -/
def getData (data : List UInt8) (start size : Nat) : List UInt8 :=
  (data.drop start ++ List.replicate size 0).take size

def setBytes (data : List UInt8) (start size : Nat) : Nat := beNat (getData data start size)

namespace BigModExp

variable (input : List UInt8)

def baseLen : Nat := setBytes input 0 32

def expLen : Nat := setBytes input 32 32

def modLen : Nat := setBytes input 64 32

def expHead : Nat :=
  if (input.drop 96).length ≤ baseLen input then 0
  else if expLen input > 32 then setBytes (input.drop 96) (baseLen input % 2 ^ 64) 32
  else setBytes (input.drop 96) (baseLen input % 2 ^ 64) (expLen input % 2 ^ 64)

def adjExpLen : Nat :=
  (if expLen input > 32 then 8 * (expLen input - 32) else 0) + ((expHead input).size - 1)

def complexity (gas : Nat) : Nat :=
  if gas ≤ 64 then gas * gas
  else if gas ≤ 1024 then gas * gas / 4 + (96 * gas - 3072)
  else gas * gas / 16 + (480 * gas - 199680)

/-- The divisor is `params.ModExpQuadCoeffDiv`. -/
def requiredGas (quadCoeffDiv : Nat) : Nat :=
  let gas :=
    complexity (max (modLen input) (baseLen input)) * max (adjExpLen input) 1 / quadCoeffDiv
  if gas.size > 64 then 2 ^ 64 - 1 else gas

/-- `Bytes` of a big integer: no leading zeros. -/
def toBytes (val : Nat) : List UInt8 := bigEndian ((val.size + 7) / 8) val

def run : List UInt8 :=
  let baseLen := baseLen input % 2 ^ 64
  let expLen := expLen input % 2 ^ 64
  let modLen := modLen input % 2 ^ 64
  if baseLen = 0 ∧ modLen = 0 then []
  else
    let base := setBytes (input.drop 96) 0 baseLen
    let exp := setBytes (input.drop 96) baseLen expLen
    let mod := setBytes (input.drop 96) ((baseLen + expLen) % 2 ^ 64) modLen
    if mod = 0 then leftPadBytes [] (wrap modLen)
    else leftPadBytes (toBytes (base ^ exp % mod)) (wrap modLen)

/-- The result for the operands that the whole length fields denote. -/
def power : List UInt8 :=
  let base := setBytes (input.drop 96) 0 (baseLen input)
  let exp := setBytes (input.drop 96) (baseLen input) (expLen input)
  let mod := setBytes (input.drop 96) (baseLen input + expLen input) (modLen input)
  bigEndian (modLen input) (if mod = 0 then 0 else base ^ exp % mod)

theorem leftPadBytes_toBytes {val width : Nat} (small : val < 256 ^ width) :
    leftPadBytes (toBytes val) width = bigEndian width val := by
  rw [pow_bytes, ← size_le] at small
  have enough : val < 256 ^ ((val.size + 7) / 8) := by
    rw [pow_bytes, ← size_le]
    omega
  have length : (leftPadBytes (toBytes val) width).length = width := by
    simp only [leftPadBytes, toBytes, length_append, length_replicate, length_bigEndian]
    omega
  have denotes : beNat (leftPadBytes (toBytes val) width) = val := by
    rw [leftPadBytes, beNat_append, beNat_zeros, toBytes, beNat_bigEndian, mod_eq_of_lt enough,
      zero_mul, zero_add]
  rw [← bigEndian_beNat (leftPadBytes (toBytes val) width), length, denotes]

theorem setBytes_lt (data : List UInt8) (start size : Nat) :
    setBytes data start size < 256 ^ size := by
  have length : (getData data start size).length = size := by simp [getData]
  simpa [setBytes, length] using beNat_lt (getData data start size)

theorem square_le_complexity (gas : Nat) : gas * gas / 16 ≤ complexity gas := by
  unfold complexity
  split_ifs <;> omega

theorem complexity_pos {gas : Nat} (positive : 0 < gas) : 0 < complexity gas := by
  unfold complexity
  split_ifs
  · exact mul_pos positive positive
  · omega
  · omega

/-- Priced below `2 ^ 61`, the lengths are small, or there is nothing to compute. -/
theorem lengths_lt {quadCoeffDiv : Nat} (positive : 0 < quadCoeffDiv) (small : quadCoeffDiv < 64)
    (cheap : requiredGas input quadCoeffDiv < 2 ^ 61) :
    (modLen input = 0 ∧ baseLen input = 0) ∨
      modLen input < 2 ^ 40 ∧ baseLen input < 2 ^ 40 ∧ expLen input < 2 ^ 64 - 2 ^ 40 := by
  by_cases empty : max (modLen input) (baseLen input) = 0
  · left
    omega
  · right
    have product : complexity (max (modLen input) (baseLen input)) * max (adjExpLen input) 1 <
          2 ^ 61 * quadCoeffDiv := by
      rw [← div_lt_iff_lt_mul positive]
      simp only [requiredGas] at cheap
      split at cheap
      · omega
      · exact cheap
    have priced := complexity_pos (Nat.pos_of_ne_zero empty)
    have square := square_le_complexity (max (modLen input) (baseLen input))
    have lengths : complexity (max (modLen input) (baseLen input)) < 2 ^ 61 * quadCoeffDiv :=
      (Nat.le_mul_of_pos_right _ (by omega)).trans_lt product
    have exponent : max (adjExpLen input) 1 < 2 ^ 61 * quadCoeffDiv :=
      (Nat.le_mul_of_pos_left _ priced).trans_lt product
    have longest : max (modLen input) (baseLen input) < 2 ^ 40 := by
      by_contra! long
      have := Nat.mul_le_mul long long
      omega
    simp only [adjExpLen] at exponent
    split at exponent
    · omega
    · omega

/-- A modular exponentiation that costs less than `2 ^ 61` gas is exact, for any divisor of the
price that is below 64. -/
theorem run_eq_power {quadCoeffDiv : Nat} (positive : 0 < quadCoeffDiv)
    (smallDivisor : quadCoeffDiv < 64) (cheap : requiredGas input quadCoeffDiv < 2 ^ 61) :
    run input = power input := by
  obtain ⟨noMod, noBase⟩ | ⟨modSmall, baseSmall, expSmall⟩ :=
    lengths_lt input positive smallDivisor cheap
  · simp [run, power, noMod, noBase, bigEndian]
  · have whole : wrap (modLen input) = modLen input := by
      unfold wrap
      omega
    simp only [run, power, mod_eq_of_lt (show baseLen input < 2 ^ 64 by omega),
      mod_eq_of_lt (show expLen input < 2 ^ 64 by omega),
      mod_eq_of_lt (show modLen input < 2 ^ 64 by omega),
      mod_eq_of_lt (show baseLen input + expLen input < 2 ^ 64 by omega), whole]
    split_ifs with empty noMod noMod
    · simp [empty.2, bigEndian]
    · simp [empty.2, bigEndian]
    · exact @leftPadBytes_toBytes 0 _ (Nat.pow_pos (by decide))
    · have inside := setBytes_lt (input.drop 96) (baseLen input + expLen input) (modLen input)
      exact leftPadBytes_toBytes ((Nat.mod_lt _ (Nat.pos_of_ne_zero noMod)).trans inside)

/-- The square of 3 modulo 5, priced with the divisor 20. -/
theorem run_square :
    let input := u256 1 ++ u256 1 ++ u256 1 ++ [3, 2, 5]
    run input = [4] ∧ run input = power input :=
  ⟨by decide +kernel, @run_eq_power _ 20 (by decide) (by decide) (by decide +kernel)⟩

end BigModExp

end MoacVnode.Core.Contracts
