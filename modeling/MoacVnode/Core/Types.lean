import MoacVnode.Lib.HashTree

/-!
# Transactions, headers and blocks

The chain types as the core package sees them.  What the type library computes
from a value (its hash, the recovered sender, its cost and size) is carried as
a field next to the data it is computed from.
-/

namespace MoacVnode.Core

open Lib

variable {left right : Nat}

abbrev Hash := BitVec 256

/-- `common.Hash{}`, which the readers return for a missing hash. -/
def emptyHash : Hash := 0

abbrev Address := BitVec 160

instance lawfulBEqHash : LawfulBEq Hash := inferInstance

instance lawfulBEqAddress : LawfulBEq Address := inferInstance

/-- The number of values of a `uint64`. -/
def uint64Size : Nat := 2 ^ 64

theorem uint64Size_pos : 0 < uint64Size := by decide

/-- A transaction together with the values its accessors return. -/
structure Transaction where
  hash : Hash
  /-- `types.Sender(signer, tx)`, `none` if the signature is invalid. -/
  sender : Option Address := none
  nonce : Nat := 0
  nonce_lt : nonce < uint64Size := by decide
  gasPrice : Int := 0
  gasLimit : Int := 0
  value : Int := 0
  cost : Int := 0
  toAddress : Option Address := none
  data : List UInt8 := []
  size : Nat := 0
  chainId : Int := 0
  isClassic : Bool := false
  shardingFlag : Nat := 0
  systemFlag : Nat := 0
  via : Option Address := none
  deriving DecidableEq, Repr

/-- A block header; `number` is `header.Number.Uint64()`. -/
structure Header where
  hash : Hash
  parentHash : Hash
  uncleHash : Hash := 0
  coinbase : Address := 0
  root : Hash := 0
  txHash : Hash := 0
  receiptHash : Hash := 0
  bloom : List UInt8 := []
  difficulty : Nat := 0
  number : Nat := 0
  gasLimit : Int := 0
  gasUsed : Int := 0
  time : Nat := 0
  extra : List UInt8 := []
  mixDigest : Hash := 0
  nonce : BitVec 64 := 0
  deriving DecidableEq, Repr

structure Block where
  header : Header
  transactions : List Transaction := []
  deriving DecidableEq, Repr

namespace Block

abbrev hash (block : Block) : Hash := block.header.hash

abbrev parentHash (block : Block) : Hash := block.header.parentHash

abbrev number (block : Block) : Nat := block.header.number

abbrev root (block : Block) : Hash := block.header.root

abbrev difficulty (block : Block) : Nat := block.header.difficulty

end Block

@[simps]
def headerLinks : Links Header Hash where
  hash := Header.hash
  parentHash := Header.parentHash
  number := Header.number

@[simps]
def blockLinks : Links Block Hash where
  hash := Block.hash
  parentHash := Block.parentHash
  number := Block.number

def next64 (number : Nat) : Nat := (number + 1) % uint64Size

/-- `n - 1` on `uint64`: below zero it wraps to the largest value. -/
def prev64 (number : Nat) : Nat := (number + (uint64Size - 1)) % uint64Size

def sub64 (left right : Nat) : Nat := (left + (uint64Size - right % uint64Size)) % uint64Size

theorem next64_of_lt {number : Nat} (bound : number + 1 < uint64Size) :
    next64 number = number + 1 :=
  Nat.mod_eq_of_lt bound

theorem prev64_succ {number : Nat} (bound : number + 1 < uint64Size) :
    prev64 (number + 1) = number := by
  unfold prev64 uint64Size at *
  omega

theorem sub64_of_le (le : right ≤ left) (bound : left < uint64Size) :
    sub64 left right = left - right := by
  unfold sub64 uint64Size at *
  omega

theorem sub64_of_lt (lt : left < right) (bound : right < uint64Size) :
    sub64 left right = uint64Size - (right - left) := by
  unfold sub64 uint64Size at *
  omega

/-- How a call that does not return ends. -/
inductive Crash where
  | nilDereference
  | endlessLoop
  | divideByZero
  | indexOutOfRange
  deriving DecidableEq, Repr

end MoacVnode.Core
