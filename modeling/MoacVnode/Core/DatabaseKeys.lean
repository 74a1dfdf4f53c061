import MoacVnode.Core.Bytes

/-!
# Keys of the chain database

All records of the chain are kept in one key-value store.
-/

namespace MoacVnode.Core

def bytesOf (text : String) : List UInt8 := text.toList.map Char.toUInt8

def encodeBlockNumber (num : UInt64) : List UInt8 := bigEndian 8 num.toNat

@[simp]
theorem length_encodeBlockNumber (num : UInt64) : (encodeBlockNumber num).length = 8 :=
  length_bigEndian 8 _

/-- What the accessors of the chain read. -/
inductive ChainKey where
  | headHeader
  | headBlock
  | headFast
  | canonicalHash (num : UInt64)
  | header (num : UInt64) (hash : Hash)
  | td (num : UInt64) (hash : Hash)
  | blockNumber (hash : Hash)
  | body (num : UInt64) (hash : Hash)
  | receipts (num : UInt64) (hash : Hash)
  | lookupEntry (hash : Hash)
  | bloomBits (bit : UInt16) (sectionNumber : UInt64) (head : Hash)
  | blockchainVersion
  | chainConfig (hash : Hash)
  | preimage (hash : Hash)
  /-- A state node, or a transaction of the old format. -/
  | stateNode (hash : Hash)
  | oldTxMeta (hash : Hash)
  | oldReceipt (hash : Hash)
  deriving DecidableEq

def ChainKey.bytes : ChainKey → List UInt8
  | headHeader => bytesOf "LastHeader"
  | headBlock => bytesOf "LastBlock"
  | headFast => bytesOf "LastFast"
  | canonicalHash num => bytesOf "h" ++ encodeBlockNumber num ++ bytesOf "n"
  | header num hash => bytesOf "h" ++ encodeBlockNumber num ++ hashBytes hash
  | td num hash => bytesOf "h" ++ encodeBlockNumber num ++ hashBytes hash ++ bytesOf "t"
  | blockNumber hash => bytesOf "H" ++ hashBytes hash
  | body num hash => bytesOf "b" ++ encodeBlockNumber num ++ hashBytes hash
  | receipts num hash => bytesOf "r" ++ encodeBlockNumber num ++ hashBytes hash
  | lookupEntry hash => bytesOf "l" ++ hashBytes hash
  | bloomBits bit sectionNumber head =>
    bytesOf "B" ++ bigEndian 2 bit.toNat ++ encodeBlockNumber sectionNumber ++ hashBytes head
  | blockchainVersion => bytesOf "BlockchainVersion"
  | chainConfig hash => bytesOf "ethereum-config-" ++ hashBytes hash
  | preimage hash => bytesOf "secure-key-" ++ hashBytes hash
  | stateNode hash => hashBytes hash
  | oldTxMeta hash => hashBytes hash ++ [0x01]
  | oldReceipt hash => bytesOf "receipts-" ++ hashBytes hash

theorem ChainKey.bytes_ne_of_hex {key : ChainKey} {digits : List UInt8}
    (length : digits.length = 40) : key.bytes ≠ bytesOf "0x" ++ digits := by
  intro same
  have keyLength : key.bytes.length = 42 := by
    rw [same, List.length_append, length]
    rfl
  obtain ⟨num, hash, rfl⟩ : ∃ num hash, key = .td num hash := by
    cases key with
    | td num hash => exact ⟨num, hash, rfl⟩
    | _ => simp [ChainKey.bytes, bytesOf] at keyLength
  have sameFirst := congrArg List.head? same
  cases sameFirst

end MoacVnode.Core
