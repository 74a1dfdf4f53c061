import MoacVnode.Vnode.SyncStore

/-!
# The schema of the chain database

The records of the chain share one flat key space with the state nodes.
-/

namespace MoacVnode.Core

open Accounts.Abi List Vnode
open Function (Injective update update_of_ne)

/-- The keys of the present format. -/
def ChainKey.Current : ChainKey → Prop
  | oldTxMeta _ | oldReceipt _ => False
  | _ => True

/-- The calls of the accessors that write, with the values in their encoding. -/
inductive ChainWrite where
  | canonicalHash (hash : Hash) (num : UInt64)
  | headHeaderHash (hash : Hash)
  | headBlockHash (hash : Hash)
  | headFastBlockHash (hash : Hash)
  | header (hash : Hash) (num : UInt64) (data : List UInt8)
  | body (hash : Hash) (num : UInt64) (data : List UInt8)
  | td (hash : Hash) (num : UInt64) (data : List UInt8)
  | blockReceipts (hash : Hash) (num : UInt64) (data : List UInt8)
  | txLookupEntries (entries : List (Hash × List UInt8))
  | bloomBits (bit : UInt64) (sectionNumber : UInt64) (head : Hash) (bits : List UInt8)
  | preimages (entries : List (Hash × List UInt8))
  | chainConfig (hash : Hash) (config : List UInt8)

def ChainWrite.puts : ChainWrite → List (ChainKey × List UInt8)
  | canonicalHash hash num => [(.canonicalHash num, hashBytes hash)]
  | headHeaderHash hash => [(.headHeader, hashBytes hash)]
  | headBlockHash hash => [(.headBlock, hashBytes hash)]
  | headFastBlockHash hash => [(.headFast, hashBytes hash)]
  | header hash num data =>
    [(.blockNumber hash, encodeBlockNumber num), (.header num hash, data)]
  | body hash num data => [(.body num hash, data)]
  | td hash num data => [(.td num hash, data)]
  | blockReceipts hash num data => [(.receipts num hash, data)]
  | txLookupEntries entries => entries.map fun entry => (.lookupEntry entry.1, entry.2)
  | bloomBits bit sectionNumber head bits => [(.bloomBits bit.toUInt16 sectionNumber head, bits)]
  | preimages entries => entries.map fun entry => (.preimage entry.1, entry.2)
  | chainConfig hash config => [(.chainConfig hash, config)]

def putAll (db : SyncDb) (puts : List (ChainKey × List UInt8)) : SyncDb :=
  puts.foldl (fun db put => update db put.1.bytes (some put.2)) db

theorem bitBytes_injective : Injective fun bit : UInt16 => bigEndian 2 bit.toNat := by
  intro bit other same
  have numbers := congrArg beNat same
  rw [beNat_bigEndian, beNat_bigEndian] at numbers
  have bitLt := bit.toNat_lt
  have otherLt := other.toNat_lt
  exact UInt16.toNat_inj.mp (by omega)

/-- Keys of different kinds differ in length or in the first byte. -/
theorem ChainKey.bytes_inj {key other : ChainKey} (keyCurrent : key.Current)
    (otherCurrent : other.Current) (same : key.bytes = other.bytes) : key = other := by
  have lengths := congrArg List.length same
  have heads := congrArg List.head? same
  have numbers {num other : UInt64} := @encodeBlockNumber_injective.eq_iff _ _ _ num other
  have hashes {hash other : Hash} := @hashBytes_injective.eq_iff _ _ _ hash other
  have bits {bit other : UInt16} := @bitBytes_injective.eq_iff _ _ _ bit other
  cases key <;> cases other <;> simp [bytes, bytesOf, Current, numbers, hashes, bits,
    append_eq_append_iff_of_size_eq_left] at keyCurrent otherCurrent same lengths heads ⊢
  all_goals first | exact same | exact absurd heads (by decide)

theorem current_of_mem (write : ChainWrite) : ∀ put ∈ write.puts, put.1.Current := by
  cases write <;> simp only [ChainWrite.puts, forall_mem_map, forall_mem_cons] <;>
    simp [ChainKey.Current]

theorem putAll_eq {puts : List (ChainKey × List UInt8)} (current : ∀ put ∈ puts, put.1.Current)
    (db : SyncDb) {key : ChainKey} (keyCurrent : key.Current) :
    putAll db puts key.bytes = (puts.reverse.lookup key).or (db key.bytes) := by
  induction puts using List.reverseRecOn with
  | nil => rfl
  | append_singleton puts put ih =>
    obtain ⟨other, val⟩ := put
    rw [forall_mem_append, forall_mem_singleton] at current
    rw [putAll, foldl_append, reverse_append, reverse_singleton, singleton_append, lookup_cons]
    by_cases same : key = other
    · simp [same]
    · have differ : key.bytes ≠ other.bytes := fun bytes =>
        same (ChainKey.bytes_inj keyCurrent current.2 bytes)
      rw [foldl_cons, foldl_nil, update_of_ne differ, ← putAll, ih current.1, beq_false_of_ne same]

/-- No two records of the present format have the same key, and a writer changes exactly the records
it puts. -/
theorem chain_records_separate :
    (∀ key other : ChainKey, key.Current → other.Current → key.bytes = other.bytes → key = other) ∧
      (∀ bit other : UInt64, bit < 65536 → other < 65536 → bit.toUInt16 = other.toUInt16 →
        bit = other) ∧
      ∀ (write : ChainWrite) (db : SyncDb) (key : ChainKey), key.Current →
        putAll db write.puts key.bytes = (write.puts.reverse.lookup key).or (db key.bytes) := by
  refine ⟨fun _ _ keyCurrent otherCurrent same => ChainKey.bytes_inj keyCurrent otherCurrent same,
    fun bit other bitLt otherLt same => ?_,
    fun write db _ current => putAll_eq (current_of_mem write) db current⟩
  have numbers := congrArg UInt16.toNat same
  have bitNat := UInt64.lt_iff_toNat_lt.mp bitLt
  have otherNat := UInt64.lt_iff_toNat_lt.mp otherLt
  simp at numbers bitNat otherNat
  exact UInt64.toNat_inj.mp (by omega)

/-- The number of the bit is cut to 16 bits. -/
theorem bloom_bits_share_key :
    (0 : UInt64) ≠ 65536 ∧
      (ChainWrite.bloomBits 0 0 0 []).puts = (ChainWrite.bloomBits 65536 0 0 []).puts := by
  decide

end MoacVnode.Core
