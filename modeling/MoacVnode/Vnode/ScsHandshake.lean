import Mathlib.Data.List.AList
import MoacVnode.Core.DatabaseKeys
import MoacVnode.Lib.Run

/-!
# The handshake of an SCS

An SCS introduces itself to the node with an id of its choice.  If it is on the same chain,
the node stores what it knows of it in the chain database, under the id as the key, and only
then looks whether the id is acceptable.

The reply is returned; the connection, its tickers and its channels are left out.
-/

namespace MoacVnode.Vnode

open MoacVnode.Core

abbrev KeyValueDb := List UInt8 → Option (List UInt8)

/-- The fields of a `ScsPushMsg` that a handshake uses. -/
structure ScsPushMsg where
  scsid : List UInt8
  requestid : List UInt8 := []
  msghash : List UInt8 := []
  deriving DecidableEq

/-- `registerPayload`; the chain id is a pointer. -/
structure RegisterPayload where
  operation : List UInt8 := []
  publicKey : List UInt8 := []
  capability : UInt32 := 0
  chainId : Option Int := none
  deriving DecidableEq

/-- `types.ShakeInfo` without the stream of the connection. -/
structure ShakeInfo where
  pbhs : List UInt8
  scsid : List UInt8
  chainId : Int
  deriving DecidableEq

/-- The encodings and the hash that a handshake uses. -/
structure HandshakeLib where
  mainNetworkId : Int
  /-- `rlp.Decode` into an empty payload; its error is ignored. -/
  decodePayload : List UInt8 → RegisterPayload
  getPubkeyHash : List UInt8 → List UInt8
  /-- `rlp.EncodeToBytes`; its error is ignored. -/
  encodeShakeInfo : ShakeInfo → List UInt8

structure ScsServerConnection where
  liveFlag : Bool := true
  retryCount : Nat := 0
  deriving DecidableEq

structure VnodeServer where
  /-- The relay, the server and the database are set up. -/
  initialized : Bool := true
  chaindb : KeyValueDb
  /-- The chain id of the configuration of the chain. -/
  chainId : Int
  scsServerList : AList fun _ : List UInt8 => ScsServerConnection := ∅

/-- What the node replies. -/
inductive HandshakeReply where
  /-- `Not initialize`. -/
  | notInitialize
  /-- `shakereply: error: invalid scsId %v`. -/
  | invalidScsId (scsid : List UInt8)
  /-- `shakereply`. -/
  | shakeReply
  /-- `chainiderror`. -/
  | chainIdError
  deriving DecidableEq

section

variable (lib : HandshakeLib)

def decodeScsRegisterMsg (msg : ScsPushMsg) : RegisterPayload := lib.decodePayload msg.msghash

def shakeInfo (msg : ScsPushMsg) : ShakeInfo where
  pbhs := lib.getPubkeyHash (decodeScsRegisterMsg lib msg).publicKey
  scsid := msg.scsid
  chainId := lib.mainNetworkId

def writeScsShakeInfo (db : KeyValueDb) (scsid : List UInt8) (info : ShakeInfo) : KeyValueDb :=
  Function.update db scsid (some (lib.encodeShakeInfo info))

def updateScsServerList (server : VnodeServer) (info : ShakeInfo) : Option VnodeServer :=
  if info.scsid.length < 5 ∨
      info.scsid = bytesOf "0x0000000000000000000000000000000000000000" then
    none
  else some { server with scsServerList := server.scsServerList.insert info.scsid {} }

/-- The case of `ScsShakeHand` in `ScsPush`. -/
def shakeHand (server : VnodeServer) (msg : ScsPushMsg) :
    Except Crash (VnodeServer × HandshakeReply) :=
  if ¬ server.initialized then .ok (server, .notInitialize)
  else
    match (decodeScsRegisterMsg lib msg).chainId with
    | none => .error .nilDereference
    | some chainId =>
      if chainId = server.chainId then
        let info := shakeInfo lib msg
        let written :=
          { server with chaindb := writeScsShakeInfo lib server.chaindb msg.scsid info }
        match updateScsServerList written info with
        | none => .ok (written, .invalidScsId info.scsid)
        | some updated => .ok (updated, .shakeReply)
      else .ok (server, .chainIdError)

end

/-- A handshake on the same chain leaves the records of the chain alone exactly if its id is
none of their keys, or if it is one under which this very value is stored. -/
theorem handshake_keeps_chain_data_iff (lib : HandshakeLib) (server : VnodeServer)
    (msg : ScsPushMsg) (initialized : server.initialized = true)
    (matching : (decodeScsRegisterMsg lib msg).chainId = some server.chainId) :
    ∃ after reply, shakeHand lib server msg = .ok (after, reply) ∧
      ((∀ key : ChainKey, after.chaindb key.bytes = server.chaindb key.bytes) ↔
        (∀ key : ChainKey, key.bytes ≠ msg.scsid) ∨
          server.chaindb msg.scsid = some (lib.encodeShakeInfo (shakeInfo lib msg))) := by
  obtain ⟨after, reply, handled, written⟩ :
      ∃ after reply, shakeHand lib server msg = .ok (after, reply) ∧
      after.chaindb = writeScsShakeInfo lib server.chaindb msg.scsid (shakeInfo lib msg) := by
    unfold shakeHand
    simp only [initialized, matching, if_true]
    by_cases invalid : (shakeInfo lib msg).scsid.length < 5 ∨
        (shakeInfo lib msg).scsid = bytesOf "0x0000000000000000000000000000000000000000"
    · simp only [updateScsServerList, invalid]
      exact ⟨_, _, rfl, rfl⟩
    · simp only [updateScsServerList, invalid]
      exact ⟨_, _, rfl, rfl⟩
  refine ⟨after, reply, handled, ?_⟩
  rw [written]
  unfold writeScsShakeInfo
  constructor
  · intro kept
    by_cases isKey : ∃ key : ChainKey, key.bytes = msg.scsid
    · obtain ⟨key, same⟩ := isKey
      have keptHere := kept key
      rw [same, Function.update_self] at keptHere
      exact .inr keptHere.symm
    · exact .inl fun key same => isKey ⟨key, same⟩
  · rintro (noKey | sameValue) key
    · exact Function.update_of_ne (noKey key) _ _
    · rw [← sameValue, Function.update_eq_self]

private def emptyLib : HandshakeLib where
  mainNetworkId := 99
  decodePayload _ := { chainId := some 99 }
  getPubkeyHash _ := []
  encodeShakeInfo _ := []

private def serverWithHead : VnodeServer where
  chaindb := Function.update (fun _ => none) ChainKey.headBlock.bytes (some (hashBytes 7))
  chainId := 99

/-- An SCS that calls itself by the name of the head block is welcome, and the hash of the
head block is lost. -/
theorem handshake_overwrites_head :
    ∃ res, shakeHand emptyLib serverWithHead { scsid := bytesOf "LastBlock" } = .ok res ∧
      res.2 = .shakeReply ∧
      serverWithHead.chaindb ChainKey.headBlock.bytes = some (hashBytes 7) ∧
      res.1.chaindb ChainKey.headBlock.bytes = some [] := by
  decide +kernel

/-- An SCS that calls itself by an address leaves the chain alone. -/
theorem handshake_with_address :
    ∃ after reply, shakeHand emptyLib serverWithHead
        { scsid := bytesOf "0x" ++ List.replicate 40 0x31 } = .ok (after, reply) ∧
      ∀ key : ChainKey, after.chaindb key.bytes = serverWithHead.chaindb key.bytes := by
  obtain ⟨after, reply, handled, kept⟩ :=
    handshake_keeps_chain_data_iff emptyLib serverWithHead
      { scsid := bytesOf "0x" ++ List.replicate 40 0x31 } rfl rfl
  refine ⟨after, reply, handled, kept.mpr (.inl fun key => ?_)⟩
  exact ChainKey.bytes_ne_of_hex (List.length_replicate)

end MoacVnode.Vnode
