import MoacVnode.Core.DatabaseKeys
import MoacVnode.Lib.Slices

/-!
# Messages between the SCSs, the node and its subnet peers

A message that an SCS streams to the node, or that a peer of a subnet sends, is forwarded to
the peers of its subnet (or of the main net) by the broadcast loop, and to the connected SCSs
whose role it is meant for.  On its way the hex form of its subchain id and its request id are
sliced at fixed offsets; a slice out of range panics and takes the node down.

The channels between the functions are left out: what is put in one is handled at once.
-/

namespace MoacVnode.NetworkRelay

open MoacVnode.Core Lib List Option

variable {msg : ScsPushMsg}

structure ScsPushMsg where
  requestid : List UInt8 := []
  timestamp : List UInt8 := []
  requestflag : Bool := false
  type : List UInt8 := []
  status : List UInt8 := []
  scsid : List UInt8 := []
  sender : List UInt8 := []
  receiver : List UInt8 := []
  subchainid : List UInt8 := []
  msghash : List UInt8 := []
  deriving DecidableEq

inductive ScsKind where
  | none
  | consensusScs
  | monitorScs
  | backupScs
  | matchSelTarget
  | lockScs
  deriving DecidableEq

/-- The numbers that `params` gives the types and the statuses of a message. -/
structure Codes where
  scsShakeHand : Int
  scsPing : Int
  directCall : Int
  controlMsg : Int
  broadCast : Int
  regOpen : Int
  regClose : Int
  regAdd : Int
  regAsMonitor : Int
  regAsBackup : Int
  approveProposal : Int
  distributeProposal : Int
  resetAll : Int
  requestReleaseImmediateAndVSSGroupConfig : Int
  syncRequest : Int
  syncComplete : Int
  rngShares : Int
  sigShares : Int
  requestSigShares : Int

/-- What the relay takes from the common package. -/
structure CommonLib where
  params : Codes
  bytesToInt : List UInt8 → Int
  intToBytes : Int → List UInt8
  bytesToAddress : List UInt8 → Address
  hexToAddress : List Char → Address
  /-- `common.RlpHash` of the request id, the SCS id, the request flag and the message hash. -/
  rlpHash : List UInt8 → List UInt8 → Bool → List UInt8 → Hash

def maxKnownMsgs : Nat := 32768

/-- `libtypes.ScsServerConnection`; the bytes of the id are the ASCII codes of its text. -/
structure ScsServerConnection where
  scsId : List UInt8
  deriving DecidableEq

/-- The part of the relay that a message on its way to the SCSs uses. -/
structure Relay where
  /-- `ScsServerList`, in the order in which the map is walked; `none` is nil. -/
  scsServerList : Option (List ScsServerConnection) := some []
  /-- The set of known messages, in the order in which `Pop` takes its elements. -/
  knownMsgs : List Hash := []
  /-- What was put in the `Req` channels of the connections. -/
  requests : List (ScsServerConnection × ScsPushMsg) := []
  deriving DecidableEq

variable (lib : CommonLib)

def ScsPushMsg.id (msg : ScsPushMsg) : Hash :=
  lib.rlpHash msg.requestid msg.scsid msg.requestflag msg.msghash

/-- `MarkMsg`: at the limit known messages are dropped. -/
def Relay.markMsg (relay : Relay) (msg : ScsPushMsg) : Relay :=
  let kept := relay.knownMsgs.drop (relay.knownMsgs.length + 1 - maxKnownMsgs)
  { relay with knownMsgs := kept.insert (msg.id lib) }

def Relay.serverWithoutMsg (relay : Relay) (msg : ScsPushMsg) : List ScsServerConnection :=
  match relay.scsServerList with
  | none => []
  | some servers => if msg.id lib ∈ relay.knownMsgs then [] else servers

/-- `ScsMsgCheck`: is the message meant for an SCS of this role? -/
def scsMsgCheck (role : ScsKind) (scs : Address) (conReq : ScsPushMsg) : Bool :=
  let types := lib.bytesToInt conReq.type
  let status := lib.bytesToInt conReq.status
  let shares := [lib.params.rngShares, lib.params.sigShares, lib.params.requestSigShares]
  if types = lib.params.scsPing ∨ types = lib.params.scsShakeHand then true
  else if types = lib.params.broadCast ∧
      (status = lib.params.syncRequest ∨ status = lib.params.syncComplete) then
    lib.bytesToAddress conReq.receiver = scs
  else
    match role with
    | .none => false
    | .consensusScs =>
      ¬ (types = lib.params.controlMsg ∧
        status ∈ [lib.params.regOpen, lib.params.regAdd, lib.params.regAsMonitor,
          lib.params.regAsBackup])
    | .monitorScs =>
      (types = lib.params.broadCast ∧ status ∉ shares) ∨
        (types = lib.params.controlMsg ∧
          status ∈ [lib.params.distributeProposal, lib.params.regAsMonitor, lib.params.resetAll])
    | .backupScs =>
      (types = lib.params.broadCast ∧ status ∉ shares) ∨
        (types = lib.params.controlMsg ∧
          status ∈ [lib.params.distributeProposal, lib.params.regAsBackup, lib.params.resetAll])
    | .matchSelTarget =>
      types = lib.params.controlMsg ∧
        status ∈ [lib.params.regOpen, lib.params.regAdd, lib.params.distributeProposal,
          lib.params.requestReleaseImmediateAndVSSGroupConfig]
    | .lockScs => false

def zeroScsId : List UInt8 := bytesOf "0x0000000000000000000000000000000000000000"

def ScsServerConnection.text (scs : ScsServerConnection) : List Char :=
  scs.scsId.map fun byte => Char.ofNat byte.toNat

section

variable {conReq : ScsPushMsg}

-- `GetSCSRole`, which asks the contract of the subchain: any role is possible
variable (getSCSRole : Address → Address → ScsKind)

/-- The check that the message passes if it is sent to the SCS. -/
def checkResult (scs : ScsServerConnection) (conReq : ScsPushMsg) : Bool :=
  let addr := lib.hexToAddress scs.text
  scsMsgCheck lib (getSCSRole (lib.bytesToAddress conReq.subchainid) addr) addr conReq

def pushToScs (conReq : ScsPushMsg) (relay : Relay) (scs : ScsServerConnection) : Option Relay :=
  if scs.scsId.length < 5 ∨ scs.scsId = zeroScsId then some relay
  else if scs.scsId <:+: conReq.requestid then some (relay.markMsg lib conReq)
  else if checkResult lib getSCSRole scs conReq then do
    let relay := if addressLength < conReq.requestid.length then relay.markMsg lib conReq else relay
    let relay := { relay with requests := relay.requests ++ [(scs, conReq)] }
    let subchainid := bytes2Hex conReq.subchainid
    -- both slices are arguments of the log entry, which is built whether it is printed or not
    let _ ← sliceFrom subchainid ((subchainid.length : Int) - 40)
    let _ ← slice conReq.requestid 0 16
    some relay
  else some relay

def vnodePushMsg (relay : Relay) (conReq : ScsPushMsg) : Option Relay :=
  (relay.serverWithoutMsg lib conReq).foldlM (pushToScs lib getSCSRole conReq) relay

def Receives (conReq : ScsPushMsg) (scs : ScsServerConnection) : Prop :=
  5 ≤ scs.scsId.length ∧ scs.scsId ≠ zeroScsId ∧ ¬ scs.scsId <:+: conReq.requestid ∧
    checkResult lib getSCSRole scs conReq = true

/-- The subchain id holds an address and the request id the part of it that is logged. -/
def LongIds (conReq : ScsPushMsg) : Prop :=
  20 ≤ conReq.subchainid.length ∧ 16 ≤ conReq.requestid.length

theorem pushToScs_isSome_iff (relay : Relay) (scs : ScsServerConnection) :
    (pushToScs lib getSCSRole conReq relay scs).isSome ↔
      (Receives lib getSCSRole conReq scs → LongIds conReq) := by
  have sliced : ((sliceFrom (bytes2Hex conReq.subchainid)
          (((bytes2Hex conReq.subchainid).length : Int) - 40)).isSome ∧
        (slice conReq.requestid 0 16).isSome) ↔ LongIds conReq := by
    rw [sliceFrom_isSome_iff, slice_isSome_iff, length_bytes2Hex, LongIds]
    omega
  unfold pushToScs Receives
  by_cases invalid : scs.scsId.length < 5 ∨ scs.scsId = zeroScsId
  · have skipped : ¬ (5 ≤ scs.scsId.length ∧ scs.scsId ≠ zeroScsId) := by
      rintro ⟨long, nonzero⟩
      rcases invalid with short | zero
      · omega
      · exact nonzero zero
    simp only [invalid, if_true, isSome_some, true_iff]
    rintro ⟨long, nonzero, -⟩
    exact absurd ⟨long, nonzero⟩ skipped
  · have valid : 5 ≤ scs.scsId.length ∧ scs.scsId ≠ zeroScsId :=
      ⟨by omega, fun zero => invalid (.inr zero)⟩
    rw [if_neg invalid]
    by_cases own : scs.scsId <:+: conReq.requestid
    · simp [own]
    · rw [if_neg own]
      by_cases passed : checkResult lib getSCSRole scs conReq = true
      · rw [if_pos passed, ← sliced]
        simp only [valid, own, passed, true_and, ne_eq]
        cases sliceFrom (bytes2Hex conReq.subchainid)
            (((bytes2Hex conReq.subchainid).length : Int) - 40) with
        | none => simp
        | some hex =>
          cases slice conReq.requestid 0 16 with
          | none => simp
          | some requestid => simp
      · simp [passed]

end

/-- What the broadcast loop keeps of the subnets. -/
structure SubnetPeers where
  /-- The subnets that have a set of peers. -/
  subnetPeerSets : List (List Char) := []
  subnetPushMsgBuffers : List (List Char × ScsPushMsg) := []
  /-- What was sent to the peers of a subnet, or of the main net. -/
  broadcasts : List (Option (List Char) × ScsPushMsg) := []
  deriving DecidableEq

/-- The subnet of a message: the first two digits of its subchain id are replaced by `0x`. -/
def subnetid (msg : ScsPushMsg) : Option (List Char) := do
  let digits ← sliceFrom (bytes2Hex msg.subchainid) 2
  some ("0x".toList ++ digits)

/-- `shardingBroadcastLoop` with a message for a subnet. -/
def SubnetPeers.toSubnet (peers : SubnetPeers) (msg : ScsPushMsg) : Option SubnetPeers := do
  let id ← subnetid msg
  if id ∈ peers.subnetPeerSets then
    some { peers with broadcasts := peers.broadcasts ++ [(some id, msg)] }
  else some { peers with subnetPushMsgBuffers := peers.subnetPushMsgBuffers ++ [(id, msg)] }

/-- `shardingBroadcastLoop` with a message for the main net. -/
def SubnetPeers.toMainnet (peers : SubnetPeers) (msg : ScsPushMsg) : SubnetPeers :=
  { peers with broadcasts := peers.broadcasts ++ [(none, msg)] }

theorem subnetid_isSome_iff : (subnetid msg).isSome ↔ msg.subchainid ≠ [] := by
  have sliced : (sliceFrom (bytes2Hex msg.subchainid) 2).isSome ↔ msg.subchainid ≠ [] := by
    rw [sliceFrom_isSome_iff, length_bytes2Hex, ← length_pos_iff]
    omega
  rw [← sliced]
  cases taken : sliceFrom (bytes2Hex msg.subchainid) 2 with
  | none | some digits => simp [subnetid, taken]

theorem toSubnet_isSome_iff (peers : SubnetPeers) :
    (peers.toSubnet msg).isSome ↔ msg.subchainid ≠ [] := by
  rw [← subnetid_isSome_iff]
  cases taken : subnetid msg with
  | none => simp [SubnetPeers.toSubnet, taken]
  | some id =>
    simp only [SubnetPeers.toSubnet, taken, bind_eq_bind, bind_some]
    split <;> rfl

structure Node where
  relay : Relay := {}
  peers : SubnetPeers := {}
  /-- The chain has passed the Nuwa block. -/
  nuwa : Bool := true
  /-- `isSubnetP2PEnabled`, by the configuration or the contract of the subchain. -/
  isSubnetP2PEnabled : Address → Bool
  getSCSRole : Address → Address → ScsKind

inductive Origin where
  /-- The stream of an SCS, handled by `ScsPush`. -/
  | scsStream
  /-- A peer of a subnet, handled by `handleSubnetMsg`. -/
  | subnetPeer
  deriving DecidableEq

variable (node : Node)

def Node.toLocalScs (msg : ScsPushMsg) : Option Node := do
  let relay ← vnodePushMsg lib node.getSCSRole node.relay msg
  some { node with relay := relay }

/-- `BroadcastMsg`: to the peers by the broadcast loop, and to the local SCSs. -/
def Node.broadcastMsg (msg : ScsPushMsg) (forceToMainnet : Bool) :
    Option Node := do
  let peers ← if forceToMainnet then some (node.peers.toMainnet msg) else node.peers.toSubnet msg
  { node with peers := peers }.toLocalScs lib msg

/-- `ScsPush` with a message from the stream. A handshake is answered, the rest is in
`Vnode.ScsHandshake`; a ping is answered. -/
def Node.scsPush (msg : ScsPushMsg) : Option Node :=
  if ¬ node.nuwa then some node
  else
    let typeInt := lib.bytesToInt msg.type
    if typeInt = lib.params.scsShakeHand then some node
    else if typeInt = lib.params.scsPing then some node
    else if typeInt = lib.params.directCall then some node
    else if typeInt = lib.params.controlMsg then some node
    else if typeInt = lib.params.broadCast then
      node.broadcastMsg lib msg (! node.isSubnetP2PEnabled (lib.bytesToAddress msg.subchainid))
    else node.toLocalScs lib msg

/-- `handleSubnetMsg` with an `ScsMsg`. -/
def Node.handleSubnetMsg (msg : ScsPushMsg) : Option Node := do
  let subnet ← subnetid msg
  node.broadcastMsg lib msg (! node.isSubnetP2PEnabled (lib.hexToAddress subnet))

/-- The whole path of a message; `none` if a slice on it is out of range. -/
def Node.receive (msg : ScsPushMsg) : Origin → Option Node
  | .scsStream => node.scsPush lib msg
  | .subnetPeer => node.handleSubnetMsg lib msg

/-- If some connected SCS gets the message, its ids are long enough to be logged. -/
def Loggable (msg : ScsPushMsg) : Prop :=
  ∀ scs ∈ node.relay.serverWithoutMsg lib msg, Receives lib node.getSCSRole msg scs → LongIds msg

def Unanswered (msg : ScsPushMsg) : Prop :=
  lib.bytesToInt msg.type ∉
    [lib.params.scsShakeHand, lib.params.scsPing, lib.params.directCall, lib.params.controlMsg]

def ToSubnet (msg : ScsPushMsg) : Prop :=
  lib.bytesToInt msg.type = lib.params.broadCast ∧
    node.isSubnetP2PEnabled (lib.bytesToAddress msg.subchainid) = true

/-- The fields of the message are long enough for the slices on its path. -/
def LongEnough (msg : ScsPushMsg) : Origin → Prop
  | .scsStream =>
    node.nuwa = true → Unanswered lib msg →
      (ToSubnet lib node msg → msg.subchainid ≠ []) ∧ Loggable lib node msg
  | .subnetPeer => msg.subchainid ≠ [] ∧ Loggable lib node msg

theorem toLocalScs_isSome_iff {node : Node} :
    (node.toLocalScs lib msg).isSome ↔ Loggable lib node msg := by
  refine Iff.trans ?_ (foldlM_isSome_iff (pushToScs_isSome_iff lib node.getSCSRole) _ node.relay)
  change _ ↔ (vnodePushMsg lib node.getSCSRole node.relay msg).isSome
  cases pushed : vnodePushMsg lib node.getSCSRole node.relay msg with
  | none | some relay => simp [Node.toLocalScs, pushed]

theorem broadcastMsg_isSome_iff {node : Node} {forceToMainnet : Bool} :
    (node.broadcastMsg lib msg forceToMainnet).isSome ↔
      (forceToMainnet = false → msg.subchainid ≠ []) ∧ Loggable lib node msg := by
  unfold Node.broadcastMsg
  cases forceToMainnet with
  | true =>
    simp only [if_true, bind_eq_bind, bind_some, toLocalScs_isSome_iff,
      reduceCtorEq, false_implies, true_and]
    exact Iff.rfl
  | false =>
    rw [← toSubnet_isSome_iff node.peers]
    cases sent : node.peers.toSubnet msg with
    | none => simp
    | some peers =>
      simp only [Bool.false_eq_true, if_false, bind_eq_bind, bind_some,
        toLocalScs_isSome_iff, isSome_some, implies_true, true_and]
      exact Iff.rfl

theorem scsPush_isSome_iff {node : Node} :
    (node.scsPush lib msg).isSome ↔ LongEnough lib node msg .scsStream := by
  unfold Node.scsPush LongEnough
  cases node.nuwa with
  | false => simp
  | true =>
    by_cases answered : lib.bytesToInt msg.type ∈
        [lib.params.scsShakeHand, lib.params.scsPing, lib.params.directCall, lib.params.controlMsg]
    · have kept : ¬ Unanswered lib msg := not_not.mpr answered
      simp only [mem_cons, not_mem_nil, or_false] at answered
      rcases answered with type | type | type | type <;> simp [type, kept]
    · have unanswered : Unanswered lib msg := answered
      simp only [mem_cons, not_or] at answered
      obtain ⟨noShake, noPing, noCall, noControl⟩ := answered
      simp only [not_true, if_false, noShake, noPing, noCall, noControl, unanswered]
      by_cases broadcast : lib.bytesToInt msg.type = lib.params.broadCast
      · rw [if_pos broadcast, broadcastMsg_isSome_iff, ToSubnet]
        simp [broadcast]
      · rw [if_neg broadcast, toLocalScs_isSome_iff, ToSubnet]
        simp [broadcast]

theorem handleSubnetMsg_isSome_iff {node : Node} :
    (node.handleSubnetMsg lib msg).isSome ↔ LongEnough lib node msg .subnetPeer := by
  unfold Node.handleSubnetMsg LongEnough
  rw [← subnetid_isSome_iff]
  cases taken : subnetid msg with
  | none => simp
  | some subnet =>
    have nonempty : msg.subchainid ≠ [] := subnetid_isSome_iff.mp (by simp [taken])
    simp [broadcastMsg_isSome_iff, nonempty]

/-- A message passes without a slice out of range exactly if its subchain id is not empty where the
subnet is computed, and its subchain id and request id are long enough to be logged where an SCS
gets it. -/
theorem receive_isSome_iff (node : Node) (msg : ScsPushMsg) (origin : Origin) :
    (node.receive lib msg origin).isSome ↔ LongEnough lib node msg origin := by
  cases origin with
  | scsStream => exact scsPush_isSome_iff lib
  | subnetPeer => exact handleSubnetMsg_isSome_iff lib

def exampleCodes : Codes where
  scsShakeHand := 0
  scsPing := 1
  directCall := 2
  controlMsg := 3
  broadCast := 4
  regOpen := 0
  regClose := 1
  regAdd := 2
  regAsMonitor := 3
  regAsBackup := 4
  approveProposal := 5
  distributeProposal := 6
  resetAll := 7
  requestReleaseImmediateAndVSSGroupConfig := 8
  syncRequest := 9
  syncComplete := 10
  rngShares := 11
  sigShares := 12
  requestSigShares := 13

def exampleLib : CommonLib where
  params := exampleCodes
  bytesToInt bytes := beNat bytes
  intToBytes num := bigEndian 4 num.toNat
  bytesToAddress := bytesToAddress
  hexToAddress text := BitVec.ofNat 160 text.length
  rlpHash requestid _ _ _ := BitVec.ofNat 256 requestid.length

def exampleNode : Node where
  relay := { scsServerList := some [⟨bytesOf "scs-1"⟩] }
  isSubnetP2PEnabled _ := false
  getSCSRole _ _ := .consensusScs

/-- A broadcast without ids takes the node down, from the stream of an SCS and from a peer. -/
theorem receive_empty_ids :
    (exampleNode.receive exampleLib { type := [4] } .scsStream).isSome = false ∧
      (exampleNode.receive exampleLib { type := [4] } .subnetPeer).isSome = false := by
  decide +kernel

end MoacVnode.NetworkRelay
