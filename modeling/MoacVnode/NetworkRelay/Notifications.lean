import Mathlib.Data.List.AList
import MoacVnode.NetworkRelay.Messages

/-!
# Notifications of the SCSs

A contract notifies the SCSs of its subchain by a call of the relay.
-/

namespace MoacVnode.NetworkRelay

open MoacVnode.Core Lib List

variable {realMsg msg : List UInt8}

/-- `NotifyScsMsg`; its time stamp is not read. -/
structure NotifyScsMsg where
  address : Address
  msg : List UInt8
  msgHash : Hash
  block : Int
  deriving DecidableEq

/-- `NotifyScsCache`, keyed by the message hash. -/
abbrev NotifyScsCache := AList fun _ : Hash => NotifyScsMsg

def notifyScs (cache : NotifyScsCache) (address : Address) (msg : List UInt8) (hash : Hash)
    (blocknumber : Int) : NotifyScsCache :=
  cache.insert hash ⟨address, msg, hash, blocknumber⟩

structure RoleCache where
  role : ScsKind
  number : Nat
  deriving DecidableEq

/-- `ScsRoleCache`: the roles by SCS and subchain. -/
abbrev ScsRoleCache := Address → Address → Option RoleCache

/-- `SetScsRoleCacheOld`: the roles of the connected SCSs in the subchain are out of date. -/
def setScsRoleCacheOld (servers : List Address) (cache : ScsRoleCache) (subchainId : Address) :
    ScsRoleCache := fun scsId subchain =>
  if scsId ∈ servers ∧ subchain = subchainId then
    (cache scsId subchain).map fun roleInfo =>
      if roleInfo.role = .lockScs then roleInfo else { roleInfo with number := 0 }
  else cache scsId subchain

/-- What the request id of a message depends on. -/
structure Requests where
  /-- `node.GetInstance()` with the id of its p2p server; each of the two can be nil. -/
  node : Option (Option (List UInt8))
  requestNonce : UInt64 := 0
  knownMsgs : List Hash := []
  deriving DecidableEq

def Requests.getRequestId (requests : Requests) (id : Option (List UInt8)) (newFlag : Bool) :
    List UInt8 × Requests :=
  match id with
  | none => ([], requests)
  | some id =>
    if newFlag then
      let nonce := requests.requestNonce + 1
      (id ++ bytesOf "-" ++ bytesOf (toString nonce.toNat), { requests with requestNonce := nonce })
    else (id, requests)

variable (lib : CommonLib)

/-- The request id of a notification: a new one if the message is already known. -/
def Requests.requestId (requests : Requests) (msgHash : Hash) : List UInt8 × Requests :=
  match requests.node with
  | none => ([], requests)
  | some id =>
    let requestId := (requests.getRequestId id false).1
    if lib.rlpHash requestId [] true (hashBytes msgHash) ∈ requests.knownMsgs then
      requests.getRequestId id true
    else (requestId, requests)

/-- What is done for one notification: the message given to `VnodePushMsg`, and whether
`SetScsRoleCacheOld` was called. -/
structure Emission where
  message : ScsPushMsg
  clearsRoleCache : Bool
  deriving DecidableEq

/-- The variables of the loop of `NotifyScsFinalize`, and what it has done so far. -/
structure Finalizing where
  realMsg : List UInt8 := []
  requests : Requests
  roles : ScsRoleCache
  emissions : List Emission := []

/-- The last 32 bytes of a payload; the variable is left as it was by a shorter one. -/
def nextRealMsg (realMsg msg : List UInt8) : List UInt8 :=
  if 31 < msg.length then msg.drop (msg.length - 32) else realMsg

/-- `int(big.NewInt(0).SetBytes(realMsg).Int64())`: the low 64 bits as a signed number. -/
def msgInHex (realMsg : List UInt8) : Int :=
  (BitVec.ofNat 64 (realMsg.foldl (fun val byte => val * 256 + byte.toNat) 0)).toInt

/-- The statuses that change the roles in a subchain. -/
def changesRoles (status : Int) : Bool :=
  status ∈ [lib.params.regOpen, lib.params.regClose, lib.params.regAdd,
    lib.params.regAsMonitor, lib.params.regAsBackup, lib.params.approveProposal]

def addressBytes (address : Address) : List UInt8 := bigEndian addressLength address.toNat

variable (notify : NotifyScsMsg)

def conReq (realMsg requestId timestamp : List UInt8) : ScsPushMsg where
  requestid := requestId
  timestamp := timestamp
  requestflag := true
  type := lib.intToBytes lib.params.controlMsg
  status := lib.intToBytes (msgInHex realMsg)
  scsid := []
  sender := []
  receiver := addressBytes notify.address
  subchainid := addressBytes notify.address
  msghash := hashBytes notify.msgHash

section

-- the connected SCSs, the clock, and the messages that are known after a push
variable (servers : List Address) (clock : Nat → List UInt8)
  (afterPush : List Hash → ScsPushMsg → List Hash)

def finalizeOne (state : Finalizing) (notify : NotifyScsMsg) : Finalizing :=
  let realMsg := nextRealMsg state.realMsg notify.msg
  let clears := changesRoles lib (msgInHex realMsg)
  let (requestId, requests) := state.requests.requestId lib notify.msgHash
  let message := conReq lib notify realMsg requestId (clock state.emissions.length)
  { realMsg := realMsg
    requests := { requests with knownMsgs := afterPush requests.knownMsgs message }
    roles := if clears then setScsRoleCacheOld servers state.roles notify.address else state.roles
    emissions := state.emissions ++ [⟨message, clears⟩] }

def due (curblock : Int) (order : List NotifyScsMsg) : List NotifyScsMsg :=
  order.filter fun notify => notify.block < curblock

/-- `NotifyScsFinalize`: the cache and the loop after it. -/
def notifyScsFinalize (cache : NotifyScsCache) (order : List NotifyScsMsg) (requests : Requests)
    (roles : ScsRoleCache) (curblock : Int) (liveFlag : Bool) : NotifyScsCache × Finalizing :=
  if liveFlag then
    ((due curblock order).foldl (fun kept notify => kept.erase notify.msgHash) cache,
      (due curblock order).foldl (finalizeOne lib servers clock afterPush)
        { requests := requests, roles := roles })
  else (∅, { requests := requests, roles := roles })

end

/-- An emission without the request id and the time. -/
def Emission.content (emission : Emission) : Emission :=
  { emission with message := { emission.message with requestid := [], timestamp := [] } }

/-- The content that a decoded payload gives a notification. -/
def contentOf (realMsg : List UInt8) : Emission where
  message := conReq lib notify realMsg [] []
  clearsRoleCache := changesRoles lib (msgInHex realMsg)

def ownContent : Emission :=
  contentOf lib notify (nextRealMsg [] notify.msg)

def contentsFrom : List UInt8 → List NotifyScsMsg → List Emission
  | _, [] => []
  | realMsg, notify :: rest =>
    contentOf lib notify (nextRealMsg realMsg notify.msg) ::
      contentsFrom (nextRealMsg realMsg notify.msg) rest

/-- What the relay makes of a decoded payload: the status, and whether roles are cleared. -/
def payloadEffect (realMsg : List UInt8) : List UInt8 × Bool :=
  (lib.intToBytes (msgInHex realMsg), changesRoles lib (msgInHex realMsg))

section

variable (servers : List Address) (clock : Nat → List UInt8)
  (afterPush : List Hash → ScsPushMsg → List Hash)

theorem contents_foldl (notices : List NotifyScsMsg) (state : Finalizing) :
    (notices.foldl (finalizeOne lib servers clock afterPush) state).emissions.map Emission.content =
      state.emissions.map Emission.content ++ contentsFrom lib state.realMsg notices := by
  induction notices generalizing state with
  | nil => simp [contentsFrom]
  | cons notify rest ih =>
    rw [foldl_cons, ih]
    simp [finalizeOne, contentsFrom, Emission.content, contentOf, conReq]

end

theorem contentOf_eq_iff {notify : NotifyScsMsg} {left right : List UInt8} :
    contentOf lib notify left = contentOf lib notify right ↔
      payloadEffect lib left = payloadEffect lib right := by
  simp [contentOf, conReq, payloadEffect]

theorem nextRealMsg_of_short (short : msg.length < 32) : nextRealMsg realMsg msg = realMsg :=
  if_neg (by omega)

theorem nextRealMsg_of_long (other : List UInt8) (long : 32 ≤ msg.length) :
    nextRealMsg realMsg msg = nextRealMsg other msg := by
  have decoded : 31 < msg.length := long
  simp only [nextRealMsg, decoded, if_true]

theorem contentsFrom_eq_map {notices : List NotifyScsMsg}
    (carried : (∃ short ∈ notices, short.msg.length < 32) → payloadEffect lib realMsg =
      payloadEffect lib [])
    (harmless : ∀ short ∈ notices, ∀ long ∈ notices, short.msg.length < 32 → 32 ≤ long.msg.length →
      payloadEffect lib (nextRealMsg [] long.msg) = payloadEffect lib []) :
    contentsFrom lib realMsg notices = notices.map (ownContent lib) := by
  induction notices generalizing realMsg with
  | nil => rfl
  | cons notify rest ih =>
    rw [contentsFrom, map_cons]
    congr 1
    · by_cases short : notify.msg.length < 32
      · rw [ownContent, contentOf_eq_iff, nextRealMsg_of_short short, nextRealMsg_of_short short]
        exact carried ⟨notify, mem_cons_self, short⟩
      · rw [ownContent, nextRealMsg_of_long [] (Nat.le_of_not_lt short)]
    · apply ih
      · rintro ⟨later, laterMem, laterShort⟩
        by_cases short : notify.msg.length < 32
        · rw [nextRealMsg_of_short short]
          exact carried ⟨notify, mem_cons_self, short⟩
        · rw [nextRealMsg_of_long [] (Nat.le_of_not_lt short)]
          exact harmless later (mem_cons_of_mem _ laterMem) notify mem_cons_self
            laterShort (Nat.le_of_not_lt short)
      · intro short shortMem long longMem
        exact harmless short (mem_cons_of_mem _ shortMem) long (mem_cons_of_mem _ longMem)

/-- If a payload of less than 32 bytes is due, the longer ones that are due have the effect of
an empty payload. -/
def PayloadsAgree (notices : List NotifyScsMsg) : Prop :=
  ∀ short ∈ notices, ∀ long ∈ notices, short.msg.length < 32 → 32 ≤ long.msg.length →
    payloadEffect lib (nextRealMsg [] long.msg) = payloadEffect lib []
deriving Decidable

theorem exists_order {cached : List NotifyScsMsg} {first second : NotifyScsMsg}
    (firstMem : first ∈ cached) (secondMem : second ∈ cached) (ne : second ≠ first) :
    ∃ rest, (first :: second :: rest).Perm cached := by
  have secondLeft : second ∈ cached.erase first := (mem_erase_of_ne ne).mpr secondMem
  refine ⟨(cached.erase first).erase second, ?_⟩
  exact ((perm_cons_erase secondLeft).symm.cons first).trans (perm_cons_erase firstMem).symm

theorem contentsFrom_eq_map_iff {cached : List NotifyScsMsg} :
    (∀ notices : List NotifyScsMsg, notices.Perm cached →
        contentsFrom lib [] notices = notices.map (ownContent lib)) ↔
      PayloadsAgree lib cached := by
  constructor
  · intro own short shortMem long longMem isShort isLong
    have ne : short ≠ long := by
      rintro rfl
      omega
    -- the long payload is decoded right before the short one
    obtain ⟨rest, order⟩ := exists_order longMem shortMem ne
    have contents := own _ order
    simp only [contentsFrom, map_cons, List.cons.injEq] at contents
    have second := contents.2.1
    rw [ownContent, contentOf_eq_iff, nextRealMsg_of_short isShort,
      nextRealMsg_of_short isShort] at second
    exact second
  · intro agree notices perm
    apply contentsFrom_eq_map lib (fun _ => rfl)
    intro short shortMem long longMem
    exact agree short (perm.mem_iff.mp shortMem) long (perm.mem_iff.mp longMem)

/-! ## Request ids -/

/-- The id of the node, which is the request id of a message that is not known. -/
def Requests.plainId (requests : Requests) : List UInt8 := requests.node.join.getD []

/-- The request id that a known message gets. -/
def newId (plainId : List UInt8) (nonce : UInt64) : List UInt8 :=
  plainId ++ bytesOf "-" ++ bytesOf (toString (nonce + 1).toNat)

/-- The id under which a notification with a request id is known. -/
def notifyId (requestId : List UInt8) : Hash :=
  lib.rlpHash requestId [] true (hashBytes notify.msgHash)

/-- A push marks at most its message, and drops none: the set of the known messages does not get
full. -/
def Marks (afterPush : List Hash → ScsPushMsg → List Hash) : Prop :=
  ∀ known (message : ScsPushMsg) id, id ≠ message.id lib →
    (id ∈ afterPush known message ↔ id ∈ known)

/-- `RlpHash` tells the notifications apart, with the request id of the node and with new ones. -/
structure DistinctIds (plainId : List UInt8) (notices : List NotifyScsMsg) : Prop where
  own : (notices.map (notifyId lib · plainId)).Nodup
  new : ∀ notify ∈ notices, ∀ other ∈ notices, ∀ nonce,
    notifyId lib other plainId ≠ notifyId lib notify (newId plainId nonce)

theorem DistinctIds.perm {plainId : List UInt8} {cached notices : List NotifyScsMsg}
    (distinct : DistinctIds lib plainId cached) (perm : notices.Perm cached) :
    DistinctIds lib plainId notices :=
  ⟨(perm.map _).nodup_iff.mpr distinct.own, fun notify mem other otherMem =>
    distinct.new notify (perm.mem_iff.mp mem) other (perm.mem_iff.mp otherMem)⟩

section

variable (servers : List Address) (clock : Nat → List UInt8)
  (afterPush : List Hash → ScsPushMsg → List Hash)

variable {afterPush} {requests : Requests}

end

section

variable {requests : Requests}

end

/-! ## Independence -/

theorem mem_due {curblock : Int} {order : List NotifyScsMsg} {notify : NotifyScsMsg} :
    notify ∈ due curblock order ↔ notify ∈ order ∧ notify.block < curblock := by
  simp [due]

section

variable (servers : List Address) (clock : Nat → List UInt8)
  (afterPush : List Hash → ScsPushMsg → List Hash) (cache : NotifyScsCache) (requests : Requests)
  (roles : ScsRoleCache) (curblock : Int)

theorem emissions_finalize (order : List NotifyScsMsg) :
    (notifyScsFinalize lib servers clock afterPush cache order requests roles curblock
        true).2.emissions.map Emission.content =
      contentsFrom lib [] (due curblock order) := by
  simp only [notifyScsFinalize, if_true, contents_foldl]
  simp

end

def approvalNotice : NotifyScsMsg := ⟨1, List.replicate 31 0 ++ [5], 1, 7⟩

end MoacVnode.NetworkRelay
