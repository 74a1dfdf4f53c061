import MoacVnode.Lib.Run
import MoacVnode.NetworkRelay.Messages

/-!
# Messages that are known to the SCSs

`VnodePushMsg` marks a message when it is pushed to a connected SCS, and `ServerWithoutMsg` leaves
out the SCSs that a message was pushed to.
-/

namespace MoacVnode.NetworkRelay

open MoacVnode.Core Lib List Option

variable {messages : List Hash} {relay next : Relay} {getSCSRole : Address → Address → ScsKind}
  {conReq : ScsPushMsg} {order : List ScsServerConnection}

def Relay.servers (relay : Relay) : List ScsServerConnection := relay.scsServerList.getD []

def Relay.closeScsServer (relay : Relay) (scsId : List UInt8) : Relay :=
  { relay with scsServerList := some (relay.servers.filter fun scs => scs.scsId ≠ scsId) }

/-- `UpdateScsServerList`: a connection of an SCS replaces the one it had. -/
def Relay.updateScsServerList (relay : Relay) (scsId : List UInt8) : Relay :=
  if scsId.length < 5 ∨ scsId = zeroScsId then relay
  else
    let closed := relay.closeScsServer scsId
    { closed with scsServerList := some (closed.servers ++ [⟨scsId⟩]) }

/-- What happens to the relay. -/
inductive ServerEvent where
  /-- `VnodePushMsg`, with the roles of the SCSs then and the order in which the map of the
  connections is walked. -/
  | push (getSCSRole : Address → Address → ScsKind) (order : List ScsServerConnection)
      (conReq : ScsPushMsg)
  | connect (scsId : List UInt8)
  | disconnect (scsId : List UInt8)

variable (lib : CommonLib)

def serverStep (relay : Relay) : ServerEvent → Except Crash Relay
  | .push getSCSRole order conReq =>
    match vnodePushMsg lib getSCSRole { relay with scsServerList := some order } conReq with
    | none => .error .indexOutOfRange
    | some next => .ok next
  | .connect scsId => .ok (relay.updateScsServerList scsId)
  | .disconnect scsId => .ok (relay.closeScsServer scsId)

def PushedTo (relay : Relay) (scsId : List UInt8) (id : Hash) : Prop :=
  ∃ sent ∈ relay.requests, sent.1.scsId = scsId ∧ sent.2.id lib = id
deriving Decidable

instance (getSCSRole : Address → Address → ScsKind) (conReq : ScsPushMsg)
    (scs : ScsServerConnection) : Decidable (Receives lib getSCSRole conReq scs) :=
  inferInstanceAs (Decidable (_ ∧ _ ∧ _ ∧ _))

/-- The loop of `VnodePushMsg` does nothing for the SCS. -/
def PassedOver (getSCSRole : Address → Address → ScsKind) (conReq : ScsPushMsg)
    (scs : ScsServerConnection) : Prop :=
  scs.scsId.length < 5 ∨ scs.scsId = zeroScsId ∨
    ¬ scs.scsId <:+: conReq.requestid ∧ checkResult lib getSCSRole scs conReq = false
deriving Decidable

/-- A message that is pushed is known, or is marked and goes to every connected SCS, or to none; an
SCS that connects has got all known messages. -/
def Steady (messages : List Hash) (relay : Relay) : ServerEvent → Prop
  | .push getSCSRole order conReq =>
    order.Perm relay.servers ∧ conReq.id lib ∈ messages ∧
      (conReq.id lib ∈ relay.knownMsgs ∨
        addressLength < conReq.requestid.length ∧
          (∀ scs ∈ order, Receives lib getSCSRole conReq scs) ∨
        ∀ scs ∈ order, PassedOver lib getSCSRole conReq scs)
  | .connect scsId => ∀ id ∈ relay.knownMsgs, PushedTo lib relay scsId id
  | .disconnect _ => True

instance (messages : List Hash) (relay : Relay) :
    (event : ServerEvent) → Decidable (Steady lib messages relay event)
  | .push _ order conReq =>
    inferInstanceAs (Decidable (order.Perm relay.servers ∧ conReq.id lib ∈ messages ∧ (_ ∨ _ ∨ _)))
  | .connect scsId => List.decidableBAll (PushedTo lib relay scsId) relay.knownMsgs
  | .disconnect _ => inferInstanceAs (Decidable True)

@[simp]
theorem scsServerList_markMsg (relay : Relay) (msg : ScsPushMsg) :
    (relay.markMsg lib msg).scsServerList = relay.scsServerList := by
  cases relay
  rfl

@[simp]
theorem requests_markMsg (relay : Relay) (msg : ScsPushMsg) :
    (relay.markMsg lib msg).requests = relay.requests := by
  cases relay
  rfl

section

variable {scs : ScsServerConnection}

theorem pushToScs_of_passedOver (passed : PassedOver lib getSCSRole conReq scs) :
    pushToScs lib getSCSRole conReq relay scs = some relay := by
  unfold pushToScs
  by_cases invalid : scs.scsId.length < 5 ∨ scs.scsId = zeroScsId
  · rw [if_pos invalid]
  · rw [if_neg invalid]
    rcases passed with short | zero | ⟨foreign, failed⟩
    · exact absurd (.inl short) invalid
    · exact absurd (.inr zero) invalid
    · rw [if_neg foreign, failed, if_neg Bool.false_ne_true]

theorem pushToScs_of_receives (receives : Receives lib getSCSRole conReq scs)
    (long : addressLength < conReq.requestid.length)
    (pushed : pushToScs lib getSCSRole conReq relay scs = some next) :
    next = { relay.markMsg lib conReq with
      requests := (relay.markMsg lib conReq).requests ++ [(scs, conReq)] } := by
  obtain ⟨valid, nonzero, foreign, passed⟩ := receives
  unfold pushToScs at pushed
  rw [if_neg (not_or.mpr ⟨by omega, nonzero⟩), if_neg foreign, if_pos passed, if_pos long] at pushed
  simp only [bind_some_iff] at pushed
  obtain ⟨-, -, -, -, same⟩ := pushed
  exact (Option.some.inj same).symm

end

/-- The known messages are some of a list, each once. -/
def KnownAmong (messages known : List Hash) : Prop := known.Nodup ∧ known ⊆ messages

theorem knownMsgs_markMsg (few : messages.length < maxKnownMsgs)
    (among : KnownAmong messages relay.knownMsgs) (conReq : ScsPushMsg) :
    (relay.markMsg lib conReq).knownMsgs = relay.knownMsgs.insert (conReq.id lib) := by
  have bound : relay.knownMsgs.length ≤ messages.length :=
    (subperm_of_subset among.1 among.2).length_le
  have none : relay.knownMsgs.length + 1 - maxKnownMsgs = 0 := by omega
  rw [Relay.markMsg, none, drop_zero]

theorem knownAmong_insert {known : List Hash} (among : KnownAmong messages known) {id : Hash}
    (mem : id ∈ messages) : KnownAmong messages (known.insert id) := by
  refine ⟨List.Nodup.insert among.1, ?_⟩
  intro other inserted
  rcases mem_insert_iff.mp inserted with rfl | prior
  · exact mem
  · exact among.2 prior

theorem foldlM_pushToScs_of_receives (few : messages.length < maxKnownMsgs)
    (mem : conReq.id lib ∈ messages) (long : addressLength < conReq.requestid.length)
    (receive : ∀ scs ∈ order, Receives lib getSCSRole conReq scs)
    (among : KnownAmong messages relay.knownMsgs)
    (pushed : order.foldlM (pushToScs lib getSCSRole conReq) relay = some next) :
    next.scsServerList = relay.scsServerList ∧
      next.requests = relay.requests ++ order.map (·, conReq) ∧
      KnownAmong messages next.knownMsgs ∧
      ∀ id, id ∈ next.knownMsgs ↔ id ∈ relay.knownMsgs ∨ order ≠ [] ∧ id = conReq.id lib := by
  induction order generalizing relay with
  | nil =>
    cases pushed
    simp [among]
  | cons scs order ih =>
    rw [foldlM_cons, bind_some_iff] at pushed
    obtain ⟨mid, first, rest⟩ := pushed
    have step := pushToScs_of_receives lib (receive scs (by simp)) long first
    have marked : mid.knownMsgs = relay.knownMsgs.insert (conReq.id lib) := by
      rw [step, ← knownMsgs_markMsg lib few among conReq]
    obtain ⟨sameList, sent, later, known⟩ := ih
      (fun other inRest => receive other (by simp [inRest]))
      (marked ▸ knownAmong_insert among mem) rest
    refine ⟨?_, ?_, later, ?_⟩
    · rw [sameList, step, ← scsServerList_markMsg lib relay conReq]
    · rw [sent, step]
      simp
    · intro id
      rw [known, marked, mem_insert_iff]
      by_cases same : id = conReq.id lib
      · simp [same]
      · simp [same]

/-- The known messages have reached every connected SCS, and all that was pushed is known. -/
structure Tracks (messages : List Hash) (relay : Relay) : Prop where
  among : KnownAmong messages relay.knownMsgs
  reached : ∀ id ∈ relay.knownMsgs, ∀ scs ∈ relay.servers, PushedTo lib relay scs.scsId id
  marked : ∀ sent ∈ relay.requests, sent.2.id lib ∈ relay.knownMsgs

theorem tracks_push (few : messages.length < maxKnownMsgs) (tracks : Tracks lib messages relay)
    (steady : Steady lib messages relay (.push getSCSRole order conReq))
    (pushed : vnodePushMsg lib getSCSRole { relay with scsServerList := some order } conReq = some
      next) : Tracks lib messages next := by
  obtain ⟨walked, mem, cases⟩ := steady
  -- the same connections, in the order of the walk
  have reordered : Tracks lib messages { relay with scsServerList := some order } :=
    ⟨tracks.among, fun id known scs connected =>
      tracks.reached id known scs (walked.mem_iff.mp connected), tracks.marked⟩
  rw [vnodePushMsg, Relay.serverWithoutMsg] at pushed
  dsimp only at pushed
  by_cases known : conReq.id lib ∈ relay.knownMsgs
  · rw [if_pos known] at pushed
    cases pushed
    exact reordered
  · rw [if_neg known] at pushed
    rcases cases with marked | ⟨long, receive⟩ | passed
    · exact absurd marked known
    · obtain ⟨sameList, sent, among, knownIff⟩ := foldlM_pushToScs_of_receives lib few mem
        long receive reordered.among pushed
      refine ⟨among, ?_, ?_⟩
      · intro id nowKnown scs connected
        rw [Relay.servers, sameList] at connected
        rcases (knownIff id).mp nowKnown with before | ⟨_, same⟩
        · obtain ⟨prior, inRequests, ids⟩ := reordered.reached id before scs connected
          exact ⟨prior, by simp [sent, inRequests], ids⟩
        · exact ⟨(scs, conReq), by simpa [sent] using Or.inr connected, rfl, same.symm⟩
      · intro entry inRequests
        rw [sent, mem_append, List.mem_map] at inRequests
        rw [knownIff]
        rcases inRequests with before | ⟨scs, connected, rfl⟩
        · exact .inl (tracks.marked entry before)
        · exact .inr ⟨ne_nil_of_mem connected, rfl⟩
    · have skipped : order.foldlM (pushToScs lib getSCSRole conReq)
          { relay with scsServerList := some order } =
            some { relay with scsServerList := some order } := by
        clear pushed reordered walked
        generalize { relay with scsServerList := some order } = start
        induction order with
        | nil => rfl
        | cons scs order ih =>
          rw [foldlM_cons, pushToScs_of_passedOver lib (passed scs (by simp)),
            bind_eq_bind, bind_some]
          exact ih fun other inRest => passed other (by simp [inRest])
      rw [skipped] at pushed
      cases pushed
      exact reordered

theorem tracks_closeScsServer (tracks : Tracks lib messages relay) (scsId : List UInt8) :
    Tracks lib messages (relay.closeScsServer scsId) :=
  ⟨tracks.among, fun id known scs connected =>
    tracks.reached id known scs (mem_of_mem_filter connected), tracks.marked⟩

theorem tracks_serverStep (few : messages.length < maxKnownMsgs) {event : ServerEvent}
    (tracks : Tracks lib messages relay) (steady : Steady lib messages relay event)
    (taken : serverStep lib relay event = .ok next) : Tracks lib messages next := by
  cases event with
  | push getSCSRole order conReq =>
    simp only [serverStep] at taken
    split at taken
    · cases taken
    · rename_i pushed
      cases taken
      exact tracks_push lib few tracks steady pushed
  | connect scsId =>
    cases taken
    unfold Relay.updateScsServerList
    split
    · exact tracks
    · have closed := tracks_closeScsServer lib tracks scsId
      refine ⟨tracks.among, ?_, tracks.marked⟩
      intro id known scs connected
      rcases mem_append.mp connected with before | new
      · exact closed.reached id known scs before
      · rw [mem_singleton.mp new]
        exact steady id known
  | disconnect scsId =>
    cases taken
    exact tracks_closeScsServer lib tracks scsId

/-- In a run of fewer than `maxKnownMsgs` messages, each pushed to all connected SCSs or to none, in
which an SCS that connects has got all that are known, `ServerWithoutMsg` gives the connected SCSs
that a message was not pushed to. -/
theorem serverWithoutMsg_of_run {messages : List Hash} (few : messages.length < maxKnownMsgs)
    {events : List ServerEvent} {relay : Relay}
    (conds : EachStep (serverStep lib) (Steady lib messages) {} events)
    (reached : run (serverStep lib) {} events = .ok relay) (msg : ScsPushMsg) :
    relay.serverWithoutMsg lib msg =
      relay.servers.filter fun scs => ¬ PushedTo lib relay scs.scsId (msg.id lib) := by
  have tracks : Tracks lib messages relay :=
    run_invariant (Tracks lib messages) (tracks_serverStep lib few)
      ⟨⟨nodup_nil, by simp⟩, by simp, by simp⟩ conds reached
  have whole : relay.serverWithoutMsg lib msg =
      if msg.id lib ∈ relay.knownMsgs then [] else relay.servers := by
    rw [Relay.serverWithoutMsg, Relay.servers]
    cases relay.scsServerList with
    | none => simp
    | some servers => rfl
  rw [whole]
  by_cases known : msg.id lib ∈ relay.knownMsgs
  · rw [if_pos known, eq_comm, filter_eq_nil_iff]
    intro scs connected
    simp [tracks.reached _ known scs connected]
  · rw [if_neg known, eq_comm, filter_eq_self]
    intro scs _
    rw [decide_eq_true_iff]
    rintro ⟨sent, inRequests, -, same⟩
    exact known (same ▸ tracks.marked sent inRequests)

def fullBroadcast : ScsPushMsg where
  type := [4]
  requestid := List.replicate 32 0
  subchainid := List.replicate 20 0

def pushToConsensus (order : List ScsServerConnection) : ServerEvent :=
  .push (fun _ _ => .consensusScs) order fullBroadcast

def bothConnected : List ServerEvent :=
  [.connect (bytesOf "scs-1"), .connect (bytesOf "scs-2"),
    pushToConsensus [⟨bytesOf "scs-2"⟩, ⟨bytesOf "scs-1"⟩]]

def relayAfter (events : List ServerEvent) : Relay :=
  (run (serverStep exampleLib) {} events).toOption.getD {}

theorem both_have_broadcast :
    (relayAfter bothConnected).serverWithoutMsg exampleLib fullBroadcast =
      (relayAfter bothConnected).servers.filter fun scs =>
        ¬ PushedTo exampleLib (relayAfter bothConnected) scs.scsId (fullBroadcast.id exampleLib) :=
  serverWithoutMsg_of_run exampleLib (show [(32 : Hash)].length < maxKnownMsgs by decide)
    (show EachStep (serverStep exampleLib) (Steady exampleLib [32]) {} bothConnected by
      decide +kernel)
    (show run (serverStep exampleLib) {} bothConnected = .ok (relayAfter bothConnected) from
      ok_of_isOk {} (by decide +kernel))
    fullBroadcast

/-- A second SCS connects after the broadcast was pushed to the first; it did not get the message,
and `ServerWithoutMsg` leaves it out. -/
theorem late_server_left_out :
    ∃ relay, run (serverStep exampleLib) {}
        [.connect (bytesOf "scs-1"), pushToConsensus [⟨bytesOf "scs-1"⟩],
          .connect (bytesOf "scs-2")] = .ok relay ∧
      relay.serverWithoutMsg exampleLib fullBroadcast = [] ∧
      ⟨bytesOf "scs-2"⟩ ∈ relay.servers ∧
      ¬ PushedTo exampleLib relay (bytesOf "scs-2") (fullBroadcast.id exampleLib) := by
  decide +kernel

end MoacVnode.NetworkRelay
