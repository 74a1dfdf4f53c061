import MoacVnode.Lib.Run

/-!
# Messages relayed to a subnet

`shardingBroadcastLoop` hands a message to the peers of its subnet, or buffers it, while
`subnetBufferedMsgBroadcastLoop` sends and clears the buffer.  Both loops keep the subnets apart, so
that the messages of one subnet are looked at.  The peers that a loop finds are part of an event.
-/

namespace MoacVnode.Mc

open Lib List

structure SubnetRelay (Msg : Type) where
  pushMsgBuffer : List Msg := []
  /-- While the buffer is sent: what is left of the `msgBuffer` that was read. -/
  flush : Option (List Msg) := none
  /-- The messages taken from `scsMsgChan`. -/
  taken : List Msg := []
  /-- The messages handed to a set that had peers. -/
  handed : List Msg := []

inductive RelayEvent (Msg : Type) where
  /-- A message is taken; the subnet has no set or one with so many peers. -/
  | take (msg : Msg) (peerSet : Option Nat)
  | readBuffer (peers : Nat)
  | sendBuffered (peers : Nat)
  | clearBuffer

namespace SubnetRelay

variable {Msg : Type} (r : SubnetRelay Msg)

/-- A set without peers sends the message to nobody. -/
def broadcastPushMsgToPeerSet (msg : Msg) (peers : Nat) : SubnetRelay Msg :=
  if 0 < peers then { r with handed := r.handed ++ [msg] } else r

def next : RelayEvent Msg → SubnetRelay Msg
  | .take msg none =>
    { r with pushMsgBuffer := r.pushMsgBuffer ++ [msg], taken := r.taken ++ [msg] }
  | .take msg (some peers) =>
    { r.broadcastPushMsgToPeerSet msg peers with taken := r.taken ++ [msg] }
  | .readBuffer peers =>
    if r.flush.isNone ∧ 0 < peers then { r with flush := some r.pushMsgBuffer } else r
  | .sendBuffered peers =>
    match r.flush with
    | some (msg :: rest) => { r.broadcastPushMsgToPeerSet msg peers with flush := some rest }
    | _ => r
  | .clearBuffer =>
    match r.flush with
    | some [] => { r with pushMsgBuffer := [], flush := none }
    | _ => r

def unsent : List Msg := r.flush.getD r.pushMsgBuffer

/-- Every message taken is in the buffer and not yet sent, or was handed to peers once. -/
structure Relays : Prop where
  kept : r.taken.Perm (r.handed ++ r.unsent)
  buffered : r.unsent <:+ r.pushMsgBuffer

/-- A set that is handed a message has peers, and no message is buffered while the buffer is being
sent. -/
def Steady : RelayEvent Msg → Prop
  | .take _ none => r.flush.isNone
  | .take _ (some peers) | .sendBuffered peers => 0 < peers
  | _ => True

instance : DecidablePred r.Steady := fun event => by unfold Steady; split <;> infer_instance

variable {r}

namespace Relays

variable (relays : r.Relays)

include relays

theorem take {msg : Msg} {peerSet : Option Nat} (steady : r.Steady (.take msg peerSet)) :
    (r.next (.take msg peerSet)).Relays := by
  have kept := relays.kept
  cases peerSet with
  | none =>
    have idle : r.flush = none := Option.isNone_iff_eq_none.mp steady
    simp only [unsent, idle] at kept
    refine ⟨?_, by simp [SubnetRelay.next, unsent, idle]⟩
    simp only [SubnetRelay.next, unsent, idle, Option.getD_none]
    rw [← append_assoc]
    exact kept.append_right [msg]
  | some peers =>
    rw [SubnetRelay.next, broadcastPushMsgToPeerSet, if_pos (show 0 < peers from steady)]
    refine ⟨?_, relays.buffered⟩
    rw [append_assoc]
    exact (perm_append_singleton msg r.taken).trans ((kept.cons msg).trans perm_middle.symm)

theorem sendBuffered {peers : Nat} (hasPeers : 0 < peers) :
    (r.next (.sendBuffered peers)).Relays := by
  obtain ⟨kept, buffered⟩ := relays
  rw [SubnetRelay.next]
  split
  · rename_i msg rest sending
    rw [unsent, sending, Option.getD_some] at kept buffered
    rw [broadcastPushMsgToPeerSet, if_pos hasPeers]
    refine ⟨?_, (suffix_cons msg rest).trans buffered⟩
    rwa [append_assoc]
  · exact ⟨kept, buffered⟩

theorem next {event : RelayEvent Msg} (steady : r.Steady event) : (r.next event).Relays := by
  cases event with
  | take msg peerSet => exact relays.take steady
  | readBuffer peers =>
    rw [SubnetRelay.next]
    split
    · rename_i reads
      have idle : r.flush = none := Option.isNone_iff_eq_none.mp reads.1
      exact ⟨by simpa [unsent, idle] using relays.kept, suffix_rfl⟩
    · exact relays
  | sendBuffered peers => exact relays.sendBuffered steady
  | clearBuffer =>
    rw [SubnetRelay.next]
    split
    · rename_i sent
      exact ⟨by simpa [unsent, sent] using relays.kept, suffix_rfl⟩
    · exact relays

end Relays

/-- In every steady run, a message that was taken waits in the buffer or was handed on once. -/
theorem messages_relayed_of_run (events : List (RelayEvent Msg))
    (steady : EachFold next Steady {} events) : (events.foldl next {}).Relays :=
  foldl_invariant Relays (fun relays steady => relays.next steady) ⟨Perm.refl _, suffix_rfl⟩ steady

theorem buffered_message_relayed :
    ([.take 1 none, .readBuffer 1, .sendBuffered 1, .clearBuffer].foldl next {}).Relays :=
  messages_relayed_of_run _ (by decide)

/-- A message that is buffered after the buffer was read is cleared with it, and one that comes
when the set has no peers is handed to none. -/
theorem message_lost :
    let lost := [.take 1 none, .readBuffer 1, .sendBuffered 1, .take 2 none, .clearBuffer].foldl
      next {}
    let missed := [.take 1 (some 0)].foldl next {}
    (lost.taken = [1, 2] ∧ lost.handed = [1] ∧ lost.pushMsgBuffer = []) ∧
      missed.taken = [1] ∧ missed.handed = [] ∧ missed.pushMsgBuffer = [] := by
  decide

end SubnetRelay

end MoacVnode.Mc
