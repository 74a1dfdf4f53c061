import MoacVnode.Lib.Run

/-!
# The requests a light server works on at a time

A request that cannot start waits for `queueProc`, which looks at the counters under the lock and
closes its channel; it takes the lock again later.  What the recharging of the nodes adds to
`canStartReq` is part of an event.
-/

namespace MoacVnode.Les

open Lib Finset

structure ClientManager (Node : Type) where
  maxSimReq : BitVec 64
  simReqCnt : BitVec 64 := 0
  nodes : Finset Node := ∅
  /-- The nodes whose `serving` is set. -/
  serving : Finset Node := ∅
  /-- The nodes whose request gave up the lock and has not yet got it back. -/
  waiting : Finset Node := ∅
  /-- Those of them whose channel is closed. -/
  resumed : Finset Node := ∅

/-- `recharged` tells whether `rcSumValue < maxRcSum` after the update. -/
inductive ManagerEvent (Node : Type) where
  | addNode (node : Node)
  | removeNode (node : Node)
  | accept (node : Node) (recharged : Bool)
  | queueProc (node : Node) (recharged : Bool)
  /-- The request of the node gets the lock again. -/
  | resume (node : Node)
  | processed (node : Node)

namespace ClientManager

variable {Node : Type} [DecidableEq Node] (cm : ClientManager Node) (node : Node)

def canStartReq (recharged : Bool) : Bool := cm.simReqCnt < cm.maxSimReq && recharged

def start : ClientManager Node :=
  { cm with simReqCnt := cm.simReqCnt + 1, serving := insert node cm.serving }

def stop : ClientManager Node :=
  if node ∈ cm.serving then
    { cm with simReqCnt := cm.simReqCnt - 1, serving := cm.serving.erase node }
  else cm

/-- A node makes one request at a time. -/
def next : ManagerEvent Node → ClientManager Node
  | .addNode node => { cm with nodes := insert node cm.nodes }
  | .removeNode node => { cm.stop node with nodes := cm.nodes.erase node }
  | .accept node recharged =>
    if node ∈ cm.serving ∪ cm.waiting then cm
    else if cm.canStartReq recharged then cm.start node
    else { cm with waiting := insert node cm.waiting }
  | .queueProc node recharged =>
    if node ∈ cm.waiting ∧ cm.canStartReq recharged then
      { cm with resumed := insert node cm.resumed }
    else cm
  | .resume node =>
    if node ∈ cm.waiting ∩ cm.resumed then
      let cm := { cm with waiting := cm.waiting.erase node, resumed := cm.resumed.erase node }
      if node ∈ cm.nodes then cm.start node else cm
    else cm
  | .processed node => cm.stop node

structure Limited : Prop where
  counted : cm.simReqCnt.toNat = cm.serving.card
  limited : cm.simReqCnt ≤ cm.maxSimReq

/-- There still is room for a request when it gets the lock again. -/
def RoomLeft : ManagerEvent Node → Prop
  | .resume node => node ∈ cm.resumed → cm.simReqCnt < cm.maxSimReq
  | _ => True

structure Sound : Prop extends cm.Limited where
  idle : ∀ node ∈ cm.waiting, node ∉ cm.serving

variable {cm node}

namespace Sound

variable (sound : cm.Sound)

include sound

theorem start (room : cm.simReqCnt < cm.maxSimReq) (free : node ∉ cm.serving ∪ cm.waiting) :
    (cm.start node).Sound := by
  have counted := sound.counted
  rw [notMem_union] at free
  have more : (cm.simReqCnt + 1).toNat = cm.simReqCnt.toNat + 1 := by bv_omega
  refine ⟨⟨?_, BitVec.le_def.mpr (more ▸ room)⟩, fun other waits served => ?_⟩
  · rw [ClientManager.start, card_insert_of_notMem free.1, more, counted]
  · rcases mem_insert.mp served with rfl | served
    · exact free.2 waits
    · exact sound.idle other waits served

theorem stop (node : Node) : (cm.stop node).Sound := by
  unfold ClientManager.stop
  split
  · rename_i isServed
    have counted := sound.counted
    have limited := sound.limited
    have fewer := card_erase_add_one isServed
    refine ⟨⟨?_, ?_⟩, fun other waits served => sound.idle other waits (mem_of_mem_erase served)⟩
    · bv_omega
    · bv_omega
  · exact sound

theorem next {event : ManagerEvent Node} (room : cm.RoomLeft event) : (cm.next event).Sound := by
  cases event with
  | addNode node => exact { sound with }
  | removeNode node => exact { sound.stop node with }
  | accept node recharged =>
    rw [ClientManager.next]
    split_ifs with busy starts
    · exact sound
    · exact sound.start (of_decide_eq_true (Bool.and_eq_true_iff.mp starts).1) busy
    · refine { sound with idle := fun other waits served => ?_ }
      rcases mem_insert.mp waits with rfl | waits
      · exact busy (mem_union_left _ served)
      · exact sound.idle other waits served
  | queueProc node recharged =>
    rw [ClientManager.next]
    split
    · exact { sound with }
    · exact sound
  | resume node =>
    rw [ClientManager.next]
    split
    · rename_i isResumed
      rw [mem_inter] at isResumed
      have erased : Sound { cm with
          waiting := cm.waiting.erase node
          resumed := cm.resumed.erase node } :=
        { sound with idle := fun other waits => sound.idle other (mem_of_mem_erase waits) }
      dsimp only
      split
      · refine erased.start (room isResumed.2) (notMem_union.mpr ⟨?_, notMem_erase _ _⟩)
        exact sound.idle node isResumed.1
      · exact erased
    · exact sound
  | processed node => exact sound.stop node

end Sound

/-- If there is room for each request that is resumed, the counter is the number of requests being
served, and within the limit. -/
theorem requests_limited_of_run (maxSimReq : BitVec 64) (events : List (ManagerEvent Node))
    (room : EachFold next RoomLeft { maxSimReq } events) :
    (events.foldl next { maxSimReq }).Limited := by
  have sound : (events.foldl next { maxSimReq }).Sound :=
    foldl_invariant Sound (fun sound room => sound.next room) ⟨⟨rfl, Nat.zero_le _⟩, nofun⟩ room
  exact sound.toLimited

theorem resumed_request_limited :
    ([.addNode 1, .addNode 2, .accept 1 true, .accept 2 true, .processed 1, .queueProc 2 true,
      .resume 2].foldl next { maxSimReq := 1 }).Limited :=
  @requests_limited_of_run Nat _ 1 _
    ⟨trivial, trivial, trivial, trivial, trivial, trivial, fun _ => by decide, trivial⟩

/-- A third node is accepted before the one that was resumed takes the lock. -/
theorem resumed_request_exceeds_limit :
    let cm := [.addNode 1, .addNode 2, .addNode 3, .accept 1 true, .accept 2 true, .processed 1,
      .queueProc 2 true, .accept 3 true, .resume 2].foldl next { maxSimReq := 1 }
    cm.serving = {2, 3} ∧ cm.simReqCnt = 2 ∧ cm.maxSimReq = 1 := by
  decide

end ClientManager

end MoacVnode.Les
