import MoacVnode.Lib.Run

/-!
# Peers of the mainnet and of the subnets

Every network has its own set of peers; the downloader knows those of the mainnet, by an id that a
node has on all networks.
-/

namespace MoacVnode.Mc

open Lib
open Function (update update_self update_of_ne)

def mainnet : String := "mainnet"

structure Networks where
  /-- `peerSet` and `subnetPeerSets` by the name of the network; a set that was not made is empty.
    -/
  peers : String → Finset String := fun _ => ∅
  /-- The peers registered in the downloader. -/
  downloader : Finset String := ∅
  cancelPeer : String := ""
  /-- A sync runs and its `cancelCh` is open. -/
  syncing : Bool := false

inductive NetworkEvent where
  /-- `welcome` tells whether the handshake succeeds and the set of peers is open. -/
  | connect (id subnet : String) (welcome : Bool)
  | disconnect (id subnet : String)
  | removeSubnet (subnet : String)
  | synchronise (id : String)
  | syncEnd

namespace Networks

variable (nets : Networks) (id subnet : String)

def unregisterPeer : Networks :=
  if id ∈ nets.downloader then
    { nets with
      downloader := nets.downloader.erase id
      syncing := nets.syncing && id != nets.cancelPeer }
  else nets

def removePeer : Networks :=
  if id ∈ nets.peers subnet then
    { nets.unregisterPeer id with peers := update nets.peers subnet ((nets.peers subnet).erase id) }
  else nets

/-- `runPeer` until it handles messages; a peer that the downloader refuses is removed. -/
def runPeer (maxPeers : Nat) (welcome : Bool) : Networks :=
  if (nets.peers subnet).card ≥ maxPeers ∨ welcome = false ∨ id ∈ nets.peers subnet then nets
  else
    let nets := { nets with peers := update nets.peers subnet (insert id (nets.peers subnet)) }
    if subnet ≠ mainnet then nets
    else if id ∈ nets.downloader then nets.removePeer id subnet
    else { nets with downloader := insert id nets.downloader }

def next (maxPeers : Nat) (nets : Networks) : NetworkEvent → Networks
  | .connect id subnet welcome => nets.runPeer id subnet maxPeers welcome
  | .disconnect id subnet => nets.removePeer id subnet
  | .removeSubnet subnet =>
    if subnet = mainnet then nets else { nets with peers := update nets.peers subnet ∅ }
  | .synchronise id => { nets with cancelPeer := id, syncing := true }
  | .syncEnd => { nets with syncing := false }

/-- The event leaves the downloader with the peers of the mainnet and cancels a sync only if it
removes the master peer from the mainnet. -/
structure KeepsSync (maxPeers : Nat) (event : NetworkEvent) : Prop where
  sameIds : (nets.next maxPeers event).downloader = (nets.next maxPeers event).peers mainnet
  cancels : nets.syncing = true → (nets.next maxPeers event).syncing = false →
    event = .syncEnd ∨
      event = .disconnect nets.cancelPeer mainnet ∧ nets.cancelPeer ∈ nets.peers mainnet

/-- The id of a peer that leaves a subnet is not connected to the mainnet. -/
def LeavesApart : NetworkEvent → Prop
  | .disconnect id subnet => subnet ≠ mainnet → id ∈ nets.peers subnet → id ∉ nets.peers mainnet
  | _ => True

variable {nets} {maxPeers : Nat}

theorem KeepsSync.of_syncing {event : NetworkEvent}
    (sameIds : (nets.next maxPeers event).downloader = (nets.next maxPeers event).peers mainnet)
    (goesOn : (nets.next maxPeers event).syncing = nets.syncing) : nets.KeepsSync maxPeers event :=
  ⟨sameIds, fun running stopped => absurd (stopped.symm.trans goesOn) (by simp [running])⟩

theorem keepsSync_iff (same : nets.downloader = nets.peers mainnet) (event : NetworkEvent) :
    nets.KeepsSync maxPeers event ↔ nets.LeavesApart event := by
  cases event with
  | connect id subnet welcome =>
    refine iff_of_true ?_ trivial
    by_cases refused :
        (nets.peers subnet).card ≥ maxPeers ∨ welcome = false ∨ id ∈ nets.peers subnet
    · refine .of_syncing ?_ ?_ <;> rw [next, runPeer, if_pos refused]
      exact same
    · by_cases main : subnet = mainnet
      · subst main
        have new : id ∉ nets.peers mainnet := fun known => refused (.inr (.inr known))
        refine .of_syncing ?_ ?_ <;> rw [next, runPeer, if_neg refused] <;> simp [same, new]
      · refine .of_syncing ?_ ?_ <;> rw [next, runPeer, if_neg refused] <;>
          simp [main, same, update_of_ne (Ne.symm main)]
  | disconnect id subnet =>
    by_cases present : id ∈ nets.peers subnet
    · by_cases main : subnet = mainnet
      · subst main
        refine iff_of_true ⟨?_, fun running stopped => .inr ?_⟩ (absurd rfl)
        · simp [next, removePeer, unregisterPeer, present, same]
        · simp_all [next, removePeer, unregisterPeer]
      · by_cases both : id ∈ nets.peers mainnet
        · refine iff_of_false (fun keeps => ?_) fun apart => apart main present both
          have lost := keeps.sameIds
          simp_all [next, removePeer, unregisterPeer, update_of_ne (Ne.symm main)]
        · refine iff_of_true (.of_syncing ?_ ?_) fun _ _ => both
          · simp [next, removePeer, unregisterPeer, present, both, same,
              update_of_ne (Ne.symm main)]
          · simp [next, removePeer, unregisterPeer, present, both, same]
    · refine iff_of_true (.of_syncing ?_ ?_) fun _ inside => absurd inside present <;>
        rw [next, removePeer, if_neg present]
      exact same
  | removeSubnet subnet =>
    refine iff_of_true ?_ trivial
    by_cases main : subnet = mainnet
    · refine .of_syncing ?_ ?_ <;> rw [next, if_pos main]
      exact same
    · refine .of_syncing ?_ ?_ <;> rw [next, if_neg main]
      exact same.trans (update_of_ne (Ne.symm main) _ _).symm
  | synchronise id => exact iff_of_true ⟨same, nofun⟩ trivial
  | syncEnd => exact iff_of_true ⟨same, fun _ _ => .inl rfl⟩ trivial

/-- The mainnet and the downloader keep the same peers, and no sync is cancelled for another net,
in a run if and only if no node leaves a subnet while it is a peer of the mainnet. -/
theorem mainnet_sync_iff (maxPeers : Nat) (events : List NetworkEvent) :
    EachFold (next maxPeers) (KeepsSync · maxPeers) {} events ↔
      EachFold (next maxPeers) LeavesApart {} events := by
  have from_same {nets : Networks} (same : nets.downloader = nets.peers mainnet) :
      EachFold (next maxPeers) (KeepsSync · maxPeers) nets events ↔
        EachFold (next maxPeers) LeavesApart nets events := by
    induction events generalizing nets with
    | nil => rfl
    | cons event events ih =>
      have later := and_congr_right fun keeps : nets.KeepsSync maxPeers event => ih keeps.sameIds
      exact later.trans (and_congr_left' (keepsSync_iff same event))
  exact from_same rfl

/-- A node leaves a subnet while the mainnet syncs with it. -/
theorem leaving_subnet_cancels_sync :
    let nets := [.connect "a" mainnet true, .connect "a" "s" true, .synchronise "a",
      .disconnect "a" "s"].foldl (next 25) {}
    nets.peers mainnet = {"a"} ∧ nets.downloader = ∅ ∧ nets.syncing = false := by
  decide +kernel

end Networks

end MoacVnode.Mc
