import MoacVnode.Core.Types
import MoacVnode.Lib.Run

/-!
# The chain indexer

The indexer cuts the canonical chain into sections and stores the hash of the last block of
every section that it has processed.  `newHead` tells it of new heads and of reorganisations;
`updateLoop` processes one section at a time.  It holds the lock when it picks the section and
when it stores the result, but not while it reads the blocks of the section, so the canonical
chain can change meanwhile.

Child indexers, which are notified in turn, are left out, and so are the log messages.
-/

namespace MoacVnode.Core

open Lib

structure IndexerConfig where
  sectionSize : Nat
  sectionSize_pos : 0 < sectionSize
  confirmsReq : Nat

inductive Notification where
  | reorg (ancestor : Nat)
  | head (num : Nat)
  deriving DecidableEq, Repr

inductive SectionError where
  /-- `canonical block #%d unknown`. -/
  | unknown (num : Nat)
  /-- `chain reorged during section processing`. -/
  | reorged
  /-- The backend could not commit the section. -/
  | backend
  deriving DecidableEq, Repr

/-- How far `processSection` has got. -/
inductive Progression where
  | reading (num : Nat) (lastHead : Hash)
  | returned (res : Except SectionError Hash)

structure SectionJob where
  sectionNumber : Nat
  oldHead : Hash
  progression : Progression

structure ChainIndexer where
  storedSections : Nat := 0
  knownSections : Nat := 0
  cascadedHead : Nat := 0
  /-- The section heads in the index database; a missing one reads as the empty hash. -/
  sectionHead : Nat → Hash := fun _ => emptyHash
  /-- The channel `update` holds a signal. -/
  update : Bool := false
  /-- The timers that will send another signal. -/
  timers : Nat := 0
  job : Option SectionJob := none

namespace ChainIndexer

def removeSectionHeads (sections : Nat) : Nat → (Nat → Hash) → (Nat → Hash)
  | 0, heads => heads
  | stored + 1, heads =>
    if sections < stored + 1 then
      removeSectionHeads sections stored (Function.update heads stored emptyHash)
    else heads

variable (indexer : ChainIndexer)

def setValidSections (sections : Nat) : ChainIndexer :=
  { indexer with
    sectionHead := removeSectionHeads sections indexer.storedSections indexer.sectionHead
    storedSections := sections }

def setSectionHead (num : Nat) (head : Hash) : ChainIndexer :=
  { indexer with sectionHead := Function.update indexer.sectionHead num head }

variable (config : IndexerConfig)

def newHead (indexer : ChainIndexer) : Notification → ChainIndexer
  | .reorg ancestor =>
    let changed := ancestor / config.sectionSize
    let known := { indexer with knownSections := min changed indexer.knownSections }
    let reverted := if changed < known.storedSections then known.setValidSections changed else known
    { reverted with cascadedHead := min (changed * config.sectionSize) reverted.cascadedHead }
  | .head num =>
    let sections := (num + 1 - config.confirmsReq) / config.sectionSize
    if config.confirmsReq ≤ num ∧ indexer.knownSections < sections then
      { indexer with knownSections := sections, update := true }
    else indexer

def pickSection (indexer : ChainIndexer) : ChainIndexer :=
  let num := indexer.storedSections
  let oldHead := if 0 < num then indexer.sectionHead (num - 1) else emptyHash
  if num < indexer.knownSections then
    { indexer with
      update := false
      job :=
        some
          { sectionNumber := num
            oldHead := oldHead
            progression := .reading (num * config.sectionSize) oldHead } }
  else { indexer with update := false }

/-- The section is stored, unless the head of the section before it has changed. -/
def storeSection (indexer : ChainIndexer) (job : SectionJob) :
    Except SectionError Hash → ChainIndexer
  | .ok head =>
    if job.oldHead = indexer.sectionHead (prev64 job.sectionNumber) then
      { (indexer.setSectionHead job.sectionNumber head).setValidSections
          (job.sectionNumber + 1) with
        cascadedHead := (job.sectionNumber + 1) * config.sectionSize - 1 }
    else { indexer with knownSections := indexer.storedSections }
  | .error _ => { indexer with knownSections := indexer.storedSections }

/-- `updateLoop` goes on to its next signal, for which it sets a timer if there are more
sections to process. -/
def reschedule : ChainIndexer :=
  { indexer with
    job := none
    timers :=
      if indexer.storedSections < indexer.knownSections then indexer.timers + 1
      else indexer.timers }

end ChainIndexer

def commonLength : List Header → List Header → Nat
  | old :: olds, new :: news => if old = new then commonLength olds news + 1 else 0
  | _, _ => 0

def canonicalHash (chain : List Header) (num : Nat) : Hash :=
  (chain[num]?.map Header.hash).getD emptyHash

/-- The canonical chain, the notifications that are still to be made, and the indexer. -/
structure IndexedChain where
  chain : List Header
  waiting : List Notification := []
  indexer : ChainIndexer := {}

/-- What happens around the indexer and inside it. -/
inductive IndexerInput where
  | setCanonical (chain : List Header)
  | notify
  | pick
  | read
  | backendCommit (committed : Bool)
  | store
  | timer

inductive NotEnabled where
  | notEnabled
  deriving DecidableEq

/-- `eventLoop` announces a reorganisation, with the last common block, unless the new head is a
child of the old one. -/
def notifications (old new : List Header) : List Notification :=
  if new.dropLast = old then [.head (new.length - 1)]
  else [.reorg (commonLength old new - 1), .head (new.length - 1)]

def readBlock (chain : List Header) (num : Nat) (lastHead : Hash) : Progression :=
  match chain[num]? with
  | none => .returned (.error (.unknown num))
  | some header =>
    if header.hash = emptyHash then .returned (.error (.unknown num))
    else if header.parentHash ≠ lastHead then .returned (.error .reorged)
    else .reading (num + 1) header.hash

namespace IndexedChain

def setProgression (state : IndexedChain) (job : SectionJob) (progression : Progression) :
    IndexedChain :=
  { state with
    indexer := { state.indexer with job := some { job with progression := progression } } }

def step (config : IndexerConfig) (state : IndexedChain) :
    IndexerInput → Except NotEnabled IndexedChain
  | .setCanonical chain =>
    if 0 < commonLength state.chain chain ∧ chain.length < uint64Size then
      .ok
        { state with
          chain := chain
          waiting := state.waiting ++ notifications state.chain chain }
    else .error .notEnabled
  | .notify =>
    match state.waiting with
    | [] => .error .notEnabled
    | notification :: waiting =>
      .ok
        { state with
          waiting := waiting
          indexer := state.indexer.newHead config notification }
  | .pick =>
    if state.indexer.update ∧ state.indexer.job.isNone then
      .ok { state with indexer := state.indexer.pickSection config }
    else .error .notEnabled
  | .read =>
    match state.indexer.job with
    | some ⟨num, oldHead, .reading next lastHead⟩ =>
      if next < (num + 1) * config.sectionSize then
        .ok (state.setProgression ⟨num, oldHead, .reading next lastHead⟩
          (readBlock state.chain next lastHead))
      else .error .notEnabled
    | _ => .error .notEnabled
  | .backendCommit committed =>
    match state.indexer.job with
    | some ⟨num, oldHead, .reading next lastHead⟩ =>
      if next < (num + 1) * config.sectionSize then .error .notEnabled
      else
        .ok (state.setProgression ⟨num, oldHead, .reading next lastHead⟩
          (.returned (if committed then .ok lastHead else .error .backend)))
    | _ => .error .notEnabled
  | .store =>
    match state.indexer.job with
    | some ⟨num, oldHead, .returned res⟩ =>
      .ok
        { state with
          indexer :=
            (state.indexer.storeSection config ⟨num, oldHead, .returned res⟩ res).reschedule }
    | _ => .error .notEnabled
  | .timer =>
    if 0 < state.indexer.timers then
      .ok
        { state with
          indexer := { state.indexer with update := true, timers := state.indexer.timers - 1 } }
    else .error .notEnabled

end IndexedChain

end MoacVnode.Core
