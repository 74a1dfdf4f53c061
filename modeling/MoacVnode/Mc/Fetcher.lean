import MoacVnode.Core.TxPoolOps

/-!
# The import queue of the block fetcher

`Fetcher.loop` keeps the blocks it is sent in a priority queue until they fit on the chain, and
imports each of them in a goroutine of its own.
-/

namespace MoacVnode.Mc

open MoacVnode.Core Multiset Relation
open Function (update update_apply)

/-- A block to import, by its hash and number, with the peer that sent it. -/
structure Inject where
  origin : String
  hash : Hash
  number : BitVec 64
  deriving DecidableEq

/-- The priority in the import queue is `-rank`. -/
def Inject.rank (op : Inject) : Nat := float32 op.number.toNat

structure Fetcher where
  queue : Multiset Inject := 0
  queues : String → Int := fun _ => 0
  queued : Hash → Option Inject := fun _ => none
  /-- The imports whose goroutine has not been heard on `done`. -/
  running : Multiset Inject := 0

namespace Fetcher

def maxUncleDist : Nat := 7

def maxQueueDist : Nat := 32

def blockLimit : Nat := 64

variable (f : Fetcher) (height : BitVec 64) (op : Inject)

def enqueue : Fetcher :=
  let count := f.queues op.origin + 1
  let dist := (op.number - height).toInt
  if count > blockLimit then f
  else if dist < -maxUncleDist ∨ dist > maxQueueDist then f
  else if (f.queued op.hash).isSome then f
  else
    { f with
      queues := update f.queues op.origin count
      queued := update f.queued op.hash (some op)
      queue := op ::ₘ f.queue }

def forgetBlock (hash : Hash) : Fetcher :=
  match f.queued hash with
  | none => f
  | some insert =>
    { f with
      queues := update f.queues insert.origin (f.queues insert.origin - 1)
      queued := update f.queued hash none }

/-- `PopItem` may take this element: none has a higher priority. -/
def Pops (queue : Multiset Inject) : Prop := op ∈ queue ∧ ∀ other ∈ queue, op.rank ≤ other.rank

/-- What the loop does with a block that is due; `known` tells whether the chain has it. -/
def importDue (known : Bool) : Fetcher :=
  let f := { f with queue := f.queue.erase op }
  if op.number + maxUncleDist < height ∨ known then f.forgetBlock op.hash
  else { f with running := op ::ₘ f.running }

/-- The loop over the import queue; a block that is too early is pushed back. -/
inductive Drains : Fetcher → Fetcher → Prop
  | empty {f : Fetcher} (isEmpty : f.queue = 0) : Drains f f
  | future {f : Fetcher} {op : Inject} (popped : Pops op f.queue) (later : op.number > height + 1) :
    Drains f f
  | due {f g : Fetcher} {op : Inject} (popped : Pops op f.queue)
    (notLater : ¬ op.number > height + 1) (known : Bool)
    (after : Drains (f.importDue height op known) g) : Drains f g

/-- A block arrives, the loop passes over the queue, or an import ends. -/
inductive Step : Fetcher → Prop
  | enqueue (height : BitVec 64) (op : Inject) : Step (f.enqueue height op)
  | pass {height : BitVec 64} {g : Fetcher} (drains : Drains height f g) : Step g
  | done {op : Inject} (isRunning : op ∈ f.running) :
    Step ({ f with running := f.running.erase op }.forgetBlock op.hash)

variable {f height op}

/-- Each hash is held once, and the maps of the fetcher are those of the blocks held. -/
structure Tracks (held : Multiset Inject) (queued : Hash → Option Inject) (queues : String → Int) :
    Prop where
  distinct : (held.map Inject.hash).Nodup
  queued_iff : ∀ {hash op}, queued hash = some op ↔ op ∈ held ∧ op.hash = hash
  counted : ∀ peer, queues peer = held.countP (·.origin = peer)
  limited : ∀ peer, queues peer ≤ blockLimit

/-- The blocks held are those in the queue and those being imported. -/
def Tracked (f : Fetcher) : Prop := Tracks (f.queue + f.running) f.queued f.queues

namespace Tracks

theorem forget (tracks : Tracks (op ::ₘ (f.queue + f.running)) f.queued f.queues) :
    (f.forgetBlock op.hash).Tracked := by
  have distinct := tracks.distinct
  have queued_iff := @tracks.queued_iff
  have counted := tracks.counted
  rw [map_cons, nodup_cons] at distinct
  rw [forgetBlock, queued_iff.mpr ⟨mem_cons_self _ _, rfl⟩]
  refine ⟨distinct.2, ?_, fun peer => ?_, fun peer => ?_⟩
  · grind [update_apply, mem_map]
  · by_cases same : op.origin = peer
    · simp [← same, counted]
    · simpa [Ne.symm same, same] using counted peer
  · have before := tracks.limited peer
    simp only [update_apply]
    split <;> grind

theorem add {held : Multiset Inject} {queued : Hash → Option Inject} {queues : String → Int}
    (tracks : Tracks held queued queues) (new : queued op.hash = none)
    (fits : queues op.origin + 1 ≤ blockLimit) :
    Tracks (op ::ₘ held) (update queued op.hash (some op))
      (update queues op.origin (queues op.origin + 1)) := by
  have queued_iff := @tracks.queued_iff
  have counted := tracks.counted
  refine ⟨?_, ?_, fun peer => ?_, fun peer => ?_⟩
  · rw [map_cons, nodup_cons]
    refine ⟨fun listed => ?_, tracks.distinct⟩
    obtain ⟨old, mem, same⟩ := mem_map.mp listed
    exact absurd (queued_iff.mpr ⟨mem, same⟩) (by simp [new])
  · grind [update_apply]
  · by_cases same : op.origin = peer
    · simp [← same, counted]
    · simpa [Ne.symm same, same] using counted peer
  · have before := tracks.limited peer
    grind [update_apply]

end Tracks

theorem Tracked.drains (tracks : f.Tracked) (drains : Drains height f g) : g.Tracked := by
  induction drains with
  | empty | future => exact tracks
  | @due f g op popped _ known _ ih =>
    have split := tracks
    rw [Tracked, ← cons_erase popped.1, cons_add] at split
    apply ih
    unfold importDue
    split
    · exact Tracks.forget (f := { f with queue := f.queue.erase op }) split
    · rwa [Tracked, add_cons]

theorem Tracked.step (tracks : f.Tracked) (step : Step f g) : g.Tracked := by
  cases step with
  | enqueue height op =>
    unfold Fetcher.enqueue
    dsimp only
    split_ifs with full _ known
    · exact tracks
    · exact tracks
    · exact tracks
    · rw [Tracked, cons_add]
      exact tracks.add (by simpa using known) (Int.not_lt.mp full)
  | pass drains => exact tracks.drains drains
  | @done op isRunning =>
    rw [Tracked, ← cons_erase isRunning, add_cons] at tracks
    exact Tracks.forget (f := { f with running := f.running.erase op }) tracks

/-- Whatever the order of the events, no hash is imported twice at once. -/
theorem import_queue_of_run (run : ReflTransGen Step {} f) : f.Tracked := by
  induction run with
  | refl => constructor <;> simp
  | tail _ step ih => exact ih.step step

theorem imported_block_tracked :
    ((enqueue {} 0 ⟨"a", 7, 1⟩).importDue 0 ⟨"a", 7, 1⟩ false).Tracked :=
  import_queue_of_run <| .tail (.single (.enqueue 0 ⟨"a", 7, 1⟩)) <|
    .pass (.due ⟨by decide, by decide⟩ (by decide) false (.empty rfl))

/-- Every block that is due is before every later one. -/
def Apart (height : BitVec 64) (queue : Multiset Inject) : Prop :=
  ∀ due ∈ queue, ∀ later ∈ queue, ¬ due.number > height + 1 → later.number > height + 1 →
    due.rank < later.rank

theorem queue_importDue (known : Bool) :
    (f.importDue height op known).queue = f.queue.erase op := by
  unfold importDue forgetBlock
  dsimp only
  split
  · split <;> rfl
  · rfl

/-- A later block may be popped before one that is due. -/
theorem exists_drains {due later : Inject} (isDue : due ∈ f.queue) (isLater : later ∈ f.queue)
    (future : later.number > height + 1) (behind : later.rank ≤ due.rank) :
    ∃ g, Drains height f g ∧ due ∈ g.queue := by
  induction size : card f.queue generalizing f with
  | zero => simp [card_eq_zero.mp size] at isDue
  | succ count ih =>
    obtain ⟨first, isFirst, least⟩ := exists_min_image Inject.rank (s := f.queue) (by
      rintro empty
      simp [empty] at isDue)
    rcases Nat.lt_or_eq_of_le (least later isLater) with less | equal
    · by_cases firstLater : first.number > height + 1
      · exact ⟨f, .future ⟨isFirst, least⟩ firstLater, isDue⟩
      · have remains {other : Inject} (isOther : other ∈ f.queue)
            (above : later.rank ≤ other.rank) :
            other ∈ (f.importDue height first true).queue := by
          rw [queue_importDue]
          refine (mem_erase_of_ne ?_).mpr isOther
          rintro rfl
          omega
        obtain ⟨g, drains, left⟩ := ih (remains isDue behind) (remains isLater (Nat.le_refl _))
          (by rw [queue_importDue, card_erase_of_mem isFirst, size, Nat.pred_succ])
        exact ⟨g, .due ⟨isFirst, least⟩ firstLater true drains, left⟩
    · exact ⟨f, .future ⟨isLater, fun other isOther => equal ▸ least other isOther⟩ future, isDue⟩

/-- A pass imports all that is due, with any choice of the block popped. -/
theorem drained_iff :
    (∀ g, Drains height f g → ∀ op ∈ g.queue, op.number > height + 1) ↔ Apart height f.queue := by
  constructor
  · intro drained due isDue later isLater notLater future
    by_contra behind
    obtain ⟨g, drains, left⟩ := exists_drains isDue isLater future (Nat.not_lt.mp behind)
    exact notLater (drained g drains due left)
  · intro apart g drains op mem
    induction drains with
    | empty isEmpty => simp [isEmpty] at mem
    | @future f first popped later =>
      by_contra notLater
      exact Nat.not_lt.mpr (popped.2 op mem) (apart op mem first popped.1 notLater later)
    | due _ _ _ _ ih =>
      refine ih ?_ mem
      rw [queue_importDue]
      intro due isDue later isLater
      exact apart due (mem_of_mem_erase isDue) later (mem_of_mem_erase isLater)

/-- The numbers `2 ^ 24` and `2 ^ 24 + 1` are the same float. -/
theorem due_block_left :
    ∃ g, Drains 16777215 { queue := {⟨"a", 7, 16777216⟩, ⟨"b", 8, 16777217⟩} } g ∧
      ∃ op ∈ g.queue, ¬ op.number > 16777215 + 1 := by
  obtain ⟨g, drains, left⟩ := @exists_drains
    { queue := {⟨"a", 7, 16777216⟩, ⟨"b", 8, 16777217⟩} } 16777215 ⟨"a", 7, 16777216⟩
    ⟨"b", 8, 16777217⟩ (by simp) (by simp) (by decide) (by decide +kernel)
  exact ⟨g, drains, _, left, by decide⟩

end Fetcher

end MoacVnode.Mc
