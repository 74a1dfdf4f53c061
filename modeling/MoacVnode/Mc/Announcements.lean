import MoacVnode.Mc.Fetcher

/-!
# The announcements of the block fetcher

`Fetcher.loop` moves an announcement to `fetching` when its timer runs out, adds it to `fetched`
once it has the header, and moves it to `completing` to get the body.  What the clock, the chain,
the peers and the import queue decide is part of an event.
-/

namespace MoacVnode.Mc

open MoacVnode.Core Lib List
open Function (update update_apply)

structure Announce where
  hash : Hash
  number : BitVec 64
  origin : String
  deriving DecidableEq

/-- The announcements in the maps of the fetcher, by hash. -/
structure Announcements where
  announces : String → Int := fun _ => 0
  announced : List Announce := []
  fetching : List Announce := []
  fetched : List Announce := []
  completing : List Announce := []

/-- A header, or a body that fits to a header, and what is found out about its block. -/
structure BlockAnswer where
  hash : Hash
  number : BitVec 64
  queued : Bool
  known : Bool
  empty : Bool
  /-- The import queue does not take the block. -/
  refused : Bool

inductive AnnounceEvent where
  | notify (op : Announce) (height : BitVec 64)
  | inject (hash : Hash) (refused : Bool)
  | done (hash : Hash)
  | expire (hashes : List Hash)
  /-- The announcements picked, and whether the chain has the block. -/
  | fetchTimer (picks : List (Announce × Bool))
  | completeTimer (picks : List (Announce × Bool))
  | headers (answers : List BlockAnswer)
  | bodies (answers : List BlockAnswer)

def has (announces : List Announce) (hash : Hash) : Bool := announces.any (·.hash = hash)

namespace Announcements

def hashLimit : Nat := 256

variable (f : Announcements)

def forgetHash (hash : Hash) : Announcements :=
  let gone := (f.announced ++ f.fetching ++ f.fetched ++ f.completing).filter (·.hash = hash)
  { announces := fun peer => f.announces peer - gone.countP (·.origin = peer)
    announced := f.announced.filter (·.hash ≠ hash)
    fetching := f.fetching.filter (·.hash ≠ hash)
    fetched := f.fetched.filter (·.hash ≠ hash)
    completing := f.completing.filter (·.hash ≠ hash) }

def notify (op : Announce) (height : BitVec 64) : Announcements :=
  let count := f.announces op.origin + 1
  let dist := (op.number - height).toInt
  if count > hashLimit then f
  else if op.number > 0 ∧ (dist < -Fetcher.maxUncleDist ∨ dist > Fetcher.maxQueueDist) then f
  else if has f.fetching op.hash ∨ has f.completing op.hash then f
  else
    { f with
      announces := update f.announces op.origin count
      announced := op :: f.announced }

/-- What `enqueue` does to the announcements. -/
def enqueue (hash : Hash) (refused : Bool) : Announcements :=
  if refused then f.forgetHash hash else f

def fetch (pick : Announce × Bool) : Announcements :=
  if pick.1 ∈ f.announced then
    let rest := f.forgetHash pick.1.hash
    if pick.2 then rest else { rest with fetching := pick.1 :: rest.fetching }
  else f

def complete (pick : Announce × Bool) : Announcements :=
  if pick.1 ∈ f.fetched then
    let rest := f.forgetHash pick.1.hash
    if pick.2 then rest else { rest with completing := pick.1 :: rest.completing }
  else f

/-- One header, with the incomplete and the complete blocks so far. -/
def filterHeader : Announcements × List Announce × List BlockAnswer → BlockAnswer →
    Announcements × List Announce × List BlockAnswer
  | (f, incomplete, blocks), answer =>
    match f.fetching.find? (·.hash = answer.hash) with
    | none => (f, incomplete, blocks)
    | some announce =>
      if has f.fetched answer.hash ∨ has f.completing answer.hash ∨ answer.queued then
        (f, incomplete, blocks)
      else if answer.number ≠ announce.number ∨ answer.known then
        (f.forgetHash answer.hash, incomplete, blocks)
      else if answer.empty then
        ({ f with completing := announce :: f.completing }, incomplete, blocks ++ [answer])
      else (f, incomplete ++ [announce], blocks)

def filterBody : Announcements × List BlockAnswer → BlockAnswer → Announcements × List BlockAnswer
  | (f, blocks), answer =>
    if answer.queued ∨ ¬ has f.completing answer.hash then (f, blocks)
    else if answer.known then (f.forgetHash answer.hash, blocks)
    else (f, blocks ++ [answer])

def enqueueAll (blocks : List BlockAnswer) : Announcements :=
  blocks.foldl (fun f block =>
    if has f.completing block.hash then f.enqueue block.hash block.refused else f) f

def next : AnnounceEvent → Announcements
  | .notify op height => f.notify op height
  | .inject hash refused => f.enqueue hash refused
  | .done hash => f.forgetHash hash
  | .expire hashes =>
    hashes.foldl (fun f hash => if has f.fetching hash then f.forgetHash hash else f) f
  | .fetchTimer picks => picks.foldl fetch f
  | .completeTimer picks => picks.foldl complete f
  | .headers answers =>
    let (f, incomplete, blocks) := answers.foldl filterHeader (f, [], [])
    (incomplete.foldl (fun f announce => if has f.completing announce.hash then f
      else { f with fetched := announce :: f.fetched }) f).enqueueAll blocks
  | .bodies answers =>
    let (f, blocks) := answers.foldl filterBody (f, [])
    f.enqueueAll blocks

/-- The announcements held of a peer; one that is fetched is in two maps. -/
def held (peer : String) : Nat :=
  f.announced.countP (·.origin = peer) +
    (f.fetching ++ f.fetched ++ f.completing).dedup.countP (·.origin = peer)

structure Counted : Prop where
  counted : ∀ peer, f.announces peer = f.held peer
  limited : ∀ peer, f.held peer ≤ hashLimit

/-- The timer fetches no block: the chain has all those that are due. -/
def FetchesNothing : AnnounceEvent → Prop
  | .fetchTimer picks => ∀ pick ∈ picks, pick.1 ∈ f.announced → pick.2 = true
  | _ => True

/-- The fetcher before it fetches a block. -/
structure Waiting : Prop where
  fetching : f.fetching = []
  fetched : f.fetched = []
  completing : f.completing = []
  counted : ∀ peer, f.announces peer = f.announced.countP (·.origin = peer)
  limited : ∀ peer, f.announces peer ≤ hashLimit

variable {f}

namespace Waiting

variable (waiting : f.Waiting)

include waiting

theorem isCounted : f.Counted := by
  have same (peer : String) : f.announces peer = f.held peer := by
    simp [held, waiting.fetching, waiting.fetched, waiting.completing, waiting.counted]
  refine ⟨same, fun peer => ?_⟩
  have limited := waiting.limited peer
  rw [same] at limited
  exact_mod_cast limited

theorem forgetHash (hash : Hash) : (f.forgetHash hash).Waiting := by
  constructor
  · simp [Announcements.forgetHash, waiting.fetching]
  · simp [Announcements.forgetHash, waiting.fetched]
  · simp [Announcements.forgetHash, waiting.completing]
  · intro peer
    have whole := f.announced.countP_eq_countP_filter_add (·.origin = peer) (·.hash = hash)
    simp only [Announcements.forgetHash, waiting.fetching, waiting.fetched, waiting.completing,
      waiting.counted, whole]
    simp
  · intro peer
    have limited := waiting.limited peer
    simp only [Announcements.forgetHash]
    omega

theorem notify (op : Announce) (height : BitVec 64) : (f.notify op height).Waiting := by
  unfold Announcements.notify
  dsimp only
  split_ifs with full
  · exact waiting
  · exact waiting
  · exact waiting
  · refine ⟨waiting.fetching, waiting.fetched, waiting.completing, fun peer => ?_, fun peer => ?_⟩
    · by_cases same : op.origin = peer
      · simp [← same, waiting.counted]
      · simpa [Ne.symm same, same] using waiting.counted peer
    · have limited := waiting.limited peer
      simp only [update_apply]
      split <;> omega

theorem fetch {picks : List (Announce × Bool)}
    (nothing : ∀ pick ∈ picks, pick.1 ∈ f.announced → pick.2 = true) :
    (picks.foldl Announcements.fetch f).Waiting := by
  induction picks generalizing f with
  | nil => exact waiting
  | cons pick picks ih =>
    obtain ⟨first, rest⟩ := forall_mem_cons.mp nothing
    rw [foldl_cons, Announcements.fetch]
    split
    · rename_i due
      rw [if_pos (first due)]
      exact ih (waiting.forgetHash _) fun other mem isDue =>
        rest other mem (mem_filter.mp isDue).1
    · exact ih waiting rest

theorem next {event : AnnounceEvent} (nothing : f.FetchesNothing event) :
    (f.next event).Waiting := by
  cases event with
  | notify op height => exact waiting.notify op height
  | inject hash refused =>
    cases refused
    · exact waiting
    · exact waiting.forgetHash hash
  | done hash => exact waiting.forgetHash hash
  | fetchTimer picks => exact waiting.fetch nothing
  | expire hashes =>
    rw [Announcements.next, foldl_fixed' fun hash => by simp [has, waiting.fetching]]
    exact waiting
  | completeTimer picks =>
    rw [Announcements.next, foldl_fixed' fun pick => by simp [complete, waiting.fetched]]
    exact waiting
  | headers answers =>
    rw [Announcements.next, foldl_fixed' fun answer => by simp [filterHeader, waiting.fetching]]
    exact waiting
  | bodies answers =>
    rw [Announcements.next, foldl_fixed' fun answer => by
      simp [filterBody, has, waiting.completing]]
    exact waiting

end Waiting

/-- Before a block is fetched the counters are those of the announcements held. -/
theorem announces_of_run (events : List AnnounceEvent)
    (nothing : EachFold next FetchesNothing {} events) : (events.foldl next {}).Counted := by
  have waiting : (events.foldl next {}).Waiting :=
    foldl_invariant Waiting (fun kept nothing => kept.next nothing)
      ⟨rfl, rfl, rfl, fun _ => rfl, fun _ => Int.natCast_nonneg _⟩ nothing
  exact waiting.isCounted

theorem imported_announcement_forgotten :
    let events := [.notify ⟨7, 1, "a"⟩ 0, .fetchTimer [(⟨7, 1, "a"⟩, true)]]
    (events.foldl next {}).Counted :=
  announces_of_run _ ⟨trivial, by simp [FetchesNothing], trivial⟩

/-- A block is announced and fetched, and the fetch times out. -/
theorem fetched_announcement_uncounted :
    let fetched := [.notify ⟨7, 1, "a"⟩ 0, .fetchTimer [(⟨7, 1, "a"⟩, false)]].foldl next {}
    fetched.held "a" = 1 ∧ fetched.announces "a" = 0 ∧
      (fetched.next (.expire [7])).announces "a" = -1 := by
  decide +kernel

end Announcements

end MoacVnode.Mc
