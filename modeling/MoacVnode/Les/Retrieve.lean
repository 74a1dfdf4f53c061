import Mathlib.Tactic

/-!
# The retrieval of an answer from several peers

Each try of a request is made by a goroutine of its own, which reports to the loop that the request
was sent, passed its soft timeout, was answered or passed its hard timeout.
-/

namespace MoacVnode.Les

inductive ReqState where
  | requesting | noMorePeers | stopped
  /-- The loop has ended and removed the request from `sentReqs`. -/
  | ended
  deriving DecidableEq

structure SentReq where
  reqQueued : Bool := true
  reqSent : Bool := false
  reqSrtoCount : Int := 0
  state : ReqState := .requesting
  /-- The number of tries that have not yet reported whether they were sent. -/
  queued : Nat := 1
  /-- The number of those of which only the sending was reported. -/
  sent : Nat := 0
  /-- The number of those past the soft timeout, not answered and not past the hard one. -/
  late : Nat := 0

inductive ReqEvent where
  /-- Whether there was a suitable peer. -/
  | sent (toPeer : Bool)
  | softTimeout
  | hardTimeout
  /-- An answer to a try that is past its soft timeout, or not. -/
  | delivered (late valid : Bool)
  | retry
  | stop

namespace SentReq

variable (r : SentReq)

def waiting : Bool := r.reqQueued || r.reqSent || r.reqSrtoCount > 0

def tryRequest : SentReq :=
  { r with reqQueued := true, state := .requesting, queued := r.queued + 1 }

/-- Some try can report the event. -/
def Reports : ReqEvent → Prop
  | .sent _ => 0 < r.queued
  | .softTimeout => 0 < r.sent
  | .hardTimeout | .delivered true _ => 0 < r.late
  | .delivered false _ => 0 < r.sent
  | .retry => r.state = .noMorePeers
  | .stop => True

instance : DecidablePred r.Reports := fun event => by unfold Reports; split <;> infer_instance

/-- `update`, with the tries counted anew. -/
def update : ReqEvent → SentReq
  | .sent false => { r with reqQueued := false, queued := r.queued - 1 }
  | .sent true =>
    { r with reqQueued := false, reqSent := true, queued := r.queued - 1, sent := r.sent + 1 }
  | .softTimeout =>
    { r with
      reqSent := false
      reqSrtoCount := r.reqSrtoCount + 1
      sent := r.sent - 1
      late := r.late + 1 }
  | .hardTimeout | .delivered true _ =>
    { r with reqSrtoCount := r.reqSrtoCount - 1, late := r.late - 1 }
  | .delivered false _ => { r with reqSrtoCount := r.reqSrtoCount - 1, sent := r.sent - 1 }
  | .retry | .stop => r

/-- What the state functions do after `update`. -/
def react (event : ReqEvent) : SentReq :=
  match r.state, event with
  | .requesting, .sent false => { r with state := if r.waiting then .noMorePeers else .ended }
  | .requesting, .softTimeout | .noMorePeers, .retry => r.tryRequest
  | .requesting, .delivered _ true | .noMorePeers, .delivered _ true | _, .stop =>
    { r with state := .stopped }
  | _, _ => r

/-- The loop of `stateStopped` ends when it does not wait. -/
def endStopped : SentReq :=
  if r.state = .stopped ∧ r.waiting = false then { r with state := .ended } else r

def next (event : ReqEvent) : SentReq :=
  if r.state = .ended ∨ ¬ r.Reports event then r else ((r.update event).react event).endStopped

/-- Some try is queued, or was sent and neither answered nor timed out hard. -/
abbrev Outstanding : Prop := 0 < r.queued + r.sent + r.late

structure Accounted : Prop where
  waiting_iff : r.waiting = true ↔ r.Outstanding
  ends : r.state = .stopped → r.Outstanding

/-- A reply comes after the soft timeout of its try. -/
def RepliesLate : ReqEvent → Prop
  | .delivered false _ => False
  | _ => True

/-- The three variables sum up the tries. -/
structure SumsUp : Prop where
  queued : r.queued = r.reqQueued.toNat
  sent : r.sent = r.reqSent.toNat
  late : r.reqSrtoCount = r.late
  one : r.queued + r.sent ≤ 1
  idle : r.state = .noMorePeers → r.queued + r.sent = 0

structure Summary : Prop extends r.SumsUp where
  ends : r.state = .stopped → r.waiting = true

variable {r} {event : ReqEvent}

namespace SumsUp

variable (sums : r.SumsUp)

include sums

theorem waiting_iff : r.waiting = true ↔ r.Outstanding := by
  rw [Outstanding, waiting, sums.queued, sums.sent, sums.late]
  cases r.reqQueued <;> cases r.reqSent <;> simp

theorem update (reports : r.Reports event) (replies : RepliesLate event) :
    (r.update event).SumsUp ∧ (event = .softTimeout ∨ event = .sent false →
      (r.update event).queued + (r.update event).sent = 0) := by
  obtain ⟨queued, sent, late, one, idle⟩ := sums
  unfold Reports at reports
  unfold SentReq.update
  split <;> refine ⟨⟨?_, ?_, ?_, ?_, ?_⟩, ?_⟩ <;> grind [RepliesLate]

theorem tryRequest (free : r.queued + r.sent = 0) : r.tryRequest.SumsUp :=
  { sums with
    queued := congrArg (· + 1) (Nat.eq_zero_of_add_eq_zero_right free)
    one := by
      dsimp only [SentReq.tryRequest]
      omega
    idle := nofun }

theorem react (free : event = .softTimeout ∨ event = .sent false → r.queued + r.sent = 0) :
    (r.react event).SumsUp := by
  unfold SentReq.react
  split
  · exact { sums with idle := fun _ => free (.inr rfl) }
  · exact sums.tryRequest (free (.inl rfl))
  · rename_i isIdle
    exact sums.tryRequest (sums.idle isIdle)
  · exact { sums with idle := nofun }
  · exact { sums with idle := nofun }
  · exact { sums with idle := nofun }
  · exact sums

end SumsUp

theorem Summary.next (sum : r.Summary) (replies : RepliesLate event) : (r.next event).Summary := by
  unfold SentReq.next
  split
  · exact sum
  · rename_i reports
    rw [not_or, not_not] at reports
    obtain ⟨updated, free⟩ := sum.update reports.2 replies
    have reacted := updated.react free
    unfold endStopped
    split
    · exact { reacted with idle := nofun, ends := nofun }
    · rename_i waits
      exact ⟨reacted, fun stopped => by simpa [stopped] using waits⟩

/-- If every reply comes after the soft timeout of its try, the loop waits exactly while a try is
outstanding. -/
theorem retrieval_accounted_of_run {events : List ReqEvent}
    (replies : ∀ event ∈ events, RepliesLate event) : (events.foldl next {}).Accounted := by
  have sum : (events.foldl next {}).Summary :=
    events.foldlRecOn next ⟨⟨rfl, rfl, rfl, by decide, nofun⟩, nofun⟩ fun _ sum event mem =>
      sum.next (replies event mem)
  exact ⟨sum.waiting_iff, fun stopped => sum.waiting_iff.mp (sum.ends stopped)⟩

theorem late_reply_ends :
    ([.sent true, .softTimeout, .sent true, .softTimeout, .sent false, .delivered true true,
      .hardTimeout].foldl next {}).Accounted :=
  retrieval_accounted_of_run (by simp [RepliesLate])

/-- The only try is answered before its soft timeout: with a valid reply the loop waits for ever,
with another one no new peer is tried. -/
theorem early_reply_miscounted :
    let valid := [.sent true, .delivered false true].foldl next {}
    let invalid := [.sent true, .delivered false false].foldl next {}
    (valid.state = .stopped ∧ valid.waiting = true ∧ ¬ valid.Outstanding) ∧
      invalid.state = .requesting ∧ invalid.waiting = true ∧ ¬ invalid.Outstanding := by
  decide

end SentReq

end MoacVnode.Les
