import MoacVnode.Consensus.Ethash.HeaderRules

/-!
# Parallel verification of headers

`VerifyHeaders` hands the indices of the headers to workers, which finish them in any order, and
sends the results in the order of the headers.
-/

namespace MoacVnode.Consensus.Ethash

open MoacVnode.Core Lib
open Function (update update_self update_of_ne)
open List

inductive Worker (n : Nat) where
  | idle
  | verifying (idx : Fin n)
  /-- The result is stored, its index not yet in the channel. -/
  | sending (idx : Fin n)
  deriving DecidableEq

inductive Mode where
  | selecting
  /-- In the loop that sends the results that are checked. -/
  | draining
  | returned
  deriving DecidableEq

/-- The variables and channels of a call; `errorsOut` has all results that were sent to it. -/
structure Dispatch (n workers : Nat) (α : Type) where
  goroutines : Fin workers → Worker n := fun _ => .idle
  done : List (Fin n) := []
  errors : Fin n → α
  next : Nat := 0
  out : Nat := 0
  checked : Fin n → Bool := fun _ => false
  mode : Mode := .selecting
  errorsOut : List α := []
  aborted : Bool := false

/-- A worker is handed an index, stores its result or reports it; the dispatcher; the caller that
closes the abort channel. -/
inductive Move (workers : Nat) where
  | feed (worker : Fin workers)
  | store (worker : Fin workers)
  | report (worker : Fin workers)
  | receive
  | emit
  | leaveLoop
  | closeAbort
  | abort

namespace Dispatch

variable {n workers : Nat} {α : Type} {verify : Fin n → α} {state next : Dispatch n workers α}
  {worker : Fin workers} {idx : Fin n} {changed : Worker n} {other : Fin workers}

variable (state)

def setWorker (worker : Fin workers) (next : Worker n) : Dispatch n workers α :=
  { state with goroutines := update state.goroutines worker next }

/-- The body of the draining loop. -/
def emitted (inside : state.out < n) : Dispatch n workers α :=
  let sent := { state with errorsOut := state.errorsOut ++ [state.errors ⟨state.out, inside⟩] }
  if state.out + 1 = n then { sent with mode := .returned } else { sent with out := state.out + 1 }

/-- A move that is not possible in the state has no result. -/
def move (verify : Fin n → α) (state : Dispatch n workers α) :
    Move workers → Except Unit (Dispatch n workers α)
  | .feed worker =>
    if able : state.next < n ∧ state.mode = .selecting ∧ state.goroutines worker = .idle then
      .ok { state.setWorker worker (.verifying ⟨state.next, able.1⟩) with next := state.next + 1 }
    else .error ()
  | .store worker =>
    match state.goroutines worker with
    | .verifying idx =>
      .ok { state.setWorker worker (.sending idx) with
        errors := update state.errors idx (verify idx) }
    | _ => .error ()
  | .report worker =>
    match state.goroutines worker with
    | .sending idx =>
      -- the channel has room for one index of each worker
      if state.done.length < workers then
        .ok { state.setWorker worker .idle with done := state.done ++ [idx] }
      else .error ()
    | _ => .error ()
  | .receive =>
    match state.mode, state.done with
    | .selecting, idx :: done =>
      .ok { state with done := done, checked := update state.checked idx true, mode := .draining }
    | _, _ => .error ()
  | .emit =>
    if able : state.mode = .draining ∧ ∃ inside, state.checked ⟨state.out, inside⟩ = true then
      .ok (state.emitted able.2.fst)
    else .error ()
  | .leaveLoop =>
    if state.mode = .draining ∧ ∃ inside, state.checked ⟨state.out, inside⟩ = false then
      .ok { state with mode := .selecting }
    else .error ()
  | .closeAbort => if state.aborted then .error () else .ok { state with aborted := true }
  | .abort =>
    if state.mode = .selecting ∧ state.aborted = true then .ok { state with mode := .returned }
    else .error ()

def Busy (idx : Fin n) : Prop :=
  ∃ worker, state.goroutines worker = .verifying idx ∨ state.goroutines worker = .sending idx

/-- What was sent are the first results, and an index that was handed out is not lost. -/
structure Ordered (verify : Fin n → α) (state : Dispatch n workers α) : Prop where
  sent : state.errorsOut = (List.ofFn verify).take state.errorsOut.length
  upTo : state.mode ≠ .returned → state.errorsOut.length = state.out ∧ state.out < n
  returned : state.mode = .returned → state.aborted = true ∨ state.errorsOut.length = n
  stored : ∀ {worker idx}, state.goroutines worker = .sending idx → state.errors idx = verify idx
  reported : ∀ idx ∈ state.done, state.errors idx = verify idx
  checked : ∀ {idx}, state.checked idx = true → state.errors idx = verify idx
  fed : ∀ {idx : Fin n}, idx.val < state.next →
    state.Busy idx ∨ idx ∈ state.done ∨ state.checked idx = true
  waiting : state.mode = .selecting → ∀ {idx : Fin n}, idx.val = state.out →
    state.checked idx = false

/-- A bound on the moves that are left. -/
def remaining : Nat :=
  5 * (n - state.next) + ∑ worker, pending (state.goroutines worker) + 2 * state.done.length +
    2 * (n - state.out) + rank state.mode + (!state.aborted).toNat
where
  pending : Worker n → Nat
    | .idle => 0
    | .sending _ => 3
    | .verifying _ => 4
  rank : Mode → Nat
    | .returned => 0
    | .selecting => 1
    | .draining => 2

open remaining (pending rank)

theorem sum_pending (worker : Fin workers) (changed : Worker n) :
    ∑ other, pending ((state.setWorker worker changed).goroutines other) +
        pending (state.goroutines worker) =
      ∑ other, pending (state.goroutines other) + pending changed := by
  have updated : (fun other => pending ((state.setWorker worker changed).goroutines other)) =
      update (fun other => pending (state.goroutines other)) worker (pending changed) :=
    Function.comp_update pending state.goroutines worker changed
  rw [updated, Finset.sum_update_of_mem (Finset.mem_univ worker),
    Finset.sum_eq_add_sum_sdiff_singleton_of_mem (Finset.mem_univ worker)]
  omega

variable {state}

theorem goroutines_setWorker :
    (state.setWorker worker changed).goroutines other =
      if other = worker then changed else state.goroutines other :=
  Function.update_apply _ _ _ _

theorem Busy.setWorker (busy : state.Busy idx)
    (same : state.goroutines worker = .verifying idx ∨ state.goroutines worker = .sending idx →
      changed = .verifying idx ∨ changed = .sending idx) :
    (state.setWorker worker changed).Busy idx := by
  obtain ⟨other, isBusy⟩ := busy
  refine ⟨other, ?_⟩
  rw [goroutines_setWorker]
  split
  · next isWorker => exact same (isWorker ▸ isBusy)
  · exact isBusy

theorem sending_of_setWorker
    (sending : (state.setWorker worker changed).goroutines other = .sending idx)
    (notSending : changed ≠ .sending idx) : state.goroutines other = .sending idx := by
  rw [goroutines_setWorker] at sending
  split at sending
  · exact absurd sending notSending
  · exact sending

namespace Ordered

section

variable (ordered : Ordered verify state)

include ordered

theorem feed (inside : state.next < n) (isIdle : state.goroutines worker = .idle) :
    Ordered verify { state.setWorker worker (.verifying ⟨state.next, inside⟩) with
      next := state.next + 1 } :=
  { ordered with
    stored := fun sending => ordered.stored (sending_of_setWorker sending nofun)
    fed := by
      intro tested below
      rcases Nat.lt_succ_iff_lt_or_eq.mp below with prior | same
      · exact (ordered.fed prior).imp_left fun busy => Busy.setWorker busy (by simp [isIdle])
      · exact .inl ⟨worker, .inl (by simp [goroutines_setWorker, ← same])⟩ }

theorem store (verifying : state.goroutines worker = .verifying idx) :
    Ordered verify { state.setWorker worker (.sending idx) with
      errors := update state.errors idx (verify idx) } := by
  have written {tested : Fin n} (before : state.errors tested = verify tested) :
      update state.errors idx (verify idx) tested = verify tested := by
    by_cases same : tested = idx
    · rw [same, update_self]
    · rwa [update_of_ne same]
  exact { ordered with
    stored := by
      intro other tested sending
      rw [goroutines_setWorker] at sending
      split at sending
      · cases sending
        exact update_self _ _ _
      · exact written (ordered.stored sending)
    reported := fun tested mem => written (ordered.reported tested mem)
    checked := fun isChecked => written (ordered.checked isChecked)
    fed := fun below => (ordered.fed below).imp_left fun busy => Busy.setWorker busy (by
      simp [verifying]) }

theorem report (sending : state.goroutines worker = .sending idx) :
    Ordered verify { state.setWorker worker .idle with done := state.done ++ [idx] } :=
  { ordered with
    stored := fun sending => ordered.stored (sending_of_setWorker sending nofun)
    reported := by
      intro tested mem
      rcases mem_append.mp mem with prior | last
      · exact ordered.reported tested prior
      · rw [mem_singleton.mp last]
        exact ordered.stored sending
    fed := by
      intro tested below
      by_cases same : tested = idx
      · exact .inr (.inl (by simp [same]))
      · rcases ordered.fed below with busy | inDone | isChecked
        · exact .inl (Busy.setWorker busy (by simp [sending, Ne.symm same]))
        · exact .inr (.inl (mem_append_left _ inDone))
        · exact .inr (.inr isChecked) }

theorem receive {done : List (Fin n)} (selecting : state.mode = .selecting)
    (isDone : state.done = idx :: done) :
    Ordered verify { state with
      done := done, checked := update state.checked idx true, mode := .draining } :=
  { ordered with
    upTo := fun _ => ordered.upTo (by simp [selecting])
    returned := fun isReturned => nomatch isReturned
    reported := fun tested mem => ordered.reported tested (isDone ▸ mem_cons_of_mem idx mem)
    checked := by
      intro tested isChecked
      by_cases same : tested = idx
      · rw [same]
        exact ordered.reported idx (isDone ▸ mem_cons_self)
      · exact ordered.checked (by simpa [update_of_ne same] using isChecked)
    fed := by
      intro tested below
      by_cases same : tested = idx
      · exact .inr (.inr (by simp [same]))
      · rcases ordered.fed below with busy | inDone | isChecked
        · exact .inl busy
        · rw [isDone] at inDone
          exact .inr (.inl ((mem_cons.mp inDone).resolve_left same))
        · exact .inr (.inr (by simpa [update_of_ne same] using isChecked))
    waiting := fun isSelecting => nomatch isSelecting }

theorem emit (inside : state.out < n) (draining : state.mode = .draining)
    (isChecked : state.checked ⟨state.out, inside⟩ = true) :
    Ordered verify (state.emitted inside) := by
  obtain ⟨length, -⟩ := ordered.upTo (by simp [draining])
  have longer : (state.errorsOut ++ [state.errors ⟨state.out, inside⟩]).length = state.out + 1 := by
    simp [length]
  have appended : state.errorsOut ++ [state.errors ⟨state.out, inside⟩] =
      (List.ofFn verify).take (state.errorsOut ++ [state.errors ⟨state.out, inside⟩]).length := by
    rw [longer, List.take_succ_eq_append_getElem (by simpa using inside),
      ordered.checked isChecked, List.getElem_ofFn]
    conv_lhs => rw [ordered.sent, length]
  unfold emitted
  split
  · rename_i last
    exact { ordered with
      sent := appended
      upTo := fun running => (running rfl).elim
      returned := fun _ => .inr (longer.trans last)
      waiting := fun selecting => nomatch selecting }
  · exact { ordered with
      sent := appended
      upTo := fun _ => ⟨longer, by dsimp only; omega⟩
      returned := fun isReturned => by cases draining.symm.trans isReturned
      waiting := fun selecting => by cases draining.symm.trans selecting }

theorem move {taken : Move workers} (moved : state.move verify taken = .ok next) :
    Ordered verify next ∧ next.remaining < state.remaining := by
  unfold Dispatch.move at moved
  unfold remaining
  cases taken with
  | feed worker =>
    dsimp only at moved
    split at moved
    · rename_i able
      cases moved
      obtain ⟨inside, -, isIdle⟩ := able
      have sum := state.sum_pending worker (.verifying ⟨state.next, inside⟩)
      dsimp only [pending, setWorker] at sum ⊢
      exact ⟨ordered.feed inside isIdle, by omega⟩
    · cases moved
  | store worker =>
    dsimp only at moved
    split at moved
    · rename_i idx verifying
      cases moved
      have sum := state.sum_pending worker (.sending idx)
      rw [verifying] at sum
      dsimp only [pending, setWorker] at sum ⊢
      exact ⟨ordered.store verifying, by omega⟩
    · cases moved
  | report worker =>
    dsimp only at moved
    split at moved
    · rename_i idx sending
      split at moved
      · cases moved
        have sum := state.sum_pending worker .idle
        rw [sending] at sum
        dsimp only [pending, setWorker] at sum ⊢
        rw [length_append, length_singleton]
        exact ⟨ordered.report sending, by omega⟩
      · cases moved
    · cases moved
  | receive =>
    dsimp only at moved
    split at moved
    · rename_i selecting isDone
      cases moved
      refine ⟨ordered.receive selecting isDone, ?_⟩
      simp only [selecting, isDone, rank, length_cons]
      omega
    · cases moved
  | emit =>
    dsimp only at moved
    split at moved
    · rename_i able
      cases moved
      obtain ⟨draining, inside, isChecked⟩ := able
      refine ⟨ordered.emit inside draining isChecked, ?_⟩
      unfold emitted
      split
      · simp [draining, rank]
      · simp only [rank]
        omega
    · cases moved
  | leaveLoop =>
    dsimp only at moved
    split at moved
    · rename_i able
      cases moved
      obtain ⟨draining, inside, unchecked⟩ := able
      exact ⟨{ ordered with
        upTo := fun _ => ordered.upTo (by simp [draining])
        returned := fun isReturned => nomatch isReturned
        waiting := fun _ idx atOut =>
          (show idx = ⟨state.out, inside⟩ from Fin.ext atOut) ▸ unchecked },
        by simp [draining, rank]⟩
    · cases moved
  | closeAbort =>
    dsimp only at moved
    split at moved
    · cases moved
    · rename_i notAborted
      cases moved
      exact ⟨{ ordered with returned := fun _ => .inl rfl }, by simp [notAborted]⟩
  | abort =>
    dsimp only at moved
    split at moved
    · rename_i able
      cases moved
      exact ⟨{ ordered with
        upTo := fun running => (running rfl).elim
        returned := fun _ => .inl able.2
        waiting := fun selecting => nomatch selecting }, by simp [able.1, rank]⟩
    · cases moved

theorem run {moves : List (Move workers)}
    (ran : Lib.run (Dispatch.move verify) state moves = .ok next) :
    Ordered verify next ∧ moves.length + next.remaining ≤ state.remaining := by
  induction moves generalizing state with
  | nil =>
    cases ran
    exact ⟨ordered, by simp⟩
  | cons taken moves ih =>
    obtain ⟨mid, moved, rest⟩ := run_cons_eq_ok.mp ran
    obtain ⟨middleOrdered, decreases⟩ := ordered.move moved
    obtain ⟨lastOrdered, bound⟩ := ih middleOrdered rest
    exact ⟨lastOrdered, by rw [length_cons]; omega⟩

end

end Ordered

end Dispatch

/-! ## Headers -/

/-- What the verification of a header reads of the chain, and its time. -/
structure Reading where
  getHeader : Hash → Nat → Option Header
  now : Nat

private def knownHeaders : Reading where
  getHeader hash _ := some { hash := hash, parentHash := 0 }
  now := 0

end MoacVnode.Consensus.Ethash
