import MoacVnode.Core.ChainIndexer

/-!
# Validity of the chain index

A stored section is current if its head is the canonical hash of its last block, or if a
reorganisation that drops the section is still to be notified.
-/

namespace MoacVnode.Core

open Lib List ChainIndexer SectionJob Nat IndexerConfig Function

variable {old new chain : List Header} {num ancestor : Nat} {config : IndexerConfig}
  {waiting : List Notification} {head : Hash}

variable (config)

def IndexerConfig.lastBlock (num : Nat) : Nat := (num + 1) * config.sectionSize - 1

theorem getElem?_of_lt_commonLength (common : num < commonLength old new) :
    new[num]? = old[num]? := by
  induction old generalizing new num with
  | nil => simp [commonLength] at common
  | cons first olds ih =>
    cases new with
    | nil => simp [commonLength] at common
    | cons second news =>
      by_cases same : first = second
      · cases num with
        | zero => simp [same]
        | succ num =>
          rw [commonLength, if_pos same] at common
          simpa using ih (lt_of_succ_lt_succ common)
      · simp [commonLength, same] at common

theorem removeSectionHeads_apply (sections stored : Nat) (heads : Nat → Hash) (num : Nat) :
    removeSectionHeads sections stored heads num =
      if sections ≤ num ∧ num < stored then emptyHash else heads num := by
  induction stored generalizing heads with
  | zero => simp [removeSectionHeads]
  | succ stored ih =>
    rw [removeSectionHeads]
    by_cases more : sections < stored + 1
    · rw [if_pos more, ih]
      by_cases isLast : num = stored
      · subst isLast
        simp
        omega
      · rw [update_of_ne isLast]
        congr 1
        simp
        omega
    · rw [if_neg more, if_neg (by omega)]

/-- A head is that of its section, or a reorganisation that drops the section is still to be
notified. -/
def CurrentHead (chain : List Header) (waiting : List Notification) (num : Nat) (head : Hash) :
    Prop :=
  head = canonicalHash chain (config.lastBlock num) ∨
    ∃ ancestor < config.lastBlock num, .reorg ancestor ∈ waiting

/-- The hash that `processSection` returns, once it has read all blocks. -/
def SectionJob.readHead (job : SectionJob) : Option Hash :=
  match job.progression with
  | .reading next lastHead =>
    if next < (job.sectionNumber + 1) * config.sectionSize then none else some lastHead
  | .returned (.ok head) => some head
  | .returned (.error _) => none

/-- A reorganisation inside the section that is being processed is notified between reading and
storing it. -/
def missesReorg (state : IndexedChain) (input : IndexerInput) : Bool :=
  match input, state.waiting, state.indexer.job with
  | .notify, .reorg ancestor :: _, some job =>
    (job.readHead config).isSome && job.sectionNumber * config.sectionSize ≤ ancestor &&
      ancestor < config.lastBlock job.sectionNumber
  | _, _, _ => false

variable {config}

/-- The section that is being processed can be stored, if none was dropped meanwhile. -/
structure JobSound (config : IndexerConfig) (state : IndexedChain) (job : SectionJob) :
    Prop where
  stored_le : state.indexer.storedSections ≤ job.sectionNumber
  bounded : job.sectionNumber + 1 < uint64Size
  oldHead_eq : job.oldHead = emptyHash ↔ job.sectionNumber = 0
  current : ∀ head, job.readHead config = some head → head ≠ emptyHash ∧
    (state.indexer.storedSections = job.sectionNumber →
      CurrentHead config state.chain state.waiting job.sectionNumber head)

structure IndexSound (config : IndexerConfig) (state : IndexedChain) : Prop where
  cleared : ∀ num, state.indexer.storedSections ≤ num → state.indexer.sectionHead num = emptyHash
  current : ∀ num < state.indexer.storedSections,
    state.indexer.sectionHead num ≠ emptyHash ∧
      CurrentHead config state.chain state.waiting num (state.indexer.sectionHead num)
  stored_lt : state.indexer.storedSections < uint64Size
  known_lt : state.indexer.knownSections < uint64Size
  waiting_lt : ∀ num, .head num ∈ state.waiting → num + 1 < uint64Size
  jobSound : ∀ job, state.indexer.job = some job → JobSound config state job

theorem CurrentHead.setCanonical (sameGenesis : 0 < commonLength old new)
    (notEmpty : head ≠ emptyHash) (current : CurrentHead config old waiting num head) :
    CurrentHead config new (waiting ++ notifications old new) num head := by
  rcases current with isLast | ⟨ancestor, below, isWaiting⟩
  · by_cases extended : new.dropLast = old
    · -- the last block of the section is on the old chain, for its hash is not empty
      subst extended
      left
      rw [isLast] at notEmpty ⊢
      unfold canonicalHash at *
      rw [List.getElem?_dropLast] at *
      by_cases onOld : config.lastBlock num < new.length - 1
      · rw [if_pos onOld]
      · rw [if_neg onOld] at notEmpty
        exact absurd rfl notEmpty
    · by_cases common : config.lastBlock num < commonLength old new
      · left
        rw [isLast]
        unfold canonicalHash
        rw [getElem?_of_lt_commonLength common]
      · right
        refine ⟨commonLength old new - 1, by omega, ?_⟩
        simp [notifications, extended]
  · exact .inr ⟨ancestor, below, mem_append_left _ isWaiting⟩

theorem CurrentHead.of_cons
    (current : CurrentHead config chain (.reorg ancestor :: waiting) num head)
    (notBelow : ¬ ancestor < config.lastBlock num) :
    CurrentHead config chain waiting num head := by
  rcases current with isLast | ⟨other, below, isWaiting⟩
  · exact .inl isLast
  · rcases mem_cons.mp isWaiting with isFirst | further
    · cases isFirst
      exact absurd below notBelow
    · exact .inr ⟨other, below, further⟩

theorem IndexerConfig.div_le_of_lt_lastBlock (below : ancestor < config.lastBlock num) :
    ancestor / config.sectionSize ≤ num := by
  have inside : ancestor < (num + 1) * config.sectionSize := by
    unfold lastBlock at below
    omega
  exact Nat.lt_succ_iff.mp ((Nat.div_lt_iff_lt_mul config.sectionSize_pos).mpr inside)

namespace ChainIndexer

variable (config : IndexerConfig) (indexer : ChainIndexer) (ancestor : Nat)

theorem storedSections_newHead_reorg :
    (indexer.newHead config (.reorg ancestor)).storedSections =
      min (ancestor / config.sectionSize) indexer.storedSections := by
  by_cases dropped : ancestor / config.sectionSize < indexer.storedSections
  · simp only [newHead, dropped, if_true, setValidSections]
    omega
  · simp only [newHead, dropped, if_false]
    omega

theorem sectionHead_newHead_reorg (num : Nat) :
    (indexer.newHead config (.reorg ancestor)).sectionHead num =
      if ancestor / config.sectionSize ≤ num ∧ num < indexer.storedSections then emptyHash
      else indexer.sectionHead num := by
  simp only [newHead]
  split
  · exact removeSectionHeads_apply _ _ _ num
  · rw [if_neg (by omega)]

theorem knownSections_newHead_reorg_le :
    (indexer.newHead config (.reorg ancestor)).knownSections ≤ indexer.knownSections := by
  simp only [newHead]
  split
  · exact min_le_right _ _
  · exact min_le_right _ _

theorem job_newHead_reorg : (indexer.newHead config (.reorg ancestor)).job = indexer.job := by
  simp only [newHead]
  split
  · rfl
  · rfl

theorem newHead_head (num : Nat) :
    ∃ known update, indexer.newHead config (.head num) =
        { indexer with knownSections := known, update := update } ∧
      known ≤ max indexer.knownSections (num + 1) := by
  simp only [newHead]
  split
  · refine ⟨_, _, rfl, le_trans ?_ (le_max_right _ _)⟩
    exact le_trans (div_le_self _ _) (sub_le _ _)
  · exact ⟨_, _, rfl, le_max_left _ _⟩

end ChainIndexer

namespace IndexSound

variable {config : IndexerConfig} {state : IndexedChain} {next : IndexedChain}
  {waiting : List Notification} {num : Nat} {job : SectionJob} {oldHead lastHead : Hash}

section

variable (sound : IndexSound config state)

include sound

theorem of_current (sameStored : next.indexer.storedSections = state.indexer.storedSections)
    (sameHeads : next.indexer.sectionHead = state.indexer.sectionHead)
    (sameJob : next.indexer.job = state.indexer.job)
    (keeps : ∀ {num head}, head ≠ emptyHash → CurrentHead config state.chain state.waiting
      num head → CurrentHead config next.chain next.waiting num head)
    (known_lt : next.indexer.knownSections < uint64Size)
    (waiting_lt : ∀ num, .head num ∈ next.waiting → num + 1 < uint64Size) :
    IndexSound config next where
  cleared := by
    rw [sameStored, sameHeads]
    exact sound.cleared
  current := by
    rw [sameStored, sameHeads]
    intro num stored
    obtain ⟨notEmpty, current⟩ := sound.current num stored
    exact ⟨notEmpty, keeps notEmpty current⟩
  stored_lt := by
    rw [sameStored]
    exact sound.stored_lt
  known_lt := known_lt
  waiting_lt := waiting_lt
  jobSound := by
    intro job isJob
    have jobSound := sound.jobSound job (sameJob ▸ isJob)
    refine ⟨by rw [sameStored]; exact jobSound.stored_le, jobSound.bounded,
      jobSound.oldHead_eq, ?_⟩
    intro head isRead
    obtain ⟨notEmpty, current⟩ := jobSound.current head isRead
    exact ⟨notEmpty, fun stored => keeps notEmpty (current (sameStored ▸ stored))⟩

theorem setCanonical (sameGenesis : 0 < commonLength state.chain chain)
    (bounded : chain.length < uint64Size) :
    IndexSound config
      { state with
        chain := chain
        waiting := state.waiting ++ notifications state.chain chain } := by
  refine sound.of_current rfl rfl rfl
    (fun notEmpty current => current.setCanonical sameGenesis notEmpty) sound.known_lt ?_
  intro num isWaiting
  rcases mem_append.mp isWaiting with waited | added
  · exact sound.waiting_lt num waited
  · have isHead : num = chain.length - 1 := by
      unfold notifications at added
      split at added
      · simpa using added
      · simpa using added
    unfold uint64Size at *
    omega

theorem notifyReorg (isNext : state.waiting = .reorg ancestor :: waiting)
    (noticed : missesReorg config state .notify = false) :
    IndexSound config
      { state with
        waiting := waiting
        indexer := state.indexer.newHead config (.reorg ancestor) } where
  cleared num notStored := by
    simp only [storedSections_newHead_reorg] at notStored
    simp only [sectionHead_newHead_reorg]
    by_cases dropped : ancestor / config.sectionSize ≤ num ∧ num < state.indexer.storedSections
    · rw [if_pos dropped]
    · rw [if_neg dropped]
      exact sound.cleared num (by omega)
  current num stored := by
    simp only [storedSections_newHead_reorg] at stored
    simp only [sectionHead_newHead_reorg]
    rw [if_neg (by omega)]
    obtain ⟨notEmpty, current⟩ := sound.current num (by omega)
    rw [isNext] at current
    refine ⟨notEmpty, current.of_cons ?_⟩
    intro below
    have dropped := div_le_of_lt_lastBlock below
    omega
  stored_lt := by
    have bounded := sound.stored_lt
    simp only [storedSections_newHead_reorg]
    omega
  known_lt :=
    lt_of_le_of_lt (knownSections_newHead_reorg_le config _ ancestor) sound.known_lt
  waiting_lt num isWaiting := sound.waiting_lt num (isNext ▸ mem_cons_of_mem _ isWaiting)
  jobSound job isJob := by
    simp only [job_newHead_reorg] at isJob
    have jobSound := sound.jobSound job isJob
    refine ⟨?_, jobSound.bounded, jobSound.oldHead_eq, ?_⟩
    · have stored_le := jobSound.stored_le
      simp only [storedSections_newHead_reorg]
      omega
    · intro head isRead
      obtain ⟨notEmpty, current⟩ := jobSound.current head isRead
      refine ⟨notEmpty, fun stored => ?_⟩
      simp only [storedSections_newHead_reorg] at stored
      have stored_le := jobSound.stored_le
      have currentBefore := current (by omega)
      rw [isNext] at currentBefore
      refine currentBefore.of_cons fun below => ?_
      -- the reorganisation lies in the section that was read, so it would be missed
      have inSection : job.sectionNumber * config.sectionSize ≤ ancestor :=
        (le_div_iff_mul_le config.sectionSize_pos).mp (by omega)
      simp [missesReorg, isNext, isJob, isRead, inSection, below] at noticed

theorem notifyHead (isNext : state.waiting = .head num :: waiting) :
    IndexSound config
      { state with
        waiting := waiting
        indexer := state.indexer.newHead config (.head num) } := by
  obtain ⟨known, update, headEq, knownLe⟩ := state.indexer.newHead_head config num
  rw [headEq]
  refine sound.of_current rfl rfl rfl ?_ ?_ ?_
  · intro other head notEmpty current
    rw [isNext] at current
    exact current.imp_right fun ⟨block, below, isWaiting⟩ =>
      ⟨block, below, (mem_cons.mp isWaiting).resolve_left nofun⟩
  · have known_lt := sound.known_lt
    have number_lt := sound.waiting_lt num (isNext ▸ mem_cons_self)
    simp only
    omega
  · exact fun other isWaiting => sound.waiting_lt other (isNext ▸ mem_cons_of_mem _ isWaiting)

theorem timer :
    IndexSound config
      { state with
        indexer := { state.indexer with update := true, timers := state.indexer.timers - 1 } } :=
  sound.of_current rfl rfl rfl (fun _ current => current) sound.known_lt sound.waiting_lt

theorem of_job {indexer : ChainIndexer}
    (sameStored : indexer.storedSections = state.indexer.storedSections)
    (sameHeads : indexer.sectionHead = state.indexer.sectionHead)
    (known_lt : indexer.knownSections < uint64Size)
    (jobSound : ∀ job, indexer.job = some job → JobSound config { state with indexer := indexer }
      job) :
    IndexSound config { state with indexer := indexer } where
  cleared := by
    simp only [sameStored, sameHeads]
    exact sound.cleared
  current := by
    simp only [sameStored, sameHeads]
    exact sound.current
  stored_lt := by
    simp only [sameStored]
    exact sound.stored_lt
  known_lt := known_lt
  waiting_lt := sound.waiting_lt
  jobSound := jobSound

theorem pick (idle : state.indexer.job = none) :
    IndexSound config { state with indexer := state.indexer.pickSection config } := by
  unfold pickSection
  by_cases behind : state.indexer.storedSections < state.indexer.knownSections
  · simp only [behind]
    refine sound.of_job rfl rfl sound.known_lt ?_
    rintro job ⟨⟩
    refine ⟨le_refl _, ?_, ?_, ?_⟩
    · have known_lt := sound.known_lt
      simp only
      omega
    · by_cases first : state.indexer.storedSections = 0
      · simp [first]
      · have notEmpty := (sound.current (state.indexer.storedSections - 1) (by omega)).1
        simp [notEmpty, first]
    · intro head isRead
      have notRead : state.indexer.storedSections * config.sectionSize <
          (state.indexer.storedSections + 1) * config.sectionSize :=
        mul_lt_mul_of_pos_right (lt_succ_self _) config.sectionSize_pos
      simp [readHead, notRead] at isRead
  · simp only [behind]
    refine sound.of_job rfl rfl sound.known_lt ?_
    intro job isJob
    rw [show state.indexer.job = some job from isJob] at idle
    cases idle

theorem setProgression {progression : Progression} (isJob : state.indexer.job = some job)
    (read : ∀ head, { job with progression := progression }.readHead config = some head → head ≠
      emptyHash ∧ (state.indexer.storedSections = job.sectionNumber → CurrentHead config
      state.chain state.waiting job.sectionNumber head)) :
    IndexSound config (state.setProgression job progression) := by
  have jobSound := sound.jobSound job isJob
  refine sound.of_job rfl rfl sound.known_lt ?_
  rintro job' ⟨⟩
  exact ⟨jobSound.stored_le, jobSound.bounded, jobSound.oldHead_eq, read⟩

theorem read {num next : Nat}
    (isJob : state.indexer.job = some ⟨num, oldHead, .reading next lastHead⟩)
    (more : next < (num + 1) * config.sectionSize) :
    IndexSound config (state.setProgression ⟨num, oldHead, .reading next lastHead⟩
        (readBlock state.chain next lastHead)) := by
  refine sound.setProgression isJob ?_
  intro head isRead
  unfold readBlock at isRead
  cases got : state.chain[next]? with
  | none => simp [got, readHead] at isRead
  | some header =>
    simp only [got] at isRead
    by_cases empty : header.hash = emptyHash
    · simp [empty, readHead] at isRead
    · by_cases broken : header.parentHash ≠ lastHead
      · simp [empty, broken, readHead] at isRead
      · simp only [empty, broken, readHead] at isRead
        by_cases notLast : next + 1 < (num + 1) * config.sectionSize
        · simp [notLast] at isRead
        · -- the last block of the section was read from the canonical chain
          simp only [notLast, if_false, Option.some.injEq] at isRead
          subst isRead
          refine ⟨empty, fun _ => .inl ?_⟩
          have isLast : config.lastBlock num = next := by
            unfold lastBlock
            omega
          simp [canonicalHash, isLast, got]

end

theorem backendCommit {num next : Nat} (committed : Bool) (sound : IndexSound config state)
    (isJob : state.indexer.job = some ⟨num, oldHead, .reading next lastHead⟩)
    (allRead : ¬ next < (num + 1) * config.sectionSize) :
    IndexSound config (state.setProgression ⟨num, oldHead, .reading next lastHead⟩
        (.returned (if committed then .ok lastHead else .error .backend))) := by
  have jobSound := sound.jobSound _ isJob
  refine sound.setProgression isJob ?_
  intro head isRead
  cases committed with
  | false => simp [readHead] at isRead
  | true =>
    refine jobSound.current head ?_
    simpa [readHead, allRead] using isRead

section

variable (sound : IndexSound config state)

include sound

theorem stored_eq (isJob : state.indexer.job = some job)
    (sameHead : job.oldHead = state.indexer.sectionHead (prev64 job.sectionNumber)) :
    state.indexer.storedSections = job.sectionNumber := by
  obtain ⟨stored_le, bounded, oldHead_eq, -⟩ := sound.jobSound job isJob
  by_cases first : job.sectionNumber = 0
  · omega
  · have notEmpty : job.oldHead ≠ emptyHash := fun empty => first (oldHead_eq.mp empty)
    have previous : prev64 job.sectionNumber = job.sectionNumber - 1 := by
      unfold prev64 uint64Size at *
      omega
    rw [sameHead, previous] at notEmpty
    by_contra dropped
    exact notEmpty (sound.cleared _ (by omega))

theorem forget :
    IndexSound config
      { state with
        indexer :=
          { state.indexer with knownSections := state.indexer.storedSections }.reschedule } :=
  sound.of_job rfl rfl sound.stored_lt nofun

theorem store {res : Except SectionError Hash}
    (isJob : state.indexer.job = some ⟨num, oldHead, .returned res⟩) :
    IndexSound config
      { state with
        indexer :=
          (state.indexer.storeSection config ⟨num, oldHead, .returned res⟩ res).reschedule } := by
  cases res with
  | error error => exact sound.forget
  | ok head =>
    by_cases sameHead : oldHead = state.indexer.sectionHead (prev64 num)
    · have stored : state.indexer.storedSections = num := sound.stored_eq isJob sameHead
      have jobSound := sound.jobSound _ isJob
      obtain ⟨notEmpty, current⟩ := jobSound.current head rfl
      have heads (other : Nat) : removeSectionHeads (num + 1) state.indexer.storedSections
              (update state.indexer.sectionHead num head) other =
            update state.indexer.sectionHead num head other := by
        rw [removeSectionHeads_apply, if_neg (by omega)]
      simp only [storeSection, sameHead, if_true, reschedule, setValidSections, setSectionHead]
      refine ⟨?_, ?_, jobSound.bounded, sound.known_lt, sound.waiting_lt, nofun⟩
      · intro other notStored
        simp only [heads] at notStored ⊢
        rw [update_of_ne (by omega)]
        exact sound.cleared other (by omega)
      · intro other isStored
        simp only [heads] at isStored ⊢
        by_cases isLast : other = num
        · rw [isLast, update_self]
          exact ⟨notEmpty, current stored⟩
        · rw [update_of_ne isLast]
          exact sound.current other (by omega)
    · have notStored : state.indexer.storeSection config
          ⟨num, oldHead, .returned (.ok head)⟩ (.ok head) =
            { state.indexer with knownSections := state.indexer.storedSections } := by
        simp [storeSection, sameHead]
      rw [notStored]
      exact sound.forget

theorem step {input : IndexerInput} (noticed : missesReorg config state input = false)
    (stepped : state.step config input = .ok next) : IndexSound config next := by
  cases input with
  | setCanonical chain =>
    simp only [IndexedChain.step] at stepped
    split at stepped
    · cases stepped
      rename_i allowed
      exact sound.setCanonical allowed.1 allowed.2
    · cases stepped
  | notify =>
    simp only [IndexedChain.step] at stepped
    cases isNext : state.waiting with
    | nil => simp [isNext] at stepped
    | cons notification waiting =>
      simp only [isNext, Except.ok.injEq] at stepped
      subst stepped
      cases notification with
      | reorg ancestor => exact sound.notifyReorg isNext noticed
      | head num => exact sound.notifyHead isNext
  | pick =>
    simp only [IndexedChain.step] at stepped
    split at stepped
    · cases stepped
      rename_i allowed
      exact sound.pick (Option.isNone_iff_eq_none.mp allowed.2)
    · cases stepped
  | read =>
    simp only [IndexedChain.step] at stepped
    split at stepped
    · rename_i isJob
      split at stepped
      · cases stepped
        rename_i more
        exact sound.read isJob more
      · cases stepped
    · cases stepped
  | backendCommit committed =>
    simp only [IndexedChain.step] at stepped
    split at stepped
    · rename_i isJob
      split at stepped
      · cases stepped
      · cases stepped
        rename_i allRead
        exact sound.backendCommit committed isJob allRead
    · cases stepped
  | store =>
    simp only [IndexedChain.step] at stepped
    split at stepped
    · rename_i isJob
      cases stepped
      exact sound.store isJob
    · cases stepped
  | timer =>
    simp only [IndexedChain.step] at stepped
    split at stepped
    · cases stepped
      exact sound.timer
    · cases stepped

end

end IndexSound

structure IndexStarted (config : IndexerConfig) (state : IndexedChain) : Prop where
  cleared : ∀ num, state.indexer.storedSections ≤ num → state.indexer.sectionHead num = emptyHash
  valid : ∀ num < state.indexer.storedSections,
    state.indexer.sectionHead num ≠ emptyHash ∧
      state.indexer.sectionHead num = canonicalHash state.chain (config.lastBlock num)
  stored_lt : state.indexer.storedSections < uint64Size
  known_lt : state.indexer.knownSections < uint64Size
  waiting_lt : ∀ num, .head num ∈ state.waiting → num + 1 < uint64Size
  idle : state.indexer.job = none

theorem IndexStarted.sound {state : IndexedChain} (started : IndexStarted config state) :
    IndexSound config state :=
  { started with
    current := fun num stored =>
      have ⟨notEmpty, isLast⟩ := started.valid num stored
      ⟨notEmpty, .inl isLast⟩
    jobSound := fun job isJob => by
      rw [started.idle] at isJob
      cases isJob }

/-- In a run without a reorganisation inside a section that is notified between reading and storing
it, the stored sections are those of the canonical chain whenever no change waits to be notified. -/
theorem index_valid_of_run (config : IndexerConfig) {state last : IndexedChain}
    {inputs : List IndexerInput} (started : IndexStarted config state)
    (noticed : EachStep (IndexedChain.step config)
      (fun state input => missesReorg config state input = false) state inputs)
    (ran : run (IndexedChain.step config) state inputs = .ok last) (settled : last.waiting = []) :
    ∀ num < last.indexer.storedSections,
      last.indexer.sectionHead num =
        canonicalHash last.chain ((num + 1) * config.sectionSize - 1) := by
  have sound : IndexSound config last :=
    run_invariant (IndexSound config)
      (fun sound noticed stepped => sound.step noticed stepped) started.sound noticed ran
  intro num stored
  rcases (sound.current num stored).2 with isLast | ⟨ancestor, below, isWaiting⟩
  · exact isLast
  · rw [settled] at isWaiting
    cases isWaiting

private def pairs : IndexerConfig where
  sectionSize := 2
  sectionSize_pos := by decide
  confirmsReq := 0

private def chainTo (head : Hash) : List Header :=
  [{ hash := 1, parentHash := 0 }, { hash := head, parentHash := 1, number := 1 }]

private def newIndexer : IndexedChain where
  chain := chainTo 2
  waiting := [.head 1]

/-- The steps from the notification to the end of `processSection`. -/
private def processPair : List IndexerInput := [.pick, .read, .read, .backendCommit true]

/-- The second block is replaced after it was read, and the section is stored with the old block
although the change was notified. -/
theorem stale_section_stored :
    ∃ last,
      run (IndexedChain.step pairs) newIndexer (.notify :: processPair ++
            [.setCanonical (chainTo 3), .notify, .notify, .store]) = .ok last ∧
        last.waiting = [] ∧ last.indexer.storedSections = 1 ∧
        last.indexer.sectionHead 0 = 2 ∧ canonicalHash last.chain 1 = 3 := by
  decide +kernel

/-- If the change is notified after the section was stored, the section is dropped and
processed again. -/
theorem section_processed_again :
    ∃ last,
      run (IndexedChain.step pairs) newIndexer (.notify :: processPair ++
            [.setCanonical (chainTo 3), .store, .notify, .notify] ++ processPair ++
            [.store]) = .ok last ∧
        last.indexer.storedSections = 1 ∧
        last.indexer.sectionHead 0 = canonicalHash last.chain 1 := by
  have reached : ∃ last,
      run (IndexedChain.step pairs) newIndexer (.notify :: processPair ++
            [.setCanonical (chainTo 3), .store, .notify, .notify] ++ processPair ++
            [.store]) = .ok last ∧
        last.waiting = [] ∧ last.indexer.storedSections = 1 := by
    decide +kernel
  obtain ⟨last, ran, settled, stored⟩ := reached
  refine ⟨last, ran, stored, ?_⟩
  refine index_valid_of_run pairs ?_ ?_ ran settled 0 (by omega)
  · exact
      { cleared := fun _ _ => rfl
        valid := nofun
        stored_lt := by decide
        known_lt := by decide
        waiting_lt := by
          intro num isWaiting
          cases mem_singleton.mp isWaiting
          decide
        idle := rfl }
  · decide +kernel

end MoacVnode.Core
